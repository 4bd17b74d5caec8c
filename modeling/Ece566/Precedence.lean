import Mathlib

/- Expression grammars as `bison` parses them. The productions of an expression are an atom, two
   expressions with an operator between them, an operator before an expression, and an
   expression in brackets. Such a grammar is ambiguous, and `%left` resolves it: where a rule
   is complete and an operator comes next, the rule is reduced unless the operator is of a
   higher level than the operator of the rule.

   The stack of the parser is a list of what is begun and not complete (`Frame`). The
   semantic actions run in a monad as their rules are reduced. The parser is right and
   complete for the trees that respect the levels (`Tree.Fits`): it runs the actions of
   the tree from the left to the right and from the bottom up (`parse_yield`), and what it
   accepts is such a tree (`parse_sound`), whatever the actions do (`parse_run`). -/
namespace Ece566.Precedence

/-- A token of an expression, or another one. -/
inductive Token (α ω κ : Type) where
  | atom (a : α)
  | op (o : ω)
  | opening (k : κ)
  | closing (k : κ)
  | other

/-- The operators that may stand between and before expressions, and their levels. -/
structure Operators (ω : Type) where
  binary : ω → Bool
  unary : ω → Bool
  level : ω → Nat

/-- Whether the rule of operator `r` is reduced, and `o` not shifted, when `o` comes next. -/
def Operators.reduces {ω : Type} (O : Operators ω) (o r : ω) : Bool := O.level o ≤ O.level r

/-- A derivation. -/
inductive Tree (α ω κ : Type) where
  | atom (a : α)
  | binary (o : ω) (l r : Tree α ω κ)
  | unary (o : ω) (t : Tree α ω κ)
  | bracket (k : κ) (t : Tree α ω κ)

/-- What is on the stack: a left operand with its value, an operator, an open bracket. -/
inductive Frame (ω κ V : Type) where
  | binary (o : ω) (v : V)
  | unary (o : ω)
  | bracket (k : κ)

/-- The semantic actions of the four kinds of production. -/
structure Actions (α ω κ V : Type) (m : Type → Type) where
  atom : α → m V
  binary : ω → V → V → m V
  unary : ω → V → m V
  bracket : κ → V → m V

variable {α ω κ V τ : Type} {m : Type → Type}

/-- The actions that build the tree. -/
def build : Actions α ω κ (Tree α ω κ) Id where
  atom a := pure (.atom a)
  binary o l r := pure (.binary o l r)
  unary o t := pure (.unary o t)
  bracket k t := pure (.bracket k t)

/-- The actions of a tree, from the left to the right and from the bottom up. -/
def Tree.run [Monad m] (acts : Actions α ω κ V m) : Tree α ω κ → m V
  | .atom a => acts.atom a
  | .binary o l r => do
    let x ← l.run acts
    let y ← r.run acts
    acts.binary o x y
  | .unary o t => do
    let x ← t.run acts
    acts.unary o x
  | .bracket k t => do
    let x ← t.run acts
    acts.bracket k x

def Tree.yield : Tree α ω κ → List (Token α ω κ)
  | .atom a => [.atom a]
  | .binary o l r => l.yield ++ .op o :: r.yield
  | .unary o t => .op o :: t.yield
  | .bracket k t => .opening k :: t.yield ++ [.closing k]

/-- The tokens of an expression are of its own kinds. -/
theorem other_not_mem (t : Tree α ω κ) : Token.other ∉ t.yield := by
  induction t with
  | atom a => simp [Tree.yield]
  | binary o l r ihl ihr => simp [Tree.yield, ihl, ihr]
  | unary o t ih => simp [Tree.yield, ih]
  | bracket k t ih => simp [Tree.yield, ih]

/-! The parser. -/

section
variable [Monad m] [DecidableEq κ] (O : Operators ω) (acts : Actions α ω κ V m)
variable (classify : τ → Token α ω κ)

/-- The rules on the stack whose operator is one to reduce are reduced. -/
def reduce (p : ω → Bool) : List (Frame ω κ V) → V → m (List (Frame ω κ V) × V)
  | .binary o x :: s, v => if p o then do reduce p s (← acts.binary o x v) else pure (.binary o x :: s, v)
  | .unary o :: s, v => if p o then do reduce p s (← acts.unary o v) else pure (.unary o :: s, v)
  | s, v => pure (s, v)

/-- At the end of the expression: its value, if no bracket is open, and the tokens left. -/
def finish (ts : List τ) (s : List (Frame ω κ V)) (v : V) : m (Option (V × List τ)) := do
  match ← reduce acts (fun _ => true) s v with
  | ([], v) => return some (v, ts)
  | _ => return none

mutual

/-- An expression comes next. -/
def expect : List τ → List (Frame ω κ V) → m (Option (V × List τ))
  | [], _ => pure none
  | x :: ts, s =>
    match classify x with
    | .atom a => do hold ts s (← acts.atom a)
    | .op o => if O.unary o then expect ts (.unary o :: s) else pure none
    | .opening k => expect ts (.bracket k :: s)
    | _ => pure none

/-- An expression of value `v` has been read. -/
def hold : List τ → List (Frame ω κ V) → V → m (Option (V × List τ))
  | [], s, v => finish acts [] s v
  | x :: ts, s, v =>
    match classify x with
    | .op o =>
      if O.binary o then do
        let (s, v) ← reduce acts (O.reduces o) s v
        expect ts (.binary o v :: s)
      else finish acts (x :: ts) s v
    | .closing k => do
      match ← reduce acts (fun _ => true) s v with
      | ([], v) => return some (v, x :: ts)
      | (.bracket k' :: s, v) => if k' = k then do hold ts s (← acts.bracket k v) else pure none
      | _ => return none
    | _ => finish acts (x :: ts) s v

end

/-- The value of the longest expression at the beginning, and the tokens left. -/
def parse (ts : List τ) : m (Option (V × List τ)) := expect O acts classify ts []

/-- An expression and token `x` after it. -/
def parseTo [DecidableEq τ] (x : τ) (ts : List τ) : m (Option (V × List τ)) := do
  match ← parse O acts classify ts with
  | some (v, y :: rest) => if y = x then return some (v, rest) else return none
  | _ => return none

end

/-! The trees that respect the levels. -/

section
variable (O : Operators ω)

/-- The operator of every rule at the right end of the tree is one of `p`. -/
def Tree.Closed (p : ω → Bool) : Tree α ω κ → Prop
  | .binary o _ r => p o = true ∧ r.Closed p
  | .unary o t => p o = true ∧ t.Closed p
  | _ => True

/-- The tree may stand to the right of operator `r`: it is no binary one, or one whose operator
does not have the rule of `r` reduced. -/
def Tree.Under (r : ω) : Tree α ω κ → Prop
  | .binary o _ _ => O.reduces o r = false
  | _ => True

def Tree.Fits : Tree α ω κ → Prop
  | .atom _ => True
  | .binary o l r => O.binary o = true ∧ l.Fits ∧ r.Fits ∧ l.Closed (O.reduces o) ∧ r.Under O o
  | .unary o t => O.unary o = true ∧ t.Fits ∧ t.Under O o
  | .bracket _ t => t.Fits

/-- The tree with other atoms. -/
def Tree.map {β : Type} (f : α → β) : Tree α ω κ → Tree β ω κ
  | .atom a => .atom (f a)
  | .binary o l r => .binary o (l.map f) (r.map f)
  | .unary o t => .unary o (t.map f)
  | .bracket k t => .bracket k (t.map f)

/-- What comes after the expression does not go on with it. -/
def Ends (classify : τ → Token α ω κ) (rest : List τ) : Prop :=
  ∀ x ∈ rest.head?, ∀ o, classify x = .op o → O.binary o = false

end

section
variable {β : Type} {f : α → β} {O : Operators ω} {p : ω → Bool} {o : ω} {t : Tree α ω κ}

theorem Tree.Closed.map (h : t.Closed p) : (t.map f).Closed p := by
  induction t with
  | atom a => trivial
  | binary o' l r _ ih => exact ⟨h.1, ih h.2⟩
  | unary o' t ih => exact ⟨h.1, ih h.2⟩
  | bracket k t _ => trivial

theorem Tree.Under.map (h : t.Under O o) : (t.map f).Under O o := by
  cases t with
  | binary o' l r => exact h
  | _ => trivial

/-- Whether a tree fits does not depend on its atoms. -/
theorem Tree.Fits.map (h : t.Fits O) : (t.map f).Fits O := by
  induction t with
  | atom a => trivial
  | binary o' l r ihl ihr =>
    obtain ⟨hb, hl, hr, hclosed, hunder⟩ := h
    exact ⟨hb, ihl hl, ihr hr, hclosed.map, hunder.map⟩
  | unary o' t ih =>
    obtain ⟨hu, ht, hunder⟩ := h
    exact ⟨hu, ih ht, hunder.map⟩
  | bracket k t ih => exact ih h

end

/-! What fits is parsed, with its actions run in the order of the tree. -/

section
variable [Monad m] {O : Operators ω} {acts : Actions α ω κ V m} {classify : τ → Token α ω κ}
variable {ts rest : List τ} {s : List (Frame ω κ V)} {o : ω} {v x : V}

/-- Tree `t` is complete when `rest` comes next. -/
def Complete (O : Operators ω) (classify : τ → Token α ω κ) (rest : List τ) (t : Tree α ω κ) : Prop :=
  ∀ x ∈ rest.head?, ∀ o, classify x = .op o → O.binary o = true → t.Closed (O.reduces o)

/-- The operator of the rule that is begun. -/
def Frame.op : Frame ω κ V → Option ω
  | .binary r _ | .unary r => some r
  | .bracket _ => none

/-- The action of the rule, its last expression having value `v`. -/
def Frame.act (acts : Actions α ω κ V m) (f : Frame ω κ V) (v : V) : m V :=
  match f with
  | .binary r x => acts.binary r x v
  | .unary r => acts.unary r v
  | .bracket k => acts.bracket k v

/-- Operator `o` does not have the rule on top of the stack reduced. -/
def Stays (O : Operators ω) (o : ω) (s : List (Frame ω κ V)) : Prop :=
  ∀ f ∈ s.head?, ∀ r ∈ f.op, O.reduces o r = false

theorem reduce_cons {p : ω → Bool} {f : Frame ω κ V} {r : ω} (hr : f.op = some r) :
    reduce acts p (f :: s) v =
      if p r then f.act acts v >>= reduce acts p s else pure (f :: s, v) := by
  cases f with
  | bracket k => cases hr
  | _ =>
    obtain rfl := Option.some.inj hr
    rfl

theorem reduce_stays (h : Stays O o s) : reduce acts (O.reduces o) s v = pure (s, v) := by
  match s with
  | [] | .bracket _ :: _ => rfl
  | .binary r x :: s =>
    rw [reduce_cons rfl, h _ rfl r rfl]
    rfl
  | .unary r :: s =>
    rw [reduce_cons rfl, h _ rfl r rfl]
    rfl

/-- The operator of the tree, where it is a binary one. -/
def Tree.root : Tree α ω κ → Option ω
  | .binary o _ _ => some o
  | _ => none

theorem Tree.Closed.stays {t : Tree α ω κ} (h : t.Closed (O.reduces o)) (hs : Stays O o s) :
    ∀ o' ∈ t.root, Stays O o' s := by
  intro o' ho' f hf r hr
  cases t with
  | binary o₂ l r' =>
    obtain rfl := Option.some.inj ho'
    have h₁ := hs f hf r hr
    have h₂ := h.1
    simp only [Operators.reduces, decide_eq_true_eq, decide_eq_false_iff_not] at h₁ h₂ ⊢
    omega
  | _ => cases ho'

theorem Tree.Under.stays {t : Tree α ω κ} {f : Frame ω κ V} (h : t.Under O o) (hf : f.op = some o) :
    ∀ o' ∈ t.root, Stays O o' (f :: s) := by
  intro o' ho' f' hf' r hr
  obtain rfl := Option.some.inj hf'
  obtain rfl := Option.some.inj (hf.symm.trans hr)
  cases t with
  | binary o₂ _ _ =>
    obtain rfl := Option.some.inj ho'
    exact h
  | _ => cases ho'

/-- A left operand is complete when its operator comes next. -/
theorem Tree.Closed.complete {t : Tree α ω κ} {y : τ} (hy : classify y = .op o)
    (h : t.Closed (O.reduces o)) : Complete O classify (y :: rest) t := by
  intro z hz o' ho' _
  obtain rfl := Option.some.inj hz
  obtain rfl := Token.op.inj (hy.symm.trans ho')
  exact h

variable [LawfulMonad m] [DecidableEq κ]

/-- A rule is reduced when what comes next completes it. -/
theorem hold_reduce {f : Frame ω κ V} {r : ω} (hr : f.op = some r)
    (h : ∀ x ∈ rest.head?, ∀ o, classify x = .op o → O.binary o = true → O.reduces o r = true) :
    hold O acts classify rest (f :: s) v = f.act acts v >>= hold O acts classify rest s := by
  have hfinish : ∀ ts : List τ, finish acts ts (f :: s) v = f.act acts v >>= finish acts ts s := by
    intro ts
    rw [finish, reduce_cons hr, if_pos rfl, bind_assoc]
    exact bind_congr fun w => by rw [finish]
  match rest with
  | [] =>
    have hnil : hold O acts classify [] s = finish acts [] s := by
      funext v
      rw [hold]
    rw [hold, hfinish, hnil]
  | x :: ts =>
    rw [hold]
    cases hx : classify x with
    | op o =>
      cases ho : O.binary o with
      | false => simp [hold, hx, ho, hfinish]
      | true => simp [hold, hx, ho, reduce_cons hr, h x rfl o hx ho]
    | closing k => simp [hold, hx, reduce_cons hr]
    | _ => simp [hold, hx, hfinish]

/-- A tree that fits is read, where its operator leaves the stack as it is and what comes next
completes it. -/
theorem expect_yield (t : Tree α ω κ) : ∀ {ts rest : List τ} {s : List (Frame ω κ V)}, t.Fits O →
    (∀ o ∈ t.root, Stays O o s) → Complete O classify rest t → ts.map classify = t.yield →
    expect O acts classify (ts ++ rest) s = t.run acts >>= hold O acts classify rest s := by
  induction t with
  | atom a =>
    intro ts rest s _ _ _ hts
    obtain ⟨x, ts, rfl, hx, hnil⟩ := List.map_eq_cons_iff.mp hts
    obtain rfl := List.map_eq_nil_iff.mp hnil
    simp [expect, hx, Tree.run]
  | binary o l r ihl ihr =>
    intro ts rest s ⟨ho, hl, hr, hclosed, hunder⟩ hstays hcomplete hts
    obtain ⟨tl, ts', rfl, htl, hts'⟩ := List.map_eq_append_iff.mp hts
    obtain ⟨x, tr, rfl, hx, htr⟩ := List.map_eq_cons_iff.mp hts'
    have hs : Stays O o s := hstays o rfl
    have hshift : ∀ v, hold O acts classify (x :: (tr ++ rest)) s v =
        expect O acts classify (tr ++ rest) (.binary o v :: s) := by
      intro v
      rw [hold]
      simp [hx, ho, reduce_stays hs]
    calc expect O acts classify (tl ++ x :: tr ++ rest) s
        = l.run acts >>= hold O acts classify (x :: (tr ++ rest)) s := by
          rw [List.append_assoc]
          exact ihl hl (hclosed.stays hs) (hclosed.complete hx) htl
      _ = l.run acts >>= fun u => r.run acts >>= hold O acts classify rest (.binary o u :: s) :=
          bind_congr fun u => (hshift u).trans
            (ihr hr (hunder.stays rfl) (fun y hy o' ho' hb => (hcomplete y hy o' ho' hb).2) htr)
      _ = l.run acts >>= fun u => r.run acts >>= fun v =>
            acts.binary o u v >>= hold O acts classify rest s :=
          bind_congr fun u => bind_congr fun v => hold_reduce (f := .binary o u) rfl
            fun y hy o' ho' hb => (hcomplete y hy o' ho' hb).1
      _ = (Tree.binary o l r).run acts >>= hold O acts classify rest s := by simp [Tree.run]
  | unary o t ih =>
    intro ts rest s ⟨ho, ht, hunder⟩ _ hcomplete hts
    obtain ⟨x, ts, rfl, hx, hts⟩ := List.map_eq_cons_iff.mp hts
    calc expect O acts classify (x :: ts ++ rest) s
        = expect O acts classify (ts ++ rest) (.unary o :: s) := by
          rw [List.cons_append, expect]
          simp [hx, ho]
      _ = t.run acts >>= hold O acts classify rest (.unary o :: s) :=
          ih ht (hunder.stays rfl) (fun y hy o' ho' hb => (hcomplete y hy o' ho' hb).2) hts
      _ = t.run acts >>= fun v => acts.unary o v >>= hold O acts classify rest s :=
          bind_congr fun v => hold_reduce (f := .unary o) rfl
            fun y hy o' ho' hb => (hcomplete y hy o' ho' hb).1
      _ = (Tree.unary o t).run acts >>= hold O acts classify rest s := by simp [Tree.run]
  | bracket k t ih =>
    intro ts rest s ht _ _ hts
    obtain ⟨x, ts', rfl, hx, hts'⟩ := List.map_eq_cons_iff.mp hts
    obtain ⟨ts, ys, rfl, ht', hys⟩ := List.map_eq_append_iff.mp hts'
    obtain ⟨y, ys, rfl, hy, hnil⟩ := List.map_eq_cons_iff.mp hys
    obtain rfl := List.map_eq_nil_iff.mp hnil
    have hstays : ∀ o' ∈ t.root, Stays O o' (.bracket k :: s : List (Frame ω κ V)) := by
      intro o' _ f hf p hp
      obtain rfl := Option.some.inj hf
      cases hp
    have hcomplete : Complete O classify (y :: rest) t := by
      intro z hz o' ho' _
      obtain rfl := Option.some.inj hz
      rw [hy] at ho'
      cases ho'
    have hclose : ∀ v, hold O acts classify (y :: rest) (.bracket k :: s) v =
        acts.bracket k v >>= hold O acts classify rest s := by
      intro v
      rw [hold]
      simp [hy, reduce]
    calc expect O acts classify (x :: (ts ++ [y]) ++ rest) s
        = expect O acts classify (ts ++ y :: rest) (.bracket k :: s) := by
          rw [List.cons_append, expect]
          simp [hx]
      _ = t.run acts >>= hold O acts classify (y :: rest) (.bracket k :: s) :=
          ih ht hstays hcomplete ht'
      _ = t.run acts >>= fun v => acts.bracket k v >>= hold O acts classify rest s :=
          bind_congr hclose
      _ = (Tree.bracket k t).run acts >>= hold O acts classify rest s := by simp [Tree.run]

/-- **What fits is parsed**, with the actions of the tree in order. -/
theorem parse_yield {t : Tree α ω κ} (ht : t.Fits O) (hts : ts.map classify = t.yield)
    (hrest : Ends O classify rest) :
    parse O acts classify (ts ++ rest) = do return some (← t.run acts, rest) := by
  have hcomplete : Complete O classify rest t := by
    intro x hx o ho hb
    rw [hrest x hx o ho] at hb
    cases hb
  have hend : ∀ v, hold O acts classify rest [] v = pure (some (v, rest)) := by
    intro v
    match rest with
    | [] =>
      rw [hold]
      simp [finish, reduce]
    | x :: rest =>
      rw [hold]
      cases hx : classify x with
      | op o => simp [hrest x rfl o hx, finish, reduce]
      | _ => simp [finish, reduce]
  rw [parse, expect_yield t ht (fun o _ f hf => by cases hf) hcomplete hts]
  exact bind_congr hend

end

/-! What is parsed fits. -/

section
variable {O : Operators ω} {classify : τ → Token α ω κ} {ts rest : List τ}
variable {s s' : List (Frame ω κ (Tree α ω κ))} {t t' v : Tree α ω κ} {p : ω → Bool}

def Frame.yield : Frame ω κ (Tree α ω κ) → List (Token α ω κ)
  | .binary o l => l.yield ++ [.op o]
  | .unary o => [.op o]
  | .bracket k => [.opening k]

/-- The tokens that are on the stack. -/
def stackYield : List (Frame ω κ (Tree α ω κ)) → List (Token α ω κ)
  | [] => []
  | f :: s => stackYield s ++ f.yield

/-- A left operand fits, is completed by its operator, and is not reduced with what is below. -/
def StackFits (O : Operators ω) : List (Frame ω κ (Tree α ω κ)) → Prop
  | [] => True
  | .binary o l :: s =>
    (O.binary o = true ∧ l.Fits O ∧ l.Closed (O.reduces o) ∧ Stays O o s) ∧ StackFits O s
  | .unary o :: s => O.unary o = true ∧ StackFits O s
  | .bracket _ :: s => StackFits O s

/-- Tree `t` has been read, above stack `s`. -/
structure Read (O : Operators ω) (s : List (Frame ω κ (Tree α ω κ))) (t : Tree α ω κ) : Prop where
  stack : StackFits O s
  fits : t.Fits O
  stays : ∀ o ∈ t.root, Stays O o s

theorem StackFits.read (hs : StackFits O s) (hv : v.Fits O) (hroot : v.root = none) : Read O s v := by
  refine ⟨hs, hv, fun o ho => ?_⟩
  rw [hroot] at ho
  cases ho

theorem Read.under {f : Frame ω κ (Tree α ω κ)} {o : ω} (h : Read O (f :: s) t) (hf : f.op = some o) :
    t.Under O o := by
  cases t with
  | binary o' l r => exact h.stays o' rfl f rfl o hf
  | _ => trivial

/-- A reduction of the rule on top. -/
theorem Read.act {f : Frame ω κ (Tree α ω κ)} {o : ω} (h : Read O (f :: s) t) (hf : f.op = some o)
    (hp : t.Closed p) (ho : p o = true) :
    Read O s (f.act build t).run ∧ (f.act build t).run.Closed p ∧
      stackYield s ++ (f.act build t).run.yield = stackYield (f :: s) ++ t.yield := by
  cases f with
  | bracket k => cases hf
  | binary o' l =>
    obtain rfl := Option.some.inj hf
    obtain ⟨⟨hb, hl, hclosed, hstays⟩, hs⟩ := h.stack
    refine ⟨⟨hs, ⟨hb, hl, h.fits, hclosed, h.under rfl⟩, ?_⟩, ⟨ho, hp⟩, ?_⟩
    · intro o₂ ho₂
      obtain rfl := Option.some.inj ho₂
      exact hstays
    · simp [stackYield, Frame.yield, Frame.act, build, Tree.yield]
  | unary o' =>
    obtain rfl := Option.some.inj hf
    obtain ⟨hu, hs⟩ := h.stack
    refine ⟨⟨hs, ⟨hu, h.fits, h.under rfl⟩, fun o₂ ho₂ => by cases ho₂⟩, ⟨ho, hp⟩, ?_⟩
    simp [stackYield, Frame.yield, Frame.act, build, Tree.yield]

/-- Reductions keep what has been read and go on while the operator is one of `p`. -/
theorem reduce_read (h : Read O s t) (hp : t.Closed p) (hr : (reduce build p s t).run = (s', t')) :
    Read O s' t' ∧ t'.Closed p ∧ stackYield s' ++ t'.yield = stackYield s ++ t.yield ∧
      ∀ f ∈ s'.head?, ∀ r ∈ f.op, p r = false := by
  induction s generalizing t with
  | nil =>
    obtain ⟨rfl, rfl⟩ := Prod.mk.inj hr
    exact ⟨h, hp, rfl, fun f hf => by cases hf⟩
  | cons f s ih =>
    have hstop : (s', t') = (f :: s, t) → (∀ r ∈ f.op, p r = false) → Read O s' t' ∧ t'.Closed p ∧
        stackYield s' ++ t'.yield = stackYield (f :: s) ++ t.yield ∧
          ∀ f ∈ s'.head?, ∀ r ∈ f.op, p r = false := by
      intro e hf
      obtain ⟨rfl, rfl⟩ := Prod.mk.inj e
      exact ⟨h, hp, rfl, fun f' hf' => Option.some.inj hf' ▸ hf⟩
    cases hf : f.op with
    | none =>
      cases f with
      | bracket k => exact hstop hr.symm fun r hr => by cases hr
      | _ => cases hf
    | some o =>
      rw [reduce_cons hf] at hr
      cases ho : p o with
      | false =>
        rw [ho, if_neg Bool.false_ne_true] at hr
        exact hstop hr.symm fun r hr => Option.some.inj (hf.symm.trans hr) ▸ ho
      | true =>
        rw [ho, if_pos rfl] at hr
        obtain ⟨hread, hclosed, hyield⟩ := h.act hf hp ho
        obtain ⟨h₁, h₂, h₃, h₄⟩ := ih hread hclosed hr
        exact ⟨h₁, h₂, h₃.trans hyield, h₄⟩

/-- When all rules are reduced, the stack is empty or a bracket is open. -/
theorem reduce_all (h : Read O s t) (hp : ∀ p, t.Closed p)
    (hr : (reduce build (fun _ => true) s t).run = (s', t')) :
    Read O s' t' ∧ stackYield s' ++ t'.yield = stackYield s ++ t.yield := by
  obtain ⟨h₁, -, h₂, -⟩ := reduce_read h (hp _) hr
  exact ⟨h₁, h₂⟩

/-- Tree `t` is for some tokens and those that `ts` begins with, up to `rest`. -/
structure Parsed (O : Operators ω) (classify : τ → Token α ω κ) (before : List (Token α ω κ))
    (ts rest : List τ) (t : Tree α ω κ) : Prop where
  fits : t.Fits O
  ends : Ends O classify rest
  yield : ∃ pre, ts = pre ++ rest ∧ t.yield = before ++ pre.map classify

theorem Parsed.cons {before : List (Token α ω κ)} {x : τ}
    (h : Parsed O classify (before ++ [classify x]) ts rest t) :
    Parsed O classify before (x :: ts) rest t := by
  obtain ⟨pre, rfl, hy⟩ := h.yield
  exact ⟨h.fits, h.ends, x :: pre, rfl, by rw [hy]; simp⟩

theorem finish_parsed (h : Read O s v) (hp : ∀ p, v.Closed p) (hts : Ends O classify ts)
    (hr : (finish build ts s v).run = some (t, rest)) :
    Parsed O classify (stackYield s ++ v.yield) ts rest t := by
  obtain ⟨s', v', hr'⟩ : ∃ s' v', (reduce build (fun _ => true) s v).run = (s', v') := ⟨_, _, rfl⟩
  obtain ⟨h₁, h₂⟩ := reduce_all h hp hr'
  rw [finish, Id.run_bind, hr'] at hr
  split at hr
  · rename_i heq
    obtain ⟨rfl, rfl⟩ := Prod.mk.inj heq
    obtain ⟨rfl, rfl⟩ := Prod.mk.inj (Option.some.inj hr)
    exact ⟨h₁.fits, hts, [], rfl, by simpa [stackYield] using h₂⟩
  · cases hr

variable [DecidableEq κ]

/-- What `expect` gives on `ts` is right, above any stack. -/
def Expects (O : Operators ω) (classify : τ → Token α ω κ) (rest : List τ) (t : Tree α ω κ) (ts : List τ) : Prop :=
  ∀ s, StackFits O s → (expect O build classify ts s).run = some (t, rest) →
    Parsed O classify (stackYield s) ts rest t

/-- What `hold` gives on `ts` is right, above any stack and with any operand that has been read. -/
def Holds (O : Operators ω) (classify : τ → Token α ω κ) (rest : List τ) (t : Tree α ω κ) (ts : List τ) : Prop :=
  ∀ s v, Read O s v → v.root = none → (∀ p, v.Closed p) →
    (hold O build classify ts s v).run = some (t, rest) →
      Parsed O classify (stackYield s ++ v.yield) ts rest t

theorem Expects.cons {x : τ} (he : Expects O classify rest t ts) (hh : Holds O classify rest t ts) :
    Expects O classify rest t (x :: ts) := by
  intro s hs h
  rw [expect] at h
  refine Parsed.cons ?_
  cases hx : classify x with
  | atom a =>
    simp only [hx] at h
    exact hh s (.atom a) (hs.read trivial rfl) rfl (fun _ => trivial) h
  | op o =>
    simp only [hx] at h
    cases ho : O.unary o with
    | false =>
      rw [ho] at h
      cases h
    | true =>
      rw [ho] at h
      exact he (.unary o :: s) ⟨ho, hs⟩ h
  | opening k =>
    simp only [hx] at h
    exact he (.bracket k :: s) hs h
  | _ =>
    simp only [hx] at h
    cases h

/-- An operator after an operand: what it has reduced is its left operand. -/
theorem hold_op {x : τ} {o : ω} (he : Expects O classify rest t ts) (hx : classify x = .op o)
    (ho : O.binary o = true) (hread : Read O s v) (hp : ∀ p, v.Closed p)
    (h : (hold O build classify (x :: ts) s v).run = some (t, rest)) :
    Parsed O classify (stackYield s ++ v.yield) (x :: ts) rest t := by
  rw [hold] at h
  simp only [hx] at h
  rw [ho, if_pos rfl] at h
  obtain ⟨s', v', hr⟩ : ∃ s' v', (reduce build (O.reduces o) s v).run = (s', v') := ⟨_, _, rfl⟩
  obtain ⟨h₁, h₂, h₃, h₄⟩ := reduce_read hread (hp _) hr
  rw [Id.run_bind, hr] at h
  refine Parsed.cons ?_
  have hexpect := he (.binary o v' :: s') ⟨⟨ho, h₁.fits, h₂, h₄⟩, h₁.stack⟩ h
  rwa [stackYield, Frame.yield, ← List.append_assoc, h₃, ← hx] at hexpect

/-- A closing bracket after an operand: all is reduced, down to its opening bracket or to the end. -/
theorem hold_closing {x : τ} {k : κ} (hh : Holds O classify rest t ts) (hx : classify x = .closing k)
    (hread : Read O s v) (hp : ∀ p, v.Closed p)
    (h : (hold O build classify (x :: ts) s v).run = some (t, rest)) :
    Parsed O classify (stackYield s ++ v.yield) (x :: ts) rest t := by
  rw [hold] at h
  simp only [hx] at h
  obtain ⟨s', v', hr⟩ : ∃ s' v', (reduce build (fun _ => true) s v).run = (s', v') := ⟨_, _, rfl⟩
  obtain ⟨h₁, h₂⟩ := reduce_all hread hp hr
  rw [Id.run_bind, hr] at h
  match s' with
  | [] =>
    obtain ⟨rfl, rfl⟩ := Prod.mk.inj (Option.some.inj h)
    refine ⟨h₁.fits, fun y hy o ho => ?_, [], rfl, by simpa [stackYield] using h₂⟩
    obtain rfl := Option.some.inj hy
    rw [hx] at ho
    cases ho
  | .bracket k' :: s' =>
    simp only at h
    split at h
    · rename_i hk
      subst hk
      refine Parsed.cons ?_
      have hhold := hh s' (.bracket k' v') (StackFits.read h₁.stack h₁.fits rfl) rfl (fun _ => trivial) h
      rw [← h₂, hx]
      simpa [stackYield, Frame.yield, Tree.yield] using hhold
    · cases h
  | .binary o l :: s' => cases h
  | .unary o :: s' => cases h

/-- Anything else after an operand ends the expression. -/
theorem hold_other {x : τ} (hx : ∀ o, classify x = .op o → O.binary o = false)
    (hclosing : ∀ k, classify x ≠ .closing k) (hread : Read O s v) (hp : ∀ p, v.Closed p)
    (h : (hold O build classify (x :: ts) s v).run = some (t, rest)) :
    Parsed O classify (stackYield s ++ v.yield) (x :: ts) rest t := by
  have hends : Ends O classify (x :: ts) := by
    intro y hy o ho
    obtain rfl := Option.some.inj hy
    exact hx o ho
  refine finish_parsed hread hp hends ?_
  rw [hold] at h
  cases hy : classify x with
  | op o =>
    simp only [hy] at h
    rwa [hx o hy, if_neg Bool.false_ne_true] at h
  | closing k => exact absurd hy (hclosing k)
  | _ => simpa only [hy] using h

theorem Holds.cons {x : τ} (hh : Holds O classify rest t ts) (he : Expects O classify rest t ts) :
    Holds O classify rest t (x :: ts) := by
  intro s v hread hroot hp h
  cases hx : classify x with
  | op o =>
    cases ho : O.binary o with
    | false =>
      refine hold_other (fun o' ho' => ?_) (fun k hk => ?_) hread hp h
      · exact Token.op.inj (hx.symm.trans ho') ▸ ho
      · cases hx.symm.trans hk
    | true => exact hold_op he hx ho hread hp h
  | closing k => exact hold_closing hh hx hread hp h
  | _ =>
    exact hold_other (fun o ho => by cases hx.symm.trans ho) (fun k hk => by cases hx.symm.trans hk)
      hread hp h

theorem parsed (ts : List τ) : Expects O classify rest t ts ∧ Holds O classify rest t ts := by
  induction ts with
  | nil =>
    refine ⟨fun s _ h => ?_, fun s v hread _ hp h => ?_⟩
    · rw [expect] at h
      cases h
    · rw [hold] at h
      exact finish_parsed hread hp (fun x hx => by cases hx) h
  | cons x ts ih => exact ⟨ih.1.cons ih.2, ih.2.cons ih.1⟩

/-- **What is parsed fits**, and is for the tokens read. -/
theorem parse_sound (h : (parse O build classify ts).run = some (t, rest)) :
    t.Fits O ∧ Ends O classify rest ∧ ∃ pre, ts = pre ++ rest ∧ pre.map classify = t.yield := by
  obtain ⟨hfits, hends, pre, hts, hy⟩ := (parsed ts).1 [] trivial h
  exact ⟨hfits, hends, pre, hts, hy.symm⟩

end

/-! What is accepted does not depend on the actions. -/

section
variable {O : Operators ω} {classify : τ → Token α ω κ} {ts rest : List τ} {σ : Type}
variable {acts : Actions α ω κ V (StateM σ)} {s : List (Frame ω κ V)} {p : ω → Bool} {v : V} {st : σ}
variable {s' : List (Frame ω κ (Tree α ω κ))} {t : Tree α ω κ}

/-- A frame without its value. -/
def Frame.shape : Frame ω κ V → Frame ω κ Unit
  | .binary o _ => .binary o ()
  | .unary o => .unary o
  | .bracket k => .bracket k

theorem shape_op {f : Frame ω κ V} : f.shape.op = f.op := by
  cases f <;> rfl

theorem reduce_shape (acts : Actions α ω κ V (StateM σ)) (p : ω → Bool) (v : V) (t : Tree α ω κ) (st : σ)
    (h : s.map Frame.shape = s'.map Frame.shape) :
    ((reduce acts p s v).run st).1.1.map Frame.shape =
      (reduce build p s' t).run.1.map Frame.shape := by
  induction s generalizing s' v t st with
  | nil =>
    obtain rfl := List.map_eq_nil_iff.mp h.symm
    rfl
  | cons f s ih =>
    obtain ⟨f', s', rfl, hf, hs⟩ := List.map_eq_cons_iff.mp h.symm
    have hop : f'.op = f.op := by rw [← shape_op, hf, shape_op]
    cases hr : f.op with
    | none =>
      cases f with
      | bracket k =>
        cases f' with
        | bracket k' => exact h
        | _ => cases hf
      | _ => cases hr
    | some r =>
      rw [reduce_cons hr, reduce_cons (hop.trans hr)]
      cases hp : p r with
      | false => exact h
      | true => exact ih _ _ _ hs.symm

theorem finish_shape (h : s.map Frame.shape = s'.map Frame.shape) :
    ((finish acts ts s v).run st).1.map Prod.snd = (finish build ts s' t).run.map Prod.snd := by
  have hred := reduce_shape acts (fun _ => true) v t st h
  rw [finish, finish, StateT.run_bind, Id.run_bind]
  generalize (reduce acts (fun _ => true) s v).run st = r at hred ⊢
  generalize (reduce build (fun _ => true) s' t).run = r' at hred ⊢
  obtain ⟨⟨s₁, v₁⟩, st₁⟩ := r
  obtain ⟨s₂, t₂⟩ := r'
  match s₁, s₂ with
  | [], [] => rfl
  | _ :: _, _ :: _ => rfl
  | [], _ :: _ => cases hred
  | _ :: _, [] => cases hred

variable [DecidableEq κ]

/-- From stacks of the same shape, `expect` leaves the same of `ts` with `acts` as with `build`. -/
def ExpectsAlike (O : Operators ω) (classify : τ → Token α ω κ) (acts : Actions α ω κ V (StateM σ))
    (ts : List τ) : Prop :=
  ∀ s s' st, s.map Frame.shape = s'.map Frame.shape →
    ((expect O acts classify ts s).run st).1.map Prod.snd =
      (expect O build classify ts s').run.map Prod.snd

/-- And so does `hold`, whatever the operands. -/
def HoldsAlike (O : Operators ω) (classify : τ → Token α ω κ) (acts : Actions α ω κ V (StateM σ))
    (ts : List τ) : Prop :=
  ∀ s s' st v t, s.map Frame.shape = s'.map Frame.shape →
    ((hold O acts classify ts s v).run st).1.map Prod.snd =
      (hold O build classify ts s' t).run.map Prod.snd

theorem ExpectsAlike.cons {x : τ} (he : ExpectsAlike O classify acts ts) (hh : HoldsAlike O classify acts ts) :
    ExpectsAlike O classify acts (x :: ts) := by
  intro s s' st h
  rw [expect, expect]
  cases classify x with
  | atom a => exact hh s s' _ _ _ h
  | op o =>
    cases ho : O.unary o with
    | false =>
      simp only [ho]
      rfl
    | true =>
      simp only [ho, if_true]
      exact he (.unary o :: s) (.unary o :: s') _ (by simp [h, Frame.shape])
  | opening k => exact he (.bracket k :: s) (.bracket k :: s') _ (by simp [h, Frame.shape])
  | _ => rfl

/-- At a closing bracket: the stacks that the reductions leave have the same shape. -/
theorem hold_closing_shape {x : τ} {k : κ} (hh : HoldsAlike O classify acts ts) (hx : classify x = .closing k)
    (h : s.map Frame.shape = s'.map Frame.shape) :
    ((hold O acts classify (x :: ts) s v).run st).1.map Prod.snd =
      (hold O build classify (x :: ts) s' t).run.map Prod.snd := by
  have hred := reduce_shape acts (fun _ => true) v t st h
  rw [hold, hold, hx]
  simp only
  rw [StateT.run_bind, Id.run_bind]
  generalize (reduce acts (fun _ => true) s v).run st = r at hred ⊢
  generalize (reduce build (fun _ => true) s' t).run = r' at hred ⊢
  obtain ⟨⟨s₁, v₁⟩, st₁⟩ := r
  obtain ⟨s₂, t₂⟩ := r'
  match s₁, s₂ with
  | [], [] => rfl
  | .bracket k₁ :: s₁, .bracket k₂ :: s₂ =>
    obtain ⟨hk, hs⟩ := List.cons.inj hred
    obtain rfl : k₁ = k₂ := Frame.bracket.inj hk
    change ((if k₁ = k then acts.bracket k v₁ >>= hold O acts classify ts s₁
        else pure none : StateM σ _).run st₁).1.map Prod.snd =
      (if k₁ = k then build.bracket k t₂ >>= hold O build classify ts s₂
        else pure none : Id _).run.map Prod.snd
    split
    · exact hh s₁ s₂ _ _ _ hs
    · rfl
  | .binary _ _ :: _, .binary _ _ :: _ => rfl
  | .unary _ :: _, .unary _ :: _ => rfl
  | [], _ :: _ => cases hred
  | _ :: _, [] => cases hred
  | .bracket _ :: _, .binary _ _ :: _ => cases hred
  | .bracket _ :: _, .unary _ :: _ => cases hred
  | .binary _ _ :: _, .bracket _ :: _ => cases hred
  | .binary _ _ :: _, .unary _ :: _ => cases hred
  | .unary _ :: _, .bracket _ :: _ => cases hred
  | .unary _ :: _, .binary _ _ :: _ => cases hred

theorem HoldsAlike.cons {x : τ} (hh : HoldsAlike O classify acts ts) (he : ExpectsAlike O classify acts ts) :
    HoldsAlike O classify acts (x :: ts) := by
  intro s s' st v t h
  cases hx : classify x with
  | op o =>
    rw [hold, hold, hx]
    cases ho : O.binary o with
    | false =>
      simp only [ho]
      exact finish_shape h
    | true =>
      simp only [ho, if_true]
      have hred := reduce_shape acts (O.reduces o) v t st h
      rw [StateT.run_bind, Id.run_bind]
      exact he (.binary o _ :: _) (.binary o _ :: _) _ (by simp [hred, Frame.shape])
  | closing k => exact hold_closing_shape hh hx h
  | _ =>
    rw [hold, hold, hx]
    exact finish_shape h

/-- The parser goes the same way with all actions. -/
theorem shaped (ts : List τ) : ExpectsAlike O classify acts ts ∧ HoldsAlike O classify acts ts := by
  induction ts with
  | nil =>
    refine ⟨fun s s' st _ => ?_, fun s s' st v t h => ?_⟩
    · rw [expect, expect]
      rfl
    · rw [hold, hold]
      exact finish_shape h
  | cons x ts ih => exact ⟨ih.1.cons ih.2, ih.2.cons ih.1⟩

/-- **Whatever the actions**, what is parsed is a tree that fits, and what the parse gives and
leaves is what the actions of the tree give and leave. -/
theorem parse_run {r : V} {st' : σ} (h : (parse O acts classify ts).run st = (some (r, rest), st')) :
    ∃ (t : Tree α ω κ) (pre : List τ), t.Fits O ∧ Ends O classify rest ∧ ts = pre ++ rest ∧
      pre.map classify = t.yield ∧ (t.run acts).run st = (r, st') := by
  have hshape : ((parse O acts classify ts).run st).1.map Prod.snd =
      (parse O build classify ts).run.map Prod.snd := (shaped ts).1 [] [] st rfl
  rw [h] at hshape
  obtain ⟨⟨t, rest'⟩, ht, hrest⟩ := Option.map_eq_some_iff.mp hshape.symm
  obtain rfl : rest' = rest := hrest
  obtain ⟨hfits, hends, pre, rfl, hpre⟩ := parse_sound ht
  rw [parse_yield hfits hpre hends, StateT.run_bind] at h
  obtain ⟨h₁, h₂⟩ := Prod.mk.inj h
  refine ⟨t, pre, hfits, hends, rfl, hpre, Prod.ext ?_ h₂⟩
  exact (Prod.mk.inj (Option.some.inj h₁)).1

/-- **An expression up to a token that is no operator** is parsed when it fits, and its actions run. -/
theorem parseTo_iff [DecidableEq τ] {x : τ} (hx : ∀ o, classify x ≠ .op o) {r : V} {st' : σ} :
    (parseTo O acts classify x ts).run st = (some (r, rest), st') ↔
      ∃ (t : Tree α ω κ) (pre : List τ), t.Fits O ∧ pre.map classify = t.yield ∧ ts = pre ++ x :: rest ∧
        (t.run acts).run st = (r, st') := by
  constructor
  · intro h
    rw [parseTo, StateT.run_bind] at h
    generalize hp : (parse O acts classify ts).run st = q at h
    obtain ⟨_ | ⟨u, _ | ⟨y, ys⟩⟩, st₁⟩ := q
    · cases h
    · cases h
    · change ((if y = x then pure (some (u, ys)) else pure none : StateM σ _).run st₁) = _ at h
      split at h
      · rename_i hy
        subst hy
        obtain ⟨t, pre, ht, -, rfl, hpre, hrun⟩ := parse_run hp
        cases h
        exact ⟨t, pre, ht, hpre, rfl, hrun⟩
      · cases h
  · rintro ⟨t, pre, ht, hpre, rfl, hrun⟩
    have hends : Ends O classify (x :: rest) := by
      intro y hy o ho
      obtain rfl := Option.some.inj hy
      exact absurd ho (hx o)
    rw [parseTo, parse_yield ht hpre hends]
    simp only [StateT.run_bind, bind_assoc, hrun, pure_bind, if_true]
    rfl

end

end Ece566.Precedence
