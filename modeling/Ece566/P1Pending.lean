import Ece566.P1Frame

/- The pending slices, at every point of a parse. A bottom-up parse has reduced some
   statements, and of the one it is in the parts up to some point (`Passes`); texts that are
   not programs get no further than a program that begins the same way. The actions of a
   left-hand side store the slice under its own variable only, and the assignment, which
   ends the statement, puts the default back. -/
namespace Ece566.P1

/-- Of the variables, only `x` has a slice pending. -/
def OnlyPending (x : Option String) (st : Parser) : Prop :=
  ∀ y vs, st.valueSliceDict y = some vs → x = some y ∨ vs.slice = defaultSlice

/-- The variable a statement assigns to. -/
def Statement.target : Statement → Option String
  | .assign l _ => some l.var
  | .slice _ => none

/-! The points of a parse. -/

/-- A part of a statement. -/
inductive Tree where
  | expr (e : Expr)
  | bitslice (b : Bitslice)
  | list (l : BitsliceList)
  | lhs (l : BitsliceLhs)
  | field (f : Field)
  | statement (s : Statement)

def Tree.children : Tree → List Tree
  | .expr (.bitslice b) => [.bitslice b]
  | .expr (.plus a b) | .expr (.minus a b) | .expr (.xor a b) | .expr (.and a b) | .expr (.or a b)
  | .expr (.mul a b) | .expr (.div a b) | .expr (.mod a b) => [.expr a, .expr b]
  | .expr (.inv a) | .expr (.binv a) | .expr (.reduceAnd a) | .expr (.reduceOr a) | .expr (.reduceXor a)
  | .expr (.reducePlus a) | .expr (.expand a) => [.expr a]
  | .bitslice (.id _) | .bitslice (.number _) => []
  | .bitslice (.list l) => [.list l]
  | .bitslice (.paren e) => [.expr e]
  | .bitslice (.bit b _) | .bitslice (.dot b _) => [.bitslice b]
  | .bitslice (.bracket b e) => [.bitslice b, .expr e]
  | .bitslice (.range b hi lo) => [.bitslice b, .expr hi, .expr lo]
  | .list (.one b) => [.bitslice b]
  | .list (.snoc l b) => [.list l, .bitslice b]
  | .lhs (.id _) => []
  | .lhs (.bit l _) | .lhs (.dot l _) => [.lhs l]
  | .lhs (.bracket l e) => [.lhs l, .expr e]
  | .lhs (.range l hi lo) => [.lhs l, .expr hi, .expr lo]
  | .field (.bit _ e) => [.expr e]
  | .field (.wide _ n e) => [.expr n, .expr e]
  | .field (.bare _) => []
  | .statement (.assign l e) => [.lhs l, .expr e]
  | .statement (.slice fields) => fields.map .field

section
variable (handleBitsliceID : String → Parse Value)

/-- Its reduction, and those of its parts before it. -/
def Tree.act : Tree → Parse Unit
  | .expr e => do let _ ← e.act handleBitsliceID
  | .bitslice b => do let _ ← b.act handleBitsliceID
  | .list l => do let _ ← l.act handleBitsliceID
  | .lhs l => do let _ ← l.act handleBitsliceID
  | .field f => f.act handleBitsliceID
  | .statement s => s.act handleBitsliceID

def actTrees : List Tree → Parse Unit
  | [] => pure ()
  | t :: ts => do
    t.act handleBitsliceID
    actTrees ts

/-- Parsing `t` from the first state, the parser comes to the second right after a reduction. -/
inductive Passes : Tree → Parser → Parser → Prop
  | reduced {t : Tree} {st st' : Parser} : (t.act handleBitsliceID).run st = some ((), st') → Passes t st st'
  | within {t c : Tree} {done rest : List Tree} {st st₁ st' : Parser} : t.children = done ++ c :: rest →
      (actTrees handleBitsliceID done).run st = some ((), st₁) → Passes c st₁ st' → Passes t st st'

/-- The parse up to the end of the first `n` statements. -/
def Reaches (p : Program) (n : Nat) (st : Parser) : Prop :=
  (do actInputs p.params 0; actStatements handleBitsliceID (p.statements.take n)).run Parser.init = some ((), st)

end

variable {handleBitsliceID : String → Parse Value} {x : Option String} {y : String} {st st' : Parser}

/-! The actions. -/

theorem OnlyPending.keeps (h : Keeps st st') (hst : OnlyPending x st) : OnlyPending x st' := by
  intro y vs hy
  rw [h.vals] at hy
  exact hst y vs hy

theorem OnlyPending.of_none (hst : OnlyPending none st) : OnlyPending x st := by
  intro y vs hy
  rcases hst y vs hy with h | h
  · cases h
  · exact .inr h

theorem Quiet.pending {α : Type} {a : Parse α} (h : Quiet a) : Leads (OnlyPending x) a (fun _ => OnlyPending x) :=
  Leads.of_always h fun _ _ => OnlyPending.keeps

/-- An entry of the variable itself. -/
theorem setValueSlice_pending (vs : ValueSlice) :
    Leads (OnlyPending (some y)) (setValueSlice y vs) (fun _ => OnlyPending (some y)) := by
  refine Leads.modify' fun s hs z vs' hz => ?_
  by_cases hyz : z = y
  · exact .inl (congrArg some hyz.symm)
  · exact hs z vs' (by simpa [Parser.setValue, setKey, hyz] using hz)

/-- And one with the default slice. -/
theorem setDefault_pending (v : Value) :
    Leads (OnlyPending (some y)) (setValueSlice y ⟨v, defaultSlice⟩) (fun _ => OnlyPending none) := by
  refine Leads.modify' fun s hs z vs hz => .inr ?_
  by_cases hyz : z = y
  · simp only [Parser.setValue, setKey, hyz, if_pos] at hz
    rw [← Option.some.inj hz]
  · have hz' : s.valueSliceDict z = some vs := by simpa [Parser.setValue, setKey, hyz] using hz
    rcases hs z vs hz' with h | h
    · exact absurd (Option.some.inj h).symm hyz
    · exact h

theorem sliceFurther_pending (slice : Slice) :
    Leads (OnlyPending (some y)) (sliceFurther y slice) (fun _ => OnlyPending (some y)) := by
  refine Leads.get_bind fun s => ?_
  cases s.valueSliceDict y with
  | some vs => exact (create_quiet _ _ _).pending.bind' fun _ => setValueSlice_pending _
  | none => exact setValueSlice_pending _

theorem replaceSlice_pending (slice : Slice) :
    Leads (OnlyPending (some y)) (replaceSlice y slice) (fun _ => OnlyPending (some y)) := by
  refine Leads.get_bind fun s => ?_
  cases s.valueSliceDict y with
  | some vs => exact setValueSlice_pending _
  | none => exact (yyerror_quiet _).pending

/-- The assignment puts the default slice back, whether there was an entry or not. -/
theorem actAssign_default (e : Value) :
    Leads (OnlyPending (some y)) (actAssign y e) (fun _ => OnlyPending none) := by
  refine Leads.get_bind fun s => ?_
  cases s.valueSliceDict y with
  | some vs =>
    refine (createMask_quiet _ _).pending.bind' fun mask => ?_
    refine (create_quiet _ _ _).pending.bind' fun expr => ?_
    refine (create_quiet _ _ _).pending.bind' fun maskedExpr => ?_
    refine (create_quiet _ _ _).pending.bind' fun invertedMask => ?_
    refine (create_quiet _ _ _).pending.bind' fun safeValue => ?_
    exact (create_quiet _ _ _).pending.bind' fun computedValue => setDefault_pending computedValue
  | none => exact setDefault_pending e

theorem numberFields_pending : ∀ (fs : List String) (argNo : Nat),
    Leads (OnlyPending x) (numberFields fs argNo) (fun _ => OnlyPending x)
  | [], _ => Leads.pure' fun _ h => h
  | f :: fs, argNo => by
    refine Leads.bind' (Q := fun _ => OnlyPending x) ?_ fun _ => numberFields_pending fs (argNo + 1)
    exact Leads.modify' fun _ h => h

theorem actInputs_pending : ∀ (ps : List String) (argNo : Nat),
    Leads (OnlyPending none) (actInputs ps argNo) (fun _ => OnlyPending none)
  | [], _ => Leads.pure' fun _ h => h
  | _ :: ps, argNo => (Leads.weaken (fun _ h => h.of_none) (setDefault_pending _)).bind' fun _ =>
      actInputs_pending ps (argNo + 1)

theorem addSlice_pending {key : String} {slice : Slice} :
    Leads (OnlyPending x) (addSlice key slice) (fun _ => OnlyPending x) := by
  refine Leads.modify' fun s hs => ?_
  cases s.slicesDict key with
  | some _ => exact hs
  | none => exact hs

/-! Left-hand sides, and the parts of a statement. -/

section
variable (hq : QuietID handleBitsliceID)
include hq

/-- The slice is stored under the variable the left-hand side is about. -/
theorem lhs_onlyPending : ∀ (l : BitsliceLhs), Leads (OnlyPending (some l.var)) (l.act handleBitsliceID)
    (fun y st => y = l.var ∧ OnlyPending (some l.var) st)
  | .id x => Leads.pure' fun _ h => ⟨rfl, h⟩
  | .bit l _ => by
    refine (lhs_onlyPending l).bind' fun y => Leads.assuming fun e => Leads.get_bind fun s => ?_
    subst e
    cases s.valueSliceDict l.var with
    | some vs => exact Leads.pure' fun _ h => ⟨rfl, h⟩
    | none => exact (yyerror_quiet _).pending.bind' fun _ => Leads.pure' fun _ h => ⟨rfl, h⟩
  | .dot l f => by
    refine (lhs_onlyPending l).bind' fun y => Leads.assuming fun e => Leads.get_bind fun s => ?_
    subst e
    -- a slice that is not declared ends the parse
    cases s.slicesDict f with
    | some slice => exact (sliceFurther_pending slice).bind' fun _ => Leads.pure' fun _ h => ⟨rfl, h⟩
    | none => exact Leads.fail
  | .bracket l e => by
    refine (lhs_onlyPending l).bind' fun y => Leads.assuming fun hy => ?_
    subst hy
    refine (Expr.act_quiet hq e).pending.bind' fun i => ?_
    exact (replaceSlice_pending _).bind' fun _ => Leads.pure' fun _ h => ⟨rfl, h⟩
  | .range l hi lo => by
    refine (lhs_onlyPending l).bind' fun y => Leads.assuming fun hy => ?_
    subst hy
    refine (Expr.act_quiet hq hi).pending.bind' fun h => ?_
    refine (Expr.act_quiet hq lo).pending.bind' fun l' => ?_
    refine (create_quiet _ _ _).pending.bind' fun d => (create_quiet _ _ _).pending.bind' fun range => ?_
    exact (replaceSlice_pending _).bind' fun _ => Leads.pure' fun _ h => ⟨rfl, h⟩

theorem field_pending : ∀ (f : Field), Leads (OnlyPending x) (f.act handleBitsliceID) (fun _ => OnlyPending x)
  | .bit _ e => (Expr.act_quiet hq e).pending.bind' fun _ => addSlice_pending
  | .wide _ n e => (Expr.act_quiet hq n).pending.bind' fun _ => (Expr.act_quiet hq e).pending.bind' fun _ =>
      addSlice_pending
  | .bare _ => Leads.modify' fun _ h => h

theorem actFields_pending : ∀ (fields : List Field),
    Leads (OnlyPending x) (actFields handleBitsliceID fields) (fun _ => OnlyPending x)
  | [] => Leads.pure' fun _ h => h
  | f :: fields => (field_pending hq f).bind' fun _ => actFields_pending fields

end

/-- A tree in which no slice is stored but those of `x`. -/
def Tree.Stores (x : Option String) : Tree → Prop
  | .lhs l => x = some l.var
  | .statement _ => False
  | _ => True

theorem children_stores {t : Tree} (ht : t.Stores x) : ∀ c ∈ t.children, c.Stores x := by
  cases t with
  | expr e => cases e <;> simp [Tree.children, Tree.Stores]
  | bitslice b => cases b <;> simp [Tree.children, Tree.Stores]
  | list l => cases l <;> simp [Tree.children, Tree.Stores]
  | lhs l =>
    have hl : x = some l.var := ht
    cases l <;> simp [Tree.children, Tree.Stores, hl, BitsliceLhs.var]
  | field f => cases f <;> simp [Tree.children, Tree.Stores]
  | statement s => exact ht.elim

section
variable (hq : QuietID handleBitsliceID)
include hq

theorem tree_pending {t : Tree} (ht : t.Stores x) :
    Leads (OnlyPending x) (t.act handleBitsliceID) (fun _ => OnlyPending x) := by
  cases t with
  | expr e => exact (Expr.act_quiet hq e).pending.bind' fun _ => Leads.pure' fun _ h => h
  | bitslice b => exact (Bitslice.act_quiet hq b).pending.bind' fun _ => Leads.pure' fun _ h => h
  | list l => exact (BitsliceList.act_quiet hq l).pending.bind' fun _ => Leads.pure' fun _ h => h
  | lhs l =>
    obtain rfl : x = some l.var := ht
    exact (lhs_onlyPending hq l).bind' fun _ => Leads.pure' fun _ h => h.2
  | field f => exact field_pending hq f
  | statement s => exact ht.elim

theorem actTrees_pending : ∀ (ts : List Tree), (∀ t ∈ ts, t.Stores x) →
    Leads (OnlyPending x) (actTrees handleBitsliceID ts) (fun _ => OnlyPending x)
  | [], _ => Leads.pure' fun _ h => h
  | t :: ts, hts => (tree_pending hq (hts t List.mem_cons_self)).bind' fun _ =>
      actTrees_pending ts fun t ht => hts t (List.mem_cons_of_mem _ ht)

theorem Passes.pending {t : Tree} (h : Passes handleBitsliceID t st st') (ht : t.Stores x)
    (hst : OnlyPending x st) : OnlyPending x st' := by
  induction h with
  | reduced hrun => exact tree_pending hq ht _ _ _ hst hrun
  | @within t c done rest st st₁ st' hchildren hrun _ ih =>
    have hall := children_stores ht
    rw [hchildren] at hall
    have hdone : ∀ d ∈ done, d.Stores x := fun d hd => hall d (List.mem_append_left _ hd)
    have hc : c.Stores x := hall c (List.mem_append_right _ List.mem_cons_self)
    exact ih hc (actTrees_pending hq done hdone _ _ _ hst hrun)

/-! Statements. -/

/-- At the end of a statement no slice is pending. -/
theorem statement_pending : ∀ (s : Statement),
    Leads (OnlyPending none) (s.act handleBitsliceID) (fun _ => OnlyPending none)
  | .assign l e => by
    refine Leads.weaken (fun _ h => h.of_none) ((lhs_onlyPending hq l).bind' fun y => Leads.assuming fun hy => ?_)
    subst hy
    exact (Expr.act_quiet hq e).pending.bind' fun v => actAssign_default v
  | .slice fields => by
    refine (actFields_pending hq fields).bind' fun _ => Leads.get_bind fun s => ?_
    exact (numberFields_pending _ _).bind' fun _ => Leads.modify' fun _ h => h

theorem actStatements_pending : ∀ (ss : List Statement),
    Leads (OnlyPending none) (actStatements handleBitsliceID ss) (fun _ => OnlyPending none)
  | [] => Leads.pure' fun _ h => h
  | s :: ss => (statement_pending hq s).bind' fun _ => actStatements_pending ss

theorem Reaches.pending {p : Program} {n : Nat} (h : Reaches handleBitsliceID p n st) : OnlyPending none st := by
  have hstart : OnlyPending none Parser.init := fun _ _ h => nomatch h
  exact ((actInputs_pending p.params 0).bind' fun _ => actStatements_pending hq _) _ _ _ hstart h

/-- In the middle of a statement only its own variable has a slice pending. -/
theorem Passes.statement {s : Statement} (h : Passes handleBitsliceID (.statement s) st st')
    (hst : OnlyPending none st) : OnlyPending s.target st' := by
  cases h with
  | reduced hrun => exact (statement_pending hq s _ _ _ hst hrun).of_none
  | @within _ c done rest _ st₁ _ hchildren hrun hpasses =>
    -- in an assignment its left-hand side is the only part that stores a slice
    have hall : ∀ c ∈ (Tree.statement s).children, c.Stores s.target := by
      cases s <;> simp [Tree.children, Tree.Stores, Statement.target]
    rw [hchildren] at hall
    have hdone : ∀ d ∈ done, d.Stores s.target := fun d hd => hall d (List.mem_append_left _ hd)
    have hc : c.Stores s.target := hall c (List.mem_append_right _ List.mem_cons_self)
    exact hpasses.pending hq hc (actTrees_pending hq done hdone _ _ _ hst.of_none hrun)

end

/-- **No slice is left pending by a statement.** When the inputs and some of the statements have
been parsed every variable has the default slice; and at every point of the next one only
the variable it assigns to may have another, whatever is selected of it and whatever is read. -/
theorem pending_slices (hq : QuietID handleBitsliceID) (p : Program) (n : Nat) (st : Parser)
    (h : Reaches handleBitsliceID p n st) :
    OnlyPending none st ∧ ∀ s, p.statements[n]? = some s → ∀ st',
      Passes handleBitsliceID (.statement s) st st' → OnlyPending s.target st' :=
  ⟨h.pending hq, fun _ _ _ hpasses => hpasses.statement hq (h.pending hq)⟩

/-- A variable is assigned to, and then one of its bits. -/
def assignBit : Program where
  params := ["a"]
  statements := [.assign (.id "x") (.bitslice (.id "a")),
    .assign (.bracket (.id "x") (.bitslice (.number 3))) (.bitslice (.id "a"))]
  final := .bitslice (.id "x")

theorem pending_slices_assignBit : ∃ st, Reaches findID assignBit 1 st ∧ OnlyPending none st ∧
    ∀ s, assignBit.statements[1]? = some s → ∀ st',
      Passes findID (.statement s) st st' → OnlyPending s.target st' :=
  ⟨_, rfl, pending_slices findID_quiet assignBit 1 _ rfl⟩

end Ece566.P1
