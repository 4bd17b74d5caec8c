import Ece566.P1Correct

/- Assigning through a selection and reading the same selection. `BitsliceLhs.field`
   says which bits of its variable a left-hand side denotes; `pending` says which bits
   the actions of `bitslice_lhs` leave pending, that is which bits the assignment
   writes. A juxtaposed number is not stored back and a bracketed index is not moved
   by the selections before it, so the two differ; the main result says exactly when
   they do not. -/
namespace Ece566.P1

/-- The same selections, as an expression. -/
def BitsliceLhs.read : BitsliceLhs → Bitslice
  | .id x => .id x
  | .bit l k => .bit l.read k
  | .dot l f => .dot l.read f
  | .bracket l e => .bracket l.read e
  | .range l hi lo => .range l.read hi lo

/-- Numbers, bracketed indexes and named slices, in any order. -/
def BitsliceLhs.selects : BitsliceLhs → Bool
  | .id _ => true
  | .bit l _ | .dot l _ => l.selects
  | .bracket l e => l.selects && e.plain
  | .range _ _ _ => false

/-- The field the actions leave pending on the variable. -/
def BitsliceLhs.pending (env : Env) : BitsliceLhs → Option (Nat × Nat)
  | .id _ => some (0, 32)
  | .bit l _ => l.pending env
  | .dot l f => do
    let (s, _) ← l.pending env
    let (start, width) ← env.slices f
    some (s + start.toNat, width.toNat)
  | .bracket _ e => do some ((← e.eval env).toNat, 1)
  | .range _ hi lo => do
    let h ← hi.eval env
    some (h.toNat, (h - (← lo.eval env) + 1).toNat)

/-- No selection is lost: the numbers after the last bracketed index are all 0, and that
index is into a field that starts at bit 0. -/
def BitsliceLhs.stays (env : Env) : BitsliceLhs → Prop
  | .id _ => True
  | .bit l k => k = 0 ∧ l.stays env
  | .dot l _ => l.stays env
  | .bracket l _ | .range l _ _ => (l.field env).map Prod.fst = some 0

/-- A left-hand side without the numbers it ends with. -/
def BitsliceLhs.stored : BitsliceLhs → BitsliceLhs
  | .bit l _ => l.stored
  | l => l

/-- `x` holds the word `v`. -/
def Holds (args : List Word) (st : Parser) (x : String) (v : Word) : Prop :=
  ∃ vs, st.valueSliceDict x = some vs ∧ Means args st.block vs.value v

/-- Left-hand and right-hand selections agree on `l`, which denotes the field `(s, n)` of
a variable holding `xv`: whatever is assigned to it, `l` read afterwards is the low `n`
bits of what was assigned (as long as its indexes still denote that field, which they do
unless they mention the variable), and the other bits of the variable are as they were. -/
def Agrees (handleBitsliceID : String → Parse Value) (args : List Word) (st : Parser) (env : Env)
    (l : BitsliceLhs) (xv : Word) (s n : Nat) : Prop :=
  ∀ e ev, e.plain = true → e.eval env = some ev →
    Wp ((Statement.assign l e).act handleBitsliceID) (fun _ st' => ∃ xv',
      Holds args st' l.var xv' ∧ (∀ i, ¬ (s ≤ i ∧ i < s + n) → xv'.getLsbD i = xv.getLsbD i) ∧
      (l.field (env.setVar l.var xv') = some (s, n) →
        Yields args st' (l.read.act handleBitsliceID) (BitField.get ev 0 n))) st

variable {args : List Word} {st : Parser} {env : Env} {handleBitsliceID : String → Parse Value}

/-! The field denoted and the field pending. -/

/-- What the two fields of a left-hand side have to do with each other. -/
structure Fields (env : Env) (l : BitsliceLhs) (s n ps pn : Nat) : Prop where
  pending : l.pending env = some (ps, pn)
  stored : (l.stored.field env).map Prod.snd = some pn
  inside : inside s n 32
  pendingInside : P1.inside ps pn 32
  le : ps ≤ s
  wider : n ≤ pn
  stays : ps = s ↔ l.stays env

theorem fields : ∀ (l : BitsliceLhs), l.selects = true → ∀ {s n},
    l.field env = some (s, n) → ∃ ps pn, Fields env l s n ps pn
  | .id x, _, s, n, hf => by
    obtain ⟨rfl, rfl⟩ := Prod.mk.inj (Option.some.inj hf)
    exact ⟨0, 32, rfl, rfl, by decide, by decide, Nat.le_refl 0, Nat.le_refl 32,
      ⟨fun _ => trivial, fun _ => rfl⟩⟩
  | .bit l k, hl, s, n, hf => by
    obtain ⟨⟨s', n'⟩, hf', hf⟩ := Option.bind_eq_some_iff.mp hf
    simp only at hf
    split at hf
    · rename_i hin
      obtain ⟨rfl, rfl⟩ := Prod.mk.inj (Option.some.inj hf)
      obtain ⟨ps, pn, h⟩ := fields l hl hf'
      have := hin.2
      have := h.inside.2
      have := h.pendingInside.1
      have := h.le
      refine ⟨ps, pn, h.pending, h.stored, ⟨Nat.le_refl 1, by omega⟩, h.pendingInside, by omega,
        by omega, ?_⟩
      rw [BitsliceLhs.stays, ← h.stays]
      omega
    · cases hf
  | .dot l f, hl, s, n, hf => by
    obtain ⟨⟨s', n'⟩, hf', hf⟩ := Option.bind_eq_some_iff.mp hf
    obtain ⟨⟨start, width⟩, hsl, hf⟩ := Option.bind_eq_some_iff.mp hf
    simp only at hf
    split at hf
    · rename_i hin
      obtain ⟨rfl, rfl⟩ := Prod.mk.inj (Option.some.inj hf)
      obtain ⟨ps, pn, h⟩ := fields l hl hf'
      have hfield : (BitsliceLhs.dot l f).field env = some (s' + start.toNat, width.toNat) := by
        simp only [BitsliceLhs.field, hf', hsl, Option.bind_eq_bind, Option.bind_some, if_pos hin]
      have := hin.2
      have := h.inside.2
      have := h.le
      refine ⟨ps + start.toNat, width.toNat, ?_, ?_, ⟨hin.1, by omega⟩, ⟨hin.1, by omega⟩,
        by omega, Nat.le_refl _, ?_⟩
      · simp only [BitsliceLhs.pending, h.pending, hsl, Option.bind_eq_bind, Option.bind_some]
      · show ((BitsliceLhs.dot l f).field env).map Prod.snd = _
        rw [hfield]; rfl
      · rw [BitsliceLhs.stays, ← h.stays]
        omega
    · cases hf
  | .bracket l e, hl, s, n, hf => by
    obtain ⟨⟨s', n'⟩, hf', hf⟩ := Option.bind_eq_some_iff.mp hf
    obtain ⟨i, hi, hf⟩ := Option.bind_eq_some_iff.mp hf
    split at hf
    · rename_i hin
      obtain ⟨rfl, rfl⟩ := Prod.mk.inj (Option.some.inj hf)
      simp only [BitsliceLhs.selects, Bool.and_eq_true] at hl
      obtain ⟨ps, pn, h⟩ := fields l hl.1 hf'
      have hfield : (BitsliceLhs.bracket l e).field env = some (s' + i.toNat, 1) := by
        simp only [BitsliceLhs.field, hf', hi, Option.bind_eq_bind, Option.bind_some, if_pos hin]
      have := hin.2
      have := h.inside.2
      refine ⟨i.toNat, 1, ?_, ?_, ⟨Nat.le_refl 1, by omega⟩, ⟨Nat.le_refl 1, by omega⟩, by omega,
        Nat.le_refl _, ?_⟩
      · simp only [BitsliceLhs.pending, hi, Option.bind_eq_bind, Option.bind_some]
      · show ((BitsliceLhs.bracket l e).field env).map Prod.snd = _
        rw [hfield]; rfl
      · rw [BitsliceLhs.stays, hf', Option.map_some, Option.some.injEq]
        omega
    · cases hf
  | .range _ _ _, hl, _, _, _ => by cases hl

/-- The actions leave `BitsliceLhs.pending` pending. -/
theorem lhs_pending (hID : ReadsID handleBitsliceID) : ∀ (l : BitsliceLhs), l.selects = true →
    ∀ {st xv f s n}, Between args st env → env.vars l.var = some xv → l.field env = some f →
    l.pending env = some (s, n) →
    Wp (l.act handleBitsliceID) (fun y st' => y = l.var ∧ Pending args st' env l.var s n) st
  | .id x, _, st, xv, _, s, n, hb, _, _, hp => by
    obtain ⟨rfl, rfl⟩ := Prod.mk.inj (Option.some.inj hp)
    exact Wp.pure' ⟨rfl, hb.pending x⟩
  | .bit l k, hl, st, xv, _, s, n, hb, hx, hf, hp => by
    obtain ⟨⟨s', n'⟩, hf', -⟩ := Option.bind_eq_some_iff.mp hf
    refine Wp.bind' (lhs_pending hID l hl hb hx hf' hp) ?_
    intro _ s1 h
    obtain ⟨rfl, h1⟩ := h
    obtain ⟨vs, hvs, -⟩ := h1.sim.vars (x := l.var) hx
    refine Wp.bind' get_spec ?_
    intro _ s1 h
    obtain ⟨rfl, rfl⟩ := h
    simp only [hvs]
    exact Wp.pure' ⟨rfl, h1⟩
  | .dot l f, hl, st, xv, _, s, n, hb, hx, hf, hp => by
    obtain ⟨⟨s', n'⟩, hf', -⟩ := Option.bind_eq_some_iff.mp hf
    obtain ⟨⟨ps, pn⟩, hp', hp⟩ := Option.bind_eq_some_iff.mp hp
    obtain ⟨⟨start, width⟩, hsl, hp⟩ := Option.bind_eq_some_iff.mp hp
    obtain ⟨rfl, rfl⟩ := Prod.mk.inj (Option.some.inj hp)
    refine Wp.bind' (lhs_pending hID l hl hb hx hf' hp') ?_
    intro _ s1 h
    obtain ⟨rfl, h1⟩ := h
    obtain ⟨sl, hd, ms, mw⟩ := h1.sim.slices hsl
    refine Wp.bind' get_spec ?_
    intro _ s1 h
    obtain ⟨rfl, rfl⟩ := h
    simp only [hd]
    refine Wp.bind' (sliceFurther_spec h1 hx ms mw) ?_
    intro _ s2 h2
    exact Wp.pure' ⟨rfl, h2⟩
  | .bracket l e, hl, st, xv, _, s, n, hb, hx, hf, hp => by
    obtain ⟨⟨s', n'⟩, hf', -⟩ := Option.bind_eq_some_iff.mp hf
    obtain ⟨i, hi, hp⟩ := Option.bind_eq_some_iff.mp hp
    obtain ⟨rfl, rfl⟩ := Prod.mk.inj (Option.some.inj hp)
    simp only [BitsliceLhs.selects, Bool.and_eq_true] at hl
    obtain ⟨ps, pn, h⟩ := fields l hl.1 hf'
    refine Wp.bind' (lhs_pending hID l hl.1 hb hx hf' h.pending) ?_
    intro _ s1 h
    obtain ⟨rfl, h1⟩ := h
    refine Wp.bind' (Expr.act_spec hID e hl.2 h1.sim hi) ?_
    intro p s2 h
    obtain ⟨g2, m2⟩ := h
    refine Wp.bind' (replaceSlice_spec (h1.grow g2) hx m2 (Means.getInt32 m2.runs 1)) ?_
    intro _ s3 h3
    exact Wp.pure' ⟨rfl, h3⟩
  | .range _ _ _, hl, _, _, _, _, _, _, _, _, _ => by cases hl

/-! What is read, and what is written. -/

theorem read_plain : ∀ (l : BitsliceLhs), l.selects = true → l.read.plain = true
  | .id _, _ => rfl
  | .bit l _, h | .dot l _, h => read_plain l h
  | .bracket l e, h => by
    simp only [BitsliceLhs.selects, Bool.and_eq_true] at h
    simp only [BitsliceLhs.read, Bitslice.plain, read_plain l h.1, h.2, Bool.and_self]
  | .range _ _ _, h => by cases h

/-- The expression reads the field the left-hand side denotes. -/
theorem read_eval : ∀ (l : BitsliceLhs), l.selects = true → ∀ {xv s n},
    env.vars l.var = some xv → l.field env = some (s, n) →
    inside s n 32 ∧ ∃ m, l.read.eval env = some (BitField.get xv s n, m)
  | .id x, _, xv, s, n, hx, hf => by
    obtain ⟨rfl, rfl⟩ := Prod.mk.inj (Option.some.inj hf)
    rw [BitField.get_whole]
    exact ⟨by decide, 1, by simp [BitsliceLhs.read, Bitslice.eval, show env.vars x = _ from hx]⟩
  | .bit l k, hl, xv, s, n, hx, hf => by
    obtain ⟨⟨s', n'⟩, hf', hf⟩ := Option.bind_eq_some_iff.mp hf
    simp only at hf
    split at hf
    · rename_i hin
      obtain ⟨rfl, rfl⟩ := Prod.mk.inj (Option.some.inj hf)
      obtain ⟨hin', m, hm⟩ := read_eval l hl hx hf'
      have := hin.2
      have := hin'.2
      refine ⟨⟨hin.1, by omega⟩, 1, ?_⟩
      simp only [BitsliceLhs.read, Bitslice.eval, hm, Option.bind_eq_bind, Option.bind_some,
        if_pos (show k < 32 by omega), BitField.get_get xv s' n' k 1 hin.2 hin'.2]
    · cases hf
  | .dot l f, hl, xv, s, n, hx, hf => by
    obtain ⟨⟨s', n'⟩, hf', hf⟩ := Option.bind_eq_some_iff.mp hf
    obtain ⟨⟨start, width⟩, hsl, hf⟩ := Option.bind_eq_some_iff.mp hf
    simp only at hf
    split at hf
    · rename_i hin
      obtain ⟨rfl, rfl⟩ := Prod.mk.inj (Option.some.inj hf)
      obtain ⟨hin', m, hm⟩ := read_eval l hl hx hf'
      have := hin.2
      have := hin'.2
      refine ⟨⟨hin.1, by omega⟩, width.toNat, ?_⟩
      simp only [BitsliceLhs.read, Bitslice.eval, hm, hsl, Option.bind_eq_bind, Option.bind_some,
        if_pos (show inside start.toNat width.toNat 32 from ⟨hin.1, by omega⟩),
        BitField.get_get xv s' n' _ _ hin.2 hin'.2]
    · cases hf
  | .bracket l e, hl, xv, s, n, hx, hf => by
    obtain ⟨⟨s', n'⟩, hf', hf⟩ := Option.bind_eq_some_iff.mp hf
    obtain ⟨i, hi, hf⟩ := Option.bind_eq_some_iff.mp hf
    split at hf
    · rename_i hin
      obtain ⟨rfl, rfl⟩ := Prod.mk.inj (Option.some.inj hf)
      simp only [BitsliceLhs.selects, Bool.and_eq_true] at hl
      obtain ⟨hin', m, hm⟩ := read_eval l hl.1 hx hf'
      have := hin.2
      have := hin'.2
      refine ⟨⟨hin.1, by omega⟩, 1, ?_⟩
      simp only [BitsliceLhs.read, Bitslice.eval, hm, hi, Option.bind_eq_bind, Option.bind_some,
        if_pos (show i.toNat < 32 by omega), BitField.get_get xv s' n' _ 1 hin.2 hin'.2]
    · cases hf
  | .range _ _ _, hl, _, _, _, _, _ => by cases hl

/-- The assignment writes the pending field. -/
theorem assign_pending (hID : ReadsID handleBitsliceID) {l : BitsliceLhs} (hl : l.selects = true)
    (hb : Between args st env) {xv : Word} (hx : env.vars l.var = some xv) {s n ps pn : Nat}
    (hf : l.field env = some (s, n)) (h : Fields env l s n ps pn) {e : Expr} {ev : Word}
    (hp : e.plain = true) (he : e.eval env = some ev) :
    Wp ((Statement.assign l e).act handleBitsliceID) (fun _ st' =>
      Between args st' (env.setVar l.var (BitField.put xv ps pn ev))) st := by
  refine Wp.bind' (lhs_pending hID l hl hb hx hf h.pending) ?_
  intro _ s1 h
  obtain ⟨rfl, h1⟩ := h
  refine Wp.bind' (Expr.act_spec hID e hp h1.sim he) ?_
  intro v s2 h
  obtain ⟨g2, m2⟩ := h
  exact actAssign_spec (h1.grow g2) hx h.pendingInside.maskable m2

/-- Where both selections agree, the pending field is the field denoted. -/
theorem Agrees.pending_eq (hID : ReadsID handleBitsliceID) {l : BitsliceLhs}
    (hl : l.selects = true) (hb : Between args st env) {xv : Word}
    (hx : env.vars l.var = some xv) {s n ps pn : Nat} (hf : l.field env = some (s, n))
    (h : Fields env l s n ps pn) (ha : Agrees handleBitsliceID args st env l xv s n) :
    ps = s ∧ pn = n := by
  -- assigning the complement of `xv` at bit `i - ps` changes every bit `i` of the pending field
  have key : ∀ i, ps ≤ i → i < ps + pn → s ≤ i ∧ i < s + n := by
    intro i h1 h2
    by_contra hout
    have hi32 : i < 32 := Nat.lt_of_lt_of_le h2 h.pendingInside.2
    let ev : Word := ~~~ (xv >>> ps)
    have he : (Expr.bitslice (.number ev.toNat)).eval env = some ev := by
      simp [Expr.eval, Bitslice.eval]
    obtain ⟨_, s1, hrun, xv', ⟨vs, hvs, mv⟩, hkeep, -⟩ := ha (.bitslice (.number ev.toNat)) ev rfl he
    obtain ⟨_, s1', hrun', hb'⟩ := assign_pending hID hl hb hx hf h rfl he
    rw [hrun, Option.some.injEq, Prod.mk.injEq] at hrun'
    obtain ⟨-, rfl⟩ := hrun'
    obtain ⟨vs', hvs', mv'⟩ := hb'.sim.vars (setVar_same _ _ _)
    rw [hvs, Option.some.injEq] at hvs'
    subst hvs'
    have hbit := hkeep i hout
    rw [mv.unique mv', BitField.getLsbD_put, if_pos ⟨hi32, h1, h2⟩] at hbit
    simp [ev, show i - ps < 32 by omega, show ps + (i - ps) = i by omega] at hbit
  have := h.le
  have := h.wider
  have := h.inside.1
  have := key ps (Nat.le_refl _) (by have := h.pendingInside.1; omega)
  have := key (ps + pn - 1) (by omega) (by omega)
  omega

/-- **Left-hand and right-hand selections.** They agree on exactly the left-hand sides of
which no selection is lost and whose trailing numbers narrow nothing. -/
theorem agrees_iff (hID : ReadsID handleBitsliceID) (hb : Between args st env) {l : BitsliceLhs}
    (hl : l.selects = true) {xv : Word} (hx : env.vars l.var = some xv) {s n : Nat}
    (hf : l.field env = some (s, n)) :
    Agrees handleBitsliceID args st env l xv s n ↔
      l.stays env ∧ (l.stored.field env).map Prod.snd = some n := by
  obtain ⟨ps, pn, h⟩ := fields l hl hf
  rw [h.stored, Option.some.injEq, ← h.stays]
  refine ⟨?_, ?_⟩
  · exact Agrees.pending_eq hID hl hb hx hf h
  · intro h e ev hp he
    obtain ⟨rfl, rfl⟩ := h
    refine (assign_pending hID hl hb hx hf h hp he).mono ?_
    intro _ s1 hb1
    refine ⟨_, hb1.sim.vars (setVar_same _ _ _), ?_, ?_⟩
    · intro i hi
      rw [BitField.getLsbD_put, if_neg fun hc => hi hc.2]
    · intro hf'
      obtain ⟨-, m, hm⟩ := read_eval l hl (setVar_same _ _ _) hf'
      rw [BitField.get_put _ _ _ _ h.inside.2] at hm
      exact (Bitslice.act_spec hID l.read (read_plain l hl) hb1.sim hm).mono
        fun _ _ h => ⟨h.1, h.2.1⟩

/-! After `in x, e`. -/

def twoInputs : Parser :=
  (Parser.init.setValue "x" ⟨.arg 0, defaultSlice⟩).setValue "e" ⟨.arg 1, defaultSlice⟩

def twoValues (x e : Word) : Env := (Env.init.setVar "x" x).setVar "e" e

theorem twoInputs_run : (actInputs ["x", "e"] 0).run Parser.init = some (⟨⟩, twoInputs) := rfl

theorem twoInputs_between (x e : Word) : Between [x, e] twoInputs (twoValues x e) := by
  have hb₀ : Between [x, e] Parser.init Env.init := Between.init
  obtain ⟨_, st, hrun, hb, -⟩ := inputs_spec ["x", "e"] 0 hb₀ rfl
  rw [twoInputs_run, Option.some.injEq, Prod.mk.injEq] at hrun
  rw [hrun.2]
  exact hb

/-- `x[3] = ...` is read back by `x[3]`. -/
theorem agrees_iff_bracket : Agrees readID [0, 0xFFFFFFFF] twoInputs (twoValues 0 0xFFFFFFFF)
      (.bracket (.id "x") (.bitslice (.number 3))) 0 3 1 ↔
    BitsliceLhs.stays (twoValues 0 0xFFFFFFFF) (.bracket (.id "x") (.bitslice (.number 3))) ∧
      (BitsliceLhs.field (twoValues 0 0xFFFFFFFF)
        (BitsliceLhs.stored (.bracket (.id "x") (.bitslice (.number 3))))).map Prod.snd = some 1 :=
  agrees_iff readID_reads (twoInputs_between _ _) rfl rfl rfl

/-- After `in x, e` the statement `x3 = e` overwrites all of `x`: assigning all ones to bit
3 of 0 does not leave the other bits 0. -/
theorem juxtaposed_number_lost :
    (actInputs ["x", "e"] 0).run Parser.init = some (⟨⟩, twoInputs) ∧
    BitsliceLhs.field (twoValues 0 0xFFFFFFFF) (.bit (.id "x") 3) = some (3, 1) ∧
    ¬ Agrees readID [0, 0xFFFFFFFF] twoInputs (twoValues 0 0xFFFFFFFF) (.bit (.id "x") 3) 0 3 1 := by
  refine ⟨twoInputs_run, rfl, fun h => ?_⟩
  have hx : (twoValues 0 0xFFFFFFFF).vars "x" = some 0 := rfl
  have hf : BitsliceLhs.field (twoValues 0 0xFFFFFFFF) (.bit (.id "x") 3) = some (3, 1) := rfl
  obtain ⟨ps, pn, hp⟩ := fields (.bit (.id "x") 3) rfl hf
  obtain ⟨-, rfl⟩ := h.pending_eq readID_reads rfl (twoInputs_between _ _) hx rfl hp
  have h32 := hp.pending
  simp [BitsliceLhs.pending] at h32

end Ece566.P1
