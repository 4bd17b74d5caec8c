import Ece566.P1Lvalue

/- Bit ranges. `b[hi:lo]` should be the bits `lo .. hi` of `b`, and an assignment to
   `x[hi:lo]` should overwrite those bits of `x`. Both actions compute the width from
   `hi` and `lo`, and both take `hi` for the start where their comment says `lo`: what
   is read and written is the field of that width from bit `hi` up, so the two sides
   agree with each other, and with the range only when it is a single bit. -/
namespace Ece566.P1

/-- In every state that holds the environment, `x` emits code for the word `v`. -/
def Gives (args : List Word) (env : Env) (x : Parse Value) (v : Word) : Prop :=
  ∀ ⦃st⦄, Sim args st env → Yields args st x v

/-- The expression `b[h:l]` is `b >> l` modulo `2^(h-l+1)`, for every value of `b`. -/
def ReadsRange (handleBitsliceID : String → Parse Value) (h l : Nat) : Prop :=
  ∀ {args env b hi lo v}, Gives args env (Bitslice.act handleBitsliceID b) v →
    Gives args env (Expr.act handleBitsliceID hi) (BitVec.ofNat 32 h) →
    Gives args env (Expr.act handleBitsliceID lo) (BitVec.ofNat 32 l) →
    ∃ r, Gives args env (Bitslice.act handleBitsliceID (.range b hi lo)) r ∧
      r.toNat = v.toNat / 2 ^ l % 2 ^ (h - l + 1)

/-- The statement `x[h:l] = e` puts the low bits of `e` at bits `l .. h` of a defined
variable, for every value of both, and changes nothing else. -/
def WritesRange (handleBitsliceID : String → Parse Value) (h l : Nat) : Prop :=
  ∀ {args st env x xv hi lo e ev}, Between args st env → env.vars x = some xv →
    Gives args env (Expr.act handleBitsliceID hi) (BitVec.ofNat 32 h) →
    Gives args env (Expr.act handleBitsliceID lo) (BitVec.ofNat 32 l) →
    Gives args env (Expr.act handleBitsliceID e) ev →
    Wp ((Statement.assign (.range (.id x) hi lo) e).act handleBitsliceID) (fun _ st' =>
      Between args st' (env.setVar x (BitField.put xv l (h - l + 1) ev))) st

variable {args : List Word} {st : Parser} {env : Env} {handleBitsliceID : String → Parse Value}

theorem Gives.plain (hID : ReadsID handleBitsliceID) {e : Expr} {v : Word} (hp : e.plain = true)
    (he : e.eval env = some v) : Gives args env (e.act handleBitsliceID) v :=
  fun _ hs => Expr.act_spec hID e hp hs he

theorem Gives.number (n : Nat) :
    Gives args env (Bitslice.act handleBitsliceID (.number n)) (BitVec.ofNat 32 n) :=
  fun _ hs => ⟨_, _, rfl, ⟨rfl, rfl, rfl, fun _ _ h => h⟩, Means.const hs.runs _⟩

/-- The code a computation emits has one value. -/
theorem Yields.unique {x : Parse Value} {v w : Word} (hv : Yields args st x v)
    (hw : Yields args st x w) : v = w := by
  obtain ⟨val, s1, hrun, -, m⟩ := hv
  obtain ⟨val', s1', hrun', -, m'⟩ := hw
  rw [hrun, Option.some.injEq, Prod.mk.injEq] at hrun'
  obtain ⟨rfl, rfl⟩ := hrun'
  exact m.unique m'

/-! The width and the start that both actions compute. -/

theorem width_eq {h l : Nat} (hl : l ≤ h) (hh : h ≤ 31) :
    BitVec.ofNat 32 h - BitVec.ofNat 32 l + BitVec.ofNat 32 1 = BitVec.ofNat 32 (h - l + 1) := by
  have hle : BitVec.ofNat 32 l ≤ BitVec.ofNat 32 h := by
    rw [BitVec.le_def, BitVec.toNat_ofNat, BitVec.toNat_ofNat]
    omega
  apply BitVec.eq_of_toNat_eq
  rw [BitVec.toNat_add, BitVec.toNat_sub_of_le hle]
  simp only [BitVec.toNat_ofNat]
  omega

theorem range_maskable {h l : Nat} (hl : l ≤ h) (hh : h ≤ 31) : maskable h (h - l + 1) :=
  ⟨by omega, by omega, by omega⟩

/-- The instructions for `hi - lo + 1`, and what comes after them. -/
theorem width_bind {α : Type} {vh vl : Value} {h l : Nat} {f : Value → Parse α}
    {Q : α → Parser → Prop} (hl : l ≤ h) (hh : h ≤ 31)
    (mh : Means args st.block vh (BitVec.ofNat 32 h))
    (ml : Means args st.block vl (BitVec.ofNat 32 l))
    (hf : ∀ range st', Emits args st st' →
      Means args st'.block range (BitVec.ofNat 32 (h - l + 1)) → Wp (f range) Q st') :
    Wp (do f (← create .add (← create .sub vh vl) (getInt32 1))) Q st := by
  refine Wp.bind' (create_spec mh ml rfl) ?_
  intro d s1 h1
  obtain ⟨e1, m1⟩ := h1
  refine Wp.bind' (create_spec m1 (Means.getInt32 m1.runs 1) rfl) ?_
  intro range s2 h2
  obtain ⟨e2, m2⟩ := h2
  rw [width_eq hl hh] at m2
  exact hf range s2 (e1.trans e2) m2

/-- `b[h:l]` reads the field of width `h - l + 1` from bit `h` up, and leaves the width 1. -/
theorem range_spec {b : Bitslice} {hi lo : Expr} {v : Word} {h l : Nat} (hl : l ≤ h) (hh : h ≤ 31)
    (hs : Sim args st env) (hb : Gives args env (b.act handleBitsliceID) v)
    (hhi : Gives args env (hi.act handleBitsliceID) (BitVec.ofNat 32 h))
    (hlo : Gives args env (lo.act handleBitsliceID) (BitVec.ofNat 32 l)) :
    Wp ((Bitslice.range b hi lo).act handleBitsliceID) (fun val st' => Grows args st st' ∧
      Means args st'.block val (BitField.get v h (h - l + 1)) ∧ st'.bitsliceIsID = false ∧
      st'.bitsliceRange = getInt32 1) st := by
  refine Wp.bind' (hb hs) ?_
  intro vb s1 h1
  obtain ⟨g1, m1⟩ := h1
  refine Wp.bind' (hhi (hs.grow g1)) ?_
  intro vh s2 h2
  obtain ⟨g2, m2⟩ := h2
  refine Wp.bind' (hlo ((hs.grow g1).grow g2)) ?_
  intro vl s3 h3
  obtain ⟨g3, m3⟩ := h3
  refine Wp.bind' (setBitsliceIsID_spec args _) ?_
  intro _ s4 h4
  obtain ⟨g4, -⟩ := h4
  have g24 := (g2.trans g3).trans g4
  have mh := (g3.trans g4).means _ _ m2
  refine width_bind hl hh mh (g4.means _ _ m3) ?_
  intro range s5 e5 m5
  refine Wp.bind' (setBitslice_spec args _ _) ?_
  intro _ s6 h6
  obtain ⟨g6, hid, hr⟩ := h6
  have g56 := e5.toGrows.trans g6
  have th : (BitVec.ofNat 32 h).toNat = h := by rw [BitVec.toNat_ofNat]; omega
  have tw : (BitVec.ofNat 32 (h - l + 1)).toNat = h - l + 1 := by rw [BitVec.toNat_ofNat]; omega
  refine (getMaskedValue_spec ((g24.trans g56).means _ _ m1)
    (g56.means _ _ mh) (g6.means _ _ m5) (by rw [th, tw]; exact range_maskable hl hh)).mono ?_
  intro r s7 h7
  obtain ⟨e7, m7⟩ := h7
  rw [th, tw] at m7
  exact ⟨((g1.trans g24).trans g56).trans e7.toGrows, m7, e7.isID.trans hid, e7.range.trans hr⟩

theorem range_read {b : Bitslice} {hi lo : Expr} {v : Word} {h l : Nat} (hl : l ≤ h) (hh : h ≤ 31)
    (hb : Gives args env (b.act handleBitsliceID) v)
    (hhi : Gives args env (hi.act handleBitsliceID) (BitVec.ofNat 32 h))
    (hlo : Gives args env (lo.act handleBitsliceID) (BitVec.ofNat 32 l)) :
    Gives args env ((Bitslice.range b hi lo).act handleBitsliceID)
      (BitField.get v h (h - l + 1)) :=
  fun _ hs => (range_spec hl hh hs hb hhi hlo).mono fun _ _ h => ⟨h.1, h.2.1⟩

/-- An assignment to a left-hand side that leaves the field `(s, n)` of `x` pending. -/
theorem assign_gives {l : BitsliceLhs} {x : String} {e : Expr} {xv ev : Word} {s n : Nat}
    (hlhs : Wp (l.act handleBitsliceID) (fun y st' => y = x ∧ Pending args st' env x s n) st)
    (hx : env.vars x = some xv) (hin : maskable s n) (he : Gives args env (e.act handleBitsliceID) ev) :
    Wp ((Statement.assign l e).act handleBitsliceID) (fun _ st' =>
      Between args st' (env.setVar x (BitField.put xv s n ev))) st := by
  refine Wp.bind' hlhs ?_
  intro y s1 h1
  obtain ⟨rfl, h1⟩ := h1
  refine Wp.bind' (he h1.sim) ?_
  intro v s2 h2
  obtain ⟨g2, m2⟩ := h2
  exact actAssign_spec (h1.grow g2) hx hin m2

/-- `x[h:l] = e` overwrites the field of width `h - l + 1` from bit `h` up. -/
theorem range_write {x : String} {hi lo e : Expr} {xv ev : Word} {h l : Nat} (hl : l ≤ h)
    (hh : h ≤ 31) (hb : Between args st env) (hx : env.vars x = some xv)
    (hhi : Gives args env (hi.act handleBitsliceID) (BitVec.ofNat 32 h))
    (hlo : Gives args env (lo.act handleBitsliceID) (BitVec.ofNat 32 l))
    (he : Gives args env (e.act handleBitsliceID) ev) :
    Wp ((Statement.assign (.range (.id x) hi lo) e).act handleBitsliceID) (fun _ st' =>
      Between args st' (env.setVar x (BitField.put xv h (h - l + 1) ev))) st := by
  have th : (BitVec.ofNat 32 h).toNat = h := by rw [BitVec.toNat_ofNat]; omega
  have hlhs : Wp ((BitsliceLhs.range (.id x) hi lo).act handleBitsliceID) (fun y st' => y = x ∧
      Pending args st' env x h (h - l + 1)) st := by
    refine Wp.bind' (Wp.pure' (Q := fun y s => y = x ∧ s = st) ⟨rfl, rfl⟩) ?_
    intro y s h0
    obtain ⟨rfl, rfl⟩ := h0
    refine Wp.bind' (hhi hb.sim) ?_
    intro vh s1 h1
    obtain ⟨g1, m1⟩ := h1
    refine Wp.bind' (hlo (hb.sim.grow g1)) ?_
    intro vl s2 h2
    obtain ⟨g2, m2⟩ := h2
    refine width_bind hl hh (g2.means _ _ m1) m2 ?_
    intro range s3 e3 m3
    have g := (g1.trans g2).trans e3.toGrows
    refine Wp.bind' (replaceSlice_spec ((hb.pending _).grow g) hx
      (e3.means _ _ (g2.means _ _ m1)) m3) ?_
    intro _ s4 h4
    rw [th] at h4
    exact Wp.pure' ⟨rfl, h4⟩
  exact assign_gives hlhs hx (range_maskable hl hh) he

/-! When that is the range. -/

theorem readsRange_iff {h l : Nat} (hl : l ≤ h) (hh : h ≤ 31) :
    ReadsRange handleBitsliceID h l ↔ h = l := by
  refine ⟨?_, ?_⟩
  · -- of the word with bit `l` only, the range reads 1 and the code the bit `h`
    intro hr
    by_contra hne
    have hb : Gives [] Env.init (Bitslice.act handleBitsliceID (.number (2 ^ l))) _ := Gives.number _
    have hhi : Gives [] Env.init (Expr.act handleBitsliceID (.bitslice (.number h))) _ :=
      Gives.number h
    have hlo : Gives [] Env.init (Expr.act handleBitsliceID (.bitslice (.number l))) _ :=
      Gives.number l
    obtain ⟨r, hgives, hval⟩ := hr hb hhi hlo
    have hsim : Sim [] Parser.init Env.init := Between.init.sim
    rw [(hgives hsim).unique (range_read hl hh hb hhi hlo hsim), BitField.toNat_get] at hval
    have h2l : 2 ^ l < 2 ^ 32 := Nat.pow_lt_pow_right (by decide) (by omega)
    have h2h : 2 ^ l < 2 ^ h := Nat.pow_lt_pow_right (by decide) (by omega)
    rw [BitVec.toNat_ofNat, Nat.mod_eq_of_lt h2l, Nat.div_eq_of_lt h2h,
      Nat.div_self (Nat.two_pow_pos l), Nat.zero_mod, Nat.mod_eq_of_lt (Nat.one_lt_two_pow (by omega))]
      at hval
    cases hval
  · intro he args env b hi lo v hb hhi hlo
    subst he
    exact ⟨_, range_read hl hh hb hhi hlo, BitField.toNat_get v h _⟩

theorem writesRange_iff {h l : Nat} (hl : l ≤ h) (hh : h ≤ 31) :
    WritesRange handleBitsliceID h l ↔ h = l := by
  refine ⟨?_, ?_⟩
  · -- all ones assigned to the range of 0 reach bit `l`, which the code leaves 0
    intro hw
    by_contra hne
    have hb : Between [0, 0] twoInputs (twoValues 0 0) := twoInputs_between 0 0
    have hhi : Gives [0, 0] (twoValues 0 0) (Expr.act handleBitsliceID (.bitslice (.number h))) _ :=
      Gives.number h
    have hlo : Gives [0, 0] (twoValues 0 0) (Expr.act handleBitsliceID (.bitslice (.number l))) _ :=
      Gives.number l
    have he : Gives [0, 0] (twoValues 0 0)
        (Expr.act handleBitsliceID (.bitslice (.number (2 ^ 32 - 1)))) _ := Gives.number _
    have hx : (twoValues 0 0).vars "x" = some 0 := rfl
    obtain ⟨_, s1, hrun, hb1⟩ := hw hb hx hhi hlo he
    obtain ⟨_, s1', hrun', hb1'⟩ := range_write hl hh hb hx hhi hlo he
    rw [hrun, Option.some.injEq, Prod.mk.injEq] at hrun'
    obtain ⟨-, rfl⟩ := hrun'
    obtain ⟨vs, hvs, m⟩ := hb1.sim.vars (setVar_same _ _ _)
    obtain ⟨vs', hvs', m'⟩ := hb1'.sim.vars (setVar_same _ _ _)
    rw [hvs, Option.some.injEq] at hvs'
    subst hvs'
    have hbit := congrArg (fun r => BitVec.getLsbD r l) (m.unique m')
    simp only [BitField.getLsbD_put] at hbit
    rw [if_pos (by omega), if_neg (by omega)] at hbit
    simp at hbit
  · intro he args st env x xv hi lo e ev hb hx hhi hlo hev
    subst he
    exact range_write hl hh hb hx hhi hlo hev

/-- **Bit ranges.** Reading and writing `h:l` each concern the bits `l .. h` exactly when
the range is one bit. -/
theorem range_denotes_iff {h l : Nat} (hl : l ≤ h) (hh : h ≤ 31) :
    (ReadsRange handleBitsliceID h l ↔ h = l) ∧ (WritesRange handleBitsliceID h l ↔ h = l) :=
  ⟨readsRange_iff hl hh, writesRange_iff hl hh⟩

theorem range_denotes_iff_bit :
    (ReadsRange readID 3 3 ↔ 3 = 3) ∧ (WritesRange readID 3 3 ↔ 3 = 3) :=
  range_denotes_iff (by decide) (by decide)

/-- `in x`, `final x[1:0]`. -/
def lowBits : Program where
  params := ["x"]
  statements := []
  final := .bitslice (.range (.id "x") (.bitslice (.number 1)) (.bitslice (.number 0)))

/-- The function built for `x[1:0]` returns 0 on 1, whose low two bits are 1. -/
theorem lowBits_read_higher :
    ((lowBits.act readID).run Parser.init).bind (fun r => runFunction [1] r.2.block r.1) = some 0 ∧
      ¬ (∀ h l, l ≤ h → h ≤ 31 → ReadsRange readID h l ∧ WritesRange readID h l) := by
  refine ⟨by decide +kernel, fun h => ?_⟩
  have h10 := @readsRange_iff readID 1 0 (by decide) (by decide)
  exact absurd (h10.mp (h 1 0 (by decide) (by decide)).1) (by decide)

end Ece566.P1
