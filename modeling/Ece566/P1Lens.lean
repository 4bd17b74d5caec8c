import Ece566.P1Ranges

/- Named slices are lenses. `getWord` and `putWord` are the words that the code of
   `getMaskedValue` and of the assignment action computes for a slice of constant start
   and width. For a slice that lies inside the word they are `BitField.get` and
   `BitField.put`, whatever the rest of the program, and the laws are those of bit
   fields. -/
namespace Ece566.P1

/-- The code that reads the slice `(s, n)` of the first argument. -/
def getCode (s n : Nat) : Option (Value × Parser) :=
  (getMaskedValue (.arg 0) ⟨getInt32 s, getInt32 n⟩).run Parser.init

/-- `x`, with the slice `(s, n)` pending, holds the first argument, and `e` is the second. -/
def pendingInputs (s n : Nat) : Parser :=
  twoInputs.setValue "x" ⟨.arg 0, ⟨getInt32 s, getInt32 n⟩⟩

/-- The code that assigns the second argument to the slice `(s, n)` of the first. -/
def putCode (s n : Nat) : Option (Unit × Parser) :=
  (actAssign "x" (.arg 1)).run (pendingInputs s n)

/-- `get(x, (s, n))`. -/
def getWord (x : Word) (s n : Nat) : Option Word :=
  (getCode s n).bind fun r => runFunction [x] r.2.block r.1

/-- `put(x, (s, n), e)`. -/
def putWord (x : Word) (s n : Nat) (e : Word) : Option Word :=
  (putCode s n).bind fun r => (r.2.valueSliceDict "x").bind fun vs =>
    runFunction [x, e] r.2.block vs.value

/-- The fields `(s, n)` and `(t, m)` share no bit. -/
def apart (s n t m : Nat) : Prop := s + n ≤ t ∨ t + m ≤ s

/-- The laws of the slice `(s, n)`. Each side of a law is a word, so each of the codes it
runs is defined. -/
structure Lens (handleBitsliceID : String → Parse Value) (s n : Nat) : Prop where
  get_shifts : ∀ x, ∃ r, getCode s n = some r ∧ ShiftsBelow [x] r.2.block
  put_shifts : ∀ x e, ∃ r, putCode s n = some r ∧ ShiftsBelow [x, e] r.2.block
  get_put : ∀ x e, ∃ y v, putWord x s n e = some y ∧ getWord y s n = some v ∧
    v.toNat = e.toNat % 2 ^ n
  put_get : ∀ x, ∃ v, getWord x s n = some v ∧ putWord x s n v = some x
  put_put : ∀ x e e', ∃ y z, putWord x s n e = some y ∧ putWord y s n e' = some z ∧
    putWord x s n e' = some z
  get_apart : ∀ t m, inside t m 32 → apart s n t m → ∀ x e, ∃ y v, putWord x s n e = some y ∧
    getWord y t m = some v ∧ getWord x t m = some v
  put_apart : ∀ t m, inside t m 32 → apart s n t m → ∀ x e e', ∃ y y' z,
    putWord x s n e = some y ∧ putWord y t m e' = some z ∧
    putWord x t m e' = some y' ∧ putWord y' s n e = some z
  /-- In any state, the assignment `x.f.g = e` through a slice `g` inside the width of `f`. -/
  nested : ∀ s' n', inside s' n' n → ∀ {args st env x f g xv e ev}, Between args st env →
    env.vars x = some xv → env.slices f = some (BitVec.ofNat 32 s, BitVec.ofNat 32 n) →
    env.slices g = some (BitVec.ofNat 32 s', BitVec.ofNat 32 n') →
    Gives args env (Expr.act handleBitsliceID e) ev →
    Wp ((Statement.assign (.dot (.dot (.id x) f) g) e).act handleBitsliceID) (fun _ st' =>
      ∃ u v y, getWord xv s n = some u ∧ putWord u s' n' ev = some v ∧ putWord xv s n v = some y ∧
        Between args st' (env.setVar x y) ∧ ShiftsBelow args st'.block) st

variable {args : List Word} {st : Parser} {env : Env} {s n : Nat}

/-! What the codes compute. -/

theorem inside_words (h : inside s n 32) :
    (BitVec.ofNat 32 s).toNat = s ∧ (BitVec.ofNat 32 n).toNat = n := by
  obtain ⟨h1, h32⟩ := h
  simp only [BitVec.toNat_ofNat]
  omega

/-- In any state, the code of `getMaskedValue` for a slice whose start and width are `s` and
`n` computes `BitField.get`. -/
theorem getMaskedValue_get {a : Value} {sl : Slice} {x : Word} (h : inside s n 32)
    (ha : Means args st.block a x) (hs : Means args st.block sl.start (BitVec.ofNat 32 s))
    (hn : Means args st.block sl.range (BitVec.ofNat 32 n)) :
    Wp (getMaskedValue a sl) (fun val st' => Emits args st st' ∧
      Means args st'.block val (BitField.get x s n)) st := by
  obtain ⟨es, en⟩ := inside_words h
  have hw := getMaskedValue_spec ha hs hn (by rw [es, en]; exact h.maskable)
  rw [es, en] at hw
  exact hw

theorem getCode_run (h : inside s n 32) (x : Word) : ∃ val st', getCode s n = some (val, st') ∧
    Means [x] st'.block val (BitField.get x s n) := by
  have hr : Runs [x] Parser.init.block := ⟨[], rfl⟩
  obtain ⟨val, st', hrun, -, m⟩ := @getMaskedValue_get [x] Parser.init s n (.arg 0)
    ⟨getInt32 s, getInt32 n⟩ x h (Means.arg hr rfl) (Means.getInt32 hr s) (Means.getInt32 hr n)
  exact ⟨val, st', hrun, m⟩

theorem getWord_eq (h : inside s n 32) (x : Word) : getWord x s n = some (BitField.get x s n) := by
  obtain ⟨val, st', hcode, m⟩ := getCode_run h x
  rw [getWord, hcode]
  exact m.run

theorem pendingInputs_pending (x e : Word) :
    Pending [x, e] (pendingInputs s n) (twoValues x e) "x" s n := by
  have hb := twoInputs_between x e
  have hx : twoInputs.valueSliceDict "x" = some ⟨.arg 0, defaultSlice⟩ := rfl
  have hr : Runs [x, e] twoInputs.block := ⟨[], rfl⟩
  refine ⟨hb.sim.setPending hx ⟨getInt32 s, getInt32 n⟩, ?_, hb.ids, ?_⟩
  · intro y vs hy hv
    rw [pendingInputs, setValue_ne _ _ _ hy] at hv
    exact hb.default y vs hv
  · intro v hv
    obtain rfl : x = v := Option.some.inj hv
    exact ⟨_, setValue_same _ _ _, Means.arg hr rfl, Means.getInt32 hr s, Means.getInt32 hr n⟩

theorem putCode_run (h : inside s n 32) (x e : Word) : ∃ st' vs, putCode s n = some (⟨⟩, st') ∧
    st'.valueSliceDict "x" = some vs ∧ Means [x, e] st'.block vs.value (BitField.put x s n e) := by
  have hr : Runs [x, e] (pendingInputs s n).block := ⟨[], rfl⟩
  obtain ⟨_, st', hrun, hb⟩ := actAssign_spec (@pendingInputs_pending s n x e) rfl h.maskable
    (Means.arg (n := 1) hr rfl)
  obtain ⟨vs, hvs, m⟩ := hb.sim.vars (setVar_same _ _ _)
  exact ⟨st', vs, hrun, hvs, m⟩

theorem putWord_eq (h : inside s n 32) (x e : Word) :
    putWord x s n e = some (BitField.put x s n e) := by
  obtain ⟨st', vs, hcode, hvs, m⟩ := putCode_run h x e
  rw [putWord, hcode]
  show (st'.valueSliceDict "x").bind _ = _
  rw [hvs]
  exact m.run

/-- In any state, the assignment through a slice of a slice writes the field at the sum of
the starts. -/
theorem nested_assign {handleBitsliceID : String → Parse Value} {x f g : String} {e : Expr}
    {xv ev : Word} {s' n' : Nat} (h : inside s n 32) (hg : inside s' n' n)
    (hb : Between args st env) (hx : env.vars x = some xv)
    (hf : env.slices f = some (BitVec.ofNat 32 s, BitVec.ofNat 32 n))
    (hg' : env.slices g = some (BitVec.ofNat 32 s', BitVec.ofNat 32 n'))
    (he : Gives args env (e.act handleBitsliceID) ev) :
    Wp ((Statement.assign (.dot (.dot (.id x) f) g) e).act handleBitsliceID) (fun _ st' =>
      Between args st' (env.setVar x (BitField.put xv (s + s') n' ev))) st := by
  obtain ⟨es, en⟩ := inside_words h
  have hg32 : inside s' n' 32 := ⟨hg.1, by have := hg.2; have := h.2; omega⟩
  obtain ⟨es', en'⟩ := inside_words hg32
  have henv : env.entered x = env := by rw [Env.entered, hx]
  have hfield : (BitsliceLhs.dot (.dot (.id x) f) g).field (env.entered x) = some (s + s', n') := by
    have hin : inside s n 32 := h
    simp only [henv, BitsliceLhs.field, hf, hg', es, en, es', en', Option.bind_eq_bind,
      Option.bind_some, if_pos hin, if_pos hg, Nat.zero_add]
  have hin : inside (s + s') n' 32 := ⟨hg.1, by have := hg.2; have := h.2; omega⟩
  refine assign_gives ((named_spec (.dot (.dot (.id x) f) g) rfl hb hfield).mono ?_) hx hin.maskable he
  intro y s1 h1
  obtain ⟨rfl, hpend, -, -⟩ := h1
  simp only [BitsliceLhs.var, henv] at hpend
  exact ⟨rfl, hpend⟩

/-! The laws. -/

/-- **Named slices obey the lens laws**, and no shift in their codes is out of range. -/
theorem slice_lens (handleBitsliceID : String → Parse Value) (h : inside s n 32) :
    Lens handleBitsliceID s n where
  get_shifts x := by
    obtain ⟨val, st', hcode, m⟩ := getCode_run h x
    exact ⟨_, hcode, m.runs.shifts⟩
  put_shifts x e := by
    obtain ⟨st', vs, hcode, -, m⟩ := putCode_run h x e
    exact ⟨_, hcode, m.runs.shifts⟩
  get_put x e := by
    refine ⟨_, _, putWord_eq h x e, getWord_eq h _, ?_⟩
    rw [BitField.get_put _ _ _ _ h.2, BitField.toNat_get, Nat.pow_zero, Nat.div_one]
  put_get x := by
    refine ⟨_, getWord_eq h x, ?_⟩
    rw [putWord_eq h, BitField.put_get]
  put_put x e e' := by
    refine ⟨_, _, putWord_eq h x e, putWord_eq h _ e', ?_⟩
    rw [putWord_eq h, BitField.put_put]
  get_apart t m ht ha x e := by
    refine ⟨_, _, putWord_eq h x e, getWord_eq ht _, ?_⟩
    rw [getWord_eq ht, BitField.get_put_apart _ _ _ _ _ _ ha]
  put_apart t m ht ha x e e' := by
    refine ⟨_, _, _, putWord_eq h x e, putWord_eq ht _ e', putWord_eq ht x e', ?_⟩
    rw [putWord_eq h, BitField.put_comm _ _ _ _ _ _ _ ha]
  nested s' n' hg args st env x f g xv e ev hb hx hf hg' he := by
    have hg32 : inside s' n' 32 := ⟨hg.1, by have := hg.2; have := h.2; omega⟩
    refine (nested_assign h hg hb hx hf hg' he).mono ?_
    intro _ st' hb'
    refine ⟨_, _, _, getWord_eq h xv, putWord_eq hg32 _ ev, putWord_eq h xv _, ?_,
      hb'.sim.runs.shifts⟩
    rw [BitField.put_field _ _ _ _ _ _ hg.2 h.2] at hb'
    exact hb'

/-- The slice `(27, 5)` reaches the top bit. -/
theorem slice_lens_top : Lens readID 27 5 := slice_lens readID (by decide)

end Ece566.P1
