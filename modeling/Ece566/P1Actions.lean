import Ece566.Wp
import Ece566.P1Interp

/- What each builder helper and each expression action of `p1.y` does, in terms of
   words. `Sim` relates the parser's two dictionaries to an environment of the direct
   semantics; it says nothing of the pending slices, so it holds in the middle of an
   assignment as well. Expressions leave the dictionaries alone (`Grows`), emit code
   whose result is the value of the expression, and, as list elements, leave the
   element's width in `bitsliceRange` (`Element`). -/
namespace Ece566.P1

/-- What the actions rely on of the helper that is not in the repository: an identifier
that has a value reads as that value, whatever slice is pending on it, and, like a
number, counts as one bit of a list. -/
structure ReadsID (handleBitsliceID : String → Parse Value) : Prop where
  reads : ∀ st x vs, st.valueSliceDict x = some vs → (handleBitsliceID x).run st =
    some (vs.value, { st with bitsliceIsID := true, bitsliceRange := getInt32 1 })

/-- From `st` to `st'` only code was added, and every value kept its meaning; the two
globals about list elements may have changed. -/
structure Grows (args : List Word) (st st' : Parser) : Prop where
  vals : st'.valueSliceDict = st.valueSliceDict
  slices : st'.slicesDict = st.slicesDict
  ids : st'.bitsliceFieldIds = st.bitsliceFieldIds
  means : ∀ val x, Means args st.block val x → Means args st'.block val x

/-- `Grows`, and the globals about list elements are as they were. -/
structure Emits (args : List Word) (st st' : Parser) : Prop extends Grows args st st' where
  isID : st'.bitsliceIsID = st.bitsliceIsID
  range : st'.bitsliceRange = st.bitsliceRange

/-- The dictionaries hold the environment. -/
structure Sim (args : List Word) (st : Parser) (env : Env) : Prop where
  runs : Runs args st.block
  vars : ∀ {x v}, env.vars x = some v →
    ∃ vs, st.valueSliceDict x = some vs ∧ Means args st.block vs.value v
  undefined : ∀ {x}, env.vars x = none → st.valueSliceDict x = none
  slices : ∀ {f s n}, env.slices f = some (s, n) → ∃ sl, st.slicesDict f = some sl ∧
    Means args st.block sl.start s ∧ Means args st.block sl.range n
  undeclared : ∀ {f}, env.slices f = none → st.slicesDict f = none

/-- What a list needs of the element just parsed: its width `n` is in `bitsliceRange`,
and unless it still has to be cut to one bit its value has no bit from `n` up. -/
structure Element (args : List Word) (st : Parser) (v : Word) (n : Nat) : Prop where
  range : Means args st.block st.bitsliceRange (BitVec.ofNat 32 n)
  pos : 1 ≤ n
  le : n ≤ 32
  cut : st.bitsliceIsID = true → n = 1
  fits : st.bitsliceIsID = false → ∀ i, n ≤ i → v.getLsbD i = false

variable {args : List Word} {st st' st'' : Parser} {env : Env}

namespace Grows

theorem refl : Grows args st st := ⟨rfl, rfl, rfl, fun _ _ h => h⟩

theorem trans (h : Grows args st st') (h' : Grows args st' st'') : Grows args st st'' :=
  ⟨h'.vals.trans h.vals, h'.slices.trans h.slices, h'.ids.trans h.ids,
    fun val x m => h'.means val x (h.means val x m)⟩

end Grows

namespace Emits

theorem refl : Emits args st st := ⟨Grows.refl, rfl, rfl⟩

theorem trans (h : Emits args st st') (h' : Emits args st' st'') : Emits args st st'' :=
  ⟨h.toGrows.trans h'.toGrows, h'.isID.trans h.isID, h'.range.trans h.range⟩

end Emits

theorem Sim.grow (h : Sim args st env) (g : Grows args st st') : Sim args st' env where
  runs := (g.means _ _ (Means.const h.runs 0)).runs
  vars hx := by
    obtain ⟨vs, e, m⟩ := h.vars hx
    exact ⟨vs, by rw [g.vals, e], g.means _ _ m⟩
  undefined hx := by rw [g.vals, h.undefined hx]
  slices hf := by
    obtain ⟨sl, e, ms, mn⟩ := h.slices hf
    exact ⟨sl, by rw [g.slices, e], g.means _ _ ms, g.means _ _ mn⟩
  undeclared hf := by rw [g.slices, h.undeclared hf]

theorem Means.getInt32 (hr : Runs args st.block) (n : Nat) :
    Means args st.block (getInt32 n) (BitVec.ofNat 32 n) := Means.const hr _

/-! The builder. -/

theorem evalBin_shl {a b : Word} (h : b.toNat < 32) :
    evalBin .shl a b = some (a <<< b.toNat) := if_pos h

theorem evalBin_lshr {a b : Word} (h : b.toNat < 32) :
    evalBin .lshr a b = some (a >>> b.toNat) := if_pos h

theorem create_spec {op : BinOp} {a b : Value} {x y v : Word} (ha : Means args st.block a x)
    (hb : Means args st.block b y) (hv : evalBin op x y = some v) :
    Wp (create op a b) (fun val st' => Emits args st st' ∧ Means args st'.block val v) st := by
  obtain ⟨hm, hk⟩ := snoc_bin ha hb hv
  exact ⟨_, _, rfl, ⟨⟨rfl, rfl, rfl, hk⟩, rfl, rfl⟩, hm⟩

theorem setBitslice_spec (args : List Word) (isID : Bool) (range : Value) :
    Wp (setBitslice isID range) (fun _ st' => Grows args st st' ∧ st'.bitsliceIsID = isID ∧
      st'.bitsliceRange = range) st :=
  Wp.modify' ⟨⟨rfl, rfl, rfl, fun _ _ h => h⟩, rfl, rfl⟩

theorem setBitsliceIsID_spec (args : List Word) (isID : Bool) :
    Wp (setBitsliceIsID isID) (fun _ st' => Grows args st st' ∧ st'.bitsliceIsID = isID ∧
      st'.bitsliceRange = st.bitsliceRange) st :=
  Wp.modify' ⟨⟨rfl, rfl, rfl, fun _ _ h => h⟩, rfl, rfl⟩

/-- Reading a global hands on the state. -/
theorem get_spec : Wp (get : Parse Parser) (fun s st' => s = st ∧ st' = st) st :=
  Wp.get' ⟨rfl, rfl⟩

theorem insert_spec {i : Inst} {v : Word} (h : ∀ results, runBlock args st.block = some results →
    evalInst args results i = some v) (hr : Runs args st.block) :
    Wp (insert i) (fun val st' => Emits args st st' ∧ Means args st'.block val v) st := by
  obtain ⟨results, hr⟩ := hr
  obtain ⟨hm, hk⟩ := snoc_result hr (h results hr)
  exact ⟨_, _, rfl, ⟨⟨rfl, rfl, rfl, hk⟩, rfl, rfl⟩, hm⟩

theorem zext_spec {a : Value} {x : Word} (ha : Means args st.block a x) :
    Wp (insert (.zext a)) (fun val st' => Emits args st st' ∧ Means args st'.block val x) st := by
  refine insert_spec ?_ ha.runs
  intro results hr
  obtain ⟨r, hr', ha⟩ := ha
  rw [hr, Option.some.injEq] at hr'
  subst hr'
  exact ha

theorem ctpop_spec {a : Value} {x : Word} (ha : Means args st.block a x) :
    Wp (insert (.ctpop a))
      (fun val st' => Emits args st st' ∧ Means args st'.block val x.cpop) st := by
  refine insert_spec ?_ ha.runs
  intro results hr
  obtain ⟨r, hr', ha⟩ := ha
  rw [hr, Option.some.injEq] at hr'
  subst hr'
  rw [evalInst, ha]
  rfl

theorem createNot_spec {a : Value} {x : Word} (ha : Means args st.block a x) :
    Wp (createNot a)
      (fun val st' => Emits args st st' ∧ Means args st'.block val (~~~ x)) st := by
  rw [← BitVec.xor_allOnes]
  exact create_spec ha (Means.const ha.runs _) rfl

/-! Bit manipulation. -/

theorem getBit_spec {a p : Value} {x i : Word} (ha : Means args st.block a x)
    (hp : Means args st.block p i) (hi : i.toNat < 32) :
    Wp (getBit a p) (fun val st' => Emits args st st' ∧
      Means args st'.block val (BitField.get x i.toNat 1)) st := by
  refine Wp.bind' (create_spec ha hp (evalBin_lshr hi)) ?_
  intro v s1 h
  obtain ⟨e1, m1⟩ := h
  refine (create_spec m1 (Means.getInt32 m1.runs 1) rfl).mono ?_
  intro r s2 h
  obtain ⟨e2, m2⟩ := h
  exact ⟨e1.trans e2, by rw [← BitField.shift_and_one]; exact m2⟩

theorem getLowestBit_spec {a : Value} {x : Word} (ha : Means args st.block a x) :
    Wp (getLowestBit a) (fun val st' => Emits args st st' ∧
      Means args st'.block val (BitField.get x 0 1)) st := by
  rw [← BitField.and_one]
  exact create_spec ha (Means.getInt32 ha.runs 1) rfl

/-- The value shifted, plus the element, carries included. -/
theorem doLeftshiftbynAdd_sum {a p b : Value} {x y : Word} {n : Nat}
    (ha : Means args st.block a x) (hp : Means args st.block p (BitVec.ofNat 32 n)) (hn : n < 32)
    (hb : Means args st.block b y) :
    Wp (doLeftshiftbynAdd a p b) (fun val st' => Emits args st st' ∧
      Means args st'.block val ((x <<< n) + y)) st := by
  have hn' : (BitVec.ofNat 32 n).toNat = n := by simp; omega
  refine Wp.bind' (create_spec ha hp (evalBin_shl (by omega))) ?_
  intro v s1 h1
  obtain ⟨e1, m1⟩ := h1
  rw [hn'] at m1
  refine (create_spec m1 (e1.means _ _ hb) rfl).mono ?_
  intro r s2 h2
  exact ⟨e1.trans h2.1, h2.2⟩

theorem doLeftshiftbynAdd_spec {a p b : Value} {x y : Word} {n : Nat}
    (ha : Means args st.block a x) (hp : Means args st.block p (BitVec.ofNat 32 n)) (hn : n < 32)
    (hb : Means args st.block b y) (hy : ∀ i, n ≤ i → y.getLsbD i = false) :
    Wp (doLeftshiftbynAdd a p b) (fun val st' => Emits args st st' ∧
      Means args st'.block val (BitField.cat x n y)) st := by
  rw [← BitField.shift_add x y n hy]
  exact doLeftshiftbynAdd_sum ha hp hn hb

/-- A start and a width that the two shifts of `createMask` can take. -/
def maskable (s n : Nat) : Prop := s < 32 ∧ 1 ≤ n ∧ n ≤ 32

theorem inside.maskable {s n : Nat} (h : inside s n 32) : maskable s n := by
  obtain ⟨hn, hsn⟩ := h
  exact ⟨by omega, hn, by omega⟩

theorem createMask_spec {p r : Value} {s n : Word} (hp : Means args st.block p s)
    (hr : Means args st.block r n) (hin : maskable s.toNat n.toNat) :
    Wp (createMask p r) (fun val st' => Emits args st st' ∧
      Means args st'.block val (BitField.mask 32 s.toNat n.toNat)) st := by
  obtain ⟨hs, hn, hn32⟩ := hin
  have hsub : (32#32 - n).toNat = 32 - n.toNat := by
    rw [BitVec.toNat_sub_of_le (by rw [BitVec.le_def]; simp; omega)]; simp
  refine Wp.bind' (create_spec (Means.getInt32 hp.runs 32) hr rfl) ?_
  intro d s1 h
  obtain ⟨e1, m1⟩ := h
  refine Wp.bind' (create_spec (Means.const m1.runs _) m1
    (evalBin_lshr (show (32#32 - n).toNat < 32 by omega))) ?_
  intro v s2 h
  obtain ⟨e2, m2⟩ := h
  rw [show (BitVec.ofNat 32 32 - n).toNat = 32 - n.toNat from hsub] at m2
  refine (create_spec m2 (e2.means _ _ (e1.means _ _ hp)) (evalBin_shl (by omega))).mono ?_
  intro m s3 h
  obtain ⟨e3, m3⟩ := h
  exact ⟨(e1.trans e2).trans e3, by rw [← BitField.shift_mask _ _ hn32]; exact m3⟩

theorem getMaskedValue_spec {a : Value} {sl : Slice} {x s n : Word} (ha : Means args st.block a x)
    (hs : Means args st.block sl.start s) (hn : Means args st.block sl.range n)
    (hin : maskable s.toNat n.toNat) :
    Wp (getMaskedValue a sl) (fun val st' => Emits args st st' ∧
      Means args st'.block val (BitField.get x s.toNat n.toNat)) st := by
  refine Wp.bind' (createMask_spec hs hn hin) ?_
  intro m s1 h
  obtain ⟨e1, m1⟩ := h
  refine Wp.bind' (create_spec m1 (e1.means _ _ ha) rfl) ?_
  intro v s2 h
  obtain ⟨e2, m2⟩ := h
  refine (create_spec m2 (e2.means _ _ (e1.means _ _ hs)) (evalBin_lshr hin.1)).mono ?_
  intro r s3 h
  obtain ⟨e3, m3⟩ := h
  exact ⟨(e1.trans e2).trans e3, by rw [← BitField.mask_and_shift]; exact m3⟩

/-! The reductions, as words. -/

theorem getLsbD_ofBool (b : Bool) (i : Nat) : (ofBool b).getLsbD i = (decide (i = 0) && b) := by
  cases b <;> simp [ofBool]

/-- Unsigned division by the greatest word. -/
theorem div_allOnes (x : Word) : x / BitVec.ofNat 32 0xFFFFFFFF = ofBool (x = BitVec.allOnes 32) := by
  apply BitVec.eq_of_toNat_eq
  have hx : x.toNat < 2 ^ 32 := x.isLt
  by_cases h : x = BitVec.allOnes 32
  · subst h; decide
  · have hne : x.toNat ≠ 2 ^ 32 - 1 := by
      intro e
      exact h (BitVec.eq_of_toNat_eq (by rw [e]; decide))
    have h0 : ofBool (x = BitVec.allOnes 32) = 0 := by rw [decide_eq_false h]; rfl
    rw [h0, BitVec.toNat_udiv]
    exact Nat.div_eq_of_lt (by simp only [BitVec.toNat_ofNat]; omega)

theorem ugt_zero (x : Word) :
    evalBin .icmpUgt x (BitVec.ofNat 32 0) = some (ofBool (x ≠ 0)) := by
  have hlt : BitVec.ofNat 32 0 < x ↔ x ≠ 0 := by
    rw [BitVec.lt_def, Ne, ← BitVec.toNat_inj]
    simp only [BitVec.toNat_ofNat, BitVec.ofNat_eq_ofNat]
    omega
  simp only [evalBin, ofBool, hlt, decide_eq_true_eq]

/-- The low bit spread over the word by a multiplication. -/
theorem low_mul_allOnes (x : Word) : BitField.get x 0 1 * BitVec.ofNat 32 0xFFFFFFFF =
    if x.getLsbD 0 then BitVec.allOnes 32 else 0 := by
  have h : BitField.get x 0 1 = ofBool (x.getLsbD 0) := by
    apply BitVec.eq_of_getLsbD_eq
    intro i hi
    rw [BitField.getLsbD_get, getLsbD_ofBool]
    by_cases h0 : i = 0
    · subst h0; simp
    · simp [h0]
  rw [h]
  cases x.getLsbD 0 <;> decide

theorem ofBool_xor_get (b : Bool) (x : Word) (i : Nat) :
    ofBool b ^^^ BitField.get x i 1 = ofBool (b ^^ x.getLsbD i) := by
  apply BitVec.eq_of_getLsbD_eq
  intro j hj
  rw [BitVec.getLsbD_xor, getLsbD_ofBool, getLsbD_ofBool, BitField.getLsbD_get]
  by_cases h0 : j = 0
  · subst h0; simp
  · simp [h0]

/-! The operators that emit more than one instruction, or none of their own. -/

theorem reduceAnd_spec {a : Value} {x : Word} (ha : Means args st.block a x) :
    Wp (create .udiv a (getInt32 0xFFFFFFFF)) (fun val st' => Emits args st st' ∧
      Means args st'.block val (ofBool (x = BitVec.allOnes 32))) st := by
  rw [← div_allOnes]
  exact create_spec ha (Means.getInt32 ha.runs _) rfl

theorem reduceOr_spec {a : Value} {x : Word} (ha : Means args st.block a x) :
    Wp (do insert (.zext (← create .icmpUgt a (getInt32 0)))) (fun val st' => Emits args st st' ∧
      Means args st'.block val (ofBool (x ≠ 0))) st := by
  refine Wp.bind' (create_spec ha (Means.getInt32 ha.runs 0) (ugt_zero x)) ?_
  intro b s1 h
  obtain ⟨e1, m1⟩ := h
  exact (zext_spec m1).mono fun _ _ h => ⟨e1.trans h.1, h.2⟩

theorem expand_spec {a : Value} {x : Word} (ha : Means args st.block a x) :
    Wp (do create .mul (← getLowestBit a) (getInt32 0xFFFFFFFF)) (fun val st' => Emits args st st' ∧
      Means args st'.block val (if x.getLsbD 0 then BitVec.allOnes 32 else 0)) st := by
  refine Wp.bind' (getLowestBit_spec ha) ?_
  intro b s1 h
  obtain ⟨e1, m1⟩ := h
  rw [← low_mul_allOnes]
  exact (create_spec m1 (Means.getInt32 m1.runs _) rfl).mono fun _ _ h => ⟨e1.trans h.1, h.2⟩

theorem xorBits_spec {a : Value} {x : Word} : ∀ (is : List Nat) {st : Parser} {acc : Value}
    {b : Bool}, (∀ i ∈ is, i < 32) → Means args st.block a x →
    Means args st.block acc (ofBool b) →
    Wp (xorBits a is acc) (fun val st' => Emits args st st' ∧
      Means args st'.block val (ofBool (is.foldl (fun b i => b ^^ x.getLsbD i) b))) st
  | [], _, _, _, _, _, hacc => Wp.pure' ⟨Emits.refl, hacc⟩
  | i :: is, st, acc, b, his, ha, hacc => by
    have hi : i < 32 := his i (by simp)
    have hi' : (BitVec.ofNat 32 i).toNat = i := by simp; omega
    refine Wp.bind' (getBit_spec ha (Means.getInt32 ha.runs i) (by omega)) ?_
    intro bit s1 h
    obtain ⟨e1, m1⟩ := h
    rw [hi'] at m1
    refine Wp.bind' (create_spec (e1.means _ _ hacc) m1 rfl) ?_
    intro acc' s2 h
    obtain ⟨e2, m2⟩ := h
    rw [ofBool_xor_get] at m2
    refine (xorBits_spec is (fun j hj => his j (by simp [hj]))
      (e2.means _ _ (e1.means _ _ ha)) m2).mono ?_
    intro r s3 h
    obtain ⟨e3, m3⟩ := h
    exact ⟨(e1.trans e2).trans e3, m3⟩

theorem reduceXor_spec {a : Value} {x : Word} (ha : Means args st.block a x) :
    Wp (xorBits a (List.range 32) (getInt32 0)) (fun val st' => Emits args st st' ∧
      Means args st'.block val (ofBool (parity x))) st :=
  xorBits_spec _ (fun _ hi => List.mem_range.mp hi) ha (Means.getInt32 ha.runs 0)

end Ece566.P1
