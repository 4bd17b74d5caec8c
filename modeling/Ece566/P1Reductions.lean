import Ece566.P1Correct

/- The reductions and `expand` against the 32 bits of the word. `reduce &`, `reduce |` and
   `reduce ^` are emitted as a division, a comparison and a loop of shifts, all of them on
   the word as an unsigned number; below they are the conjunction, the disjunction and the
   parity of the bits. -/
namespace Ece566.P1

variable {handleBitsliceID : String → Parse Value} {args : List Word} {st : Parser} {e : Word}

/-- How many of the 32 bits are set. -/
def setBits (e : Word) : Nat := (List.range 32).countP e.getLsbD

/-! The bits of a word. -/

theorem all_bits_iff : (List.range 32).all e.getLsbD = true ↔ e = BitVec.allOnes 32 := by
  rw [List.all_eq_true]
  refine ⟨?_, ?_⟩
  · intro h
    apply BitVec.eq_of_getLsbD_eq
    intro i hi
    rw [h i (List.mem_range.mpr hi), BitVec.getLsbD_allOnes, decide_eq_true hi]
  · intro h i hi
    rw [h, BitVec.getLsbD_allOnes, decide_eq_true (List.mem_range.mp hi)]

theorem cpopNatRec_range (k acc : Nat) :
    e.cpopNatRec k acc = acc + (List.range k).countP e.getLsbD := by
  induction k generalizing acc with
  | zero => rfl
  | succ k ih =>
    rw [BitVec.cpopNatRec_succ, ih, List.range_succ, List.countP_append, List.countP_singleton]
    cases e.getLsbD k with
    | true => simp; omega
    | false => simp

theorem setBits_le : setBits e ≤ 32 := by
  have := List.countP_le_length (p := e.getLsbD) (l := List.range 32)
  rwa [List.length_range] at this

theorem cpop_toNat : e.cpop.toNat = setBits e := by
  have h := setBits_le (e := e)
  rw [BitVec.cpop, cpopNatRec_range, Nat.zero_add, BitVec.toNat_ofNat]
  exact Nat.mod_eq_of_lt (by rw [← setBits]; omega)

/-- The exclusive or of bits is the parity of how many are set. -/
theorem xor_foldl (is : List Nat) (b : Bool) :
    (is.foldl (fun acc i => acc ^^ e.getLsbD i) b).toNat =
      (b.toNat + is.countP e.getLsbD) % 2 := by
  induction is generalizing b with
  | nil => cases b <;> rfl
  | cons i is ih =>
    rw [List.foldl_cons, ih, List.countP_cons]
    cases b <;> cases e.getLsbD i <;> simp <;> omega

theorem ofBool_parity : ofBool (parity e) = BitVec.ofNat 32 (setBits e % 2) := by
  have h : (parity e).toNat = setBits e % 2 := by
    rw [parity, xor_foldl, setBits, Bool.toNat_false, Nat.zero_add]
  rw [← h]
  cases parity e <;> rfl

theorem lowest_bit (n : Word) : n &&& 1 = BitVec.ofNat 32 (n.toNat % 2) := by
  apply BitVec.eq_of_toNat_eq
  rw [BitVec.toNat_and, BitVec.toNat_ofNat]
  have : n.toNat &&& 1 = n.toNat % 2 := Nat.and_one_is_mod _
  rw [show (1 : Word).toNat = 1 from rfl, this]
  omega

/-! What is emitted. -/

/-- The operand, then what the operator emits. -/
theorem Yields.operator {a : Expr} {f : Value → Parse Value} {v : Word}
    (ha : Yields args st (a.act handleBitsliceID) e)
    (hf : ∀ {val s}, Means args s.block val e →
      Wp (f val) (fun val' s' => Emits args s s' ∧ Means args s'.block val' v) s) :
    Yields args st (do f (← a.act handleBitsliceID)) v := by
  refine Wp.bind' ha ?_
  intro val s₁ h
  obtain ⟨g₁, m₁⟩ := h
  refine (hf m₁).mono ?_
  intro val' s₂ h
  obtain ⟨e₂, m₂⟩ := h
  exact ⟨g₁.trans e₂.toGrows, m₂⟩

/-- **The reductions and `expand` are the folds over the bits.** Whatever expression `e` is the
value of, the code emitted computes them from `e`; and the parity is the lowest bit of the
count. -/
theorem reductions_fold {a : Expr} (ha : Yields args st (a.act handleBitsliceID) e) :
    Yields args st ((Expr.reduceAnd a).act handleBitsliceID)
      (if (List.range 32).all e.getLsbD then 1 else 0) ∧
    Yields args st ((Expr.reduceOr a).act handleBitsliceID) (if e = 0 then 0 else 1) ∧
    Yields args st ((Expr.reduceXor a).act handleBitsliceID) (BitVec.ofNat 32 (setBits e % 2)) ∧
    Yields args st ((Expr.expand a).act handleBitsliceID)
      (if e.getLsbD 0 then BitVec.allOnes 32 else 0) ∧
    ∃ count : Word, count.toNat = setBits e ∧
      Yields args st ((Expr.reducePlus a).act handleBitsliceID) count ∧
      Yields args st ((Expr.reduceXor a).act handleBitsliceID) (count &&& 1) := by
  have hxor : Yields args st ((Expr.reduceXor a).act handleBitsliceID)
      (BitVec.ofNat 32 (setBits e % 2)) := by
    rw [← ofBool_parity]
    exact ha.operator reduceXor_spec
  refine ⟨?_, ?_, hxor, ha.operator expand_spec, e.cpop, cpop_toNat, ha.operator ctpop_spec, ?_⟩
  · have h : ofBool (e = BitVec.allOnes 32) = if (List.range 32).all e.getLsbD then 1 else 0 := by
      simp only [ofBool, all_bits_iff, decide_eq_true_eq]
    rw [← h]
    exact ha.operator reduceAnd_spec
  · have h : ofBool (e ≠ 0) = if e = 0 then 0 else 1 := by
      by_cases h0 : e = 0 <;> simp [ofBool, h0]
    rw [← h]
    exact ha.operator reduceOr_spec
  · rw [lowest_bit, cpop_toNat]
    exact hxor

/-- A word with its sign bit set: all ones but one. -/
theorem reductions_fold_sign :
    Yields [] Parser.init ((Expr.reduceXor (.bitslice (.number 0xBFFFFFFF))).act readID) 1 ∧
      Yields [] Parser.init ((Expr.reduceAnd (.bitslice (.number 0xBFFFFFFF))).act readID) 0 := by
  have ha : Yields [] Parser.init ((Expr.bitslice (.number 0xBFFFFFFF)).act readID) 0xBFFFFFFF :=
    ⟨_, _, rfl, ⟨rfl, rfl, rfl, fun _ _ h => h⟩, [], rfl, rfl⟩
  exact ⟨(reductions_fold ha).2.2.1, (reductions_fold ha).1⟩

end Ece566.P1
