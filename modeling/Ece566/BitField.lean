import Mathlib

/- Bit fields of a machine word. A field is a start bit and a width; `get` reads
   it down to bit 0, `put` overwrites it with the low bits of another word, `cat`
   appends a field below a word. They are defined bit by bit, and the second half
   of the file says when the usual shift-and-mask expressions compute them. -/
namespace Ece566.BitField

variable {w : Nat}

/-- Ones at bits `s .. s + n - 1`. -/
def mask (w s n : Nat) : BitVec w := BitVec.ofFnLE fun i => decide (s ≤ i ∧ i < s + n)

/-- The `n` bits of `x` from bit `s`, moved down to bit 0. -/
def get (x : BitVec w) (s n : Nat) : BitVec w :=
  BitVec.ofFnLE fun i => decide (i < n) && x.getLsbD (s + i)

/-- `x` with the `n` bits from bit `s` replaced by the low bits of `e`. -/
def put (x : BitVec w) (s n : Nat) (e : BitVec w) : BitVec w :=
  BitVec.ofFnLE fun i => if s ≤ i ∧ i < s + n then e.getLsbD (i - s) else x.getLsbD i

/-- `x` moved up by `n` bits, with the low `n` bits of `e` below it. -/
def cat (x : BitVec w) (n : Nat) (e : BitVec w) : BitVec w :=
  BitVec.ofFnLE fun i => if i < n then e.getLsbD i else x.getLsbD (i - n)

theorem getLsbD_mask (s n i : Nat) :
    (mask w s n).getLsbD i = decide (i < w ∧ s ≤ i ∧ i < s + n) := by
  simp only [mask, BitVec.getLsbD_ofFnLE]
  split <;> simp_all

theorem getLsbD_get (x : BitVec w) (s n i : Nat) :
    (get x s n).getLsbD i = (decide (i < w ∧ i < n) && x.getLsbD (s + i)) := by
  simp only [get, BitVec.getLsbD_ofFnLE]
  split <;> simp_all

theorem getLsbD_put (x : BitVec w) (s n : Nat) (e : BitVec w) (i : Nat) :
    (put x s n e).getLsbD i =
      if i < w ∧ s ≤ i ∧ i < s + n then e.getLsbD (i - s) else x.getLsbD i := by
  simp only [put, BitVec.getLsbD_ofFnLE]
  by_cases hi : i < w
  · simp [hi]
  · simp [hi, BitVec.getLsbD_of_ge x i (by omega)]

theorem getLsbD_cat (x : BitVec w) (n : Nat) (e : BitVec w) (i : Nat) :
    (cat x n e).getLsbD i =
      (decide (i < w) && if i < n then e.getLsbD i else x.getLsbD (i - n)) := by
  simp only [cat, BitVec.getLsbD_ofFnLE]
  split <;> simp_all

/-! Fields of fields, and the field that is the whole word. -/

/-- Reading a field of what was written there gives the low bits written. -/
theorem get_put (x e : BitVec w) (s n : Nat) (h : s + n ≤ w) :
    get (put x s n e) s n = get e 0 n := by
  apply BitVec.eq_of_getLsbD_eq
  intro i hi
  simp only [getLsbD_get, getLsbD_put, Nat.zero_add]
  by_cases hn : i < n
  · simp [hi, hn, show s + i < w by omega]
  · simp [hn]

/-- A field of a field is the field at the sum of the starts. -/
theorem get_get (x : BitVec w) (s n s' n' : Nat) (h : s' + n' ≤ n) (hw : s + n ≤ w) :
    get (get x s n) s' n' = get x (s + s') n' := by
  apply BitVec.eq_of_getLsbD_eq
  intro i hi
  simp only [getLsbD_get]
  by_cases hn : i < n'
  · simp [hi, hn, show s' + i < w by omega, show s' + i < n by omega, Nat.add_assoc]
  · simp [hn]

/-- Writing back what was read changes nothing. -/
theorem put_get (x : BitVec w) (s n : Nat) : put x s n (get x s n) = x := by
  apply BitVec.eq_of_getLsbD_eq
  intro i hi
  simp only [getLsbD_put, getLsbD_get]
  by_cases h : s ≤ i ∧ i < s + n
  · simp [hi, h, show i - s < w by omega, show i - s < n by omega, show s + (i - s) = i by omega]
  · simp [h]

/-- The last write to a field wins. -/
theorem put_put (x e e' : BitVec w) (s n : Nat) : put (put x s n e) s n e' = put x s n e' := by
  apply BitVec.eq_of_getLsbD_eq
  intro i hi
  simp only [getLsbD_put]
  split <;> simp_all

/-- A write does not show in a field apart from it. -/
theorem get_put_apart (x e : BitVec w) (s n t m : Nat) (h : s + n ≤ t ∨ t + m ≤ s) :
    get (put x s n e) t m = get x t m := by
  apply BitVec.eq_of_getLsbD_eq
  intro i hi
  simp only [getLsbD_get, getLsbD_put]
  by_cases hm : i < m
  · rw [if_neg (by omega)]
  · simp [hm]

/-- Writes to fields apart from each other commute. -/
theorem put_comm (x e e' : BitVec w) (s n t m : Nat) (h : s + n ≤ t ∨ t + m ≤ s) :
    put (put x s n e) t m e' = put (put x t m e') s n e := by
  apply BitVec.eq_of_getLsbD_eq
  intro i hi
  simp only [getLsbD_put]
  by_cases hs : s ≤ i ∧ i < s + n
  · rw [if_neg (by omega), if_pos ⟨hi, hs⟩, if_pos ⟨hi, hs⟩]
  · simp [hs]

/-- Writing a field of a field is reading the outer one, writing there, and writing it back. -/
theorem put_field (x e : BitVec w) (s n s' n' : Nat) (h : s' + n' ≤ n) (hw : s + n ≤ w) :
    put x (s + s') n' e = put x s n (put (get x s n) s' n' e) := by
  apply BitVec.eq_of_getLsbD_eq
  intro i hi
  simp only [getLsbD_put, getLsbD_get]
  by_cases hs : s ≤ i ∧ i < s + n
  · have hsub : s + (i - s) = i := by omega
    by_cases hin : s + s' ≤ i ∧ i < s + s' + n'
    · simp [hi, hs, hin, show i - s < w by omega, show s' ≤ i - s ∧ i - s < s' + n' by omega,
        show i - (s + s') = i - s - s' by omega]
    · simp [hi, hs, hin, show i - s < w by omega, show i - s < n by omega, hsub,
        show ¬ (s' ≤ i - s ∧ i - s < s' + n') by omega]
  · rw [if_neg (by omega), if_neg (by omega)]

/-- A field is a quotient and a remainder. -/
theorem toNat_get (x : BitVec w) (s n : Nat) : (get x s n).toNat = x.toNat / 2 ^ s % 2 ^ n := by
  apply Nat.eq_of_testBit_eq
  intro i
  rw [Nat.testBit_mod_two_pow, Nat.testBit_div_two_pow, BitVec.testBit_toNat, BitVec.testBit_toNat,
    getLsbD_get, Nat.add_comm i s]
  by_cases hi : i < w
  · simp [hi]
  · simp [BitVec.getLsbD_of_ge x (s + i) (by omega)]

theorem get_whole (x : BitVec w) : get x 0 w = x := by
  apply BitVec.eq_of_getLsbD_eq
  intro i hi
  rw [getLsbD_get]
  simp [hi]

theorem put_whole (x e : BitVec w) : put x 0 w e = e := by
  apply BitVec.eq_of_getLsbD_eq
  intro i hi
  rw [getLsbD_put]
  simp [hi]

/-- A word none of whose bits lies at or above `n` is its own low field. -/
theorem get_low (x : BitVec w) (n : Nat) (h : ∀ i, n ≤ i → x.getLsbD i = false) :
    get x 0 n = x := by
  apply BitVec.eq_of_getLsbD_eq
  intro i hi
  rw [getLsbD_get]
  by_cases hn : i < n
  · simp [hi, hn]
  · rw [h i (by omega)]; simp [hn]

/-- A field has no bit at or above its width. -/
theorem getLsbD_get_of_le (x : BitVec w) (s n i : Nat) (h : n ≤ i) :
    (get x s n).getLsbD i = false := by
  simp [getLsbD_get, show ¬ i < n by omega]

/-! The shift-and-mask expressions. -/

/-- All ones shifted right by `w - n`, then left by `s`. -/
theorem shift_mask (s n : Nat) (h : n ≤ w) :
    (BitVec.allOnes w >>> (w - n)) <<< s = mask w s n := by
  apply BitVec.eq_of_getLsbD_eq
  intro i hi
  simp only [getLsbD_mask, BitVec.getLsbD_shiftLeft, BitVec.getLsbD_ushiftRight,
    BitVec.getLsbD_allOnes]
  by_cases h1 : s ≤ i
  · by_cases h2 : i < s + n
    · simp [hi, h1, h2, show w - n + (i - s) < w by omega]
    · simp [hi, h1, h2, show ¬ w - n + (i - s) < w by omega]
  · simp [h1, show i < s by omega]

theorem mask_and_shift (x : BitVec w) (s n : Nat) :
    (mask w s n &&& x) >>> s = get x s n := by
  apply BitVec.eq_of_getLsbD_eq
  intro i hi
  simp only [BitVec.getLsbD_ushiftRight, BitVec.getLsbD_and, getLsbD_mask, getLsbD_get]
  by_cases hw : s + i < w
  · by_cases hn : i < n
    · simp [hi, hn, hw]
    · simp [hn]
  · simp [BitVec.getLsbD_of_ge x (s + i) (by omega)]

/-- The read-modify-write of a field. -/
theorem masked_merge (x e : BitVec w) (s n : Nat) :
    (mask w s n &&& (e <<< s)) ||| (x &&& ~~~ mask w s n) = put x s n e := by
  apply BitVec.eq_of_getLsbD_eq
  intro i hi
  simp only [BitVec.getLsbD_or, BitVec.getLsbD_and, BitVec.getLsbD_not, getLsbD_mask,
    BitVec.getLsbD_shiftLeft, getLsbD_put]
  by_cases h1 : s ≤ i
  · by_cases h2 : i < s + n
    · simp [hi, h1, h2]
    · simp [hi, h2]
  · simp [hi, h1]

/-- Shift and keep the low bit. -/
theorem shift_and_one (x : BitVec w) (s : Nat) :
    (x >>> s) &&& 1#w = get x s 1 := by
  apply BitVec.eq_of_getLsbD_eq
  intro i hi
  simp only [BitVec.getLsbD_and, BitVec.getLsbD_ushiftRight, BitVec.getLsbD_one, getLsbD_get]
  by_cases h0 : i = 0
  · subst h0; simp [hi]
  · simp [h0]

theorem and_one (x : BitVec w) : x &&& 1#w = get x 0 1 := by
  have h := shift_and_one x 0
  simpa using h

/-- The sum of a shifted word and a field never carries. -/
theorem shift_add (x e : BitVec w) (n : Nat) (h : ∀ i, n ≤ i → e.getLsbD i = false) :
    (x <<< n) + e = cat x n e := by
  have hdisj : (x <<< n) &&& e = 0#w := by
    apply BitVec.eq_of_getLsbD_eq
    intro i hi
    by_cases hn : i < n
    · simp [hn]
    · simp [h i (by omega)]
  rw [BitVec.add_eq_or_of_and_eq_zero _ _ hdisj]
  apply BitVec.eq_of_getLsbD_eq
  intro i hi
  simp only [BitVec.getLsbD_or, BitVec.getLsbD_shiftLeft, getLsbD_cat]
  by_cases hn : i < n
  · simp [hi, hn]
  · rw [h i (by omega)]; simp [hi, hn]

/-- Only the low field of the appended word matters. -/
theorem cat_get (x e : BitVec w) (n : Nat) : cat x n (get e 0 n) = cat x n e := by
  apply BitVec.eq_of_getLsbD_eq
  intro i hi
  simp only [getLsbD_cat, getLsbD_get]
  by_cases hn : i < n <;> simp [hi, hn]

/-- Appending below a word of `m` bits gives one of `m + n` bits. -/
theorem getLsbD_cat_of_le (x e : BitVec w) (m n i : Nat)
    (h : ∀ i, m ≤ i → x.getLsbD i = false) (hi : m + n ≤ i) :
    (cat x n e).getLsbD i = false := by
  simp [getLsbD_cat, show ¬ i < n by omega, h (i - n) (by omega)]

/-! Fields side by side. -/

/-- The total width of a list of fields. -/
def total (fs : List (Nat × BitVec w)) : Nat := (fs.map Prod.fst).sum

/-- The fields below `x`, the last one lowest. -/
def packOn (x : BitVec w) (fs : List (Nat × BitVec w)) : BitVec w :=
  fs.foldl (fun acc f => cat acc f.1 f.2) x

/-- The fields side by side. -/
def pack (fs : List (Nat × BitVec w)) : BitVec w := packOn 0#w fs

theorem total_append (fs gs : List (Nat × BitVec w)) : total (fs ++ gs) = total fs + total gs := by
  simp [total]

theorem total_cons (f : Nat × BitVec w) (fs : List (Nat × BitVec w)) :
    total (f :: fs) = f.1 + total fs := by
  simp [total]

theorem pack_append (fs gs : List (Nat × BitVec w)) : pack (fs ++ gs) = packOn (pack fs) gs := by
  simp [pack, packOn]

theorem pack_snoc (fs : List (Nat × BitVec w)) (n : Nat) (e : BitVec w) :
    pack (fs ++ [(n, e)]) = cat (pack fs) n e := pack_append fs [(n, e)]

/-- Below the width of the fields are the fields, above it the word. -/
theorem getLsbD_packOn (x : BitVec w) (gs : List (Nat × BitVec w)) (i : Nat) :
    (packOn x gs).getLsbD i =
      if i < total gs then (pack gs).getLsbD i
      else (decide (i < w) && x.getLsbD (i - total gs)) := by
  induction gs using List.reverseRecOn generalizing i with
  | nil =>
    by_cases hi : i < w
    · simp [packOn, total, hi]
    · simp [packOn, total, BitVec.getLsbD_of_ge _ i (Nat.le_of_not_lt hi)]
  | append_singleton gs g ih =>
    obtain ⟨n, e⟩ := g
    have ht : total [((n, e) : Nat × BitVec w)] = n := by simp [total]
    have hx : packOn x (gs ++ [(n, e)]) = cat (packOn x gs) n e := by simp [packOn]
    rw [hx, pack_snoc, total_append, ht, getLsbD_cat, getLsbD_cat, ih]
    by_cases hn : i < n
    · simp [hn, show i < total gs + n by omega]
    · by_cases hg : i < total gs + n
      · simp [hn, hg, show i - n < total gs by omega]
      · by_cases hw : i < w
        · simp [hn, hg, hw, show ¬ i - n < total gs by omega, show i - n < w by omega,
            show i - n - total gs = i - (total gs + n) by omega]
        · simp [hn, hg, hw]

theorem getLsbD_pack_append (fs gs : List (Nat × BitVec w)) (i : Nat) :
    (pack (fs ++ gs)).getLsbD i =
      if i < total gs then (pack gs).getLsbD i
      else (decide (i < w) && (pack fs).getLsbD (i - total gs)) := by
  rw [pack_append, getLsbD_packOn]

/-- Bits of the word that the fields push out do not matter. -/
theorem packOn_low (x y : BitVec w) (gs : List (Nat × BitVec w)) (n : Nat) (hw : w ≤ n + total gs)
    (h : ∀ i, i < n → x.getLsbD i = y.getLsbD i) : packOn x gs = packOn y gs := by
  apply BitVec.eq_of_getLsbD_eq
  intro i hi
  rw [getLsbD_packOn, getLsbD_packOn]
  by_cases hg : i < total gs
  · simp [hg]
  · simp [hg, h (i - total gs) (by omega)]

/-- Each field is found where it was put. -/
theorem getLsbD_pack_field (fs gs : List (Nat × BitVec w)) (n : Nat) (e : BitVec w) (j : Nat)
    (hj : j < n) (hw : n + total gs ≤ w) :
    (pack (fs ++ (n, e) :: gs)).getLsbD (total gs + j) = e.getLsbD j := by
  rw [List.append_cons, getLsbD_pack_append, if_neg (by omega), pack_snoc, getLsbD_cat,
    Nat.add_sub_cancel_left, if_pos hj]
  simp [show total gs + j < w by omega, show j < w by omega]

/-- A field does not show outside its place. -/
theorem getLsbD_pack_outside (fs gs : List (Nat × BitVec w)) (n : Nat) (e e' : BitVec w) (k : Nat)
    (hk : ¬ (total gs ≤ k ∧ k < total gs + n)) :
    (pack (fs ++ (n, e) :: gs)).getLsbD k = (pack (fs ++ (n, e') :: gs)).getLsbD k := by
  rw [List.append_cons fs (n, e), List.append_cons fs (n, e'),
    getLsbD_pack_append (fs ++ [(n, e)]), getLsbD_pack_append (fs ++ [(n, e')])]
  by_cases hg : k < total gs
  · simp [hg]
  · have hn : ¬ k - total gs < n := by omega
    simp [hg, pack_snoc, getLsbD_cat, hn]

/-- Adjacent fields of `x`, the last one at bit 0. -/
def fieldsOf (x : BitVec w) : List Nat → List (Nat × BitVec w)
  | [] => []
  | n :: ns => (n, get x ns.sum n) :: fieldsOf x ns

theorem total_fieldsOf (x : BitVec w) : ∀ (ns : List Nat), total (fieldsOf x ns) = ns.sum
  | [] => rfl
  | n :: ns => by rw [fieldsOf, total_cons, total_fieldsOf x ns, List.sum_cons]

/-- Adjacent fields of a word, packed again, are its low bits. -/
theorem pack_fieldsOf (x : BitVec w) : ∀ (ns : List Nat), ns.sum ≤ w →
    pack (fieldsOf x ns) = get x 0 ns.sum
  | [], _ => by
    apply BitVec.eq_of_getLsbD_eq
    intro i hi
    simp [fieldsOf, pack, packOn, getLsbD_get]
  | n :: ns, h => by
    rw [List.sum_cons] at h
    apply BitVec.eq_of_getLsbD_eq
    intro i hi
    have hp := getLsbD_pack_append [(n, get x ns.sum n)] (fieldsOf x ns) i
    rw [fieldsOf, ← List.singleton_append, hp, total_fieldsOf, pack_fieldsOf x ns (by omega),
      ← List.nil_append [(n, get x ns.sum n)], pack_snoc, List.sum_cons]
    simp only [getLsbD_get, getLsbD_cat, pack, packOn, List.foldl_nil, Nat.zero_add]
    by_cases hs : i < ns.sum
    · simp [hi, hs, show i < n + ns.sum by omega]
    · by_cases hn : i < n + ns.sum
      · simp [hi, hs, hn, show i - ns.sum < w by omega, show i - ns.sum < n by omega,
          show ns.sum + (i - ns.sum) = i by omega]
      · simp [hs, hn, show ¬ i - ns.sum < n by omega]

end Ece566.BitField
