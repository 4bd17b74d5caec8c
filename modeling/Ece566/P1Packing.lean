import Ece566.P1Lists

/- Lists as fields side by side. Where every element but the first leaves its own width,
   and none is wider than that, a list is its elements packed (`result_eq_pack`), so each
   element is found in its field and shows nowhere else. Where an element leaves another
   width, everything before it is misplaced; where one is not cut, its high bits spill.
   The main result says that this is so for exactly the shapes that are not `Kept`. -/
namespace Ece566.P1

/-- Where the field of the `i`-th element starts: after the later ones. -/
def Shapes.offset (ss : Shapes) (i : Nat) : Nat :=
  ((ss.elements.drop (i + 1)).map Shape.width).sum

/-- Every list of the shapes `ss` has a value, in which the field of each element holds
the low bits of the element, and replacing an element by another of its shape changes no
bit outside its field. -/
def KeepsToFields (handleBitsliceID : String → Parse Value) (args : List Word) (env : Env)
    (ss : Shapes) : Prop :=
  ∀ l, BitsliceList.Shaped handleBitsliceID args env l ss →
    ∃ r, Gives args env (l.act handleBitsliceID) r ∧
    ∀ i b s, l.elements[i]? = some b → ss.elements[i]? = some s →
      (∃ v, Gives args env (b.act handleBitsliceID) v ∧
        ∀ j, j < s.width → r.getLsbD (ss.offset i + j) = v.getLsbD j) ∧
      ∀ (b' : Bitslice) (l' : BitsliceList), b'.Shaped handleBitsliceID args env s →
        l'.elements = l.elements.set i b' →
        ∃ r', Gives args env (l'.act handleBitsliceID) r' ∧
          ∀ k, ¬ (ss.offset i ≤ k ∧ k < ss.offset i + s.width) → r'.getLsbD k = r.getLsbD k

/-- Every element but the first leaves its own width, and no element has a parenthesised
one in it, unless it is the first of a list that fills the word. -/
def Shapes.Kept (ss : Shapes) : Prop :=
  ∀ i s, ss.elements[i]? = some s →
    (i = 0 ∨ s.left = s.width) ∧ (s.clean = true ∨ (i = 0 ∧ ss.width = 32))

variable {handleBitsliceID : String → Parse Value} {args : List Word} {env : Env}

/-- Its width and its value, as a field. -/
def Item.field (it : Item) : Nat × Word := (it.shape.width, it.cut)

/-! Lists that are packed. -/

theorem total_field (items : List Item) : BitField.total (items.map Item.field) = widths items := by
  rw [BitField.total, widths, List.map_map]; rfl

theorem getLsbD_of_lt {v : Word} {n : Nat} (h : v.toNat < 2 ^ n) (i : Nat) (hi : n ≤ i) :
    v.getLsbD i = false := by
  rw [← BitVec.testBit_toNat]
  exact Nat.testBit_lt_two_pow (h.trans_le (Nat.pow_le_pow_right (by decide) hi))

/-- The later elements, on whatever is before them. -/
theorem foldl_eq_packOn : ∀ (items : List Item) (acc : Word),
    (∀ it ∈ items, it.Ok handleBitsliceID args env) →
    (∀ it ∈ items, it.shape.left = it.shape.width ∧ it.shape.clean = true) →
    items.foldl (fun acc it => (acc <<< it.shape.left) + it.cut) acc =
      BitField.packOn acc (items.map Item.field)
  | [], _, _, _ => rfl
  | it :: items, acc, hok, hkept => by
    obtain ⟨hleft, hclean⟩ := hkept it List.mem_cons_self
    have hfits := (hok it List.mem_cons_self).fits hclean
    rw [List.foldl_cons, hleft, BitField.shift_add _ _ _ (getLsbD_of_lt hfits),
      foldl_eq_packOn items _ (fun it h => hok it (List.mem_cons_of_mem _ h))
        (fun it h => hkept it (List.mem_cons_of_mem _ h))]
    rfl

/-- The items of a list whose shapes are kept. -/
def KeptItems (items : List Item) : Prop :=
  ∀ i it, items[i]? = some it → (i = 0 ∨ it.shape.left = it.shape.width) ∧
    (it.shape.clean = true ∨ (i = 0 ∧ widths items = 32))

theorem result_eq_pack {items : List Item} (hok : ∀ it ∈ items, it.Ok handleBitsliceID args env)
    (hkept : KeptItems items) : result items = BitField.pack (items.map Item.field) := by
  cases items with
  | nil => rfl
  | cons it rest =>
    have hrest : ∀ it' ∈ rest, it'.shape.left = it'.shape.width ∧ it'.shape.clean = true := by
      intro it' hit
      obtain ⟨i, hi⟩ := List.getElem?_of_mem hit
      have hk := hkept (i + 1) it' hi
      simpa using hk
    have hok' : ∀ it' ∈ rest, it'.Ok handleBitsliceID args env :=
      fun it' h => hok it' (List.mem_cons_of_mem _ h)
    have hpack : BitField.pack ((it :: rest).map Item.field) =
        BitField.packOn (BitField.cat 0#32 it.shape.width it.cut) (rest.map Item.field) := rfl
    rw [result, foldl_eq_packOn rest it.cut hok' hrest, hpack]
    obtain hclean | hfull := (hkept 0 it rfl).2
    · -- a clean first element has no bit above its field
      have hcat : BitField.cat 0#32 it.shape.width it.cut = it.cut := by
        have hfits := getLsbD_of_lt ((hok it List.mem_cons_self).fits hclean)
        rw [← BitField.shift_add _ _ _ hfits]
        simp
      rw [hcat]
    · -- what lies above it is shifted out
      have hw := hfull.2
      simp only [widths, List.map_cons, List.sum_cons] at hw
      refine BitField.packOn_low _ _ _ it.shape.width ?_ fun i hi => ?_
      · rw [total_field, widths]; omega
      · rw [BitField.getLsbD_cat, if_pos hi]
        simp only [Bool.eq_and_self, decide_eq_true_eq]
        intro _
        omega

/-! One element among the others. -/

/-- The `i`-th of a list of items, with what is before and after it. -/
theorem split_at {α : Type} {xs : List α} {i : Nat} {x : α} (h : xs[i]? = some x) :
    ∃ pre post, xs = pre ++ x :: post ∧ pre.length = i ∧ post = xs.drop (i + 1) := by
  obtain ⟨hi, hx⟩ := List.getElem?_eq_some_iff.mp h
  refine ⟨xs.take i, xs.drop (i + 1), ?_, by simp; omega, rfl⟩
  rw [← hx, ← List.drop_eq_getElem_cons, List.take_append_drop]

theorem ItemsOf.offset_eq {l : BitsliceList} {ss : Shapes} {items : List Item}
    (h : ItemsOf handleBitsliceID args env l ss items) (i : Nat) :
    ss.offset i = widths (items.drop (i + 1)) := by
  rw [Shapes.offset, h.shapes, ← List.map_drop, List.map_map, widths]; rfl

theorem ItemsOf.kept {l : BitsliceList} {ss : Shapes} {items : List Item}
    (h : ItemsOf handleBitsliceID args env l ss items) (hkept : ss.Kept) : KeptItems items := by
  intro i it hi
  rw [h.widths_eq]
  exact hkept i it.shape (by rw [h.shapes, List.getElem?_map, hi]; rfl)

/-- The element of a list at a position, and its item. -/
theorem ItemsOf.item_at {l : BitsliceList} {ss : Shapes} {items : List Item}
    (h : ItemsOf handleBitsliceID args env l ss items) {i : Nat} {b : Bitslice} {s : Shape}
    (hb : l.elements[i]? = some b) (hs : ss.elements[i]? = some s) :
    ∃ it, items[i]? = some it ∧ it.b = b ∧ it.shape = s := by
  rw [h.elements, List.getElem?_map, Option.map_eq_some_iff] at hb
  obtain ⟨it, hit, rfl⟩ := hb
  rw [h.shapes, List.getElem?_map, hit, Option.map_some, Option.some.injEq] at hs
  exact ⟨it, hit, rfl, hs⟩

/-- The low bits of a value are those of the element. -/
theorem getLsbD_cut {it : Item} {j : Nat} (hj : j < it.shape.width) : it.cut.getLsbD j = it.v.getLsbD j := by
  rw [Item.cut, Shape.cut]
  split
  · rename_i hw
    have hs : it.shape = .leaf .word := by
      revert hw
      cases it.shape with
      | leaf k => cases k <;> simp [Shape.isWord]
      | list ss => simp [Shape.isWord]
    rw [hs] at hj
    have h0 : j = 0 := Nat.lt_one_iff.mp hj
    subst h0
    rw [BitField.getLsbD_get]
    simp
  · rfl

/-- Another element in the place of the one between `pre` and `post`. -/
theorem ItemsOf.replaced {l l' : BitsliceList} {ss : Shapes} {pre post : List Item} {it it' : Item}
    (h : ItemsOf handleBitsliceID args env l ss (pre ++ it :: post))
    (hok : it'.Ok handleBitsliceID args env) (hshape : it'.shape = it.shape)
    (hl' : l'.elements = l.elements.set pre.length it'.b) :
    ItemsOf handleBitsliceID args env l' ss (pre ++ it' :: post) := by
  refine ⟨by rw [hl', h.elements]; simp, by rw [h.shapes]; simp [hshape], fun x hx => ?_⟩
  have hx' := h.ok x
  simp only [List.mem_append, List.mem_cons] at hx hx'
  obtain hx | rfl | hx := hx
  · exact hx' (.inl hx)
  · exact hok
  · exact hx' (.inr (.inr hx))

theorem field_map (pre post : List Item) (it : Item) : (pre ++ it :: post).map Item.field =
    pre.map Item.field ++ (it.shape.width, it.cut) :: post.map Item.field := by
  simp [Item.field]

theorem kept_keeps (hID : ReadsID handleBitsliceID) {ss : Shapes} (h32 : ss.width ≤ 32)
    (hkept : ss.Kept) : KeepsToFields handleBitsliceID args env ss := by
  intro l hl
  obtain ⟨items, hitems⟩ := BitsliceList.items hID l hl h32
  have hsum := hitems.widths_eq
  have hpack := result_eq_pack hitems.ok (hitems.kept hkept)
  refine ⟨result items, (hitems.leaves h32).gives, ?_⟩
  intro i b s hi hs
  obtain ⟨it, hit, rfl, rfl⟩ := hitems.item_at hi hs
  have hokit := hitems.ok it (List.mem_of_getElem? hit)
  have hoff : ss.offset i = BitField.total ((items.drop (i + 1)).map Item.field) := by
    rw [hitems.offset_eq, total_field]
  obtain ⟨pre, post, rfl, rfl, hpost⟩ := split_at hit
  rw [← hpost] at hoff
  have hle : it.shape.width + BitField.total (post.map Item.field) ≤ 32 := by
    rw [widths_append] at hsum
    simp only [widths, List.map_cons, List.sum_cons] at hsum
    rw [total_field, widths]
    omega
  refine ⟨⟨it.v, hokit.leaves.gives, fun j hj => ?_⟩, ?_⟩
  · rw [hpack, field_map, hoff, BitField.getLsbD_pack_field _ _ _ _ _ hj hle, getLsbD_cut hj]
  · intro b' l' hshaped hl'
    obtain ⟨v', hok'⟩ := Bitslice.item hID b' hshaped (by omega)
    have hitems' := hitems.replaced hok' rfl hl'
    refine ⟨_, (hitems'.leaves h32).gives, fun k hk => ?_⟩
    rw [hpack, result_eq_pack hitems'.ok (hitems'.kept hkept), field_map, field_map]
    rw [hoff] at hk
    exact BitField.getLsbD_pack_outside _ _ _ _ _ _ hk

/-! Elements of a given shape and value. -/

/-- A word whose bit `s` is `u`, and no other. -/
def bitAt (u : Bool) (s : Nat) : Word := if u then BitVec.twoPow 32 s else 0

theorem getLsbD_bitAt (u : Bool) (s i : Nat) :
    (bitAt u s).getLsbD i = (u && decide (i < 32 ∧ i = s)) := by
  cases u
  · simp [bitAt]
  · simp only [bitAt, if_pos, BitVec.getLsbD_twoPow, Bool.true_and]
    by_cases hi : s = i
    · subst hi; simp
    · simp [hi, Ne.symm hi]

theorem get_bitAt (u : Bool) {s n : Nat} (hs : s < 32) (hn : 1 ≤ n) :
    BitField.get (bitAt u s) s n = ofBool u := by
  apply BitVec.eq_of_getLsbD_eq
  intro i hi
  rw [BitField.getLsbD_get, getLsbD_bitAt, getLsbD_ofBool]
  by_cases h0 : i = 0
  · subst h0
    simp [hs, show 0 < n by omega]
  · simp [h0]

theorem Gives.word (x : Word) :
    Gives args env (Bitslice.act handleBitsliceID (.number x.toNat)) x := by
  have h := @Gives.number args env handleBitsliceID x.toNat
  rwa [BitVec.ofNat_toNat, BitVec.setWidth_eq] at h

theorem bool_word (u : Bool) : ∃ it : Item, it.Ok handleBitsliceID args env ∧
    it.shape = .leaf .word ∧ it.cut = ofBool u := by
  have hok := @ok_number handleBitsliceID args env (ofBool u).toNat
  rw [BitVec.ofNat_toNat, BitVec.setWidth_eq] at hok
  refine ⟨_, hok, rfl, BitField.get_low (ofBool u) 1 fun i hi => ?_⟩
  rw [getLsbD_ofBool]
  simp [show i ≠ 0 by omega]

mutual
/-- For every element there is one of its shape that is 0, and one that is 1. -/
theorem Bitslice.bool (u : Bool) : ∀ (b : Bitslice) {s : Shape},
    b.Shaped handleBitsliceID args env s → s.width ≤ 32 →
    ∃ it : Item, it.Ok handleBitsliceID args env ∧ it.shape = s ∧ it.cut = ofBool u
  | .id _, s, h, _ => by
    rw [h.1]
    exact bool_word u
  | .number _, s, h, _ => by
    rw [show s = .leaf .word from h]
    exact bool_word u
  | .paren e, s, h, _ => by
    obtain rfl : s = .leaf .paren := h.1
    exact ⟨_, @ok_paren handleBitsliceID args env (.bitslice (.number (ofBool u).toNat)) _
      (Gives.word (ofBool u)), rfl, rfl⟩
  | .bit b n, s, h, _ => by
    obtain ⟨rfl, hn, -⟩ := id h
    exact ⟨_, ok_bit hn (Gives.word (bitAt u n)), rfl, get_bitAt u hn (Nat.le_refl 1)⟩
  | .bracket b e, s, h, _ => by
    obtain ⟨rfl, v, i, -, he, hi⟩ := id h
    exact ⟨_, ok_bracket hi (Gives.word (bitAt u i.toNat)) he, rfl, get_bitAt u hi (Nat.le_refl 1)⟩
  | .dot b f, s, h, _ => by
    obtain ⟨start, w, v, rfl, hf, hin, -⟩ := id h
    exact ⟨_, ok_dot hf hin (Gives.word (bitAt u start.toNat)), rfl,
      get_bitAt u hin.1 hin.2.1⟩
  | .range b hi lo, s, h, _ => by
    obtain ⟨hn, ln, v, rfl, hl, hh, -, hhi, hlo⟩ := id h
    exact ⟨_, ok_range hl hh (Gives.word (bitAt u hn)) hhi hlo, rfl,
      get_bitAt u (show hn < 32 by omega) (Nat.le_add_left 1 _)⟩
  | .list l, s, h, h32 => by
    obtain ⟨ss, rfl, hl⟩ := id h
    obtain ⟨l', items, hitems, hres⟩ := BitsliceList.bool u l hl h32
    exact ⟨_, hitems.ok_list h32, rfl, hres⟩

theorem BitsliceList.bool (u : Bool) : ∀ (l : BitsliceList) {ss : Shapes},
    l.Shaped handleBitsliceID args env ss → ss.width ≤ 32 →
    ∃ l' items, ItemsOf handleBitsliceID args env l' ss items ∧ result items = ofBool u
  | .one b, ss, h, h32 => by
    obtain ⟨s, rfl, hb⟩ := id h
    obtain ⟨it, hok, rfl, hcut⟩ := Bitslice.bool u b hb h32
    exact ⟨_, _, ItemsOf.one hok, hcut⟩
  | .snoc l b, ss, h, h32 => by
    obtain ⟨ss', s, rfl, hl, hb⟩ := id h
    simp only [Shapes.width] at h32
    obtain ⟨l', items, hitems, hres⟩ := BitsliceList.bool false l hl (by omega)
    obtain ⟨it, hok, rfl, hcut⟩ := Bitslice.bool u b hb (by omega)
    refine ⟨_, _, hitems.snoc hok, ?_⟩
    rw [result_snoc hitems.ne_nil, hres, hcut]
    cases u <;> simp [ofBool]
end

mutual
/-- For an element that is not clean, and a bit above its width, there is one of its shape
that has the bit. -/
theorem Bitslice.spike : ∀ (b : Bitslice) {s : Shape} {p : Nat},
    b.Shaped handleBitsliceID args env s → s.clean = false → s.width ≤ p → p < 32 →
    ∃ it : Item, it.Ok handleBitsliceID args env ∧ it.shape = s ∧ it.cut.getLsbD p = true
  | .paren e, s, p, h, _, _, hp => by
    obtain rfl : s = .leaf .paren := h.1
    refine ⟨_, @ok_paren handleBitsliceID args env (.bitslice (.number (bitAt true p).toNat)) _
      (Gives.word (bitAt true p)), rfl, ?_⟩
    show (bitAt true p).getLsbD p = true
    simp [getLsbD_bitAt, hp]
  | .list l, s, p, h, hc, hw, hp => by
    obtain ⟨ss, rfl, hl⟩ := id h
    obtain ⟨l', items, hitems, hres⟩ := BitsliceList.spike l hl hc hw hp
    have h32 : ss.width ≤ 32 := Nat.le_trans hw (Nat.le_of_lt hp)
    exact ⟨_, hitems.ok_list h32, rfl, hres⟩
  | .id _, s, _, h, hc, _, _ => by rw [h.1] at hc; cases hc
  | .number _, s, _, h, hc, _, _ => by rw [show s = _ from h] at hc; cases hc
  | .bit _ _, s, _, h, hc, _, _ => by rw [h.1] at hc; cases hc
  | .bracket _ _, s, _, h, hc, _, _ => by rw [h.1] at hc; cases hc
  | .dot _ _, s, _, h, hc, _, _ => by
    obtain ⟨_, _, _, rfl, -⟩ := id h
    cases hc
  | .range _ _ _, s, _, h, hc, _, _ => by
    obtain ⟨_, _, _, rfl, -⟩ := id h
    cases hc

theorem BitsliceList.spike : ∀ (l : BitsliceList) {ss : Shapes} {p : Nat},
    l.Shaped handleBitsliceID args env ss → ss.clean = false → ss.width ≤ p → p < 32 →
    ∃ l' items, ItemsOf handleBitsliceID args env l' ss items ∧ (result items).getLsbD p = true
  | .one b, ss, p, h, hc, hw, hp => by
    obtain ⟨s, rfl, hb⟩ := id h
    obtain ⟨it, hok, rfl, hcut⟩ := Bitslice.spike b hb hc hw hp
    exact ⟨_, _, ItemsOf.one hok, hcut⟩
  | .snoc l b, ss, p, h, hc, hw, hp => by
    obtain ⟨ss', s, rfl, hl, hb⟩ := id h
    simp only [Shapes.width] at hw
    cases hcb : s.clean with
    | false =>
      obtain ⟨l', items, hitems, hres⟩ := BitsliceList.bool false l hl (by omega)
      obtain ⟨it, hok, rfl, hcut⟩ := Bitslice.spike b hb hcb (by omega) hp
      refine ⟨_, _, hitems.snoc hok, ?_⟩
      rw [result_snoc hitems.ne_nil, hres]
      simpa [ofBool] using hcut
    | true =>
      have hcl : ss'.clean = false := by simpa [Shapes.clean, hcb] using hc
      obtain ⟨it, hok, rfl, hcut⟩ := Bitslice.bool false b hb (by omega)
      have hle := hok.le
      obtain ⟨l', items, hitems, hres⟩ :=
        BitsliceList.spike (p := p - it.shape.left) l hl hcl (by omega) (by omega)
      refine ⟨_, _, hitems.snoc hok, ?_⟩
      rw [result_snoc hitems.ne_nil, hcut]
      simp [ofBool, hp, hres, show ¬ p < it.shape.left by omega]
end

/-! Lists of zeros but for one element. -/

def lefts (items : List Item) : Nat := (items.map fun it => it.shape.left).sum

theorem foldl_zeros : ∀ (items : List Item) (acc : Word), (∀ it ∈ items, it.cut = 0) →
    items.foldl (fun acc it => (acc <<< it.shape.left) + it.cut) acc = acc <<< lefts items
  | [], acc, _ => by simp [lefts]
  | it :: items, acc, h => by
    rw [List.foldl_cons, foldl_zeros items _ fun x hx => h x (List.mem_cons_of_mem _ hx),
      h it List.mem_cons_self]
    simp [lefts, BitVec.shiftLeft_add]

theorem result_among {pre post : List Item} {it : Item} (hpre : ∀ x ∈ pre, x.cut = 0)
    (hpost : ∀ x ∈ post, x.cut = 0) : result (pre ++ it :: post) = it.cut <<< lefts post := by
  cases pre with
  | nil => exact foldl_zeros post it.cut hpost
  | cons it0 pre =>
    rw [List.cons_append, result, List.foldl_append, List.foldl_cons, foldl_zeros pre _
      fun x hx => hpre x (List.mem_cons_of_mem _ hx), hpre it0 List.mem_cons_self,
      foldl_zeros post _ hpost]
    simp

theorem zero_items : ∀ (items : List Item), (∀ it ∈ items, it.Ok handleBitsliceID args env) →
    widths items ≤ 32 → ∃ zeros : List Item, zeros.map Item.shape = items.map Item.shape ∧
      (∀ it ∈ zeros, it.Ok handleBitsliceID args env) ∧ ∀ it ∈ zeros, it.cut = 0
  | [], _, _ => ⟨[], rfl, by simp, by simp⟩
  | it :: items, hok, h32 => by
    simp only [widths, List.map_cons, List.sum_cons] at h32
    obtain ⟨zeros, hshapes, hok', hzero⟩ := zero_items items
      (fun x hx => hok x (List.mem_cons_of_mem _ hx)) (by rw [widths]; omega)
    obtain ⟨it0, hok0, hshape, hcut⟩ :=
      Bitslice.bool false it.b (hok it List.mem_cons_self).shaped (by omega)
    refine ⟨it0 :: zeros, by simp [hshape, hshapes], fun x hx => ?_, fun x hx => ?_⟩
    · obtain rfl | hx := List.mem_cons.mp hx
      · exact hok0
      · exact hok' x hx
    · obtain rfl | hx := List.mem_cons.mp hx
      · exact hcut
      · exact hzero x hx

theorem exists_list : ∀ (bs : List Bitslice), bs ≠ [] → ∃ l : BitsliceList, l.elements = bs := by
  intro bs
  induction bs using List.reverseRecOn with
  | nil => intro h; exact absurd rfl h
  | append_singleton bs b ih =>
    intro _
    by_cases hbs : bs = []
    · subst hbs
      exact ⟨.one b, rfl⟩
    · obtain ⟨l, hl⟩ := ih hbs
      exact ⟨.snoc l b, by rw [BitsliceList.elements, hl]⟩

/-- Other elements of the same shapes are the elements of a list. -/
theorem ItemsOf.exists {l : BitsliceList} {ss : Shapes} {items items' : List Item}
    (h : ItemsOf handleBitsliceID args env l ss items)
    (hshapes : items'.map Item.shape = items.map Item.shape)
    (hok : ∀ it ∈ items', it.Ok handleBitsliceID args env) :
    ∃ l', ItemsOf handleBitsliceID args env l' ss items' := by
  have hne : items'.map Item.b ≠ [] := by
    intro e
    have hnil := List.map_eq_nil_iff.mp e
    rw [hnil] at hshapes
    exact h.ne_nil (List.map_eq_nil_iff.mp hshapes.symm)
  obtain ⟨l', hl'⟩ := exists_list _ hne
  exact ⟨l', hl', h.shapes.trans hshapes.symm, hok⟩

theorem lefts_le : ∀ (items : List Item), (∀ it ∈ items, it.Ok handleBitsliceID args env) →
    lefts items ≤ widths items
  | [], _ => Nat.le_refl 0
  | it :: items, hok => by
    have hrest := lefts_le items fun x hx => hok x (List.mem_cons_of_mem _ hx)
    have hle := (hok it List.mem_cons_self).le
    simp only [lefts, widths, List.map_cons, List.sum_cons] at hrest ⊢
    omega

/-- One element that leaves less than its width misplaces what is before it. -/
theorem lefts_lt {items : List Item} {it : Item} (hok : ∀ it ∈ items, it.Ok handleBitsliceID args env)
    (hit : it ∈ items) (hne : it.shape.left ≠ it.shape.width) : lefts items < widths items := by
  obtain ⟨pre, post, rfl⟩ := List.append_of_mem hit
  have hpre := lefts_le pre fun x hx => hok x (List.mem_append_left _ hx)
  have hpost := lefts_le post fun x hx => hok x (List.mem_append_right _ (List.mem_cons_of_mem _ hx))
  have hle := (hok it hit).le
  simp only [lefts, widths, List.map_append, List.map_cons, List.sum_append, List.sum_cons]
    at hpre hpost ⊢
  omega

/-! Shapes that are not kept. -/

theorem keeps_left {st : Parser} (hs : Sim args st env) {l : BitsliceList} {ss : Shapes}
    {items : List Item} (hitems : ItemsOf handleBitsliceID args env l ss items)
    (h32 : ss.width ≤ 32) (hk : KeepsToFields handleBitsliceID args env ss) {i : Nat} {s : Shape}
    (hi : ss.elements[i + 1]? = some s) : s.left = s.width := by
  by_contra hne
  cases items with
  | nil => exact hitems.ne_nil rfl
  | cons it0 rest =>
    have hsum := hitems.widths_eq
    simp only [widths, List.map_cons, List.sum_cons] at hsum
    -- the first element is 1, the others are 0
    obtain ⟨zeros, hshapes, hok, hzero⟩ := zero_items rest
      (fun x hx => hitems.ok x (List.mem_cons_of_mem _ hx)) (by rw [widths]; omega)
    obtain ⟨it1, hok1, hshape1, hcut1⟩ :=
      Bitslice.bool true it0.b (hitems.ok it0 List.mem_cons_self).shaped (by omega)
    have hoks : ∀ x ∈ it1 :: zeros, x.Ok handleBitsliceID args env := by
      intro x hx
      obtain rfl | hx := List.mem_cons.mp hx
      · exact hok1
      · exact hok x hx
    obtain ⟨l', hitems'⟩ := hitems.exists (by simp [hshape1, hshapes]) hoks
    have hres : result (it1 :: zeros) = (1 : Word) <<< lefts zeros := by
      have h := @result_among [] zeros it1 (by simp) hzero
      rw [hcut1] at h
      exact h
    obtain ⟨r, hr, hfields⟩ := hk l' hitems'.shaped
    have hrr := (hr hs).unique ((hitems'.leaves h32).gives hs)
    obtain ⟨⟨v, hv, hbits⟩, -⟩ := hfields 0 it1.b it1.shape
      (by rw [hitems'.elements]; rfl) (by rw [hitems'.shapes]; rfl)
    have hvv := (hv hs).unique (hok1.leaves.gives hs)
    have hbit := hbits 0 hok1.pos_width
    have hlt : lefts zeros < widths zeros := by
      rw [hitems'.shapes, List.map_cons, List.getElem?_cons_succ, List.getElem?_map,
        Option.map_eq_some_iff] at hi
      obtain ⟨it, hit, rfl⟩ := hi
      exact lefts_lt hok (List.mem_of_getElem? hit) hne
    have hsum' := hitems'.widths_eq
    have hpos1 := hok1.pos_width
    simp only [widths, List.map_cons, List.sum_cons] at hsum'
    rw [hrr, hres, hvv, ← getLsbD_cut hok1.pos_width, hcut1, hitems'.offset_eq, Nat.add_zero,
      List.drop_one, List.tail_cons, BitVec.getLsbD_shiftLeft] at hbit
    rw [widths] at hlt hbit
    simp [ofBool] at hbit
    omega

theorem lefts_eq_widths {items : List Item} (h : ∀ x ∈ items, x.shape.left = x.shape.width) :
    lefts items = widths items := by
  rw [lefts, widths, List.map_congr_left h]

theorem keeps_clean {st : Parser} (hs : Sim args st env) {l : BitsliceList} {ss : Shapes}
    {items : List Item} (hitems : ItemsOf handleBitsliceID args env l ss items)
    (h32 : ss.width ≤ 32) (hk : KeepsToFields handleBitsliceID args env ss) {i : Nat} {s : Shape}
    (hi : ss.elements[i]? = some s) : s.clean = true ∨ (i = 0 ∧ ss.width = 32) := by
  by_contra hbad
  simp only [not_or, Bool.not_eq_true] at hbad
  obtain ⟨hclean, hfull⟩ := hbad
  -- a list of zeros, and the one with a high bit in its `i`-th element
  obtain ⟨zeros, hshapes, hok, hzero⟩ := zero_items items hitems.ok (by rw [hitems.widths_eq]; exact h32)
  obtain ⟨l₀, hitems₀⟩ := hitems.exists hshapes hok
  obtain ⟨it, hit, rfl⟩ : ∃ it, zeros[i]? = some it ∧ it.shape = s := by
    rw [hitems₀.shapes, List.getElem?_map, Option.map_eq_some_iff] at hi
    exact hi
  have hsum := hitems₀.widths_eq
  have hoff := hitems₀.offset_eq i
  obtain ⟨pre, post, rfl, hlen, hpost⟩ := split_at hit
  rw [← hpost] at hoff
  have hok_it := hok it (List.mem_append_right _ List.mem_cons_self)
  have hpre0 : ∀ x ∈ pre, x.cut = 0 := fun x hx => hzero x (List.mem_append_left _ hx)
  have hpost0 : ∀ x ∈ post, x.cut = 0 :=
    fun x hx => hzero x (List.mem_append_right _ (List.mem_cons_of_mem _ hx))
  have hleft : lefts post = widths post := by
    refine lefts_eq_widths fun x hx => ?_
    obtain ⟨j, hj⟩ := List.getElem?_of_mem hx
    refine keeps_left (i := i + j) hs hitems₀ h32 hk ?_
    rw [hitems₀.shapes, List.getElem?_map, List.getElem?_append_right (by omega),
      show i + j + 1 - pre.length = j + 1 by omega, List.getElem?_cons_succ, hj]
    rfl
  -- its field ends below the top bit
  have htop : widths post + it.shape.width ≤ 31 := by
    rw [widths_append] at hsum
    have hcons : widths (it :: post) = it.shape.width + widths post := by simp [widths]
    rw [hcons] at hsum
    cases pre with
    | nil =>
      have h0 : widths [] = 0 := rfl
      have hne : ss.width ≠ 32 := fun e => hfull ⟨by rw [← hlen]; rfl, e⟩
      omega
    | cons x pre =>
      have hpos : 1 ≤ widths (x :: pre) :=
        widths_pos (by simp) fun y hy => hok y (List.mem_append_left _ hy)
      omega
  obtain ⟨it', hok', hshape', hbit'⟩ := Bitslice.spike it.b (p := 31 - widths post) hok_it.shaped hclean
    (by omega) (by omega)
  obtain ⟨l', hl'⟩ := exists_list (l₀.elements.set i it'.b) (by simp [l₀.elements_ne])
  have hitems' := hitems₀.replaced hok' hshape' (by rw [hl', hlen])
  obtain ⟨r, hr, hfields⟩ := hk l₀ hitems₀.shaped
  have hrr := (hr hs).unique ((hitems₀.leaves h32).gives hs)
  obtain ⟨-, hothers⟩ := hfields i it.b it.shape
    (by rw [hitems₀.elements, List.getElem?_map, hit]; rfl) hi
  obtain ⟨r', hr', hout⟩ := hothers it'.b l' (by rw [← hshape']; exact hok'.shaped) hl'
  have hrr' := (hr' hs).unique ((hitems'.leaves h32).gives hs)
  have h31 := hout 31 (by rw [hoff]; omega)
  rw [hrr, hrr', result_among hpre0 hpost0, result_among hpre0 hpost0,
    hzero it (List.mem_append_right _ List.mem_cons_self), hleft, BitVec.getLsbD_shiftLeft] at h31
  simp [hbit'] at h31
  omega

/-- **List elements keep to their fields.** For every shape of list of at most 32 bits that
occurs, lists of the shape keep each element to its field exactly when the shape is kept. -/
theorem keepsToFields_iff (hID : ReadsID handleBitsliceID) {st : Parser} (hs : Sim args st env)
    {l : BitsliceList} {ss : Shapes} (hl : l.Shaped handleBitsliceID args env ss)
    (h32 : ss.width ≤ 32) : KeepsToFields handleBitsliceID args env ss ↔ ss.Kept := by
  refine ⟨?_, ?_⟩
  · intro hk i s hi
    obtain ⟨items, hitems⟩ := BitsliceList.items hID l hl h32
    refine ⟨?_, keeps_clean hs hitems h32 hk hi⟩
    cases i with
    | zero => exact .inl rfl
    | succ i => exact .inr (keeps_left hs hitems h32 hk hi)
  · exact kept_keeps hID h32

theorem keepsToFields_iff_bits :
    KeepsToFields readID [] Env.init (.snoc (.one (.leaf .word)) (.leaf .word)) ↔
      Shapes.Kept (.snoc (.one (.leaf .word)) (.leaf .word)) :=
  @keepsToFields_iff readID [] Env.init readID_reads Parser.init Between.init.sim
    (.snoc (.one (.number 1)) (.number 0)) _ ⟨_, _, rfl, ⟨_, rfl, rfl⟩, rfl⟩ (by decide)

/-- `in x, e`, `final {x, (e)}`. -/
def parenList : Program where
  params := ["x", "e"]
  statements := []
  final := .bitslice (.list (.snoc (.one (.id "x")) (.paren (.bitslice (.id "e")))))

/-- On 0 and 2 the function built for `{x, (e)}` returns 2: the field of `x` is bit 1. -/
theorem parenList_spills :
    ((parenList.act readID).run Parser.init).bind (fun r => runFunction [0, 2] r.2.block r.1) =
      some 2 ∧
    ¬ KeepsToFields readID [0, 2] (twoValues 0 2) (.snoc (.one (.leaf .word)) (.leaf .paren)) := by
  refine ⟨by decide +kernel, fun h => ?_⟩
  have hs := (twoInputs_between 0 2).sim
  have hparen : Gives [0, 2] (twoValues 0 2) (Expr.act readID (.bitslice (.number 0))) _ :=
    Gives.number 0
  have hitems := (ItemsOf.one (@ok_number readID [0, 2] (twoValues 0 2) 0)).snoc (ok_paren hparen)
  obtain hclean | hfirst := @keeps_clean readID _ _ _ hs _ _ _ hitems (by decide) h 1 _ rfl
  · cases hclean
  · cases hfirst.1

/-! Packing named slices. -/

/-- `b.f`, where `b` has the value `x` and `f` the width `w`. -/
structure Entry where
  b : Bitslice
  x : Word
  f : String
  w : Nat

def width (es : List Entry) : Nat := (es.map Entry.w).sum

/-- The slices of the entries lie side by side, the last one at bit 0. -/
def Adjacent (env : Env) : List Entry → Prop
  | [] => True
  | e :: es => 1 ≤ e.w ∧ env.slices e.f = some (BitVec.ofNat 32 (width es), BitVec.ofNat 32 e.w) ∧
      Adjacent env es

/-- The entries, as elements of a list. -/
def entryItems : List Entry → List Item
  | [] => []
  | e :: es => ⟨.dot e.b e.f, .leaf (.named e.w), BitField.get e.x (width es) e.w⟩ :: entryItems es

theorem width_cons (e : Entry) (es : List Entry) : width (e :: es) = e.w + width es := by
  simp [width]

theorem entryItems_b : ∀ (es : List Entry),
    (entryItems es).map Item.b = es.map fun e => Bitslice.dot e.b e.f
  | [] => rfl
  | e :: es => by simp [entryItems, entryItems_b es]

theorem entryItems_widths : ∀ (es : List Entry), widths (entryItems es) = width es
  | [] => rfl
  | e :: es => by
    rw [width_cons, ← entryItems_widths es]
    simp [entryItems, widths, Shape.width, Form.width]

theorem entryItems_total (es : List Entry) :
    BitField.total ((entryItems es).map Item.field) = width es := by
  rw [total_field, entryItems_widths]

theorem entryItems_kept : ∀ (es : List Entry), ∀ it ∈ entryItems es,
    it.shape.left = it.shape.width ∧ it.shape.clean = true
  | [], it, h => by cases h
  | e :: es, it, h => by
    obtain rfl | h := List.mem_cons.mp h
    · exact ⟨rfl, rfl⟩
    · exact entryItems_kept es it h

/-- The start and width of an entry's slice, as words. -/
theorem entry_inside {e : Entry} {es : List Entry} (hw : 1 ≤ e.w) (h32 : width (e :: es) ≤ 32) :
    (BitVec.ofNat 32 (width es)).toNat = width es ∧
      inside (BitVec.ofNat 32 (width es)).toNat e.w 32 := by
  rw [width_cons] at h32
  have h : (BitVec.ofNat 32 (width es)).toNat = width es := by rw [BitVec.toNat_ofNat]; omega
  rw [h]
  exact ⟨rfl, hw, by omega⟩

theorem entryItems_ok : ∀ {es : List Entry}, Adjacent env es → width es ≤ 32 →
    (∀ e ∈ es, Gives args env (e.b.act handleBitsliceID) e.x) →
    ∀ it ∈ entryItems es, it.Ok handleBitsliceID args env
  | [], _, _, _, it, h => by cases h
  | e :: es, hadj, h32, hb, it, h => by
    obtain ⟨hw, hf, hadj⟩ := hadj
    obtain ⟨hstart, hin⟩ := entry_inside hw h32
    obtain rfl | h := List.mem_cons.mp h
    · have hok := ok_dot hf hin.maskable (hb e List.mem_cons_self)
      rw [hstart] at hok
      exact hok
    · rw [width_cons] at h32
      exact entryItems_ok hadj (by omega) (fun e h => hb e (List.mem_cons_of_mem _ h)) it h

theorem entryItems_append (e : Entry) (post : List Entry) : ∀ (pre : List Entry),
    ∃ items, entryItems (pre ++ e :: post) = items ++ entryItems (e :: post)
  | [] => ⟨[], rfl⟩
  | e' :: pre => by
    obtain ⟨items, h⟩ := entryItems_append e post pre
    exact ⟨_ :: items, by rw [List.cons_append, entryItems, h]; rfl⟩

theorem adjacent_append : ∀ {pre : List Entry} {e : Entry} {post : List Entry},
    Adjacent env (pre ++ e :: post) → Adjacent env (e :: post)
  | [], _, _, h => h
  | _ :: _, _, _, h => adjacent_append h.2.2

/-- Entries of one word are its adjacent fields. -/
theorem entryItems_fieldsOf (x : Word) : ∀ {es : List Entry}, (∀ e ∈ es, e.x = x) →
    (entryItems es).map Item.field = BitField.fieldsOf x (es.map Entry.w)
  | [], _ => rfl
  | e :: es, h => by
    rw [entryItems, List.map_cons, List.map_cons, BitField.fieldsOf,
      entryItems_fieldsOf x fun e h' => h e (List.mem_cons_of_mem _ h'), ← h e List.mem_cons_self]
    rfl

theorem exists_shapes : ∀ (shapes : List Shape), shapes ≠ [] → ∃ ss : Shapes, ss.elements = shapes := by
  intro shapes
  induction shapes using List.reverseRecOn with
  | nil => intro h; exact absurd rfl h
  | append_singleton shapes s ih =>
    intro _
    by_cases h : shapes = []
    · subst h
      exact ⟨.one s, rfl⟩
    · obtain ⟨ss, hss⟩ := ih h
      exact ⟨.snoc ss s, by rw [Shapes.elements, hss]⟩

/-- The slice of the packed word is the field that was packed. -/
theorem get_result {es pre post : List Entry} {e : Entry} (hes : es = pre ++ e :: post)
    (hpack : result (entryItems es) = BitField.pack ((entryItems es).map Item.field))
    (h32 : width (e :: post) ≤ 32) :
    BitField.get (result (entryItems es)) (width post) e.w = BitField.get e.x (width post) e.w := by
  obtain ⟨items, hsplit⟩ := entryItems_append e post pre
  apply BitVec.eq_of_getLsbD_eq
  intro j hj
  rw [BitField.getLsbD_get]
  by_cases hjw : j < e.w
  · have hle : e.w + BitField.total ((entryItems post).map Item.field) ≤ 32 := by
      rw [entryItems_total, ← width_cons]; exact h32
    have hbit := BitField.getLsbD_pack_field (items.map Item.field)
      ((entryItems post).map Item.field) e.w (BitField.get e.x (width post) e.w) j hjw hle
    rw [entryItems_total] at hbit
    rw [hpack, hes, hsplit]
    simp only [hj, hjw, and_self, decide_true, Bool.true_and]
    rw [← hbit, List.map_append]
    rfl
  · rw [BitField.getLsbD_get_of_le _ _ _ _ (by omega)]
    simp [hjw]

theorem width_append_le {pre post : List Entry} {e : Entry} (h32 : width (pre ++ e :: post) ≤ 32) :
    width (e :: post) ≤ 32 := by
  obtain ⟨items, hsplit⟩ := entryItems_append e post pre
  rw [← entryItems_widths, hsplit, widths_append, entryItems_widths] at h32
  omega

/-- **Packing and slicing again.** A list of adjacent named slices of at most 32 bits packs
them: it is below `2^W`, it is the word itself modulo `2^W` when they are all of one word,
and each slice of it is the slice that was packed. -/
theorem pack_slices {l : BitsliceList} {es : List Entry}
    (hl : l.elements = es.map fun e => Bitslice.dot e.b e.f) (hadj : Adjacent env es)
    (h32 : width es ≤ 32) (hb : ∀ e ∈ es, Gives args env (e.b.act handleBitsliceID) e.x) :
    ∃ y, Gives args env (l.act handleBitsliceID) y ∧ y.toNat < 2 ^ width es ∧
      (∀ x, (∀ e ∈ es, e.x = x) → y.toNat = x.toNat % 2 ^ width es) ∧
      ∀ e ∈ es, ∃ v, Gives args env ((Bitslice.dot e.b e.f).act handleBitsliceID) v ∧
        ∀ env' b, env'.slices = env.slices → Gives args env' (Bitslice.act handleBitsliceID b) y →
          Gives args env' ((Bitslice.dot b e.f).act handleBitsliceID) v := by
  have hok := @entryItems_ok handleBitsliceID args env es hadj h32 hb
  have hkept : KeptItems (entryItems es) := fun i it hi =>
    have h := entryItems_kept es it (List.mem_of_getElem? hi)
    ⟨.inr h.1, .inl h.2⟩
  have hitems : l.elements = (entryItems es).map Item.b := by rw [hl, entryItems_b]
  have hne : (entryItems es).map Item.shape ≠ [] := by
    intro e
    have hnil := List.map_eq_nil_iff.mp e
    exact l.elements_ne (by rw [hitems, hnil]; rfl)
  obtain ⟨ss, hss⟩ := exists_shapes _ hne
  have hof : ItemsOf handleBitsliceID args env l ss (entryItems es) := ⟨hitems, hss, hok⟩
  have hpack := result_eq_pack hok hkept
  have hw : ss.width ≤ 32 := by rw [← hof.widths_eq, entryItems_widths]; exact h32
  refine ⟨result (entryItems es), (hof.leaves hw).gives, ?_, fun x hx => ?_, fun e he => ?_⟩
  · rw [← entryItems_widths es]
    exact result_lt hok fun it hit => (entryItems_kept es it hit).2
  · rw [hpack, entryItems_fieldsOf x hx, BitField.pack_fieldsOf _ _ h32, BitField.toNat_get,
      Nat.pow_zero, Nat.div_one]
    rfl
  · obtain ⟨pre, post, rfl⟩ := List.append_of_mem he
    obtain ⟨he1, hf, -⟩ := adjacent_append hadj
    have h32' := width_append_le h32
    obtain ⟨hstart, hin⟩ := entry_inside he1 h32'
    have hread := (leaves_dot hf hin.maskable (hb e he)).gives
    rw [hstart] at hread
    refine ⟨_, hread, fun env' b hslices hy => ?_⟩
    have hread' := (leaves_dot (by rw [hslices]; exact hf) hin.maskable hy).gives
    rw [hstart, get_result rfl hpack h32'] at hread'
    exact hread'

/-- `slice hi:4, lo:4`. -/
def nibbles : Env := (Env.init.setSlice "hi" 4 4).setSlice "lo" 0 4

theorem pack_slices_nibbles : ∃ y, Gives [] nibbles (BitsliceList.act readID
      (.snoc (.one (.dot (.number 0xab) "hi")) (.dot (.number 0xcd) "lo"))) y ∧ y.toNat < 2 ^ 8 := by
  obtain ⟨y, hy, hlt, -⟩ := @pack_slices readID [] nibbles
    (.snoc (.one (.dot (.number 0xab) "hi")) (.dot (.number 0xcd) "lo"))
    [⟨.number 0xab, 0xab, "hi", 4⟩, ⟨.number 0xcd, 0xcd, "lo", 4⟩] rfl
    ⟨by decide, rfl, by decide, rfl, trivial⟩ (by decide)
    (by
      simp only [List.forall_mem_cons]
      exact ⟨Gives.word 0xab, Gives.word 0xcd, by simp⟩)
  exact ⟨y, hy, hlt⟩

end Ece566.P1
