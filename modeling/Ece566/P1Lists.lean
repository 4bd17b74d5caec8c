import Ece566.P1Ranges

/- What the code of a list computes. Each element leaves its width in `bitsliceRange`,
   and in `bitsliceIsID` whether it still has to be cut to one bit; the list shifts what
   it has so far by the first and adds the element. Only identifiers and numbers are cut,
   and some forms leave a width that is not their own: a range leaves 1, and so does a
   nested list of two or more elements. `Shape` says of an element which of this it
   does, and `Leaves` what its code leaves behind. -/
namespace Ece566.P1

/-! Shapes. -/

/-- What an element is, as far as a list goes. -/
inductive Form where
  /-- an identifier or a number -/
  | word
  /-- one bit, `b3` or `b[i]` -/
  | bit
  /-- a parenthesised expression -/
  | paren
  /-- a named slice of width `w` -/
  | named (w : Nat)
  /-- a range `b[h:l]` -/
  | range (h l : Nat)
  deriving DecidableEq, Repr

mutual
inductive Shape where
  | leaf (k : Form)
  | list (ss : Shapes)

inductive Shapes where
  | one (s : Shape)
  | snoc (ss : Shapes) (s : Shape)
end

/-- The width an element should have. -/
def Form.width : Form → Nat
  | .word | .bit | .paren => 1
  | .named w => w
  | .range h l => h - l + 1

mutual
def Shape.width : Shape → Nat
  | .leaf k => k.width
  | .list ss => ss.width

def Shapes.width : Shapes → Nat
  | .one s => s.width
  | .snoc ss s => ss.width + s.width
end

/-- The width its action leaves in `bitsliceRange`. -/
def Form.left : Form → Nat
  | .word | .bit | .paren | .range _ _ => 1
  | .named w => w

mutual
def Shape.left : Shape → Nat
  | .leaf k => k.left
  | .list ss => ss.left

/-- A list of one element leaves what the element left. -/
def Shapes.left : Shapes → Nat
  | .one s => s.left
  | .snoc _ _ => 1
end

mutual
/-- No parenthesised expression stands in it as an element. -/
def Shape.clean : Shape → Bool
  | .leaf .paren => false
  | .leaf _ => true
  | .list ss => ss.clean

def Shapes.clean : Shapes → Bool
  | .one s => s.clean
  | .snoc ss s => ss.clean && s.clean
end

/-- Identifiers and numbers set `bitsliceIsID`. -/
def Shape.isWord : Shape → Bool
  | .leaf .word => true
  | _ => false

/-- The value of an element as the list takes it. -/
def Shape.cut (s : Shape) (v : Word) : Word := if s.isWord then BitField.get v 0 1 else v

def Shapes.elements : Shapes → List Shape
  | .one s => [s]
  | .snoc ss s => ss.elements ++ [s]

def BitsliceList.elements : BitsliceList → List Bitslice
  | .one b => [b]
  | .snoc l b => l.elements ++ [b]

section
variable (handleBitsliceID : String → Parse Value) (args : List Word) (env : Env)

mutual
/-- The element `b` has the shape `s`, and what it selects from has a value. -/
def Bitslice.Shaped : Bitslice → Shape → Prop
  | .id x, s => s = .leaf .word ∧ ∃ v, env.vars x = some v
  | .number _, s => s = .leaf .word
  | .list l, s => ∃ ss, s = .list ss ∧ l.Shaped ss
  | .paren e, s => s = .leaf .paren ∧ ∃ v, Gives args env (e.act handleBitsliceID) v
  | .bit b n, s => s = .leaf .bit ∧ n < 32 ∧ ∃ v, Gives args env (b.act handleBitsliceID) v
  | .dot b f, s => ∃ start w v, s = .leaf (.named w) ∧
      env.slices f = some (start, BitVec.ofNat 32 w) ∧ maskable start.toNat w ∧
      Gives args env (b.act handleBitsliceID) v
  | .bracket b e, s => s = .leaf .bit ∧ ∃ v i, Gives args env (b.act handleBitsliceID) v ∧
      Gives args env (e.act handleBitsliceID) i ∧ i.toNat < 32
  | .range b hi lo, s => ∃ h l v, s = .leaf (.range h l) ∧ l ≤ h ∧ h ≤ 31 ∧
      Gives args env (b.act handleBitsliceID) v ∧
      Gives args env (hi.act handleBitsliceID) (BitVec.ofNat 32 h) ∧
      Gives args env (lo.act handleBitsliceID) (BitVec.ofNat 32 l)

def BitsliceList.Shaped : BitsliceList → Shapes → Prop
  | .one b, ss => ∃ s, ss = .one s ∧ b.Shaped s
  | .snoc l b, ss => ∃ ss' s, ss = .snoc ss' s ∧ l.Shaped ss' ∧ b.Shaped s
end

/-- The code of `b` computes `v` and leaves what an element of the shape `s` leaves. -/
def Leaves (b : Bitslice) (s : Shape) (v : Word) : Prop :=
  ∀ ⦃st⦄, Sim args st env → Wp (b.act handleBitsliceID) (fun val st' => Grows args st st' ∧
    Means args st'.block val v ∧ st'.bitsliceIsID = s.isWord ∧
    Means args st'.block st'.bitsliceRange (BitVec.ofNat 32 s.left)) st

/-- The same of a list that leaves the width `n`. -/
def ListLeaves (l : BitsliceList) (n : Nat) (v : Word) : Prop :=
  ∀ ⦃st⦄, Sim args st env → Wp (l.act handleBitsliceID) (fun val st' => Grows args st st' ∧
    Means args st'.block val v ∧ st'.bitsliceIsID = false ∧
    Means args st'.block st'.bitsliceRange (BitVec.ofNat 32 n)) st

end

variable {handleBitsliceID : String → Parse Value} {args : List Word} {env : Env} {st : Parser}

theorem Leaves.gives {b : Bitslice} {s : Shape} {v : Word}
    (h : Leaves handleBitsliceID args env b s v) : Gives args env (b.act handleBitsliceID) v :=
  fun _ hs => (h hs).mono fun _ _ h => ⟨h.1, h.2.1⟩

theorem ListLeaves.gives {l : BitsliceList} {n : Nat} {v : Word}
    (h : ListLeaves handleBitsliceID args env l n v) : Gives args env (l.act handleBitsliceID) v :=
  fun _ hs => (h hs).mono fun _ _ h => ⟨h.1, h.2.1⟩

/-! What the list actions do with an element. -/

theorem cutElement_shape {a : Value} {v : Word} {s : Shape} (ha : Means args st.block a v)
    (hid : st.bitsliceIsID = s.isWord) : Wp (cutElement a)
      (fun val st' => Emits args st st' ∧ Means args st'.block val (s.cut v)) st := by
  refine Wp.get_bind ?_
  rw [hid, Shape.cut]
  cases s.isWord with
  | true => exact getLowestBit_spec ha
  | false => exact Wp.pure' ⟨Emits.refl, ha⟩

theorem ListLeaves.one {b : Bitslice} {s : Shape} {v : Word}
    (h : Leaves handleBitsliceID args env b s v) :
    ListLeaves handleBitsliceID args env (.one b) s.left (s.cut v) := by
  intro st hs
  refine Wp.bind' (h hs) ?_
  intro a s1 h1
  obtain ⟨g1, m1, hid, mr⟩ := h1
  refine Wp.bind' (cutElement_shape m1 hid) ?_
  intro a' s2 h2
  obtain ⟨e2, m2⟩ := h2
  refine Wp.bind' (setBitsliceIsID_spec args _) ?_
  intro _ s3 h3
  obtain ⟨g3, hid3, hr3⟩ := h3
  refine Wp.pure' ⟨(g1.trans e2.toGrows).trans g3, g3.means _ _ m2, hid3, ?_⟩
  rw [hr3, e2.range]
  exact g3.means _ _ (e2.means _ _ mr)

theorem ListLeaves.snoc {l : BitsliceList} {b : Bitslice} {s : Shape} {n : Nat} {acc v : Word}
    (hl : ListLeaves handleBitsliceID args env l n acc)
    (hb : Leaves handleBitsliceID args env b s v) (h32 : s.left < 32) :
    ListLeaves handleBitsliceID args env (.snoc l b) 1 ((acc <<< s.left) + s.cut v) := by
  intro st hs
  refine Wp.bind' (hl hs) ?_
  intro a s1 h1
  obtain ⟨g1, m1, -, -⟩ := h1
  refine Wp.bind' (hb (hs.grow g1)) ?_
  intro a' s2 h2
  obtain ⟨g2, m2, hid, mr⟩ := h2
  refine Wp.bind' (cutElement_shape m2 hid) ?_
  intro bslice s3 h3
  obtain ⟨e3, m3⟩ := h3
  refine Wp.bind' (setBitsliceIsID_spec args _) ?_
  intro _ s4 h4
  obtain ⟨g4, -, hr4⟩ := h4
  have g34 := e3.toGrows.trans g4
  refine Wp.get_bind ?_
  -- the range is still the one the element left: cutting it only emitted code
  have mr4 : Means args s4.block s4.bitsliceRange (BitVec.ofNat 32 s.left) := by
    rw [hr4, e3.range]
    exact g34.means _ _ mr
  refine Wp.bind' (doLeftshiftbynAdd_sum (g34.means _ _ (g2.means _ _ m1)) mr4 h32
    (g4.means _ _ m3)) ?_
  intro r s5 h5
  obtain ⟨e5, m5⟩ := h5
  refine Wp.bind' (setBitslice_spec args _ _) ?_
  intro _ s6 h6
  obtain ⟨g6, hid6, hr6⟩ := h6
  refine Wp.pure' ⟨(((g1.trans g2).trans g34).trans e5.toGrows).trans g6, g6.means _ _ m5, hid6, ?_⟩
  rw [hr6]
  exact Means.getInt32 (g6.means _ _ m5).runs 1

theorem Leaves.list {l : BitsliceList} {ss : Shapes} {v : Word}
    (h : ListLeaves handleBitsliceID args env l ss.left v) :
    Leaves handleBitsliceID args env (.list l) (.list ss) v := fun _ hs => h hs

/-! The forms. -/

theorem leaves_word {b : Bitslice} {v : Word} (h : ∀ ⦃st⦄, Sim args st env → ∃ val,
    (b.act handleBitsliceID).run st =
      some (val, { st with bitsliceIsID := true, bitsliceRange := getInt32 1 }) ∧
    Means args st.block val v) : Leaves handleBitsliceID args env b (.leaf .word) v := by
  intro st hs
  obtain ⟨val, hrun, m⟩ := h hs
  exact ⟨val, _, hrun, ⟨rfl, rfl, rfl, fun _ _ h => h⟩, m, rfl, Means.getInt32 m.runs 1⟩

theorem leaves_number (n : Nat) :
    Leaves handleBitsliceID args env (.number n) (.leaf .word) (BitVec.ofNat 32 n) :=
  leaves_word fun _ hs => ⟨_, rfl, Means.const hs.runs _⟩

theorem leaves_id (hID : ReadsID handleBitsliceID) {x : String} {v : Word}
    (hx : env.vars x = some v) : Leaves handleBitsliceID args env (.id x) (.leaf .word) v := by
  refine leaves_word fun st hs => ?_
  obtain ⟨vs, hvs, m⟩ := hs.vars hx
  exact ⟨_, hID.reads _ x vs hvs, m⟩

theorem leaves_paren {e : Expr} {v : Word} (he : Gives args env (e.act handleBitsliceID) v) :
    Leaves handleBitsliceID args env (.paren e) (.leaf .paren) v := by
  intro st hs
  refine Wp.bind' (he hs) ?_
  intro a s1 h1
  obtain ⟨g1, m1⟩ := h1
  refine Wp.bind' (setBitslice_spec args _ _) ?_
  intro _ s2 h2
  obtain ⟨g2, hid, hr⟩ := h2
  refine Wp.pure' ⟨g1.trans g2, g2.means _ _ m1, hid, ?_⟩
  rw [hr]
  exact Means.getInt32 (g2.means _ _ m1).runs 1

/-- A one-bit selection, once its operands are evaluated. -/
theorem getBit_leaves {a p : Value} {v i : Word} (ha : Means args st.block a v)
    (hp : Means args st.block p i) (hi : i.toNat < 32) :
    Wp (do setBitslice false (getInt32 1); getBit a p) (fun val st' => Grows args st st' ∧
      Means args st'.block val (BitField.get v i.toNat 1) ∧
      st'.bitsliceIsID = (Shape.leaf .bit).isWord ∧
      Means args st'.block st'.bitsliceRange (BitVec.ofNat 32 (Shape.leaf .bit).left)) st := by
  refine Wp.bind' (setBitslice_spec args _ _) ?_
  intro _ s1 h1
  obtain ⟨g1, hid, hr⟩ := h1
  refine (getBit_spec (g1.means _ _ ha) (g1.means _ _ hp) hi).mono ?_
  intro r s2 h2
  obtain ⟨e2, m2⟩ := h2
  refine ⟨g1.trans e2.toGrows, m2, e2.isID.trans hid, ?_⟩
  rw [e2.range, hr]
  exact Means.getInt32 m2.runs 1

theorem leaves_bit {b : Bitslice} {v : Word} {n : Nat} (hn : n < 32)
    (hb : Gives args env (b.act handleBitsliceID) v) :
    Leaves handleBitsliceID args env (.bit b n) (.leaf .bit) (BitField.get v n 1) := by
  intro st hs
  have hn' : (BitVec.ofNat 32 n).toNat = n := by rw [BitVec.toNat_ofNat]; omega
  refine Wp.bind' (hb hs) ?_
  intro a s1 h1
  obtain ⟨g1, m1⟩ := h1
  refine (getBit_leaves m1 (Means.getInt32 m1.runs n) (by omega)).mono ?_
  intro r s2 h2
  rw [hn'] at h2
  exact ⟨g1.trans h2.1, h2.2⟩

theorem leaves_bracket {b : Bitslice} {e : Expr} {v i : Word} (hi : i.toNat < 32)
    (hb : Gives args env (b.act handleBitsliceID) v) (he : Gives args env (e.act handleBitsliceID) i) :
    Leaves handleBitsliceID args env (.bracket b e) (.leaf .bit) (BitField.get v i.toNat 1) := by
  intro st hs
  refine Wp.bind' (hb hs) ?_
  intro a s1 h1
  obtain ⟨g1, m1⟩ := h1
  refine Wp.bind' (he (hs.grow g1)) ?_
  intro p s2 h2
  obtain ⟨g2, m2⟩ := h2
  refine (getBit_leaves (g2.means _ _ m1) m2 hi).mono ?_
  intro r s3 h3
  exact ⟨(g1.trans g2).trans h3.1, h3.2⟩

theorem leaves_dot {b : Bitslice} {f : String} {v start : Word} {w : Nat}
    (hf : env.slices f = some (start, BitVec.ofNat 32 w)) (hin : maskable start.toNat w)
    (hb : Gives args env (b.act handleBitsliceID) v) :
    Leaves handleBitsliceID args env (.dot b f) (.leaf (.named w))
      (BitField.get v start.toNat w) := by
  intro st hs
  have hw : (BitVec.ofNat 32 w).toNat = w := by
    have := hin.2
    rw [BitVec.toNat_ofNat]; omega
  obtain ⟨sl, hsl, ms, mw⟩ := hs.slices hf
  refine (dot_spec (hb hs) hsl ms mw (by rw [hw]; exact hin)).mono ?_
  intro r s1 h1
  rw [hw] at h1
  exact h1

theorem leaves_range {b : Bitslice} {hi lo : Expr} {v : Word} {h l : Nat} (hl : l ≤ h) (hh : h ≤ 31)
    (hb : Gives args env (b.act handleBitsliceID) v)
    (hhi : Gives args env (hi.act handleBitsliceID) (BitVec.ofNat 32 h))
    (hlo : Gives args env (lo.act handleBitsliceID) (BitVec.ofNat 32 l)) :
    Leaves handleBitsliceID args env (.range b hi lo) (.leaf (.range h l))
      (BitField.get v h (h - l + 1)) := by
  intro st hs
  refine (range_spec hl hh hs hb hhi hlo).mono ?_
  intro r s1 h1
  obtain ⟨g1, m1, hid, hr⟩ := h1
  refine ⟨g1, m1, hid, ?_⟩
  rw [hr]
  exact Means.getInt32 m1.runs 1

/-! Elements with their values, and the word a list of them makes. -/

structure Item where
  b : Bitslice
  shape : Shape
  v : Word

def Item.cut (it : Item) : Word := it.shape.cut it.v

/-- The value as it leaves the list: shift by what the element left, and add. -/
def result : List Item → Word
  | [] => 0
  | it :: rest => rest.foldl (fun acc it => (acc <<< it.shape.left) + it.cut) it.cut

structure Item.Ok (handleBitsliceID : String → Parse Value) (args : List Word) (env : Env)
    (it : Item) : Prop where
  shaped : it.b.Shaped handleBitsliceID args env it.shape
  leaves : Leaves handleBitsliceID args env it.b it.shape it.v
  pos : 1 ≤ it.shape.left
  le : it.shape.left ≤ it.shape.width
  fits : it.shape.clean = true → it.cut.toNat < 2 ^ it.shape.width

/-- The elements of `l`, which has the shapes `ss`. -/
structure ItemsOf (handleBitsliceID : String → Parse Value) (args : List Word) (env : Env)
    (l : BitsliceList) (ss : Shapes) (items : List Item) : Prop where
  elements : l.elements = items.map Item.b
  shapes : ss.elements = items.map Item.shape
  ok : ∀ it ∈ items, it.Ok handleBitsliceID args env

def widths (items : List Item) : Nat := (items.map fun it => it.shape.width).sum

theorem widths_append (xs ys : List Item) : widths (xs ++ ys) = widths xs + widths ys := by
  simp [widths]

theorem result_snoc {items : List Item} (h : items ≠ []) (it : Item) :
    result (items ++ [it]) = (result items <<< it.shape.left) + it.cut := by
  cases items with
  | nil => exact absurd rfl h
  | cons it0 rest => simp [result]

theorem Shapes.elements_ne : ∀ (ss : Shapes), ss.elements ≠ []
  | .one _ => by simp [Shapes.elements]
  | .snoc _ _ => by simp [Shapes.elements]

theorem BitsliceList.elements_ne (l : BitsliceList) : l.elements ≠ [] := by
  cases l with
  | one _ => simp [BitsliceList.elements]
  | snoc _ _ => simp [BitsliceList.elements]

theorem Shapes.width_eq : ∀ (ss : Shapes), (ss.elements.map Shape.width).sum = ss.width
  | .one s => by simp [Shapes.elements, Shapes.width]
  | .snoc ss s => by
    simp [Shapes.elements, Shapes.width, Shapes.width_eq ss]

theorem Shapes.elements_one {ss : Shapes} {s : Shape} (h : ss.elements = [s]) : ss = .one s := by
  cases ss with
  | one s' => rw [List.singleton_inj.mp h]
  | snoc ss' s' =>
    have hlen := congrArg List.length h
    have hpos := List.length_pos_of_ne_nil ss'.elements_ne
    simp only [Shapes.elements, List.length_append, List.length_singleton] at hlen
    omega

theorem Shapes.elements_snoc {ss : Shapes} {rest : List Shape} {s : Shape} (hne : rest ≠ [])
    (h : ss.elements = rest ++ [s]) : ∃ ss', ss = .snoc ss' s ∧ ss'.elements = rest := by
  cases ss with
  | one s' =>
    have hlen := congrArg List.length h
    have hpos := List.length_pos_of_ne_nil hne
    simp only [Shapes.elements, List.length_append, List.length_singleton] at hlen
    omega
  | snoc ss' s' =>
    obtain ⟨h1, h2⟩ := List.append_inj' h rfl
    rw [List.singleton_inj.mp h2]
    exact ⟨ss', rfl, h1⟩

theorem Item.Ok.pos_width {it : Item} (h : it.Ok handleBitsliceID args env) :
    1 ≤ it.shape.width := Nat.le_trans h.pos h.le

theorem widths_pos {items : List Item} (hne : items ≠ [])
    (hok : ∀ it ∈ items, it.Ok handleBitsliceID args env) : 1 ≤ widths items := by
  cases items with
  | nil => exact absurd rfl hne
  | cons it rest =>
    have := (hok it List.mem_cons_self).pos_width
    simp only [widths, List.map_cons, List.sum_cons]
    omega

namespace ItemsOf

variable {l : BitsliceList} {ss : Shapes} {items : List Item}

theorem one {it : Item} (h : it.Ok handleBitsliceID args env) :
    ItemsOf handleBitsliceID args env (.one it.b) (.one it.shape) [it] :=
  ⟨rfl, rfl, fun x hx => by rw [List.mem_singleton.mp hx]; exact h⟩

theorem snoc {it : Item} (h : ItemsOf handleBitsliceID args env l ss items)
    (hit : it.Ok handleBitsliceID args env) :
    ItemsOf handleBitsliceID args env (.snoc l it.b) (.snoc ss it.shape) (items ++ [it]) := by
  refine ⟨by simp [BitsliceList.elements, h.elements], by simp [Shapes.elements, h.shapes], ?_⟩
  intro x hx
  obtain hx | hx := List.mem_append.mp hx
  · exact h.ok x hx
  · rw [List.mem_singleton.mp hx]
    exact hit

theorem ne_nil (h : ItemsOf handleBitsliceID args env l ss items) : items ≠ [] :=
  fun e => l.elements_ne (by rw [h.elements, e]; rfl)

theorem widths_eq (h : ItemsOf handleBitsliceID args env l ss items) : widths items = ss.width := by
  rw [← ss.width_eq, h.shapes, List.map_map]; rfl

/-- A list with items is one item, or a list with items and one more. -/
theorem cases_snoc (h : ItemsOf handleBitsliceID args env l ss items) :
    (∃ it, l = .one it.b ∧ ss = .one it.shape ∧ items = [it]) ∨
    ∃ l' ss' items' it, l = .snoc l' it.b ∧ ss = .snoc ss' it.shape ∧ items = items' ++ [it] ∧
      ItemsOf handleBitsliceID args env l' ss' items' := by
  obtain ⟨hl, hss, hok⟩ := h
  cases l with
  | one b =>
    obtain ⟨it, rfl, rfl⟩ := List.map_eq_singleton_iff.mp hl.symm
    exact .inl ⟨it, rfl, Shapes.elements_one hss, rfl⟩
  | snoc l b =>
    obtain ⟨items', last, rfl, hl', hlast⟩ := List.map_eq_append_iff.mp hl.symm
    obtain ⟨it, rfl, rfl⟩ := List.map_eq_singleton_iff.mp hlast
    have hne : items' ≠ [] := fun e => l.elements_ne (by rw [← hl', e]; rfl)
    rw [List.map_append] at hss
    obtain ⟨ss', rfl, hss'⟩ := Shapes.elements_snoc (by simpa using hne) hss
    exact .inr ⟨l, ss', items', it, rfl, rfl, rfl, hl'.symm, hss',
      fun x hx => hok x (List.mem_append_left _ hx)⟩

theorem last_ok {items' : List Item} {it : Item}
    (h : ItemsOf handleBitsliceID args env l ss (items' ++ [it])) :
    it.Ok handleBitsliceID args env := h.ok it (List.mem_append_right _ List.mem_cons_self)

theorem shaped : ∀ {l : BitsliceList} {ss : Shapes} {items : List Item},
    ItemsOf handleBitsliceID args env l ss items → l.Shaped handleBitsliceID args env ss
  | .one b, ss, items, h => by
    obtain h1 | h1 := h.cases_snoc
    · obtain ⟨it, hb, rfl, rfl⟩ := h1
      obtain rfl := BitsliceList.one.inj hb
      exact ⟨it.shape, rfl, (h.ok it List.mem_cons_self).shaped⟩
    · obtain ⟨_, _, _, _, hl, -⟩ := h1
      cases hl
  | .snoc l b, ss, items, h => by
    obtain h1 | h1 := h.cases_snoc
    · obtain ⟨_, hl, -⟩ := h1
      cases hl
    · obtain ⟨l', ss', items', it, hl, rfl, rfl, h'⟩ := h1
      obtain ⟨rfl, rfl⟩ := BitsliceList.snoc.inj hl
      exact ⟨ss', it.shape, rfl, shaped h', h.last_ok.shaped⟩

/-- The code of a list computes the result of its elements. -/
theorem leaves : ∀ {l : BitsliceList} {ss : Shapes} {items : List Item},
    ItemsOf handleBitsliceID args env l ss items → ss.width ≤ 32 →
    ListLeaves handleBitsliceID args env l ss.left (result items)
  | .one b, ss, items, h, h32 => by
    obtain h1 | h1 := h.cases_snoc
    · obtain ⟨it, hb, rfl, rfl⟩ := h1
      obtain rfl := BitsliceList.one.inj hb
      exact ListLeaves.one (h.ok it List.mem_cons_self).leaves
    · obtain ⟨_, _, _, _, hl, -⟩ := h1
      cases hl
  | .snoc l b, ss, items, h, h32 => by
    obtain h1 | h1 := h.cases_snoc
    · obtain ⟨_, hl, -⟩ := h1
      cases hl
    · obtain ⟨l', ss', items', it, hl, rfl, rfl, h'⟩ := h1
      obtain ⟨rfl, rfl⟩ := BitsliceList.snoc.inj hl
      have hit := h.last_ok
      have hpos := widths_pos h'.ne_nil h'.ok
      have hsum := h'.widths_eq
      have hle := hit.le
      simp only [Shapes.width] at h32
      rw [result_snoc h'.ne_nil]
      exact (leaves h' (by omega)).snoc hit.leaves (by omega)

/-- The width a list leaves is one of its own widths, or 1. -/
theorem left_le (h : ItemsOf handleBitsliceID args env l ss items) :
    1 ≤ ss.left ∧ ss.left ≤ ss.width := by
  obtain h1 | h1 := h.cases_snoc
  · obtain ⟨it, -, rfl, rfl⟩ := h1
    have hit := h.ok it List.mem_cons_self
    exact ⟨hit.pos, hit.le⟩
  · obtain ⟨_, ss', _, it, -, rfl, -, -⟩ := h1
    rw [← h.widths_eq]
    exact ⟨Nat.le_refl 1, widths_pos h.ne_nil h.ok⟩

end ItemsOf

/-! What an element is worth. -/

theorem toNat_get_lt (v : Word) (s n : Nat) : (BitField.get v s n).toNat < 2 ^ n := by
  rw [BitField.toNat_get]
  exact Nat.mod_lt _ (Nat.two_pow_pos n)

/-- The result of clean elements has no bit above their widths, wherever they end up. -/
theorem result_lt : ∀ {items : List Item}, (∀ it ∈ items, it.Ok handleBitsliceID args env) →
    (∀ it ∈ items, it.shape.clean = true) → (result items).toNat < 2 ^ widths items := by
  intro items
  induction items using List.reverseRecOn with
  | nil => intro _ _; simp [result, widths]
  | append_singleton items it ih =>
    intro hok hclean
    have hit : it ∈ items ++ [it] := List.mem_append_right _ List.mem_cons_self
    have hfits := (hok it hit).fits (hclean it hit)
    have hone : widths [it] = it.shape.width := by simp [widths]
    rw [widths_append, hone]
    by_cases hne : items = []
    · subst hne
      simpa [result, widths] using hfits
    · have hacc := ih (fun it h => hok it (List.mem_append_left _ h))
        (fun it h => hclean it (List.mem_append_left _ h))
      rw [result_snoc hne, BitVec.toNat_add, BitVec.toNat_shiftLeft, Nat.shiftLeft_eq]
      have hpow : 2 ^ it.shape.left ≤ 2 ^ it.shape.width :=
        Nat.pow_le_pow_right (by decide) (hok it hit).le
      calc ((result items).toNat * 2 ^ it.shape.left % 2 ^ 32 + it.cut.toNat) % 2 ^ 32
          ≤ (result items).toNat * 2 ^ it.shape.left + it.cut.toNat :=
            (Nat.mod_le _ _).trans (Nat.add_le_add_right (Nat.mod_le _ _) _)
        _ ≤ (2 ^ widths items - 1) * 2 ^ it.shape.width + it.cut.toNat :=
            Nat.add_le_add_right (Nat.mul_le_mul (by omega) hpow) _
        _ < (2 ^ widths items - 1) * 2 ^ it.shape.width + 2 ^ it.shape.width := by omega
        _ = 2 ^ (widths items + it.shape.width) := by
            rw [← Nat.succ_mul, Nat.pow_add, Nat.succ_eq_add_one,
              Nat.sub_add_cancel (Nat.two_pow_pos _)]

theorem Shapes.clean_iff : ∀ (ss : Shapes), ss.clean = true ↔ ∀ s ∈ ss.elements, s.clean = true
  | .one s => by simp [Shapes.clean, Shapes.elements]
  | .snoc ss s => by
    simp only [Shapes.clean, Shapes.elements, Bool.and_eq_true, Shapes.clean_iff ss, List.mem_append,
      List.mem_singleton, or_imp, forall_and, forall_eq]

/-- A list of elements, as an element. -/
theorem ItemsOf.ok_list {l : BitsliceList} {ss : Shapes} {items : List Item}
    (h : ItemsOf handleBitsliceID args env l ss items) (h32 : ss.width ≤ 32) :
    Item.Ok handleBitsliceID args env ⟨.list l, .list ss, result items⟩ := by
  obtain ⟨hpos, hle⟩ := h.left_le
  refine ⟨⟨ss, rfl, h.shaped⟩, Leaves.list (h.leaves h32), hpos, hle, fun hclean => ?_⟩
  have hclean' : ∀ it ∈ items, it.shape.clean = true := by
    intro it hit
    refine (Shapes.clean_iff ss).mp hclean it.shape ?_
    rw [h.shapes]
    exact List.mem_map_of_mem hit
  have hlt := result_lt h.ok hclean'
  rw [h.widths_eq] at hlt
  exact hlt

/-! Each form, as an element. -/

theorem ok_number (n : Nat) :
    Item.Ok handleBitsliceID args env ⟨.number n, .leaf .word, BitVec.ofNat 32 n⟩ :=
  ⟨rfl, leaves_number n, Nat.le_refl 1, Nat.le_refl 1, fun _ => toNat_get_lt _ 0 1⟩

theorem ok_paren {e : Expr} {v : Word} (he : Gives args env (e.act handleBitsliceID) v) :
    Item.Ok handleBitsliceID args env ⟨.paren e, .leaf .paren, v⟩ :=
  ⟨⟨rfl, v, he⟩, leaves_paren he, Nat.le_refl 1, Nat.le_refl 1, fun hc => by cases hc⟩

theorem ok_bit {b : Bitslice} {v : Word} {n : Nat} (hn : n < 32)
    (hb : Gives args env (b.act handleBitsliceID) v) :
    Item.Ok handleBitsliceID args env ⟨.bit b n, .leaf .bit, BitField.get v n 1⟩ :=
  ⟨⟨rfl, hn, v, hb⟩, leaves_bit hn hb, Nat.le_refl 1, Nat.le_refl 1, fun _ => toNat_get_lt v n 1⟩

theorem ok_bracket {b : Bitslice} {e : Expr} {v i : Word} (hi : i.toNat < 32)
    (hb : Gives args env (b.act handleBitsliceID) v) (he : Gives args env (e.act handleBitsliceID) i) :
    Item.Ok handleBitsliceID args env ⟨.bracket b e, .leaf .bit, BitField.get v i.toNat 1⟩ :=
  ⟨⟨rfl, v, i, hb, he, hi⟩, leaves_bracket hi hb he, Nat.le_refl 1, Nat.le_refl 1,
    fun _ => toNat_get_lt v i.toNat 1⟩

theorem ok_dot {b : Bitslice} {f : String} {v start : Word} {w : Nat}
    (hf : env.slices f = some (start, BitVec.ofNat 32 w)) (hin : maskable start.toNat w)
    (hb : Gives args env (b.act handleBitsliceID) v) :
    Item.Ok handleBitsliceID args env
      ⟨.dot b f, .leaf (.named w), BitField.get v start.toNat w⟩ :=
  ⟨⟨start, w, v, rfl, hf, hin, hb⟩, leaves_dot hf hin hb, hin.2.1, Nat.le_refl w,
    fun _ => toNat_get_lt v start.toNat w⟩

theorem ok_range {b : Bitslice} {hi lo : Expr} {v : Word} {h l : Nat} (hl : l ≤ h) (hh : h ≤ 31)
    (hb : Gives args env (b.act handleBitsliceID) v)
    (hhi : Gives args env (hi.act handleBitsliceID) (BitVec.ofNat 32 h))
    (hlo : Gives args env (lo.act handleBitsliceID) (BitVec.ofNat 32 l)) :
    Item.Ok handleBitsliceID args env
      ⟨.range b hi lo, .leaf (.range h l), BitField.get v h (h - l + 1)⟩ :=
  ⟨⟨h, l, v, rfl, hl, hh, hb, hhi, hlo⟩, leaves_range hl hh hb hhi hlo, Nat.le_refl 1,
    Nat.le_add_left 1 _, fun _ => toNat_get_lt v h _⟩

mutual
/-- An element of a shape has a value, and the shape says what it leaves. -/
theorem Bitslice.item (hID : ReadsID handleBitsliceID) : ∀ (b : Bitslice) {s : Shape},
    b.Shaped handleBitsliceID args env s → s.width ≤ 32 →
    ∃ v, Item.Ok handleBitsliceID args env ⟨b, s, v⟩
  | .id x, s, h, _ => by
    obtain ⟨rfl, v, hx⟩ := id h
    exact ⟨v, h, leaves_id hID hx, Nat.le_refl 1, Nat.le_refl 1, fun _ => toNat_get_lt v 0 1⟩
  | .number n, s, h, _ => by
    obtain rfl := id h
    exact ⟨_, ok_number n⟩
  | .paren e, s, h, _ => by
    obtain ⟨rfl, v, he⟩ := id h
    exact ⟨_, ok_paren he⟩
  | .bit b n, s, h, _ => by
    obtain ⟨rfl, hn, v, hb⟩ := id h
    exact ⟨_, ok_bit hn hb⟩
  | .bracket b e, s, h, _ => by
    obtain ⟨rfl, v, i, hb, he, hi⟩ := id h
    exact ⟨_, ok_bracket hi hb he⟩
  | .dot b f, s, h, _ => by
    obtain ⟨start, w, v, rfl, hf, hin, hb⟩ := id h
    exact ⟨_, ok_dot hf hin hb⟩
  | .range b hi lo, s, h, _ => by
    obtain ⟨hn, ln, v, rfl, hl, hh, hb, hhi, hlo⟩ := id h
    exact ⟨_, ok_range hl hh hb hhi hlo⟩
  | .list l, s, h, h32 => by
    obtain ⟨ss, rfl, hl⟩ := id h
    obtain ⟨items, hitems⟩ := BitsliceList.items hID l hl h32
    exact ⟨_, hitems.ok_list h32⟩

theorem BitsliceList.items (hID : ReadsID handleBitsliceID) : ∀ (l : BitsliceList) {ss : Shapes},
    l.Shaped handleBitsliceID args env ss → ss.width ≤ 32 →
    ∃ items, ItemsOf handleBitsliceID args env l ss items
  | .one b, ss, h, h32 => by
    obtain ⟨s, rfl, hb⟩ := id h
    obtain ⟨v, hok⟩ := Bitslice.item hID b hb h32
    exact ⟨_, ItemsOf.one hok⟩
  | .snoc l b, ss, h, h32 => by
    obtain ⟨ss', s, rfl, hl, hb⟩ := id h
    simp only [Shapes.width] at h32
    obtain ⟨items, hitems⟩ := BitsliceList.items hID l hl (by omega)
    obtain ⟨v, hok⟩ := Bitslice.item hID b hb (by omega)
    exact ⟨_, hitems.snoc hok⟩
end

end Ece566.P1
