import Ece566.P1Actions

/- The code emitted for an expression computes the expression. The induction follows
   the derivation; what it carries from one reduction to the next is `Sim`, and for
   the elements of a list the two globals that describe the element just parsed. -/
namespace Ece566.P1

/-- From `st`, `x` emits code whose result is the word `v`. -/
def Yields (args : List Word) (st : Parser) (x : Parse Value) (v : Word) : Prop :=
  Wp x (fun val st' => Grows args st st' ∧ Means args st'.block val v) st

/-- `Yields` for a selection, which may become an element of a list. -/
def Selects (args : List Word) (st : Parser) (x : Parse Value) (v : Word) (n : Nat)
    (element : Bool) : Prop :=
  Wp x (fun val st' => Grows args st st' ∧ Means args st'.block val v ∧
    (element = true → Element args st' v n)) st

/-- `Yields` for a list of `m` bits in all. -/
def Packs (args : List Word) (st : Parser) (x : Parse Value) (v : Word) (m : Nat) : Prop :=
  Wp x (fun val st' => Grows args st st' ∧ Means args st'.block val v ∧ 1 ≤ m ∧ m ≤ 32 ∧
    ∀ i, m ≤ i → v.getLsbD i = false) st

variable {args : List Word} {st : Parser} {env : Env}

namespace Yields

/-- The action of a unary operator: its operand, then what it emits. -/
theorem unary {handleBitsliceID : String → Parse Value} {a : Expr} {f : Value → Parse Value}
    {r : Word → Word} {v : Word}
    (iha : a.plain = true → ∀ {st x}, Sim args st env → a.eval env = some x →
      Yields args st (a.act handleBitsliceID) x)
    (hf : ∀ {val s x}, Means args s.block val x →
      Wp (f val) (fun val' s' => Emits args s s' ∧ Means args s'.block val' (r x)) s)
    (hp : a.plain = true) (hs : Sim args st env)
    (he : (do return r (← a.eval env)) = some v) :
    Yields args st (do f (← a.act handleBitsliceID)) v := by
  obtain ⟨x, hx, he⟩ := Option.bind_eq_some_iff.mp he
  obtain rfl := Option.some.inj he
  refine Wp.bind' (iha hp hs hx) ?_
  intro val s1 h
  obtain ⟨g1, m1⟩ := h
  refine (hf m1).mono ?_
  intro val' s2 h
  obtain ⟨e2, m2⟩ := h
  exact ⟨g1.trans e2.toGrows, m2⟩

/-- The action of a binary operator: its operands, then one instruction. -/
theorem binary {handleBitsliceID : String → Parse Value} {a b : Expr} {op : BinOp} {v : Word}
    (iha : a.plain = true → ∀ {st x}, Sim args st env → a.eval env = some x →
      Yields args st (a.act handleBitsliceID) x)
    (ihb : b.plain = true → ∀ {st y}, Sim args st env → b.eval env = some y →
      Yields args st (b.act handleBitsliceID) y)
    (hp : (a.plain && b.plain) = true) (hs : Sim args st env)
    (he : (do let x ← a.eval env; let y ← b.eval env; evalBin op x y) = some v) :
    Yields args st (do create op (← a.act handleBitsliceID) (← b.act handleBitsliceID)) v := by
  rw [Bool.and_eq_true] at hp
  obtain ⟨x, hx, he⟩ := Option.bind_eq_some_iff.mp he
  obtain ⟨y, hy, he⟩ := Option.bind_eq_some_iff.mp he
  refine Wp.bind' (iha hp.1 hs hx) ?_
  intro va s1 h
  obtain ⟨g1, m1⟩ := h
  refine Wp.bind' (ihb hp.2 (hs.grow g1) hy) ?_
  intro vb s2 h
  obtain ⟨g2, m2⟩ := h
  refine (create_spec (g2.means _ _ m1) m2 he).mono ?_
  intro val s3 h
  obtain ⟨e3, m3⟩ := h
  exact ⟨(g1.trans g2).trans e3.toGrows, m3⟩

end Yields

/-- An element's value is cut to its width. -/
theorem cutElement_spec {a : Value} {v : Word} {n : Nat} (ha : Means args st.block a v)
    (el : Element args st v n) : Wp (cutElement a)
      (fun val st' => Emits args st st' ∧ Means args st'.block val (BitField.get v 0 n)) st := by
  refine Wp.bind' get_spec ?_
  intro _ s h
  obtain ⟨rfl, rfl⟩ := h
  cases hid : s.bitsliceIsID with
  | true =>
    rw [if_pos rfl, el.cut hid]
    exact getLowestBit_spec ha
  | false =>
    rw [if_neg (by simp), BitField.get_low v n (el.fits hid)]
    exact Wp.pure' ⟨Emits.refl, ha⟩

/-- A one-bit selection leaves a one-bit element. -/
theorem element_bit {s s' : Parser} (hr : s.bitsliceRange = getInt32 1) (e : Emits args s s')
    {val : Value} {v : Word} {i : Nat} (m : Means args s'.block val (BitField.get v i 1)) :
    Element args s' (BitField.get v i 1) 1 where
  range := by rw [e.range, hr]; exact Means.getInt32 m.runs 1
  pos := Nat.le_refl 1
  le := by decide
  cut _ := rfl
  fits _ i hi := BitField.getLsbD_get_of_le _ _ _ _ hi

section
variable {handleBitsliceID : String → Parse Value}

/-- `b.f` reads the field that the entry of `f` says, and leaves its width. -/
theorem dot_spec {b : Bitslice} {f : String} {sl : Slice} {v s n : Word}
    (hb : Yields args st (b.act handleBitsliceID) v) (hf : st.slicesDict f = some sl)
    (ms : Means args st.block sl.start s) (mn : Means args st.block sl.range n)
    (hin : maskable s.toNat n.toNat) :
    Wp ((Bitslice.dot b f).act handleBitsliceID) (fun val st' => Grows args st st' ∧
      Means args st'.block val (BitField.get v s.toNat n.toNat) ∧ st'.bitsliceIsID = false ∧
      Means args st'.block st'.bitsliceRange n) st := by
  refine Wp.bind' hb ?_
  intro a s1 h1
  obtain ⟨g1, m1⟩ := h1
  refine Wp.bind' (setBitsliceIsID_spec args _) ?_
  intro _ s2 h2
  obtain ⟨g2, -, -⟩ := h2
  refine Wp.get_bind ?_
  have g12 := g1.trans g2
  rw [g12.slices, hf]
  refine Wp.bind' (setBitslice_spec args _ _) ?_
  intro _ s3 h3
  obtain ⟨g3, hid, hr⟩ := h3
  have g := g12.trans g3
  refine (getMaskedValue_spec ((g2.trans g3).means _ _ m1) (g.means _ _ ms) (g.means _ _ mn)
    hin).mono ?_
  intro r s4 h4
  obtain ⟨e4, m4⟩ := h4
  refine ⟨g.trans e4.toGrows, m4, by rw [e4.isID, hid], ?_⟩
  rw [e4.range, hr]
  exact (g.trans e4.toGrows).means _ _ mn

mutual
theorem Expr.act_spec (hID : ReadsID handleBitsliceID) : ∀ (e : Expr), e.plain = true →
    ∀ {st v}, Sim args st env → e.eval env = some v → Yields args st (e.act handleBitsliceID) v
  | .bitslice b, hp, st, v, hs, he => by
    obtain ⟨⟨v', n⟩, hb, rfl⟩ := Option.map_eq_some_iff.mp he
    exact (Bitslice.act_spec hID b hp hs hb).mono fun _ _ h => ⟨h.1, h.2.1⟩
  | .plus a b, hp, _, _, hs, he => Yields.binary (Expr.act_spec hID a) (Expr.act_spec hID b) hp hs he
  | .minus a b, hp, _, _, hs, he => Yields.binary (Expr.act_spec hID a) (Expr.act_spec hID b) hp hs he
  | .xor a b, hp, _, _, hs, he => Yields.binary (Expr.act_spec hID a) (Expr.act_spec hID b) hp hs he
  | .and a b, hp, _, _, hs, he => Yields.binary (Expr.act_spec hID a) (Expr.act_spec hID b) hp hs he
  | .or a b, hp, _, _, hs, he => Yields.binary (Expr.act_spec hID a) (Expr.act_spec hID b) hp hs he
  | .mul a b, hp, _, _, hs, he => Yields.binary (Expr.act_spec hID a) (Expr.act_spec hID b) hp hs he
  | .div a b, hp, _, _, hs, he => Yields.binary (Expr.act_spec hID a) (Expr.act_spec hID b) hp hs he
  | .mod a b, hp, _, _, hs, he => Yields.binary (Expr.act_spec hID a) (Expr.act_spec hID b) hp hs he
  | .inv a, hp, _, _, hs, he => Yields.unary (Expr.act_spec hID a) createNot_spec hp hs he
  | .binv a, hp, _, _, hs, he => Yields.unary (Expr.act_spec hID a)
      (fun m => create_spec m (Means.getInt32 m.runs 1) rfl) hp hs he
  | .reduceAnd a, hp, _, _, hs, he => Yields.unary (Expr.act_spec hID a) reduceAnd_spec hp hs he
  | .reduceOr a, hp, _, _, hs, he => Yields.unary (Expr.act_spec hID a) reduceOr_spec hp hs he
  | .reduceXor a, hp, _, _, hs, he => Yields.unary (Expr.act_spec hID a) reduceXor_spec hp hs he
  | .reducePlus a, hp, _, _, hs, he => Yields.unary (Expr.act_spec hID a) ctpop_spec hp hs he
  | .expand a, hp, _, _, hs, he => Yields.unary (Expr.act_spec hID a) expand_spec hp hs he

theorem Bitslice.act_spec (hID : ReadsID handleBitsliceID) : ∀ (b : Bitslice), b.plain = true →
    ∀ {st v n}, Sim args st env →
    b.eval env = some (v, n) → Selects args st (b.act handleBitsliceID) v n b.element
  | .id x, _, st, v, n, hs, he => by
    obtain ⟨w, hw, he⟩ := Option.bind_eq_some_iff.mp he
    obtain ⟨rfl, rfl⟩ := Prod.mk.inj (Option.some.inj he)
    obtain ⟨vs, hvs, m⟩ := hs.vars hw
    refine ⟨_, _, hID.reads st x vs hvs, ⟨rfl, rfl, rfl, fun _ _ h => h⟩, m, fun _ => ?_⟩
    exact ⟨Means.getInt32 m.runs 1, Nat.le_refl 1, by decide, fun _ => rfl, fun h => by cases h⟩
  | .number k, _, st, v, n, hs, he => by
    obtain ⟨rfl, rfl⟩ := Prod.mk.inj (Option.some.inj he)
    refine ⟨_, _, rfl, ⟨rfl, rfl, rfl, fun _ _ h => h⟩, Means.const hs.runs _, fun _ => ?_⟩
    exact ⟨Means.const hs.runs _, Nat.le_refl 1, by decide, fun _ => rfl, fun h => by cases h⟩
  | .list l, hp, st, v, n, hs, he =>
    (BitsliceList.act_spec hID l hp hs he).mono fun _ _ h => ⟨h.1, h.2.1, fun h => by cases h⟩
  | .paren e, hp, st, v, n, hs, he => by
    obtain ⟨w, hw, he⟩ := Option.bind_eq_some_iff.mp he
    obtain ⟨rfl, rfl⟩ := Prod.mk.inj (Option.some.inj he)
    refine Wp.bind' (Expr.act_spec hID e hp hs hw) ?_
    intro a s1 h
    obtain ⟨g1, m1⟩ := h
    refine Wp.bind' (setBitslice_spec args _ _) ?_
    intro _ s2 h
    obtain ⟨g2, -, -⟩ := h
    exact Wp.pure' ⟨g1.trans g2, g2.means _ _ m1, fun h => by cases h⟩
  | .bit b k, hp, st, v, n, hs, he => by
    obtain ⟨⟨w, m⟩, hb, he⟩ := Option.bind_eq_some_iff.mp he
    simp only at he
    split at he
    · rename_i hk
      obtain ⟨rfl, rfl⟩ := Prod.mk.inj (Option.some.inj he)
      have hk' : (BitVec.ofNat 32 k).toNat = k := by simp; omega
      refine Wp.bind' (Bitslice.act_spec hID b hp hs hb) ?_
      intro a s1 h
      obtain ⟨g1, m1, -⟩ := h
      refine Wp.bind' (setBitslice_spec args _ _) ?_
      intro _ s2 h
      obtain ⟨g2, hid, hr⟩ := h
      have m2 := g2.means _ _ m1
      refine (getBit_spec m2 (Means.getInt32 m2.runs k) (by omega)).mono ?_
      intro r s3 h
      obtain ⟨e3, m3⟩ := h
      rw [hk'] at m3
      exact ⟨(g1.trans g2).trans e3.toGrows, m3, fun _ => element_bit hr e3 m3⟩
    · cases he
  | .dot b f, hp, st, v, n, hs, he => by
    obtain ⟨⟨w, m⟩, hb, he⟩ := Option.bind_eq_some_iff.mp he
    obtain ⟨⟨s, k⟩, hf, he⟩ := Option.bind_eq_some_iff.mp he
    simp only at he
    split at he
    · rename_i hin
      obtain ⟨rfl, rfl⟩ := Prod.mk.inj (Option.some.inj he)
      obtain ⟨sl, hsl, ms, mk⟩ := hs.slices hf
      have hb' := (Bitslice.act_spec hID b hp hs hb).mono fun _ _ h => And.intro h.1 h.2.1
      refine (dot_spec hb' hsl ms mk hin.maskable).mono ?_
      intro r s1 h1
      obtain ⟨g1, m1, hid, mr⟩ := h1
      refine ⟨g1, m1, fun _ => ⟨?_, hin.1, ?_, ?_, ?_⟩⟩
      · rw [BitVec.ofNat_toNat, BitVec.setWidth_eq]; exact mr
      · have := hin.2; omega
      · intro h; rw [hid] at h; cases h
      · intro _ i hi; exact BitField.getLsbD_get_of_le _ _ _ _ hi
    · cases he
  | .bracket b e, hp, st, v, n, hs, he => by
    simp only [Bitslice.plain, Bool.and_eq_true] at hp
    obtain ⟨⟨w, m⟩, hb, he⟩ := Option.bind_eq_some_iff.mp he
    obtain ⟨i, hi, he⟩ := Option.bind_eq_some_iff.mp he
    split at he
    · rename_i hlt
      obtain ⟨rfl, rfl⟩ := Prod.mk.inj (Option.some.inj he)
      refine Wp.bind' (Bitslice.act_spec hID b hp.1 hs hb) ?_
      intro a s1 h
      obtain ⟨g1, m1, -⟩ := h
      refine Wp.bind' (Expr.act_spec hID e hp.2 (hs.grow g1) hi) ?_
      intro p s2 h
      obtain ⟨g2, m2⟩ := h
      refine Wp.bind' (setBitslice_spec args _ _) ?_
      intro _ s3 h
      obtain ⟨g3, hid, hr⟩ := h
      refine (getBit_spec (g3.means _ _ (g2.means _ _ m1)) (g3.means _ _ m2) hlt).mono ?_
      intro r s4 h
      obtain ⟨e4, m4⟩ := h
      exact ⟨((g1.trans g2).trans g3).trans e4.toGrows, m4, fun _ => element_bit hr e4 m4⟩
    · cases he
  | .range b hi lo, hp, _, _, _, _, _ => by cases hp

theorem BitsliceList.act_spec (hID : ReadsID handleBitsliceID) : ∀ (l : BitsliceList), l.plain = true →
    ∀ {st v m}, Sim args st env →
    l.eval env = some (v, m) → Packs args st (l.act handleBitsliceID) v m
  | .one b, hp, st, v, m, hs, he => by
    simp only [BitsliceList.plain, Bool.and_eq_true] at hp
    obtain ⟨⟨w, n⟩, hb, he⟩ := Option.bind_eq_some_iff.mp he
    obtain ⟨rfl, rfl⟩ := Prod.mk.inj (Option.some.inj he)
    refine Wp.bind' (Bitslice.act_spec hID b hp.2 hs hb) ?_
    intro a s1 h
    obtain ⟨g1, m1, el⟩ := h
    have el := el hp.1
    refine Wp.bind' (cutElement_spec m1 el) ?_
    intro a' s2 h
    obtain ⟨e2, m2⟩ := h
    refine Wp.bind' (setBitsliceIsID_spec args _) ?_
    intro _ s3 h
    obtain ⟨g3, -, -⟩ := h
    exact Wp.pure' ⟨(g1.trans e2.toGrows).trans g3, g3.means _ _ m2, el.pos, el.le,
      fun i hi => BitField.getLsbD_get_of_le _ _ _ _ hi⟩
  | .snoc l b, hp, st, v, m, hs, he => by
    simp only [BitsliceList.plain, Bool.and_eq_true] at hp
    obtain ⟨⟨x, k⟩, hl, he⟩ := Option.bind_eq_some_iff.mp he
    obtain ⟨⟨w, n⟩, hb, he⟩ := Option.bind_eq_some_iff.mp he
    simp only at he
    split at he
    · rename_i hle
      obtain ⟨rfl, rfl⟩ := Prod.mk.inj (Option.some.inj he)
      refine Wp.bind' (BitsliceList.act_spec hID l hp.1.1 hs hl) ?_
      intro acc s1 h
      obtain ⟨g1, m1, hk, -, hfit⟩ := h
      refine Wp.bind' (Bitslice.act_spec hID b hp.2 (hs.grow g1) hb) ?_
      intro a s2 h
      obtain ⟨g2, m2, el⟩ := h
      have el := el hp.1.2
      refine Wp.bind' (cutElement_spec m2 el) ?_
      intro a' s3 h
      obtain ⟨e3, m3⟩ := h
      refine Wp.bind' (setBitsliceIsID_spec args _) ?_
      intro _ s4 h
      obtain ⟨g4, -, hr⟩ := h
      refine Wp.bind' get_spec ?_
      intro _ s4 h
      obtain ⟨rfl, rfl⟩ := h
      -- the range is still the one the element left: cutting it only emitted code
      have mr : Means args s4.block s4.bitsliceRange (BitVec.ofNat 32 n) := by
        rw [hr, e3.range]; exact g4.means _ _ (e3.means _ _ el.range)
      have macc := g4.means _ _ (e3.means _ _ (g2.means _ _ m1))
      refine Wp.bind' (doLeftshiftbynAdd_spec macc mr (by omega) (g4.means _ _ m3)
        (fun i hi => BitField.getLsbD_get_of_le _ _ _ _ hi)) ?_
      intro r s5 h
      obtain ⟨e5, m5⟩ := h
      rw [BitField.cat_get] at m5
      refine Wp.bind' (setBitslice_spec args _ _) ?_
      intro _ s6 h
      obtain ⟨g6, -, -⟩ := h
      have g := ((((g1.trans g2).trans e3.toGrows).trans g4).trans e5.toGrows).trans g6
      exact Wp.pure' ⟨g, g6.means _ _ m5, by omega, hle,
        fun i hi => BitField.getLsbD_cat_of_le _ _ _ _ _ hfit hi⟩
    · cases he
end

end

end Ece566.P1
