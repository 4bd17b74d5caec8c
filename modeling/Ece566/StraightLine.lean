import Mathlib

/- Straight-line code as an `IRBuilder` makes it: a block of instructions, each of which is its
   own result. An operation on two constants is not emitted but computed
   (`ConstantFolder`). A pointer is the word it was cast from, and a load reads the
   word of the memory at it; nothing here writes the memory.

   What a value means in a block (`Means`) is the word it has when the block has run. It
   has it still when more is emitted (`Means.grow`), and each function of the builder returns
   a value that means what its name says. -/
namespace Ece566.StraightLine

variable {w : Nat}

inductive Value (w : Nat) where
  | const (c : BitVec w)
  | inst (n : Nat)
  deriving DecidableEq, Repr

inductive Inst (w : Nat) where
  | add (a b : Value w)
  | sub (a b : Value w)
  | intToPtr (a : Value w)
  | load (p : Value w)
  deriving DecidableEq, Repr

abbrev Block (w : Nat) := List (Inst w)

/-! The builder. -/

/-- The instruction is inserted at the end of the block. -/
def insert (i : Inst w) : StateM (Block w) (Value w) := fun block =>
  (.inst block.length, block ++ [i])

def createAdd : Value w → Value w → StateM (Block w) (Value w)
  | .const x, .const y => pure (.const (x + y))
  | a, b => insert (.add a b)

def createSub : Value w → Value w → StateM (Block w) (Value w)
  | .const x, .const y => pure (.const (x - y))
  | a, b => insert (.sub a b)

def createNeg (a : Value w) : StateM (Block w) (Value w) := createSub (.const 0) a

def createIntToPtr : Value w → StateM (Block w) (Value w)
  | .const x => pure (.const x)
  | a => insert (.intToPtr a)

def createLoad (p : Value w) : StateM (Block w) (Value w) := insert (.load p)

/-! The meaning of the code. -/

def Value.eval (results : List (BitVec w)) : Value w → Option (BitVec w)
  | .const c => some c
  | .inst n => results[n]?

def Inst.eval (mem : BitVec w → BitVec w) (results : List (BitVec w)) : Inst w → Option (BitVec w)
  | .add a b => do return (← a.eval results) + (← b.eval results)
  | .sub a b => do return (← a.eval results) - (← b.eval results)
  | .intToPtr a => a.eval results
  | .load p => do return mem (← p.eval results)

/-- The results of the instructions, in order. -/
def run (mem : BitVec w → BitVec w) (block : Block w) : Option (List (BitVec w)) :=
  block.foldlM (fun results i => do return results ++ [← i.eval mem results]) []

/-- What a function of this block returns that ends with `ret v`. -/
def result (mem : BitVec w → BitVec w) (block : Block w) (v : Value w) : Option (BitVec w) := do
  v.eval (← run mem block)

/-- After the block, `v` is the word `x`. -/
def Means (mem : BitVec w → BitVec w) (block : Block w) (v : Value w) (x : BitVec w) : Prop :=
  result mem block v = some x

/-- The block runs. -/
def Runs (mem : BitVec w → BitVec w) (block : Block w) : Prop := (run mem block).isSome = true

variable {mem : BitVec w → BitVec w} {block block' : Block w} {i : Inst w} {a b v : Value w}
variable {x y : BitVec w} {results : List (BitVec w)}

theorem run_snoc : run mem (block ++ [i]) =
    (run mem block).bind fun results => (i.eval mem results).map fun x => results ++ [x] := by
  simp only [run, List.foldlM_append, List.foldlM_cons, List.foldlM_nil, bind_pure]
  refine bind_congr fun results => ?_
  cases i.eval mem results with
  | none => rfl
  | some x => rfl

theorem run_length (h : run mem block = some results) : results.length = block.length := by
  induction block using List.reverseRecOn generalizing results with
  | nil =>
    obtain rfl := Option.some.inj h
    rfl
  | append_singleton block i ih =>
    rw [run_snoc] at h
    obtain ⟨rs, hrs, h⟩ := Option.bind_eq_some_iff.mp h
    obtain ⟨x, -, rfl⟩ := Option.map_eq_some_iff.mp h
    simp [ih hrs]

theorem eval_append {more : List (BitVec w)} (h : v.eval results = some x) :
    v.eval (results ++ more) = some x := by
  cases v with
  | const c => exact h
  | inst n =>
    simp only [Value.eval] at h ⊢
    obtain ⟨hn, -⟩ := List.getElem?_eq_some_iff.mp h
    rw [List.getElem?_append_left hn, h]

theorem means_iff : Means mem block v x ↔ ∃ results, run mem block = some results ∧
    v.eval results = some x := Option.bind_eq_some_iff

theorem Means.runs (h : Means mem block v x) : Runs mem block := by
  obtain ⟨results, hr, -⟩ := means_iff.mp h
  simp [Runs, hr]

theorem means_const (h : Runs mem block) (c : BitVec w) : Means mem block (.const c) c := by
  obtain ⟨results, hr⟩ := Option.isSome_iff_exists.mp h
  exact means_iff.mpr ⟨results, hr, rfl⟩

/-- From `block` to `block'` more has been emitted, which runs. -/
structure Grows (mem : BitVec w → BitVec w) (block block' : Block w) : Prop where
  grows : block <+: block'
  runs : Runs mem block → Runs mem block'

theorem Grows.refl : Grows mem block block := ⟨List.prefix_refl _, id⟩

theorem Grows.trans {block'' : Block w} (h : Grows mem block block') (h' : Grows mem block' block'') :
    Grows mem block block'' := ⟨h.grows.trans h'.grows, h'.runs ∘ h.runs⟩

/-- What a block has computed stays when it is continued. -/
theorem run_prefix (h : block <+: block') (hr : run mem block' = some results) :
    ∃ rs more, run mem block = some rs ∧ results = rs ++ more := by
  obtain ⟨tail, rfl⟩ := h
  induction tail using List.reverseRecOn generalizing results with
  | nil =>
    rw [List.append_nil] at hr
    exact ⟨results, [], hr, by simp⟩
  | append_singleton tail i ih =>
    rw [← List.append_assoc, run_snoc] at hr
    obtain ⟨rs', hrs', h⟩ := Option.bind_eq_some_iff.mp hr
    obtain ⟨x, -, rfl⟩ := Option.map_eq_some_iff.mp h
    obtain ⟨rs, more, hrs, rfl⟩ := ih hrs'
    exact ⟨rs, more ++ [x], hrs, by simp⟩

/-- A value means the same when more is emitted. -/
theorem Means.grow (h : Means mem block v x) (hg : Grows mem block block') : Means mem block' v x := by
  obtain ⟨results, hr⟩ := Option.isSome_iff_exists.mp (hg.runs h.runs)
  obtain ⟨rs, more, hrs, rfl⟩ := run_prefix hg.grows hr
  obtain ⟨rs', hrs', hv⟩ := means_iff.mp h
  obtain rfl := Option.some.inj (hrs.symm.trans hrs')
  exact means_iff.mpr ⟨_, hr, eval_append hv⟩

/-- From `block` the builder has made `v`, which means `x`. -/
structure Makes (mem : BitVec w → BitVec w) (block : Block w) (made : Value w × Block w)
    (x : BitVec w) : Prop extends Grows mem block made.2 where
  means : Means mem made.2 made.1 x

/-- An instruction that has a result. -/
theorem insert_makes (h : run mem block = some results) (hi : i.eval mem results = some x) :
    Makes mem block ((insert i).run block) x := by
  have hrun : run mem (block ++ [i]) = some (results ++ [x]) := by
    rw [run_snoc, h, Option.bind_some, hi]
    rfl
  refine ⟨⟨List.prefix_append _ _, fun _ => ?_⟩, means_iff.mpr ⟨_, hrun, ?_⟩⟩
  · show (run mem (block ++ [i])).isSome = true
    rw [hrun]
    rfl
  · show (results ++ [x])[block.length]? = some x
    rw [← run_length h]
    simp

theorem const_makes (h : Runs mem block) (c : BitVec w) :
    Makes mem block (.const c, block) c := ⟨.refl, means_const h c⟩

/-- Two values that mean something do so for one and the same run. -/
theorem Means.both (ha : Means mem block a x) (hb : Means mem block b y) :
    ∃ results, run mem block = some results ∧ a.eval results = some x ∧ b.eval results = some y := by
  obtain ⟨rs, hr, hx⟩ := means_iff.mp ha
  obtain ⟨rs', hr', hy⟩ := means_iff.mp hb
  obtain rfl := Option.some.inj (hr.symm.trans hr')
  exact ⟨rs, hr, hx, hy⟩

theorem createAdd_makes (ha : Means mem block a x) (hb : Means mem block b y) :
    Makes mem block ((createAdd a b).run block) (x + y) := by
  obtain ⟨rs, hr, hx, hy⟩ := ha.both hb
  have hadd : Makes mem block ((insert (.add a b)).run block) (x + y) :=
    insert_makes hr (by simp [Inst.eval, hx, hy])
  match a, b with
  | .const c, .const d =>
    obtain rfl := Option.some.inj hx
    obtain rfl := Option.some.inj hy
    exact const_makes ha.runs _
  | .const _, .inst _ | .inst _, .const _ | .inst _, .inst _ => exact hadd

theorem createSub_makes (ha : Means mem block a x) (hb : Means mem block b y) :
    Makes mem block ((createSub a b).run block) (x - y) := by
  obtain ⟨rs, hr, hx, hy⟩ := ha.both hb
  have hsub : Makes mem block ((insert (.sub a b)).run block) (x - y) :=
    insert_makes hr (by simp [Inst.eval, hx, hy])
  match a, b with
  | .const c, .const d =>
    obtain rfl := Option.some.inj hx
    obtain rfl := Option.some.inj hy
    exact const_makes ha.runs _
  | .const _, .inst _ | .inst _, .const _ | .inst _, .inst _ => exact hsub

theorem createNeg_makes (ha : Means mem block a x) :
    Makes mem block ((createNeg a).run block) (-x) := by
  rw [← zero_sub]
  exact createSub_makes (means_const ha.runs 0) ha

theorem createIntToPtr_makes (ha : Means mem block a x) :
    Makes mem block ((createIntToPtr a).run block) x := by
  obtain ⟨rs, hr, hx⟩ := means_iff.mp ha
  cases a with
  | const c =>
    obtain rfl := Option.some.inj hx
    exact const_makes ha.runs _
  | inst n => exact insert_makes hr hx

theorem createLoad_makes (ha : Means mem block a x) :
    Makes mem block ((createLoad a).run block) (mem x) := by
  obtain ⟨rs, hr, hx⟩ := means_iff.mp ha
  exact insert_makes hr (by simp [Inst.eval, hx])

end Ece566.StraightLine
