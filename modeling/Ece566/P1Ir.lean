import Mathlib

/- The IR a P1 program is compiled to: one basic block of 32-bit instructions and
   the value its `ret` returns. A value is a constant, an argument of the function
   or the result of an earlier instruction of the block.

   `evalInst` is LLVM's meaning of the instructions the grammar actions emit.
   Division by zero, overflowing signed division and a shift by 32 or more have no
   defined result (`none`). An `icmp` result is kept as the word its `zext` gives.
   The IRBuilder folds an instruction whose operands are constants; here it is
   emitted, which computes the same word. -/
namespace Ece566.P1

abbrev Word := BitVec 32

inductive Value where
  | const (c : Word)
  | arg (n : Nat)
  | inst (n : Nat)
  deriving DecidableEq, Repr

inductive BinOp where
  | add | sub | mul | udiv | sdiv | srem | shl | lshr | and | or | xor | icmpUgt
  deriving DecidableEq, Repr

inductive Inst where
  | bin (op : BinOp) (a b : Value)
  | zext (a : Value)
  | ctpop (a : Value)
  deriving DecidableEq, Repr

/-- A signed division that traps: by zero, or of the least integer by -1. -/
def divTraps (a b : Word) : Bool := b == 0 || (a == BitVec.intMin 32 && b == BitVec.allOnes 32)

def evalBin : BinOp → Word → Word → Option Word
  | .add, a, b => some (a + b)
  | .sub, a, b => some (a - b)
  | .mul, a, b => some (a * b)
  | .udiv, a, b => if b = 0 then none else some (a / b)
  | .sdiv, a, b => if divTraps a b then none else some (a.sdiv b)
  | .srem, a, b => if divTraps a b then none else some (a.srem b)
  | .shl, a, b => if b.toNat < 32 then some (a <<< b.toNat) else none
  | .lshr, a, b => if b.toNat < 32 then some (a >>> b.toNat) else none
  | .and, a, b => some (a &&& b)
  | .or, a, b => some (a ||| b)
  | .xor, a, b => some (a ^^^ b)
  | .icmpUgt, a, b => some (if b < a then 1 else 0)

/-- A value, given the arguments and the results of the instructions so far. -/
def evalValue (args results : List Word) : Value → Option Word
  | .const c => some c
  | .arg n => args[n]?
  | .inst n => results[n]?

def evalInst (args results : List Word) : Inst → Option Word
  | .bin op a b => do
    let x ← evalValue args results a
    let y ← evalValue args results b
    evalBin op x y
  | .zext a => evalValue args results a
  | .ctpop a => (evalValue args results a).map BitVec.cpop

/-- The results of the instructions of a block, in order. -/
def runBlock (args : List Word) (block : List Inst) : Option (List Word) :=
  block.foldlM (fun results i => (evalInst args results i).map fun v => results ++ [v]) []

/-- The word the function returns: its block, then `ret`. -/
def runFunction (args : List Word) (block : List Inst) (ret : Value) : Option Word :=
  (runBlock args block).bind fun results => evalValue args results ret

/-! What a value means after a block. -/

/-- After `block`, `val` holds the word `x`. -/
def Means (args : List Word) (block : List Inst) (val : Value) (x : Word) : Prop :=
  ∃ results, runBlock args block = some results ∧ evalValue args results val = some x

/-- `block` has run, so something can be asked of its values. -/
def Runs (args : List Word) (block : List Inst) : Prop :=
  ∃ results, runBlock args block = some results

variable {args : List Word} {block : List Inst}

theorem runBlock_snoc (i : Inst) :
    runBlock args (block ++ [i]) = (runBlock args block).bind fun results =>
      (evalInst args results i).map fun v => results ++ [v] := by
  simp only [runBlock, List.foldlM_append]
  cases List.foldlM (m := Option) _ [] block with
  | none => rfl
  | some results =>
    simp only [List.foldlM_cons, List.foldlM_nil, bind_pure]
    rfl

theorem runBlock_length : ∀ (block : List Inst) {results : List Word},
    runBlock args block = some results → results.length = block.length := by
  intro block
  induction block using List.reverseRecOn with
  | nil => intro results h; simp [runBlock] at h; simp [h]
  | append_singleton block i ih =>
    intro results h
    rw [runBlock_snoc] at h
    obtain ⟨r, hr, h⟩ := Option.bind_eq_some_iff.mp h
    obtain ⟨v, -, rfl⟩ := Option.map_eq_some_iff.mp h
    simp [ih hr]

theorem evalValue_append {results : List Word} {val : Value} {x : Word} (more : List Word)
    (h : evalValue args results val = some x) : evalValue args (results ++ more) val = some x := by
  cases val with
  | const c => exact h
  | arg n => exact h
  | inst n =>
    simp only [evalValue] at h ⊢
    obtain ⟨hn, -⟩ := List.getElem?_eq_some_iff.mp h
    rw [List.getElem?_append_left hn, h]

namespace Means

theorem const (hr : Runs args block) (c : Word) : Means args block (.const c) c := by
  obtain ⟨results, hr⟩ := hr
  exact ⟨results, hr, rfl⟩

theorem arg (hr : Runs args block) {n : Nat} {x : Word} (h : args[n]? = some x) :
    Means args block (.arg n) x := by
  obtain ⟨results, hr⟩ := hr
  exact ⟨results, hr, h⟩

theorem runs {val : Value} {x : Word} (h : Means args block val x) : Runs args block := by
  obtain ⟨results, hr, -⟩ := h
  exact ⟨results, hr⟩

/-- A value means one word. -/
theorem unique {val : Value} {x y : Word} (hx : Means args block val x)
    (hy : Means args block val y) : x = y := by
  obtain ⟨r, hr, ex⟩ := hx
  obtain ⟨r', hr', ey⟩ := hy
  rw [hr, Option.some.injEq] at hr'
  subst hr'
  rw [ex] at ey
  exact Option.some.inj ey

end Means

/-- An instruction whose result is defined appends that result, and what held before
still holds. -/
theorem snoc_result {results : List Word} {i : Inst} {v : Word}
    (hr : runBlock args block = some results) (hi : evalInst args results i = some v) :
    Means args (block ++ [i]) (.inst block.length) v ∧
      ∀ val x, Means args block val x → Means args (block ++ [i]) val x := by
  have hrun : runBlock args (block ++ [i]) = some (results ++ [v]) := by
    rw [runBlock_snoc, hr, Option.bind_some, hi]; rfl
  refine ⟨⟨_, hrun, ?_⟩, ?_⟩
  · simp [evalValue, ← runBlock_length block hr]
  · intro val x h
    obtain ⟨r, hr', h⟩ := h
    rw [hr, Option.some.injEq] at hr'
    subst hr'
    exact ⟨_, hrun, evalValue_append _ h⟩

theorem snoc_bin {op : BinOp} {a b : Value} {x y v : Word} (ha : Means args block a x)
    (hb : Means args block b y) (hv : evalBin op x y = some v) :
    Means args (block ++ [.bin op a b]) (.inst block.length) v ∧
      ∀ val z, Means args block val z → Means args (block ++ [.bin op a b]) val z := by
  obtain ⟨r, hr, ha⟩ := ha
  obtain ⟨r', hr', hb⟩ := hb
  rw [hr, Option.some.injEq] at hr'
  subst hr'
  exact snoc_result hr (by simp only [evalInst, ha, hb]; exact hv)

/-! Shifts. -/

/-- `block` runs, and every shift in it is by less than 32. -/
def ShiftsBelow (args : List Word) (block : List Inst) : Prop :=
  ∃ results, runBlock args block = some results ∧ ∀ (k : Nat) (op : BinOp) a b,
    block[k]? = some (Inst.bin op a b) → op = .shl ∨ op = .lshr →
    ∃ y, evalValue args results b = some y ∧ y.toNat < 32

theorem evalBin_shift {op : BinOp} {x y v : Word} (h : evalBin op x y = some v)
    (hop : op = .shl ∨ op = .lshr) : y.toNat < 32 := by
  by_contra hy
  obtain rfl | rfl := hop
  · simp [evalBin, hy] at h
  · simp [evalBin, hy] at h

/-- A shift by 32 or more has no result, so a block that runs has none. -/
theorem Runs.shifts : ∀ {block : List Inst}, Runs args block → ShiftsBelow args block := by
  intro block
  induction block using List.reverseRecOn with
  | nil => intro h; exact ⟨[], rfl, by simp⟩
  | append_singleton block i ih =>
    intro h
    obtain ⟨results, hr⟩ := h
    rw [runBlock_snoc] at hr
    obtain ⟨r, hrun, hr⟩ := Option.bind_eq_some_iff.mp hr
    obtain ⟨v, hv, rfl⟩ := Option.map_eq_some_iff.mp hr
    obtain ⟨r', hrun', hshifts⟩ := ih ⟨r, hrun⟩
    rw [hrun, Option.some.injEq] at hrun'
    subst hrun'
    refine ⟨r ++ [v], by rw [runBlock_snoc, hrun, Option.bind_some, hv]; rfl, ?_⟩
    intro k op a b hk hop
    by_cases hlt : k < block.length
    · rw [List.getElem?_append_left hlt] at hk
      obtain ⟨y, hy, h32⟩ := hshifts k op a b hk hop
      exact ⟨y, evalValue_append _ hy, h32⟩
    · -- the instruction just added
      rw [List.getElem?_append_right (by omega), List.getElem?_singleton] at hk
      split at hk
      · obtain rfl := Option.some.inj hk
        obtain ⟨x, -, hv⟩ := Option.bind_eq_some_iff.mp hv
        obtain ⟨y, hy, hv⟩ := Option.bind_eq_some_iff.mp hv
        exact ⟨y, evalValue_append _ hy, evalBin_shift hv hop⟩
      · cases hk

theorem Means.run {ret : Value} {x : Word} (h : Means args block ret x) :
    runFunction args block ret = some x := by
  obtain ⟨results, hr, hv⟩ := h
  rw [runFunction, hr, Option.bind_some, hv]

end Ece566.P1
