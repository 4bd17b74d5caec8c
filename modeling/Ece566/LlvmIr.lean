import Mathlib

/- LLVM IR as the passes see it. Values are constants, globals, arguments and
   instructions; an instruction is known by its address, here its `id`, and refers to
   the instructions it uses by theirs. What an instruction is apart from its operands
   (opcode, types, volatility and every other attribute) is its `Op`. A function is its
   blocks in layout order, each a list of instructions. -/
namespace Ece566.Llvm

abbrev Ty := Nat

abbrev Label := Nat

inductive Opcode where
  | ret | br | switch | indirectBr | invoke | resume | unreachable | cleanupRet | catchRet
  | catchSwitch | callBr
  | fNeg
  | add | fAdd | sub | fSub | mul | fMul | uDiv | sDiv | fDiv | uRem | sRem | fRem
  | shl | lShr | aShr | and | or | xor
  | alloca | load | store | getElementPtr | fence | atomicCmpXchg | atomicRMW
  | trunc | zExt | sExt | fpToUI | fpToSI | uiToFP | siToFP | fpTrunc | fpExt
  | ptrToInt | intToPtr | bitCast | addrSpaceCast
  | cleanupPad | catchPad
  | iCmp | fCmp | phi | call | select | userOp1 | userOp2 | vaArg
  | extractElement | insertElement | shuffleVector | extractValue | insertValue
  | landingPad | freeze
  deriving DecidableEq, Repr

namespace Opcode

def isTerminator : Opcode → Bool
  | ret | br | switch | indirectBr | invoke | resume | unreachable | cleanupRet | catchRet
  | catchSwitch | callBr => true
  | _ => false

/-- The opcodes whose result depends on the operand values only, phi apart. -/
def isPure : Opcode → Bool
  | fNeg | add | fAdd | sub | fSub | mul | fMul | uDiv | sDiv | fDiv | uRem | sRem | fRem
  | shl | lShr | aShr | and | or | xor | getElementPtr
  | trunc | zExt | sExt | fpToUI | fpToSI | uiToFP | siToFP | fpTrunc | fpExt
  | ptrToInt | intToPtr | bitCast | addrSpaceCast | iCmp | fCmp | select
  | extractElement | insertElement | shuffleVector | extractValue | insertValue => true
  | _ => false

/-- The opcodes whose instructions have a value that can be an operand. -/
def hasValue : Opcode → Bool
  | ret | br | switch | indirectBr | resume | unreachable | cleanupRet | catchRet | store
  | fence => false
  | _ => true

end Opcode

/-- A value with its type. -/
inductive Value where
  | const (c : Nat) (ty : Ty)
  | global (g : Nat) (ty : Ty)
  | arg (n : Nat) (ty : Ty)
  | inst (id : Nat) (ty : Ty)
  deriving DecidableEq, Repr

def Value.ty : Value → Ty
  | .const _ ty | .global _ ty | .arg _ ty | .inst _ ty => ty

def Value.refersTo (z : Nat) : Value → Bool
  | .inst id _ => id == z
  | _ => false

/-- An instruction without its operands: `expects` are the types its operand positions
require, `attrs` stands for whatever else `isIdenticalTo` compares (predicate, flags,
alignment, ordering, indices). -/
structure Op where
  opcode : Opcode
  ty : Ty
  expects : List Ty
  volatile : Bool
  attrs : Nat
  deriving DecidableEq, Repr

/-- `blocks` are the successors of a terminator and the incoming blocks of a phi. -/
structure Instr where
  id : Nat
  op : Op
  operands : List Value
  blocks : List Label
  deriving DecidableEq, Repr

structure Func where
  entry : Label
  blocks : List Label
  insts : Label → List Instr

abbrev Module := List Func

namespace Instr

def getOpcode (i : Instr) : Opcode := i.op.opcode

def isTerminator (i : Instr) : Bool := i.op.opcode.isTerminator

def isPhi (i : Instr) : Bool := i.op.opcode == .phi

/-- The instruction as an operand. -/
def value (i : Instr) : Value := .inst i.id i.op.ty

/-- The pointer a load or a store goes through. -/
def getPointerOperand (i : Instr) : Option Value :=
  match i.op.opcode with
  | .load => i.operands[0]?
  | .store => i.operands[1]?
  | _ => none

def getValueOperand (i : Instr) : Option Value :=
  match i.op.opcode with
  | .store => i.operands[0]?
  | _ => none

/-- LLVM's `isIdenticalTo`: same opcode, types, operands, incoming blocks and
attributes. -/
def isIdenticalTo (i j : Instr) : Bool :=
  i.op.opcode == j.op.opcode && i.op.ty == j.op.ty && i.op.volatile == j.op.volatile &&
    i.op.attrs == j.op.attrs && i.operands == j.operands && i.blocks == j.blocks

end Instr

/-! Replacing uses. -/

def Value.replace (o : Value) (z : Nat) (v : Value) : Value := if o.refersTo z then v else o

def Instr.replace (i : Instr) (z : Nat) (v : Value) : Instr :=
  { i with operands := i.operands.map fun o => o.replace z v }

namespace Func

def ids (F : Func) (b : Label) : List Nat := (F.insts b).map Instr.id

/-- All instructions, in layout order. -/
def all (F : Func) : List Instr := F.blocks.flatMap F.insts

def inst? (F : Func) (b : Label) (id : Nat) : Option Instr :=
  (F.insts b).find? fun i => i.id == id

def hasUses (F : Func) (z : Nat) : Bool := F.all.any fun i => i.operands.any (Value.refersTo z)

def replaceAllUsesWith (F : Func) (z : Nat) (v : Value) : Func :=
  { F with insts := fun b => (F.insts b).map fun i => i.replace z v }

def eraseFromParent (F : Func) (z : Nat) : Func :=
  { F with insts := fun b => (F.insts b).filter fun i => i.id != z }

/-- The edges of the control-flow graph. -/
def Edge (F : Func) (a b : Label) : Prop := ∃ t ∈ F.insts a, t.isTerminator = true ∧ b ∈ t.blocks

end Func

/-! What the edits do to an instruction and to a block. -/

variable {F : Func} {z : Nat} {v : Value} {i : Instr} {b : Label}

@[simp] theorem replace_id : (i.replace z v).id = i.id := rfl
@[simp] theorem replace_op : (i.replace z v).op = i.op := rfl
@[simp] theorem replace_blocks : (i.replace z v).blocks = i.blocks := rfl
@[simp] theorem replace_operands :
    (i.replace z v).operands = i.operands.map (fun o => o.replace z v) := rfl
@[simp] theorem replace_isPhi : (i.replace z v).isPhi = i.isPhi := rfl
@[simp] theorem replace_isTerminator : (i.replace z v).isTerminator = i.isTerminator := rfl

@[simp] theorem replaceAllUsesWith_insts :
    (F.replaceAllUsesWith z v).insts b = (F.insts b).map (fun i => i.replace z v) := rfl

@[simp] theorem eraseFromParent_insts :
    (F.eraseFromParent z).insts b = (F.insts b).filter fun i => i.id != z := rfl

@[simp] theorem replaceAllUsesWith_ids : (F.replaceAllUsesWith z v).ids b = F.ids b := by
  simp only [Func.ids, replaceAllUsesWith_insts, List.map_map]
  rfl

@[simp] theorem eraseFromParent_ids :
    (F.eraseFromParent z).ids b = (F.ids b).filter fun d => d != z := by
  simp only [Func.ids, eraseFromParent_insts, List.filter_map]
  rfl

theorem refersTo_iff {o : Value} : o.refersTo z = true ↔ ∃ ty, o = .inst z ty := by
  cases o <;> simp [Value.refersTo]

theorem replace_of_not_refersTo {o : Value} (h : o.refersTo z = false) : o.replace z v = o := by
  rw [Value.replace, h]; rfl

/-- Replacing uses keeps a terminator's successors. -/
theorem replaceAllUsesWith_edge : (F.replaceAllUsesWith z v).Edge = F.Edge := by
  funext a b
  refine propext ⟨?_, ?_⟩
  · intro h
    obtain ⟨t, ht, hterm, hb⟩ := h
    obtain ⟨t₀, ht₀, rfl⟩ := List.mem_map.mp ht
    exact ⟨t₀, ht₀, hterm, hb⟩
  · intro h
    obtain ⟨t, ht, hterm, hb⟩ := h
    exact ⟨t.replace z v, List.mem_map.mpr ⟨t, ht, rfl⟩, hterm, hb⟩

/-- Erasing anything but a terminator keeps the control-flow graph. -/
theorem eraseFromParent_edge (h : ∀ a, ∀ t ∈ F.insts a, t.isTerminator = true → t.id ≠ z) :
    (F.eraseFromParent z).Edge = F.Edge := by
  funext a b
  refine propext ⟨?_, ?_⟩
  · intro h
    obtain ⟨t, ht, hterm, hb⟩ := h
    exact ⟨t, (List.mem_filter.mp ht).1, hterm, hb⟩
  · intro h
    obtain ⟨t, ht, hterm, hb⟩ := h
    exact ⟨t, List.mem_filter.mpr ⟨ht, by simpa using h a t ht hterm⟩, hterm, hb⟩

theorem mem_ids {d : Nat} : d ∈ F.ids b ↔ ∃ i ∈ F.insts b, i.id = d := List.mem_map

theorem inst?_some {d : Nat} (h : F.inst? b d = some i) : i ∈ F.insts b ∧ i.id = d := by
  refine ⟨List.mem_of_find?_eq_some h, ?_⟩
  simpa using List.find?_some h

/-- In a block where no two instructions have one id. -/
theorem inst?_of_nodup (h : (F.ids b).Nodup) (hi : i ∈ F.insts b) : F.inst? b i.id = some i := by
  cases hf : F.inst? b i.id with
  | none => exact absurd (List.find?_eq_none.mp hf i hi) (by simp)
  | some j =>
    obtain ⟨hj, e⟩ := inst?_some hf
    rw [List.inj_on_of_nodup_map h hj hi e]

theorem isIdenticalTo_iff {i j : Instr} : i.isIdenticalTo j = true ↔
    i.op.opcode = j.op.opcode ∧ i.op.ty = j.op.ty ∧ i.op.volatile = j.op.volatile ∧
      i.op.attrs = j.op.attrs ∧ i.operands = j.operands ∧ i.blocks = j.blocks := by
  simp [Instr.isIdenticalTo, and_assoc]

end Ece566.Llvm
