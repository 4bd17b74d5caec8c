import Ece566.LlvmIr

/- `CommonSubexpressionElimination` of project 2 (`p2.cpp`; project 3 runs the same
   code). The state of the pass is the function it works on and the counters it prints;
   `trail` records the function after each instruction that is erased, so that what holds
   all along can be said. An iterator is the address of the instruction it stands on. The
   pass fails where the C++ would dereference a null pointer or an iterator to nothing.

   LLVM's analyses are parameters: `getDomTree F b`, the children of `b` in the dominator
   tree of `F` (none when `b` has no node), and `SimplifyInstruction`. -/
namespace Ece566.Llvm

structure Pass where
  func : Func
  cseDead : Nat
  cseElim : Nat
  cseSimplify : Nat
  cseLdElim : Nat
  cseStore2Load : Nat
  cseStElim : Nat
  trail : List Func

abbrev Cse := StateT Pass Option

def Pass.start (F : Func) : Pass := ⟨F, 0, 0, 0, 0, 0, 0, []⟩

def replaceAllUsesWith (z : Nat) (v : Value) : Cse Unit :=
  modify fun p => { p with func := p.func.replaceAllUsesWith z v }

def eraseFromParent (z : Nat) : Cse Unit :=
  modify fun p => { p with
    func := p.func.eraseFromParent z
    trail := p.trail ++ [p.func.eraseFromParent z] }

/-- The instruction an iterator of block `b` stands on. -/
def deref (b : Label) (n : Nat) : Cse Instr := do
  match (← get).func.inst? b n with
  | some i => return i
  | none => failure

/-- The iterator after `n`. -/
def Func.next (F : Func) (b : Label) (n : Nat) : Option Nat :=
  ((F.ids b).dropWhile (· != n)).tail.head?

/-- `if (c) x`, with the value that stands when `c` fails. -/
def onlyIf {σ α : Type} (c : Bool) (otherwise : α) (x : StateT σ Option α) : StateT σ Option α :=
  if c then x else pure otherwise

/-! What the pass asks of an instruction. -/

def shouldCSEworkOnInstruction (i : Instr) : Bool :=
  if i.isTerminator then false
  else match i.getOpcode with
    | .load | .store | .vaArg | .call | .callBr | .alloca | .fCmp => false
    | _ => true

def sameOpcode (i1 i2 : Instr) : Bool := i1.getOpcode == i2.getOpcode

def sameType (i1 i2 : Instr) : Bool := i1.op.ty == i2.op.ty

def sameOperands (i1 i2 : Instr) : Bool := i1.operands == i2.operands

def notVolatile (i : Instr) : Bool := !i.op.volatile

def isDead (F : Func) (i : Instr) : Bool :=
  !F.hasUses i.id && match i.getOpcode with
    | .add | .fNeg | .fAdd | .sub | .fSub | .mul | .fMul | .uDiv | .sDiv | .fDiv | .uRem
    | .sRem | .fRem | .shl | .lShr | .aShr | .and | .or | .xor | .getElementPtr | .trunc
    | .zExt | .sExt | .fpToUI | .fpToSI | .uiToFP | .siToFP | .fpTrunc | .fpExt | .ptrToInt
    | .intToPtr | .bitCast | .addrSpaceCast | .iCmp | .fCmp | .phi | .select
    | .extractElement | .insertElement | .shuffleVector | .extractValue | .insertValue => true
    | _ => false

def isCall (i : Instr) : Bool := i.getOpcode == .call

def isLoad (i : Instr) : Bool := i.getOpcode == .load

def isStore (i : Instr) : Bool := i.getOpcode == .store

def sameAddress (storeInst i2 : Instr) : Bool :=
  storeInst.getPointerOperand == i2.getPointerOperand

/-- The type of the value stored is the type stored or loaded. -/
def sameDataType (storeInst i2 : Instr) : Bool :=
  storeInst.getValueOperand.map Value.ty ==
    if isStore i2 then i2.getValueOperand.map Value.ty else some i2.op.ty

/-! The sub-passes. A scan goes over the instructions from its iterator to the end of a
block; it erases none but those it has passed. -/

section
variable (b : Label) (I : Nat)

/-- `I` is of block `b`, the scan goes over block `bb`. -/
def removeCommonInstructionsIn (bb : Label) : List Nat → Cse Unit
  | [] => pure ()
  | n :: rest => do
    let i ← deref b I
    let nextInstruction ← deref bb n
    if I != n && i.isIdenticalTo nextInstruction then do
      replaceAllUsesWith n i.value
      eraseFromParent n
      modify fun p => { p with cseElim := p.cseElim + 1 }
      removeCommonInstructionsIn bb rest
    else removeCommonInstructionsIn bb rest

def eliminateRedundantLoads : List Nat → Cse Unit
  | [] => pure ()
  | n :: rest => do
    let loadInst ← deref b I
    let nextInst ← deref b n
    if sameOpcode loadInst nextInst && notVolatile nextInst && sameType loadInst nextInst &&
        sameOperands loadInst nextInst then do
      replaceAllUsesWith n loadInst.value
      eraseFromParent n
      modify fun p => { p with cseLdElim := p.cseLdElim + 1 }
      if isStore nextInst then pure () else eliminateRedundantLoads rest
    else if isStore nextInst then pure ()
    else eliminateRedundantLoads rest

/-- The result is the iterator `originalIterator`, which the erasure of the store moves on. -/
def eliminateRedundantStoreCall : List Nat → Cse (Option Nat)
  | [] => return some I
  | n :: rest => do
    let storeInst ← deref b I
    let nextInst ← deref b n
    if isStore storeInst && isLoad nextInst && notVolatile nextInst &&
        sameAddress storeInst nextInst && sameDataType storeInst nextInst then do
      match storeInst.getValueOperand with
      | none => failure
      | some v => do
        replaceAllUsesWith n v
        eraseFromParent n
        modify fun p => { p with cseStore2Load := p.cseStore2Load + 1 }
        eliminateRedundantStoreCall rest
    else if isStore storeInst && isStore nextInst && notVolatile storeInst &&
        sameAddress storeInst nextInst && sameDataType storeInst nextInst then do
      let originalIterator := (← get).func.next b I
      eraseFromParent I
      modify fun p => { p with cseStElim := p.cseStElim + 1 }
      return originalIterator
    else if isLoad nextInst || isStore nextInst || isCall nextInst then return some I
    else eliminateRedundantStoreCall rest

end

/-- The instructions of a block from an iterator on, and after it. -/
def Func.idsFrom (F : Func) (b : Label) (n : Nat) : List Nat := (F.ids b).dropWhile (· != n)

def Func.idsAfter (F : Func) (b : Label) (n : Nat) : List Nat := (F.idsFrom b n).tail

section
variable (getDomTree : Func → Label → Option (List Label))
variable (simplifyInstruction : Func → Label → Instr → Option Value)

def removeCommonInBlocks (b : Label) (I : Nat) : List Label → Cse Unit
  | [] => pure ()
  | bb_next :: rest => do
    removeCommonInstructionsIn b I bb_next ((← get).func.ids bb_next)
    removeCommonInBlocks b I rest

def removeCommonInstInDominatedBlocks (b : Label) (I : Nat) : Cse Unit := do
  match getDomTree (← get).func b with
  | some children => removeCommonInBlocks b I children
  | none => failure

def basicCSEPass (b : Label) (I : Nat) : Cse Unit := do
  let i ← deref b I
  if shouldCSEworkOnInstruction i then do
    removeCommonInstructionsIn b I b ((← get).func.idsFrom b I)
    removeCommonInstInDominatedBlocks getDomTree b I
  else pure ()

/-- One turn of the loop over the instructions of block `b`: the iterator it leaves. -/
def cseInst (b : Label) (instIter : Nat) : Cse (Option Nat) := do
  let i ← deref b instIter
  let here ← get
  if isDead here.func i then do
    eraseFromParent instIter
    modify fun p => { p with cseDead := p.cseDead + 1 }
    return here.func.next b instIter
  else match simplifyInstruction here.func b i with
  | some simplified => do
    replaceAllUsesWith instIter simplified
    eraseFromParent instIter
    modify fun p => { p with cseSimplify := p.cseSimplify + 1 }
    return here.func.next b instIter
  | none => do
    basicCSEPass getDomTree b instIter
    onlyIf (isLoad i) ⟨⟩ do
      eliminateRedundantLoads b instIter ((← get).func.idsAfter b instIter)
    let moved ← onlyIf (isStore i) (some instIter) do
      eliminateRedundantStoreCall b instIter ((← get).func.idsAfter b instIter)
    if moved = some instIter then return (← get).func.next b instIter
    else return moved

/-- The loop over the instructions of a block, from an iterator to the end. -/
def cseBlock (b : Label) : Nat → Option Nat → Cse Unit
  | _, none => pure ()
  | 0, some _ => failure
  | fuel + 1, some n => do cseBlock b fuel (← cseInst getDomTree simplifyInstruction b n)

/-- The loop over the blocks of a function, in layout order. -/
def cseBlocks : List Label → Cse Unit
  | [] => pure ()
  | b :: rest => do
    let here ← get
    cseBlock getDomTree simplifyInstruction b (here.func.ids b).length (here.func.ids b).head?
    cseBlocks rest

/-- The loop over the functions of a module: what they become. -/
def CommonSubexpressionElimination : Module → Cse Module
  | [] => return []
  | F :: rest => do
    modify fun p => { p with func := F, trail := p.trail ++ [F] }
    cseBlocks getDomTree simplifyInstruction F.blocks
    let done ← get
    return done.func :: (← CommonSubexpressionElimination rest)

end

end Ece566.Llvm
