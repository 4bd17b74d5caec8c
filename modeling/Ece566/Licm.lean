import Ece566.CsePass

/- `LoopInvariantCodeMotion` of project 3 (`p3.cpp`), up to its call of
   `CommonSubexpressionElimination`. The state of the pass is the function it works on and
   the counters it prints; `trail` records the function after each move. LLVM's analyses
   are a parameter (`LoopAnalyses`): the loops of a function, the preheader of a loop, the
   dominator tree, and which instructions `makeLoopInvariant` agrees to move. -/
namespace Ece566.Llvm

/-- A natural loop, with the blocks of its subloops among its own. -/
inductive Loop where
  | mk (header : Label) (blocks : List Label) (subLoops : List Loop)

namespace Loop

def header : Loop → Label
  | mk header _ _ => header

def getBlocks : Loop → List Label
  | mk _ blocks _ => blocks

def contains (L : Loop) (b : Label) : Bool := L.getBlocks.contains b

end Loop

structure LoopAnalyses where
  loops : Func → List Loop
  getLoopPreheader : Func → Loop → Option Label
  dominates : Func → Label → Label → Bool
  isHoistable : Func → Loop → Instr → Bool

structure Hoisting where
  func : Func
  numLoops : Nat
  numLoopsNoStore : Nat
  numLoopsNoLoad : Nat
  numLoopsNoStoreWithLoad : Nat
  numLoopsWithCall : Nat
  licmBasic : Nat
  licmLoadHoist : Nat
  licmStoreSink : Nat
  licmNoPreheader : Nat
  trail : List Func

abbrev Licm := StateT Hoisting Option

def Hoisting.start (F : Func) : Hoisting := ⟨F, 0, 0, 0, 0, 0, 0, 0, 0, 0, []⟩

/-! What the pass asks of a loop. -/

/-- Where `v` is an instruction, its block is one of the loop's. -/
def isInside (F : Func) (L : Loop) : Value → Bool
  | .inst id _ => L.getBlocks.any fun b => (F.ids b).contains id
  | _ => false

def isLoopInvariant (F : Func) (L : Loop) (v : Value) : Bool := !isInside F L v

def hasLoopInvariantOperands (F : Func) (L : Loop) (i : Instr) : Bool :=
  i.operands.all (isLoopInvariant F L)

def getExitBlocks (F : Func) (L : Loop) : List Label :=
  L.getBlocks.flatMap fun b => ((F.insts b).filter Instr.isTerminator).flatMap fun t =>
    t.blocks.filter fun c => !L.contains c

def isAllocaInst (F : Func) : Value → Bool
  | .inst id _ => F.all.any fun i => i.id == id && i.getOpcode == .alloca
  | _ => false

def isGlobalVariable : Value → Bool
  | .global _ _ => true
  | _ => false

/-- LLVM's `isIdempotent`. -/
def isIdempotent (i : Instr) : Bool := i.getOpcode == .and || i.getOpcode == .or

def isSameAddress (F : Func) (addr1 addr2 : Value) : Bool :=
  if isAllocaInst F addr1 then addr1 == addr2
  else if isGlobalVariable addr1 then addr1 == addr2
  else true

section
variable (A : LoopAnalyses)

/-- `b` is the block of the instruction asked about. -/
def dominatesAllExits (F : Func) (b : Label) (L : Loop) : Bool :=
  (getExitBlocks F L).all fun exitBlock => A.dominates F b exitBlock

/-- The two flags of the scan over a loop. -/
structure Seen where
  same : Bool
  any : Bool

/-- What an instruction of the loop is to the load at `loadAddr`. -/
def seeStores (F : Func) (loadAddr : Value) (seen : Seen) (i : Instr) : Seen :=
  match i.getOpcode with
  | .store => ⟨seen.same || i.getPointerOperand.any fun a => isSameAddress F a loadAddr, true⟩
  | .call => if !isIdempotent i then ⟨true, true⟩ else seen
  | _ => seen

/-- What an instruction of the loop is to the store `store` at `storeAddr`. -/
def seeLoads (F : Func) (store : Instr) (storeAddr : Value) (seen : Seen) (i : Instr) : Seen :=
  match i.getOpcode with
  | .load => ⟨seen.same || i.getPointerOperand.any fun a => isSameAddress F a storeAddr, true⟩
  | .store =>
    if i.id == store.id then seen
    else ⟨seen.same || i.getPointerOperand.any fun a => isSameAddress F a storeAddr, true⟩
  | .call => if isIdempotent i then ⟨true, true⟩ else seen
  | _ => seen

def scanLoop (F : Func) (L : Loop) (see : Seen → Instr → Seen) : Seen :=
  (L.getBlocks.flatMap F.insts).foldl see ⟨false, false⟩

/-- The end of both tests: `same` and `any` are the flags for the address `addr`. -/
def mayLeave (F : Func) (L : Loop) (b : Label) (addr : Value) (seen : Seen) : Bool :=
  let isAllocaInsideLoop := isAllocaInst F addr && isInside F L addr
  if isGlobalVariable addr && !seen.same then true
  else if isAllocaInst F addr && !seen.same && !isAllocaInsideLoop then true
  else !seen.any && isLoopInvariant F L addr && dominatesAllExits A F b L

def canMoveStoreOutOfLoop (F : Func) (L : Loop) (b : Label) (store : Instr) : Bool :=
  match store.getPointerOperand with
  | none => false
  | some storeAddr =>
    if store.op.volatile then false
    else mayLeave A F L b storeAddr (scanLoop F L (seeLoads F store storeAddr))

def canMoveLoadOutOfLoop (F : Func) (L : Loop) (b : Label) (load : Instr) : Bool :=
  match load.getPointerOperand with
  | none => false
  | some loadAddr =>
    if load.op.volatile then false
    else mayLeave A F L b loadAddr (scanLoop F L (seeStores F loadAddr))

/-- The three cases in which an address lets its access leave the loop. -/
theorem mayLeave_iff {F : Func} {L : Loop} {b : Label} {addr : Value} {seen : Seen} :
    mayLeave A F L b addr seen = true ↔
      (isGlobalVariable addr = true ∧ seen.same = false) ∨
      (isAllocaInst F addr = true ∧ seen.same = false ∧ isInside F L addr = false) ∨
      (seen.any = false ∧ isInside F L addr = false ∧ dominatesAllExits A F b L = true) := by
  unfold mayLeave isLoopInvariant
  cases isGlobalVariable addr <;> cases isAllocaInst F addr <;> cases isInside F L addr <;>
    cases seen.same <;> cases seen.any <;> simp

theorem canMoveLoadOutOfLoop_iff {F : Func} {L : Loop} {b : Label} {load : Instr} :
    canMoveLoadOutOfLoop A F L b load = true ↔ ∃ loadAddr, load.getPointerOperand = some loadAddr ∧
      load.op.volatile = false ∧
      mayLeave A F L b loadAddr (scanLoop F L (seeStores F loadAddr)) = true := by
  unfold canMoveLoadOutOfLoop
  cases load.getPointerOperand <;> cases load.op.volatile <;> simp

end

/-! Moving an instruction before the terminator of a block. -/

def insertLast (i : Instr) (l : List Instr) : List Instr := l.dropLast ++ i :: l.getLast?.toList

def Func.moveBefore (F : Func) (i : Instr) (p : Label) : Func :=
  { F with insts := fun b =>
      let rest := (F.insts b).filter fun j => j.id != i.id
      if b = p then insertLast i rest else rest }

def moveBefore (i : Instr) (p : Label) : Licm Unit :=
  modify fun s => { s with func := s.func.moveBefore i p, trail := s.trail ++ [s.func.moveBefore i p] }

/-- The instruction an iterator of block `b` stands on. -/
def instAt (b : Label) (n : Nat) : Licm Instr := do
  match (← get).func.inst? b n with
  | some i => return i
  | none => failure

section
variable (A : LoopAnalyses)

def makeLoopInvariant (L : Loop) (I : Instr) : Licm Bool := do
  let here ← get
  if A.isHoistable here.func L I then
    match A.getLoopPreheader here.func L with
    | some p => do
      moveBefore I p
      return true
    | none => return false
  else return false

def moveLoopInvariants (L : Loop) (b : Label) (n : Nat) : Licm Unit := do
  let I ← instAt b n
  let here ← get
  let madeLoopInvariant ← onlyIf (hasLoopInvariantOperands here.func L I) false (makeLoopInvariant A L I)
  if madeLoopInvariant then
    modify fun s => { s with licmBasic := s.licmBasic + 1 }
  else if isLoad I then
    if canMoveLoadOutOfLoop A here.func L b I then
      match A.getLoopPreheader here.func L with
      | some preHeader => do
        moveBefore I preHeader
        modify fun s => { s with licmLoadHoist := s.licmLoadHoist + 1 }
      | none => failure
    else return
  else if isStore I then
    if canMoveStoreOutOfLoop A here.func L b I then
      modify fun s => { s with licmStoreSink := s.licmStoreSink + 1 }
    else return
  else return

/-- What `loopInvariantCodeMotion` counts in a loop. -/
structure Counts where
  num_stores : Nat
  num_loads : Nat
  num_calls : Nat

def Counts.count (c : Counts) (I : Instr) : Counts :=
  if isLoad I then { c with num_loads := c.num_loads + 1 }
  else if isStore I then { c with num_stores := c.num_stores + 1 }
  else if isCall I then { c with num_calls := c.num_calls + 1 }
  else c

/-- The loop over the instructions of a block; each turn moves none but its own. -/
def moveInsts (L : Loop) (b : Label) : List Nat → Counts → Licm Counts
  | [], c => return c
  | n :: rest, c => do
    let I ← instAt b n
    moveLoopInvariants A L b n
    moveInsts L b rest (c.count I)

def moveBlocks (L : Loop) : List Label → Counts → Licm Counts
  | [], c => return c
  | b :: rest, c => do
    let here ← get
    moveBlocks L rest (← moveInsts A L b (here.func.ids b) c)

def loopInvariantCodeMotion (L : Loop) : Licm Unit := do
  modify fun s => { s with numLoops := s.numLoops + 1 }
  let here ← get
  match A.getLoopPreheader here.func L with
  | none => modify fun s => { s with licmNoPreheader := s.licmNoPreheader + 1 }
  | some _ =>
    if L.getBlocks.isEmpty then return
    else do
      let c ← moveBlocks A L L.getBlocks ⟨0, 0, 0⟩
      modify fun s => { s with
        numLoopsWithCall := s.numLoopsWithCall + if c.num_calls = 0 then 0 else 1
        numLoopsNoStore := s.numLoopsNoStore + if c.num_stores = 0 then 1 else 0
        numLoopsNoLoad := s.numLoopsNoLoad + if c.num_loads = 0 then 1 else 0
        numLoopsNoStoreWithLoad := s.numLoopsNoStoreWithLoad +
          if c.num_stores = 0 && c.num_loads > 0 then 1 else 0 }

mutual

def workOnNestedLoops : Loop → Licm Unit
  | .mk header blocks subLoops => do
    workOnSubLoops subLoops
    loopInvariantCodeMotion A (.mk header blocks subLoops)

def workOnSubLoops : List Loop → Licm Unit
  | [] => return
  | L :: rest => do
    workOnNestedLoops L
    workOnSubLoops rest

end

/-- The loop over the functions of a module: what they become. -/
def LoopInvariantCodeMotion : Module → Licm Module
  | [] => return []
  | F :: rest => do
    modify fun s => { s with func := F, trail := s.trail ++ [F] }
    onlyIf (!F.blocks.isEmpty) ⟨⟩ (workOnSubLoops A (A.loops F))
    let done ← get
    return done.func :: (← LoopInvariantCodeMotion rest)

end

end Ece566.Llvm
