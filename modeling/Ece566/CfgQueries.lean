import Ece566.Walk

/- The C interface to the control-flow graph (`cfg.cpp` of project 2). LLVM gives the
   successors of a block as its terminator names them and its predecessors as its uses
   come, so a switch or a conditional branch that names a block twice makes it a
   successor twice, and a predecessor of it twice. What is asked for next is looked for
   from the beginning each time. -/
namespace Ece566.Queries

open Walk

/-- What the iterators of LLVM run over. -/
structure Cfg (Block : Type) where
  successors : Block → List Block
  predecessors : Block → List Block

/-- An iterator that is not at the end, and is there after one step. -/
def single {Block : Type} : List Block → Bool
  | [] => false
  | _ :: rest => rest.isEmpty

theorem single_iff {Block : Type} (l : List Block) : single l = true ↔ l.length = 1 := by
  cases l with
  | nil => simp [single]
  | cons b rest => simp [single]

/-- The loop that returns in its first iteration. -/
def firstLoop {Block : Type} : List Block → Option Block
  | [] => none
  | b :: _ => some b

theorem firstLoop_eq {Block : Type} (l : List Block) : firstLoop l = l.head? := by cases l <;> rfl

def countLoop {Block : Type} : List Block → Nat → Nat
  | [], count => count
  | _ :: rest, count => countLoop rest (count + 1)

theorem countLoop_eq {Block : Type} (l : List Block) (count : Nat) : countLoop l count = count + l.length := by
  induction l generalizing count with
  | nil => rfl
  | cons _ l ih => rw [countLoop, ih, List.length_cons, Nat.add_assoc, Nat.add_comm 1]

section
variable {Block : Type} [DecidableEq Block]

/-- The loop with the flag `next`. -/
def nextLoop (b : Block) : List Block → Bool → Option Block
  | [], _ => none
  | c :: rest, next => if next then some c else nextLoop b rest (decide (c = b))

variable (G : Cfg Block) (BB : Block)

def LLVMSinglePredecessor : Bool := single (G.predecessors BB)

def LLVMSingleSuccessor : Bool := single (G.successors BB)

def LLVMGetFirstSuccessor : Option Block := firstLoop (G.successors BB)

def LLVMGetNextSuccessor (Succ : Block) : Option Block := nextLoop Succ (G.successors BB) false

def LLVMGetFirstPredecessor : Option Block := firstLoop (G.predecessors BB)

def LLVMGetNextPredecessor (Pred : Block) : Option Block := nextLoop Pred (G.predecessors BB) false

def LLVMCountPredecessors : Nat := countLoop (G.predecessors BB) 0

theorem nextLoop_eq (b : Block) (l : List Block) : nextLoop b l false = afterFirst b l := by
  induction l with
  | nil => rfl
  | cons c l ih =>
    rw [nextLoop, afterFirst, if_neg Bool.false_ne_true]
    by_cases h : c = b
    · rw [if_pos h, decide_eq_true h]
      cases l <;> rfl
    · rw [if_neg h, decide_eq_false h, ih]

theorem loops_cover_iff (l : List Block) :
    Covers (firstLoop l) (fun b => nextLoop b l false) l ↔ l.Nodup := by
  simp only [firstLoop_eq, nextLoop_eq]
  exact covers_iff

omit [DecidableEq Block] in
/-- Both count an edge each time it is there. -/
theorem LLVMSinglePredecessor_iff :
    LLVMSinglePredecessor G BB = true ↔ LLVMCountPredecessors G BB = 1 := by
  rw [LLVMSinglePredecessor, LLVMCountPredecessors, countLoop_eq, Nat.zero_add]
  exact single_iff _

omit [DecidableEq Block] in
theorem LLVMSingleSuccessor_iff : LLVMSingleSuccessor G BB = true ↔ (G.successors BB).length = 1 :=
  single_iff _

/-- **When enumerating the successors and the predecessors of a block ends**, and has met them
all: if and only if none of them is there twice. -/
theorem neighbours_cover_iff :
    (Covers (LLVMGetFirstSuccessor G BB) (LLVMGetNextSuccessor G BB) (G.successors BB) ↔
      (G.successors BB).Nodup) ∧
    (Covers (LLVMGetFirstPredecessor G BB) (LLVMGetNextPredecessor G BB) (G.predecessors BB) ↔
      (G.predecessors BB).Nodup) :=
  ⟨loops_cover_iff _, loops_cover_iff _⟩

end

/-- Block 0 ends in a conditional branch with both targets 1. -/
def bothTargets : Cfg Nat where
  successors
    | 0 => [1, 1]
    | _ => []
  predecessors
    | 1 => [0, 0]
    | _ => []

/-- The enumerations give block 1, and block 0, for ever. -/
theorem bothTargets_endless :
    (∀ n, walk (LLVMGetFirstSuccessor bothTargets 0) (LLVMGetNextSuccessor bothTargets 0) n = some 1) ∧
    (∀ n, walk (LLVMGetFirstPredecessor bothTargets 1) (LLVMGetNextPredecessor bothTargets 1) n =
      some 0) ∧
    ¬ Covers (LLVMGetFirstSuccessor bothTargets 0) (LLVMGetNextSuccessor bothTargets 0)
      (bothTargets.successors 0) ∧
    ¬ Covers (LLVMGetFirstPredecessor bothTargets 1) (LLVMGetNextPredecessor bothTargets 1)
      (bothTargets.predecessors 1) := by
  have hsucc : ∀ n, walk (LLVMGetFirstSuccessor bothTargets 0)
      (LLVMGetNextSuccessor bothTargets 0) n = some 1 := by
    intro n
    induction n with
    | zero => rfl
    | succ n ih => rw [walk, ih]; rfl
  have hpred : ∀ n, walk (LLVMGetFirstPredecessor bothTargets 1)
      (LLVMGetNextPredecessor bothTargets 1) n = some 0 := by
    intro n
    induction n with
    | zero => rfl
    | succ n ih => rw [walk, ih]; rfl
  refine ⟨hsucc, hpred, fun h => ?_, fun h => ?_⟩
  · obtain ⟨n, hn⟩ := h.ends
    rw [hsucc] at hn
    cases hn
  · obtain ⟨n, hn⟩ := h.ends
    rw [hpred] at hn
    cases hn

end Ece566.Queries
