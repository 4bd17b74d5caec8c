import Mathlib.Data.Finset.Sort
import Ece566.CfgQueries

/- The C interfaces to worklists and to loops (`worklist.cpp` and `loop.cpp` of project 2). A
   worklist is a `std::set` of values, in the order of their addresses: a value that is in it
   is not put in again, and the one that is popped is the least (`pops_eq`). Whatever is
   inserted and popped in between, no value is lost and none is handed out more often than it
   has been inserted (`run_accounts`). The blocks of a loop and its exit blocks are handed out
   as worklists, so a block that several edges leave to is handed out once. -/
namespace Ece566.LoopQueries

open Walk

section
variable {Value : Type} [LinearOrder Value]

/-! Worklists. -/

def worklistCreate : Finset Value := ∅

def worklistInsert (w : Finset Value) (val : Value) : Finset Value := insert val w

def worklistEmpty (w : Finset Value) : Bool := w.card == 0

/-- The value at `begin()`, or null. -/
def worklistTop (w : Finset Value) : Option Value := (w.sort (· ≤ ·)).head?

def worklistPop (w : Finset Value) : Option Value × Finset Value :=
  match worklistTop w with
  | some ret => (some ret, w.erase ret)
  | none => (none, w)

/-- The loops that insert what an iterator runs over. -/
def insertAll : List Value → Finset Value → Finset Value
  | [], w => w
  | val :: rest, w => insertAll rest (worklistInsert w val)

/-- The instructions of a function, given block by block. -/
def worklistForFunction (blocks : List (List Value)) : Finset Value :=
  insertAll blocks.flatten worklistCreate

def worklistForBasicblock (insts : List Value) : Finset Value := insertAll insts worklistCreate

/-- What LLVM gives for a loop: its blocks, and for each edge that leaves it the block it leads
to. -/
structure Loop (Block : Type) where
  blocks : List Block
  exits : List Block
  deriving DecidableEq, Repr

def LLVMGetBlocksInLoop (L : Loop Value) : Finset Value := insertAll L.blocks worklistCreate

def LLVMGetExitBlocks (L : Loop Value) : Finset Value := insertAll L.exits worklistCreate

/-- What `n` calls of `worklist_pop` return. -/
def pops : Nat → Finset Value → List (Option Value)
  | 0, _ => []
  | n + 1, w => (worklistPop w).1 :: pops n (worklistPop w).2

/-- A call that changes the worklist. -/
inductive Op (Value : Type) where
  | insert (val : Value)
  | pop

/-- The worklist after these calls, and what the pops have returned. -/
def run : List (Op Value) → Finset Value → Finset Value × List (Option Value)
  | [], w => (w, [])
  | .insert val :: ops, w => run ops (worklistInsert w val)
  | .pop :: ops, w => ((run ops (worklistPop w).2).1, (worklistPop w).1 :: (run ops (worklistPop w).2).2)

def inserted : List (Op Value) → List Value
  | [] => []
  | .insert val :: ops => val :: inserted ops
  | .pop :: ops => inserted ops

variable {w : Finset Value} {v x : Value}

/-! What a pop does. -/

theorem sort_cons {l : List Value} (h : w.sort (· ≤ ·) = x :: l) :
    x ∈ w ∧ (w.erase x).sort (· ≤ ·) = l := by
  have hx : x ∈ w := by
    rw [← Finset.mem_sort (· ≤ ·), h]
    exact List.mem_cons_self
  have hle : ∀ b ∈ w.erase x, x ≤ b := by
    intro b hb
    have hsorted := Finset.pairwise_sort w (· ≤ ·)
    have hmem : b ∈ x :: l := by
      rw [← h, Finset.mem_sort]
      exact Finset.mem_of_mem_erase hb
    rw [h] at hsorted
    exact (List.mem_cons.mp hmem).elim (fun e => e ▸ le_refl x) (List.rel_of_pairwise_cons hsorted)
  have hinsert := Finset.sort_insert (· ≤ ·) hle (Finset.notMem_erase x w)
  rw [Finset.insert_erase hx, h] at hinsert
  exact ⟨hx, (List.cons.inj hinsert).2.symm⟩

theorem sort_nil (h : w.sort (· ≤ ·) = []) : w = ∅ := by
  rw [← Finset.sort_toFinset w (· ≤ ·), h]
  rfl

/-- A pop takes the first value in the order of the addresses. -/
theorem worklistPop_eq : (worklistPop w).1 = (w.sort (· ≤ ·)).head? ∧
    (worklistPop w).2.sort (· ≤ ·) = (w.sort (· ≤ ·)).tail := by
  rw [worklistPop, worklistTop]
  cases h : w.sort (· ≤ ·) with
  | nil => exact ⟨rfl, h⟩
  | cons x l => exact ⟨rfl, (sort_cons h).2⟩

theorem worklistPop_cases : (w = ∅ ∧ worklistPop w = (none, ∅)) ∨
    ∃ x ∈ w, (∀ b ∈ w, x ≤ b) ∧ worklistPop w = (some x, w.erase x) := by
  rw [worklistPop, worklistTop]
  cases h : w.sort (· ≤ ·) with
  | nil =>
    obtain rfl := sort_nil h
    exact .inl ⟨rfl, rfl⟩
  | cons x l =>
    refine .inr ⟨x, (sort_cons h).1, fun b hb => ?_, rfl⟩
    have hsorted := Finset.pairwise_sort w (· ≤ ·)
    rw [← Finset.mem_sort (· ≤ ·), h] at hb
    rw [h] at hsorted
    exact (List.mem_cons.mp hb).elim (fun e => e ▸ le_refl x) (List.rel_of_pairwise_cons hsorted)

/-- A loop that pops until the worklist is empty meets no null. -/
theorem worklistEmpty_iff : worklistEmpty w = true ↔ (worklistPop w).1 = none := by
  obtain ⟨rfl, hpop⟩ | ⟨x, hx, -, hpop⟩ := @worklistPop_cases _ _ w
  · rw [hpop]
    exact ⟨fun _ => rfl, fun _ => rfl⟩
  · rw [hpop]
    simp [worklistEmpty, Finset.ne_empty_of_mem hx]

/-- The pops return the values in the order of their addresses, and then null. -/
theorem pops_eq (n : Nat) : ∀ w : Finset Value,
    pops n w = (List.range n).map fun i => (w.sort (· ≤ ·))[i]? := by
  induction n with
  | zero => exact fun _ => rfl
  | succ n ih =>
    intro w
    obtain ⟨h₁, h₂⟩ := @worklistPop_eq _ _ w
    rw [pops, ih, h₁, h₂, List.range_succ_eq_map, List.map_cons, List.map_map, List.head?_eq_getElem?]
    refine congrArg _ (List.map_congr_left fun i _ => ?_)
    rw [Function.comp_apply, List.getElem?_tail]

theorem insertAll_eq (l : List Value) : ∀ w : Finset Value, insertAll l w = w ∪ l.toFinset := by
  induction l with
  | nil => simp [insertAll]
  | cons val l ih =>
    intro w
    rw [insertAll, ih, worklistInsert, List.toFinset_cons, Finset.insert_union, Finset.union_insert]

theorem pops_insertAll (l : List Value) (n : Nat) : pops n (insertAll l worklistCreate) =
    (List.range n).map fun i => (l.toFinset.sort (· ≤ ·))[i]? := by
  rw [pops_eq, insertAll_eq, worklistCreate, Finset.empty_union]

/-- **The worklists that are made** of a function, a block or a loop are handed out completely: each
value once, in the order of the addresses, and then null. -/
theorem pops_made (n : Nat) (blocks : List (List Value)) (insts : List Value) (L : Loop Value) :
    pops n (worklistForFunction blocks) =
        (List.range n).map (fun i => (blocks.flatten.toFinset.sort (· ≤ ·))[i]?) ∧
      pops n (worklistForBasicblock insts) =
        (List.range n).map (fun i => (insts.toFinset.sort (· ≤ ·))[i]?) ∧
      pops n (LLVMGetBlocksInLoop L) =
        (List.range n).map (fun i => (L.blocks.toFinset.sort (· ≤ ·))[i]?) ∧
      pops n (LLVMGetExitBlocks L) =
        (List.range n).map fun i => (L.exits.toFinset.sort (· ≤ ·))[i]? :=
  ⟨pops_insertAll _ n, pops_insertAll _ n, pops_insertAll _ n, pops_insertAll _ n⟩

/-! Runs. -/

/-- A value that is held is still held after a pop, or has been returned. -/
theorem worklistPop_kept (h : v ∈ w) : v ∈ (worklistPop w).2 ∨ (worklistPop w).1 = some v := by
  obtain ⟨rfl, -⟩ | ⟨x, hx, -, hpop⟩ := @worklistPop_cases _ _ w
  · cases h
  · rw [hpop]
    by_cases e : x = v
    · exact .inr (congrArg some e)
    · exact .inl (Finset.mem_erase.mpr ⟨Ne.symm e, h⟩)

theorem run_kept (ops : List (Op Value)) : ∀ {w : Finset Value}, v ∈ w ∨ v ∈ inserted ops →
    v ∈ (run ops w).1 ∨ some v ∈ (run ops w).2 := by
  induction ops with
  | nil =>
    intro w h
    exact .inl (h.resolve_right List.not_mem_nil)
  | cons op ops ih =>
    intro w h
    cases op with
    | insert val =>
      refine ih ?_
      rcases h with h | h
      · exact .inl (Finset.mem_insert_of_mem h)
      · rcases List.mem_cons.mp h with rfl | h
        · exact .inl (Finset.mem_insert_self _ _)
        · exact .inr h
    | pop =>
      rcases h with h | h
      · rcases worklistPop_kept h with h | h
        · exact (ih (.inl h)).imp_right (List.mem_cons_of_mem _)
        · exact .inr (List.mem_cons.mpr (.inl h.symm))
      · exact (ih (.inr h)).imp_right (List.mem_cons_of_mem _)

/-- Whether a value is held, as a number. -/
def holds (w : Finset Value) (v : Value) : Nat := if v ∈ w then 1 else 0

theorem holds_insert (w : Finset Value) (v val : Value) :
    holds (worklistInsert w val) v ≤ holds w v + [val].count v := by
  unfold holds worklistInsert
  by_cases e : val = v
  · subst e
    simp
  · simp [Ne.symm e]

theorem holds_pop (w : Finset Value) (v : Value) :
    holds (worklistPop w).2 v + [(worklistPop w).1].count (some v) ≤ holds w v := by
  obtain ⟨rfl, hpop⟩ | ⟨x, hx, -, hpop⟩ := @worklistPop_cases _ _ w
  · rw [hpop]
    simp
  · rw [hpop]
    unfold holds
    by_cases e : x = v
    · subst e
      simp [hx]
    · simp [e, Ne.symm e]

theorem run_count (ops : List (Op Value)) : ∀ w : Finset Value,
    (run ops w).2.count (some v) + holds (run ops w).1 v ≤ (inserted ops).count v + holds w v := by
  induction ops with
  | nil => exact fun w => Nat.le_refl _
  | cons op ops ih =>
    intro w
    cases op with
    | insert val =>
      have h := ih (worklistInsert w val)
      have hinsert := holds_insert w v val
      simp only [run, inserted]
      rw [← List.singleton_append, List.count_append]
      omega
    | pop =>
      have h := ih (worklistPop w).2
      have hpop := holds_pop w v
      simp only [run, inserted]
      rw [← List.singleton_append, List.count_append]
      omega

/-- **No value is lost and none comes twice**, from any worklist and whatever is inserted and popped:
one that was held or has been inserted is held or has been returned, and it has been returned at
most once for each time it was put in. -/
theorem run_accounts (ops : List (Op Value)) (w : Finset Value) (v : Value) :
    (v ∈ w ∨ v ∈ inserted ops → v ∈ (run ops w).1 ∨ some v ∈ (run ops w).2) ∧
    (run ops w).2.count (some v) + holds (run ops w).1 v ≤ (inserted ops).count v + holds w v :=
  ⟨run_kept ops, run_count ops w⟩

end

/-! The loops of a function. -/

section
variable {Block : Type} [DecidableEq Block] (loops : List (Loop Block))

def LLVMGetFirstLoop : Option (Loop Block) := Queries.firstLoop loops

def LLVMGetNextLoop (L : Loop Block) : Option (Loop Block) := Queries.nextLoop L loops false

/-- The enumeration of the loops meets them all and ends where no loop is listed twice, and only
there. -/
theorem topLoops_cover_iff : Covers (LLVMGetFirstLoop loops) (LLVMGetNextLoop loops) loops ↔ loops.Nodup :=
  Queries.loops_cover_iff loops

end

end Ece566.LoopQueries
