import Ece566.CseNodes
import Ece566.LicmExits

/- `sinkStore` of project 3 (`p3.cpp`), which the pass has commented out. For every exit
   block it makes a new block with a copy of the store and a branch to the exit block, and
   a node for it in the dominator tree; but no edge is led to the new block. The edges
   that leave the loop are what they were, the copies cannot be reached, and the store is
   gone. What `sinkStore` is for is met by loops without an exit only. -/
namespace Ece566.Llvm

open Dominance Relation

/-- LLVM's dominator tree: for a block that has a node, its immediate dominator (the root has
none). -/
structure DominatorTree where
  getNode : Label → Option (Option Label)

namespace DominatorTree

/-- A new node for `BB` under that of `DomBB`; LLVM asserts that the one is new and the other is
there. -/
def addNewBlock (DT : DominatorTree) (BB DomBB : Label) : Option DominatorTree :=
  match DT.getNode BB, DT.getNode DomBB with
  | none, some _ => some ⟨fun b => if b = BB then some (some DomBB) else DT.getNode b⟩
  | _, _ => none

/-- The tree is that of `F`. -/
def IsFor (DT : DominatorTree) (F : Func) : Prop :=
  ∀ b, ((DT.getNode b).isSome = true ↔ Reach F.Edge F.entry b) ∧
    ∀ a, DT.getNode b = some (some a) ↔ Reach F.Edge F.entry b ∧ Idom F.Edge F.entry a b

end DominatorTree

structure Sinking where
  func : Func
  DT : DominatorTree

abbrev Sink := StateT Sinking Option

/-! New blocks and instructions. -/

def Func.freshBlock (F : Func) : Label := F.blocks.foldr max 0 + 1

def Func.freshId (F : Func) : Nat := (F.allIds).foldr max 0 + 1

/-- The layout with `newBlock` after `exitBlock`. -/
def moveAfter (newBlock exitBlock : Label) : List Label → List Label
  | [] => []
  | b :: rest => if b = exitBlock then b :: newBlock :: rest else b :: moveAfter newBlock exitBlock rest

/-- `F` with the block `newBlock` after `exitBlock`. -/
def Func.createBlock (F : Func) (newBlock exitBlock : Label) (insts : List Instr) : Func where
  entry := F.entry
  blocks := moveAfter newBlock exitBlock F.blocks
  insts b := if b = newBlock then insts else F.insts b

def createCopy (store : Instr) (exitBlock : Label) : Sink Unit := do
  let here ← get
  let newBlock := here.func.freshBlock
  let branch : Instr := ⟨here.func.freshId, ⟨.br, 0, [], false, 0⟩, [], [exitBlock]⟩
  let storeClone : Instr := { store with id := here.func.freshId + 1 }
  match here.DT.addNewBlock newBlock exitBlock with
  | some DT => set (⟨here.func.createBlock newBlock exitBlock [storeClone, branch], DT⟩ : Sinking)
  | none => failure

def createCopies (store : Instr) : List Label → Sink Unit
  | [] => pure ()
  | exitBlock :: rest => do
    createCopy store exitBlock
    createCopies store rest

def sinkStore (L : Loop) (store : Instr) : Sink Unit := do
  createCopies store (getExitBlocks (← get).func L)
  modify fun s => { s with func := s.func.eraseFromParent store.id }

variable {F F' : Func} {DT : DominatorTree} {L : Loop} {store i : Instr} {a b e : Label}
variable {s s' : Sinking}

/-! What it is for. -/

/-- Block `b` of `F'` has a copy of the store of `F`. -/
def HoldsClone (F : Func) (store : Instr) (F' : Func) (b : Label) : Prop :=
  ∃ j ∈ F'.insts b, j.op = store.op ∧ j.operands = store.operands ∧ ∀ a, j.id ∉ F.ids a

/-- A copy of the store on every exit edge, and nowhere else. -/
structure OnEveryExit (F : Func) (L : Loop) (store : Instr) (s' : Sinking) : Prop where
  leaving : ∀ a mid e, L.contains a = true → (∀ m ∈ mid, L.contains m = false) →
    e ∈ getExitBlocks F L → List.IsChain s'.func.Edge (a :: mid ++ [e]) →
    ∃ pre b post, mid = pre ++ b :: post ∧ HoldsClone F store s'.func b ∧
      ∀ m ∈ pre ++ post, ¬ HoldsClone F store s'.func m
  others : ∀ path b, HoldsClone F store s'.func b → path.head? = some s'.func.entry →
    List.IsChain s'.func.Edge (path ++ [b]) → ∃ m ∈ path, L.contains m = true
  gone : ∀ b, store.id ∉ s'.func.ids b
  tree : s'.DT.IsFor s'.func

/-! What it does. -/

theorem le_foldr_max {l : List Nat} {x : Nat} (h : x ∈ l) : x ≤ l.foldr max 0 := by
  induction l with
  | nil => cases h
  | cons y l ih =>
    rcases List.mem_cons.mp h with rfl | h
    · exact Nat.le_max_left _ _
    · exact (ih h).trans (Nat.le_max_right _ _)

theorem freshBlock_not_mem : F.freshBlock ∉ F.blocks :=
  fun h => Nat.not_succ_le_self _ (le_foldr_max h)

theorem mem_moveAfter (h : e ∈ F.blocks) : b ∈ moveAfter a e F.blocks ↔ b = a ∨ b ∈ F.blocks := by
  generalize F.blocks = l at h
  induction l with
  | nil => cases h
  | cons c l ih =>
    rw [moveAfter]
    split
    · rw [List.mem_cons, List.mem_cons, List.mem_cons, or_left_comm]
    · rename_i hne
      rw [List.mem_cons, ih ((List.mem_cons.mp h).resolve_left (Ne.symm hne)), List.mem_cons,
        or_left_comm]

/-- What `createCopies` has kept and what it has added. -/
structure Copied (F : Func) (DT : DominatorTree) (s : Sinking) : Prop where
  entry : s.func.entry = F.entry
  blocks : ∀ b ∈ F.blocks, b ∈ s.func.blocks
  insts : ∀ b ∈ F.blocks, s.func.insts b = F.insts b
  nodes : ∀ b, (DT.getNode b).isSome = true → s.DT.getNode b = DT.getNode b
  listed : ∀ b, (s.DT.getNode b).isSome = true → b ∈ s.func.blocks
  targets : ∀ a b, s.func.Edge a b → b ∈ F.blocks

theorem createCopy_spec (hs : isStore store = true) (h : Copied F DT s) (he : e ∈ F.blocks) (hnode : (DT.getNode e).isSome = true) :
    Wp (createCopy store e) (fun _ s' => Copied F DT s') s := by
  have hnew : s.DT.getNode s.func.freshBlock = none := by
    rw [← Option.not_isSome_iff_eq_none]
    exact fun hsome => freshBlock_not_mem (h.listed _ hsome)
  obtain ⟨x, hx⟩ := Option.isSome_iff_exists.mp ((h.nodes e hnode).symm ▸ hnode)
  -- both assertions of `addNewBlock` hold: the block is new and the exit block has its node
  refine Wp.get_bind ?_
  have hadd : s.DT.addNewBlock s.func.freshBlock e = some ⟨fun b =>
      if b = s.func.freshBlock then some (some e) else s.DT.getNode b⟩ := by
    rw [DominatorTree.addNewBlock, hnew, hx]
  dsimp only
  rw [hadd]
  refine ⟨⟨⟩, _, rfl, h.entry, ?_, ?_, ?_, ?_, ?_⟩
  · exact fun b hb => (mem_moveAfter (h.blocks e he)).mpr (.inr (h.blocks b hb))
  · intro b hb
    have hne : b ≠ s.func.freshBlock := fun e => freshBlock_not_mem (e ▸ h.blocks b hb)
    exact (if_neg hne).trans (h.insts b hb)
  · intro b hb
    have hne : b ≠ s.func.freshBlock := by
      intro e
      rw [← h.nodes b hb, e, hnew] at hb
      cases hb
    exact (if_neg hne).trans (h.nodes b hb)
  · intro b hb
    refine (mem_moveAfter (h.blocks e he)).mpr ?_
    by_cases hnb : b = s.func.freshBlock
    · exact .inl hnb
    · refine .inr (h.listed b ?_)
      have hb : (if b = s.func.freshBlock then some (some e) else s.DT.getNode b).isSome = true := hb
      rwa [if_neg hnb] at hb
  · intro a b ⟨t, ht, hterm, hb⟩
    have ht : t ∈ if a = s.func.freshBlock then _ else s.func.insts a := ht
    split at ht
    · rcases List.mem_cons.mp ht with rfl | ht
      · exact absurd hterm (Bool.not_eq_true _ ▸ not_terminator_of_isStore hs)
      · obtain rfl := List.mem_singleton.mp ht
        exact List.mem_singleton.mp hb ▸ he
    · exact h.targets a b ⟨t, ht, hterm, hb⟩

theorem createCopies_spec (hs : isStore store = true) (exits : List Label) : ∀ {s : Sinking},
    Copied F DT s → (∀ e ∈ exits, e ∈ F.blocks ∧ (DT.getNode e).isSome = true) →
    Wp (createCopies store exits) (fun _ s' => Copied F DT s') s := by
  induction exits with
  | nil => exact fun h _ => Wp.pure' h
  | cons e exits ih =>
    intro s h he
    obtain ⟨⟨hlisted, hnode⟩, hrest⟩ := List.forall_mem_cons.mp he
    exact Wp.bind' (createCopy_spec hs h hlisted hnode) fun _ s₁ h₁ => ih h₁ hrest

/-- An exit block is entered from the loop. -/
theorem mem_getExitBlocks_iff : e ∈ getExitBlocks F L ↔
    ∃ a, L.contains a = true ∧ F.Edge a e ∧ L.contains e = false := by
  refine ⟨?_, ?_⟩
  · intro h
    simp only [getExitBlocks, List.mem_flatMap, List.mem_filter, Bool.not_eq_true'] at h
    obtain ⟨a, ha, t, ⟨ht, hterm⟩, he, hout⟩ := h
    exact ⟨a, List.contains_iff_mem.mpr ha, ⟨t, ht, hterm, he⟩, hout⟩
  · rintro ⟨a, ha, hedge, hout⟩
    exact mem_getExitBlocks ha hedge (by simp [hout])

/-- A store of a loop, in a function that the verifier accepts, and the dominator tree of the
function. -/
structure Sinkable (F : Func) (L : Loop) (store : Instr) (DT : DominatorTree) : Prop where
  verified : F.Verified
  reach : ∀ b, L.contains b = true → Reach F.Edge F.entry b
  inside : ∃ b, L.contains b = true ∧ store ∈ F.insts b
  isStore : isStore store = true
  tree : DT.IsFor F

namespace Sinkable

variable (h : Sinkable F L store DT)

include h

theorem exit_listed (he : e ∈ getExitBlocks F L) : e ∈ F.blocks ∧ (DT.getNode e).isSome = true := by
  obtain ⟨a, ha, hedge, -⟩ := mem_getExitBlocks_iff.mp he
  exact ⟨h.verified.targets hedge, (h.tree e).1.mpr ((h.reach a ha).tail hedge)⟩

theorem start : Copied F DT ⟨F, DT⟩ where
  entry := rfl
  blocks _ hb := hb
  insts _ _ := rfl
  nodes _ _ := rfl
  listed b hb := by
    rcases ReflTransGen.cases_tail ((h.tree b).1.mp hb) with e | ⟨a, -, hedge⟩
    · exact e ▸ h.verified.entry.1
    · exact h.verified.targets hedge
  targets _ _ hedge := h.verified.targets hedge

/-- The run: copies, then the store is erased. -/
theorem run : Wp (sinkStore L store) (fun _ s' => ∃ s₁, Copied F DT s₁ ∧
    s' = { s₁ with func := s₁.func.eraseFromParent store.id }) ⟨F, DT⟩ := by
  refine Wp.get_bind (Wp.bind' (createCopies_spec h.isStore _ h.start fun e he => h.exit_listed he) ?_)
  exact fun _ s₁ h₁ => Wp.modify' ⟨s₁, h₁, rfl⟩

/-- An edge of the function is still there. -/
theorem edge_kept (hs : Copied F DT s) (hedge : F.Edge a b) :
    (s.func.eraseFromParent store.id).Edge a b := by
  obtain ⟨t, ht, hterm, hb⟩ := hedge
  obtain ⟨c, -, hc⟩ := h.inside
  refine ⟨t, ?_, hterm, hb⟩
  rw [eraseFromParent_insts, hs.insts a (h.verified.placed.listed (List.ne_nil_of_mem ht)),
    List.mem_filter, bne_iff_ne]
  refine ⟨ht, fun e => ?_⟩
  rw [h.verified.placed.inst_eq ht hc e, not_terminator_of_isStore h.isStore] at hterm
  cases hterm

/-- With an exit, there is a way out of the loop that meets no copy. -/
theorem not_onEveryExit (he : e ∈ getExitBlocks F L) (hs : Copied F DT s)
    (hs' : s' = { s with func := s.func.eraseFromParent store.id }) : ¬ OnEveryExit F L store s' := by
  intro hevery
  obtain ⟨a, ha, hedge, -⟩ := mem_getExitBlocks_iff.mp he
  have hkept : s'.func.Edge a e := by
    rw [hs']
    exact h.edge_kept hs hedge
  -- the exit edge itself: nothing stands on it
  obtain ⟨pre, b, post, hmid, -⟩ := hevery.leaving a [] e ha (by simp) he
    (List.isChain_pair.mpr hkept)
  cases pre <;> cases hmid

end Sinkable

/-- No copy can be reached: no edge leads to a new block. -/
theorem Copied.unreachable (hs : Copied F DT s) (hentry : F.entry ∈ F.blocks)
    (hclone : HoldsClone F store s.func b) : ¬ Reach s.func.Edge s.func.entry b := by
  intro hreach
  have hb : b ∈ F.blocks := by
    rcases ReflTransGen.cases_tail hreach with rfl | ⟨a, -, hedge⟩
    · rw [hs.entry]
      exact hentry
    · exact hs.targets a b hedge
  obtain ⟨j, hj, -, -, hnew⟩ := hclone
  rw [hs.insts b hb] at hj
  exact hnew b (mem_ids.mpr ⟨j, hj, rfl⟩)

namespace Sinkable

variable (h : Sinkable F L store DT)

include h

/-- So the stores that `sinkStore` makes never run. -/
theorem clones_unreachable : Wp (sinkStore L store) (fun _ s' => ∀ b, HoldsClone F store s'.func b →
    ¬ Reach s'.func.Edge s'.func.entry b) ⟨F, DT⟩ := by
  refine h.run.mono fun _ s' ⟨s₁, hs₁, hs'⟩ b hclone hreach => ?_
  obtain rfl := hs'
  obtain ⟨j, hj, hcopy⟩ := hclone
  have hedge : ∀ {x y}, (s₁.func.eraseFromParent store.id).Edge x y → s₁.func.Edge x y := by
    intro x y ⟨t, ht, hterm, hy⟩
    exact ⟨t, (List.mem_filter.mp ht).1, hterm, hy⟩
  exact hs₁.unreachable h.verified.entry.1 ⟨j, (List.mem_filter.mp hj).1, hcopy⟩
    (hreach.lift id fun _ _ => hedge)

/-- Without an exit the store just goes, and the tree stays right. -/
theorem onEveryExit (hno : getExitBlocks F L = []) :
    OnEveryExit F L store ⟨F.eraseFromParent store.id, DT⟩ where
  leaving a mid e _ _ he := by
    rw [hno] at he
    cases he
  others path b hclone := by
    obtain ⟨j, hj, -, -, hnew⟩ := hclone
    exact absurd (mem_ids.mpr ⟨j, (List.mem_filter.mp hj).1, rfl⟩) (hnew b)
  gone b hb := by
    rw [eraseFromParent_ids, List.mem_filter, bne_iff_ne] at hb
    exact hb.2 rfl
  tree := by
    have hedge : (F.eraseFromParent store.id).Edge = F.Edge := by
      refine eraseFromParent_edge fun a t ht hterm e => ?_
      obtain ⟨c, -, hc⟩ := h.inside
      rw [h.verified.placed.inst_eq ht hc e, not_terminator_of_isStore h.isStore] at hterm
      cases hterm
    intro b
    rw [hedge]
    exact h.tree b

end Sinkable

/-- **When `sinkStore` does what it is for**: if and only if the loop has no exit. -/
theorem sinkStore_iff (h : Sinkable F L store DT) :
    ∃ s', (sinkStore L store).run ⟨F, DT⟩ = some (⟨⟩, s') ∧
      (OnEveryExit F L store s' ↔ getExitBlocks F L = []) := by
  cases hexits : getExitBlocks F L with
  | nil =>
    refine ⟨⟨F.eraseFromParent store.id, DT⟩, ?_, fun _ => rfl, fun _ => h.onEveryExit hexits⟩
    rw [sinkStore, Wp.run_get_bind, hexits]
    rfl
  | cons e exits =>
    obtain ⟨_, s', hrun, s₁, hs₁, hs'⟩ := h.run
    refine ⟨s', hrun, ?_⟩
    have he : e ∈ getExitBlocks F L := by rw [hexits]; exact List.mem_cons_self
    exact ⟨fun hevery => absurd hevery (h.not_onEveryExit he hs₁ hs'), (fun e => nomatch e)⟩

/-! The dominator tree by its definition. -/

open Classical in
noncomputable def exactTree (F : Func) : DominatorTree where
  getNode b :=
    if Reach F.Edge F.entry b then
      some (if h : ∃ a, Idom F.Edge F.entry a b then some h.choose else none)
    else none

theorem exactTree_isFor (F : Func) : (exactTree F).IsFor F := by
  intro b
  by_cases hb : Reach F.Edge F.entry b
  · simp only [exactTree, hb, if_true, Option.isSome_some, true_and, Option.some.injEq]
    intro a
    refine ⟨?_, ?_⟩
    · intro h
      split at h
      · rename_i hex
        exact Option.some.inj h ▸ hex.choose_spec
      · cases h
    · intro h
      have hex : ∃ a, Idom F.Edge F.entry a b := ⟨a, h⟩
      rw [dif_pos hex, hex.choose_spec.unique h hb]
  · simp [exactTree, hb]

/-! A loop with an exit: block 1 stores and goes round, or leaves for block 2. -/

def loopStore : Instr := ⟨1, ⟨.store, 0, [32, 64], false, 0⟩, [.arg 0 32, .arg 1 64], []⟩

def storeLoop : Func where
  entry := 0
  blocks := [0, 1, 2]
  insts
    | 0 => [⟨0, ⟨.br, 0, [], false, 0⟩, [], [1]⟩]
    | 1 => [loopStore, ⟨2, ⟨.br, 0, [1], false, 0⟩, [.arg 2 1], [1, 2]⟩]
    | 2 => [⟨3, ⟨.ret, 0, [], false, 0⟩, [], []⟩]
    | _ => []

theorem storeLoop_listed (h : storeLoop.insts b ≠ []) : b ∈ storeLoop.blocks := by
  match b, h with
  | 0, _ | 1, _ | 2, _ => decide

theorem storeLoop_edge : storeLoop.Edge a b ↔ (a, b) ∈ [(0, 1), (1, 1), (1, 2)] :=
  edge_iff storeLoop_listed

theorem storeLoop_reach : ∀ b ∈ storeLoop.blocks, Reach storeLoop.Edge storeLoop.entry b := by
  have h₁ : Reach storeLoop.Edge storeLoop.entry 1 := .single (storeLoop_edge.mpr (by decide))
  intro b hb
  simp only [storeLoop, List.mem_cons, List.not_mem_nil, or_false] at hb
  rcases hb with rfl | rfl | rfl
  · exact .refl
  · exact h₁
  · exact h₁.tail (storeLoop_edge.mpr (by decide))

theorem storeLoop_ssaForm : storeLoop.SsaForm :=
  local_ssaForm storeLoop_listed (fun {b} hb => storeLoop_reach b hb) (by decide)

theorem storeLoop_sinkable : Sinkable storeLoop (.mk 1 [1] []) loopStore (exactTree storeLoop) where
  verified := by
    refine storeLoop_ssaForm.verified (by decide) (by decide) (by decide) fun {a b} h => ?_
    have hall : ∀ e ∈ [(0, 1), (1, 1), (1, 2)], e.2 ∈ storeLoop.blocks := by decide
    exact hall _ (storeLoop_edge.mp h)
  reach b hb := by
    obtain rfl := List.mem_singleton.mp (List.contains_iff_mem.mp hb)
    exact storeLoop_reach 1 (by decide)
  inside := ⟨1, by decide, by decide⟩
  isStore := rfl
  tree := exactTree_isFor storeLoop

/-- The way from block 1 to block 2 meets no copy. -/
theorem storeLoop_not_sunk : ∃ s',
    (sinkStore (.mk 1 [1] []) loopStore).run ⟨storeLoop, exactTree storeLoop⟩ = some (⟨⟩, s') ∧
      ¬ OnEveryExit storeLoop (.mk 1 [1] []) loopStore s' := by
  obtain ⟨_, s', hrun, s₁, hs₁, hs'⟩ := storeLoop_sinkable.run
  have he : 2 ∈ getExitBlocks storeLoop (.mk 1 [1] []) := by decide
  exact ⟨s', hrun, storeLoop_sinkable.not_onEveryExit he hs₁ hs'⟩

theorem sinkStore_iff_storeLoop : ∃ s',
    (sinkStore (.mk 1 [1] []) loopStore).run ⟨storeLoop, exactTree storeLoop⟩ = some (⟨⟩, s') ∧
      (OnEveryExit storeLoop (.mk 1 [1] []) loopStore s' ↔
        getExitBlocks storeLoop (.mk 1 [1] []) = []) :=
  sinkStore_iff storeLoop_sinkable

end Ece566.Llvm
