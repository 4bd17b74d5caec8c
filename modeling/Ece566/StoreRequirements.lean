import Ece566.StoreSinking

/- Which of the requirements `canMoveStoreOutOfLoop` asks for. The scan finds every other
   load and store at the address. It passes by whatever else accesses memory: `isIdempotent`
   is true of `and` and `or` alone, so a call is never seen, and an `invoke`, a fence or an
   atomic instruction is not looked for. And where the address is a global or an alloca
   the test does not ask whether the block of the store dominates the exits. So the
   stores it lets go meet the requirements exactly where what it passes by is not at the
   address, and the block does dominate the exits. -/
namespace Ece566.Llvm

open Dominance Relation LateWrites

variable {V M : Type} {Obj : Type} {S : Sem V M} {O : S.Objects Obj} {F : Func} {L : Loop}
variable {A : LoopAnalyses} {a b x y : Label} {i j store : Instr} {v w storeAddr : Value} {m : M}
variable {c d : Config V M}

/-! What the scan has seen. -/

/-- A load, or a store other than `store`. -/
def Instr.isOther (store i : Instr) : Prop :=
  isLoad i = true ∨ (isStore i = true ∧ i.id ≠ store.id)

/-- What the test asks: of the address and the other loads and stores of the loop, or of the loop
as a whole and its exits. -/
def StoreScanAllows (A : LoopAnalyses) (F : Func) (L : Loop) (b : Label) (store : Instr)
    (storeAddr : Value) : Prop :=
  ((isGlobalVariable storeAddr = true ∨
      (isAllocaInst F storeAddr = true ∧ isInside F L storeAddr = false)) ∧
    ∀ a i, L.contains a = true → i ∈ F.insts a → store.isOther i →
      ∀ addr, i.getPointerOperand = some addr → isSameAddress F addr storeAddr = false) ∨
  ((∀ a i, L.contains a = true → i ∈ F.insts a → ¬ store.isOther i) ∧
    isInside F L storeAddr = false ∧ dominatesAllExits A F b L = true)

/-- An access to memory that is neither a load nor a store. -/
def Opcode.isUnseenAccess (o : Opcode) : Bool :=
  o.mayReadOrWriteMemory && o != .load && o != .store

/-- A call is no `and` and no `or`. -/
theorem call_not_idempotent (h : i.getOpcode = .call) : isIdempotent i = false := by
  rw [isIdempotent, h]
  rfl

theorem seeLoads_same (l : List Instr) : ∀ {seen : Seen},
    (l.foldl (seeLoads F store storeAddr) seen).same = false ↔ seen.same = false ∧
      ∀ i ∈ l, store.isOther i → ∀ addr, i.getPointerOperand = some addr →
        isSameAddress F addr storeAddr = false := by
  induction l with
  | nil => simp
  | cons i l ih =>
    intro seen
    have hi : (seeLoads F store storeAddr seen i).same = false ↔ seen.same = false ∧
        (store.isOther i → ∀ addr, i.getPointerOperand = some addr →
          isSameAddress F addr storeAddr = false) := by
      unfold seeLoads Instr.isOther isLoad isStore
      cases hop : i.getOpcode with
      | load => simp [Option.any_eq_false]
      | store => by_cases e : i.id = store.id <;> simp [e, Option.any_eq_false]
      | call => simp [call_not_idempotent hop]
      | _ => simp
    rw [List.foldl_cons, ih, hi, and_assoc, List.forall_mem_cons]

theorem seeLoads_any (l : List Instr) : ∀ {seen : Seen},
    (l.foldl (seeLoads F store storeAddr) seen).any = false ↔
      seen.any = false ∧ ∀ i ∈ l, ¬ store.isOther i := by
  induction l with
  | nil => simp
  | cons i l ih =>
    intro seen
    have hi : (seeLoads F store storeAddr seen i).any = false ↔
        seen.any = false ∧ ¬ store.isOther i := by
      unfold seeLoads Instr.isOther isLoad isStore
      cases hop : i.getOpcode with
      | load => simp
      | store => by_cases e : i.id = store.id <;> simp [e]
      | call => simp [call_not_idempotent hop]
      | _ => simp
    rw [List.foldl_cons, ih, hi, and_assoc, List.forall_mem_cons]

theorem canMoveStoreOutOfLoop_iff : canMoveStoreOutOfLoop A F L b store = true ↔
    ∃ storeAddr, store.getPointerOperand = some storeAddr ∧ store.op.volatile = false ∧
      mayLeave A F L b storeAddr (scanLoop F L (seeLoads F store storeAddr)) = true := by
  unfold canMoveStoreOutOfLoop
  cases store.getPointerOperand <;> cases store.op.volatile <;> simp

theorem mayLeave_storeScanAllows :
    mayLeave A F L b storeAddr (scanLoop F L (seeLoads F store storeAddr)) = true ↔
      StoreScanAllows A F L b store storeAddr := by
  have hsame : (scanLoop F L (seeLoads F store storeAddr)).same = false ↔
      ∀ a i, L.contains a = true → i ∈ F.insts a → store.isOther i →
        ∀ addr, i.getPointerOperand = some addr → isSameAddress F addr storeAddr = false := by
    rw [scanLoop, seeLoads_same, forall_scan]
    exact and_iff_right rfl
  have hany : (scanLoop F L (seeLoads F store storeAddr)).any = false ↔
      ∀ a i, L.contains a = true → i ∈ F.insts a → ¬ store.isOther i := by
    rw [scanLoop, seeLoads_any, forall_scan]
    exact and_iff_right rfl
  rw [mayLeave_iff, hsame, hany, StoreScanAllows]
  tauto

theorem canMoveStoreOutOfLoop_allows : canMoveStoreOutOfLoop A F L b store = true ↔
    store.op.volatile = false ∧ ∃ storeAddr, store.getPointerOperand = some storeAddr ∧
      StoreScanAllows A F L b store storeAddr := by
  rw [canMoveStoreOutOfLoop_iff, ← exists_and_left]
  refine exists_congr fun storeAddr => ?_
  rw [mayLeave_storeScanAllows, and_left_comm]

/-! The other loads and stores of the loop. -/

/-- A store of block `b` that the test lets leave loop `L`. -/
structure Allowed (A : LoopAnalyses) (F : Func) (L : Loop) (b : Label) (store : Instr)
    (storeAddr : Value) : Prop where
  ssa : F.SsaForm
  loop : F.IsLoop L
  mem : store ∈ F.insts b
  inside : L.contains b = true
  isStore : isStore store = true
  pointer : store.getPointerOperand = some storeAddr
  allows : StoreScanAllows A F L b store storeAddr

namespace Allowed

variable (h : Allowed A F L b store storeAddr)

include h

theorem pointer_mem : storeAddr ∈ store.operands := by
  obtain ⟨x, hx⟩ := store_value h.ssa h.mem h.isStore
  obtain ⟨w, hops, haddr⟩ := store_operands h.ssa h.mem h.isStore hx
  obtain rfl : storeAddr = w := Option.some.inj (h.pointer.symm.trans haddr)
  rw [hops]
  simp

theorem invariant : isLoopInvariant F L storeAddr = true := by
  rw [isLoopInvariant, Bool.not_eq_true']
  rcases h.allows with ⟨hg | ⟨-, hout⟩, -⟩ | ⟨-, hout, -⟩
  · cases storeAddr with
    | global g ty => rfl
    | _ => cases hg
  · exact hout
  · exact hout

/-- Another load or store goes through the address of another object. -/
theorem other_object (O : S.Objects Obj) (hc : Reachable S F m c) (hin : L.contains c.label = true)
    {rest : List Instr} (hr : c.rest = i :: rest) (hi : store.isOther i) (hphi : i.isPhi = false)
    (hw : w ∈ i.operands) (haddr : i.getPointerOperand = some w) :
    ∃ o o', S.value c.st.regs storeAddr = O.addr o ∧ S.value c.st.regs w = O.addr o' ∧ o ≠ o' := by
  have hv := hc.valid h.ssa
  have him := hv.mem_insts hr
  have hO : Owned O F c.st := hc.owned h.ssa
  rcases h.allows with ⟨haway, hothers⟩ | ⟨hnone, -⟩
  · have hident := hv.identified_outside h.ssa h.loop hin h.mem (not_phi_of_isStore h.isStore) h.inside
      h.pointer_mem haway
    obtain ⟨hne, hcase⟩ := different_address h.ssa him hw (hothers _ i hin him hi w haddr)
    have hident' := hv.identified_operand h.ssa hr hphi hw hcase
    have hapart := hident'.apart h.ssa hident hO hne
    obtain ⟨o, ho⟩ := hident.object hO
    obtain ⟨o', ho'⟩ := hident'.object hO
    refine ⟨o, o', ho, ho', fun e => hapart ?_⟩
    rw [ho, ho', e]
  · exact absurd hi (hnone _ i hin him)

/-- So it does not access where the store stores. -/
theorem other_ignores (hO : O.Stores) (hi : store.isOther i) : ¬ MayAccess S F L store i := by
  intro hm
  obtain ⟨m, c, rest, addr, hc, hin, hr, hp, hno⟩ := hm
  obtain rfl : storeAddr = addr := Option.some.inj (h.pointer.symm.trans hp)
  have him := (hc.valid h.ssa).mem_insts hr
  have hs := opcode_of_isStore h.isStore
  refine hno ?_
  rcases hi with hl | ⟨hst, hne⟩
  · obtain ⟨w, hops, haddr⟩ := load_operands h.ssa him hl
    have hop := opcode_of_isLoad hl
    obtain ⟨o, o', ho, ho', hne⟩ := h.other_object O hc hin hr (.inl hl) (isPhi_of_isLoad hl)
      (by rw [hops]; simp) haddr
    have hargs : i.args S c.st.regs = [O.addr o'] := by
      rw [Instr.args, hops, ← ho']
      rfl
    refine ignores_run (isPhi_of_isLoad hl) (not_pure_of_isLoad hl) ?_ fun hterm => ?_
    · rw [hargs, ho]
      exact hO.load hs hop hne
    · rw [not_terminator_of_isLoad hl] at hterm
      cases hterm
  · obtain ⟨x, hx⟩ := store_value h.ssa him hst
    obtain ⟨w, hops, haddr⟩ := store_operands h.ssa him hst hx
    have hop := opcode_of_isStore hst
    obtain ⟨o, o', ho, ho', hne⟩ := h.other_object O hc hin hr (.inr ⟨hst, hne⟩) (not_phi_of_isStore hst)
      (by rw [hops]; simp) haddr
    have hargs : i.args S c.st.regs = [S.value c.st.regs x, O.addr o'] := by
      rw [Instr.args, hops, ← ho']
      rfl
    refine ignores_run (not_phi_of_isStore hst) (not_pure_of_isStore hst) ?_ fun hterm => ?_
    · rw [hargs, ho]
      exact hO.store hs hop hne
    · rw [not_terminator_of_isStore hst] at hterm
      cases hterm

end Allowed

/-! What the test comes to. -/

namespace Allowed

variable (h : Allowed A F L b store storeAddr)

include h

/-- Where what the scan passes by is not at the address, nothing is. -/
theorem access (hO : O.Stores) (hunseen : ∀ a i, L.contains a = true → i ∈ F.insts a →
      i.op.opcode.isUnseenAccess = true → ¬ MayAccess S F L store i)
    (ha : L.contains a = true) (hi : i ∈ F.insts a) (hne : i.id ≠ store.id) :
    ¬ MayAccess S F L store i := by
  by_cases hother : store.isOther i
  · -- the scan has told it apart from the store
    exact h.other_ignores hO hother
  cases hacc : i.op.opcode.isUnseenAccess with
  | true => exact hunseen a i ha hi hacc
  | false =>
    have hload : i.op.opcode ≠ .load := fun e => hother (.inl (by simp [isLoad, Instr.getOpcode, e]))
    have hstore : i.op.opcode ≠ .store :=
      fun e => hother (.inr ⟨by simp [Llvm.isStore, Instr.getOpcode, e], hne⟩)
    have hquiet : i.op.opcode.mayReadOrWriteMemory = false := by
      simpa [Opcode.isUnseenAccess, hload, hstore] using hacc
    intro hm
    obtain ⟨m, c, rest, addr, -, -, -, -, hno⟩ := hm
    exact hno (ignores_quiet hO h.isStore hquiet)

theorem requirements (hA : A.Correct) (hO : O.Stores)
    (hunseen : ∀ a i, L.contains a = true → i ∈ F.insts a → i.op.opcode.isUnseenAccess = true →
      ¬ MayAccess S F L store i)
    (hexits : dominatesAllExits A F b L = true) : Requirements S F L b store where
  address addr haddr := by
    obtain rfl : storeAddr = addr := Option.some.inj (h.pointer.symm.trans haddr)
    exact h.invariant
  access _ _ ha hi hne := h.access hO hunseen ha hi hne
  exits exitBlock hexit := (hA.dominates h.ssa).mp (List.all_eq_true.mp hexits exitBlock hexit)

end Allowed

/-- **When the test asks for its requirements.** For every store of a loop, whatever the calls and
the other instructions do: that the test lets it go only where the three requirements are
met, and the store can run on the exits instead, is true if and only if the test's own
questions keep the store in the loop, or no access to memory that the scan passes by is at
the address and the block dominates every exit. -/
theorem canMoveStoreOutOfLoop_requirements_iff (hF : F.SsaForm) (hA : A.Correct) (hL : F.IsLoop L)
    (hO : O.Stores) (hstore : store ∈ F.insts b) (hin : L.contains b = true) (hs : isStore store = true) :
    (canMoveStoreOutOfLoop A F L b store = true →
      Requirements S F L b store ∧ RunsOnExits S F L store) ↔
      (store.op.volatile = true ∨ ∀ storeAddr, store.getPointerOperand = some storeAddr →
        ¬ StoreScanAllows A F L b store storeAddr) ∨
      ((∀ a i, L.contains a = true → i ∈ F.insts a → i.op.opcode.isUnseenAccess = true →
          ¬ MayAccess S F L store i) ∧
        dominatesAllExits A F b L = true) := by
  obtain ⟨v, hv⟩ := store_value hF hstore hs
  obtain ⟨storeAddr, hops, hp⟩ := store_operands hF hstore hs hv
  refine ⟨?_, ?_⟩
  · intro h
    by_cases hcan : canMoveStoreOutOfLoop A F L b store = true
    · obtain ⟨hreq, -⟩ := h hcan
      refine .inr ⟨fun a i ha hi hacc => hreq.access a i ha hi fun e => ?_,
        List.all_eq_true.mpr fun exitBlock hexit => ?_⟩
      · obtain rfl := hF.unique (mem_ids.mpr ⟨i, hi, e⟩) (mem_ids.mpr ⟨store, hstore, rfl⟩)
        rw [hF.inst_eq hi hstore e, opcode_of_isStore hs] at hacc
        cases hacc
      · exact (hA.dominates hF).mpr (hreq.exits exitBlock hexit)
    · refine .inl ?_
      by_contra hno
      rw [not_or, not_forall] at hno
      obtain ⟨hvol, addr, hno⟩ := hno
      rw [Classical.not_imp, not_not] at hno
      exact hcan (canMoveStoreOutOfLoop_allows.mpr ⟨by simpa using hvol, addr, hno⟩)
  · intro h hcan
    obtain ⟨hvol, addr, haddr, hallows⟩ := canMoveStoreOutOfLoop_allows.mp hcan
    have hallowed : Allowed A F L b store addr := ⟨hF, hL, hstore, hin, hs, haddr, hallows⟩
    rcases h with (h | h) | ⟨hunseen, hexits⟩
    · rw [hvol] at h
      cases h
    · exact absurd hallows (h addr haddr)
    · have hreq := hallowed.requirements hA hO hunseen hexits
      have hmeets : Meets S F L b store v storeAddr :=
        ⟨hF, hL, hstore, hin, hs, hvol, hops, hp, hreq⟩
      exact ⟨hreq, hmeets.runsOnExits hO⟩

/-! A loop that calls and then stores, if it is not left at once: block 1 leaves for block 3 or goes
on to block 2, which calls, stores to a global, and goes back. -/

def guardedCall : Instr := ⟨2, ⟨.call, 0, [], false, 0⟩, [], []⟩

def guardedStore : Instr := ⟨3, ⟨.store, 0, [32, 64], false, 0⟩, [.arg 0 32, .global 0 64], []⟩

def guarded : Func where
  entry := 0
  blocks := [0, 1, 2, 3]
  insts
    | 0 => [⟨0, ⟨.br, 0, [], false, 0⟩, [], [1]⟩]
    | 1 => [⟨1, ⟨.br, 0, [1], false, 0⟩, [.arg 1 1], [2, 3]⟩]
    | 2 => [guardedCall, guardedStore, ⟨4, ⟨.br, 0, [], false, 0⟩, [], [1]⟩]
    | 3 => [⟨5, ⟨.ret, 0, [], false, 0⟩, [], []⟩]
    | _ => []

def guardedLoop : Loop := .mk 1 [1, 2] []

theorem guarded_listed (h : guarded.insts b ≠ []) : b ∈ guarded.blocks := by
  match b, h with
  | 0, _ | 1, _ | 2, _ | 3, _ => decide

theorem guarded_edge : guarded.Edge a b ↔ (a, b) ∈ [(0, 1), (1, 2), (1, 3), (2, 1)] :=
  edge_iff guarded_listed

theorem guarded_ssaForm : guarded.SsaForm := by
  have h₁ : Reach guarded.Edge guarded.entry 1 := .single (guarded_edge.mpr (by decide))
  refine local_ssaForm guarded_listed (fun {b} hb => ?_) (by decide)
  simp only [guarded, List.mem_cons, List.not_mem_nil, or_false] at hb
  rcases hb with rfl | rfl | rfl | rfl
  · exact .refl
  · exact h₁
  · exact h₁.tail (guarded_edge.mpr (by decide))
  · exact h₁.tail (guarded_edge.mpr (by decide))

theorem guarded_isLoop : guarded.IsLoop guardedLoop where
  header := by decide
  root := by decide
  entry {a b} e ha hb := by
    have hall : ∀ e ∈ [(0, 1), (1, 2), (1, 3), (2, 1)], ¬ guardedLoop.contains e.1 = true →
        guardedLoop.contains e.2 = true → e.2 = guardedLoop.header := by decide
    exact hall _ (guarded_edge.mp e) ha hb

/-- The heap, with calls that wipe it; a terminator takes its first successor. -/
def wipeEffect (op : Op) (args : List Place) (m : Heap) : Place × Heap :=
  if op.opcode = .call then (.inr 0, { m with holds := fun _ => .inr 0 }) else Heap.effect op args m

def wipeSem : Sem Place Heap := { heapSem with effect := wipeEffect, branch := fun _ _ _ => 0 }

section Wipe
variable {op op' : Op} {args : List Place} {n : Heap} {o o' z : Place}

theorem wipeEffect_other (h : op.opcode ≠ .call) : wipeEffect op = Heap.effect op := by
  funext args n
  exact if_neg h

theorem wipe_next : n.next ≤ (wipeEffect op args n).2.next := by
  unfold wipeEffect
  split
  · exact le_rfl
  · exact heap_next

def wipeObjects : wipeSem.Objects Place where
  addr := heapObjects.addr
  global := heapObjects.global
  live := heapObjects.live
  addr_inj := heapObjects.addr_inj
  global_inj := heapObjects.global_inj
  global_addr := heapObjects.global_addr
  global_live := heapObjects.global_live
  live_mono h k hk := Nat.lt_of_lt_of_le (h k hk) wipe_next
  alloca {op} args m hop := by
    show ∃ o, (wipeEffect op args m).1 = _ ∧ _ ∧ heapObjects.live (wipeEffect op args m).2 o
    rw [wipeEffect_other (by rw [hop]; decide)]
    exact heapObjects.alloca args m hop
  reads {op args m} hop hv := by
    show (wipeEffect op args m).2 = m
    rw [wipeEffect_other (by rw [hop]; decide)]
    exact heapObjects.reads hop hv
  quiet {op op' args args' m} h hop := by
    show (wipeEffect op' args' (wipeEffect op args m).2).1 = (wipeEffect op' args' m).1
    have hcall : op.opcode ≠ .call := by
      intro e
      rw [e] at h
      cases h
    rw [@wipeEffect_other op hcall, @wipeEffect_other op' (by rw [hop]; decide)]
    exact heapObjects.quiet h hop
  inside {op op' x o o' m} hop hop' hne := by
    show (wipeEffect op' [o'] (wipeEffect op [x, o] m).2).1 = (wipeEffect op' [o'] m).1
    rw [@wipeEffect_other op (by rw [hop]; decide), @wipeEffect_other op' (by rw [hop']; decide)]
    exact heapObjects.inside hop hop' hne

theorem wipe_put (h : op.opcode = .store) : wipeSem.put op o z n =
    { n with holds := fun q => if q = o then z else n.holds q } := by
  show (wipeEffect op [z, o] n).2 = _
  rw [wipeEffect_other (by rw [h]; decide)]
  simp [Heap.effect, h]

theorem wipeObjects_stores : wipeObjects.Stores where
  overwrites {op o} hop _ :=
    { again := by
        intro x y n
        simp only [wipe_put hop]
        refine congrArg (Heap.mk _) (funext fun q => ?_)
        split <;> rfl
      back := by
        intro n
        refine ⟨n.holds o, ?_⟩
        rw [wipe_put hop]
        refine congrArg (Heap.mk _) (funext fun q => ?_)
        split
        · rename_i e
          rw [e]
        · rfl }
  quiet {op op' o args n} hop h z := by
    have hne : ∀ {k : Opcode}, k.mayReadOrWriteMemory = true → op'.opcode ≠ k := by
      intro k hk e
      rw [e, hk] at h
      cases h
    show wipeEffect op' args _ = ((wipeEffect op' args n).1, wipeSem.put op o z (wipeEffect op' args n).2)
    rw [wipe_put hop, wipe_put hop, wipeEffect_other (hne rfl)]
    unfold Heap.effect
    split
    case h_2 hl => exact absurd hl (hne rfl)
    case h_3 hs => exact absurd hs (hne rfl)
    all_goals rfl
  branch _ _ := rfl
  load {op op' o o' n} hop hop' hne z := by
    show wipeEffect op' [o'] (wipeSem.put op o z n) =
      ((wipeEffect op' [o'] n).1, wipeSem.put op o z (wipeEffect op' [o'] n).2)
    rw [wipe_put hop, wipe_put hop, wipeEffect_other (by rw [hop']; decide)]
    simp [Heap.effect, hop', Ne.symm hne]
  store {op op' o o' x n} hop hop' hne z := by
    show wipeEffect op' [x, o'] (wipeSem.put op o z n) =
      ((wipeEffect op' [x, o'] n).1, wipeSem.put op o z (wipeEffect op' [x, o'] n).2)
    rw [wipe_put hop, wipe_put hop, wipeEffect_other (by rw [hop']; decide)]
    simp only [Heap.effect, hop', Prod.mk.injEq, Heap.mk.injEq, true_and]
    funext q
    by_cases hq : q = o
    · subst hq
      simp [hne]
    · simp [hq]

end Wipe

/-- The run that goes round once comes to the call, which wipes what has been stored. -/
theorem guardedCall_mayAccess : MayAccess wipeSem guarded guardedLoop guardedStore guardedCall := by
  refine ⟨Heap.empty, _, _, .global 0 64, .tail (.tail (.tail (.tail .refl rfl) rfl) rfl) rfl, rfl, rfl,
    rfl, fun hignores => ?_⟩
  have hone := congrArg (fun r => r.2.holds (.inl (0, 64))) (hignores (.inr 1))
  exact absurd hone (by decide)

/-- The store leaves the loop although the loop can be left without storing, and a call of the
loop may access the location. -/
theorem guarded_store_leaves :
    (guarded.SsaForm ∧ (exactAnalyses [guardedLoop]).Correct ∧ guarded.IsLoop guardedLoop ∧
      wipeObjects.Stores ∧ guardedStore ∈ guarded.insts 2 ∧ guardedLoop.contains 2 = true ∧
      isStore guardedStore = true ∧
      canMoveStoreOutOfLoop (exactAnalyses [guardedLoop]) guarded guardedLoop 2 guardedStore = true) ∧
    (3 ∈ getExitBlocks guarded guardedLoop ∧ ¬ guarded.Dom 2 3) ∧
    MayAccess wipeSem guarded guardedLoop guardedStore guardedCall ∧
    ∀ (V M : Type) (S : Sem V M), ¬ Requirements S guarded guardedLoop 2 guardedStore := by
  have hdom : ¬ guarded.Dom 2 3 := by
    have h₁ : Avoids guarded.Edge guarded.entry 2 1 :=
      ⟨by decide, .single ⟨guarded_edge.mpr (by decide), by decide⟩⟩
    exact fun h => h (h₁.step (guarded_edge.mpr (by decide)) (by decide))
  have hexit : 3 ∈ getExitBlocks guarded guardedLoop := by decide
  exact ⟨⟨guarded_ssaForm, exactAnalyses_correct _, guarded_isLoop, wipeObjects_stores, by decide,
    by decide, rfl, rfl⟩, ⟨hexit, hdom⟩, guardedCall_mayAccess, fun _ _ _ h => hdom (h.exits 3 hexit)⟩

theorem canMoveStoreOutOfLoop_requirements_iff_guarded :
    (canMoveStoreOutOfLoop (exactAnalyses [guardedLoop]) guarded guardedLoop 2 guardedStore = true →
      Requirements wipeSem guarded guardedLoop 2 guardedStore ∧
        RunsOnExits wipeSem guarded guardedLoop guardedStore) ↔
      (guardedStore.op.volatile = true ∨ ∀ storeAddr, guardedStore.getPointerOperand = some storeAddr →
        ¬ StoreScanAllows (exactAnalyses [guardedLoop]) guarded guardedLoop 2 guardedStore storeAddr) ∨
      ((∀ a i, guardedLoop.contains a = true → i ∈ guarded.insts a →
          i.op.opcode.isUnseenAccess = true → ¬ MayAccess wipeSem guarded guardedLoop guardedStore i) ∧
        dominatesAllExits (exactAnalyses [guardedLoop]) guarded 2 guardedLoop = true) :=
  canMoveStoreOutOfLoop_requirements_iff guarded_ssaForm (exactAnalyses_correct _) guarded_isLoop
    wipeObjects_stores (by decide) (by decide) rfl

end Ece566.Llvm
