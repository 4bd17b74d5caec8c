import Ece566.CseBlock
import Ece566.LicmSound

/- What keeps a load in its loop. The scan of `canMoveLoadOutOfLoop` looks at the stores
   and the calls of the loop and passes by every other instruction. A store or a call that
   may write what the load reads keeps the load where it is; an `invoke`, an `atomicrmw` or
   a `cmpxchg` does not. So the test is right exactly where no other instruction of the
   loop may write there, or where it says no for another reason. -/
namespace Ece566.Llvm

open Dominance Relation

variable {V M : Type} {Obj : Type} {S : Sem V M} {F : Func} {L : Loop} {A : LoopAnalyses}
variable {a b p : Label} {i load : Instr} {v : Value} {m : M} {c : Config V M}

/-- An atomic instruction stays inside the object at whose address it is, as a store does; a
fence writes nothing. -/
structure Sem.Objects.Confined (O : S.Objects Obj) : Prop where
  atomic : ∀ {op op' : Op} {args o o' m}, op.opcode.isAtomic = true → op'.opcode = .load → o ≠ o' →
    (S.effect op' [O.addr o'] (S.effect op (O.addr o :: args) m).2).1 = (S.effect op' [O.addr o'] m).1
  fence : ∀ {op op' : Op} {args args' m}, op.opcode = .fence → op'.opcode = .load →
    (S.effect op' args' (S.effect op args m).2).1 = (S.effect op' args' m).1

/-- On some execution instruction `i` of loop `L` changes what `load` would read. -/
def MayModify (F : Func) (L : Loop) (load i : Instr) : Prop :=
  ∃ (V M Obj : Type) (S : Sem V M) (O : S.Objects Obj) (m : M) (c : Config V M) (rest : List Instr),
    O.Confined ∧ Reachable S F m c ∧ L.contains c.label = true ∧ c.rest = i :: rest ∧
      (S.effect load.op (load.args S c.st.regs) (execInst S i c.st).mem).1 ≠ c.reads S load

/-- What the test asks: of the address and of the stores and calls of the loop, or of the loop as
a whole and its exits. -/
def ScanAllows (A : LoopAnalyses) (F : Func) (L : Loop) (b : Label) (addr : Value) : Prop :=
  ((isGlobalVariable addr = true ∨ (isAllocaInst F addr = true ∧ isInside F L addr = false)) ∧
    ∀ a i, L.contains a = true → i ∈ F.insts a → i.spares F addr) ∨
  ((∀ a i, L.contains a = true → i ∈ F.insts a → isCall i = false ∧ isStore i = false) ∧
    isInside F L addr = false ∧ dominatesAllExits A F b L = true)

/-! What may modify the location. -/

/-- It is an instruction that may write the memory, and no fence. -/
theorem MayModify.writes (h : MayModify F L load i) (hl : isLoad load = true) :
    i.op.opcode.writesMemory = true ∧ i.op.opcode ≠ .fence := by
  obtain ⟨V, M, Obj, S, O, m, c, rest, hO, -, -, -, hne⟩ := h
  have hphi : i.isPhi = false := by
    rw [← Bool.not_eq_true]
    intro hphi
    exact hne (by simp [execInst, hphi, Config.reads])
  have hpure : i.op.opcode.isPure = false := by
    rw [← Bool.not_eq_true]
    intro hpure
    exact hne (by simp [execInst, hphi, hpure, Config.reads])
  rw [execInst_effect hphi hpure] at hne
  refine ⟨?_, ?_⟩
  · rw [← Bool.not_eq_false]
    exact fun hw => hne (O.quiet hw (opcode_of_isLoad hl))
  · exact fun hf => hne (hO.fence hf (opcode_of_isLoad hl))

/-- Where the load may leave, no store and no call of the loop may modify what it reads. -/
theorem Leaving.spared (h : Leaving A F L p b load) (hm : MayModify F L load i) :
    isStore i = false ∧ isCall i = false := by
  obtain ⟨V, M, Obj, S, O, m, c, rest, -, hc, hin, hr, hne⟩ := hm
  have hi := (hc.valid h.ssa).mem_insts hr
  refine ⟨?_, h.no_call hin hi⟩
  rw [← Bool.not_eq_true]
  intro hs
  rw [execInst_effect (not_phi_of_isStore hs) (not_pure_of_isStore hs)] at hne
  exact hne (h.read_store O hc hin hr hs)

/-! What the test comes to. -/

theorem forall_scan {P : Instr → Prop} : (∀ i ∈ L.getBlocks.flatMap F.insts, P i) ↔
    ∀ a i, L.contains a = true → i ∈ F.insts a → P i := by
  refine ⟨?_, ?_⟩
  · exact fun h a i ha hi => h i (mem_loop ha hi)
  · intro h i hi
    obtain ⟨a, ha, hi⟩ := mem_scan.mp hi
    exact h a i ha hi

theorem mayLeave_allows : mayLeave A F L b v (scanLoop F L (seeStores F v)) = true ↔
    ScanAllows A F L b v := by
  have hsame : (scanLoop F L (seeStores F v)).same = false ↔
      ∀ a i, L.contains a = true → i ∈ F.insts a → i.spares F v := by
    rw [scanLoop, seeStores_same, forall_scan]
    exact and_iff_right rfl
  have hany : (scanLoop F L (seeStores F v)).any = false ↔
      ∀ a i, L.contains a = true → i ∈ F.insts a → isCall i = false ∧ isStore i = false := by
    rw [scanLoop, seeStores_any, forall_scan]
    exact and_iff_right rfl
  rw [mayLeave_iff, hsame, hany, ScanAllows]
  tauto

theorem canMoveLoadOutOfLoop_allows (hv : load.op.volatile = false) :
    canMoveLoadOutOfLoop A F L b load = true ↔
      ∃ addr, load.getPointerOperand = some addr ∧ ScanAllows A F L b addr := by
  rw [canMoveLoadOutOfLoop_iff]
  refine exists_congr fun addr => and_congr_right fun _ => ?_
  rw [mayLeave_allows]
  exact and_iff_right hv

/-- **What may write the location keeps the load in the loop, exactly when it is a store or a
call.** For every load of a loop with a preheader: that the test says no whenever an
instruction of the loop may modify what the load reads is true if and only if no
instruction but stores and calls may, or the test's own questions keep the load there. -/
theorem canMoveLoadOutOfLoop_writers_iff (hF : F.SsaForm) (hL : F.IsLoop L) (hp : F.IsPreheader L p)
    (hload : load ∈ F.insts b) (hin : L.contains b = true) (hl : isLoad load = true)
    (hv : load.op.volatile = false) :
    (∀ i, MayModify F L load i → canMoveLoadOutOfLoop A F L b load = false) ↔
      (∀ i, MayModify F L load i → isStore i = true ∨ isCall i = true) ∨
        ∀ addr, load.getPointerOperand = some addr → ¬ ScanAllows A F L b addr := by
  refine ⟨?_, ?_⟩
  · intro h
    by_cases hm : ∃ i, MayModify F L load i
    · obtain ⟨i, hi⟩ := hm
      refine .inr fun addr haddr hallows => ?_
      have hcan := (canMoveLoadOutOfLoop_allows hv).mpr ⟨addr, haddr, hallows⟩
      rw [h i hi] at hcan
      cases hcan
    · exact .inl fun i hi => absurd ⟨i, hi⟩ hm
  · intro h i hi
    rw [← Bool.not_eq_true]
    intro hcan
    have hleaving : Leaving A F L p b load := ⟨hF, hL, hp, hload, hin, hl, hcan⟩
    obtain ⟨hstore, hcall⟩ := hleaving.spared hi
    rcases h with h | h
    · rcases h i hi with hs | hc
      · rw [hstore] at hs
        cases hs
      · rw [hcall] at hc
        cases hc
    · obtain ⟨addr, haddr, hallows⟩ := (canMoveLoadOutOfLoop_allows hv).mp hcan
      exact h addr haddr hallows

/-! A loop that adds to the location it loads: block 1 loads a global, adds to it and goes round. -/

def counterLoad : Instr := ⟨1, ⟨.load, 0, [0], false, 0⟩, [.global 0 0], []⟩

def counterAdd : Instr := ⟨2, ⟨.atomicRMW, 0, [0, 0], false, 0⟩, [.global 0 0, .const 1 0], []⟩

def counter : Func where
  entry := 0
  blocks := [0, 1]
  insts
    | 0 => [⟨0, ⟨.br, 0, [], false, 0⟩, [], [1]⟩]
    | 1 => [counterLoad, counterAdd, ⟨3, ⟨.br, 0, [], false, 0⟩, [], [1]⟩]
    | _ => []

def counterLoop : Loop := .mk 1 [1] []

theorem counter_listed (h : counter.insts b ≠ []) : b ∈ counter.blocks := by
  match b, h with
  | 0, _ | 1, _ => decide

theorem counter_edge : counter.Edge a b ↔ (a = 0 ∨ a = 1) ∧ b = 1 := by
  have h : counter.Edge a b ↔ (a, b) ∈ [(0, 1), (1, 1)] := edge_iff counter_listed
  simp only [h, List.mem_cons, List.not_mem_nil, or_false, Prod.mk.injEq, or_and_right]

theorem counter_ssaForm : counter.SsaForm := by
  refine local_ssaForm counter_listed (fun {b} hb => ?_) (by decide)
  simp only [counter, List.mem_cons, List.not_mem_nil, or_false] at hb
  rcases hb with rfl | rfl
  · exact .refl
  · exact .single (counter_edge.mpr (by decide))

theorem counter_isLoop : counter.IsLoop counterLoop where
  header := by decide
  root := by decide
  entry e _ _ := (counter_edge.mp e).2

theorem counter_isPreheader : counter.IsPreheader counterLoop 0 where
  entered :=
    { outside := by decide
      edge := counter_edge.mpr (by decide)
      unique := by
        intro q e hq
        refine (counter_edge.mp e).1.resolve_right ?_
        intro e
        obtain rfl := e
        exact hq (by decide) }
  only := by decide
  plain := by decide

/-- The heap, with an `atomicrmw` that puts its second operand in the place of what is there. -/
def atomicEffect (op : Op) (args : List Place) (m : Heap) : Place × Heap :=
  match op.opcode, args with
  | .atomicRMW, [o, x] => (m.holds o, { m with holds := fun q => if q = o then x else m.holds q })
  | .atomicRMW, _ => (.inr 0, m)
  | _, _ => Heap.effect op args m

def atomicSem : Sem Place Heap := { heapSem with effect := atomicEffect }

theorem atomicEffect_other {op : Op} (h : op.opcode ≠ .atomicRMW) : atomicEffect op = Heap.effect op := by
  funext args m
  unfold atomicEffect
  split
  case h_1 | h_2 => exact absurd ‹op.opcode = .atomicRMW› h
  case h_3 => rfl

theorem atomicEffect_next {op : Op} {args : List Place} {m : Heap} :
    m.next ≤ (atomicEffect op args m).2.next := by
  unfold atomicEffect
  split
  · exact Nat.le_refl _
  · exact Nat.le_refl _
  · exact heap_next

def atomicObjects : atomicSem.Objects Place where
  addr := heapObjects.addr
  global := heapObjects.global
  live := heapObjects.live
  addr_inj := heapObjects.addr_inj
  global_inj := heapObjects.global_inj
  global_addr := heapObjects.global_addr
  global_live := heapObjects.global_live
  live_mono h n hn := Nat.lt_of_lt_of_le (h n hn) atomicEffect_next
  alloca {op} args m hop := by
    show ∃ o, (atomicEffect op args m).1 = _ ∧ _ ∧ heapObjects.live (atomicEffect op args m).2 o
    rw [atomicEffect_other (by rw [hop]; decide)]
    exact heapObjects.alloca args m hop
  reads {op args m} hop hv := by
    show (atomicEffect op args m).2 = m
    rw [atomicEffect_other (by rw [hop]; decide)]
    exact heapObjects.reads hop hv
  quiet {op op' args args' m} h hop := by
    show (atomicEffect op' args' (atomicEffect op args m).2).1 = (atomicEffect op' args' m).1
    rw [atomicEffect_other (by rw [hop]; decide), atomicEffect_other]
    · exact heapObjects.quiet h hop
    · intro e
      rw [e] at h
      cases h
  inside {op op' x o o' m} hop hop' hne := by
    show (atomicEffect op' [o'] (atomicEffect op [x, o] m).2).1 = (atomicEffect op' [o'] m).1
    rw [atomicEffect_other (by rw [hop']; decide), atomicEffect_other (by rw [hop]; decide)]
    exact heapObjects.inside hop hop' hne

theorem atomicObjects_confined : atomicObjects.Confined where
  atomic {op op' args o o' m} hat hop' hne := by
    show (atomicEffect op' [o'] (atomicEffect op (o :: args) m).2).1 = (atomicEffect op' [o'] m).1
    have hload := @atomicEffect_other op' (by rw [hop']; decide)
    rw [hload]
    unfold atomicEffect Heap.effect
    rw [hop']
    cases hop : op.opcode <;> simp only [hop, Opcode.isAtomic, Bool.false_eq_true] at hat ⊢
    match args with
    | [] | _ :: _ :: _ => rfl
    | [x] => simp [Ne.symm hne]
  fence {op op' args args' m} hop hop' := by
    show (atomicEffect op' args' (atomicEffect op args m).2).1 = (atomicEffect op' args' m).1
    have hfence := @atomicEffect_other op (by rw [hop]; decide)
    rw [hfence]
    unfold Heap.effect
    rw [hop]

/-- The run from a memory that holds another value than the one added. -/
theorem counterAdd_mayModify : MayModify counter counterLoop counterLoad counterAdd := by
  have hrun : ∃ c, Reachable atomicSem counter ⟨0, fun _ => .inr 1⟩ c ∧ counterLoop.contains c.label = true ∧
      (∃ rest, c.rest = counterAdd :: rest) ∧ (atomicSem.effect counterLoad.op
        (counterLoad.args atomicSem c.st.regs) (execInst atomicSem counterAdd c.st).mem).1 ≠
          c.reads atomicSem counterLoad := by
    refine ⟨_, .tail (.tail (.tail .refl rfl) rfl) rfl, rfl, ⟨_, rfl⟩, ?_⟩
    decide
  obtain ⟨c, hc, hin, ⟨rest, hr⟩, hne⟩ := hrun
  exact ⟨Place, Heap, Place, atomicSem, atomicObjects, _, c, rest, atomicObjects_confined, hc, hin, hr, hne⟩

theorem canMoveLoadOutOfLoop_writers_iff_counter :
    (∀ i, MayModify counter counterLoop counterLoad i →
      canMoveLoadOutOfLoop (exactAnalyses [counterLoop]) counter counterLoop 1 counterLoad = false) ↔
      (∀ i, MayModify counter counterLoop counterLoad i → isStore i = true ∨ isCall i = true) ∨
        ∀ addr, counterLoad.getPointerOperand = some addr →
          ¬ ScanAllows (exactAnalyses [counterLoop]) counter counterLoop 1 addr :=
  canMoveLoadOutOfLoop_writers_iff counter_ssaForm counter_isLoop counter_isPreheader (by decide) rfl rfl rfl

/-- The load leaves the loop although the loop adds to what it reads. -/
theorem counter_load_leaves :
    counter.SsaForm ∧ counter.IsLoop counterLoop ∧ counter.IsPreheader counterLoop 0 ∧
    MayModify counter counterLoop counterLoad counterAdd ∧
    canMoveLoadOutOfLoop (exactAnalyses [counterLoop]) counter counterLoop 1 counterLoad = true :=
  ⟨counter_ssaForm, counter_isLoop, counter_isPreheader, counterAdd_mayModify, rfl⟩

end Ece566.Llvm
