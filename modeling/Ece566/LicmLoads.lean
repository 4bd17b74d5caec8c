import Ece566.BlockExec
import Ece566.LicmSsa

/- A load that leaves its loop reads what it would have read inside. The memory is made of
   objects, each alloca and each global one of its own; a store through the address of an
   object stays inside it, a store through any other pointer and a call may write
   anything. The test `isSameAddress` is exact when its first argument is an alloca or a
   global, and takes any other address to be the same, so what a store of the loop can
   write never includes what the load reads. -/
namespace Ece566.Llvm

open Dominance Relation

/-- LLVM's `mayWriteToMemory`, on the opcode. -/
def Opcode.writesMemory : Opcode → Bool
  | .store | .call | .invoke | .callBr | .fence | .atomicCmpXchg | .atomicRMW | .vaArg | .catchPad
  | .catchRet => true
  | _ => false

variable {V M : Type}

/-- A memory of objects. `addr o` is the address of object `o`; an alloca makes a new object;
a load that is not volatile changes nothing; what is no memory-writing instruction changes
nothing a load can see, and a store at the address of an object nothing a load at the address
of another one can see. -/
structure Sem.Objects (S : Sem V M) (Obj : Type) where
  addr : Obj → V
  global : Nat → Ty → Obj
  live : M → Obj → Prop
  addr_inj : ∀ {o o'}, addr o = addr o' → o = o'
  global_inj : ∀ {g g' ty ty'}, global g ty = global g' ty' → g = g' ∧ ty = ty'
  global_addr : ∀ g ty, S.leaf (.global g ty) = addr (global g ty)
  global_live : ∀ m g ty, live m (global g ty)
  live_mono : ∀ {op args m o}, live m o → live (S.effect op args m).2 o
  alloca : ∀ {op : Op} (args m), op.opcode = .alloca →
    ∃ o, (S.effect op args m).1 = addr o ∧ ¬ live m o ∧ live (S.effect op args m).2 o
  reads : ∀ {op : Op} {args m}, op.opcode = .load → op.volatile = false → (S.effect op args m).2 = m
  quiet : ∀ {op op' : Op} {args args' m}, op.opcode.writesMemory = false → op'.opcode = .load →
    (S.effect op' args' (S.effect op args m).2).1 = (S.effect op' args' m).1
  inside : ∀ {op op' : Op} {x o o' m}, op.opcode = .store → op'.opcode = .load → o ≠ o' →
    (S.effect op' [addr o'] (S.effect op [x, addr o] m).2).1 = (S.effect op' [addr o'] m).1

variable {Obj : Type} {S : Sem V M} {O : S.Objects Obj} {F : Func} {L : Loop} {A : LoopAnalyses}
variable {a b p : Label} {i j load : Instr} {v w : Value} {m : M} {st : State V M}
variable {c d : Config V M}

/-! The objects of a run. -/

/-- The register of an alloca holds the address of an object that is no global and no other
alloca's. -/
structure Owned (O : S.Objects Obj) (F : Func) (st : State V M) : Prop where
  object : ∀ {a i x}, i ∈ F.insts a → i.op.opcode = .alloca → st.regs i.id = some x →
    ∃ o, x = O.addr o ∧ O.live st.mem o ∧ ∀ g ty, o ≠ O.global g ty
  apart : ∀ {a b i j x}, i ∈ F.insts a → j ∈ F.insts b → i.op.opcode = .alloca →
    j.op.opcode = .alloca → st.regs i.id = some x → st.regs j.id = some x → i.id = j.id

theorem alloca_effect (h : i.op.opcode = .alloca) : i.isPhi = false ∧ i.op.opcode.isPure = false := by
  rw [Instr.isPhi, h]
  exact ⟨rfl, rfl⟩

/-- An instruction keeps the objects there are. -/
theorem execInst_live {o : Obj} (h : O.live st.mem o) : O.live (execInst S i st).mem o := by
  cases hphi : i.isPhi with
  | true => simpa [execInst, hphi] using h
  | false =>
    cases hpure : i.op.opcode.isPure with
    | true => simpa [execInst, hphi, hpure] using h
    | false =>
      rw [execInst_effect hphi hpure]
      exact O.live_mono h

theorem Owned.exec (h : Owned O F st) (hF : F.SsaForm) (hi : i ∈ F.insts b) :
    Owned O F (execInst S i st) := by
  have hsame : ∀ {a k}, k ∈ F.insts a → k.id = i.id → k = i := by
    intro a k hk e
    obtain rfl := hF.unique (mem_ids.mpr ⟨k, hk, e⟩) (mem_ids.mpr ⟨i, hi, rfl⟩)
    exact hF.inst_eq hk hi e
  -- an alloca that has just run has a new object, unlike any other's
  have hnew : i.op.opcode = .alloca → ∃ o, (execInst S i st).regs i.id = some (O.addr o) ∧
      ¬ O.live st.mem o ∧ O.live (execInst S i st).mem o := by
    intro hop
    obtain ⟨hphi, hpure⟩ := alloca_effect hop
    obtain ⟨o, ho, hdead, hlive⟩ := O.alloca (i.args S st.regs) st.mem hop
    refine ⟨o, ?_, hdead, ?_⟩
    · simp only [execInst_effect hphi hpure, assign_same, ho]
    · simpa only [execInst_effect hphi hpure] using hlive
  have hother : ∀ {a k x o}, k ∈ F.insts a → k.op.opcode = .alloca → k.id ≠ i.id →
      (execInst S i st).regs k.id = some x → x = O.addr o → O.live st.mem o := by
    intro a k x o hk hop hne hx e
    rw [execInst_regs i st hne] at hx
    obtain ⟨o', e', hlive, -⟩ := h.object hk hop hx
    rwa [O.addr_inj (e.symm.trans e')]
  constructor
  case object =>
    intro a k x hk hop hx
    by_cases e : k.id = i.id
    · obtain rfl := hsame hk e
      obtain ⟨o, ho, hdead, hlive⟩ := hnew hop
      rw [ho, Option.some.injEq] at hx
      refine ⟨o, hx.symm, hlive, fun g ty e => hdead ?_⟩
      rw [e]
      exact O.global_live _ g ty
    · rw [execInst_regs i st e] at hx
      obtain ⟨o, ho, hlive, hg⟩ := h.object hk hop hx
      exact ⟨o, ho, execInst_live hlive, hg⟩
  case apart =>
    intro a b' k l x hk hl hop hop' hx hx'
    by_cases e : k.id = i.id <;> by_cases e' : l.id = i.id
    · rw [e, e']
    · obtain rfl := hsame hk e
      obtain ⟨o, ho, hdead, -⟩ := hnew hop
      rw [ho, Option.some.injEq] at hx
      exact absurd (hother hl hop' e' hx' hx.symm) hdead
    · obtain rfl := hsame hl e'
      obtain ⟨o, ho, hdead, -⟩ := hnew hop'
      rw [ho, Option.some.injEq] at hx'
      exact absurd (hother hk hop e hx hx'.symm) hdead
    · rw [execInst_regs i st e] at hx
      rw [execInst_regs i st e'] at hx'
      exact h.apart hk hl hop hop' hx hx'

/-- A block's phis are no allocas. -/
theorem enter_alloca (hF : F.SsaForm) {q : Label} {regs : Nat → Option V} (hi : i ∈ F.insts a)
    (hop : i.op.opcode = .alloca) : enter S q (F.insts b) regs i.id = regs i.id := by
  refine enter_other fun k hk hphi e => ?_
  obtain rfl := hF.unique (mem_ids.mpr ⟨k, hk, e⟩) (mem_ids.mpr ⟨i, hi, rfl⟩)
  rw [hF.inst_eq hk hi e, (alloca_effect hop).1] at hphi
  cases hphi

theorem Owned.enter (h : Owned O F st) (hF : F.SsaForm) {q : Label} {path : List Label} :
    Owned O F { st with regs := Llvm.enter S q (F.insts b) st.regs, path := path } where
  object {a i x} hi hop hx := by
    have hx' : Llvm.enter S q (F.insts b) st.regs i.id = some x := hx
    rw [enter_alloca hF hi hop] at hx'
    exact h.object hi hop hx'
  apart {a c i j x} hi hj hop hop' hx hx' := by
    have h₁ : Llvm.enter S q (F.insts b) st.regs i.id = some x := hx
    have h₂ : Llvm.enter S q (F.insts b) st.regs j.id = some x := hx'
    rw [enter_alloca hF hi hop] at h₁
    rw [enter_alloca hF hj hop'] at h₂
    exact h.apart hi hj hop hop' h₁ h₂

theorem Reachable.owned (hF : F.SsaForm) (hc : Reachable S F m c) : Owned O F c.st := by
  induction hc with
  | refl => exact ⟨fun _ _ h => (nomatch h), fun _ _ _ _ h => (nomatch h)⟩
  | tail hc h ih =>
    rcases step_cases h with ⟨i, rest, hr, rfl⟩ | ⟨b, hr, hn, rfl⟩
    · exact ih.exec hF ((Reachable.valid hF hc).mem_insts hr)
    · exact ih.enter hF

/-- A value that is the address of an object of its own: a global, or an alloca that has run. -/
inductive Identified (F : Func) (st : State V M) : Value → Prop where
  | global (g : Nat) (ty : Ty) : Identified F st (.global g ty)
  | alloca {a : Label} {i : Instr} : i ∈ F.insts a → i.op.opcode = .alloca →
      (st.regs i.id).isSome = true → Identified F st i.value

theorem Identified.object (h : Identified F st v) (hO : Owned O F st) :
    ∃ o, S.value st.regs v = O.addr o := by
  cases h with
  | global g ty => exact ⟨_, O.global_addr g ty⟩
  | @alloca a i hi hop hsome =>
    obtain ⟨x, hx⟩ := Option.isSome_iff_exists.mp hsome
    obtain ⟨o, rfl, -⟩ := hO.object hi hop hx
    exact ⟨o, by simp [Instr.value, Sem.value, hx]⟩

/-- Different such values are addresses of different objects. -/
theorem Identified.apart (hF : F.SsaForm) (h : Identified F st v) (h' : Identified F st w)
    (hO : Owned O F st) (hne : v ≠ w) : S.value st.regs v ≠ S.value st.regs w := by
  have hglobal : ∀ {a i g ty}, i ∈ F.insts a → i.op.opcode = .alloca →
      (st.regs i.id).isSome = true → S.value st.regs i.value ≠ S.value st.regs (.global g ty) := by
    intro a i g ty hi hop hsome e
    obtain ⟨x, hx⟩ := Option.isSome_iff_exists.mp hsome
    obtain ⟨o, rfl, -, hg⟩ := hO.object hi hop hx
    rw [Instr.value, Sem.value, hx, Option.getD_some, Sem.value, O.global_addr] at e
    · exact hg g ty (O.addr_inj e)
    · intro _ _ e
      cases e
  intro e
  cases h with
  | global g ty =>
    cases h' with
    | global g' ty' =>
      have hg := O.global_inj (O.addr_inj ((O.global_addr g ty).symm.trans (e.trans (O.global_addr g' ty'))))
      exact hne (by rw [hg.1, hg.2])
    | alloca hj hop hsome => exact hglobal hj hop hsome e.symm
  | @alloca a i hi hop hsome =>
    cases h' with
    | global g ty => exact hglobal hi hop hsome e
    | @alloca b j hj hop' hsome' =>
      obtain ⟨x, hx⟩ := Option.isSome_iff_exists.mp hsome
      obtain ⟨y, hy⟩ := Option.isSome_iff_exists.mp hsome'
      rw [Instr.value, Instr.value, Sem.value, Sem.value, hx, hy] at e
      obtain rfl : x = y := e
      have hid := hO.apart hi hj hop hop' hx hy
      obtain rfl := hF.unique (mem_ids.mpr ⟨i, hi, hid⟩) (mem_ids.mpr ⟨j, hj, rfl⟩)
      exact hne (by rw [hF.inst_eq hi hj hid])

/-! What the scan over the loop has seen. -/

/-- An instruction that leaves alone what is at `addr`, as far as the scan can see. -/
def Instr.spares (F : Func) (addr : Value) (i : Instr) : Prop := isCall i = false ∧
  (isStore i = true → ∀ a, i.getPointerOperand = some a → isSameAddress F a addr = false)

theorem seeStores_same {addr : Value} (l : List Instr) : ∀ {seen : Seen},
    (l.foldl (seeStores F addr) seen).same = false ↔ seen.same = false ∧ ∀ i ∈ l, i.spares F addr := by
  induction l with
  | nil => simp
  | cons i l ih =>
    intro seen
    have hi : (seeStores F addr seen i).same = false ↔ seen.same = false ∧ i.spares F addr := by
      unfold seeStores Instr.spares isCall isStore
      cases hop : i.getOpcode with
      | store => simp [Option.any_eq_false]
      | call => simp [isIdempotent, hop]
      | _ => simp
    rw [List.foldl_cons, ih, hi, and_assoc, List.forall_mem_cons]

theorem seeStores_any {addr : Value} (l : List Instr) : ∀ {seen : Seen},
    (l.foldl (seeStores F addr) seen).any = false ↔
      seen.any = false ∧ ∀ i ∈ l, isCall i = false ∧ isStore i = false := by
  induction l with
  | nil => simp
  | cons i l ih =>
    intro seen
    have hi : (seeStores F addr seen i).any = false ↔
        seen.any = false ∧ isCall i = false ∧ isStore i = false := by
      unfold seeStores isCall isStore
      cases hop : i.getOpcode with
      | store => simp
      | call => simp [isIdempotent, hop]
      | _ => simp
    rw [List.foldl_cons, ih, hi, and_assoc, List.forall_mem_cons]

/-- The instructions of a loop, as the scan goes over them. -/
theorem mem_scan {l : Loop} : i ∈ l.getBlocks.flatMap F.insts ↔
    ∃ a, l.contains a = true ∧ i ∈ F.insts a := by
  rw [List.mem_flatMap]
  exact exists_congr fun a => and_congr_left fun _ => List.contains_iff_mem.symm

theorem mem_loop {c : Label} (hc : L.contains c = true) (hi : i ∈ F.insts c) :
    i ∈ L.getBlocks.flatMap F.insts :=
  List.mem_flatMap.mpr ⟨c, List.contains_iff_mem.mp hc, hi⟩

/-- An operand that is an alloca. -/
theorem alloca_value (hF : F.SsaForm) (hj : j ∈ F.insts b) (hv : v ∈ j.operands)
    (h : isAllocaInst F v = true) : ∃ a, ∃ i ∈ F.insts a, i.op.opcode = .alloca ∧ v = i.value := by
  cases v with
  | inst id ty =>
    simp only [isAllocaInst, List.any_eq_true, Bool.and_eq_true, beq_iff_eq] at h
    obtain ⟨i, hall, rfl, hop⟩ := h
    obtain ⟨a, -, hi⟩ := List.mem_flatMap.mp hall
    obtain ⟨a', d, hd, e, rfl, -⟩ := hF.refs hj hv
    obtain rfl := hF.unique (mem_ids.mpr ⟨d, hd, e⟩) (mem_ids.mpr ⟨i, hi, rfl⟩)
    obtain rfl := hF.inst_eq hd hi e
    exact ⟨_, d, hd, hop, rfl⟩
  | _ => cases h

/-- An address that `isSameAddress` tells from another one is a global or an alloca. -/
theorem different_address (hF : F.SsaForm) (hj : j ∈ F.insts b) (hw : w ∈ j.operands)
    (h : isSameAddress F w v = false) : w ≠ v ∧
      ((∃ g ty, w = .global g ty) ∨ ∃ a, ∃ i ∈ F.insts a, i.op.opcode = .alloca ∧ w = i.value) := by
  unfold isSameAddress at h
  split at h
  · rename_i ha
    exact ⟨by simpa using h, .inr (alloca_value hF hj hw ha)⟩
  · split at h
    · rename_i hg
      refine ⟨by simpa using h, .inl ?_⟩
      cases w with
      | global g ty => exact ⟨g, ty, rfl⟩
      | _ => cases hg
    · cases h

/-! What comes from outside the loop. -/

theorem not_mem_of_invariant {id : Nat} {ty : Ty} (hv : isLoopInvariant F L (.inst id ty) = true)
    (ha : L.contains a = true) : id ∉ F.ids a := by
  intro hid
  rw [isLoopInvariant, isInside_iff.mpr ⟨a, ha, hid⟩] at hv
  cases hv

/-- No instruction of the loop changes it. -/
theorem value_inst (hv : isLoopInvariant F L v = true) (ha : L.contains a = true)
    (hi : i ∈ F.insts a) : S.value (execInst S i st).regs v = S.value st.regs v := by
  refine value_congr fun id ty e => execInst_regs i st fun hid => ?_
  obtain rfl := e
  exact not_mem_of_invariant hv ha (mem_ids.mpr ⟨i, hi, hid.symm⟩)

/-- Neither do the phis of a block of it. -/
theorem value_enter (hv : isLoopInvariant F L v = true) (ha : L.contains a = true) {q : Label}
    {regs : Nat → Option V} : S.value (enter S q (F.insts a) regs) v = S.value regs v := by
  refine value_congr fun id ty e => enter_other fun k hk _ hid => ?_
  obtain rfl := e
  exact not_mem_of_invariant hv ha (mem_ids.mpr ⟨k, hk, hid⟩)

/-- What is outside and used inside dominates the header, so it has run wherever the run is in
the loop. -/
theorem Valid.defined_outside (hv : Valid S F d) (hF : F.SsaForm) (hL : F.IsLoop L)
    (hd : L.contains d.label = true) (hj : j ∈ F.insts b) (hphi : j.isPhi = false)
    (hb : L.contains b = true) (hi : i ∈ F.insts a) (hout : ¬ L.contains a = true)
    (ho : i.value ∈ j.operands) : (d.st.regs i.id).isSome = true := by
  have hid : i.id ∈ F.ids a := mem_ids.mpr ⟨i, hi, rfl⟩
  have hab := Before.dom (hF.uses hj hphi ho hid)
  have hah := hL.dom_header (hF.reachable (List.ne_nil_of_mem hj)) hb hout hab
  refine hv.defined hid (.inr ⟨?_, hah.trans (hL.header_dom hd)⟩)
  intro e
  obtain rfl := e
  exact hout hd

/-- A global, or an alloca outside the loop whose address is used inside. -/
theorem Valid.identified_outside (hv : Valid S F d) (hF : F.SsaForm) (hL : F.IsLoop L)
    (hd : L.contains d.label = true) (hj : j ∈ F.insts b) (hphi : j.isPhi = false)
    (hb : L.contains b = true) (ho : v ∈ j.operands)
    (h : isGlobalVariable v = true ∨ (isAllocaInst F v = true ∧ isInside F L v = false)) :
    Identified F d.st v := by
  rcases h with hg | ⟨ha, hin⟩
  · cases v with
    | global g ty => exact .global g ty
    | _ => cases hg
  · obtain ⟨a, z, hz, hop, rfl⟩ := alloca_value hF hj ho ha
    refine .alloca hz hop (hv.defined_outside hF hL hd hj hphi hb hz (fun hin' => ?_) ho)
    rw [Instr.value, isInside_iff.mpr ⟨a, hin', mem_ids.mpr ⟨z, hz, rfl⟩⟩] at hin
    cases hin

/-- An operand of the instruction about to run. -/
theorem Valid.identified_operand (hv : Valid S F d) (hF : F.SsaForm) {rest : List Instr}
    (hr : d.rest = i :: rest) (hphi : i.isPhi = false) (hw : w ∈ i.operands)
    (h : (∃ g ty, w = .global g ty) ∨ ∃ a, ∃ z ∈ F.insts a, z.op.opcode = .alloca ∧ w = z.value) :
    Identified F d.st w := by
  rcases h with ⟨g, ty, rfl⟩ | ⟨a, z, hz, hop, rfl⟩
  · exact .global g ty
  · have hid : z.id ∈ F.ids a := mem_ids.mpr ⟨z, hz, rfl⟩
    have hbef := hF.uses (hv.mem_insts hr) hphi hw hid
    exact .alloca hz hop (hv.defined hid (hv.past_of_before hF hr hbef))

/-! A memory of this kind: every object is one cell, and a cell holds an address. -/

abbrev Place := (Nat × Ty) ⊕ Nat

structure Heap where
  next : Nat
  holds : Place → Place

def Heap.empty : Heap := ⟨0, fun _ => .inr 0⟩

def Heap.effect (op : Op) (args : List Place) (m : Heap) : Place × Heap :=
  match op.opcode, args with
  | .alloca, _ => (.inr m.next, { m with next := m.next + 1 })
  | .load, [o] => (m.holds o, m)
  | .store, [x, o] => (x, { m with holds := fun q => if q = o then x else m.holds q })
  | _, _ => (.inr 0, m)

/-- A terminator with an operand takes its second successor. -/
def heapSem : Sem Place Heap where
  leaf
    | .global g ty => .inl (g, ty)
    | _ => .inr 0
  undef := .inr 0
  compute _ _ := .inr 0
  effect := Heap.effect
  branch _ args _ := args.length

theorem heap_quiet {op : Op} {args : List Place} {m : Heap} (h : op.opcode.writesMemory = false) :
    (Heap.effect op args m).2.holds = m.holds ∧ m.next ≤ (Heap.effect op args m).2.next := by
  unfold Heap.effect
  split
  case h_3 hop =>
    rw [hop] at h
    cases h
  all_goals exact ⟨rfl, by simp⟩

theorem heap_next {op : Op} {args : List Place} {m : Heap} :
    m.next ≤ (Heap.effect op args m).2.next := by
  unfold Heap.effect
  split <;> simp

theorem heap_load {op : Op} {args : List Place} {m m' : Heap} (hop : op.opcode = .load)
    (h : m'.holds = m.holds) : (Heap.effect op args m').1 = (Heap.effect op args m).1 := by
  unfold Heap.effect
  rw [hop]
  match args with
  | [] | [_] | _ :: _ :: _ => simp [h]

def heapObjects : heapSem.Objects Place where
  addr := id
  global g ty := .inl (g, ty)
  live m o := ∀ n, o = .inr n → n < m.next
  addr_inj := id
  global_inj h := by simpa using h
  global_addr _ _ := rfl
  global_live _ _ _ _ h := nomatch h
  live_mono h n hn := Nat.lt_of_lt_of_le (h n hn) heap_next
  alloca {op} args m hop := by
    refine ⟨.inr m.next, ?_, fun h => ?_, fun n hn => ?_⟩
    · simp [heapSem, Heap.effect, hop]
    · exact absurd (h _ rfl) (Nat.lt_irrefl _)
    · obtain rfl := Sum.inr.inj hn
      simp [heapSem, Heap.effect, hop]
  reads {op args m} hop _ := by
    show (Heap.effect op args m).2 = m
    unfold Heap.effect
    rw [hop]
    match args with
    | [] | [_] | _ :: _ :: _ => rfl
  quiet h hop := heap_load hop (heap_quiet h).1
  inside {op op' x o o' m} hop hop' hne := by
    simp [heapSem, Heap.effect, hop, hop', Ne.symm hne]

end Ece566.Llvm
