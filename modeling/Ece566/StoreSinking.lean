import Ece566.Simulation
import Ece566.LateWrites
import Ece566.LicmWriters
import Ece566.LicmExits

/- What `canMoveStoreOutOfLoop` is for. Above the function stand three requirements: the
   store is always to one address, nothing else in the loop is at that address, and the
   store runs before the loop is left. Together they make the store one that can run on
   the exits of the loop instead: a run without it does the same from the header to an
   exit, and lacks only the last value stored. This is proved here of every store that
   meets the three; whether the test asks for them is another matter. -/
namespace Ece566.Llvm

open Dominance Relation LateWrites

/-- LLVM's `mayReadOrWriteMemory`, on the opcode. -/
def Opcode.mayReadOrWriteMemory (o : Opcode) : Bool := o.writesMemory || o == .load

variable {V M : Type}

/-- The memory after a store of `x` to the address `a`. -/
def Sem.put (S : Sem V M) (op : Op) (a x : V) (m : M) : M := (S.effect op [x, a] m).2

/-- A store that is not volatile is a write to a place of its own. What does not access memory
ignores the place, and so do the loads and stores of other objects. -/
structure Sem.Objects.Stores {S : Sem V M} {Obj : Type} (O : S.Objects Obj) : Prop where
  overwrites : ∀ {op : Op} {a}, op.opcode = .store → op.volatile = false → Overwrites (S.put op a)
  quiet : ∀ {op op' : Op} {a args m}, op.opcode = .store → op'.opcode.mayReadOrWriteMemory = false →
    Ignores (S.put op a) (S.effect op' args) m
  branch : ∀ {op op' : Op} {a x args m}, op.opcode = .store →
    op'.opcode.mayReadOrWriteMemory = false → S.branch op' args (S.put op a x m) = S.branch op' args m
  load : ∀ {op op' : Op} {o o' m}, op.opcode = .store → op'.opcode = .load → o ≠ o' →
    Ignores (S.put op (O.addr o)) (S.effect op' [O.addr o']) m
  store : ∀ {op op' : Op} {o o' x m}, op.opcode = .store → op'.opcode = .store → o ≠ o' →
    Ignores (S.put op (O.addr o)) (S.effect op' [x, O.addr o']) m

/-- What an instruction makes of a memory: registers, successor, memory. -/
def Instr.run (i : Instr) (S : Sem V M) (regs : Nat → Option V) (m : M) :
    ((Nat → Option V) × Option Label) × M :=
  let st : State V M := ⟨regs, m, [], []⟩
  (((execInst S i st).regs, if i.isTerminator then chosen S i st else none), (execInst S i st).mem)

/-- On some execution instruction `i` of loop `L` reads or writes where `store` stores. -/
def MayAccess (S : Sem V M) (F : Func) (L : Loop) (store i : Instr) : Prop :=
  ∃ (m : M) (c : Config V M) (rest : List Instr) (storeAddr : Value), Reachable S F m c ∧
    L.contains c.label = true ∧ c.rest = i :: rest ∧ store.getPointerOperand = some storeAddr ∧
      ¬ Ignores (S.put store.op (S.value c.st.regs storeAddr)) (i.run S c.st.regs) c.st.mem

/-- The requirements in the comment of `canMoveStoreOutOfLoop`. -/
structure Requirements (S : Sem V M) (F : Func) (L : Loop) (b : Label) (store : Instr) : Prop where
  address : ∀ storeAddr, store.getPointerOperand = some storeAddr → isLoopInvariant F L storeAddr = true
  access : ∀ a i, L.contains a = true → i ∈ F.insts a → i.id ≠ store.id → ¬ MayAccess S F L store i
  exits : ∀ exitBlock ∈ getExitBlocks F L, F.Dom b exitBlock

/-! Visits to the loop. -/

/-- The value last stored, after the step from `c`. -/
def Config.stored (S : Sem V M) (store : Instr) (last : Option V) (c : Config V M) : Option V :=
  match c.rest with
  | i :: _ => if i.id = store.id then (i.args S c.st.regs).head? else last
  | [] => last

/-- From `c₀` the run has come to `c` and not left the loop; `last` is what `store` has stored
last. -/
inductive Visit (S : Sem V M) (F : Func) (L : Loop) (store : Instr) (c₀ : Config V M) :
    Config V M → Option V → Prop
  | start : Visit S F L store c₀ c₀ none
  | step {c d last} : Visit S F L store c₀ c last → step S F c = some d → L.contains d.label = true →
      Visit S F L store c₀ d (c.stored S store last)

/-- The same point of the function without `store`. -/
def Config.without (c : Config V M) (store : Instr) : Config V M :=
  { c with rest := c.rest.filter fun i => i.id != store.id }

/-- Whenever the run is about to leave the loop, `store` has run, and without it the run from the
header comes to the same exit with the same registers; there `store` stores the last value
again, and the memory is what it was. -/
def RunsOnExits (S : Sem V M) (F : Func) (L : Loop) (store : Instr) : Prop :=
  ∀ (m : M) (c₀ c : Config V M) (last : Option V) (exitBlock : Label), Reachable S F m c₀ →
    c₀.label = L.header → c₀.rest = F.insts L.header → Visit S F L store c₀ c last → c.rest = [] →
    c.next = some exitBlock → L.contains exitBlock = false →
    ∃ x d, last = some x ∧ Runs (step S (F.eraseFromParent store.id)) (c₀.without store) d ∧
      d.label = c.label ∧ d.rest = [] ∧ d.next = some exitBlock ∧ d.st.path = c.st.path ∧
      (∀ n, n ≠ store.id → d.st.regs n = c.st.regs n) ∧ (store.args S d.st.regs).head? = some x ∧
      (execInst S store d.st).mem = c.st.mem

variable {Obj : Type} {S : Sem V M} {O : S.Objects Obj} {F : Func} {L : Loop} {A : LoopAnalyses}
variable {a b p : Label} {i j store : Instr} {v w storeAddr : Value} {m n : M} {st : State V M}
variable {c d c₀ : Config V M} {last : Option V}

/-! What ignores the place of the store. -/

theorem run_quiet (h : i.isQuiet = true) {regs : Nat → Option V} :
    i.run S regs m = ((i.run S regs n).1, m) := by
  have hterm := isQuiet_not_terminator h
  cases hphi : i.isPhi with
  | true => simp [Instr.run, execInst, hphi, hterm]
  | false =>
    rw [Instr.isQuiet, hphi, Bool.false_or] at h
    simp [Instr.run, execInst, hphi, h, hterm]

theorem run_effect (hphi : i.isPhi = false) (hpure : i.op.opcode.isPure = false)
    {regs : Nat → Option V} : i.run S regs m =
      ((assign regs i.id (S.effect i.op (i.args S regs) m).1,
        if i.isTerminator then i.blocks[S.branch i.op (i.args S regs) m]? else none),
        (S.effect i.op (i.args S regs) m).2) := by
  simp only [Instr.run, execInst_effect hphi hpure, chosen]

/-- An instruction that is not quiet ignores a place when its effect and its choice do. -/
theorem ignores_run {X : Type} {put : X → M → M} {regs : Nat → Option V} (hphi : i.isPhi = false)
    (hpure : i.op.opcode.isPure = false) (he : Ignores put (S.effect i.op (i.args S regs)) m)
    (hb : i.isTerminator = true → ∀ x,
      S.branch i.op (i.args S regs) (put x m) = S.branch i.op (i.args S regs) m) :
    Ignores put (i.run S regs) m := by
  intro x
  rw [run_effect hphi hpure, run_effect hphi hpure, he x]
  cases hterm : i.isTerminator with
  | true => rw [if_pos rfl, if_pos rfl, hb hterm x]
  | false => rfl

/-- What does not access memory ignores every place. -/
theorem ignores_quiet (hO : O.Stores) (hs : isStore store = true)
    (hi : i.op.opcode.mayReadOrWriteMemory = false) {x : V} {regs : Nat → Option V} :
    Ignores (S.put store.op x) (i.run S regs) m := by
  have hop := opcode_of_isStore hs
  cases hq : i.isQuiet with
  | true =>
    intro y
    rw [run_quiet hq (n := m)]
    exact congrArg (Prod.mk _) (congrArg _ (congrArg Prod.snd (run_quiet hq (n := m))).symm)
  | false =>
    obtain ⟨hphi, hpure⟩ := Bool.or_eq_false_iff.mp hq
    exact ignores_run hphi hpure (hO.quiet hop hi) fun _ _ => hO.branch hop hi

/-! The run without the store. -/

theorem execInst_run (i : Instr) (st : State V M) :
    (execInst S i st).regs = (i.run S st.regs st.mem).1.1 ∧
      (execInst S i st).mem = (i.run S st.regs st.mem).2 ∧ (i.isTerminator = true →
        chosen S i st = (i.run S st.regs st.mem).1.2) := by
  refine ⟨?_, ?_, fun h => ?_⟩
  · simp only [Instr.run, execInst]
    split
    · rfl
    · split <;> rfl
  · simp only [Instr.run, execInst]
    split
    · rfl
    · split <;> rfl
  · simp only [Instr.run, h, if_true, chosen]

/-- Registers that differ at `z` only, which is no operand. -/
theorem run_congr {z : Nat} {regs regs' : Nat → Option V} (hregs : ∀ k, k ≠ z → regs' k = regs k)
    (hargs : i.args S regs' = i.args S regs) :
    (∀ k, k ≠ z → (i.run S regs' m).1.1 k = (i.run S regs m).1.1 k) ∧
      (i.run S regs' m).1.2 = (i.run S regs m).1.2 ∧ (i.run S regs' m).2 = (i.run S regs m).2 := by
  have hassign : ∀ {x : V} {k}, k ≠ z → assign regs' i.id x k = assign regs i.id x k := by
    intro x k hk
    unfold assign
    rw [hregs k hk]
  cases hphi : i.isPhi with
  | true => simpa [Instr.run, execInst, hphi, chosen, hargs] using hregs
  | false =>
    cases hpure : i.op.opcode.isPure with
    | true =>
      simp only [Instr.run, execInst, hphi, hpure, chosen, hargs, Bool.false_eq_true, if_false,
        if_true, and_self, and_true]
      exact fun k => hassign
    | false =>
      rw [run_effect hphi hpure, run_effect hphi hpure, hargs]
      exact ⟨fun k => hassign, rfl, rfl⟩

/-- `d`, of the run without the store, is at the point of `c`, and its memory lacks the writes at
`a`. -/
structure Shadow (S : Sem V M) (store : Instr) (a : V) (c d : Config V M) (last : Option V) :
    Prop where
  label : d.label = c.label
  rest : d.rest = c.rest.filter fun i => i.id != store.id
  next : d.next = c.next
  path : d.st.path = c.st.path
  regs : ∀ k, k ≠ store.id → d.st.regs k = c.st.regs k
  mem : Lacks (S.put store.op a) last c.st.mem d.st.mem

namespace Shadow

variable {x y : V} {rest : List Instr}

/-- The run with the store alone runs it. -/
theorem skip (h : Shadow S store x c d last) (hp : Overwrites (S.put store.op x))
    (hs : isStore store = true) (hr : c.rest = store :: rest) (hargs : store.args S c.st.regs = [y, x]) :
    Shadow S store x ⟨c.label, rest, if store.isTerminator then chosen S store c.st else c.next,
      execInst S store c.st⟩ d (some y) where
  label := h.label
  rest := by rw [h.rest, hr, List.filter_cons_of_neg (by simp)]
  next := by simp [not_terminator_of_isStore hs, h.next]
  path := h.path.trans (execInst_path store c.st).symm
  regs k hk := (h.regs k hk).trans (execInst_regs store c.st hk).symm
  mem := by
    rw [execInst_effect (not_phi_of_isStore hs) (not_pure_of_isStore hs), hargs]
    exact h.mem.written hp

/-- Both run an instruction that ignores the place. -/
theorem inst (h : Shadow S store x c d last) (hr : c.rest = i :: rest) (hne : i.id ≠ store.id)
    (hargs : i.args S d.st.regs = i.args S c.st.regs)
    (hi : Ignores (S.put store.op x) (i.run S c.st.regs) c.st.mem) :
    ∃ d', step S (F.eraseFromParent store.id) d = some d' ∧ Shadow S store x ⟨c.label, rest,
      if i.isTerminator then chosen S i c.st else c.next, execInst S i c.st⟩ d' last := by
  have hdr : d.rest = i :: rest.filter fun i => i.id != store.id := by
    rw [h.rest, hr, List.filter_cons_of_pos (by simpa using hne)]
  obtain ⟨hregs, hmem, hchosen⟩ := execInst_run (S := S) i c.st
  obtain ⟨hregs', hmem', hchosen'⟩ := execInst_run (S := S) i d.st
  obtain ⟨hk, hnext, hm⟩ := run_congr (m := d.st.mem) h.regs hargs
  obtain ⟨hsame, hlacks⟩ := h.mem.ignored hi
  refine ⟨_, step_inst hdr, h.label, rfl, ?_, ?_, ?_, ?_⟩
  · show (if i.isTerminator then chosen S i d.st else d.next) = _
    split
    · rename_i hterm
      rw [hchosen' hterm, hchosen hterm, hnext, hsame]
    · exact h.next
  · exact (execInst_path i d.st).trans (h.path.trans (execInst_path i c.st).symm)
  · intro k hkz
    show (execInst S i d.st).regs k = (execInst S i c.st).regs k
    rw [hregs', hregs, hk k hkz, hsame]
  · show Lacks _ last (execInst S i c.st).mem (execInst S i d.st).mem
    rw [hmem, hmem', hm]
    exact hlacks

/-- Both enter the next block. -/
theorem enter (h : Shadow S store x c d last) {y : Label} (hr : c.rest = []) (hn : c.next = some y)
    (hops : ∀ i ∈ F.insts y, ∀ o ∈ i.operands, S.value d.st.regs o = S.value c.st.regs o) :
    ∃ d', step S (F.eraseFromParent store.id) d = some d' ∧ Shadow S store x ⟨y, F.insts y, none,
      { c.st with
        regs := Llvm.enter S c.label (F.insts y) c.st.regs, path := c.st.path ++ [y] }⟩ d' last := by
  have hdr : d.rest = [] := by rw [h.rest, hr]; rfl
  refine ⟨_, step_enter hdr (h.next.trans hn), rfl, rfl, rfl, by rw [h.path], ?_, h.mem⟩
  intro k hk
  have hfind : ((F.insts y).filter fun i => i.id != store.id).find? (fun i => i.isPhi && i.id == k) =
      (F.insts y).find? fun i => i.isPhi && i.id == k := by
    have h := find?_edited (p := fun i => i.isPhi && i.id == k) (q := fun i => i.id != store.id)
      (f := id) (l := F.insts y) (fun _ => rfl) (by
        intro i _ hp
        simp only [Bool.and_eq_true, beq_iff_eq] at hp
        simpa [hp.2] using hk)
    rwa [List.map_id, Option.map_id] at h
  show Llvm.enter S d.label ((F.insts y).filter fun i => i.id != store.id) d.st.regs k = _
  rw [Llvm.enter, hfind]
  simp only [Llvm.enter]
  cases hf : (F.insts y).find? fun i => i.isPhi && i.id == k with
  | none => exact h.regs k hk
  | some i =>
    rw [h.label]
    refine congrArg some (phiValue_congr fun o ho => ?_)
    exact hops i (List.mem_of_find?_eq_some hf) o (List.of_mem_zip ho).1

end Shadow

/-! A visit, where the requirements are met. -/

/-- The store is still ahead in its block, or the run can be where it is without having passed
that block. -/
def Config.Ahead (F : Func) (b : Label) (store : Instr) (c : Config V M) : Prop :=
  (c.label = b ∧ store ∈ c.rest) ∨ (c.label ≠ b ∧ Avoids F.Edge F.entry b c.label)

/-- A store of `v` at `storeAddr` in block `b` of loop `L` that meets the requirements. -/
structure Meets (S : Sem V M) (F : Func) (L : Loop) (b : Label) (store : Instr) (v storeAddr : Value) :
    Prop where
  ssa : F.SsaForm
  loop : F.IsLoop L
  mem : store ∈ F.insts b
  inside : L.contains b = true
  isStore : isStore store = true
  plain : store.op.volatile = false
  operands : store.operands = [v, storeAddr]
  pointer : store.getPointerOperand = some storeAddr
  requirements : Requirements S F L b store

section Stored
variable {rest : List Instr}

theorem stored_nil (hr : c.rest = []) : c.stored S store last = last := by rw [Config.stored, hr]

theorem stored_other (hr : c.rest = i :: rest) (hid : i.id ≠ store.id) :
    c.stored S store last = last := by
  rw [Config.stored, hr]
  exact if_neg hid

theorem stored_own (hr : c.rest = store :: rest) :
    c.stored S store last = (store.args S c.st.regs).head? := by
  rw [Config.stored, hr]
  exact if_pos rfl

end Stored

namespace Visit

theorem reachable (h : Visit S F L store c₀ c last) (hc₀ : Reachable S F m c₀) : Reachable S F m c := by
  induction h with
  | start => exact hc₀
  | step _ hs _ ih => exact ih.tail hs

theorem inside (h : Visit S F L store c₀ c last) (hin : L.contains c₀.label = true) :
    L.contains c.label = true := by
  cases h with
  | start => exact hin
  | step _ _ hd => exact hd

end Visit

namespace Meets

variable (h : Meets S F L b store v storeAddr)

include h

theorem not_operand {id : Nat} {ty : Ty} (hj : j ∈ F.insts a) (ho : .inst id ty ∈ j.operands) :
    id ≠ store.id := by
  intro e
  obtain ⟨a', d, hd, e', -, hval⟩ := h.ssa.refs hj ho
  obtain rfl := h.ssa.unique (mem_ids.mpr ⟨d, hd, e'.trans e⟩) (mem_ids.mpr ⟨store, h.mem, rfl⟩)
  rw [h.ssa.inst_eq hd h.mem (e'.trans e), opcode_of_isStore h.isStore] at hval
  cases hval

theorem eq_store (hi : i ∈ F.insts a) (e : i.id = store.id) : i = store ∧ a = b := by
  obtain rfl := h.ssa.unique (mem_ids.mpr ⟨i, hi, e⟩) (mem_ids.mpr ⟨store, h.mem, rfl⟩)
  exact ⟨h.ssa.inst_eq hi h.mem e, rfl⟩

theorem address : isLoopInvariant F L storeAddr = true := h.requirements.address storeAddr h.pointer

theorem args (regs : Nat → Option V) :
    store.args S regs = [S.value regs v, S.value regs storeAddr] := by
  rw [Instr.args, h.operands]
  rfl

/-- An instruction of the loop other than the store ignores the place. -/
theorem ignores (hc : Reachable S F m c) (hin : L.contains c.label = true)
    {rest : List Instr} (hr : c.rest = i :: rest) (hne : i.id ≠ store.id) :
    Ignores (S.put store.op (S.value c.st.regs storeAddr)) (i.run S c.st.regs) c.st.mem := by
  by_contra hno
  exact h.requirements.access _ i hin ((hc.valid h.ssa).mem_insts hr) hne
    ⟨m, c, rest, storeAddr, hc, hin, hr, h.pointer, hno⟩

/-! The value that is still to be stored. -/

/-- A block with an operand of the store can be reached without passing that of the store. -/
theorem avoids_operand {id : Nat} {ty : Ty} (ho : .inst id ty ∈ store.operands) (hid : id ∈ F.ids a)
    (hne : a ≠ b) : Avoids F.Edge F.entry b a := by
  by_contra hba
  have hab := Before.dom (h.ssa.uses h.mem (not_phi_of_isStore h.isStore) ho hid)
  exact hne (hab.antisymm hba (h.ssa.reachable (List.ne_nil_of_mem h.mem)))

/-- Where a block is about to be entered anew. -/
theorem ahead_enter {y : Label} {next : Option Label} {st : State V M}
    (hy : y ≠ b → Avoids F.Edge F.entry b y) : Config.Ahead F b store ⟨y, F.insts y, next, st⟩ := by
  by_cases e : y = b
  · exact .inl ⟨e, e ▸ h.mem⟩
  · exact .inr ⟨e, hy e⟩

/-- At the header the store is ahead. -/
theorem ahead_header (hlabel : c.label = L.header) (hrest : c.rest = F.insts L.header) :
    c.Ahead F b store := by
  obtain ⟨l, r, n, s⟩ := c
  obtain rfl : l = L.header := hlabel
  obtain rfl : r = F.insts L.header := hrest
  refine h.ahead_enter fun hne => ?_
  by_contra hba
  exact hne ((h.loop.header_dom h.inside).antisymm hba (h.ssa.reachable (List.ne_nil_of_mem h.mem)))

/-- Where the value is about to be computed, the store is ahead. -/
theorem ahead_own (hv : Valid S F c) {rest : List Instr} (hr : c.rest = i :: rest)
    (hid : i.id ≠ store.id) {ty : Ty} (ho : .inst i.id ty ∈ store.operands) {next : Option Label} :
    Config.Ahead F b store ⟨c.label, rest, next, st⟩ := by
  have hidm : i.id ∈ F.ids c.label := mem_ids.mpr ⟨i, hv.mem_insts hr, rfl⟩
  by_cases hl : c.label = b
  · refine .inl ⟨hl, ?_⟩
    -- otherwise the store is past and its operand is not
    by_contra hmiss
    have hpast : store.id ∉ c.rest.map Instr.id := by
      intro hin
      obtain ⟨j, hj, e⟩ := List.mem_map.mp hin
      obtain ⟨pre, hpre⟩ := hv.suffix
      obtain ⟨rfl, -⟩ := h.eq_store (hpre ▸ List.mem_append_right pre hj) e
      rw [hr] at hj
      rcases List.mem_cons.mp hj with rfl | hj
      · exact hid rfl
      · exact hmiss hj
    exact hv.not_before h.ssa hr (mem_ids.mpr ⟨store, h.mem, rfl⟩) (.inl ⟨hl.symm, hpast⟩)
      (h.ssa.uses h.mem (not_phi_of_isStore h.isStore) ho hidm)
  · exact .inr ⟨hl, h.avoids_operand ho hidm hl⟩

/-- The value is the one last stored, or the store is ahead: through an instruction. -/
theorem owed_inst (hv : Valid S F c) {rest : List Instr} (hr : c.rest = i :: rest)
    (ho : last = some (S.value c.st.regs v) ∨ c.Ahead F b store) {next : Option Label} :
    c.stored S store last = some (S.value (execInst S i c.st).regs v) ∨
      Config.Ahead F b store ⟨c.label, rest, next, execInst S i c.st⟩ := by
  have hmem : v ∈ store.operands := by rw [h.operands]; simp
  by_cases hid : i.id = store.id
  · obtain ⟨rfl, -⟩ := h.eq_store (hv.mem_insts hr) hid
    have hsame : S.value (execInst S i c.st).regs v = S.value c.st.regs v := by
      refine value_congr fun id ty e => execInst_regs i c.st ?_
      exact h.not_operand h.mem (e ▸ hmem)
    refine .inl ?_
    rw [stored_own hr, hsame, h.args]
    rfl
  · rw [stored_other hr hid]
    rcases ho with ho | ⟨hl, hahead⟩ | hahead
    · by_cases hown : ∃ ty, v = .inst i.id ty
      · obtain ⟨ty, rfl⟩ := hown
        exact .inr (h.ahead_own hv hr hid hmem)
      · refine .inl (ho.trans (congrArg some (value_congr fun id ty e => ?_).symm))
        exact execInst_regs i c.st fun e' => hown ⟨ty, e' ▸ e⟩
    · refine .inr (.inl ⟨hl, ?_⟩)
      rw [hr] at hahead
      exact (List.mem_cons.mp hahead).resolve_left fun e => hid (congrArg Instr.id e.symm)
    · exact .inr (.inr hahead)

/-- And into the next block. -/
theorem owed_enter (hv : Valid S F c) {y : Label} (hr : c.rest = []) (hn : c.next = some y)
    (ho : last = some (S.value c.st.regs v) ∨ c.Ahead F b store) {path : List Label} :
    last = some (S.value (Llvm.enter S c.label (F.insts y) c.st.regs) v) ∨
      Config.Ahead F b store ⟨y, F.insts y, none,
        { c.st with regs := Llvm.enter S c.label (F.insts y) c.st.regs, path := path }⟩ := by
  have hmem : v ∈ store.operands := by rw [h.operands]; simp
  rcases ho with ho | ⟨hl, hahead⟩ | ⟨hl, hahead⟩
  · by_cases hown : ∃ k ∈ F.insts y, k.isPhi = true ∧ ∃ ty, v = .inst k.id ty
    · -- a phi of the block computes the value anew
      obtain ⟨k, hk, -, ty, rfl⟩ := hown
      exact .inr (h.ahead_enter fun hne => h.avoids_operand hmem (mem_ids.mpr ⟨k, hk, rfl⟩) hne)
    · refine .inl (ho.trans (congrArg some (value_congr fun id ty e => ?_).symm))
      exact enter_other fun k hk hphi e' => hown ⟨k, hk, hphi, ty, e' ▸ e⟩
  · rw [hr] at hahead
    cases hahead
  · exact .inr (h.ahead_enter fun hne => hahead.step (hv.next hn) hne)

/-- Throughout a visit. -/
theorem owed (hc₀ : Reachable S F m c₀) (hlabel : c₀.label = L.header)
    (hrest : c₀.rest = F.insts L.header) (hvisit : Visit S F L store c₀ c last) :
    last = some (S.value c.st.regs v) ∨ c.Ahead F b store := by
  induction hvisit with
  | start => exact .inr (h.ahead_header hlabel hrest)
  | step hvisit hs _ ih =>
    have hv := (hvisit.reachable hc₀).valid h.ssa
    rcases step_cases hs with ⟨i, rest, hr, rfl⟩ | ⟨y, hr, hn, rfl⟩
    · exact h.owed_inst hv hr ih
    · rw [stored_nil hr]
      exact h.owed_enter hv hr hn ih

/-- When the loop is left, the value is the one last stored: an exit cannot be reached without
passing the block of the store. -/
theorem stored_at_exit (hc₀ : Reachable S F m c₀) (hlabel : c₀.label = L.header)
    (hrest : c₀.rest = F.insts L.header) (hvisit : Visit S F L store c₀ c last) (hr : c.rest = [])
    {exitBlock : Label} (hn : c.next = some exitBlock) (hout : L.contains exitBlock = false) :
    last = some (S.value c.st.regs v) := by
  refine (h.owed hc₀ hlabel hrest hvisit).resolve_right ?_
  have hin := hvisit.inside (by rw [hlabel]; exact h.loop.header)
  have hedge := ((hvisit.reachable hc₀).valid h.ssa).next hn
  intro hahead
  rcases hahead with ⟨-, hmem⟩ | ⟨-, hav⟩
  · rw [hr] at hmem
    cases hmem
  · refine h.requirements.exits exitBlock (mem_getExitBlocks hin hedge (by simp [hout]))
      (hav.step hedge fun e => ?_)
    rw [e, h.inside] at hout
    cases hout

/-! The two runs. -/

/-- The address is the same throughout a visit. -/
theorem same_address (hc₀ : Reachable S F m c₀) (hin : L.contains c₀.label = true)
    (hvisit : Visit S F L store c₀ c last) :
    S.value c.st.regs storeAddr = S.value c₀.st.regs storeAddr := by
  induction hvisit with
  | start => rfl
  | step hvisit hs hd ih =>
    rcases step_cases hs with ⟨i, rest, hr, rfl⟩ | ⟨y, hr, hn, rfl⟩
    · have hi := ((hvisit.reachable hc₀).valid h.ssa).mem_insts hr
      exact (value_inst h.address (hvisit.inside hin) hi).trans ih
    · exact (value_enter h.address hd).trans ih

/-- The run without the store goes along. -/
theorem shadow (hO : O.Stores) (hc₀ : Reachable S F m c₀) (hin : L.contains c₀.label = true)
    (hvisit : Visit S F L store c₀ c last) :
    ∃ d, Runs (step S (F.eraseFromParent store.id)) (c₀.without store) d ∧
      Shadow S store (S.value c₀.st.regs storeAddr) c d last := by
  have hp := hO.overwrites (a := S.value c₀.st.regs storeAddr) (opcode_of_isStore h.isStore) h.plain
  induction hvisit with
  | start => exact ⟨_, .refl, rfl, rfl, rfl, rfl, fun _ _ => rfl, .start hp _⟩
  | @step c _ last hvisit hs hd ih =>
    obtain ⟨d, hrun, hshadow⟩ := ih
    have hc := hvisit.reachable hc₀
    have haddr := h.same_address hc₀ hin hvisit
    have hops : ∀ {a i}, i ∈ F.insts a → ∀ o ∈ i.operands,
        S.value d.st.regs o = S.value c.st.regs o := by
      intro a i hi o ho
      exact value_congr fun id ty e => hshadow.regs id (h.not_operand hi (e ▸ ho))
    rcases step_cases hs with ⟨i, rest, hr, rfl⟩ | ⟨y, hr, hn, rfl⟩
    · have hi := (hc.valid h.ssa).mem_insts hr
      by_cases hid : i.id = store.id
      · obtain ⟨rfl, -⟩ := h.eq_store hi hid
        rw [stored_own hr, h.args]
        exact ⟨d, hrun, hshadow.skip hp h.isStore hr (by rw [h.args, haddr])⟩
      · rw [stored_other hr hid]
        obtain ⟨d', hs', hshadow'⟩ := hshadow.inst hr hid (List.map_congr_left (hops hi))
          (haddr ▸ h.ignores hc (hvisit.inside hin) hr hid)
        exact ⟨d', hrun.tail hs', hshadow'⟩
    · rw [stored_nil hr]
      obtain ⟨d', hs', hshadow'⟩ := hshadow.enter hr hn fun i hi => hops hi
      exact ⟨d', hrun.tail hs', hshadow'⟩

/-- **The requirements are enough**: the store can run on the exits instead. -/
theorem runsOnExits (hO : O.Stores) : RunsOnExits S F L store := by
  intro m c₀ c last exitBlock hc₀ hlabel hrest hvisit hr hn hout
  have hin : L.contains c₀.label = true := by
    rw [hlabel]
    exact h.loop.header
  have hlast := h.stored_at_exit hc₀ hlabel hrest hvisit hr hn hout
  obtain ⟨d, hrun, hshadow⟩ := h.shadow hO hc₀ hin hvisit
  have hargs : store.args S d.st.regs = store.args S c.st.regs :=
    args_congr fun id ty ho => hshadow.regs id (h.not_operand h.mem ho)
  refine ⟨S.value c.st.regs v, d, hlast, hrun, hshadow.label, ?_, hshadow.next.trans hn, hshadow.path,
    hshadow.regs, ?_, ?_⟩
  · rw [hshadow.rest, hr]
    rfl
  · rw [hargs, h.args]
    rfl
  · rw [execInst_effect (not_phi_of_isStore h.isStore) (not_pure_of_isStore h.isStore), hargs, h.args,
      h.same_address hc₀ hin hvisit]
    exact (hlast ▸ hshadow.mem).settle (hO.overwrites (opcode_of_isStore h.isStore) h.plain)

end Meets

end Ece566.Llvm
