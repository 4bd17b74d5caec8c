import Ece566.LicmLoads

/- The induction along a run. From the end of the preheader on, and until the run comes
   back there, the address of the load keeps its value and the location keeps what it
   held; and once the load has run, its register holds what was read at the preheader. -/
namespace Ece566.Llvm

open Dominance Relation

variable {V M : Type} {Obj : Type} {S : Sem V M} {F : Func} {L : Loop} {A : LoopAnalyses}
variable {a b p : Label} {i load : Instr} {m : M} {st : State V M} {c c₀ c₁ d e : Config V M}

/-- A load of block `b` that may leave loop `L` for the preheader `p`, where stores and calls are
what writes memory in `L`. -/
structure Leaves (A : LoopAnalyses) (F : Func) (L : Loop) (p b : Label) (load : Instr) : Prop where
  ssa : F.SsaForm
  loop : F.IsLoop L
  preheader : F.IsPreheader L p
  mem : load ∈ F.insts b
  inside : L.contains b = true
  isLoad : isLoad load = true
  writes : ∀ {a i}, L.contains a = true → i ∈ F.insts a → i.op.opcode.writesMemory = true →
    isStore i = true ∨ isCall i = true
  canMove : canMoveLoadOutOfLoop A F L b load = true

/-- The run is in the loop, or at the end of its preheader. -/
def Config.Within (L : Loop) (p : Label) (c : Config V M) : Prop :=
  L.contains c.label = true ∨ (c.label = p ∧ c.rest = [])

/-- What the load would read here. -/
def Config.reads (c : Config V M) (S : Sem V M) (load : Instr) : V :=
  (S.effect load.op (load.args S c.st.regs) c.st.mem).1

theorem plain_effect (h : i.isTerminator = true) (hs : i.op.opcode.isSpecialTerminator = false) :
    i.isPhi = false ∧ i.op.opcode.isPure = false ∧ i.op.opcode.writesMemory = false := by
  refine ⟨isPhi_of_isTerminator h, ?_⟩
  unfold Instr.isTerminator at h
  cases hop : i.op.opcode <;> rw [hop] at h hs <;>
    first | exact ⟨rfl, rfl⟩ | exact absurd h (by decide) | exact absurd hs (by decide)

/-- A load of block `b` that may leave loop `L` for the preheader `p`. -/
structure Leaving (A : LoopAnalyses) (F : Func) (L : Loop) (p b : Label) (load : Instr) : Prop where
  ssa : F.SsaForm
  loop : F.IsLoop L
  preheader : F.IsPreheader L p
  mem : load ∈ F.insts b
  inside : L.contains b = true
  isLoad : isLoad load = true
  canMove : canMoveLoadOutOfLoop A F L b load = true

theorem Leaves.leaving (h : Leaves A F L p b load) : Leaving A F L p b load :=
  ⟨h.ssa, h.loop, h.preheader, h.mem, h.inside, h.isLoad, h.canMove⟩

/-! What stores and calls can do. -/

namespace Leaving

/-- A store of the loop does not write what the load reads. -/
theorem read_store (h : Leaving A F L p b load) (O : S.Objects Obj) (hc : Reachable S F m d)
    (hd : L.contains d.label = true) {rest : List Instr} (hr : d.rest = i :: rest)
    (hs : isStore i = true) :
    (S.effect load.op (load.args S d.st.regs) (S.effect i.op (i.args S d.st.regs) d.st.mem).2).1 =
      (S.effect load.op (load.args S d.st.regs) d.st.mem).1 := by
  have hv := hc.valid h.ssa
  have hi := hv.mem_insts hr
  obtain ⟨v, hops, haddr⟩ := load_operands h.ssa h.mem h.isLoad
  obtain ⟨x, hx⟩ := store_value h.ssa hi hs
  obtain ⟨w, hops', haddr'⟩ := store_operands h.ssa hi hs hx
  obtain ⟨v', hv', -, hleave⟩ := (canMoveLoadOutOfLoop_iff A).mp h.canMove
  obtain rfl : v = v' := Option.some.inj (haddr.symm.trans hv')
  have hvmem : v ∈ load.operands := by rw [hops]; simp
  have hwmem : w ∈ i.operands := by rw [hops']; simp
  have hO : Owned O F d.st := hc.owned h.ssa
  -- the load's address is an object of its own, and the flag says the store's is another
  have hcase : (scanLoop F L (seeStores F v)).same = false ∧ (isGlobalVariable v = true ∨
      (isAllocaInst F v = true ∧ isInside F L v = false)) := by
    rcases (mayLeave_iff A).mp hleave with ⟨hg, hsame⟩ | ⟨ha, hsame, hout⟩ | ⟨hany, -⟩
    · exact ⟨hsame, .inl hg⟩
    · exact ⟨hsame, .inr ⟨ha, hout⟩⟩
    · have := (((seeStores_any _).mp hany).2 i (mem_loop hd hi)).2
      rw [hs] at this
      cases this
  obtain ⟨hsame, hout⟩ := hcase
  have hident := hv.identified_outside h.ssa h.loop hd h.mem (isPhi_of_isLoad h.isLoad) h.inside hvmem hout
  obtain ⟨hne, hwcase⟩ := different_address h.ssa hi hwmem
    ((((seeStores_same _).mp hsame).2 i (mem_loop hd hi)).2 hs w haddr')
  have hident' := hv.identified_operand h.ssa hr (not_phi_of_isStore hs) hwmem hwcase
  have hapart := hident'.apart h.ssa hident hO hne
  obtain ⟨o, ho⟩ := hident.object hO
  obtain ⟨o', ho'⟩ := hident'.object hO
  have hargs : load.args S d.st.regs = [O.addr o] := by
    rw [Instr.args, hops, ← ho]
    rfl
  have hargs' : i.args S d.st.regs = [S.value d.st.regs x, O.addr o'] := by
    rw [Instr.args, hops', ← ho']
    rfl
  rw [hargs, hargs']
  refine O.inside (opcode_of_isStore hs) (opcode_of_isLoad h.isLoad) ?_
  intro e
  obtain rfl := e
  exact hapart (ho'.trans ho.symm)

/-- A call keeps the load in the loop. -/
theorem no_call (h : Leaving A F L p b load) (ha : L.contains a = true) (hi : i ∈ F.insts a) :
    isCall i = false := by
  obtain ⟨v, -, -, hleave⟩ := (canMoveLoadOutOfLoop_iff A).mp h.canMove
  rcases (mayLeave_iff A).mp hleave with ⟨-, hsame⟩ | ⟨-, hsame, -⟩ | ⟨hany, -⟩
  · exact (((seeStores_same _).mp hsame).2 i (mem_loop ha hi)).1
  · exact (((seeStores_same _).mp hsame).2 i (mem_loop ha hi)).1
  · exact (((seeStores_any _).mp hany).2 i (mem_loop ha hi)).1

end Leaving

namespace Leaves

theorem block_unique (h : Leaves A F L p b load) (hi : i ∈ F.insts a) (e : i.id = load.id) :
    a = b ∧ i = load := by
  obtain rfl := h.ssa.unique (mem_ids.mpr ⟨i, hi, e⟩) (mem_ids.mpr ⟨load, h.mem, rfl⟩)
  exact ⟨rfl, h.ssa.inst_eq hi h.mem e⟩

/-- The address comes from outside the loop. -/
theorem invariant (h : Leaves A F L p b load) {v : Value} (ho : v ∈ load.operands) :
    isLoopInvariant F L v = true :=
  List.all_eq_true.mp (canMove_invariant h.ssa h.mem h.isLoad h.canMove) v ho

theorem outside (h : Leaves A F L p b load) {id : Nat} {ty : Ty} (ho : .inst id ty ∈ load.operands)
    (ha : L.contains a = true) : id ∉ F.ids a := not_mem_of_invariant (h.invariant ho) ha

theorem args_inst (h : Leaves A F L p b load) (ha : L.contains a = true) (hi : i ∈ F.insts a) :
    load.args S (execInst S i st).regs = load.args S st.regs :=
  List.map_congr_left fun _ ho => value_inst (h.invariant ho) ha hi

theorem args_enter (h : Leaves A F L p b load) (ha : L.contains a = true) {q : Label}
    {regs : Nat → Option V} : load.args S (enter S q (F.insts a) regs) = load.args S regs :=
  List.map_congr_left fun _ ho => value_enter (h.invariant ho) ha

/-- No instruction of the loop writes what the load reads. -/
theorem read_inst (h : Leaves A F L p b load) (O : S.Objects Obj) (hc : Reachable S F m d)
    (hd : L.contains d.label = true) {rest : List Instr} (hr : d.rest = i :: rest) :
    (S.effect load.op (load.args S d.st.regs) (execInst S i d.st).mem).1 =
      (S.effect load.op (load.args S d.st.regs) d.st.mem).1 := by
  have hi := (hc.valid h.ssa).mem_insts hr
  cases hphi : i.isPhi with
  | true => simp [execInst, hphi]
  | false =>
    cases hpure : i.op.opcode.isPure with
    | true => simp [execInst, hphi, hpure]
    | false =>
      rw [execInst_effect hphi hpure]
      cases hw : i.op.opcode.writesMemory with
      | false => exact O.quiet hw (opcode_of_isLoad h.isLoad)
      | true =>
        rcases h.writes hd hi hw with hs | hcall
        · exact h.leaving.read_store O hc hd hr hs
        · rw [h.leaving.no_call hd hi] at hcall
          cases hcall

/-- Neither does the terminator of the preheader. -/
theorem read_last (h : Leaves A F L p b load) (O : S.Objects Obj) (hv : Valid S F d)
    (hl : d.label = p) {t : Instr} (hr : d.rest = [t]) :
    load.args S (execInst S t d.st).regs = load.args S d.st.regs ∧
      (S.effect load.op (load.args S d.st.regs) (execInst S t d.st).mem).1 =
        (S.effect load.op (load.args S d.st.regs) d.st.mem).1 := by
  have ht := hv.mem_insts hr
  obtain ⟨body, t', hb, hterm, -⟩ := h.ssa.terminated (List.ne_nil_of_mem ht)
  obtain ⟨pre, hpre⟩ := hv.suffix
  obtain rfl : t = t' := by
    rw [hpre, hr] at hb
    exact (List.append_inj' hb rfl).2 |> List.cons.inj |>.1
  have hspecial := h.preheader.plain t (hl ▸ ht) hterm
  refine ⟨?_, ?_⟩
  · -- a plain terminator has no value to be read
    refine args_congr fun id ty ho => execInst_regs t d.st ?_
    intro e
    obtain rfl := e
    obtain ⟨a, k, hk, e, -, hval⟩ := h.ssa.refs h.mem ho
    obtain rfl := h.ssa.unique (mem_ids.mpr ⟨k, hk, e⟩) (mem_ids.mpr ⟨t, ht, rfl⟩)
    rw [h.ssa.inst_eq hk ht e, plain_hasValue hterm hspecial] at hval
    cases hval
  · obtain ⟨hphi, hpure, hw⟩ := plain_effect hterm hspecial
    rw [execInst_effect hphi hpure]
    exact O.quiet hw (opcode_of_isLoad h.isLoad)

/-! From the end of the preheader. -/

/-- A step to a point of the loop comes from a point of the loop or the end of the preheader. -/
theorem within_of_step (h : Leaves A F L p b load) (hv : Valid S F d) (hs : step S F d = some e)
    (he : L.contains e.label = true) : d.Within L p := by
  rcases step_cases hs with ⟨i, rest, hr, rfl⟩ | ⟨y, hr, hn, rfl⟩
  · exact .inl he
  · by_cases hd : L.contains d.label = true
    · exact .inl hd
    · have hedge := hv.next hn
      have hy : y = L.header := h.loop.entry hedge hd he
      exact .inr ⟨h.preheader.entered.unique (hy ▸ hedge) hd, hr⟩

/-- A step in the loop, or from the end of the preheader into it, or to the end of the preheader,
moves neither the location nor what it holds. -/
theorem same_read (h : Leaves A F L p b load) (O : S.Objects Obj) (hd : Reachable S F m d)
    (hfrom : d.Within L p ∨ ∃ t, d.label = p ∧ d.rest = [t]) (hs : step S F d = some e)
    (he : e.Within L p) :
    load.args S e.st.regs = load.args S d.st.regs ∧ e.reads S load = d.reads S load := by
  have hv := hd.valid h.ssa
  suffices hsuff : load.args S e.st.regs = load.args S d.st.regs ∧
      (S.effect load.op (load.args S d.st.regs) e.st.mem).1 = d.reads S load by
    refine ⟨hsuff.1, ?_⟩
    rw [Config.reads, hsuff.1]
    exact hsuff.2
  rcases step_cases hs with ⟨i, rest, hr, rfl⟩ | ⟨y, hr, hn, rfl⟩
  · rcases hfrom with (hin | ⟨-, hr'⟩) | ⟨t, hl, hr'⟩
    · exact ⟨h.args_inst hin (hv.mem_insts hr), h.read_inst O hd hin hr⟩
    · rw [hr] at hr'
      cases hr'
    · obtain ⟨rfl, -⟩ := List.cons.inj (hr.symm.trans hr')
      exact h.read_last O hv hl hr'
  · rcases he with hin | ⟨rfl, he⟩
    · exact ⟨h.args_enter hin, rfl⟩
    · -- the preheader is not empty
      obtain ⟨t, ht, -⟩ := h.preheader.entered.edge
      rw [show F.insts _ = [] from he] at ht
      cases ht

end Leaves

end Ece566.Llvm
