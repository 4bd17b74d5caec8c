import Ece566.EraseRuns
import Ece566.LicmRuns

/- The runs of a function and of the one with an instruction moved to the preheader of a
   loop, in both directions. Inside the loop the original runs the instruction alone; at
   the end of the preheader the other one does. In between, the register of the
   instruction holds in the second run what the instruction would leave in the first
   (`Hoisted.within`). The runs are compared at the ends of blocks (`Matches`), where all
   that dominates the block has run in both. -/
namespace Ece566.Llvm

open Dominance Relation

variable {V M X : Type} {obs : Event V M → Option X} {S : Sem V M} {F F' G : Func} {L : Loop} {m : M}
variable {a b p y : Label} {i t : Instr} {c d d' e : Config V M} {st st' : State V M}

/-- Both are at the end of a block, and show the same: `regs` is about the instructions that have
run on every path to here. -/
structure EndsAs (obs : Event V M → Option X) (F F' : Func) (c d : Config V M) : Prop where
  label : d.label = c.label
  next : d.next = c.next
  path : d.st.path = c.st.path
  log : d.st.log.filterMap obs = c.st.log.filterMap obs
  mem : d.st.mem = c.st.mem
  regs : ∀ {a a' n}, n ∈ F.ids a → F.Dom a c.label → n ∈ F'.ids a' → d.st.regs n = c.st.regs n

/-- Every end of a block in a run of either function from memory `m` is matched by one of the
other. -/
def Matches (obs : Event V M → Option X) (S : Sem V M) (m : M) (F F' : Func) : Prop :=
  (∀ c, Reachable S F m c → c.rest = [] →
    ∃ d, Reachable S F' m d ∧ d.rest = [] ∧ EndsAs obs F F' c d) ∧
  ∀ d, Reachable S F' m d → d.rest = [] →
    ∃ c, Reachable S F m c ∧ c.rest = [] ∧ EndsAs obs F F' c d

/-- Every instruction of `F'` is one of `F`, in a block that dominates its own. -/
structure Lifts (F F' : Func) : Prop where
  edge : F'.Edge = F.Edge
  entry : F'.entry = F.entry
  old : ∀ {a' n}, n ∈ F'.ids a' → ∃ a, n ∈ F.ids a
  above : ∀ {a a' n}, n ∈ F.ids a → n ∈ F'.ids a' → F.Dom a' a

theorem Lifts.dom (h : Lifts F F') : F'.Dom a b ↔ F.Dom a b := by
  rw [Func.Dom, Func.Dom, h.edge, h.entry]

theorem Lifts.refl (hF : F.SsaForm) : Lifts F F where
  edge := rfl
  entry := rfl
  old hn := ⟨_, hn⟩
  above hn hn' := by
    obtain rfl := hF.unique hn hn'
    exact dom_refl _

theorem Lifts.trans (h : Lifts F F') (h' : Lifts F' G) : Lifts F G where
  edge := h'.edge.trans h.edge
  entry := h'.entry.trans h.entry
  old hn := by
    obtain ⟨a, hn⟩ := h'.old hn
    exact h.old hn
  above hn hn' := by
    obtain ⟨a', hn''⟩ := h'.old hn'
    exact (h.dom.mp (h'.above hn'' hn')).trans (h.above hn hn'')

theorem Shrinks.lifts (h : Shrinks F F') (hF : F.SsaForm) : Lifts F F' where
  edge := h.edge
  entry := h.entry
  old hn := ⟨_, h.mem hn⟩
  above hn hn' := by
    obtain rfl := hF.unique hn (h.mem hn')
    exact dom_refl _

theorem EndsAs.refl (c : Config V M) : EndsAs obs F F c c :=
  ⟨rfl, rfl, rfl, rfl, rfl, fun _ _ _ => rfl⟩

theorem EndsAs.trans (hl : Lifts F F') (hl' : Lifts F' G) (h₁ : EndsAs obs F F' c d)
    (h₂ : EndsAs obs F' G d e) : EndsAs obs F G c e where
  label := h₂.label.trans h₁.label
  next := h₂.next.trans h₁.next
  path := h₂.path.trans h₁.path
  log := h₂.log.trans h₁.log
  mem := h₂.mem.trans h₁.mem
  regs hn hdom hn' := by
    obtain ⟨a', hn''⟩ := hl'.old hn'
    have hdom' := hl.dom.mpr ((hl.above hn hn'').trans hdom)
    rw [← h₁.label] at hdom'
    rw [h₂.regs hn'' hdom' hn', h₁.regs hn hdom hn'']

theorem Matches.refl (F : Func) : Matches obs S m F F :=
  ⟨fun c h hr => ⟨c, h, hr, .refl c⟩, fun d h hr => ⟨d, h, hr, .refl d⟩⟩

theorem Matches.trans (hl : Lifts F F') (hl' : Lifts F' G) (h₁ : Matches obs S m F F')
    (h₂ : Matches obs S m F' G) : Matches obs S m F G := by
  refine ⟨fun c hc hr => ?_, fun e he hr => ?_⟩
  · obtain ⟨d, hd, hr', s₁⟩ := h₁.1 c hc hr
    obtain ⟨e, he, hr'', s₂⟩ := h₂.1 d hd hr'
    exact ⟨e, he, hr'', s₁.trans hl hl' s₂⟩
  · obtain ⟨d, hd, hr', s₂⟩ := h₂.2 e he hr
    obtain ⟨c, hc, hr'', s₁⟩ := h₁.2 d hd hr'
    exact ⟨c, hc, hr'', s₁.trans hl hl' s₂⟩

/-- What a shrunk function shows all along it shows at the ends of blocks. -/
theorem Refines.matches (h : Refines obs S m F F') : Matches obs S m F F' := by
  have hends : ∀ {c d : Config V M}, Shows obs F' c d → c.rest = [] → EndsAs obs F F' c d :=
    fun h hr => ⟨h.label, h.next, h.path, h.log, (h.ended hr).2, fun _ _ hn => h.regs hn⟩
  refine ⟨fun c hc hr => ?_, fun d hd hr => ?_⟩
  · obtain ⟨d, hd, hs⟩ := h.1 c hc
    exact ⟨d, hd, (hs.ended hr).1, hends hs hr⟩
  · obtain ⟨c, hc, hs, hback⟩ := h.2 d hd
    exact ⟨c, hc, hback hr, hends hs (hback hr)⟩

/-! Moving one instruction. -/

/-- Instruction `i` of block `b` can be put at the end of the preheader `p` of loop `L`. -/
structure Movable (F : Func) (L : Loop) (p b : Label) (i : Instr) : Prop where
  ssa : F.SsaForm
  loop : F.IsLoop L
  preheader : F.IsPreheader L p
  mem : i ∈ F.insts b
  inside : L.contains b = true
  phi : i.isPhi = false
  terminator : i.isTerminator = false
  operands : hasLoopInvariantOperands F L i = true

/-- What `i` would leave in its register here. -/
def Config.leaves (S : Sem V M) (c : Config V M) (i : Instr) : Option V := (execInst S i c.st).regs i.id

/-- From the end of the preheader on, and as long as the run is in the loop, `i` would leave what
it leaves there; and it does nothing else that shows. -/
structure Steady (obs : Event V M → Option X) (S : Sem V M) (F : Func) (m : M) (L : Loop) (p : Label)
    (i : Instr) : Prop where
  silent : ∀ st : State V M, (execInst S i st).mem = st.mem ∧
    (execInst S i st).log.filterMap obs = st.log.filterMap obs
  same : ∀ {d e}, Reachable S F m d → (d.Within L p ∨ ∃ t, d.label = p ∧ d.rest = [t]) →
    step S F d = some e → e.Within L p → e.leaves S i = d.leaves S i
  leaves_congr : ∀ {st st' : State V M}, i.args S st'.regs = i.args S st.regs → st'.mem = st.mem →
    (execInst S i st').regs i.id = (execInst S i st).regs i.id

/-- `d` is where the run of `F` is, `d'` where the run with `i` moved is. -/
structure Hoisted (obs : Event V M → Option X) (S : Sem V M) (F : Func) (L : Loop) (p b : Label)
    (i : Instr) (d d' : Config V M) : Prop where
  label : d'.label = d.label
  next : d'.next = d.next
  rest : d'.rest = restMoved i p d.label d.rest
  mem : d'.st.mem = d.st.mem
  path : d'.st.path = d.st.path
  log : d'.st.log.filterMap obs = d.st.log.filterMap obs
  regs : ∀ {n}, n ≠ i.id → d'.st.regs n = d.st.regs n
  past : d.Past F b i.id → d'.st.regs i.id = d.st.regs i.id
  within : d.Within L p → d'.st.regs i.id = d.leaves S i

namespace Movable

theorem block_unique (h : Movable F L p b i) {j : Instr} (hj : j ∈ F.insts a) (e : j.id = i.id) :
    a = b ∧ j = i := by
  obtain rfl := h.ssa.unique (mem_ids.mpr ⟨j, hj, e⟩) (mem_ids.mpr ⟨i, h.mem, rfl⟩)
  exact ⟨rfl, h.ssa.inst_eq hj h.mem e⟩

theorem block_ne (h : Movable F L p b i) : b ≠ p := by
  rintro rfl
  exact h.preheader.entered.outside h.inside

theorem preheader_ne_nil (h : Movable F L p b i) : F.insts p ≠ [] := by
  obtain ⟨t, ht, -⟩ := h.preheader.entered.edge
  exact List.ne_nil_of_mem ht

theorem dom (h : Movable F L p b i) : F.Dom p b := h.loop.preheader_dom h.preheader.entered h.inside

/-- In the preheader the instruction has not run. -/
theorem not_past (h : Movable F L p b i) (hd : d.label = p) (hreach : Reach F.Edge F.entry p) :
    ¬ d.Past F b i.id := by
  rintro (⟨e, -⟩ | ⟨-, hdom⟩)
  · exact h.block_ne (e.trans hd)
  · rw [hd] at hdom
    exact h.block_ne (hdom.antisymm h.dom hreach)

theorem moved_insts (h : Movable F L p b i) :
    (F.moveBefore i p).insts y = restMoved i p y (F.insts y) := by
  by_cases hy : y = p
  · subst hy
    have hkeep : (F.insts y).filter (fun j => j.id != i.id) = F.insts y := by
      rw [List.filter_eq_self]
      intro j hj
      rw [bne_iff_ne]
      exact fun e => h.block_ne (h.block_unique hj e).1.symm
    rw [restMoved, if_pos ⟨rfl, h.preheader_ne_nil⟩, Func.moveBefore, ← hkeep]
    simp
  · rw [moveBefore_other hy, restMoved, if_neg fun e => hy e.1]

theorem moved_enter (h : Movable F L p b i) {q : Label} {regs : Nat → Option V} :
    enter S q ((F.moveBefore i p).insts y) regs = enter S q (F.insts y) regs := by
  funext n
  have hself : (i.isPhi && i.id == n) = false := by simp [h.phi]
  have hfind : ((F.moveBefore i p).insts y).find? (fun j => j.isPhi && j.id == n) =
      (F.insts y).find? fun j => j.isPhi && j.id == n := by
    rw [h.moved_insts, restMoved]
    split
    · exact find?_insertLast hself _
    · rw [List.find?_filter]
      refine List.find?_congr fun j hj => ?_
      by_cases e : j.id = i.id
      · obtain ⟨-, rfl⟩ := h.block_unique hj e
        simp [hself]
      · simp [e, beq_eq_decide]
  rw [enter, hfind]
  rfl

theorem lifts (h : Movable F L p b i) : Lifts F (F.moveBefore i p) where
  edge := moveBefore_edge h.ssa h.mem h.terminator
  entry := rfl
  old hn := by
    rcases mem_moveBefore_ids.mp hn with ⟨hn, -⟩ | ⟨-, rfl⟩
    · exact ⟨_, hn⟩
    · exact ⟨b, mem_ids.mpr ⟨i, h.mem, rfl⟩⟩
  above hn hn' := by
    rcases mem_moveBefore_ids.mp hn' with ⟨hn', -⟩ | ⟨rfl, rfl⟩
    · obtain rfl := h.ssa.unique hn hn'
      exact dom_refl _
    · obtain rfl := h.ssa.unique hn (mem_ids.mpr ⟨i, h.mem, rfl⟩)
      exact h.dom

/-- The operands come from outside the loop. -/
theorem outside (h : Movable F L p b i) {id : Nat} {ty : Ty} (ho : .inst id ty ∈ i.operands)
    (ha : L.contains a = true) : id ∉ F.ids a :=
  not_mem_of_invariant (List.all_eq_true.mp h.operands _ ho) ha

theorem args_inst (h : Movable F L p b i) (ha : L.contains a = true) {j : Instr} (hj : j ∈ F.insts a) :
    i.args S (execInst S j st).regs = i.args S st.regs :=
  List.map_congr_left fun o ho => value_inst (List.all_eq_true.mp h.operands o ho) ha hj

theorem args_enter (h : Movable F L p b i) (ha : L.contains a = true) {q : Label}
    {regs : Nat → Option V} : i.args S (enter S q (F.insts a) regs) = i.args S regs :=
  List.map_congr_left fun o ho => value_enter (List.all_eq_true.mp h.operands o ho) ha

/-- A step to a point of the loop comes from a point of the loop or the end of the preheader. -/
theorem within_of_step (h : Movable F L p b i) (hv : Valid S F d) (hs : step S F d = some e)
    (he : L.contains e.label = true) : d.Within L p := by
  rcases step_cases hs with ⟨j, rest, hr, rfl⟩ | ⟨y, hr, hn, rfl⟩
  · exact .inl he
  · by_cases hd : L.contains d.label = true
    · exact .inl hd
    · have hedge := hv.next hn
      have hy : y = L.header := h.loop.entry hedge hd he
      exact .inr ⟨h.preheader.entered.unique (hy ▸ hedge) hd, hr⟩

/-- What is left at the end of the preheader is its terminator, which `i` does not read. -/
theorem args_last (h : Movable F L p b i) (hv : Valid S F d) (hl : d.label = p) (hr : d.rest = [t]) :
    i.args S (execInst S t d.st).regs = i.args S d.st.regs := by
  have ht := hv.mem_insts hr
  obtain ⟨body, t', hb, hterm, -⟩ := h.ssa.terminated (List.ne_nil_of_mem ht)
  obtain ⟨pre, hpre⟩ := hv.suffix
  obtain rfl : t = t' := by
    rw [hpre, hr] at hb
    exact (List.append_inj' hb rfl).2 |> List.cons.inj |>.1
  refine args_congr fun id ty ho => execInst_regs t d.st ?_
  rintro rfl
  obtain ⟨a, k, hk, e, -, hval⟩ := h.ssa.refs h.mem ho
  obtain rfl := h.ssa.unique (mem_ids.mpr ⟨k, hk, e⟩) (mem_ids.mpr ⟨t, ht, rfl⟩)
  rw [h.ssa.inst_eq hk ht e, plain_hasValue hterm (h.preheader.plain t (hl ▸ ht) hterm)] at hval
  cases hval

end Movable

namespace Hoisted

/-- An operand reads the same in both runs. -/
theorem value (h : Hoisted obs S F L p b i d d') {v : Value}
    (hv : ∀ ty, v = .inst i.id ty → d.Past F b i.id) : S.value d'.st.regs v = S.value d.st.regs v := by
  refine value_congr fun id ty e => ?_
  by_cases hid : id = i.id
  · rw [hid]
    exact h.past (hv ty (hid ▸ e))
  · exact h.regs hid

theorem args (h : Hoisted obs S F L p b i d d') (hM : Movable F L p b i) (hv : Valid S F d) {j : Instr}
    {rest : List Instr} (hr : d.rest = j :: rest) (hphi : j.isPhi = false) :
    j.args S d'.st.regs = j.args S d.st.regs := by
  refine List.map_congr_left fun o ho => h.value fun ty e => ?_
  subst e
  exact hv.past_of_before hM.ssa hr
    (hM.ssa.uses (hv.mem_insts hr) hphi ho (mem_ids.mpr ⟨i, hM.mem, rfl⟩))

/-- An instruction other than `i` does the same in both runs. -/
theorem exec {j : Instr} (hmem : st'.mem = st.mem) (hpath : st'.path = st.path)
    (hlog : st'.log.filterMap obs = st.log.filterMap obs)
    (hregs : ∀ {n}, n ≠ i.id → st'.regs n = st.regs n)
    (hargs : j.isPhi = false → j.args S st'.regs = j.args S st.regs) :
    (execInst S j st').mem = (execInst S j st).mem ∧ (execInst S j st').path = (execInst S j st).path ∧
      (execInst S j st').log.filterMap obs = (execInst S j st).log.filterMap obs ∧
        ∀ {n}, n ≠ i.id → (execInst S j st').regs n = (execInst S j st).regs n := by
  cases hphi : j.isPhi with
  | true =>
    simp only [execInst, hphi, if_true]
    exact ⟨hmem, hpath, hlog, hregs⟩
  | false =>
    have hassign : ∀ {x : V} {n}, n ≠ i.id → assign st'.regs j.id x n = assign st.regs j.id x n := by
      intro x n hn
      simp [assign, hregs hn]
    cases hpure : j.op.opcode.isPure with
    | true =>
      simp only [execInst, hphi, hpure, hargs hphi, Bool.false_eq_true, if_false, if_true]
      exact ⟨hmem, hpath, hlog, fun hn => hassign hn⟩
    | false =>
      rw [execInst_effect hphi hpure, execInst_effect hphi hpure, hargs hphi, hmem]
      exact ⟨rfl, hpath, by rw [List.filterMap_append, List.filterMap_append, hlog],
        fun hn => hassign hn⟩

/-- The run of `F` runs `i`, in the loop. -/
theorem skip (h : Hoisted obs S F L p b i d d') (hM : Movable F L p b i) (hS : Steady obs S F m L p i)
    (hd : Reachable S F m d) (hs : step S F d = some e) {rest : List Instr} (hr : d.rest = i :: rest) :
    Hoisted obs S F L p b i e d' := by
  have hb : d.label = b := (hM.block_unique ((hd.valid hM.ssa).mem_insts hr) rfl).1
  have hin : d.Within L p := .inl (hb ▸ hM.inside)
  obtain ⟨hmem, hlog⟩ := hS.silent d.st
  have hwithin := hS.same hd (.inl hin) hs
  rw [step_inst hr, Option.some.injEq] at hs
  subst hs
  refine ⟨h.label, ?_, ?_, h.mem.trans hmem.symm, ?_, h.log.trans hlog.symm, ?_, fun _ => ?_, fun hw => ?_⟩
  · rw [hM.terminator]
    exact h.next
  · rw [h.rest, hr, restMoved_load (hb ▸ hM.block_ne)]
  · exact h.path.trans (execInst_path i d.st).symm
  · exact fun hn => (h.regs hn).trans (execInst_regs i d.st hn).symm
  · exact h.within hin
  · rw [h.within hin, hwithin hw]

/-- Both runs run another instruction. -/
theorem inst (h : Hoisted obs S F L p b i d d') (hM : Movable F L p b i) (hS : Steady obs S F m L p i)
    (hd : Reachable S F m d) (hs : step S F d = some e) {j : Instr} {rest : List Instr}
    (hr : d.rest = j :: rest) (hj : j.id ≠ i.id) (hlast : d.label = p → rest ≠ []) :
    ∃ e', step S (F.moveBefore i p) d' = some e' ∧ Hoisted obs S F L p b i e e' := by
  have hv := hd.valid hM.ssa
  have hargs := h.args hM hv hr
  have hdr : d'.rest = j :: restMoved i p d.label rest := by rw [h.rest, hr, restMoved_cons hj hlast]
  obtain ⟨hmem, hpath, hlog, hregs⟩ := exec (S := S) (j := j) h.mem h.path h.log h.regs hargs
  have hwithin := fun hin => hS.same hd (.inl hin) hs
  rw [step_inst hr, Option.some.injEq] at hs
  subst hs
  refine ⟨_, step_inst hdr, h.label, ?_, rfl, hmem, hpath, hlog, hregs, fun hp => ?_, fun hw => ?_⟩
  · cases hterm : j.isTerminator with
    | false => exact h.next
    | true =>
      simp only [if_true, chosen]
      rw [hargs (isPhi_of_isTerminator hterm), h.mem]
  · rcases past_inst hr hp with hp | ⟨-, e⟩
    · rw [execInst_regs j _ hj.symm, execInst_regs j _ hj.symm, h.past hp]
    · exact absurd e.symm hj
  · have hin : d.Within L p := .inl (hw.resolve_right fun hn => hlast hn.1 hn.2)
    rw [execInst_regs j _ hj.symm, h.within hin, hwithin hin hw]

/-- At the end of the preheader the other run runs `i` first. -/
theorem last (h : Hoisted obs S F L p b i d d') (hM : Movable F L p b i) (hS : Steady obs S F m L p i)
    (hd : Reachable S F m d) (hs : step S F d = some e) (hl : d.label = p) (hr : d.rest = [t]) :
    ∃ e' e'', step S (F.moveBefore i p) d' = some e' ∧ e'.rest ≠ [] ∧
      step S (F.moveBefore i p) e' = some e'' ∧ Hoisted obs S F L p b i e e'' := by
  have hv := hd.valid hM.ssa
  have ht := hv.mem_insts hr
  have hreach : Reach F.Edge F.entry p := hl ▸ hv.reach
  have hid : t.id ≠ i.id := fun e => hM.block_ne ((hM.block_unique ht e).1.symm.trans hl)
  have hdr : d'.rest = [i, t] := by rw [h.rest, hr, restMoved_last hl]
  obtain ⟨hmemi, hlogi⟩ := hS.silent d'.st
  have hregsi : ∀ {n}, n ≠ i.id → (execInst S i d'.st).regs n = d.st.regs n :=
    fun hn => (execInst_regs i d'.st hn).trans (h.regs hn)
  have hargs : t.isPhi = false → t.args S (execInst S i d'.st).regs = t.args S d.st.regs := by
    intro hphi
    refine args_congr fun id ty ho => hregsi ?_
    rintro rfl
    exact hM.not_past hl hreach (hv.past_of_before hM.ssa hr
      (hM.ssa.uses ht hphi ho (mem_ids.mpr ⟨i, hM.mem, rfl⟩)))
  have hown : (execInst S i d'.st).regs i.id = d.leaves S i := by
    refine hS.leaves_congr (args_congr fun id ty ho => h.regs ?_) h.mem
    rintro rfl
    exact hM.outside ho hM.inside (mem_ids.mpr ⟨i, hM.mem, rfl⟩)
  obtain ⟨hmem, hpath, hlog, hregs⟩ := exec (S := S) (j := t) (hmemi.trans h.mem)
    ((execInst_path i d'.st).trans h.path) (hlogi.trans h.log) hregsi hargs
  have hwithin := hS.same hd (.inr ⟨t, hl, hr⟩) hs
  rw [step_inst hr, Option.some.injEq] at hs
  subst hs
  refine ⟨_, _, step_inst hdr, List.cons_ne_nil _ _, step_inst rfl, h.label, ?_, restMoved_nil.symm, hmem,
    hpath, hlog, hregs, fun hp => absurd hp (hM.not_past hl hreach), fun hw => ?_⟩
  · cases hterm : t.isTerminator with
    | false => simpa [hM.terminator] using h.next
    | true =>
      simp only [if_true, chosen]
      rw [hargs (isPhi_of_isTerminator hterm), hmemi, h.mem]
  · refine (execInst_regs t _ hid.symm).trans ?_
    rw [hown, hwithin hw]

/-- Both runs enter the next block. -/
theorem enter (h : Hoisted obs S F L p b i d d') (hM : Movable F L p b i) (hS : Steady obs S F m L p i)
    (hd : Reachable S F m d) (hs : step S F d = some e) (hr : d.rest = []) (hn : d.next = some y) :
    ∃ e', step S (F.moveBefore i p) d' = some e' ∧ Hoisted obs S F L p b i e e' := by
  have hv := hd.valid hM.ssa
  have hdr : d'.rest = [] := by rw [h.rest, hr, restMoved_nil]
  have hkeep : ∀ regs : Nat → Option V, Llvm.enter S d.label (F.insts y) regs i.id = regs i.id := by
    intro regs
    refine enter_other fun k hk hphi e => ?_
    obtain ⟨-, rfl⟩ := hM.block_unique hk e
    rw [hM.phi] at hphi
    cases hphi
  have hwithin := fun hin => hS.same hd (.inl hin) hs
  have hstep := hs
  rw [step_enter hr hn, Option.some.injEq] at hs
  subst hs
  refine ⟨_, step_enter hdr (h.next.trans hn), ?_⟩
  rw [hM.moved_enter, h.label]
  refine ⟨rfl, rfl, hM.moved_insts, h.mem, ?_, h.log, ?_, fun hp => ?_, fun hw => ?_⟩
  · rw [h.path]
  · intro n hne
    show Llvm.enter S d.label (F.insts y) d'.st.regs n = Llvm.enter S d.label (F.insts y) d.st.regs n
    unfold Llvm.enter
    split
    · rename_i k hfind
      have hk := List.mem_of_find?_eq_some hfind
      have hphi := List.find?_some hfind
      rw [Bool.and_eq_true] at hphi
      refine congrArg some (phiValue_congr fun o ho => h.value fun ty e => ?_)
      subst e
      -- `i` dominates the block the phi is entered from, which has ended
      have hdom := hM.ssa.phiUses hk hphi.1 ho (mem_ids.mpr ⟨i, hM.mem, rfl⟩)
      by_cases hb : b = d.label
      · exact .inl ⟨hb, by simp [hr]⟩
      · exact .inr ⟨hb, hdom⟩
    · exact h.regs hne
  · refine (hkeep d'.st.regs).trans (Eq.trans ?_ (hkeep d.st.regs).symm)
    exact h.past (hv.past_enter hr hn (mem_ids.mpr ⟨i, hM.mem, rfl⟩) hp).1
  · have hin : L.contains y = true := hw.resolve_right fun ⟨hy, hnil⟩ => hM.preheader_ne_nil (hy ▸ hnil)
    have hin' := hM.within_of_step hv hstep hin
    refine (hkeep d'.st.regs).trans ?_
    rw [h.within hin', hwithin hin' hw]

theorem init (hM : Movable F L p b i) : Hoisted obs S F L p b i (Config.init F m)
    (Config.init (F.moveBefore i p) m) where
  label := rfl
  next := rfl
  rest := hM.moved_insts
  mem := rfl
  path := rfl
  log := rfl
  regs _ := rfl
  past _ := rfl
  within hw := by
    rcases hw with hin | ⟨he, hnil⟩
    · exact absurd hin hM.loop.root
    · have he : F.entry = p := he
      exact absurd hnil (he ▸ hM.preheader_ne_nil : F.insts F.entry ≠ [])

end Hoisted

/-- The two runs: that of `F` runs `i` alone in the loop, the other one before the terminator of
the preheader. -/
theorem Movable.weave (hM : Movable F L p b i) (hS : Steady obs S F m L p i) :
    Weave (step S F) (step S (F.moveBefore i p))
      (fun d d' => Reachable S F m d ∧ Hoisted obs S F L p b i d d')
      (fun d => ∃ rest, d.rest = i :: rest) (fun d => d.rest.length) (fun d' => d'.rest ≠ []) := by
  constructor
  case lags =>
    rintro d d' ⟨hd, h⟩ ⟨rest, hr⟩
    have hs := step_inst (S := S) (F := F) hr
    refine ⟨_, hs, ⟨hd.tail hs, h.skip hM hS hd hs hr⟩, ?_⟩
    rw [hr]
    exact Nat.lt_succ_self _
  case goes =>
    rintro d d' e ⟨hd, h⟩ hlag hs
    have he := hd.tail hs
    rcases step_cases hs with ⟨j, rest, hr, -⟩ | ⟨y, hr, hn, -⟩
    · have hj : j.id ≠ i.id := by
        intro e
        obtain ⟨-, rfl⟩ := hM.block_unique ((hd.valid hM.ssa).mem_insts hr) e
        exact hlag ⟨rest, hr⟩
      by_cases hlast : d.label = p ∧ rest = []
      · obtain ⟨hl, rfl⟩ := hlast
        obtain ⟨e', e'', h₁, hne, h₂, h⟩ := h.last hM hS hd hs hl hr
        exact ⟨e', h₁, .inr ⟨hne, e'', h₂, he, h⟩⟩
      · obtain ⟨e', h₁, h⟩ := h.inst hM hS hd hs hr hj fun hl hnil => hlast ⟨hl, hnil⟩
        exact ⟨e', h₁, .inl ⟨he, h⟩⟩
    · obtain ⟨e', h₁, h⟩ := h.enter hM hS hd hs hr hn
      exact ⟨e', h₁, .inl ⟨he, h⟩⟩
  case stops =>
    rintro d d' ⟨-, h⟩ _ hs
    cases hr : d.rest with
    | cons j rest =>
      rw [step_inst hr] at hs
      cases hs
    | nil =>
      cases hn : d.next with
      | some y =>
        rw [step_enter hr hn] at hs
        cases hs
      | none =>
        have hdr : d'.rest = [] := by rw [h.rest, hr, restMoved_nil]
        rw [step, hdr, h.next.trans hn]

theorem Hoisted.endsAs (h : Hoisted obs S F L p b i d d') (hM : Movable F L p b i) (hr : d.rest = []) :
    EndsAs obs F (F.moveBefore i p) d d' where
  label := h.label
  next := h.next
  path := h.path
  log := h.log
  mem := h.mem
  regs {a a' n} hn hdom _ := by
    by_cases e : n = i.id
    · subst e
      obtain rfl := hM.ssa.unique hn (mem_ids.mpr ⟨i, hM.mem, rfl⟩)
      refine h.past ?_
      by_cases hl : a = d.label
      · exact .inl ⟨hl, by simp [hr]⟩
      · exact .inr ⟨hl, hdom⟩
    · exact h.regs e

/-- **Moving one instruction.** -/
theorem Movable.matches (hM : Movable F L p b i) (hS : Steady obs S F m L p i) :
    Matches obs S m F (F.moveBefore i p) := by
  have hinit : Reachable S F m (Config.init F m) ∧ Hoisted obs S F L p b i (Config.init F m : Config V M)
      (Config.init (F.moveBefore i p) m) := ⟨.refl, .init hM⟩
  refine ⟨fun c hc hr => ?_, fun d hd hr => ?_⟩
  · obtain ⟨d, hd, -, h⟩ := (hM.weave hS).forward hinit hc
    exact ⟨d, hd, by rw [h.rest, hr, restMoved_nil], h.endsAs hM hr⟩
  · obtain ⟨c, hc, ⟨-, h⟩, hlag⟩ := (hM.weave hS).backward hinit hd fun h => h hr
    -- what is left for `c` to run, `d` would have to run too
    have hrest : c.rest = [] := by
      cases hcr : c.rest with
      | nil => rfl
      | cons j rest =>
        have hjm := (Reachable.valid hM.ssa hc).mem_insts hcr
        have hj : j.id ≠ i.id := by
          intro e
          obtain ⟨-, rfl⟩ := hM.block_unique hjm e
          exact hlag ⟨rest, hcr⟩
        have hnil := h.rest
        rw [hr, hcr] at hnil
        by_cases hlast : c.label = p ∧ rest = []
        · obtain ⟨hl, rfl⟩ := hlast
          rw [restMoved_last hl] at hnil
          cases hnil
        · rw [restMoved_cons hj fun hl hn => hlast ⟨hl, hn⟩] at hnil
          cases hnil
    exact ⟨c, hc, hrest, h.endsAs hM hrest⟩

end Ece566.Llvm
