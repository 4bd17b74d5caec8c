import Ece566.LicmSound

/- The load where it is, and the load moved. In a visit to the loop the load reads, every
   time it runs, what it would have read at the end of the preheader; and the function
   with the load moved there runs in step with the original one, every instruction but the
   load with the operands it had. -/
namespace Ece566.Llvm

open Dominance Relation

variable {V M : Type} {Obj : Type} {S : Sem V M} {F : Func} {L : Loop} {A : LoopAnalyses}
variable {a b p y : Label} {i t load : Instr} {m : M} {st st' : State V M}
variable {c₀ c₁ d d' e : Config V M}

/-- A visit to the loop: the run has left the preheader and has not come back to it. -/
theorem Leaves.same_visit (h : Leaves A F L p b load) (O : S.Objects Obj) (hc : Reachable S F m c₀)
    (hl : c₀.label = p) (hr : c₀.rest = [t]) (hs : step S F c₀ = some c₁)
    (hpath : ReflTransGen (fun c d => step S F c = some d ∧ d.label ≠ p) c₁ d) :
    Reachable S F m d ∧ (d.Within L p →
      load.args S d.st.regs = load.args S c₀.st.regs ∧ d.reads S load = c₀.reads S load) := by
  induction hpath with
  | refl => exact ⟨hc.tail hs, h.same_read O hc (.inr ⟨t, hl, hr⟩) hs⟩
  | @tail d e _ hstep ih =>
    obtain ⟨hd, ih⟩ := ih
    refine ⟨hd.tail hstep.1, fun he => ?_⟩
    have hin : L.contains e.label = true := he.resolve_right fun ⟨hp, _⟩ => hstep.2 hp
    have hwithin := h.within_of_step (hd.valid h.ssa) hstep.1 hin
    obtain ⟨hargs, hreads⟩ := h.same_read O hd (.inl hwithin) hstep.1 he
    obtain ⟨hargs', hreads'⟩ := ih hwithin
    exact ⟨hargs.trans hargs', hreads.trans hreads'⟩

/-! Running in step. -/

/-- Nothing but the register of the load, and the events of loads, is different. -/
structure Beside (load : Instr) (st st' : State V M) : Prop where
  mem : st'.mem = st.mem
  path : st'.path = st.path
  log : st'.log.filter (fun ev => ev.op.opcode != .load) =
    st.log.filter fun ev => ev.op.opcode != .load
  regs : ∀ {n}, n ≠ load.id → st'.regs n = st.regs n

/-- What is left of block `a` when the load has moved. -/
def restMoved (load : Instr) (p a : Label) (rest : List Instr) : List Instr :=
  if a = p ∧ rest ≠ [] then insertLast load rest else rest.filter fun j => j.id != load.id

/-- `d` is where the run of `F` is, `d'` where the run with the load moved is. -/
structure Moved (S : Sem V M) (F : Func) (L : Loop) (p b : Label) (load : Instr) (d d' : Config V M) :
    Prop where
  label : d'.label = d.label
  next : d'.next = d.next
  rest : d'.rest = restMoved load p d.label d.rest
  beside : Beside load d.st d'.st
  past : d.Past F b load.id → d'.st.regs load.id = d.st.regs load.id
  within : d.Within L p → d'.st.regs load.id = some (d.reads S load)

theorem Beside.exec (h : Beside load st st')
    (hargs : i.isPhi = false → i.args S st'.regs = i.args S st.regs) :
    Beside load (execInst S i st) (execInst S i st') := by
  cases hphi : i.isPhi with
  | true => simpa [execInst, hphi] using h
  | false =>
    have hregs : ∀ {x : V} {n}, n ≠ load.id → assign st'.regs i.id x n = assign st.regs i.id x n := by
      intro x n hn
      simp [assign, h.regs hn]
    cases hpure : i.op.opcode.isPure with
    | true =>
      simp only [execInst, hphi, hpure, hargs hphi, Bool.false_eq_true, if_false, if_true]
      exact ⟨h.mem, h.path, h.log, fun hn => hregs hn⟩
    | false =>
      rw [execInst_effect hphi hpure, execInst_effect hphi hpure, hargs hphi, h.mem]
      exact ⟨rfl, h.path, by simp [List.filter_append, h.log], fun hn => hregs hn⟩

/-- The load that runs alone. -/
theorem Beside.skip (h : Beside load st st') (O : S.Objects Obj) (hl : isLoad load = true)
    (hv : load.op.volatile = false) :
    Beside load (execInst S load st) st' ∧ Beside load st (execInst S load st') := by
  have hop := opcode_of_isLoad hl
  have hpure := not_pure_of_isLoad hl
  have hmem : ∀ st : State V M, (execInst S load st).mem = st.mem := by
    intro st
    rw [execInst_effect (isPhi_of_isLoad hl) hpure]
    exact O.reads hop hv
  have hpath : ∀ st : State V M, (execInst S load st).path = st.path := by
    intro st
    rw [execInst_effect (isPhi_of_isLoad hl) hpure]
  have hlog : ∀ st : State V M, (execInst S load st).log.filter (fun ev => ev.op.opcode != .load) =
      st.log.filter fun ev => ev.op.opcode != .load := by
    intro st
    rw [execInst_effect (isPhi_of_isLoad hl) hpure]
    simp [List.filter_append, hop]
  have hregs : ∀ (st : State V M) {n}, n ≠ load.id → (execInst S load st).regs n = st.regs n :=
    fun st _ hn => execInst_regs load st hn
  exact ⟨⟨by rw [hmem, h.mem], by rw [hpath, h.path], by rw [hlog, h.log],
      fun hn => by rw [hregs st hn, h.regs hn]⟩,
    ⟨by rw [hmem, h.mem], by rw [hpath, h.path], by rw [hlog, h.log],
      fun hn => by rw [hregs st' hn, h.regs hn]⟩⟩

theorem restMoved_nil : restMoved load p a [] = [] := by
  rw [restMoved, if_neg fun h => h.2 rfl]
  rfl

theorem restMoved_load (ha : a ≠ p) {rest : List Instr} :
    restMoved load p a (load :: rest) = restMoved load p a rest := by
  rw [restMoved, restMoved, if_neg fun h => ha h.1, if_neg fun h => ha h.1,
    List.filter_cons_of_neg (by simp)]

theorem restMoved_last (ha : a = p) : restMoved load p a [t] = [load, t] := by
  simp [restMoved, insertLast, ha]

theorem restMoved_cons (hi : i.id ≠ load.id) {rest : List Instr} (hr : a = p → rest ≠ []) :
    restMoved load p a (i :: rest) = i :: restMoved load p a rest := by
  by_cases ha : a = p
  · have hne := hr ha
    rw [restMoved, restMoved, if_pos ⟨ha, List.cons_ne_nil i rest⟩, if_pos ⟨ha, hne⟩, insertLast,
      insertLast, List.dropLast_cons_of_ne_nil hne]
    simp [List.getLast?_cons, List.getLast?_eq_some_getLast hne]
  · rw [restMoved, restMoved, if_neg fun h => ha h.1, if_neg fun h => ha h.1,
      List.filter_cons_of_pos (by simpa using hi)]

theorem find?_insertLast {q : Instr → Bool} (hq : q i = false) (l : List Instr) :
    (insertLast i l).find? q = l.find? q := by
  have hl : l = l.dropLast ++ l.getLast?.toList := by
    cases h : l.getLast? with
    | none => simp [List.getLast?_eq_none_iff.mp h]
    | some t => simpa using (List.dropLast_append_getLast? t h).symm
  rw [insertLast, List.find?_append, List.find?_cons, hq, ← List.find?_append, ← hl]

namespace Leaves

theorem load_ne (h : Leaves A F L p b load) (hi : i ∈ F.insts a) (hne : i ≠ load) : i.id ≠ load.id :=
  fun e => hne (h.block_unique hi e).2

theorem block_ne (h : Leaves A F L p b load) : b ≠ p := by
  intro e
  obtain rfl := e
  exact h.preheader.entered.outside h.inside

theorem preheader_ne_nil (h : Leaves A F L p b load) : F.insts p ≠ [] := by
  obtain ⟨t, ht, -⟩ := h.preheader.entered.edge
  exact List.ne_nil_of_mem ht

/-- At the preheader the load has not run. -/
theorem not_past (h : Leaves A F L p b load) (hd : d.label = p) (hreach : Reach F.Edge F.entry p) :
    ¬ d.Past F b load.id := by
  intro h
  obtain ⟨e, -⟩ | ⟨-, hdom⟩ := h
  · exact h.block_ne (e.trans hd)
  · have hpb : F.Dom p b := h.loop.preheader_dom h.preheader.entered h.inside
    rw [hd] at hdom
    exact h.block_ne (hdom.antisymm hpb hreach)

/-- The blocks of the function with the load moved. -/
theorem moved_insts (h : Leaves A F L p b load) :
    (F.moveBefore load p).insts y = restMoved load p y (F.insts y) := by
  by_cases hy : y = p
  · subst hy
    have hkeep : (F.insts y).filter (fun j => j.id != load.id) = F.insts y := by
      rw [List.filter_eq_self]
      intro j hj
      rw [bne_iff_ne]
      exact fun e => h.block_ne (h.block_unique hj e).1.symm
    rw [restMoved, if_pos ⟨rfl, h.preheader_ne_nil⟩, Func.moveBefore, ← hkeep]
    simp
  · rw [moveBefore_other hy, restMoved, if_neg fun e => hy e.1]

theorem moved_enter (h : Leaves A F L p b load) {q : Label} {regs : Nat → Option V} :
    enter S q ((F.moveBefore load p).insts y) regs = enter S q (F.insts y) regs := by
  funext n
  have hload : (load.isPhi && load.id == n) = false := by simp [isPhi_of_isLoad h.isLoad]
  have hfind : ((F.moveBefore load p).insts y).find? (fun j => j.isPhi && j.id == n) =
      (F.insts y).find? fun j => j.isPhi && j.id == n := by
    rw [h.moved_insts, restMoved]
    split
    · exact find?_insertLast hload _
    · rw [List.find?_filter]
      refine List.find?_congr fun j hj => ?_
      by_cases e : j.id = load.id
      · obtain ⟨-, rfl⟩ := h.block_unique hj e
        simp [hload]
      · simp [e, beq_eq_decide]
  rw [enter, hfind]
  rfl

end Leaves

namespace Moved

/-- An operand reads the same in both runs. -/
theorem value (h : Moved S F L p b load d d') {v : Value}
    (hv : ∀ ty, v = .inst load.id ty → d.Past F b load.id) :
    S.value d'.st.regs v = S.value d.st.regs v := by
  refine value_congr fun id ty e => ?_
  by_cases hid : id = load.id
  · rw [hid]
    exact h.past (hv ty (hid ▸ e))
  · exact h.beside.regs hid

/-- So do the operands of the instruction about to run. -/
theorem args (h : Moved S F L p b load d d') (hL : Leaves A F L p b load) (hv : Valid S F d)
    {rest : List Instr} (hr : d.rest = i :: rest) (hphi : i.isPhi = false) :
    i.args S d'.st.regs = i.args S d.st.regs := by
  refine List.map_congr_left fun o ho => h.value fun ty e => ?_
  subst e
  exact hv.past_of_before hL.ssa hr
    (hL.ssa.uses (hv.mem_insts hr) hphi ho (mem_ids.mpr ⟨load, hL.mem, rfl⟩))

/-- The run of `F` runs the load, in the loop. -/
theorem skip (h : Moved S F L p b load d d') (hL : Leaves A F L p b load) (O : S.Objects Obj)
    (hd : Reachable S F m d) (hs : step S F d = some e) {rest : List Instr}
    (hr : d.rest = load :: rest) : Moved S F L p b load e d' := by
  have hv := hd.valid hL.ssa
  have hb : d.label = b := (hL.block_unique (hv.mem_insts hr) rfl).1
  have hin : d.Within L p := .inl (hb ▸ hL.inside)
  have hvol : load.op.volatile = false := by
    obtain ⟨-, -, hvol, -⟩ := (canMoveLoadOutOfLoop_iff A).mp hL.canMove
    exact hvol
  have hreads := h.within hin
  have he := hs
  rw [step_inst hr, Option.some.injEq] at he
  subst he
  refine ⟨h.label, ?_, ?_, (h.beside.skip O hL.isLoad hvol).1, fun _ => ?_, fun hw => ?_⟩
  · rw [not_terminator_of_isLoad hL.isLoad]
    exact h.next
  · rw [h.rest, hr, restMoved_load (hb ▸ hL.block_ne)]
  · rw [hreads, execInst_effect (isPhi_of_isLoad hL.isLoad) (not_pure_of_isLoad hL.isLoad)]
    exact (assign_same _ _ _).symm
  · rw [hreads, (hL.same_read O hd (.inl hin) hs hw).2]

/-- Both runs run another instruction. -/
theorem inst (h : Moved S F L p b load d d') (hL : Leaves A F L p b load) (O : S.Objects Obj)
    (hd : Reachable S F m d) (hs : step S F d = some e) {rest : List Instr} (hr : d.rest = i :: rest)
    (hi : i ≠ load) (hlast : d.label = p → rest ≠ []) :
    ∃ e', step S (F.moveBefore load p) d' = some e' ∧ Moved S F L p b load e e' := by
  have hv := hd.valid hL.ssa
  have hid := hL.load_ne (hv.mem_insts hr) hi
  have hargs := h.args hL hv hr
  have hdr : d'.rest = i :: restMoved load p d.label rest := by rw [h.rest, hr, restMoved_cons hid hlast]
  have he := hs
  rw [step_inst hr, Option.some.injEq] at he
  subst he
  refine ⟨_, step_inst hdr, h.label, ?_, rfl, h.beside.exec hargs, fun hp => ?_, fun hw => ?_⟩
  · cases hterm : i.isTerminator with
    | false => exact h.next
    | true =>
      simp only [if_true, chosen]
      rw [hargs (isPhi_of_isTerminator hterm), h.beside.mem]
  · rcases past_inst hr hp with hp | ⟨-, e⟩
    · rw [execInst_regs i _ hid.symm, execInst_regs i _ hid.symm, h.past hp]
    · exact absurd e.symm hid
  · have hin : d.Within L p := .inl (hw.resolve_right fun ⟨hl, hrest⟩ => hlast hl hrest)
    rw [execInst_regs i _ hid.symm, h.within hin, (hL.same_read O hd (.inl hin) hs hw).2]

/-- At the end of the preheader the other run runs the load too. -/
theorem last (h : Moved S F L p b load d d') (hL : Leaves A F L p b load) (O : S.Objects Obj)
    (hd : Reachable S F m d) (hs : step S F d = some e) (hl : d.label = p) (hr : d.rest = [t]) :
    ∃ e' e'', step S (F.moveBefore load p) d' = some e' ∧ step S (F.moveBefore load p) e' = some e'' ∧
      Moved S F L p b load e e'' := by
  have hv := hd.valid hL.ssa
  have ht := hv.mem_insts hr
  have hreach : Reach F.Edge F.entry p := hl ▸ hv.reach
  have hid : t.id ≠ load.id := fun e => hL.block_ne ((hL.block_unique ht e).1.symm.trans hl)
  have hpure := not_pure_of_isLoad hL.isLoad
  obtain ⟨-, -, hvol, -⟩ := (canMoveLoadOutOfLoop_iff A).mp hL.canMove
  have hdr : d'.rest = [load, t] := by rw [h.rest, hr, restMoved_last hl]
  have hbeside := (h.beside.skip O hL.isLoad hvol).2
  have hargs : t.isPhi = false → t.args S (execInst S load d'.st).regs = t.args S d.st.regs := by
    intro hphi
    refine args_congr fun id ty ho => hbeside.regs ?_
    intro e
    obtain rfl := e
    exact hL.not_past hl hreach (hv.past_of_before hL.ssa hr
      (hL.ssa.uses ht hphi ho (mem_ids.mpr ⟨load, hL.mem, rfl⟩)))
  have hown : (execInst S load d'.st).regs load.id = some (d.reads S load) := by
    have hops : load.args S d'.st.regs = load.args S d.st.regs := by
      refine args_congr fun id ty ho => h.beside.regs ?_
      intro e
      obtain rfl := e
      exact hL.outside ho hL.inside (mem_ids.mpr ⟨load, hL.mem, rfl⟩)
    rw [execInst_effect (isPhi_of_isLoad hL.isLoad) hpure, hops, h.beside.mem]
    exact assign_same _ _ _
  have he := hs
  rw [step_inst hr, Option.some.injEq] at he
  subst he
  refine ⟨_, _, step_inst hdr, step_inst rfl, h.label, ?_, restMoved_nil.symm, hbeside.exec hargs,
    fun hp => absurd hp (hL.not_past hl hreach), fun hw => ?_⟩
  · cases hterm : t.isTerminator with
    | false => simpa [not_terminator_of_isLoad hL.isLoad] using h.next
    | true =>
      simp only [if_true, chosen]
      rw [hargs (isPhi_of_isTerminator hterm), hbeside.mem]
  · refine (execInst_regs t _ hid.symm).trans ?_
    rw [hown, (hL.same_read O hd (.inr ⟨t, hl, hr⟩) hs hw).2]

/-- Both runs enter the next block. -/
theorem enter (h : Moved S F L p b load d d') (hL : Leaves A F L p b load) (O : S.Objects Obj)
    (hd : Reachable S F m d) (hs : step S F d = some e) (hr : d.rest = []) (hn : d.next = some y) :
    ∃ e', step S (F.moveBefore load p) d' = some e' ∧ Moved S F L p b load e e' := by
  have hv := hd.valid hL.ssa
  have hdr : d'.rest = [] := by rw [h.rest, hr, restMoved_nil]
  have hkeep : ∀ regs : Nat → Option V,
      Llvm.enter S d.label (F.insts y) regs load.id = regs load.id := by
    intro regs
    refine enter_other fun k hk hphi e => ?_
    obtain ⟨-, rfl⟩ := hL.block_unique hk e
    rw [isPhi_of_isLoad hL.isLoad] at hphi
    cases hphi
  have he := hs
  rw [step_enter hr hn, Option.some.injEq] at he
  subst he
  refine ⟨_, step_enter hdr (h.next.trans hn), ?_⟩
  rw [hL.moved_enter, h.label]
  refine ⟨rfl, rfl, hL.moved_insts, ⟨h.beside.mem, ?_, h.beside.log, ?_⟩, fun hp => ?_, fun hw => ?_⟩
  · rw [h.beside.path]
  · intro n hne
    show Llvm.enter S d.label (F.insts y) d'.st.regs n = Llvm.enter S d.label (F.insts y) d.st.regs n
    unfold Llvm.enter
    split
    · rename_i i hfind
      have hi := List.mem_of_find?_eq_some hfind
      have hphi := List.find?_some hfind
      rw [Bool.and_eq_true] at hphi
      refine congrArg some (phiValue_congr fun o ho => h.value fun ty e => ?_)
      subst e
      -- the load dominates the block the phi is entered from, which has ended
      have hdom := hL.ssa.phiUses hi hphi.1 ho (mem_ids.mpr ⟨load, hL.mem, rfl⟩)
      by_cases hb : b = d.label
      · exact .inl ⟨hb, by simp [hr]⟩
      · exact .inr ⟨hb, hdom⟩
    · exact h.beside.regs hne
  · refine (hkeep d'.st.regs).trans (Eq.trans ?_ (hkeep d.st.regs).symm)
    exact h.past (hv.past_enter hr hn (mem_ids.mpr ⟨load, hL.mem, rfl⟩) hp).1
  · have hin : L.contains y = true := hw.resolve_right fun ⟨hy, hnil⟩ => hL.preheader_ne_nil (hy ▸ hnil)
    have hwithin := hL.within_of_step hv hs hin
    refine (hkeep d'.st.regs).trans ?_
    rw [h.within hwithin, (hL.same_read O hd (.inl hwithin) hs hw).2]

theorem init (hL : Leaves A F L p b load) : Moved S F L p b load (Config.init F m)
    (Config.init (F.moveBefore load p) m) where
  label := rfl
  next := rfl
  rest := hL.moved_insts
  beside := ⟨rfl, rfl, rfl, fun _ => rfl⟩
  past _ := rfl
  within hw := by
    rcases hw with hin | ⟨he, hnil⟩
    · exact absurd hin hL.loop.root
    · have he : F.entry = p := he
      exact absurd hnil (he ▸ hL.preheader_ne_nil : F.insts F.entry ≠ [])

/-- The run with the load moved follows the run of `F`. -/
theorem step (h : Moved S F L p b load d d') (hL : Leaves A F L p b load) (O : S.Objects Obj)
    (hd : Reachable S F m d) (hd' : Reachable S (F.moveBefore load p) m d')
    (hs : Llvm.step S F d = some e) :
    ∃ e', Reachable S (F.moveBefore load p) m e' ∧ Moved S F L p b load e e' := by
  rcases step_cases hs with ⟨i, rest, hr, -⟩ | ⟨y, hr, hn, -⟩
  · by_cases hi : i = load
    · exact ⟨d', hd', h.skip hL O hd hs (hi ▸ hr)⟩
    · by_cases hlast : d.label = p ∧ rest = []
      · obtain ⟨hl, rfl⟩ := hlast
        obtain ⟨e', e'', h₁, h₂, h⟩ := h.last hL O hd hs hl hr
        exact ⟨e'', (hd'.tail h₁).tail h₂, h⟩
      · obtain ⟨e', h₁, h⟩ := h.inst hL O hd hs hr hi fun hl hnil => hlast ⟨hl, hnil⟩
        exact ⟨e', hd'.tail h₁, h⟩
  · obtain ⟨e', h₁, h⟩ := h.enter hL O hd hs hr hn
    exact ⟨e', hd'.tail h₁, h⟩

theorem run (hL : Leaves A F L p b load) (O : S.Objects Obj) (hd : Reachable S F m d) :
    ∃ d', Reachable S (F.moveBefore load p) m d' ∧ Moved S F L p b load d d' := by
  induction hd with
  | refl => exact ⟨_, .refl, Moved.init hL⟩
  | tail hd hs ih =>
    obtain ⟨d', hd', h⟩ := ih
    exact h.step hL O hd hd' hs

end Moved

/-- **A load that may leave its loop reads the right value outside.** In a visit to the loop that
begins at the end of the preheader (state `c₀`), the load reads, every time it runs, the
location it would have read there, and finds what was there. With the load moved to the end
of the preheader the function runs in step, and every instruction but the load has the
operands it had. -/
theorem canMoveLoadOutOfLoop_sound (h : Leaves A F L p b load) (O : S.Objects Obj) (m : M) :
    (∀ {c₀ c₁ d : Config V M} {t rest}, Reachable S F m c₀ → c₀.label = p → c₀.rest = [t] →
      step S F c₀ = some c₁ →
      ReflTransGen (fun c d => step S F c = some d ∧ d.label ≠ p) c₁ d → d.rest = load :: rest →
      load.args S d.st.regs = load.args S c₀.st.regs ∧ d.reads S load = c₀.reads S load) ∧
    ∀ {d : Config V M}, Reachable S F m d → ∃ d', Reachable S (F.moveBefore load p) m d' ∧
      Moved S F L p b load d d' ∧ ∀ i rest, d.rest = i :: rest → i.isPhi = false →
        i.args S d'.st.regs = i.args S d.st.regs := by
  refine ⟨?_, ?_⟩
  · intro c₀ c₁ d t rest hc hl hr hs hpath hrest
    obtain ⟨hd, hsame⟩ := h.same_visit O hc hl hr hs hpath
    have hb : d.label = b := (h.block_unique ((hd.valid h.ssa).mem_insts hrest) rfl).1
    exact hsame (.inl (hb ▸ h.inside))
  · intro d hd
    obtain ⟨d', hd', hmoved⟩ := Moved.run h O hd
    exact ⟨d', hd', hmoved, fun i rest hr hphi => hmoved.args h (hd.valid h.ssa) hr hphi⟩

/-! A loop that copies: block 1 loads a global, stores the value to another and goes round. -/

def copyLoad : Instr := ⟨1, ⟨.load, 0, [0], false, 0⟩, [.global 0 0], []⟩

def copyStore : Instr := ⟨2, ⟨.store, 0, [0, 0], false, 0⟩, [.inst 1 0, .global 1 0], []⟩

def copying : Func where
  entry := 0
  blocks := [0, 1]
  insts
    | 0 => [⟨0, ⟨.br, 0, [], false, 0⟩, [], [1]⟩]
    | 1 => [copyLoad, copyStore, ⟨3, ⟨.br, 0, [], false, 0⟩, [], [1]⟩]
    | _ => []

def copyingLoop : Loop := .mk 1 [1] []

theorem copying_listed (h : copying.insts b ≠ []) : b ∈ copying.blocks := by
  match b, h with
  | 0, _ | 1, _ => decide

theorem copying_edge : copying.Edge a b ↔ (a, b) ∈ [(0, 1), (1, 1)] := edge_iff copying_listed

theorem copying_ssaForm : copying.SsaForm := by
  refine local_ssaForm copying_listed (fun {b} hb => ?_) (by decide)
  simp only [copying, List.mem_cons, List.not_mem_nil, or_false] at hb
  rcases hb with rfl | rfl
  · exact .refl
  · exact .single (copying_edge.mpr (by decide))

theorem copying_leaves :
    Leaves (exactAnalyses [copyingLoop]) copying copyingLoop 0 1 copyLoad where
  ssa := copying_ssaForm
  loop :=
    { header := by decide
      root := by decide
      entry := by
        intro a b e _ _
        have hall : ∀ e ∈ [(0, 1), (1, 1)], e.2 = 1 := by decide
        exact hall _ (copying_edge.mp e) }
  preheader :=
    { entered :=
        { outside := by decide
          edge := copying_edge.mpr (by decide)
          unique := by
            intro q e hq
            have hall : ∀ e ∈ [(0, 1), (1, 1)], ¬ copyingLoop.contains e.1 = true → e.1 = 0 := by decide
            exact hall _ (copying_edge.mp e) hq }
      only := by decide
      plain := by decide }
  mem := by decide
  inside := by decide
  isLoad := rfl
  writes {a i} ha hi hw := by
    obtain rfl := List.mem_singleton.mp (List.contains_iff_mem.mp ha)
    have hall : ∀ x ∈ copying.insts 1, x.op.opcode.writesMemory = true → isStore x = true := by decide
    exact .inl (hall i hi hw)
  canMove := rfl

/-- The load of the loop that copies, the second time round: the store has run. -/
theorem canMoveLoadOutOfLoop_sound_copying :
    ∃ (d : Config Place Heap) (rest : List Instr), Reachable heapSem copying Heap.empty d ∧
      d.rest = copyLoad :: rest ∧ d.st.log.length = 4 ∧
      d.reads heapSem copyLoad = (Config.init copying Heap.empty).reads heapSem copyLoad ∧
      ∃ d', Reachable heapSem (copying.moveBefore copyLoad 0) Heap.empty d' ∧
        Moved heapSem copying copyingLoop 0 1 copyLoad d d' := by
  obtain ⟨hread, hmoved⟩ := canMoveLoadOutOfLoop_sound copying_leaves heapObjects Heap.empty
  -- the preheader, the block of the load, and that block again
  obtain ⟨c₁, hs, hpath⟩ : ∃ c₁, step heapSem copying (Config.init copying Heap.empty) = some c₁ ∧ ∃ d,
      ReflTransGen (fun c d => step heapSem copying c = some d ∧ d.label ≠ 0) c₁ d ∧
      d.st.log.length = 4 ∧ ∃ rest, d.rest = copyLoad :: rest := by
    refine ⟨_, rfl, _, .tail (.tail (.tail (.tail (.tail .refl ⟨rfl, ?_⟩) ⟨rfl, ?_⟩) ⟨rfl, ?_⟩)
      ⟨rfl, ?_⟩) ⟨rfl, ?_⟩, rfl, _, rfl⟩
    all_goals exact Nat.succ_ne_zero _
  obtain ⟨d, hd, hlog, rest, hrest⟩ := hpath
  have hreach : Reachable heapSem copying Heap.empty d :=
    ReflTransGen.head hs (hd.lift id fun _ _ h => h.1)
  obtain ⟨d', hd', hm, -⟩ := hmoved hreach
  exact ⟨d, rest, hreach, hrest, hlog, (hread .refl rfl rfl hs hd hrest).2, d', hd', hm⟩

end Ece566.Llvm
