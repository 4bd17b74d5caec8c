import Ece566.CseBehaviour
import Ece566.HoistRuns

/- `LoopInvariantCodeMotion` of project 3 preserves what a module does, without and with
   its call of `CommonSubexpressionElimination`. Whatever the hoisting moves is a pure
   instruction with operands from outside the loop, or a load that may leave it; each is
   steady from the end of the preheader on, and moves compose at the ends of blocks. -/
namespace Ece566.Llvm

open Dominance Relation

variable {V M Obj : Type} {S : Sem V M} {F F' G : Func} {L : Loop} {A : LoopAnalyses} {m : M}
variable {a b p : Label} {i load : Instr} {n : Nat} {s s' : Hoisting}

/-- A function in SSA form made of pure instructions, phis, loads, stores and calls, where no
terminator has side effects or a value. -/
structure Func.Calm (F : Func) : Prop where
  ssa : F.SsaForm
  accesses : ∀ b, F.Accesses b
  plain : ∀ {b t}, t ∈ F.insts b → t.isTerminator = true → t.op.opcode.isSpecialTerminator = false

theorem Func.Calm.moveBefore (h : F.Calm) (hM : Movable F L p b i) : (F.moveBefore i p).Calm where
  ssa := moveBefore_ssaForm h.ssa hM.loop hM.preheader hM.mem hM.inside hM.phi hM.terminator hM.operands
  accesses a j hj := by
    rcases mem_moveBefore.mp hj with ⟨hj, -⟩ | ⟨-, rfl⟩
    · exact h.accesses a j hj
    · exact h.accesses b j hM.mem
  plain {a t} ht := by
    rcases mem_moveBefore.mp ht with ⟨ht, -⟩ | ⟨-, rfl⟩
    · exact h.plain ht
    · exact h.plain hM.mem

/-- What writes the memory is a store or a call. -/
theorem Func.Calm.writes (h : F.Calm) (hi : i ∈ F.insts b) (hw : i.op.opcode.writesMemory = true) :
    isStore i = true ∨ isCall i = true := by
  cases hterm : i.isTerminator with
  | true =>
    rw [(plain_effect hterm (h.plain hi hterm)).2.2] at hw
    cases hw
  | false =>
    rcases h.accesses b i hi hterm with hphi | hpure | hl | hs | hcall
    · have : i.op.opcode = .phi := by simpa [Instr.isPhi] using hphi
      rw [this] at hw
      cases hw
    · have hno : i.op.opcode.isPure = true → i.op.opcode.writesMemory = false := by
        cases i.op.opcode <;> decide
      rw [hno hpure] at hw
      cases hw
    · rw [opcode_of_isLoad hl] at hw
      cases hw
    · exact .inl hs
    · exact .inr hcall

/-! What is moved is steady. -/

theorem leaves_pure (hphi : i.isPhi = false) (hpure : i.op.opcode.isPure = true) (st : State V M) :
    (execInst S i st).regs i.id = some (S.compute i.op (i.args S st.regs)) := by
  simp [execInst, hphi, hpure, assign_same]

/-- A pure instruction. -/
theorem Movable.steady_pure (hM : Movable F L p b i) (hpure : i.op.opcode.isPure = true) :
    Steady seen S F m L p i where
  silent st := execInst_silent (by simp [Instr.isQuiet, hpure]) st
  same {d e} hd hfrom hs he := by
    have hv := hd.valid hM.ssa
    suffices hargs : i.args S e.st.regs = i.args S d.st.regs by
      rw [Config.leaves, Config.leaves, leaves_pure hM.phi hpure, leaves_pure hM.phi hpure, hargs]
    rcases step_cases hs with ⟨j, rest, hr, rfl⟩ | ⟨y, hr, hn, rfl⟩
    · rcases hfrom with (hin | ⟨-, hr'⟩) | ⟨t, hl, hr'⟩
      · exact hM.args_inst hin (hv.mem_insts hr)
      · rw [hr] at hr'
        cases hr'
      · obtain ⟨rfl, -⟩ := List.cons.inj (hr.symm.trans hr')
        exact hM.args_last hv hl hr'
    · rcases he with hin | ⟨rfl, he⟩
      · exact hM.args_enter hin
      · exact absurd he hM.preheader_ne_nil
  leaves_congr hargs _ := by rw [leaves_pure hM.phi hpure, leaves_pure hM.phi hpure, hargs]

theorem Leaving.movable (h : Leaving A F L p b load) : Movable F L p b load :=
  ⟨h.ssa, h.loop, h.preheader, h.mem, h.inside, isPhi_of_isLoad h.isLoad, not_terminator_of_isLoad h.isLoad,
    canMove_invariant h.ssa h.mem h.isLoad h.canMove⟩

theorem Leaving.leaves (h : Leaving A F L p b load) (hF : F.Calm) : Leaves A F L p b load :=
  ⟨h.ssa, h.loop, h.preheader, h.mem, h.inside, h.isLoad, fun _ hi hw => hF.writes hi hw, h.canMove⟩

/-- A load that may leave the loop. -/
theorem Leaving.steady (h : Leaving A F L p b load) (hF : F.Calm) (O : S.Objects Obj) :
    Steady seen S F m L p load where
  silent st := by
    obtain ⟨-, -, hvol, -⟩ := (canMoveLoadOutOfLoop_iff A).mp h.canMove
    rw [execInst_effect (isPhi_of_isLoad h.isLoad) (not_pure_of_isLoad h.isLoad)]
    refine ⟨O.reads (opcode_of_isLoad h.isLoad) hvol, ?_⟩
    rw [List.filterMap_append]
    simp [seen, opcode_of_isLoad h.isLoad, hvol]
  same hd hfrom hs he := by
    have hsame := ((h.leaves hF).same_read O hd hfrom hs he).2
    rw [Config.leaves, Config.leaves, load_own h.isLoad, load_own h.isLoad]
    exact congrArg some hsame
  leaves_congr hargs hmem := by rw [load_own h.isLoad, load_own h.isLoad, hargs, hmem]

/-! The moves of the pass. -/

/-- A move the pass makes. -/
inductive Hoist (A : LoopAnalyses) : Func → Func → Prop where
  | pure {F : Func} {L : Loop} {p b : Label} {i : Instr} : Movable F L p b i →
      i.op.opcode.isPure = true → Hoist A F (F.moveBefore i p)
  | load {F : Func} {L : Loop} {p b : Label} {i : Instr} : Leaving A F L p b i →
      Hoist A F (F.moveBefore i p)

theorem Hoist.movable (h : Hoist A F F') : ∃ L p b i, Movable F L p b i ∧ F' = F.moveBefore i p := by
  cases h with
  | pure hM _ => exact ⟨_, _, _, _, hM, rfl⟩
  | load h => exact ⟨_, _, _, _, h.movable, rfl⟩

theorem Hoist.lifts (h : Hoist A F F') : Lifts F F' := by
  obtain ⟨L, p, b, i, hM, rfl⟩ := h.movable
  exact hM.lifts

theorem Hoist.matches (h : Hoist A F F') (hF : F.Calm) (O : S.Objects Obj) : Matches seen S m F F' := by
  cases h with
  | pure hM hpure => exact hM.matches (hM.steady_pure hpure)
  | load h => exact h.movable.matches (h.steady hF O)

abbrev Hoists (A : LoopAnalyses) : Func → Func → Prop := ReflTransGen (Hoist A)

theorem Hoists.calm (hF : F.Calm) (h : Hoists A F F') : F'.Calm ∧ Lifts F F' := by
  induction h with
  | refl => exact ⟨hF, .refl hF.ssa⟩
  | tail _ h ih =>
    obtain ⟨hF₁, hl₁⟩ := ih
    obtain ⟨L, p, b, i, hM, rfl⟩ := h.movable
    exact ⟨hF₁.moveBefore hM, hl₁.trans hM.lifts⟩

theorem Hoists.matches (hF : F.Calm) (O : S.Objects Obj) (h : Hoists A F F') : Matches seen S m F F' := by
  induction h with
  | refl => exact .refl F
  | tail h₁ h ih =>
    obtain ⟨hF₁, hl₁⟩ := Hoists.calm hF h₁
    exact ih.trans hl₁ h.lifts (h.matches hF₁ O)

/-- Instructions are moved, not made. -/
theorem Hoists.mem (h : Hoists A F F') (hi : i ∈ F'.insts a) : ∃ b, i ∈ F.insts b := by
  induction h generalizing a with
  | refl => exact ⟨a, hi⟩
  | tail _ h ih =>
    obtain ⟨L, p, b, j, hM, rfl⟩ := h.movable
    rcases mem_moveBefore.mp hi with ⟨hi, -⟩ | ⟨-, rfl⟩
    · exact ih hi
    · exact ih hM.mem

/-! What each loop of the pass does. -/

/-- `makeLoopInvariant` moves no load and no store. -/
def LoopAnalyses.SparesAccesses (A : LoopAnalyses) : Prop :=
  ∀ {F L i}, A.isHoistable F L i = true → isLoad i = false ∧ isStore i = false

/-- A calm function without a call that `makeLoopInvariant` moves: LLVM moves the calls of
functions that may be run speculatively and read no memory. -/
structure Func.Held (A : LoopAnalyses) (F : Func) : Prop where
  calm : F.Calm
  calls : ∀ {b i}, i ∈ F.insts b → isCall i = true → ∀ G L, A.isHoistable G L i = false

theorem Hoists.held (hF : F.Held A) (h : Hoists A F F') : F'.Held A where
  calm := (Hoists.calm hF.calm h).1
  calls hi hcall := by
    obtain ⟨b, hi⟩ := h.mem hi
    exact hF.calls hi hcall

/-- So what it moves is pure. -/
theorem Func.Held.pure (hF : F.Held A) (hA : A.Correct) (hs : A.SparesAccesses) (hi : i ∈ F.insts b)
    (h : A.isHoistable G L i = true) : i.op.opcode.isPure = true := by
  obtain ⟨hphi, hterm⟩ := hA.isHoistable h
  obtain ⟨hload, hstore⟩ := hs h
  have hcall : isCall i = false := by
    rw [← Bool.not_eq_true]
    intro hcall
    rw [hF.calls hi hcall] at h
    cases h
  simpa [hphi, hload, hstore, hcall] using hF.calm.accesses b i hi hterm

section
variable (hA : A.Correct) (hspares : A.SparesAccesses)

include hA hspares

theorem moveLoopInvariants_hoists (hheld : s.func.Held A) (hL : s.func.IsLoop L)
    (hp : s.func.IsPreheader L p) (hn : n ∈ s.func.ids b) (hb : L.contains b = true) :
    Wp (moveLoopInvariants A L b n) (fun _ s' => Hoists A s.func s'.func) s := by
  have hF := hheld.calm.ssa
  obtain ⟨i, hi, rfl⟩ := mem_ids.mp hn
  refine Wp.bind' (instAt_spec hF hi) ?_
  intro i s h
  obtain ⟨rfl, rfl⟩ := h
  refine Wp.bind' get_spec ?_
  intro _ s h
  obtain ⟨rfl, rfl⟩ := h
  have hpre := (hA.getLoopPreheader hF hL).mpr hp
  refine Wp.bind' (P := fun made s' => Hoists A s.func s'.func ∧ (made = false → s' = s)) ?_ ?_
  · refine onlyIf_spec (fun hops => ?_) fun _ => ⟨.refl, fun _ => rfl⟩
    refine Wp.bind' get_spec ?_
    intro _ s h
    obtain ⟨rfl, rfl⟩ := h
    split
    · rename_i hh
      obtain ⟨hphi, hterm⟩ := hA.isHoistable hh
      rw [hpre]
      refine Wp.bind' (Wp.modify' (Q := fun _ s' => Hoists A s.func s'.func) ?_) fun _ s' h => ?_
      · exact .single (.pure ⟨hF, hL, hp, hi, hb, hphi, hterm, hops⟩ (hheld.pure hA hspares hi hh))
      · exact Wp.pure' ⟨h, fun e => nomatch e⟩
    · exact Wp.pure' ⟨.refl, fun _ => rfl⟩
  · rintro made s' ⟨hh, hsame⟩
    cases made with
    | true => exact Wp.modify' hh
    | false =>
      obtain rfl := hsame rfl
      simp only [Bool.false_eq_true, if_false]
      split
      · rename_i hl
        split
        · rename_i hmove
          rw [hpre]
          refine Wp.bind' (Wp.modify' (Q := fun _ s₂ => Hoists A s'.func s₂.func) ?_) fun _ s₂ h => ?_
          · exact .single (.load ⟨hF, hL, hp, hi, hb, hl, hmove⟩)
          · exact Wp.modify' h
        · exact Wp.pure' .refl
      · split
        · split
          · exact Wp.modify' .refl
          · exact Wp.pure' .refl
        · exact Wp.pure' .refl

theorem moveInsts_hoists (hb : L.contains b = true) (ns : List Nat) :
    ∀ {c : Counts} {s : Hoisting}, s.func.Held A → s.func.IsLoop L → s.func.IsPreheader L p →
      ns.Nodup → (∀ n ∈ ns, n ∈ s.func.ids b) →
      Wp (moveInsts A L b ns c) (fun _ s' => Hoists A s.func s'.func) s := by
  induction ns with
  | nil => exact fun _ _ _ _ _ => Wp.pure' .refl
  | cons n ns ih =>
    intro c s hheld hL hp hnd hns
    have hF := hheld.calm.ssa
    obtain ⟨i, hi, rfl⟩ := mem_ids.mp (hns n List.mem_cons_self)
    have hmem := mem_ids.mpr ⟨i, hi, rfl⟩
    refine Wp.bind' (instAt_spec hF hi) ?_
    intro i s h
    obtain ⟨rfl, rfl⟩ := h
    refine Wp.bind' ((moveLoopInvariants_hoists hA hspares hheld hL hp hmem hb).and'
      (moveLoopInvariants_spec hA hF hL hp hmem hb)) ?_
    rintro _ s' ⟨hh, h⟩
    refine (ih (hh.held hheld) (h.keeps.isLoop hL) (h.keeps.isPreheader hp)
      (List.nodup_cons.mp hnd).2 fun m hm => ?_).mono fun _ s'' h' => hh.trans h'
    refine h.others m (hns m (List.mem_cons_of_mem _ hm)) ?_
    rintro rfl
    exact (List.nodup_cons.mp hnd).1 hm

theorem moveBlocks_hoists (blocks : List Label) :
    ∀ {c : Counts} {s : Hoisting}, s.func.Held A → s.func.IsLoop L → s.func.IsPreheader L p →
      (∀ b ∈ blocks, L.contains b = true) →
      Wp (moveBlocks A L blocks c) (fun _ s' => Hoists A s.func s'.func) s := by
  induction blocks with
  | nil => exact fun _ _ _ _ => Wp.pure' .refl
  | cons b bs ih =>
    intro c s hheld hL hp hbs
    have hF := hheld.calm.ssa
    refine Wp.bind' get_spec ?_
    intro _ s h
    obtain ⟨rfl, rfl⟩ := h
    have hb := hbs b List.mem_cons_self
    refine Wp.bind' ((moveInsts_hoists hA hspares hb _ hheld hL hp (hF.nodup b) fun _ h => h).and'
      (moveInsts_spec hA hb _ hF hL hp (hF.nodup b) fun _ h => h)) ?_
    rintro c' s' ⟨hh, h⟩
    exact (ih (hh.held hheld) (h.isLoop hL) (h.isPreheader hp) fun b' hb' =>
      hbs b' (List.mem_cons_of_mem _ hb')).mono fun _ s'' h' => hh.trans h'

theorem loopInvariantCodeMotion_hoists (hheld : s.func.Held A) (hL : s.func.IsLoop L) :
    Wp (loopInvariantCodeMotion A L) (fun _ s' => Hoists A s.func s'.func) s := by
  refine Wp.bind' (P := fun _ s' => s'.func = s.func) (Wp.modify' rfl) ?_
  intro _ s₁ h
  rw [← h] at hheld hL ⊢
  refine Wp.bind' get_spec ?_
  intro _ _ h
  obtain ⟨rfl, rfl⟩ := h
  split
  · exact Wp.modify' .refl
  · rename_i p hpre
    split
    · exact Wp.pure' .refl
    · have hF := hheld.calm.ssa
      refine Wp.bind' (moveBlocks_hoists hA hspares _ hheld hL ((hA.getLoopPreheader hF hL).mp hpre)
        fun b hb => List.contains_iff_mem.mpr hb) ?_
      intro _ s₂ h₂
      exact Wp.modify' h₂

end

mutual

theorem workOnNestedLoops_hoists (hA : A.Correct) (hspares : A.SparesAccesses) :
    ∀ {L : Loop} {s : Hoisting}, s.func.Held A → s.func.IsLoopNest L →
      Wp (workOnNestedLoops A L) (fun _ s' => Hoists A s.func s'.func) s
  | .mk _ _ _, _, hheld, ⟨hL, hsub⟩ => by
    rw [workOnNestedLoops]
    refine Wp.bind' ((workOnSubLoops_hoists hA hspares hheld hsub).and'
      (workOnSubLoops_spec hA hheld.calm.ssa hsub)) ?_
    rintro _ s' ⟨hh, h⟩
    exact (loopInvariantCodeMotion_hoists hA hspares (hh.held hheld) (h.isLoop hL)).mono
      fun _ s'' h' => hh.trans h'

theorem workOnSubLoops_hoists (hA : A.Correct) (hspares : A.SparesAccesses) :
    ∀ {loops : List Loop} {s : Hoisting}, s.func.Held A → s.func.AreLoopNests loops →
      Wp (workOnSubLoops A loops) (fun _ s' => Hoists A s.func s'.func) s
  | [], _, _, _ => by
    rw [workOnSubLoops]
    exact Wp.pure' .refl
  | _ :: _, _, hheld, ⟨hL, hrest⟩ => by
    rw [workOnSubLoops]
    refine Wp.bind' ((workOnNestedLoops_hoists hA hspares hheld hL).and'
      (workOnNestedLoops_spec hA hheld.calm.ssa hL)) ?_
    rintro _ s' ⟨hh, h⟩
    exact (workOnSubLoops_hoists hA hspares (hh.held hheld) (h.areLoopNests hrest)).mono
      fun _ s'' h' => hh.trans h'

end

/-- No call and no load of the function writes the memory. -/
def Func.CallsKeep (F : Func) (S : Sem V M) : Prop :=
  ∀ {b i}, i ∈ F.insts b → (isCall i || isLoad i) = true → ∀ args m, (S.effect i.op args m).2 = m

theorem Hoists.plain (hF : F.Calm) (hphi : F.PhisTyped) (hcalls : F.CallsKeep S) (h : Hoists A F F') :
    F'.Plain S where
  ssa := (Hoists.calm hF h).1.ssa
  phis hi hp := by
    obtain ⟨b, hi⟩ := h.mem hi
    exact hphi hi hp
  accesses := (Hoists.calm hF h).1.accesses
  undisturbed _ _ hk _ _ _ _ _ _ hck := by
    obtain ⟨b, hk⟩ := h.mem hk
    exact hcalls hk hck

end Ece566.Llvm
