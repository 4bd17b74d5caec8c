import Ece566.CseRuns
import Ece566.Hoist

/- Loop-invariant code motion keeps SSA form. Whatever the pass moves, in whatever loop of
   the nest, it moves to the preheader of a loop whose blocks define none of its operands;
   a move changes neither the control-flow graph nor the terminators, so the loops and
   their preheaders stay what they were and the next move is of the same kind. -/
namespace Ece566.Llvm

open Dominance

mutual

/-- A loop, and the loops nested in it. -/
def Func.IsLoopNest (F : Func) : Loop → Prop
  | .mk header blocks subLoops => F.IsLoop (.mk header blocks subLoops) ∧ F.AreLoopNests subLoops

def Func.AreLoopNests (F : Func) : List Loop → Prop
  | [] => True
  | L :: rest => F.IsLoopNest L ∧ F.AreLoopNests rest

end

/-- What the pass relies on of LLVM. -/
structure LoopAnalyses.Correct (A : LoopAnalyses) : Prop where
  loops : ∀ {F : Func}, F.SsaForm → F.AreLoopNests (A.loops F)
  getLoopPreheader : ∀ {F : Func} {L p}, F.SsaForm → F.IsLoop L →
    (A.getLoopPreheader F L = some p ↔ F.IsPreheader L p)
  dominates : ∀ {F : Func} {a b}, F.SsaForm → (A.dominates F a b = true ↔ F.Dom a b)
  isHoistable : ∀ {F L i}, A.isHoistable F L i = true → i.isPhi = false ∧ i.isTerminator = false

variable {F : Func} {L : Loop} {A : LoopAnalyses} {b p : Label} {i : Instr} {n : Nat}
variable {s s' s'' : Hoisting}

/-- What the moves leave as it was, and that they keep SSA form. -/
structure Keeps (s s' : Hoisting) : Prop where
  ssa : s'.func.SsaForm
  edge : s'.func.Edge = s.func.Edge
  entry : s'.func.entry = s.func.entry
  terminators : ∀ {a t}, t.isTerminator = true → (t ∈ s'.func.insts a ↔ t ∈ s.func.insts a)
  trail : ∀ G ∈ s'.trail, G ∈ s.trail ∨ G.SsaForm

namespace Keeps

theorem same (hF : s.func.SsaForm) (hf : s'.func = s.func) (ht : s'.trail = s.trail) : Keeps s s' where
  ssa := hf ▸ hF
  edge := by rw [hf]
  entry := by rw [hf]
  terminators _ := by rw [hf]
  trail G hG := .inl (ht ▸ hG)

theorem refl (hF : s.func.SsaForm) : Keeps s s := same hF rfl rfl

theorem trans (h : Keeps s s') (h' : Keeps s' s'') : Keeps s s'' where
  ssa := h'.ssa
  edge := h'.edge.trans h.edge
  entry := h'.entry.trans h.entry
  terminators ht := (h'.terminators ht).trans (h.terminators ht)
  trail G hG := by
    rcases h'.trail G hG with hG | hG
    · exact h.trail G hG
    · exact .inr hG

theorem isLoop (h : Keeps s s') (hL : s.func.IsLoop L) : s'.func.IsLoop L := by
  unfold Func.IsLoop
  rw [h.edge, h.entry]
  exact hL

theorem isPreheader (h : Keeps s s') (hp : s.func.IsPreheader L p) : s'.func.IsPreheader L p where
  entered := by
    rw [h.edge]
    exact hp.entered
  only t ht hterm := hp.only t ((h.terminators hterm).mp ht) hterm
  plain t ht hterm := hp.plain t ((h.terminators hterm).mp ht) hterm

end Keeps

mutual

theorem Keeps.isLoopNest (h : Keeps s s') : ∀ {L : Loop}, s.func.IsLoopNest L → s'.func.IsLoopNest L
  | .mk _ _ _, ⟨hL, hsub⟩ => ⟨h.isLoop hL, h.areLoopNests hsub⟩

theorem Keeps.areLoopNests (h : Keeps s s') : ∀ {loops : List Loop}, s.func.AreLoopNests loops →
    s'.func.AreLoopNests loops
  | [], _ => trivial
  | _ :: _, ⟨hL, hrest⟩ => ⟨h.isLoopNest hL, h.areLoopNests hrest⟩

end

/-- A move of the pass. -/
theorem keeps_moveBefore (hF : s.func.SsaForm) (hL : s.func.IsLoop L) (hp : s.func.IsPreheader L p)
    (hi : i ∈ s.func.insts b) (hb : L.contains b = true) (hphi : i.isPhi = false)
    (hterm : i.isTerminator = false) (hops : hasLoopInvariantOperands s.func L i = true) :
    Keeps s { s with func := s.func.moveBefore i p, trail := s.trail ++ [s.func.moveBefore i p] } where
  ssa := moveBefore_ssaForm hF hL hp hi hb hphi hterm hops
  edge := moveBefore_edge hF hi hterm
  entry := rfl
  terminators {a t} ht := by
    show t ∈ (s.func.moveBefore i p).insts a ↔ _
    rw [mem_moveBefore]
    refine ⟨?_, ?_⟩
    · intro h
      obtain ⟨h, -⟩ | ⟨-, rfl⟩ := h
      · exact h
      · rw [hterm] at ht
        cases ht
    · intro h
      refine .inl ⟨h, fun e => ?_⟩
      obtain rfl := hF.unique (mem_ids.mpr ⟨t, h, e⟩) (mem_ids.mpr ⟨i, hi, rfl⟩)
      rw [hF.inst_eq h hi e, hterm] at ht
      cases ht
  trail G hG := by
    rcases List.mem_append.mp hG with hG | hG
    · exact .inl hG
    · rw [List.mem_singleton.mp hG]
      exact .inr (moveBefore_ssaForm hF hL hp hi hb hphi hterm hops)

/-- A load that may leave the loop has its address from outside, whichever of the three cases
lets it. -/
theorem canMove_invariant (hF : F.SsaForm) (hi : i ∈ F.insts b) (hl : isLoad i = true) {b' : Label}
    (h : canMoveLoadOutOfLoop A F L b' i = true) : hasLoopInvariantOperands F L i = true := by
  obtain ⟨a, hops, haddr⟩ := load_operands hF hi hl
  rw [hasLoopInvariantOperands, hops, List.all_cons, List.all_nil, Bool.and_true]
  obtain ⟨a', haddr', -, hleave⟩ := (canMoveLoadOutOfLoop_iff A).mp h
  obtain rfl : a = a' := Option.some.inj (haddr.symm.trans haddr')
  rw [isLoopInvariant, Bool.not_eq_true']
  rcases (mayLeave_iff A).mp hleave with ⟨hg, -⟩ | ⟨-, -, hin⟩ | ⟨-, hin, -⟩
  · -- a global is no instruction
    cases a with
    | global g ty => rfl
    | _ => cases hg
  · exact hin
  · exact hin

/-! The pass. -/

theorem instAt_spec (hF : s.func.SsaForm) (hi : i ∈ s.func.insts b) :
    Wp (instAt b i.id) (fun j s' => j = i ∧ s' = s) s := by
  refine Wp.bind' get_spec ?_
  intro _ _ h
  obtain ⟨rfl, rfl⟩ := h
  rw [hF.inst?_eq hi]
  exact Wp.pure' ⟨rfl, rfl⟩

/-- What one turn does to block `b`, where it works on instruction `n`. -/
structure Turn (b : Label) (n : Nat) (s s' : Hoisting) : Prop where
  keeps : Keeps s s'
  others : ∀ m ∈ s.func.ids b, m ≠ n → m ∈ s'.func.ids b

theorem Turn.same (hF : s.func.SsaForm) (hf : s'.func = s.func) (ht : s'.trail = s.trail) :
    Turn b n s s' := ⟨Keeps.same hF hf ht, fun m hm _ => by rw [hf]; exact hm⟩

/-- Counters do not matter. -/
theorem Turn.counted (h : Turn b n s s') (hf : s''.func = s'.func) (ht : s''.trail = s'.trail) :
    Turn b n s s'' where
  keeps := h.keeps.trans (Keeps.same h.keeps.ssa hf ht)
  others m hm hne := by
    rw [hf]
    exact h.others m hm hne

theorem moveBefore_spec (hF : s.func.SsaForm) (hL : s.func.IsLoop L) (hp : s.func.IsPreheader L p)
    (hi : i ∈ s.func.insts b) (hb : L.contains b = true) (hphi : i.isPhi = false)
    (hterm : i.isTerminator = false) (hops : hasLoopInvariantOperands s.func L i = true) :
    Wp (moveBefore i p) (fun _ s' => Turn b i.id s s') s := by
  refine Wp.modify' ⟨keeps_moveBefore hF hL hp hi hb hphi hterm hops, fun m hm hne => ?_⟩
  exact mem_moveBefore_ids.mpr (.inl ⟨hm, hne⟩)

theorem makeLoopInvariant_spec (hA : A.Correct) (hF : s.func.SsaForm) (hL : s.func.IsLoop L)
    (hi : i ∈ s.func.insts b) (hb : L.contains b = true)
    (hops : hasLoopInvariantOperands s.func L i = true) :
    Wp (makeLoopInvariant A L i) (fun made s' => Turn b i.id s s' ∧ (made = false → s' = s)) s := by
  refine Wp.bind' get_spec ?_
  intro _ _ h
  obtain ⟨rfl, rfl⟩ := h
  split
  · rename_i hh
    obtain ⟨hphi, hterm⟩ := hA.isHoistable hh
    split
    · rename_i p hpre
      have hp := (hA.getLoopPreheader hF hL).mp hpre
      refine Wp.bind' (moveBefore_spec hF hL hp hi hb hphi hterm hops) fun _ s' h => ?_
      exact Wp.pure' ⟨h, fun e => nomatch e⟩
    · exact Wp.pure' ⟨Turn.same hF rfl rfl, fun _ => rfl⟩
  · exact Wp.pure' ⟨Turn.same hF rfl rfl, fun _ => rfl⟩

/-- One turn of the pass. -/
theorem moveLoopInvariants_spec (hA : A.Correct) (hF : s.func.SsaForm) (hL : s.func.IsLoop L)
    (hp : s.func.IsPreheader L p) (hn : n ∈ s.func.ids b) (hb : L.contains b = true) :
    Wp (moveLoopInvariants A L b n) (fun _ s' => Turn b n s s') s := by
  obtain ⟨i, hi, rfl⟩ := mem_ids.mp hn
  refine Wp.bind' (instAt_spec hF hi) ?_
  intro i s h
  obtain ⟨rfl, rfl⟩ := h
  refine Wp.bind' get_spec ?_
  intro _ s h
  obtain ⟨rfl, rfl⟩ := h
  refine Wp.bind' (P := fun made s' => Turn b i.id s s' ∧ (made = false → s' = s)) ?_ ?_
  · refine onlyIf_spec (fun hops => ?_) fun _ => ⟨Turn.same hF rfl rfl, fun _ => rfl⟩
    exact makeLoopInvariant_spec hA hF hL hi hb hops
  · intro made s' h
    obtain ⟨hturn, hsame⟩ := h
    cases made with
    | true => exact Wp.modify' (hturn.counted rfl rfl)
    | false =>
      obtain rfl := hsame rfl
      simp only [Bool.false_eq_true, if_false]
      split
      · rename_i hl
        split
        · rename_i hmove
          rw [(hA.getLoopPreheader hF hL).mpr hp]
          refine Wp.bind' (moveBefore_spec hF hL hp hi hb (isPhi_of_isLoad hl)
            (not_terminator_of_isLoad hl) (canMove_invariant hF hi hl hmove)) fun _ s₁ h₁ => ?_
          exact Wp.modify' (h₁.counted rfl rfl)
        · exact Wp.pure' (Turn.same hF rfl rfl)
      · split
        · split
          · exact Wp.modify' (Turn.same hF rfl rfl)
          · exact Wp.pure' (Turn.same hF rfl rfl)
        · exact Wp.pure' (Turn.same hF rfl rfl)

theorem moveInsts_spec (hA : A.Correct) (hb : L.contains b = true) (ns : List Nat) :
    ∀ {c : Counts} {s : Hoisting}, s.func.SsaForm → s.func.IsLoop L → s.func.IsPreheader L p →
      ns.Nodup → (∀ n ∈ ns, n ∈ s.func.ids b) →
      Wp (moveInsts A L b ns c) (fun _ s' => Keeps s s') s := by
  induction ns with
  | nil => exact fun hF _ _ _ _ => Wp.pure' (Keeps.refl hF)
  | cons n ns ih =>
    intro c s hF hL hp hnd hns
    obtain ⟨i, hi, rfl⟩ := mem_ids.mp (hns n List.mem_cons_self)
    refine Wp.bind' (instAt_spec hF hi) ?_
    intro i s h
    obtain ⟨rfl, rfl⟩ := h
    refine Wp.bind' (moveLoopInvariants_spec hA hF hL hp (mem_ids.mpr ⟨i, hi, rfl⟩) hb) fun _ s' h => ?_
    refine (ih h.keeps.ssa (h.keeps.isLoop hL) (h.keeps.isPreheader hp)
      (List.nodup_cons.mp hnd).2 fun m hm => ?_).mono fun _ s'' h' => h.keeps.trans h'
    refine h.others m (hns m (List.mem_cons_of_mem _ hm)) ?_
    intro e
    obtain rfl := e
    exact (List.nodup_cons.mp hnd).1 hm

theorem moveBlocks_spec (hA : A.Correct) (blocks : List Label) :
    ∀ {c : Counts} {s : Hoisting}, s.func.SsaForm → s.func.IsLoop L → s.func.IsPreheader L p →
      (∀ b ∈ blocks, L.contains b = true) →
      Wp (moveBlocks A L blocks c) (fun _ s' => Keeps s s') s := by
  induction blocks with
  | nil => exact fun hF _ _ _ => Wp.pure' (Keeps.refl hF)
  | cons b bs ih =>
    intro c s hF hL hp hbs
    refine Wp.bind' get_spec ?_
    intro _ s h
    obtain ⟨rfl, rfl⟩ := h
    refine Wp.bind' (moveInsts_spec hA (hbs b List.mem_cons_self) _ hF hL hp (hF.nodup b)
      fun _ h => h) fun c' s' h => ?_
    exact (ih h.ssa (h.isLoop hL) (h.isPreheader hp) fun b' hb' =>
      hbs b' (List.mem_cons_of_mem _ hb')).mono fun _ s'' h' => h.trans h'

theorem loopInvariantCodeMotion_spec (hA : A.Correct) (hF : s.func.SsaForm) (hL : s.func.IsLoop L) :
    Wp (loopInvariantCodeMotion A L) (fun _ s' => Keeps s s') s := by
  refine Wp.bind' (P := fun _ s' => s'.func = s.func ∧ s'.trail = s.trail) (Wp.modify' ⟨rfl, rfl⟩) ?_
  intro _ s₁ h
  obtain ⟨hf, ht⟩ := h
  have h₁ : Keeps s s₁ := Keeps.same hF hf ht
  refine Wp.bind' get_spec ?_
  intro _ _ h
  obtain ⟨rfl, rfl⟩ := h
  split
  · exact Wp.modify' (h₁.trans (Keeps.same h₁.ssa rfl rfl))
  · rename_i p hpre
    have hp := (hA.getLoopPreheader h₁.ssa (h₁.isLoop hL)).mp hpre
    split
    · exact Wp.pure' h₁
    · refine Wp.bind' (moveBlocks_spec hA _ h₁.ssa (h₁.isLoop hL) hp fun b hb => ?_) fun c s₂ h₂ => ?_
      · exact List.contains_iff_mem.mpr hb
      · exact Wp.modify' ((h₁.trans h₂).trans (Keeps.same h₂.ssa rfl rfl))

mutual

/-- A loop nest is worked on from the inside out. -/
theorem workOnNestedLoops_spec (hA : A.Correct) : ∀ {L : Loop} {s : Hoisting}, s.func.SsaForm →
    s.func.IsLoopNest L → Wp (workOnNestedLoops A L) (fun _ s' => Keeps s s') s
  | .mk _ _ _, _, hF, ⟨hL, hsub⟩ => by
    rw [workOnNestedLoops]
    refine Wp.bind' (workOnSubLoops_spec hA hF hsub) fun _ s' h => ?_
    exact (loopInvariantCodeMotion_spec hA h.ssa (h.isLoop hL)).mono fun _ s'' h' => h.trans h'

theorem workOnSubLoops_spec (hA : A.Correct) : ∀ {loops : List Loop} {s : Hoisting}, s.func.SsaForm →
    s.func.AreLoopNests loops → Wp (workOnSubLoops A loops) (fun _ s' => Keeps s s') s
  | [], _, hF, _ => by
    rw [workOnSubLoops]
    exact Wp.pure' (Keeps.refl hF)
  | _ :: _, _, hF, ⟨hL, hrest⟩ => by
    rw [workOnSubLoops]
    refine Wp.bind' (workOnNestedLoops_spec hA hF hL) fun _ s' h => ?_
    exact (workOnSubLoops_spec hA h.ssa (h.areLoopNests hrest)).mono fun _ s'' h' => h.trans h'

end

/-- **Loop-invariant code motion keeps SSA form.** On a module whose functions are in SSA form
the pass succeeds, and the functions it leaves, and every function there is after one of
its moves, are in SSA form. -/
theorem LoopInvariantCodeMotion_ssaForm (hA : A.Correct) (M : Module) :
    ∀ (s : Hoisting), (∀ F ∈ M, F.SsaForm) →
      ∃ M' s', (LoopInvariantCodeMotion A M).run s = some (M', s') ∧
        (∀ F ∈ M', F.SsaForm) ∧ ∀ G ∈ s'.trail, G ∈ s.trail ∨ G.SsaForm := by
  induction M with
  | nil =>
    intro s _
    refine ⟨[], s, rfl, fun F hF => ?_, fun G hG => .inl hG⟩
    cases hF
  | cons F rest ih =>
    intro s hM
    have hF : F.SsaForm := hM F List.mem_cons_self
    suffices Wp (LoopInvariantCodeMotion A (F :: rest)) (fun M' s' => (∀ F ∈ M', F.SsaForm) ∧
        ∀ G ∈ s'.trail, G ∈ s.trail ∨ G.SsaForm) s from this
    refine Wp.bind' (P := fun _ s₁ => s₁.func = F ∧ s₁.trail = s.trail ++ [F])
      (Wp.modify' ⟨rfl, rfl⟩) ?_
    intro _ s₁ h
    obtain ⟨rfl, ht₁⟩ := h
    refine Wp.bind' (P := fun _ (s₂ : Hoisting) => s₂.func.SsaForm ∧
      ∀ G ∈ s₂.trail, G ∈ s.trail ∨ G.SsaForm) ?_ ?_
    · have htrail : ∀ G ∈ s₁.trail, G ∈ s.trail ∨ G.SsaForm := by
        intro G hG
        rw [ht₁] at hG
        rcases List.mem_append.mp hG with hG | hG
        · exact .inl hG
        · exact .inr (List.mem_singleton.mp hG ▸ hF)
      refine onlyIf_spec (fun _ => ?_) fun _ => ⟨hF, htrail⟩
      refine (workOnSubLoops_spec hA hF (hA.loops hF)).mono fun _ s₂ h => ⟨h.ssa, fun G hG => ?_⟩
      rcases h.trail G hG with hG | hG
      · exact htrail G hG
      · exact .inr hG
    · intro _ s₂ h
      obtain ⟨hF₂, ht₂⟩ := h
      refine Wp.bind' get_spec ?_
      intro _ _ h
      obtain ⟨rfl, rfl⟩ := h
      refine Wp.bind' (ih _ fun G hG => hM G (List.mem_cons_of_mem _ hG)) ?_
      intro M' s₃ h
      obtain ⟨hM', ht₃⟩ := h
      refine Wp.pure' ⟨fun G hG => ?_, fun G hG => ?_⟩
      · rcases List.mem_cons.mp hG with rfl | hG
        · exact hF₂
        · exact hM' G hG
      · rcases ht₃ G hG with hG | hG
        · exact ht₂ G hG
        · exact .inr hG

open Classical in
/-- Analyses that know the loops `loops`, and everything else. -/
noncomputable def exactAnalyses (loops : List Loop) : LoopAnalyses where
  loops F := if F.AreLoopNests loops then loops else []
  getLoopPreheader F L := if h : ∃ p, F.IsPreheader L p then some h.choose else none
  dominates F a b := decide (F.Dom a b)
  isHoistable _ _ i := i.op.opcode.isPure

theorem exactAnalyses_correct (loops : List Loop) : (exactAnalyses loops).Correct where
  loops {F} _ := by
    simp only [exactAnalyses]
    split
    · assumption
    · exact trivial
  getLoopPreheader {F L p} _ _ := by
    simp only [exactAnalyses]
    refine ⟨?_, ?_⟩
    · intro h
      split at h
      · rename_i hp
        rw [← Option.some.inj h]
        exact hp.choose_spec
      · cases h
    · intro hp
      have hex : ∃ p, F.IsPreheader L p := ⟨p, hp⟩
      rw [dif_pos hex, hp.entered.unique hex.choose_spec.entered.edge hex.choose_spec.entered.outside]
  dominates _ := by simp [exactAnalyses]
  isHoistable {F L i} h := by
    simp only [exactAnalyses] at h
    unfold Instr.isPhi Instr.isTerminator
    cases hop : i.op.opcode <;> first | exact ⟨rfl, rfl⟩ | (rw [hop] at h; cases h)

theorem LoopInvariantCodeMotion_ssaForm_endless :
    ∃ M' s', (LoopInvariantCodeMotion (exactAnalyses [endlessLoop]) [endless]).run
        (Hoisting.start endless) = some (M', s') ∧
      (∀ F ∈ M', F.SsaForm) ∧ ∀ G ∈ s'.trail, G ∈ (Hoisting.start endless).trail ∨ G.SsaForm :=
  LoopInvariantCodeMotion_ssaForm (exactAnalyses_correct [endlessLoop]) [endless]
    (Hoisting.start endless) fun _ hF => List.mem_singleton.mp hF ▸ endless_ssaForm

end Ece566.Llvm
