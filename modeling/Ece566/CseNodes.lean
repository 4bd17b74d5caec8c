import Ece566.CseRemovals

/- The dominator-tree nodes the pass looks up. LLVM's tree has nodes for the blocks that can
   be reached from the entry, and the pass goes over all blocks. It comes to its end if
   and only if no turn of an instruction loop looks up the node of a block that cannot be
   reached; the turns are those of the run with a node for every block. -/
namespace Ece566.Llvm

open Dominance

variable {simplifyInstruction : Func → Label → Instr → Option Value}
variable {getDomTree : Func → Label → Option (List Label)}
variable {F : Func} {a b : Label} {i : Instr} {n : Nat} {p p' : Pass}

/-- LLVM's dominator tree has the nodes of the blocks that can be reached, and no others. -/
def NodesExactly (getDomTree : Func → Label → Option (List Label)) : Prop :=
  ∀ F b, (getDomTree F b).isSome = true ↔ Reach F.Edge F.entry b

/-- The turn from this head looks a node up: its instruction is not dead, `SimplifyInstruction` has
nothing for it, and `basicCSEPass` works on it. -/
def Head.LooksUp (simplifyInstruction : Func → Label → Instr → Option Value) (h : Head) : Prop :=
  ∃ n i, h.cursor = some n ∧ h.func.inst? h.block n = some i ∧ isDead h.func i = false ∧
    simplifyInstruction h.func h.block i = none ∧ shouldCSEworkOnInstruction i = true

/-- If it looks a node up, then that of a block that can be reached. -/
def Head.Safe (simplifyInstruction : Func → Label → Instr → Option Value) (h : Head) : Prop :=
  h.LooksUp simplifyInstruction → Reach h.func.Edge h.func.entry h.block

/-! A turn. -/

theorem basicCSEPass_ends (hS : KeepsTerminators simplifyInstruction) (hN : NodesExactly getDomTree)
    (hp : p.func.Placed) (hi : i ∈ p.func.insts b)
    (hrun : (basicCSEPass (withNodes getDomTree) b i.id).run p = some (⟨⟩, p')) :
    EndsIff (basicCSEPass getDomTree b i.id) p (⟨⟩, p')
      (shouldCSEworkOnInstruction i = true → Reach p.func.Edge p.func.entry b) := by
  rw [basicCSEPass, run_deref_bind hp hi] at hrun
  have hstart : (basicCSEPass getDomTree b i.id).run p = _ := run_deref_bind hp hi
  unfold EndsIff
  rw [hstart]
  cases hw : shouldCSEworkOnInstruction i with
  | false =>
    rw [hw] at hrun
    exact .inl ⟨fun h => absurd h Bool.false_ne_true, hrun⟩
  | true =>
    have hready : Ready p b i b (p.func.idsFrom b i.id) :=
      ⟨hp, hi, fun _ hn => idsFrom_sublist.subset hn, idsFrom_sublist.nodup (hp.nodup b)⟩
    obtain ⟨_, p₁, hscan, removed, he, -⟩ :=
      removeCommonInstructionsIn_spares simplifyInstruction _ hready hw
    obtain ⟨hedge, hentry⟩ := he.edge hS hp
    have hnode := hN p₁.func b
    rw [hedge, hentry] at hnode
    rw [hw, if_pos rfl, Wp.run_get_bind, Wp.run_bind_some hscan] at hrun
    rw [if_pos rfl, Wp.run_get_bind, Wp.run_bind_some hscan, ← hnode]
    unfold removeCommonInstInDominatedBlocks at hrun ⊢
    rw [Wp.run_get_bind] at hrun ⊢
    cases hd : getDomTree p₁.func b with
    | none => exact .inr ⟨by simp, rfl⟩
    | some children =>
      rw [withNodes, hd] at hrun
      exact .inl ⟨by simp, hrun⟩

theorem cseInst_ends (hS : KeepsTerminators simplifyInstruction) (hN : NodesExactly getDomTree)
    (hp : p.func.Placed) (hn : n ∈ p.func.ids b) {r : Option Nat × Pass}
    (hrun : (cseInst (withNodes getDomTree) simplifyInstruction b n).run p = some r) :
    EndsIff (cseInst getDomTree simplifyInstruction b n) p r
      (Head.Safe simplifyInstruction ⟨b, some n, p.func⟩) := by
  obtain ⟨i, hi, rfl⟩ := mem_ids.mp hn
  have hinst := hp.inst?_eq hi
  have hlooks : Head.LooksUp simplifyInstruction ⟨b, some i.id, p.func⟩ ↔ isDead p.func i = false ∧
      simplifyInstruction p.func b i = none ∧ shouldCSEworkOnInstruction i = true := by
    refine ⟨?_, fun h => ⟨i.id, i, rfl, hinst, h⟩⟩
    intro ⟨n, j, hn, hj, h⟩
    obtain rfl := Option.some.inj hn
    obtain rfl := Option.some.inj (hj.symm.trans hinst)
    exact h
  rw [Head.Safe, hlooks]
  rw [cseInst, run_deref_bind hp hi, Wp.run_get_bind] at hrun
  have hstart : (cseInst getDomTree simplifyInstruction b i.id).run p = _ :=
    (run_deref_bind hp hi).trans Wp.run_get_bind
  unfold EndsIff
  rw [hstart]
  cases hdead : isDead p.func i with
  | true =>
    rw [hdead] at hrun
    exact .inl ⟨fun h => absurd h.1.symm Bool.false_ne_true, hrun⟩
  | false =>
    rw [hdead, if_neg Bool.false_ne_true] at hrun
    rw [if_neg Bool.false_ne_true]
    cases hsimp : simplifyInstruction p.func b i with
    | some v =>
      rw [hsimp] at hrun
      exact .inl ⟨(fun h => nomatch h.2.1), hrun⟩
    | none =>
      -- merging alone asks for a node; what comes after it is the same run
      rw [hsimp] at hrun
      obtain ⟨u, p₁, hbasic, hrest⟩ := Wp.run_bind.mp hrun
      refine ((basicCSEPass_ends hS hN hp hi hbasic).bind' (.of_run hrest trivial)).congr ?_
      simp

/-! The loops. -/

theorem cseBlockHeads_ends_end {fuel : Nat} {heads : List Head}
    (hrun : (cseBlockHeads (withNodes getDomTree) simplifyInstruction b fuel none).run p =
      some (heads, p')) :
    EndsIff (cseBlockHeads getDomTree simplifyInstruction b fuel none) p (heads, p')
      (∀ h ∈ heads, h.Safe simplifyInstruction) := by
  have hplain : (cseBlockHeads getDomTree simplifyInstruction b fuel none).run p =
      (cseBlockHeads (withNodes getDomTree) simplifyInstruction b fuel none).run p := by
    cases fuel <;> rfl
  have hlast : some ([⟨b, none, p.func⟩], p) = some (heads, p') := by
    rw [← hrun]
    cases fuel <;> rfl
  obtain ⟨rfl, rfl⟩ := Prod.mk.inj (Option.some.inj hlast)
  refine .of_run (hplain.trans hrun) ?_
  intro h hh ⟨n, i, hn, _⟩
  rw [List.mem_singleton.mp hh] at hn
  cases hn

theorem cseBlockHeads_ends (hS : KeepsTerminators simplifyInstruction) (hN : NodesExactly getDomTree)
    (fuel : Nat) : ∀ {p p' : Pass} {pre rest : List Nat} {heads : List Head}, p.func.Placed →
      p.func.ids b = pre ++ rest →
      (cseBlockHeads (withNodes getDomTree) simplifyInstruction b fuel rest.head?).run p =
        some (heads, p') →
      EndsIff (cseBlockHeads getDomTree simplifyInstruction b fuel rest.head?) p (heads, p')
        (∀ h ∈ heads, h.Safe simplifyInstruction) := by
  induction fuel with
  | zero =>
    intro p p' pre rest heads hp hids hrun
    cases rest with
    | nil => exact cseBlockHeads_ends_end hrun
    | cons n rest => cases hrun
  | succ fuel ih =>
    intro p p' pre rest heads hp hids hrun
    cases rest with
    | nil => exact cseBlockHeads_ends_end hrun
    | cons n rest =>
      have hn : n ∈ p.func.ids b := by rw [hids]; simp
      have hD : HasNode (withNodes getDomTree) p.func b := fun _ _ _ => rfl
      obtain ⟨it, p₁, hinst, removed, he, hit⟩ := cseInst_after hS hp hD hn
      obtain ⟨hids₁, hafter⟩ := rest_filter hp hids he
      rw [NextLeft, hafter] at hit
      subst hit
      rw [List.head?_cons, cseBlockHeads, Wp.run_get_bind, Wp.run_bind_some hinst] at hrun
      obtain ⟨heads', p₂, hrest, hpure⟩ := Wp.run_bind.mp hrun
      obtain ⟨rfl, rfl⟩ := Prod.mk.inj (Option.some.inj hpure)
      refine (EndsIff.get_bind ((cseInst_ends hS hN hp hn hinst).bind'
        ((ih (he.placed hp) hids₁ hrest).bind' (.of_run rfl trivial)))).congr ?_
      rw [List.forall_mem_cons, and_true]

theorem cseBlocksHeads_ends (hS : KeepsTerminators simplifyInstruction) (hN : NodesExactly getDomTree)
    (blocks : List Label) : ∀ {p p' : Pass} {heads : List Head}, p.func.Placed →
      (cseBlocksHeads (withNodes getDomTree) simplifyInstruction blocks).run p = some (heads, p') →
      EndsIff (cseBlocksHeads getDomTree simplifyInstruction blocks) p (heads, p')
        (∀ h ∈ heads, h.Safe simplifyInstruction) := by
  induction blocks with
  | nil =>
    intro p p' heads _ hrun
    obtain ⟨rfl, rfl⟩ := Prod.mk.inj (Option.some.inj hrun)
    exact .of_run rfl (by simp)
  | cons b blocks ih =>
    intro p p' heads hp hrun
    have hD : HasNode (withNodes getDomTree) p.func b := fun _ _ _ => rfl
    obtain ⟨heads₁, p₁, hblock, ⟨removed, he⟩, -⟩ :=
      cseBlockHeads_spec hS _ hp hD (List.nil_append _).symm (Nat.le_refl _)
    rw [cseBlocksHeads, Wp.run_get_bind, Wp.run_bind_some hblock] at hrun
    obtain ⟨heads₂, p₂, hrest, hpure⟩ := Wp.run_bind.mp hrun
    obtain ⟨rfl, rfl⟩ := Prod.mk.inj (Option.some.inj hpure)
    refine (EndsIff.get_bind ((cseBlockHeads_ends hS hN _ hp (List.nil_append _).symm hblock).bind'
      ((ih (he.placed hp) hrest).bind' (.of_run rfl trivial)))).congr ?_
    rw [List.forall_mem_append, and_true]

theorem CommonSubexpressionEliminationHeads_ends (hS : KeepsTerminators simplifyInstruction)
    (hN : NodesExactly getDomTree) (M : Module) :
    ∀ {p p' : Pass} {ts : List (Func × List Head)}, (∀ F ∈ M, F.Placed) →
      (CommonSubexpressionEliminationHeads (withNodes getDomTree) simplifyInstruction M).run p =
        some (ts, p') →
      EndsIff (CommonSubexpressionEliminationHeads getDomTree simplifyInstruction M) p (ts, p')
        (∀ t ∈ ts, ∀ h ∈ t.2, h.Safe simplifyInstruction) := by
  induction M with
  | nil =>
    intro p p' ts _ hrun
    obtain ⟨rfl, rfl⟩ := Prod.mk.inj (Option.some.inj hrun)
    exact .of_run rfl (by simp)
  | cons F M ih =>
    intro p p' ts hM hrun
    obtain ⟨hF, hrest⟩ := List.forall_mem_cons.mp hM
    have hturn : (modify fun p : Pass => { p with func := F, trail := p.trail ++ [F] } : Cse Unit).run p =
        some (⟨⟩, p.become F) := rfl
    rw [CommonSubexpressionEliminationHeads, Wp.run_bind_some hturn] at hrun
    obtain ⟨heads, p₁, hblocks, hrun⟩ := Wp.run_bind.mp hrun
    rw [Wp.run_get_bind] at hrun
    obtain ⟨ts', p₂, hfuncs, hpure⟩ := Wp.run_bind.mp hrun
    obtain ⟨rfl, rfl⟩ := Prod.mk.inj (Option.some.inj hpure)
    have hplaced : (p.become F).func.Placed := hF
    refine ((EndsIff.of_run hturn trivial).bind' ((cseBlocksHeads_ends hS hN _ hplaced hblocks).bind'
      (EndsIff.get_bind ((ih hrest hfuncs).bind' (.of_run rfl trivial))))).congr ?_
    rw [List.forall_mem_cons, and_true, true_and]

/-- **When the nodes exist**: for a module whose blocks may be out of reach, the pass comes to the
same end as with a node for every block if and only if every turn of that run that looks a
node up is in a block that can be reached, and otherwise it fails. -/
theorem CommonSubexpressionElimination_ends (hS : KeepsTerminators simplifyInstruction)
    (hN : NodesExactly getDomTree) (M : Module) (p : Pass) (hM : ∀ F ∈ M, F.Placed) :
    ∃ ts p', (CommonSubexpressionEliminationHeads (withNodes getDomTree) simplifyInstruction M).run p =
        some (ts, p') ∧
      EndsIff (CommonSubexpressionElimination getDomTree simplifyInstruction M) p
        (ts.map Prod.fst, p') (∀ t ∈ ts, ∀ h ∈ t.2, h.Safe simplifyInstruction) := by
  have hwp : Wp (CommonSubexpressionElimination (withNodes getDomTree) simplifyInstruction M)
      (fun M' p' => ∃ ts, Accounted simplifyInstruction M p ts M' p') p :=
    CommonSubexpressionElimination_accounted hS M fun F hF => ⟨hM F hF, fun _ _ _ _ _ => rfl⟩
  obtain ⟨M', p', hrun, -⟩ := hwp
  rw [← CommonSubexpressionEliminationHeads_forget, map_eq_pure_bind] at hrun
  obtain ⟨ts, p₁, hheads, hpure⟩ := Wp.run_bind.mp hrun
  obtain ⟨rfl, rfl⟩ := Prod.mk.inj (Option.some.inj hpure)
  refine ⟨ts, p₁, hheads, ?_⟩
  rw [← CommonSubexpressionEliminationHeads_forget, map_eq_pure_bind]
  refine ((CommonSubexpressionEliminationHeads_ends hS hN M hM hheads).bind'
    (.of_run rfl trivial)).congr ?_
  rw [and_true]

/-! What the verifier accepts. -/

/-- LLVM's verifier: SSA form, except that blocks may be out of reach and that what is used there
need not be available. -/
structure Func.Verified (F : Func) : Prop where
  placed : F.Placed
  entry : F.entry ∈ F.blocks ∧ ∀ a, ¬ F.Edge a F.entry
  terminated : ∀ b ∈ F.blocks, ∃ body t, F.insts b = body ++ [t] ∧
    t.isTerminator = true ∧ ∀ i ∈ body, i.isTerminator = false
  targets : ∀ {a b}, F.Edge a b → b ∈ F.blocks
  incoming : ∀ {b i}, i ∈ F.insts b → i.isPhi = true →
    i.blocks ≠ [] ∧ i.operands.length = i.blocks.length ∧ ∀ p, p ∈ i.blocks ↔ F.Edge p b
  typed : ∀ {b i}, i ∈ F.insts b → i.operands.map Value.ty = i.op.expects
  shape : ∀ {b i}, i ∈ F.insts b → (i.op.opcode = .load → i.operands.length = 1) ∧
    (i.op.opcode = .store → i.operands.length = 2)
  refs : ∀ {b i id ty}, i ∈ F.insts b → .inst id ty ∈ i.operands →
    ∃ a, ∃ d ∈ F.insts a, d.id = id ∧ d.op.ty = ty ∧ d.op.opcode.hasValue = true
  uses : ∀ {a b i id ty}, Reach F.Edge F.entry b → i ∈ F.insts b → i.isPhi = false →
    .inst id ty ∈ i.operands → id ∈ F.ids a → F.Before a id b i.id
  phiUses : ∀ {a b i id ty p}, Reach F.Edge F.entry p → i ∈ F.insts b → i.isPhi = true →
    (.inst id ty, p) ∈ i.operands.zip i.blocks → id ∈ F.ids a → F.Dom a p

/-- With all blocks in reach, that is SSA form. -/
theorem Func.Verified.ssaForm (h : F.Verified) (hreach : ∀ b ∈ F.blocks, Reach F.Edge F.entry b) :
    F.SsaForm where
  nodup := h.placed.nodup
  unique := h.placed.unique
  listed := h.placed.listed
  reachable hb := hreach _ (h.placed.listed hb)
  entry := h.entry.2
  terminated hb := h.terminated _ (h.placed.listed hb)
  incoming := h.incoming
  typed := h.typed
  shape := h.shape
  refs := h.refs
  uses hi := h.uses (hreach _ (h.placed.listed (List.ne_nil_of_mem hi))) hi
  phiUses {a b i id ty p} hi hphi hz := by
    have hp : F.Edge p b := ((h.incoming hi hphi).2.2 p).mp (List.of_mem_zip hz).2
    obtain ⟨t, ht, -⟩ := hp
    exact h.phiUses (hreach _ (h.placed.listed (List.ne_nil_of_mem ht))) hi hphi hz

theorem Func.SsaForm.verified (h : F.SsaForm) (hnd : F.blocks.Nodup) (hentry : F.entry ∈ F.blocks)
    (hne : ∀ b ∈ F.blocks, F.insts b ≠ []) (htargets : ∀ {a b}, F.Edge a b → b ∈ F.blocks) :
    F.Verified where
  placed := h.placed hnd
  entry := ⟨hentry, h.entry⟩
  terminated b hb := h.terminated (hne b hb)
  targets := htargets
  incoming := h.incoming
  typed := h.typed
  shape := h.shape
  refs := h.refs
  uses _ := h.uses
  phiUses _ := h.phiUses

/-- `ret`; and out of reach `%2 = add %a, %b`, `ret %2`. -/
def orphanAdd : Func :=
  ⟨0, [0, 1], fun b =>
    if b = 0 then [⟨1, ⟨.ret, 0, [], false, 0⟩, [], []⟩]
    else if b = 1 then [⟨2, ⟨.add, 32, [32, 32], false, 0⟩, [.arg 0 32, .arg 1 32], []⟩,
      ⟨3, ⟨.ret, 0, [32], false, 0⟩, [.inst 2 32], []⟩]
    else []⟩

/-- What holds of the instructions of both blocks. -/
theorem orphanAdd_all {P : Label → Instr → Prop} (h₀ : ∀ i ∈ orphanAdd.insts 0, P 0 i)
    (h₁ : ∀ i ∈ orphanAdd.insts 1, P 1 i) (hi : i ∈ orphanAdd.insts b) : P b i := by
  by_cases e₀ : b = 0
  · subst e₀
    exact h₀ i hi
  · by_cases e₁ : b = 1
    · subst e₁
      exact h₁ i hi
    · rw [orphanAdd] at hi
      simp only [e₀, e₁, if_false] at hi
      cases hi

theorem orphanAdd_edge (a b : Label) : ¬ orphanAdd.Edge a b := by
  intro ⟨t, ht, _, hb⟩
  have hblocks : t.blocks = [] :=
    orphanAdd_all (P := fun _ i => i.blocks = []) (by decide) (by decide) ht
  rw [hblocks] at hb
  cases hb

theorem orphanAdd_reach : Reach orphanAdd.Edge orphanAdd.entry b ↔ b = 0 := by
  refine ⟨fun h => ?_, fun h => h ▸ Relation.ReflTransGen.refl⟩
  cases h with
  | refl => rfl
  | tail _ h => exact absurd h (orphanAdd_edge _ _)

theorem orphanAdd_mem_ids (h : n ∈ orphanAdd.ids b) : (b, n) ∈ [(0, 1), (1, 2), (1, 3)] := by
  obtain ⟨i, hi, rfl⟩ := mem_ids.mp h
  exact orphanAdd_all (P := fun b i => (b, i.id) ∈ [(0, 1), (1, 2), (1, 3)]) (by decide) (by decide) hi

theorem orphanAdd_placed : orphanAdd.Placed where
  blocks := by decide
  listed {b} hb := by
    obtain ⟨i, hi⟩ := List.exists_mem_of_ne_nil _ hb
    exact orphanAdd_all (P := fun b _ => b ∈ orphanAdd.blocks) (by decide) (by decide) hi
  nodup b := by
    by_cases e₀ : b = 0
    · subst e₀; decide
    · by_cases e₁ : b = 1
      · subst e₁; decide
      · rw [Func.ids, orphanAdd]
        simp only [e₀, e₁, if_false]
        exact List.nodup_nil
  unique ha hb := by
    have h := orphanAdd_mem_ids ha
    have h' := orphanAdd_mem_ids hb
    simp only [List.mem_cons, List.not_mem_nil, Prod.mk.injEq, or_false] at h h'
    grind
  value {b i} := orphanAdd_all (P := fun _ i => isStore i = true → i.operands ≠ []) (by decide) (by decide)

theorem orphanAdd_verified : orphanAdd.Verified where
  placed := orphanAdd_placed
  entry := ⟨by decide, fun a => orphanAdd_edge a _⟩
  terminated b hb := by
    rcases List.mem_cons.mp hb with rfl | hb
    · exact ⟨[], _, rfl, rfl, by simp⟩
    · obtain rfl := List.mem_singleton.mp hb
      exact ⟨[_], _, rfl, rfl, by simp [Instr.isTerminator, Opcode.isTerminator]⟩
  targets h := absurd h (orphanAdd_edge _ _)
  incoming hi hphi := by
    have hnot := orphanAdd_all (P := fun _ i => i.isPhi = false) (by decide) (by decide) hi
    rw [hphi] at hnot
    cases hnot
  typed := orphanAdd_all (P := fun _ i => i.operands.map Value.ty = i.op.expects) (by decide) (by decide)
  shape := orphanAdd_all (P := fun _ i => (i.op.opcode = .load → i.operands.length = 1) ∧
    (i.op.opcode = .store → i.operands.length = 2)) (by decide) (by decide)
  refs {b i id ty} hi ho := by
    have h := orphanAdd_all (P := fun _ i => ∀ o ∈ i.operands,
      o = .arg 0 32 ∨ o = .arg 1 32 ∨ o = .inst 2 32) (by decide) (by decide) hi _ ho
    rcases h with e | e | e
    · cases e
    · cases e
    · obtain ⟨rfl, rfl⟩ := Value.inst.inj e
      exact ⟨1, _, List.mem_cons_self, rfl, rfl, rfl⟩
  uses {a b i id ty} hb hi _ ho := by
    obtain rfl := orphanAdd_reach.mp hb
    have hnone : ∀ i ∈ orphanAdd.insts 0, i.operands = [] := by decide
    rw [hnone i hi] at ho
    cases ho
  phiUses _ hi hphi := by
    have hnot := orphanAdd_all (P := fun _ i => i.isPhi = false) (by decide) (by decide) hi
    rw [hphi] at hnot
    cases hnot

/-- The addition is alive, and its block has no node: the pass fails. -/
theorem orphanAdd_no_node : orphanAdd.Verified ∧
    (∀ b, (if b = 0 then some ([] : List Label) else none).isSome = true ↔
      Reach orphanAdd.Edge orphanAdd.entry b) ∧
    (CommonSubexpressionElimination (fun _ b => if b = 0 then some [] else none) (fun _ _ _ => none)
      [orphanAdd]).run (Pass.start orphanAdd) = none := by
  refine ⟨orphanAdd_verified, fun b => ?_, by decide⟩
  rw [orphanAdd_reach]
  split <;> simp [*]

open Classical in
/-- The dominator tree by its definition, with the nodes LLVM has. -/
noncomputable def reachTree (F : Func) (b : Label) : Option (List Label) :=
  if Reach F.Edge F.entry b then idomTree F b else none

theorem reachTree_exactly : NodesExactly reachTree := by
  intro F b
  rw [reachTree]
  split
  · exact ⟨fun _ => ‹_›, fun _ => rfl⟩
  · exact ⟨(fun h => nomatch h), fun h => absurd h ‹_›⟩

theorem CommonSubexpressionElimination_ends_orphanAdd : ∃ ts p',
    (CommonSubexpressionEliminationHeads (withNodes reachTree) (fun _ _ _ => none)
      [orphanAdd]).run (Pass.start orphanAdd) = some (ts, p') ∧
    EndsIff (CommonSubexpressionElimination reachTree (fun _ _ _ => none) [orphanAdd])
      (Pass.start orphanAdd) (ts.map Prod.fst, p')
      (∀ t ∈ ts, ∀ h ∈ t.2, h.Safe fun _ _ _ => none) :=
  CommonSubexpressionElimination_ends (fun _ _ _ _ => rfl) reachTree_exactly [orphanAdd]
    (Pass.start orphanAdd) (by simpa using orphanAdd_placed)

end Ece566.Llvm
