import Ece566.BlockExec
import Ece566.CseSsa

/- Redundant-load elimination. The scan erases the later loads that look like `L`, up to
   the first store, and puts `L` in their place. That is right as long as nothing
   between `L` and such a load writes the memory; the scan looks for stores, and a call
   can write it too. -/
namespace Ece566.Llvm

open Dominance

variable {V M : Type} {F : Func} {b : Label} {L i j k : Instr}
variable {pre mid post rest : List Instr} {D : Nat → Bool}

/-- A load leaves the memory as it is, and what it reads depends on its type, its address and
the memory only. -/
structure Sem.Loads (S : Sem V M) : Prop where
  keeps : ∀ {op args m}, op.opcode = .load → (S.effect op args m).2 = m
  reads : ∀ {op op' args m}, op.opcode = .load → op'.opcode = .load → op.ty = op'.ty →
    (S.effect op args m).1 = (S.effect op' args m).1

/-- The stores and calls, with their arguments. -/
def storeOrCall (e : Event V M) : Option (Op × List V) :=
  if e.op.opcode == .store || e.op.opcode == .call then some (e.op, e.args) else none

/-- In a block of pure instructions, loads, stores and calls: the stores and the calls. -/
def Instr.mayWrite (i : Instr) : Bool := !(i.isPhi || i.op.opcode.isPure || isLoad i)

/-- The load `j` is one the scan from `L` erases. -/
structure Reloaded (F : Func) (b : Label) (L j : Instr) : Prop where
  reloading : Reloading F b L j
  reached : ∀ {k}, k ∈ F.insts b → isStore k = true → [L.id, k.id].Sublist (F.ids b) →
    ¬ [k.id, j.id].Sublist (F.ids b)

/-- An instruction of block `b` reads `z` when it runs. -/
def Func.ReadIn (F : Func) (b : Label) (z : Nat) : Prop :=
  ∃ i ∈ F.insts b, i.isPhi = false ∧ ∃ ty, .inst z ty ∈ i.operands

/-! What the scan erases. -/

/-- The test of the scan. -/
def reloads (L j : Instr) : Bool :=
  sameOpcode L j && notVolatile j && sameType L j && sameOperands L j

/-- Replacing loads after `L` by `L` makes no other instruction look like `L`. -/
theorem reloads_collapse (hF : F.SsaForm) (hb : F.insts b = pre ++ L :: post) (hl : isLoad L = true)
    (hD : ∀ z, D z = true → z ∈ post.map Instr.id) (j : Instr) :
    reloads L (j.collapse D L.value) = reloads L j := by
  have hops : sameOperands L (j.collapse D L.value) = sameOperands L j := by
    rw [Bool.eq_iff_iff, sameOperands, sameOperands, beq_iff_eq, beq_iff_eq]
    exact operands_collapse hF hb (isPhi_of_isLoad hl) hD j
  rw [reloads, reloads, hops]
  rfl

/-- When the scan stops, it has visited the loads it erases. -/
theorem reloaded_iff (hF : F.SsaForm) (hl : isLoad L = true)
    (hb : F.insts b = pre ++ L :: (mid ++ rest)) (hmid : ∀ k ∈ mid, isStore k = false)
    (hrest : ∀ k ∈ rest.head?, isStore k = true) :
    Reloaded F b L j ↔ j ∈ mid ∧ reloads L j = true := by
  have hL : L ∈ F.insts b := by rw [hb]; simp
  refine ⟨?_, ?_⟩
  · intro ⟨h, hreached⟩
    have hr : reloads L j = true := by
      simp only [reloads, Bool.and_eq_true]
      exact ⟨⟨⟨h.opcode, h.quiet⟩, h.type⟩, h.operands⟩
    refine ⟨?_, hr⟩
    have hpost := (split_after hF hb h.right).mp h.below
    refine (List.mem_append.mp hpost).resolve_right fun hm => ?_
    cases rest with
    | nil => cases hm
    | cons k rest =>
      have hk : isStore k = true := hrest k rfl
      have hkb : k ∈ F.insts b := by rw [hb]; simp
      have hb' : F.insts b = (pre ++ L :: mid) ++ k :: rest := by simp [hb]
      rcases List.mem_cons.mp hm with rfl | hm
      · have := opcode_of_isLoad h.right_load
        rw [opcode_of_isStore hk] at this
        cases this
      · exact hreached hkb hk ((split_after hF hb hkb).mpr (by simp))
          ((split_after hF hb' h.right).mpr hm)
  · intro ⟨hm, hr⟩
    have hj : j ∈ F.insts b := by rw [hb]; simp [hm]
    simp only [reloads, Bool.and_eq_true] at hr
    refine ⟨⟨hL, hj, hl, hr.1.1.1, hr.1.1.2, hr.1.2, hr.2, ?_⟩, ?_⟩
    · exact (split_after hF hb hj).mpr (List.mem_append_left _ hm)
    · intro k hk hstore h₁ h₂
      obtain ⟨m₁, m₂, rfl⟩ := List.append_of_mem hm
      have hb' : F.insts b = pre ++ L :: (m₁ ++ j :: (m₂ ++ rest)) := by simp [hb]
      rw [hmid k (List.mem_append_left _ (mem_between hF hb' hk h₁ h₂))] at hstore
      cases hstore

/-- The instructions in place of which the scan has put `L`, when it stops. -/
theorem erased_iff (hF : F.SsaForm) (hl : isLoad L = true)
    (hb : F.insts b = pre ++ L :: (mid ++ rest)) (hmid : ∀ k ∈ mid, isStore k = false)
    (hrest : ∀ k ∈ rest.head?, isStore k = true)
    (hD : ∀ z, D z = true ↔ ∃ j ∈ mid, reloads L j = true ∧ j.id = z) (z : Nat) :
    D z = true ↔ ∃ j, Reloaded F b L j ∧ j.id = z := by
  rw [hD]
  refine ⟨?_, ?_⟩
  · intro ⟨j, hm, hr, e⟩
    exact ⟨j, (reloaded_iff hF hl hb hmid hrest).mpr ⟨hm, hr⟩, e⟩
  · intro ⟨j, hr, e⟩
    obtain ⟨hm, hr⟩ := (reloaded_iff hF hl hb hmid hrest).mp hr
    exact ⟨j, hm, hr, e⟩

/-- One more instruction visited. -/
theorem visited_snoc (mid : List Instr) (j : Instr) (z : Nat) :
    (∃ k ∈ mid ++ [j], reloads L k = true ∧ k.id = z) ↔
      (∃ k ∈ mid, reloads L k = true ∧ k.id = z) ∨ reloads L j = true ∧ j.id = z := by
  simp only [List.mem_append, List.mem_singleton, or_and_right, exists_or, exists_eq_left]

theorem isStore_of_reloads (hl : isLoad L = true) (hr : reloads L j = true) : isStore j = false := by
  simp only [reloads, sameOpcode, Bool.and_eq_true, beq_iff_eq] at hr
  rw [isStore, ← hr.1.1.1, Instr.getOpcode, opcode_of_isLoad hl]
  rfl

/-- **What the scan does**: it puts `L` in place of the loads it erases. -/
theorem eliminateRedundantLoads_collapse (hF : F.SsaForm) (hl : isLoad L = true) (rest : List Instr) :
    ∀ {mid : List Instr} {D : Nat → Bool} {p : Pass}, F.insts b = pre ++ L :: (mid ++ rest) →
      (∀ k ∈ mid, isStore k = false) → p.func = F.collapse D L.value →
      (∀ z, D z = true ↔ ∃ j ∈ mid, reloads L j = true ∧ j.id = z) →
      Wp (eliminateRedundantLoads b L.id (rest.map Instr.id)) (fun _ p' =>
        ∃ D, p'.func = F.collapse D L.value ∧ ∀ z, D z = true ↔ ∃ j, Reloaded F b L j ∧ j.id = z) p := by
  induction rest with
  | nil =>
    intro mid D p hb hmid hp hD
    have hhead : ∀ k ∈ ([] : List Instr).head?, isStore k = true := by simp
    exact Wp.pure' ⟨D, hp, erased_iff hF hl hb hmid hhead hD⟩
  | cons j rest ih =>
    intro mid D p hb hmid hp hD
    have hDpost : ∀ z, D z = true → z ∈ (mid ++ j :: rest).map Instr.id := by
      intro z hz
      obtain ⟨j', hj', -, rfl⟩ := (hD z).mp hz
      exact List.mem_map_of_mem (List.mem_append_left _ hj')
    have hnotD : ∀ {i}, i ∈ F.insts b → i ∉ mid → D i.id = false := by
      intro i hi hm
      rw [← Bool.not_eq_true, hD]
      intro ⟨j', hj', _, e⟩
      exact hm (hF.inst_eq (by rw [hb]; simp [hj']) hi e ▸ hj')
    have hL : L ∈ F.insts b := by rw [hb]; simp
    have hj : j ∈ F.insts b := by rw [hb]; simp
    have hLmid : L ∉ mid := by
      intro hm
      exact not_mem_post hF hb (List.mem_map_of_mem (List.mem_append_left _ hm))
    have hb' : F.insts b = (pre ++ L :: mid) ++ j :: rest := by simp [hb]
    have hjmid : j ∉ mid := by
      intro hm
      exact not_mem_pre hF hb' (List.mem_map_of_mem (by simp [hm]))
    have hLself := collapse_left hF hb (isPhi_of_isLoad hl) hDpost
    have hfresh := reloads_collapse hF hb hl hDpost j
    -- the scan goes on, with `j` among the instructions visited
    have hmid' : isStore j = false → ∀ k ∈ mid ++ [j], isStore k = false := by
      intro hs k hk
      rcases List.mem_append.mp hk with hk | hk
      · exact hmid k hk
      · rwa [List.mem_singleton.mp hk]
    have hb'' : F.insts b = pre ++ L :: ((mid ++ [j]) ++ rest) := by simp [hb]
    -- the first instruction the scan looks at is `L` as it was, the second one is `j`
    refine Wp.bind' (deref_collapse hF hp hL (hnotD hL hLmid)) ?_
    intro _ _ h
    obtain ⟨rfl, rfl⟩ := h
    refine Wp.bind' (deref_collapse hF hp hj (hnotD hj hjmid)) ?_
    intro _ _ h
    obtain ⟨rfl, rfl⟩ := h
    rw [hLself]
    change Wp (if reloads L (j.collapse D L.value) = true then _ else _) _ _
    rw [hfresh]
    have hnext : isStore (j.collapse D L.value) = isStore j := rfl
    rw [hnext]
    cases hr : reloads L j with
    | true =>
      have hs := isStore_of_reloads hl hr
      rw [if_pos rfl]
      refine substitute_spec ?_
      rw [hs, if_neg Bool.false_ne_true]
      refine ih hb'' (hmid' hs) (by rw [Pass.become, hp, collapse_substitute]) fun z => ?_
      rw [visited_snoc, Bool.or_eq_true, beq_iff_eq, hD]
      exact or_congr_right ⟨fun e => ⟨hr, e.symm⟩, fun h => h.2.symm⟩
    | false =>
      rw [if_neg Bool.false_ne_true]
      cases hs : isStore j with
      | true =>
        rw [if_pos rfl]
        have hhead : ∀ k ∈ (j :: rest).head?, isStore k = true := by simp [hs]
        exact Wp.pure' ⟨D, hp, erased_iff hF hl hb hmid hhead hD⟩
      | false =>
        rw [if_neg Bool.false_ne_true]
        refine ih hb'' (hmid' hs) hp fun z => ?_
        rw [visited_snoc, hD, hr]
        exact ⟨.inl, fun h => h.resolve_right fun h => Bool.false_ne_true h.1⟩

end Ece566.Llvm
