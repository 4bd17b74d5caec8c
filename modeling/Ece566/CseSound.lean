import Ece566.Collapse
import Ece566.Simulation

/- Merging identical instructions is sound. Two identical pure instructions of which one
   dominates the other hold the same value wherever the second dominates, because both
   still satisfy their equations there; two identical phis of one block take the same
   value on every entry, and identical phis do not occur in a block and a dominator-tree
   child of it. So each merge removes an instruction whose value another one holds, and
   all of them together put that one in the place of those the scans find identical. -/
namespace Ece566.Llvm

open Dominance Relation

variable {V M : Type} {S : Sem V M} {F G : Func} {m : M} {c d : Config V M}
variable {a b bb : Label} {i j : Instr} {p p' : Pass}

/-- Whatever dominates an instruction the run is past, the run is past. -/
theorem Valid.past_trans (hF : F.SsaForm) (hv : Valid S F c) {x u : Nat} (hx : x ∈ F.ids a)
    (hu : u ∈ F.ids b) (hb : F.Before a x b u) (hp : c.Past F b u) : c.Past F a x := by
  rcases hp with ⟨rfl, hnr⟩ | ⟨hne, hdom⟩
  · rcases hb with ⟨rfl, hs⟩ | hb
    · exact .inl ⟨rfl, fun hxr => hv.not_earlier hF hu hnr hxr hs⟩
    · exact .inr hb
  · refine .inr ⟨?_, (Dominance.Before.dom hb).trans hdom⟩
    intro e
    obtain rfl := e
    rcases hb with ⟨e, -⟩ | ⟨hne', hb⟩
    · exact hne e.symm
    · obtain ⟨u', hu', -⟩ := mem_ids.mp hu
      exact hne' (hb.antisymm hdom (hF.reachable (List.ne_nil_of_mem hu')))

/-- A phi's register changes only where its block is entered. -/
theorem execInst_phi (hF : F.SsaForm) (hv : Valid S F c) {k : Instr} {rest : List Instr}
    (hr : c.rest = k :: rest) (hi : i ∈ F.insts b) (hphi : i.isPhi = true) :
    (execInst S k c.st).regs i.id = c.st.regs i.id := by
  by_cases he : i.id = k.id
  · have hk := hv.mem_insts hr
    obtain rfl := hF.unique (mem_ids.mpr ⟨i, hi, he⟩) (mem_ids.mpr ⟨k, hk, rfl⟩)
    rw [← hF.inst_eq hi hk he, execInst, if_pos hphi]
  · exact execInst_regs k c.st he

/-- Identical phis of one block hold the same value. -/
theorem phi_equal (hF : F.SsaForm) (hi : i ∈ F.insts b) (hj : j ∈ F.insts b)
    (hphi : i.isPhi = true) (hphi' : j.isPhi = true) (hops : i.operands = j.operands)
    (hblocks : i.blocks = j.blocks) (hc : Reachable S F m c) :
    c.st.regs i.id = c.st.regs j.id := by
  induction hc with
  | refl => rfl
  | tail hc h ih =>
    have hv := Reachable.valid hF hc
    rcases step_cases h with ⟨k, rest, hr, rfl⟩ | ⟨b', hr, hn, rfl⟩
    · show (execInst S k _).regs i.id = (execInst S k _).regs j.id
      rw [execInst_phi hF hv hr hi hphi, execInst_phi hF hv hr hj hphi', ih]
    · show enter S _ (F.insts b') _ i.id = enter S _ (F.insts b') _ j.id
      by_cases hb : b' = b
      · subst hb
        rw [enter_phi hF hi hphi, enter_phi hF hj hphi', phiValue, phiValue, hops, hblocks]
      · have hother : ∀ {x}, x ∈ F.insts b → ∀ y ∈ F.insts b', y.isPhi = true → y.id ≠ x.id :=
          fun hx y hy _ e => hb (hF.unique (mem_ids.mpr ⟨y, hy, e⟩) (mem_ids.mpr ⟨_, hx, rfl⟩))
        rw [enter_other (hother hi), enter_other (hother hj), ih]

/-- Every node other than the root is entered first from some predecessor. -/
theorem first_entry {α : Type} {E : α → α → Prop} {r x : α} (h : Reach E r x) (hne : r ≠ x) :
    ∃ q, E q x ∧ Avoids E r x q := by
  have key : ∀ {y}, ReflTransGen E r y → Avoids E r x y ∨ ∃ q, E q x ∧ Avoids E r x q := by
    intro y hy
    induction hy with
    | refl => exact .inl ⟨hne, .refl⟩
    | @tail y z _ e ih =>
      rcases ih with ih | ih
      · by_cases hz : z = x
        · exact .inr ⟨y, hz ▸ e, ih⟩
        · exact .inl (ih.step e hz)
      · exact .inr ih
  exact (key h).resolve_left fun h => h.ne rfl

/-- A block and one it immediately dominates do not have the same predecessors. -/
theorem phi_not_below (hF : F.SsaForm) (hi : i ∈ F.insts b) (hj : j ∈ F.insts bb)
    (hphi : i.isPhi = true) (hphi' : j.isPhi = true) (hblocks : i.blocks = j.blocks) :
    ¬ Idom F.Edge F.entry b bb := by
  intro h
  obtain ⟨hne, hdom, -⟩ := h
  obtain ⟨hnil, -, hpi⟩ := hF.incoming hi hphi
  obtain ⟨-, -, hpj⟩ := hF.incoming hj hphi'
  have hentry : F.entry ≠ b := by
    intro e
    obtain rfl := e
    obtain ⟨q, hq⟩ := List.exists_mem_of_ne_nil _ hnil
    exact hF.entry q ((hpi q).mp hq)
  obtain ⟨q, hq, hav⟩ := first_entry (hF.reachable (List.ne_nil_of_mem hi)) hentry
  have hq' : F.Edge q bb := (hpj q).mp (hblocks ▸ (hpi q).mpr hq)
  exact hdom.pred hq' (Ne.symm hne) hav

/-- What a merge relies on: past `j`, both registers hold the same value. -/
theorem Merging.equal (h : Merging F b i bb j) (hF : F.SsaForm) (hq : i.isQuiet = true)
    (hc : Reachable S F m c) (hp : c.Past F bb j.id) :
    ∃ v, c.st.regs j.id = some v ∧ c.st.regs i.id = some v := by
  have hv := hc.valid hF
  have hop := identical_op hF h.left h.right h.identical
  obtain ⟨-, -, -, -, hops, hblocks⟩ := isIdenticalTo_iff.mp h.identical
  have hjb : j.id ∈ F.ids bb := mem_ids.mpr ⟨j, h.right, rfl⟩
  have hib : i.id ∈ F.ids b := mem_ids.mpr ⟨i, h.left, rfl⟩
  rcases Bool.or_eq_true _ _ ▸ hq with hphi | hpure
  · have hphi' : j.isPhi = true := by rw [Instr.isPhi, ← hop]; exact hphi
    rcases h.below with ⟨rfl, -⟩ | hd
    · obtain ⟨v, hvj⟩ := Option.isSome_iff_exists.mp (hv.defined hjb hp)
      exact ⟨v, hvj, by rw [phi_equal hF h.left h.right hphi hphi' hops hblocks hc, hvj]⟩
    · exact absurd hd (phi_not_below hF h.left h.right hphi hphi' hblocks)
  · have hpi := hv.past_trans hF hib hjb h.before hp
    refine ⟨_, hv.equation h.right (hop ▸ hpure) hp, ?_⟩
    rw [hv.equation h.left hpure hpi, hop, Instr.args, Instr.args, hops]

/-- What a merge erases is not the instruction it merges with. -/
theorem Merging.ne (h : Merging F b i bb j) (hF : F.SsaForm) : i.id ≠ j.id := by
  intro e
  have hb := h.before
  rw [← e] at hb
  obtain rfl := hF.unique (mem_ids.mpr ⟨i, h.left, e⟩) (mem_ids.mpr ⟨j, h.right, rfl⟩)
  exact Dominance.Before.irrefl hF.nodup hb

/-! Any number of merges. -/

/-- What is known of `G`, which `F` has become by merges with `I`. -/
structure Merged (F : Func) (I : Nat) (G : Func) : Prop where
  ssa : G.SsaForm
  shrinks : Shrinks F G
  simulates : Simulates F G
  gone : ∀ {V M : Type} (S : Sem V M) (m : M) (c : Config V M), Reachable S F m c →
    ∀ a J, J ∈ F.ids a → J ∉ G.ids a → c.Past F a J →
      ∃ v, c.st.regs J = some v ∧ c.st.regs I = some v

theorem Merged.step {I : Nat} (h : Merged F I G) (hm : Merging G b i bb j) (hid : i.id = I)
    (hq : i.isQuiet = true) : Merged F I (G.substitute j.id i.value) := by
  have hterm := hm.right_not_terminator
  have hne := hm.ne h.ssa
  have hqj : j.isQuiet = true := by
    rw [Instr.isQuiet, Instr.isPhi, ← identical_op h.ssa hm.left hm.right hm.identical]
    exact hq
  have hshrinks := h.ssa.substitute_shrinks hm.right hterm i.value
  have hholds : Holds G bb j.id i.value := by
    intro V M S m c hc hp ty
    obtain ⟨v, hvj, hvi⟩ := hm.equal h.ssa hq hc hp
    simp [Sem.value, Instr.value, hvj, hvi]
  refine ⟨h.ssa.substitute hm.right hterm hm.available, h.shrinks.trans hshrinks,
    h.simulates.trans (fun hn => hshrinks.mem hn) ?_, ?_⟩
  · exact substitute_simulates h.ssa hm.right hqj (by simpa [Instr.value, Value.refersTo] using hne)
      hholds
  · intro V M S m c hc a J hJ hgone hp
    by_cases hJG : J ∈ G.ids a
    · obtain rfl : J = j.id := by
        by_contra hJj
        exact hgone (mem_substitute_ids.mpr ⟨hJG, hJj⟩)
      obtain rfl := h.ssa.unique hJG (mem_ids.mpr ⟨j, hm.right, rfl⟩)
      obtain ⟨c', hc', hs⟩ := (h.simulates V M S m).1 c hc
      have hp' : c'.Past G a j.id := by
        rcases hp with ⟨e, hnr⟩ | ⟨hne, hdom⟩
        · exact .inl ⟨e.trans hs.label.symm, fun hr => hnr ((hs.rest hJG).mp hr)⟩
        · refine .inr ⟨by rw [hs.label]; exact hne, ?_⟩
          rw [Func.Dom, h.shrinks.edge, h.shrinks.entry, hs.label]
          exact hdom
      obtain ⟨v, hvj, hvi⟩ := hm.equal h.ssa hq hc' hp'
      rw [hs.regs hJG] at hvj
      rw [hs.regs (mem_ids.mpr ⟨i, hm.left, rfl⟩), hid] at hvi
      exact ⟨v, hvj, hvi⟩
    · exact h.gone S m c hc a J hJ hJG hp

theorem Merges.merged (hF : p.func.SsaForm) (hi : i ∈ p.func.insts b) (hq : i.isQuiet = true)
    (h : ReflTransGen (Merge b i.id) p p') : Merged p.func i.id p'.func := by
  induction h with
  | refl => exact ⟨hF, Shrinks.refl _, Simulates.refl _, fun _ _ _ _ _ _ hJ hgone => absurd hJ hgone⟩
  | tail _ h ih =>
    obtain ⟨hid, hm⟩ := h
    -- the instruction merged with is the one the pass was called on, operands apart
    obtain ⟨i₀, hi₀, e, hop, -⟩ := ih.shrinks.insts hm.left
    obtain rfl := hF.inst_eq hi₀ hi (e.symm.trans hid)
    refine ih.step hm hid ?_
    rw [Instr.isQuiet, Instr.isPhi, hop]
    exact hq

/-- `F` with `i` in the place of the instructions of `D`, all of which the scans for `i` reach and
which do what `i` does. -/
structure Replaces (F : Func) (b : Label) (i : Instr) (D : Nat → Bool) : Prop where
  left : D i.id = false
  scanned : ∀ {bb J}, J ∈ F.insts bb → D J.id = true → F.Scanned b i.id bb J.id
  identical : ∀ {bb J}, J ∈ F.insts bb → D J.id = true →
    (i.collapse D i.value).isIdenticalTo (J.collapse D i.value) = true

/-- Merges put `i` in the place of what they erase. -/
theorem Merges.collapse (hF : p.func.SsaForm) (hi : i ∈ p.func.insts b)
    (h : ReflTransGen (Merge b i.id) p p') :
    ∃ D, p'.func = p.func.collapse D i.value ∧ Replaces p.func b i D := by
  induction h with
  | refl =>
    refine ⟨fun _ => false, collapse_none.symm, rfl, ?_, ?_⟩ <;>
    · intro _ _ _ hD
      cases hD
  | @tail q _ h₁ h ih =>
    obtain ⟨D, hfunc, hD⟩ := ih
    obtain ⟨hid, hm⟩ := h
    obtain ⟨hq, hs⟩ := Merges.ssaForm hF h₁
    have hne := hm.ne hq
    have hleft := hm.left
    have hright := hm.right
    rw [hfunc] at hleft hright
    obtain ⟨i', hi', -, rfl⟩ := mem_collapse.mp hleft
    obtain ⟨j, hj, -, rfl⟩ := mem_collapse.mp hright
    obtain rfl := hF.inst_eq hi' hi hid
    have hrep : ∀ k : Instr, k.collapse (fun n => D n || n == j.id) i'.value =
      (k.collapse D i'.value).replace j.id i'.value := fun k => (collapse_replace k).symm
    refine ⟨fun n => D n || n == j.id, ?_, ?_, ?_, ?_⟩
    · show q.func.substitute j.id i'.value = _
      rw [hfunc, collapse_substitute]
    · simpa [hD.left] using hne
    · intro c J hJ hDJ
      rcases Bool.or_eq_true _ _ ▸ hDJ with hDJ | e
      · exact hD.scanned hJ hDJ
      · obtain rfl := hF.unique (mem_ids.mpr ⟨J, hJ, beq_iff_eq.mp e⟩) (mem_ids.mpr ⟨j, hj, rfl⟩)
        rw [beq_iff_eq.mp e]
        rcases hm.below with ⟨rfl, hsub⟩ | hd
        · exact .inl ⟨rfl, hs.pair_of hsub⟩
        · exact .inr (by rw [← hs.edge, ← hs.entry]; exact hd)
    · intro c J hJ hDJ
      rw [hrep, hrep]
      rcases Bool.or_eq_true _ _ ▸ hDJ with hDJ | e
      · exact identical_replace (hD.identical hJ hDJ)
      · obtain rfl := hF.unique (mem_ids.mpr ⟨J, hJ, beq_iff_eq.mp e⟩) (mem_ids.mpr ⟨j, hj, rfl⟩)
        obtain rfl := hF.inst_eq hJ hj (beq_iff_eq.mp e)
        exact identical_replace hm.identical

section
variable {getDomTree : Func → Label → Option (List Label)}

/-- **Dominance-based common subexpression elimination is sound.** The call succeeds. It puts
the instruction in the place of others that the scans reach, among them every one identical
to it; each time one of these runs in the original function, the instruction last computed
the very value it computes; and the function left runs in step with the original one. -/
theorem basicCSEPass_sound (hD : DomTree getDomTree) (hF : p.func.SsaForm)
    (hi : i ∈ p.func.insts b) (hq : i.isQuiet = true) :
    ∃ p' D, (basicCSEPass getDomTree b i.id).run p = some (⟨⟩, p') ∧
      p'.func = p.func.collapse D i.value ∧ Replaces p.func b i D ∧
      (shouldCSEworkOnInstruction i = true → ∀ bb, ∀ J ∈ p.func.insts bb,
        p.func.Scanned b i.id bb J.id → i.isIdenticalTo J = true → D J.id = true) ∧
      (∀ {V M : Type} (S : Sem V M) (m : M) (c : Config V M), Reachable S p.func m c →
        ∀ J rest, c.rest = J :: rest → D J.id = true →
          ∃ v, (execInst S J c.st).regs J.id = some v ∧ c.st.regs i.id = some v) ∧
      Simulates p.func p'.func := by
  obtain ⟨_, p', hrun, h, hgone⟩ := basicCSEPass_spec hD hF hi
  have hm := Merges.merged hF hi hq h
  obtain ⟨D, hfunc, hrep⟩ := Merges.collapse hF hi h
  -- an instruction of the function is erased exactly if `D` has it
  have herased : ∀ {a J}, J ∈ p.func.insts a → (J.id ∉ p'.func.ids a ↔ D J.id = true) := by
    intro a J hJ
    have hmem : J.id ∈ p.func.ids a := mem_ids.mpr ⟨J, hJ, rfl⟩
    rw [hfunc, collapse_ids, List.mem_filter]
    simp [hmem]
  refine ⟨p', D, hrun, hfunc, hrep, ?_, ?_, hm.simulates⟩
  · intro hw bb J hJ hscanned he
    exact (herased hJ).mp (hgone hw bb J hJ hscanned he)
  intro V M S m c hc J rest hr hDJ
  have hv := hc.valid hF
  have hJ := hv.mem_insts hr
  have hnd : J.id ∉ rest.map Instr.id := by
    obtain ⟨pre, hpre⟩ := hv.suffix
    have hnd := hF.nodup c.label
    rw [Func.ids, hpre, hr, List.map_append, List.nodup_append, List.map_cons] at hnd
    exact (List.nodup_cons.mp hnd.2.1).1
  obtain ⟨v, hvJ, hvi⟩ := hm.gone S m _ (hc.tail (step_inst hr)) _ _
    (mem_ids.mpr ⟨J, hJ, rfl⟩) ((herased hJ).mpr hDJ) (.inl ⟨rfl, hnd⟩)
  refine ⟨v, hvJ, ?_⟩
  have hne : i.id ≠ J.id := by
    intro e
    rw [← e, hrep.left] at hDJ
    cases hDJ
  rwa [show Config.st ⟨c.label, rest, _, execInst S J c.st⟩ = execInst S J c.st from rfl,
    execInst_regs J c.st hne] at hvi

end

theorem basicCSEPass_sound_addTwice : ∃ p' D,
    (basicCSEPass idomTree 0 1).run (Pass.start addTwice) = some (⟨⟩, p') ∧
      p'.func = addTwice.collapse D (.inst 1 32) ∧
      Replaces addTwice 0 ⟨1, ⟨.add, 32, [32, 32], false, 0⟩, [.arg 0 32, .arg 1 32], []⟩ D ∧
      D 2 = true ∧
      (∀ {V M : Type} (S : Sem V M) (m : M) (c : Config V M), Reachable S addTwice m c →
        ∀ J rest, c.rest = J :: rest → D J.id = true →
          ∃ v, (execInst S J c.st).regs J.id = some v ∧ c.st.regs 1 = some v) ∧
      Simulates addTwice p'.func := by
  obtain ⟨p', D, hrun, hfunc, hrep, hall, hvalue, hsim⟩ :=
    basicCSEPass_sound (p := Pass.start addTwice) (b := 0)
      (i := ⟨1, ⟨.add, 32, [32, 32], false, 0⟩, [.arg 0 32, .arg 1 32], []⟩)
      idomTree_correct addTwice_ssaForm (by decide) (by decide)
  refine ⟨p', D, hrun, hfunc, hrep, ?_, hvalue, hsim⟩
  refine hall (by decide) 0 ⟨2, ⟨.add, 32, [32, 32], false, 0⟩, [.arg 0 32, .arg 1 32], []⟩
    (by decide) (.inl ⟨rfl, ?_⟩) (by decide)
  exact List.Sublist.cons_cons 1 (List.Sublist.cons_cons 2 (List.nil_sublist _))

end Ece566.Llvm
