import Ece566.CseRuns

/- The whole pass keeps SSA form. Every turn of its loops makes a sequence of edits and
   leaves the iterator on an instruction further down the block, so the loops end, and
   by `Edits.ssaForm` every function on the way is in SSA form. -/
namespace Ece566.Llvm

open Dominance Relation

variable {F F' : Func} {b : Label} {I n : Nat} {i : Instr} {p p' : Pass}

theorem isLoad_congr {j : Instr} (h : i.op = j.op) (hl : isLoad i = true) : isLoad j = true := by
  simpa only [isLoad, Instr.getOpcode, ← h] using hl

theorem isStore_congr {j : Instr} (h : i.op = j.op) (hs : isStore i = true) : isStore j = true := by
  simpa only [isStore, Instr.getOpcode, ← h] using hs

/-- In a scan of its own block, `I` stands before the instruction visited. -/
theorem Scan.pair {P : Instr → Prop} {ns : List Nat} (h : Scan P F b I b (n :: ns)) (hI : I ∉ n :: ns) :
    [I, n].Sublist (F.ids b) := by
  have hne : n ≠ I := by
    intro e
    obtain rfl := e
    exact hI List.mem_cons_self
  rcases h.below n List.mem_cons_self hne with ⟨-, hs⟩ | hd
  · exact hs
  · exact absurd rfl hd.1

theorem not_mem_idsAfter (hF : F.SsaForm) (hI : I ∈ F.ids b) : I ∉ F.idsAfter b I := by
  intro h
  exact pair_irrefl (hF.nodup b) (mem_idsAfter hF hI h)

theorem next_pair (hF : F.SsaForm) (hI : I ∈ F.ids b) {m : Nat} (h : F.next b I = some m) :
    [I, m].Sublist (F.ids b) := mem_idsAfter hF hI (List.mem_of_mem_head? h)

theorem mem_erase_of_pair (hF : F.SsaForm) {m : Nat} (h : [I, m].Sublist (F.ids b)) :
    m ∈ (F.eraseFromParent I).ids b := by
  rw [eraseFromParent_ids, List.mem_filter]
  refine ⟨(pair_mem h).2, ?_⟩
  rw [bne_iff_ne]
  intro e
  obtain rfl := e
  exact pair_irrefl (hF.nodup b) h

section
variable {simplifyInstruction : Func → Label → Instr → Option Value}

/-- `p'` is what a sequence of edits makes of `p`. -/
abbrev Edits (simplifyInstruction : Func → Label → Instr → Option Value) (p p' : Pass) : Prop :=
  ReflTransGen (Edit simplifyInstruction) p p'

theorem Merges.edits (h : ReflTransGen (Merge b I) p p') : Edits simplifyInstruction p p' := by
  induction h with
  | refl => exact .refl
  | tail _ h ih => exact ih.tail (.merge h)

theorem eliminateRedundantLoads_spec : ∀ (ns : List Nat) {p : Pass},
    Scan (fun i => isLoad i = true) p.func b I b ns → I ∉ ns →
    Wp (eliminateRedundantLoads b I ns)
      (fun _ p' => Edits simplifyInstruction p p' ∧ I ∈ p'.func.ids b) p
  | [], p, h, _ => by
    obtain ⟨i, hi, hid, -⟩ := h.left
    exact Wp.pure' ⟨.refl, mem_ids.mpr ⟨i, hi, hid⟩⟩
  | n :: ns, p, h, hI => by
    obtain ⟨i, hi, hid, hl⟩ := h.left
    obtain ⟨j, hj, rfl⟩ := mem_ids.mp (h.right n List.mem_cons_self)
    have hne : j.id ≠ I := fun e => hI (by rw [e]; exact List.mem_cons_self)
    have hI' : I ∉ ns := fun hm => hI (List.mem_cons_of_mem _ hm)
    have hpair := h.pair hI
    refine Wp.bind' (deref_spec h.ssa hi hid) ?_
    intro _ _ h
    obtain ⟨rfl, rfl⟩ := h
    refine Wp.bind' (deref_spec h.ssa hj rfl) ?_
    intro _ _ h
    obtain ⟨rfl, rfl⟩ := h
    split
    · rename_i hc
      simp only [Bool.and_eq_true] at hc
      have hr : Reloading _ b _ _ := ⟨hi, hj, hl, hc.1.1.1, hc.1.1.2, hc.1.2, hc.2, by rw [hid]; exact hpair⟩
      have hscan := h.substitute hne hj rfl (not_terminator_of_isLoad hr.right_load) hr.available
      refine substitute_spec ?_
      split
      · obtain ⟨i', hi', hid', -⟩ := hscan.left
        exact Wp.pure' ⟨.single (.load hr), mem_ids.mpr ⟨i', hi', hid'⟩⟩
      · exact (eliminateRedundantLoads_spec ns hscan hI').mono
          fun _ p' hp' => ⟨.head (.load hr) hp'.1, hp'.2⟩
    · split
      · exact Wp.pure' ⟨.refl, mem_ids.mpr ⟨_, hi, hid⟩⟩
      · exact eliminateRedundantLoads_spec ns h.tail hI'

/-- Where the iterator stands after a turn on `I`: on an instruction after `I` that is still
there, or at the end. -/
def Ahead (F : Func) (b : Label) (I : Nat) (it : Option Nat) (p' : Pass) : Prop :=
  ∀ m, it = some m → m ∈ p'.func.ids b ∧ [I, m].Sublist (F.ids b)

theorem eliminateRedundantStoreCall_spec : ∀ (ns : List Nat) {p : Pass},
    Scan (fun i => isStore i = true) p.func b I b ns → I ∉ ns →
    Wp (eliminateRedundantStoreCall b I ns) (fun it p' => Edits simplifyInstruction p p' ∧
      ((it = some I ∧ I ∈ p'.func.ids b) ∨ (it ≠ some I ∧ Ahead p.func b I it p'))) p
  | [], p, h, _ => by
    obtain ⟨i, hi, hid, -⟩ := h.left
    exact Wp.pure' ⟨.refl, .inl ⟨rfl, mem_ids.mpr ⟨i, hi, hid⟩⟩⟩
  | n :: ns, p, h, hI => by
    obtain ⟨i, hi, hid, hs⟩ := h.left
    obtain ⟨j, hj, rfl⟩ := mem_ids.mp (h.right n List.mem_cons_self)
    have hne : j.id ≠ I := fun e => hI (by rw [e]; exact List.mem_cons_self)
    have hI' : I ∉ ns := fun hm => hI (List.mem_cons_of_mem _ hm)
    have hpair := h.pair hI
    have hIb : I ∈ p.func.ids b := mem_ids.mpr ⟨i, hi, hid⟩
    refine Wp.bind' (deref_spec h.ssa hi hid) ?_
    intro _ _ h
    obtain ⟨rfl, rfl⟩ := h
    refine Wp.bind' (deref_spec h.ssa hj rfl) ?_
    intro _ _ h
    obtain ⟨rfl, rfl⟩ := h
    split
    · rename_i hc
      simp only [Bool.and_eq_true] at hc
      obtain ⟨v, hv⟩ := store_value h.ssa hi hs
      rw [hv]
      have hfw : Forwarding _ b _ _ v :=
        ⟨hi, hj, hs, hc.1.1.1.2, hc.1.1.2, hc.1.2, hc.2, hv, by rw [hid]; exact hpair⟩
      have hscan := h.substitute hne hj rfl (not_terminator_of_isLoad hfw.load)
        (hfw.available h.ssa)
      have hshrinks := h.ssa.substitute_shrinks hj (not_terminator_of_isLoad hfw.load) v
      refine substitute_spec ?_
      refine (eliminateRedundantStoreCall_spec ns hscan hI').mono ?_
      intro it p' h
      obtain ⟨hedits, hit⟩ := h
      refine ⟨.head (.forward hfw) hedits, hit.imp_right fun ⟨hn, ha⟩ => ⟨hn, fun m hm => ?_⟩⟩
      exact ⟨(ha m hm).1, hshrinks.pair_of (ha m hm).2⟩
    · split
      · rename_i hc
        simp only [Bool.and_eq_true] at hc
        have how : Overwriting _ b _ _ :=
          ⟨hi, hj, hs, hc.1.1.1.2, hc.1.1.2, hc.1.2, hc.2, by rw [hid]; exact hpair⟩
        refine Wp.bind' get_spec ?_
        intro _ _ h
        obtain ⟨rfl, rfl⟩ := h
        refine erase_spec (Wp.pure' ⟨.single (hid ▸ .store how), .inr ⟨?_, fun m hm => ?_⟩⟩)
        · intro e
          exact pair_irrefl (h.ssa.nodup b) (next_pair h.ssa hIb e)
        · have hp := next_pair h.ssa hIb hm
          exact ⟨mem_erase_of_pair h.ssa hp, hp⟩
      · split
        · exact Wp.pure' ⟨.refl, .inl ⟨rfl, hIb⟩⟩
        · exact eliminateRedundantStoreCall_spec ns h.tail hI'

variable {getDomTree : Func → Label → Option (List Label)}

/-- One turn of the instruction loop. -/
theorem cseInst_spec (hD : DomTree getDomTree) (hS : Simplifies simplifyInstruction)
    (hF : p.func.SsaForm) (hn : n ∈ p.func.ids b) :
    Wp (cseInst getDomTree simplifyInstruction b n) (fun it p' =>
      Edits simplifyInstruction p p' ∧ Ahead p.func b n it p') p := by
  obtain ⟨i, hi, rfl⟩ := mem_ids.mp hn
  refine Wp.bind' (deref_spec hF hi rfl) ?_
  intro i p h
  obtain ⟨rfl, rfl⟩ := h
  refine Wp.bind' get_spec ?_
  intro _ p h
  obtain ⟨rfl, rfl⟩ := h
  split
  · rename_i hd
    obtain ⟨hterm, hun⟩ := isDead_iff hF hd
    refine erase_spec (Wp.pure' ⟨.single (.dead hi hd), fun m hm => ?_⟩)
    refine ⟨?_, next_pair hF hn hm⟩
    show m ∈ (Func.eraseFromParent _ _).ids b
    exact mem_erase_of_pair hF (next_pair hF hn hm)
  · split
    · rename_i v hv
      refine substitute_spec (Wp.pure' ⟨.single (.simplify hi hv), fun m hm => ?_⟩)
      refine ⟨?_, next_pair hF hn hm⟩
      show m ∈ (Func.substitute _ _ _).ids b
      rw [Func.substitute, eraseFromParent_ids, replaceAllUsesWith_ids, ← eraseFromParent_ids]
      exact mem_erase_of_pair hF (next_pair hF hn hm)
    · refine Wp.bind' (basicCSEPass_spec hD hF hi) ?_
      intro _ p₁ h
      obtain ⟨h₁, -⟩ := h
      obtain ⟨hF₁, hs₁⟩ := Merges.ssaForm hF h₁
      have hn₁ := Merges.left hF h₁ hn
      have e₁ : Edits simplifyInstruction p p₁ := Merges.edits h₁
      refine Wp.bind' (P := fun _ p₂ => Edits simplifyInstruction p₁ p₂ ∧ i.id ∈ p₂.func.ids b)
        (onlyIf_spec (fun hl => ?_) fun _ => ⟨.refl, hn₁⟩) ?_
      · refine Wp.bind' get_spec ?_
        intro _ _ h
        obtain ⟨rfl, rfl⟩ := h
        obtain ⟨i', hi', e', hop⟩ := hs₁.inst hF hi hn₁
        rw [← e']
        exact eliminateRedundantLoads_spec _
          (Scan.own hF₁ isLoad_congr hi' (isLoad_congr hop.symm hl))
          (not_mem_idsAfter hF₁ (e' ▸ hn₁))
      · intro _ p₂ h
        obtain ⟨e₂, hn₂⟩ := h
        have e₁₂ := e₁.trans e₂
        obtain ⟨hF₂, hs₂, -⟩ := Edits.ssaForm hS hF e₁₂
        refine Wp.bind' (P := fun moved p₃ => Edits simplifyInstruction p₂ p₃ ∧
            ((moved = some i.id ∧ i.id ∈ p₃.func.ids b) ∨
              (moved ≠ some i.id ∧ Ahead p₂.func b i.id moved p₃)))
          (onlyIf_spec (fun hst => ?_) fun _ => ⟨.refl, .inl ⟨rfl, hn₂⟩⟩) ?_
        · refine Wp.bind' get_spec ?_
          intro _ _ h
          obtain ⟨rfl, rfl⟩ := h
          obtain ⟨i', hi', e', hop⟩ := hs₂.inst hF hi hn₂
          rw [← e']
          exact eliminateRedundantStoreCall_spec _
            (Scan.own hF₂ isStore_congr hi' (isStore_congr hop.symm hst))
            (not_mem_idsAfter hF₂ (e' ▸ hn₂))
        · intro moved p₃ h
          obtain ⟨e₃, hmoved⟩ := h
          have e₁₃ := e₁₂.trans e₃
          obtain ⟨hF₃, hs₃, -⟩ := Edits.ssaForm hS hF e₁₃
          rcases hmoved with ⟨rfl, hn₃⟩ | ⟨hne, ha⟩
          · rw [if_pos rfl]
            refine Wp.bind' get_spec ?_
            intro _ _ h
            obtain ⟨rfl, rfl⟩ := h
            refine Wp.pure' ⟨e₁₃, fun m hm => ?_⟩
            have hp := next_pair hF₃ hn₃ hm
            exact ⟨(pair_mem hp).2, hs₃.pair_of hp⟩
          · rw [if_neg hne]
            exact Wp.pure' ⟨e₁₃, fun m hm => ⟨(ha m hm).1, hs₂.pair_of (ha m hm).2⟩⟩

/-- An instruction further down has less of the block from it on, whatever was erased. -/
theorem idsFrom_lt (hF : F.SsaForm) (hs : Shrinks F F') {m : Nat} (hm : m ∈ F'.ids b)
    (hp : [n, m].Sublist (F.ids b)) : (F'.idsFrom b m).length < (F.idsFrom b n).length := by
  obtain ⟨q, hq⟩ := hs.ids
  obtain ⟨pre, rest, hids⟩ := List.append_of_mem (pair_mem hp).2
  have hnd := hF.nodup b
  have hpre : n ∈ pre := by rwa [hids, pair_iff (hids ▸ hnd)] at hp
  obtain ⟨pre₁, pre₂, rfl⟩ := List.append_of_mem hpre
  have hqm : q m = true := by
    rw [hq] at hm
    exact (List.mem_filter.mp hm).2
  have hids' : F'.ids b = (pre₁ ++ n :: pre₂).filter q ++ m :: rest.filter q := by
    rw [hq, hids, List.filter_append, List.filter_cons_of_pos hqm]
  have hnd' : (F'.ids b).Nodup := by rw [hq]; exact hnd.filter q
  have hids'' : F.ids b = pre₁ ++ n :: (pre₂ ++ m :: rest) := by simp [hids]
  rw [idsFrom_eq hids' hnd', idsFrom_eq hids'' hnd]
  have := List.length_filter_le q rest
  simp only [List.length_cons, List.length_append]
  omega

/-- The loop over a block ends, given as much fuel as there is of the block. -/
theorem cseBlock_spec (hD : DomTree getDomTree) (hS : Simplifies simplifyInstruction) :
    ∀ (fuel : Nat) (it : Option Nat) {p : Pass}, p.func.SsaForm →
      (∀ m, it = some m → m ∈ p.func.ids b ∧ (p.func.idsFrom b m).length ≤ fuel) →
      Wp (cseBlock getDomTree simplifyInstruction b fuel it)
        (fun _ p' => Edits simplifyInstruction p p') p
  | fuel, none, p, _, _ => by
    cases fuel <;> exact Wp.pure' .refl
  | 0, some n, p, hF, hit => by
    obtain ⟨hn, hlen⟩ := hit n rfl
    obtain ⟨pre, rest, hids⟩ := List.append_of_mem hn
    rw [idsFrom_eq hids (hF.nodup b)] at hlen
    cases hlen
  | fuel + 1, some n, p, hF, hit => by
    obtain ⟨hn, hlen⟩ := hit n rfl
    refine Wp.bind' (cseInst_spec hD hS hF hn) ?_
    intro it p₁ h
    obtain ⟨e₁, ha⟩ := h
    obtain ⟨hF₁, hs₁, -⟩ := Edits.ssaForm hS hF e₁
    refine (cseBlock_spec hD hS fuel it hF₁ fun m hm => ⟨(ha m hm).1, ?_⟩).mono
      fun _ p₂ e₂ => e₁.trans e₂
    have := idsFrom_lt hF hs₁ (ha m hm).1 (ha m hm).2
    omega

theorem cseBlocks_spec (hD : DomTree getDomTree) (hS : Simplifies simplifyInstruction) :
    ∀ (blocks : List Label) {p : Pass}, p.func.SsaForm →
      Wp (cseBlocks getDomTree simplifyInstruction blocks)
        (fun _ p' => Edits simplifyInstruction p p') p
  | [], _, _ => Wp.pure' .refl
  | b :: bs, p, hF => by
    refine Wp.bind' get_spec ?_
    intro _ _ h
    obtain ⟨rfl, rfl⟩ := h
    refine Wp.bind' (cseBlock_spec hD hS _ _ hF fun m hm => ?_) ?_
    · exact ⟨List.mem_of_mem_head? hm, idsFrom_sublist.length_le⟩
    · intro _ p₁ e₁
      exact (cseBlocks_spec hD hS bs (Edits.ssaForm hS hF e₁).1).mono fun _ p₂ e₂ => e₁.trans e₂

/-- **The CSE pass keeps SSA form.** On a module whose functions are in SSA form the pass ends,
and the functions it leaves, and every function there is after one of its steps, are in
SSA form. -/
theorem CommonSubexpressionElimination_ssaForm (hD : DomTree getDomTree)
    (hS : Simplifies simplifyInstruction) : ∀ (M : Module) (p : Pass), (∀ F ∈ M, F.SsaForm) →
    ∃ M' p', (CommonSubexpressionElimination getDomTree simplifyInstruction M).run p =
        some (M', p') ∧
      (∀ F ∈ M', F.SsaForm) ∧ ∀ G ∈ p'.trail, G ∈ p.trail ∨ G.SsaForm := by
  suffices h : ∀ (M : Module) {p : Pass}, (∀ F ∈ M, F.SsaForm) →
      Wp (CommonSubexpressionElimination getDomTree simplifyInstruction M)
        (fun M' p' => (∀ F ∈ M', F.SsaForm) ∧ ∀ G ∈ p'.trail, G ∈ p.trail ∨ G.SsaForm) p by
    exact fun M p hM => h M hM
  intro M
  induction M with
  | nil =>
    intro p _
    refine Wp.pure' ⟨fun F hF => ?_, fun G hG => .inl hG⟩
    cases hF
  | cons F rest ih =>
    intro p hM
    have hF : F.SsaForm := hM F List.mem_cons_self
    refine Wp.bind' (Wp.modify' (Q := fun _ s => s = _) rfl) ?_
    intro _ _ e
    obtain rfl := e
    refine Wp.bind' (cseBlocks_spec hD hS F.blocks hF) ?_
    intro _ p₁ e₁
    obtain ⟨hF₁, -, ht₁⟩ := Edits.ssaForm hS (by exact hF) e₁
    refine Wp.bind' get_spec ?_
    intro _ _ h
    obtain ⟨rfl, rfl⟩ := h
    refine Wp.bind' (ih fun G hG => hM G (List.mem_cons_of_mem F hG)) ?_
    intro M' p₂ h
    obtain ⟨hM', ht₂⟩ := h
    refine Wp.pure' ⟨fun G hG => ?_, fun G hG => ?_⟩
    · rcases List.mem_cons.mp hG with rfl | hG
      · exact hF₁
      · exact hM' G hG
    · rcases ht₂ G hG with hG | hG
      · rcases ht₁ G hG with hG | hG
        · rcases List.mem_append.mp hG with hG | hG
          · exact .inl hG
          · exact .inr (List.mem_singleton.mp hG ▸ hF)
        · exact .inr hG
      · exact .inr hG

end

theorem CommonSubexpressionElimination_ssaForm_addTwice : ∃ M' p',
    (CommonSubexpressionElimination idomTree (fun _ _ _ => none) [addTwice]).run
        (Pass.start addTwice) = some (M', p') ∧
      (∀ F ∈ M', F.SsaForm) ∧ ∀ G ∈ p'.trail, G ∈ (Pass.start addTwice).trail ∨ G.SsaForm :=
  CommonSubexpressionElimination_ssaForm idomTree_correct simplifies_none [addTwice]
    (Pass.start addTwice) (by simpa using addTwice_ssaForm)

end Ece566.Llvm
