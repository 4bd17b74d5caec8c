import Ece566.CseChanges
import Ece566.StoreSound

/- The CSE pass preserves what a module does. A scan carries what it has passed since the
   instruction it started from: from a load no store, from a store nothing that looks at
   the memory. So everything the pass does is a `Change`, and its runs show what those of
   the original functions show. -/
namespace Ece566.Llvm

open Dominance Relation

variable {F F' : Func} {b : Label} {I n : Nat} {i j : Instr} {p p' : Pass} {P : Instr → Prop}
variable {ns : List Nat}

/-- The scan from `I`, with `ns` yet to visit, has passed only instructions with `P`. -/
structure Since (P : Instr → Prop) (F : Func) (b : Label) (I : Nat) (ns : List Nat) : Prop where
  suffix : ∃ pre, F.ids b = pre ++ ns
  passed : ∀ k ∈ F.insts b, [I, k.id].Sublist (F.ids b) → k.id ∉ ns → P k

namespace Since

/-- What stands between `I` and the next instruction has been passed. -/
theorem between (h : Since P F b I (j.id :: ns)) (hF : F.SsaForm) {k : Instr} (hk : k ∈ F.insts b)
    (hIk : [I, k.id].Sublist (F.ids b)) (hkj : [k.id, j.id].Sublist (F.ids b)) : P k := by
  refine h.passed k hk hIk fun hmem => ?_
  obtain ⟨pre, hids⟩ := h.suffix
  have hnd := hF.nodup b
  rw [hids] at hkj hnd
  rw [pair_iff hnd] at hkj
  rw [List.nodup_append] at hnd
  exact hnd.2.2 _ hkj _ hmem rfl

theorem tail (h : Since P F b I (j.id :: ns)) (hF : F.SsaForm) (hj : j ∈ F.insts b) (hP : P j) :
    Since P F b I ns where
  suffix := by
    obtain ⟨pre, hids⟩ := h.suffix
    exact ⟨pre ++ [j.id], by simp [hids]⟩
  passed k hk hIk hkn := by
    by_cases e : k.id = j.id
    · obtain rfl := hF.inst_eq hk hj e
      exact hP
    · exact h.passed k hk hIk (by simp [e, hkn])

theorem substitute (h : Since P F b I (j.id :: ns)) (hP : ∀ {i j : Instr}, i.op = j.op → P i → P j)
    (hF : F.SsaForm) (hj : j ∈ F.insts b) (hterm : j.isTerminator = false) (v : Value) :
    Since P (F.substitute j.id v) b I ns where
  suffix := by
    obtain ⟨pre, hids⟩ := h.suffix
    have hnd := hF.nodup b
    rw [hids, List.nodup_append, List.nodup_cons] at hnd
    have hpre : pre.filter (fun d => d != j.id) = pre := by
      rw [List.filter_eq_self]
      exact fun d hd => bne_iff_ne.mpr (hnd.2.2 d hd j.id List.mem_cons_self)
    have hns : ns.filter (fun d => d != j.id) = ns := by
      rw [List.filter_eq_self]
      intro d hd
      rw [bne_iff_ne]
      rintro rfl
      exact hnd.2.1.1 hd
    refine ⟨pre, ?_⟩
    rw [substitute_ids, hids, List.filter_append, List.filter_cons_of_neg (by simp), hpre, hns]
  passed k' hk' hIk hkn := by
    obtain ⟨k, hk, hne, rfl⟩ := mem_substitute.mp hk'
    have hs := (hF.substitute_shrinks hj hterm v).pair_of hIk
    exact hP (i := k) rfl (h.passed k hk hs (by rw [List.mem_cons, not_or]; exact ⟨hne, hkn⟩))

end Since

/-- The scan starts right after the instruction it is about. -/
theorem Since.own (hF : F.SsaForm) (hi : i ∈ F.insts b) : Since P F b i.id (F.idsAfter b i.id) := by
  obtain ⟨pre, post, hb⟩ := List.append_of_mem hi
  have hafter : F.idsAfter b i.id = post.map Instr.id := by
    rw [Func.idsAfter, idsFrom_eq (split_ids hb) (hF.nodup b)]
    rfl
  rw [hafter]
  refine ⟨⟨pre.map Instr.id ++ [i.id], by simp [split_ids hb]⟩, fun k hk hik hkn => ?_⟩
  exact absurd (List.mem_map_of_mem ((split_after hF hb hk).mp hik)) hkn

/-- What a scan from a load passes. -/
def Unstored (k : Instr) : Prop := isStore k = false

/-- What a scan from a store passes. -/
def Unread (k : Instr) : Prop := k.isTerminator = false → k.isQuiet = true

theorem unstored_congr (h : i.op = j.op) (hi : Unstored i) : Unstored j := by
  simpa only [Unstored, isStore, Instr.getOpcode, h] using hi

theorem unread_congr (h : i.op = j.op) (hi : Unread i) : Unread j := by
  simpa only [Unread, Instr.isTerminator, Instr.isQuiet, Instr.isPhi, h] using hi

theorem isStore_of_load (h : isLoad i = true) : isStore i = false := by
  rw [isStore, Instr.getOpcode, opcode_of_isLoad h]
  rfl

section
variable {simplifyInstruction : Func → Label → Instr → Option Value}

theorem Merges.changes {b : Label} (h : ReflTransGen (Merge b I) p p') :
    Changes simplifyInstruction p.func p'.func := by
  induction h with
  | refl => exact .refl
  | tail _ h ih =>
    obtain ⟨-, h⟩ := h
    exact ih.tail (.merge h)

theorem eliminateRedundantLoads_changes (ns : List Nat) : ∀ {p : Pass},
    Scan (fun i => isLoad i = true) p.func b I b ns → I ∉ ns → Since Unstored p.func b I ns →
    Wp (eliminateRedundantLoads b I ns) (fun _ p' => Changes simplifyInstruction p.func p'.func) p := by
  induction ns with
  | nil => exact fun _ _ _ => Wp.pure' .refl
  | cons n ns ih =>
    intro p h hI hsince
    obtain ⟨i, hi, hid, hl⟩ := h.left
    obtain ⟨j, hj, rfl⟩ := mem_ids.mp (h.right n List.mem_cons_self)
    have hne : j.id ≠ I := fun e => hI (by rw [e]; exact List.mem_cons_self)
    have hI' : I ∉ ns := fun hm => hI (List.mem_cons_of_mem _ hm)
    have hpair := h.pair hI
    refine Wp.bind' (deref_spec h.ssa hi hid) ?_
    intro _ _ h
    obtain ⟨rfl, rfl⟩ := h
    refine Wp.bind' (deref_spec h.ssa hj rfl) ?_
    intro _ _ h
    obtain ⟨rfl, rfl⟩ := h
    split
    · rename_i hc
      simp only [Bool.and_eq_true] at hc
      have hr : Reloaded _ b _ _ :=
        ⟨⟨hi, hj, hl, hc.1.1.1, hc.1.1.2, hc.1.2, hc.2, by rw [hid]; exact hpair⟩,
          fun hk hs hik hkj => by
            have := hsince.between h.ssa hk (hid ▸ hik) hkj
            rw [Unstored, hs] at this
            cases this⟩
      have hlj := hr.reloading.right_load
      have hterm := not_terminator_of_isLoad hlj
      have hns := isStore_of_load hlj
      refine substitute_spec ?_
      rw [if_neg (by rw [hns]; exact Bool.false_ne_true)]
      exact (ih (h.substitute hne hj rfl hterm hr.reloading.available) hI'
        (hsince.substitute unstored_congr h.ssa hj hterm _)).mono fun _ p' hp' => .head (.load hr) hp'
    · split
      · exact Wp.pure' .refl
      · rename_i hs
        exact ih h.tail hI' (hsince.tail h.ssa hj (by simpa [Unstored] using hs))

theorem eliminateRedundantStoreCall_changes (ns : List Nat) : ∀ {p : Pass},
    Scan (fun i => isStore i = true) p.func b I b ns → I ∉ ns → p.func.Accesses b →
    Since Unread p.func b I ns → Wp (eliminateRedundantStoreCall b I ns)
      (fun _ p' => Changes simplifyInstruction p.func p'.func) p := by
  induction ns with
  | nil => exact fun _ _ _ _ => Wp.pure' .refl
  | cons n ns ih =>
    intro p h hI hacc hsince
    obtain ⟨i, hi, hid, hs⟩ := h.left
    obtain ⟨j, hj, rfl⟩ := mem_ids.mp (h.right n List.mem_cons_self)
    have hne : j.id ≠ I := fun e => hI (by rw [e]; exact List.mem_cons_self)
    have hI' : I ∉ ns := fun hm => hI (List.mem_cons_of_mem _ hm)
    have hpair : [i.id, j.id].Sublist (p.func.ids b) := hid ▸ h.pair hI
    refine Wp.bind' (deref_spec h.ssa hi hid) ?_
    intro _ _ h
    obtain ⟨rfl, rfl⟩ := h
    refine Wp.bind' (deref_spec h.ssa hj rfl) ?_
    intro _ _ h
    obtain ⟨rfl, rfl⟩ := h
    have hquiet : QuietBetween _ b _ _ := fun k hk hik hkj =>
      hsince.between h.ssa hk (hid ▸ hik) hkj (not_terminator_of_pair h.ssa hk hkj)
    split
    · rename_i hc
      simp only [Bool.and_eq_true] at hc
      obtain ⟨v, hv⟩ := store_value h.ssa hi hs
      rw [hv]
      have hfw : Forwarding _ b _ _ v :=
        ⟨hi, hj, hs, hc.1.1.1.2, hc.1.1.2, hc.1.2, hc.2, hv, hpair⟩
      have hterm := not_terminator_of_isLoad hfw.load
      refine substitute_spec ?_
      exact (ih (h.substitute hne hj rfl hterm (hfw.available h.ssa)) hI'
        (hacc.shrink (h.ssa.substitute_shrinks hj hterm v))
        (hsince.substitute unread_congr h.ssa hj hterm v)).mono
          fun _ p' hp' => .head (.forward hfw hquiet) hp'
    · split
      · rename_i hc
        simp only [Bool.and_eq_true] at hc
        have how : Overwriting _ b _ _ :=
          ⟨hi, hj, hs, hc.1.1.1.2, hc.1.1.2, hc.1.2, hc.2, hpair⟩
        refine Wp.bind' get_spec ?_
        intro _ _ h
        obtain ⟨rfl, rfl⟩ := h
        exact erase_spec (Wp.pure' (hid ▸ .single (.store how hquiet)))
      · split
        · exact Wp.pure' .refl
        · rename_i hc
          simp only [Bool.or_eq_true, not_or, Bool.not_eq_true] at hc
          refine ih h.tail hI' hacc (hsince.tail h.ssa hj fun hterm => ?_)
          rw [Instr.isQuiet, Bool.or_eq_true]
          rcases hacc _ hj hterm with hphi | hpure | hl | hst | hcall
          · exact .inl hphi
          · exact .inr hpure
          · rw [hc.1.1] at hl; cases hl
          · rw [hc.1.2] at hst; cases hst
          · rw [hc.2] at hcall; cases hcall

/-! The loops. -/

variable {getDomTree : Func → Label → Option (List Label)}

/-- One turn of the instruction loop. -/
theorem cseInst_changes (hD : DomTree getDomTree) (hS : Simplifies simplifyInstruction)
    (hF : p.func.SsaForm) (hacc : p.func.Accesses b) (hn : n ∈ p.func.ids b) :
    Wp (cseInst getDomTree simplifyInstruction b n)
      (fun _ p' => Changes simplifyInstruction p.func p'.func) p := by
  obtain ⟨i, hi, rfl⟩ := mem_ids.mp hn
  refine Wp.bind' (deref_spec hF hi rfl) ?_
  intro i p h
  obtain ⟨rfl, rfl⟩ := h
  refine Wp.bind' get_spec ?_
  intro _ p h
  obtain ⟨rfl, rfl⟩ := h
  split
  · rename_i hd
    exact erase_spec (Wp.pure' (.single (.dead hi hd)))
  · split
    · rename_i v hv
      exact substitute_spec (Wp.pure' (.single (.simplify hi hv)))
    · refine Wp.bind' (basicCSEPass_spec hD hF hi) ?_
      intro _ p₁ h
      obtain ⟨h₁, -⟩ := h
      obtain ⟨hF₁, hs₁⟩ := Merges.ssaForm hF h₁
      have hn₁ := Merges.left hF h₁ hn
      refine Wp.bind' (P := fun _ p₂ => Changes simplifyInstruction p.func p₂.func ∧
          p₂.func.SsaForm ∧ Shrinks p.func p₂.func ∧ i.id ∈ p₂.func.ids b)
        (onlyIf_spec (fun hl => ?_) fun _ => ⟨Merges.changes h₁, hF₁, hs₁, hn₁⟩) ?_
      · refine Wp.bind' get_spec ?_
        intro _ _ h
        obtain ⟨rfl, rfl⟩ := h
        obtain ⟨i', hi', e', hop⟩ := hs₁.inst hF hi hn₁
        have hscan := Scan.own hF₁ isLoad_congr hi' (isLoad_congr hop.symm hl)
        have hI := not_mem_idsAfter hF₁ (mem_ids.mpr ⟨i', hi', rfl⟩)
        rw [← e']
        have hloads : Wp _ (fun _ (p₂ : Pass) => Changes simplifyInstruction _ p₂.func) _ :=
          eliminateRedundantLoads_changes _ hscan hI (Since.own hF₁ hi')
        have hspec : Wp _ (fun _ (p₂ : Pass) => Edits simplifyInstruction _ p₂ ∧ i'.id ∈ p₂.func.ids b) _ :=
          eliminateRedundantLoads_spec _ hscan hI
        refine (hloads.and' hspec).mono ?_
        rintro _ p₂ ⟨hch, hedits, hmem⟩
        obtain ⟨hF₂, hs₂, -⟩ := Edits.ssaForm hS hF₁ hedits
        exact ⟨(Merges.changes h₁).trans hch, hF₂, hs₁.trans hs₂, hmem⟩
      · rintro _ p₂ ⟨hch, hF₂, hs₂, hn₂⟩
        refine Wp.bind' (P := fun _ p₃ => Changes simplifyInstruction p.func p₃.func)
          (onlyIf_spec (fun hst => ?_) fun _ => hch) ?_
        · refine Wp.bind' get_spec ?_
          intro _ _ h
          obtain ⟨rfl, rfl⟩ := h
          obtain ⟨i', hi', e', hop⟩ := hs₂.inst hF hi hn₂
          rw [← e']
          have hstores : Wp _ (fun _ (p₃ : Pass) => Changes simplifyInstruction _ p₃.func) _ :=
            eliminateRedundantStoreCall_changes _
              (Scan.own hF₂ isStore_congr hi' (isStore_congr hop.symm hst))
              (not_mem_idsAfter hF₂ (mem_ids.mpr ⟨i', hi', rfl⟩)) (hacc.shrink hs₂)
              (Since.own hF₂ hi')
          exact hstores.mono fun _ p₃ h => hch.trans h
        · intro moved p₃ h
          split
          · refine Wp.bind' get_spec ?_
            intro _ _ e
            obtain ⟨rfl, rfl⟩ := e
            exact Wp.pure' h
          · exact Wp.pure' h

theorem cseBlock_changes (hD : DomTree getDomTree) (hS : Simplifies simplifyInstruction) (fuel : Nat) :
    ∀ (it : Option Nat) {p : Pass}, p.func.SsaForm → p.func.Accesses b →
      (∀ m, it = some m → m ∈ p.func.ids b ∧ (p.func.idsFrom b m).length ≤ fuel) →
      Wp (cseBlock getDomTree simplifyInstruction b fuel it)
        (fun _ p' => Changes simplifyInstruction p.func p'.func) p := by
  induction fuel with
  | zero =>
    intro it p hF _ hit
    cases it with
    | none => exact Wp.pure' .refl
    | some n =>
      obtain ⟨hn, hlen⟩ := hit n rfl
      obtain ⟨pre, rest, hids⟩ := List.append_of_mem hn
      rw [idsFrom_eq hids (hF.nodup b)] at hlen
      cases hlen
  | succ fuel ih =>
    intro it p hF hacc hit
    cases it with
    | none => exact Wp.pure' .refl
    | some n =>
      obtain ⟨hn, hlen⟩ := hit n rfl
      refine Wp.bind' ((cseInst_changes hD hS hF hacc hn).and' (cseInst_spec hD hS hF hn)) ?_
      rintro it p₁ ⟨h₁, hedits, ha⟩
      obtain ⟨hF₁, hs₁, -⟩ := Edits.ssaForm hS hF hedits
      refine (ih it hF₁ (hacc.shrink hs₁) fun m hm => ⟨(ha m hm).1, ?_⟩).mono fun _ p₂ h₂ => h₁.trans h₂
      have := idsFrom_lt hF hs₁ (ha m hm).1 (ha m hm).2
      omega

theorem Changes.ssaForm (hS : Simplifies simplifyInstruction) (hF : F.SsaForm)
    (h : Changes simplifyInstruction F F') : F'.SsaForm ∧ Shrinks F F' := by
  induction h with
  | refl => exact ⟨hF, Shrinks.refl F⟩
  | tail _ h ih =>
    obtain ⟨hF₁, hs₁⟩ := ih
    obtain ⟨hF₂, hs₂⟩ := h.ssaForm hS hF₁
    exact ⟨hF₂, hs₁.trans hs₂⟩

theorem cseBlocks_changes (hD : DomTree getDomTree) (hS : Simplifies simplifyInstruction) :
    ∀ (blocks : List Label) {p : Pass}, p.func.SsaForm → (∀ b, p.func.Accesses b) →
      Wp (cseBlocks getDomTree simplifyInstruction blocks)
        (fun _ p' => Changes simplifyInstruction p.func p'.func) p
  | [], _, _, _ => Wp.pure' .refl
  | b :: bs, p, hF, hacc => by
    refine Wp.bind' get_spec ?_
    intro _ _ h
    obtain ⟨rfl, rfl⟩ := h
    refine Wp.bind' (cseBlock_changes hD hS _ _ hF (hacc b) fun m hm => ?_) ?_
    · exact ⟨List.mem_of_mem_head? hm, idsFrom_sublist.length_le⟩
    · intro _ p₁ h₁
      obtain ⟨hF₁, hs₁⟩ := Changes.ssaForm hS hF h₁
      exact (cseBlocks_changes hD hS bs hF₁ fun b => (hacc b).shrink hs₁).mono
        fun _ p₂ h₂ => h₁.trans h₂

/-- The functions the pass leaves are what changes make of those it is given. -/
theorem CommonSubexpressionElimination_changes (hD : DomTree getDomTree)
    (hS : Simplifies simplifyInstruction) (mod : Module) : ∀ {p : Pass},
    (∀ F ∈ mod, F.SsaForm ∧ ∀ b, F.Accesses b) →
    Wp (CommonSubexpressionElimination getDomTree simplifyInstruction mod)
      (fun mod' _ => List.Forall₂ (Changes simplifyInstruction) mod mod') p := by
  induction mod with
  | nil => exact fun _ => Wp.pure' .nil
  | cons F rest ih =>
    intro p hmod
    obtain ⟨hF, hacc⟩ := hmod F List.mem_cons_self
    refine Wp.bind' (Wp.modify' (Q := fun _ s => s = _) rfl) ?_
    intro _ _ e
    obtain rfl := e
    refine Wp.bind' (cseBlocks_changes hD hS F.blocks hF hacc) ?_
    intro _ p₁ h₁
    refine Wp.bind' get_spec ?_
    intro _ _ h
    obtain ⟨rfl, rfl⟩ := h
    refine Wp.bind' (ih fun G hG => hmod G (List.mem_cons_of_mem F hG)) ?_
    intro mod' p₂ h
    exact Wp.pure' (.cons h₁ h)

/-- **The CSE pass preserves what a module does.** Take a module whose functions are in SSA form
and made of pure instructions, phis, loads, stores and calls, where no call writes the
memory between a load and a later one of its type in the same block. The pass succeeds,
and every state that a run of a function of the module reaches is matched by one of the
function the pass makes of it, and the other way round: the same path, the same seen
events with the same arguments, the same registers that remain, and at the end of every
block the same memory. -/
theorem CommonSubexpressionElimination_preserves {V M : Type} {S : Sem V M} {HasTy : V → Ty → Prop}
    (hD : DomTree getDomTree) (hs : Simplifies simplifyInstruction)
    (hC : Computes S simplifyInstruction) (hS : S.Memory HasTy) (hR : S.Reads) (mod : Module) (p : Pass)
    (hmod : ∀ F ∈ mod, F.Plain S) :
    ∃ mod' p', (CommonSubexpressionElimination getDomTree simplifyInstruction mod).run p =
        some (mod', p') ∧
      List.Forall₂ (fun F F' => ∀ m, Refines seen S m F F') mod mod' := by
  obtain ⟨mod', p', hrun, h⟩ := CommonSubexpressionElimination_changes hD hs mod (p := p)
    fun F hF => ⟨(hmod F hF).ssa, (hmod F hF).accesses⟩
  refine ⟨mod', p', hrun, ?_⟩
  clear hrun
  induction h with
  | nil => exact .nil
  | cons h _ ih =>
    refine .cons (fun m => ?_) (ih fun G hG => hmod G (List.mem_cons_of_mem _ hG))
    exact (Changes.refines hS hR hs hC (hmod _ List.mem_cons_self) h).2

end

theorem cell_reads : cell.Reads := fun h h' _ => by simp [cell, h, h']

/-- In a memory of one cell, calls and loads leave the cell as it is. -/
theorem cell_undisturbed (F : Func) : F.Undisturbed cell := by
  intro b L j k _ _ _ _ _ _ _ _ _ hck args m
  rw [Bool.or_eq_true] at hck
  rcases hck with hcall | hl
  · have : k.op.opcode = .call := by simpa [isCall, Instr.getOpcode] using hcall
    simp [cell, this]
  · simp [cell, opcode_of_isLoad hl]

theorem oneBlock_plain {l : List Instr} (hF : (oneBlock l).SsaForm)
    (hl : l.all (fun i => !i.isPhi && (i.isTerminator || i.op.opcode.isPure || isLoad i || isStore i ||
      isCall i)) = true) : (oneBlock l).Plain cell := by
  rw [List.all_eq_true] at hl
  refine ⟨hF, fun {b i} hi hphi => ?_, fun b i hi hterm => ?_, cell_undisturbed _⟩
  · have := hl i (oneBlock_insts hi).2
    simp [hphi] at this
  · have := hl i (oneBlock_insts hi).2
    simp only [hterm, Bool.and_eq_true, Bool.or_eq_true, Bool.false_eq_true, false_or] at this
    tauto

theorem CommonSubexpressionElimination_preserves_storeTwice : ∃ mod' p',
    (CommonSubexpressionElimination idomTree (fun _ _ _ => none) [callBetween, storeTwice]).run
        (Pass.start callBetween) = some (mod', p') ∧
      List.Forall₂ (fun F F' => ∀ m, Refines seen cell m F F') [callBetween, storeTwice] mod' :=
  CommonSubexpressionElimination_preserves idomTree_correct simplifies_none computes_none cell_memory
    cell_reads [callBetween, storeTwice] (Pass.start callBetween) (by
      simp only [List.forall_mem_cons, List.not_mem_nil, false_implies, implies_true, and_true]
      exact ⟨oneBlock_plain callBetween_ssaForm (by decide), oneBlock_plain storeTwice_ssaForm (by decide)⟩)

end Ece566.Llvm
