import Ece566.CseSteps

/- The sub-passes succeed, and what they do is a sequence of edits. A scan carries that
   the instruction it compares with is still there, and that those it has yet to visit
   are still there and below it. -/
namespace Ece566.Llvm

open Dominance Relation

variable {F F' : Func} {b bb : Label} {I n : Nat} {i j : Instr} {p p' : Pass} {v : Value}

/-- LLVM's dominator tree: every reachable block has a node, whose children are the blocks
it immediately dominates. -/
def DomTree (getDomTree : Func → Label → Option (List Label)) : Prop :=
  ∀ {F : Func} {b}, F.SsaForm → b ∈ F.blocks → Reach F.Edge F.entry b →
    ∃ children, getDomTree F b = some children ∧
      ∀ c, c ∈ children ↔ c ∈ F.blocks ∧ Idom F.Edge F.entry b c

open Classical in
/-- The dominator tree by its definition. -/
noncomputable def idomTree (F : Func) (b : Label) : Option (List Label) :=
  some (F.blocks.filter fun c => Idom F.Edge F.entry b c)

theorem idomTree_correct : DomTree idomTree := fun _ _ _ =>
  ⟨_, rfl, fun c => by simp⟩

/-- What a scan of block `bb` for instruction `I` of block `b`, with `ns` yet to visit, relies
on; `P` is what it needs to know of `I`. -/
structure Scan (P : Instr → Prop) (F : Func) (b : Label) (I : Nat) (bb : Label) (ns : List Nat) :
    Prop where
  ssa : F.SsaForm
  congr : ∀ {i j}, i.op = j.op → P i → P j
  left : ∃ i ∈ F.insts b, i.id = I ∧ P i
  right : ∀ n ∈ ns, n ∈ F.ids bb
  nodup : ns.Nodup
  below : ∀ n ∈ ns, n ≠ I →
    (b = bb ∧ [I, n].Sublist (F.ids bb)) ∨ Idom F.Edge F.entry b bb

namespace Scan

variable {P : Instr → Prop} {ns : List Nat}

theorem tail (h : Scan P F b I bb (n :: ns)) : Scan P F b I bb ns where
  ssa := h.ssa
  congr := h.congr
  left := h.left
  right m hm := h.right m (List.mem_cons_of_mem n hm)
  nodup := (List.nodup_cons.mp h.nodup).2
  below m hm := h.below m (List.mem_cons_of_mem n hm)

theorem shrink (h : Scan P F b I bb ns) (hs : Shrinks F F') (hF' : F'.SsaForm)
    (hI : I ∈ F'.ids b) (hns : ∀ n ∈ ns, n ∈ F'.ids bb) : Scan P F' b I bb ns where
  ssa := hF'
  congr := h.congr
  left := by
    obtain ⟨i, hi, rfl, hP⟩ := h.left
    obtain ⟨i', hi', e, eop⟩ := hs.inst h.ssa hi hI
    exact ⟨i', hi', e, h.congr eop.symm hP⟩
  right := hns
  nodup := h.nodup
  below m hm hne := by
    rcases h.below m hm hne with ⟨rfl, hsub⟩ | hd
    · exact .inl ⟨rfl, hs.pair hsub hI (hns m hm)⟩
    · exact .inr (by rw [hs.edge, hs.entry]; exact hd)

/-- The instruction just visited is replaced. -/
theorem substitute (h : Scan P F b I bb (n :: ns)) (hne : n ≠ I) (hj : j ∈ F.insts bb)
    (hid : j.id = n) (hterm : j.isTerminator = false) (hv : F.Available v bb j) :
    Scan P (F.substitute n v) b I bb ns := by
  subst hid
  refine h.tail.shrink (h.ssa.substitute_shrinks hj hterm v) (h.ssa.substitute hj hterm hv) ?_ ?_
  · obtain ⟨i, hi, rfl, -⟩ := h.left
    exact mem_substitute_ids.mpr ⟨mem_ids.mpr ⟨i, hi, rfl⟩, Ne.symm hne⟩
  · intro m hm
    refine mem_substitute_ids.mpr ⟨h.right m (List.mem_cons_of_mem _ hm), ?_⟩
    intro e
    obtain rfl := e
    exact (List.nodup_cons.mp h.nodup).1 hm

end Scan

/-! The primitives. -/

theorem get_spec {σ : Type} {s : σ} :
    Wp (get : StateT σ Option σ) (fun a s' => a = s ∧ s' = s) s := Wp.get' ⟨rfl, rfl⟩

theorem onlyIf_spec {σ α : Type} {s : σ} {c : Bool} {otherwise : α} {x : StateT σ Option α}
    {Q : α → σ → Prop} (h : c = true → Wp x Q s) (h' : c = false → Q otherwise s) :
    Wp (onlyIf c otherwise x) Q s := by
  cases c with
  | true => exact h rfl
  | false => exact Wp.pure' (h' rfl)

theorem deref_spec (hF : p.func.SsaForm) (hi : i ∈ p.func.insts b) (hid : i.id = n) :
    Wp (deref b n) (fun j s => j = i ∧ s = p) p := by
  subst hid
  refine Wp.bind' get_spec ?_
  intro _ _ h
  obtain ⟨rfl, rfl⟩ := h
  rw [hF.inst?_eq hi]
  exact Wp.pure' ⟨rfl, rfl⟩

theorem substitute_spec {α : Type} {z : Nat} {g : Pass → Pass} {k : Cse α}
    {Q : α → Pass → Prop} (h : Wp k Q (g (p.become (p.func.substitute z v)))) :
    Wp (do replaceAllUsesWith z v; eraseFromParent z; modify g; k) Q p := by
  refine Wp.bind' (Wp.modify' (Q := fun _ s => s = _) rfl) ?_
  intro _ _ e
  obtain rfl := e
  refine Wp.bind' (Wp.modify' (Q := fun _ s => s = _) rfl) ?_
  intro _ _ e
  obtain rfl := e
  refine Wp.bind' (Wp.modify' (Q := fun _ s => s = _) rfl) ?_
  intro _ _ e
  obtain rfl := e
  exact h

theorem erase_spec {α : Type} {z : Nat} {g : Pass → Pass} {k : Cse α} {Q : α → Pass → Prop}
    (h : Wp k Q (g (p.become (p.func.eraseFromParent z)))) :
    Wp (do eraseFromParent z; modify g; k) Q p := by
  refine Wp.bind' (Wp.modify' (Q := fun _ s => s = _) rfl) ?_
  intro _ _ e
  obtain rfl := e
  refine Wp.bind' (Wp.modify' (Q := fun _ s => s = _) rfl) ?_
  intro _ _ e
  obtain rfl := e
  exact h

/-! Merging. -/

abbrev Works (i : Instr) : Prop := shouldCSEworkOnInstruction i = true

theorem works_congr (h : i.op = j.op) (hw : Works i) : Works j := by
  unfold Works shouldCSEworkOnInstruction Instr.isTerminator Instr.getOpcode at hw ⊢
  rwa [← h]

/-- Merges keep SSA form. -/
theorem Merges.ssaForm (hF : p.func.SsaForm) (h : ReflTransGen (Merge b I) p p') :
    p'.func.SsaForm ∧ Shrinks p.func p'.func := by
  obtain ⟨h₁, h₂, -⟩ := Edits.ssaForm simplifies_none hF (h.lift id fun _ _ hm => Edit.merge hm)
  exact ⟨h₁, h₂⟩

/-- Merges with `I` leave `I`. -/
theorem Merges.left (hF : p.func.SsaForm) (h : ReflTransGen (Merge b I) p p')
    (hI : I ∈ p.func.ids b) : I ∈ p'.func.ids b := by
  induction h with
  | refl => exact hI
  | tail h₁ h ih =>
    obtain ⟨hid, hm⟩ := h
    obtain ⟨hF₁, -⟩ := Merges.ssaForm hF h₁
    refine mem_substitute_ids.mpr ⟨ih, ?_⟩
    intro e
    obtain rfl := e
    have hb := hm.before
    rw [hid] at hb
    obtain rfl := hF₁.unique ih (mem_ids.mpr ⟨_, hm.right, rfl⟩)
    exact Dominance.Before.irrefl hF₁.nodup hb

/-- Replacing uses keeps identical instructions identical. -/
theorem identical_replace {z : Nat} (h : i.isIdenticalTo j = true) :
    (i.replace z v).isIdenticalTo (j.replace z v) = true := by
  rw [isIdenticalTo_iff] at h ⊢
  simpa [Instr.replace, h.2.2.2.2.1] using h

/-- Instructions identical to `I` stay so through merges, as long as they are there. -/
theorem Merges.identical (hF : p.func.SsaForm) (h : ReflTransGen (Merge b I) p p')
    (hi : i ∈ p.func.insts b) (hid : i.id = I) (hj : j ∈ p.func.insts bb)
    (he : i.isIdenticalTo j = true) (hleft : j.id ∈ p'.func.ids bb) :
    ∃ i' ∈ p'.func.insts b, i'.id = I ∧
      ∃ j' ∈ p'.func.insts bb, j'.id = j.id ∧ i'.isIdenticalTo j' = true := by
  have hI := Merges.left hF h (mem_ids.mpr ⟨i, hi, hid⟩)
  induction h with
  | refl => exact ⟨i, hi, hid, j, hj, rfl, he⟩
  | tail h₁ h ih =>
    obtain ⟨-, hm⟩ := h
    obtain ⟨hjleft, hjz⟩ := mem_substitute_ids.mp hleft
    obtain ⟨i', hi', hid', j', hj', hjd', he'⟩ := ih hjleft (mem_substitute_ids.mp hI).1
    refine ⟨_, mem_substitute.mpr ⟨i', hi', ?_, rfl⟩, hid',
      _, mem_substitute.mpr ⟨j', hj', ?_, rfl⟩, hjd', identical_replace he'⟩
    · exact hid' ▸ (mem_substitute_ids.mp hI).2
    · exact hjd' ▸ hjz

/-- From `p` to `p'`, every instruction among `ns` of block `bb` that is identical to `I` is
erased. -/
def Cleared (b : Label) (I : Nat) (bb : Label) (ns : List Nat) (p p' : Pass) : Prop :=
  ∀ i ∈ p.func.insts b, i.id = I → ∀ j ∈ p.func.insts bb, j.id ∈ ns → j.id ≠ I →
    i.isIdenticalTo j = true → j.id ∉ p'.func.ids bb

/-- What is erased later was there and identical, or was erased before. -/
theorem Cleared.after {ns ns' : List Nat} {p₁ : Pass} (hF : p.func.SsaForm)
    (h₁ : ReflTransGen (Merge b I) p p₁) (h₂ : ReflTransGen (Merge b I) p₁ p')
    (hns : ∀ n ∈ ns, n ∈ p₁.func.ids bb → n ∈ ns') (hc : Cleared b I bb ns' p₁ p') :
    Cleared b I bb ns p p' := by
  intro i hi hid j hj hjn hne he hleft
  have hj₁ := (Merges.ssaForm (Merges.ssaForm hF h₁).1 h₂).2.mem hleft
  obtain ⟨i', hi', hid', j', hj', hjd', he'⟩ := Merges.identical hF h₁ hi hid hj he hj₁
  exact hc i' hi' hid' j' hj' (hjd' ▸ hns _ hjn hj₁) (hjd' ▸ hne) he' (hjd' ▸ hleft)

theorem Cleared.shrink {ns : List Nat} {p₁ : Pass} (hc : Cleared b I bb ns p p₁)
    (hs : Shrinks p₁.func p'.func) : Cleared b I bb ns p p' :=
  fun i hi hid j hj hjn hne he hleft => hc i hi hid j hj hjn hne he (hs.mem hleft)

theorem removeCommonInstructionsIn_spec : ∀ (ns : List Nat) {p : Pass},
    Scan Works p.func b I bb ns →
    Wp (removeCommonInstructionsIn b I bb ns)
      (fun _ p' => ReflTransGen (Merge b I) p p' ∧ Cleared b I bb ns p p') p
  | [], _, _ => Wp.pure' ⟨.refl, fun _ _ _ _ _ hn => nomatch hn⟩
  | n :: ns, p, h => by
    obtain ⟨i, hi, hid, hw⟩ := h.left
    obtain ⟨j, hj, rfl⟩ := mem_ids.mp (h.right n List.mem_cons_self)
    refine Wp.bind' (deref_spec h.ssa hi hid) ?_
    intro _ _ h
    obtain ⟨rfl, rfl⟩ := h
    refine Wp.bind' (deref_spec h.ssa hj rfl) ?_
    intro _ _ h
    obtain ⟨rfl, rfl⟩ := h
    split
    · rename_i hc
      simp only [Bool.and_eq_true, bne_iff_ne] at hc
      have hm : Merging _ b _ bb _ :=
        ⟨hi, hj, hw, hc.2, by rw [hid]; exact h.below _ List.mem_cons_self (Ne.symm hc.1)⟩
      refine substitute_spec ?_
      refine (removeCommonInstructionsIn_spec ns
        (h.substitute (Ne.symm hc.1) hj rfl hm.right_not_terminator hm.available)).mono ?_
      intro _ p' h'
      obtain ⟨hp', hcl⟩ := h'
      -- the one erased is not among those still to visit
      refine ⟨.head (.mk hid hm) hp', hcl.after h.ssa (.single (.mk hid hm)) hp' ?_⟩
      intro m hm' hleft
      exact (List.mem_cons.mp hm').resolve_left (mem_substitute_ids.mp hleft).2
    · rename_i hc
      refine (removeCommonInstructionsIn_spec ns h.tail).mono fun _ p' h' => ⟨h'.1, ?_⟩
      intro i' hi' hid' j' hj' hjn hne he
      refine h'.2 i' hi' hid' j' hj' ((List.mem_cons.mp hjn).resolve_left fun e => hc ?_) hne he
      obtain rfl := h.ssa.inst_eq hi' hi (hid'.trans hid.symm)
      obtain rfl := h.ssa.inst_eq hj' hj e
      simp [he, Ne.symm hne]

/-- After merges, any block below is scanned afresh. -/
theorem Scan.child {P : Instr → Prop} (hF : F.SsaForm)
    (hcongr : ∀ {i j : Instr}, i.op = j.op → P i → P j) (hi : i ∈ F.insts b) (hP : P i)
    (hd : Idom F.Edge F.entry b bb) :
    Scan P F b i.id bb (F.ids bb) :=
  ⟨hF, hcongr, ⟨i, hi, rfl, hP⟩, fun _ h => h, hF.nodup bb, fun _ _ _ => .inr hd⟩

theorem removeCommonInBlocks_spec : ∀ (children : List Label) {p : Pass}, p.func.SsaForm →
    (∃ i ∈ p.func.insts b, i.id = I ∧ Works i) →
    (∀ c ∈ children, Idom p.func.Edge p.func.entry b c) →
    Wp (removeCommonInBlocks b I children) (fun _ p' => ReflTransGen (Merge b I) p p' ∧
      ∀ c ∈ children, Cleared b I c (p.func.ids c) p p') p
  | [], _, _, _, _ => Wp.pure' ⟨.refl, fun _ hc => nomatch hc⟩
  | c :: cs, p, hF, ⟨i, hi, hid, hw⟩, hc => by
    refine Wp.bind' get_spec ?_
    intro _ _ h
    obtain ⟨rfl, rfl⟩ := h
    have hscan : Scan Works _ b i.id c _ := Scan.child hF works_congr hi hw (hc c List.mem_cons_self)
    rw [hid] at hscan
    refine Wp.bind' (removeCommonInstructionsIn_spec _ hscan) ?_
    intro _ p₁ h
    obtain ⟨h₁, hcl⟩ := h
    obtain ⟨hF₁, hs₁⟩ := Merges.ssaForm hF h₁
    have hI : i.id ∈ p₁.func.ids b := hid ▸ Merges.left hF h₁ (mem_ids.mpr ⟨i, hi, hid⟩)
    obtain ⟨i', hi', hid', hop⟩ := hs₁.inst hF hi hI
    refine (removeCommonInBlocks_spec cs hF₁ ⟨i', hi', hid'.trans hid, works_congr hop.symm hw⟩
      fun c' hc' => ?_).mono fun _ p₂ h => ?_
    · rw [hs₁.edge, hs₁.entry]
      exact hc c' (List.mem_cons_of_mem c hc')
    · obtain ⟨h₂, hcls⟩ := h
      refine ⟨h₁.trans h₂, List.forall_mem_cons.mpr ⟨?_, fun c' hc' => ?_⟩⟩
      · exact hcl.shrink (Merges.ssaForm hF₁ h₂).2
      · exact (hcls c' hc').after hF h₁ h₂ fun _ _ hn => hn

/-- The instructions after one, in a block. -/
theorem idsFrom_eq {pre rest : List Nat} (hids : F.ids b = pre ++ n :: rest)
    (hnd : (F.ids b).Nodup) : F.idsFrom b n = n :: rest := by
  have hpre : ∀ m ∈ pre, m != n := by
    intro m hm
    rw [hids, List.nodup_append] at hnd
    simpa using hnd.2.2 m hm n List.mem_cons_self
  rw [Func.idsFrom, hids, List.dropWhile_append_of_pos hpre, List.dropWhile_cons_of_neg (by simp)]

theorem mem_idsAfter (hF : F.SsaForm) (hn : n ∈ F.ids b) {m : Nat} (hm : m ∈ F.idsAfter b n) :
    [n, m].Sublist (F.ids b) := by
  obtain ⟨pre, rest, hids⟩ := List.append_of_mem hn
  rw [Func.idsAfter, idsFrom_eq hids (hF.nodup b), List.tail_cons] at hm
  rw [hids]
  exact ((List.singleton_sublist.mpr hm).cons_cons n).trans (List.sublist_append_right _ _)

/-- What stands after an instruction is among those from it on. -/
theorem mem_idsFrom (hF : F.SsaForm) {m : Nat} (h : [n, m].Sublist (F.ids b)) : m ∈ F.idsFrom b n := by
  obtain ⟨pre, rest, hids⟩ := List.append_of_mem (pair_mem h).1
  have hnd := hF.nodup b
  have hm := (pair_mem h).2
  rw [idsFrom_eq hids hnd]
  rw [hids] at h hm hnd
  refine (List.mem_append.mp hm).resolve_left fun hpre => ?_
  exact pair_irrefl hnd (pair_trans hnd h ((pair_iff hnd).mpr hpre))

theorem idsFrom_sublist : (F.idsFrom b n).Sublist (F.ids b) := List.dropWhile_sublist _

/-- The scan of `I`'s own block, from `I` on and after it. -/
theorem Scan.ownFrom {P : Instr → Prop} (hF : F.SsaForm)
    (hcongr : ∀ {i j : Instr}, i.op = j.op → P i → P j) (hi : i ∈ F.insts b) (hP : P i) :
    Scan P F b i.id b (F.idsFrom b i.id) where
  ssa := hF
  congr := hcongr
  left := ⟨i, hi, rfl, hP⟩
  right _ hn := idsFrom_sublist.subset hn
  nodup := idsFrom_sublist.nodup (hF.nodup b)
  below m hm hne := by
    have hmem : i.id ∈ F.ids b := mem_ids.mpr ⟨i, hi, rfl⟩
    obtain ⟨pre, rest, hids⟩ := List.append_of_mem hmem
    refine .inl ⟨rfl, mem_idsAfter hF hmem ?_⟩
    rw [idsFrom_eq hids (hF.nodup b)] at hm
    rw [Func.idsAfter, idsFrom_eq hids (hF.nodup b)]
    exact (List.mem_cons.mp hm).resolve_left hne

theorem Scan.own {P : Instr → Prop} (hF : F.SsaForm)
    (hcongr : ∀ {i j : Instr}, i.op = j.op → P i → P j) (hi : i ∈ F.insts b) (hP : P i) :
    Scan P F b i.id b (F.idsAfter b i.id) := by
  have h := Scan.ownFrom hF hcongr hi hP
  obtain ⟨pre, rest, hids⟩ := List.append_of_mem (mem_ids.mpr ⟨i, hi, rfl⟩)
  rw [Func.idsAfter]
  rw [idsFrom_eq hids (hF.nodup b)] at h ⊢
  exact h.tail

/-- Where the scans for instruction `I` of block `b` go: over what stands after it, and over the
blocks that `b` immediately dominates. -/
def Func.Scanned (F : Func) (b : Label) (I : Nat) (bb : Label) (n : Nat) : Prop :=
  (b = bb ∧ [I, n].Sublist (F.ids b)) ∨ Idom F.Edge F.entry b bb

section
variable {getDomTree : Func → Label → Option (List Label)}

/-- `basicCSEPass` succeeds and only merges, and it leaves nothing identical where it scans. -/
theorem basicCSEPass_spec (hD : DomTree getDomTree) (hF : p.func.SsaForm)
    (hi : i ∈ p.func.insts b) :
    Wp (basicCSEPass getDomTree b i.id) (fun _ p' => ReflTransGen (Merge b i.id) p p' ∧
      (Works i → ∀ bb, ∀ j ∈ p.func.insts bb, p.func.Scanned b i.id bb j.id →
        i.isIdenticalTo j = true → j.id ∉ p'.func.ids bb)) p := by
  refine Wp.bind' (deref_spec hF hi rfl) ?_
  intro _ _ h
  obtain ⟨rfl, rfl⟩ := h
  split
  · rename_i hw
    refine Wp.bind' get_spec ?_
    intro _ _ h
    obtain ⟨rfl, rfl⟩ := h
    refine Wp.bind' (removeCommonInstructionsIn_spec _ (Scan.ownFrom hF works_congr hi hw)) ?_
    intro _ p₁ h
    obtain ⟨h₁, hown⟩ := h
    obtain ⟨hF₁, hs₁⟩ := Merges.ssaForm hF h₁
    obtain ⟨i', hi', hid', hop⟩ :=
      hs₁.inst hF hi (Merges.left hF h₁ (mem_ids.mpr ⟨_, hi, rfl⟩))
    have hne := List.ne_nil_of_mem hi'
    obtain ⟨children, hch, hdom⟩ := hD hF₁ (hF₁.listed hne) (hF₁.reachable hne)
    refine Wp.bind' get_spec ?_
    intro _ _ h
    obtain ⟨rfl, rfl⟩ := h
    rw [hch]
    refine (removeCommonInBlocks_spec children hF₁ ⟨i', hi', hid', works_congr hop.symm hw⟩
      fun c hc => ((hdom c).mp hc).2).mono fun _ p₂ h => ?_
    obtain ⟨h₂, hchildren⟩ := h
    refine ⟨h₁.trans h₂, fun _ bb j hj hscanned he => ?_⟩
    rcases hscanned with ⟨rfl, hs⟩ | hd
    · exact hown.shrink (Merges.ssaForm hF₁ h₂).2 _ hi rfl j hj (mem_idsFrom hF hs)
        (fun e => pair_irrefl (hF.nodup _) (e ▸ hs)) he
    · have hbb : bb ∈ children := by
        refine (hdom bb).mpr ⟨?_, by rw [hs₁.edge, hs₁.entry]; exact hd⟩
        exact hs₁.blocks ▸ hF.listed (List.ne_nil_of_mem hj)
      refine (hchildren bb hbb).after hF h₁ h₂ (fun _ _ hn => hn) _ hi rfl j hj
        (mem_ids.mpr ⟨j, hj, rfl⟩) (fun e => hd.1 ?_) he
      exact hF.unique (mem_ids.mpr ⟨_, hi, e.symm⟩) (mem_ids.mpr ⟨j, hj, rfl⟩)
  · rename_i hw
    exact Wp.pure' ⟨.refl, fun h => absurd h hw⟩

end

/-! A function to run the pass on. -/

/-- `%1 = add %a, %b`, `%2 = add %a, %b`, `ret %2`. -/
def addTwice : Func :=
  let add : Op := ⟨.add, 32, [32, 32], false, 0⟩
  oneBlock ([⟨1, add, [.arg 0 32, .arg 1 32], []⟩, ⟨2, add, [.arg 0 32, .arg 1 32], []⟩] ++
    [⟨3, ⟨.ret, 0, [32], false, 0⟩, [.inst 2 32], []⟩])

theorem addTwice_ssaForm : addTwice.SsaForm :=
  oneBlock_ssaForm (by decide) (by decide) (by decide)

end Ece566.Llvm
