import Ece566.Collapse
import Ece566.Exec

/- Running one basic block. The passes over loads and stores are about a single block, so
   what they must keep is said of its run from any registers and any memory: the
   registers that are left, the events someone may observe and the memory at the end
   (`BlockAgrees`), and what the instructions left in the function read afterwards
   (`OperandsAgree`). The main lemma is about the edit: instructions that leave the memory
   alone, and whose value another value holds, can be replaced by that value. -/
namespace Ece566.Llvm

open Dominance

variable {V M X : Type}

def runInsts (S : Sem V M) (l : List Instr) (st : State V M) : State V M :=
  l.foldl (fun st i => execInst S i st) st

/-- `F'` is what `F` has become: running block `b` of either from `st` gives the registers
that remain the same values, the same observed events and the same memory. -/
structure BlockAgrees (obs : Event V M → Option X) (S : Sem V M) (F : Func) (b : Label) (F' : Func)
    (st : State V M) : Prop where
  regs : ∀ n, (n ∈ F.ids b → n ∈ F'.ids b) →
    (runInsts S (F'.insts b) st).regs n = (runInsts S (F.insts b) st).regs n
  log : (runInsts S (F'.insts b) st).log.filterMap obs =
    (runInsts S (F.insts b) st).log.filterMap obs
  mem : (runInsts S (F'.insts b) st).mem = (runInsts S (F.insts b) st).mem

/-- After block `b`, the instructions of `F'` read what they read in `F`. -/
def OperandsAgree (S : Sem V M) (F : Func) (b : Label) (F' : Func) (st : State V M) : Prop :=
  ∀ {a u u'}, u ∈ F.insts a → u' ∈ F'.insts a → u'.id = u.id →
    u'.args S (runInsts S (F'.insts b) st).regs = u.args S (runInsts S (F.insts b) st).regs

variable {obs : Event V M → Option X} {S : Sem V M} {F F' G : Func} {b : Label} {i j : Instr}
variable {st s s' : State V M} {z : Nat} {v : Value} {l l₁ l₂ : List Instr}

theorem runInsts_append :
    runInsts S (l₁ ++ l₂) st = runInsts S l₂ (runInsts S l₁ st) := List.foldl_append

theorem runInsts_cons : runInsts S (i :: l) st = runInsts S l (execInst S i st) := rfl

/-- A register that no instruction of the list owns keeps its value. -/
theorem runInsts_regs (h : z ∉ l.map Instr.id) : (runInsts S l st).regs z = st.regs z := by
  induction l generalizing st with
  | nil => rfl
  | cons i l ih =>
    rw [List.map_cons, List.mem_cons, not_or] at h
    rw [runInsts_cons, ih h.2, execInst_regs i st h.1]

/-- The register of an instruction at the end of a list it occurs in once. -/
theorem runInsts_own (h : i.id ∉ l₂.map Instr.id) : (runInsts S (l₁ ++ i :: l₂) st).regs i.id =
    (execInst S i (runInsts S l₁ st)).regs i.id := by
  rw [runInsts_append, runInsts_cons, runInsts_regs h]

/-- What an instruction reads, it would read later in its block too. -/
theorem operand_kept (hF : F.SsaForm) (hb : F.insts b = l₁ ++ i :: (l₂ ++ l)) (hphi : i.isPhi = false)
    {o : Value} (ho : o ∈ i.operands) :
    S.value (runInsts S (l₁ ++ i :: l₂) st).regs o = S.value (runInsts S l₁ st).regs o := by
  rw [runInsts_append]
  refine value_congr fun id ty e => runInsts_regs fun hm => ?_
  subst e
  refine operand_fresh hF hb hphi ho ?_
  rw [List.map_cons, List.map_append, ← List.cons_append, ← List.map_cons]
  exact List.mem_append_left _ hm

theorem value_own (hphi : i.isPhi = false) (hpure : i.op.opcode.isPure = false) (ty : Ty) :
    S.value (execInst S i st).regs (.inst i.id ty) =
      (S.effect i.op (i.args S st.regs) st.mem).1 := by
  simp only [execInst_effect hphi hpure, Sem.value, assign_same, Option.getD_some]

theorem BlockAgrees.refl : BlockAgrees obs S F b F st := ⟨fun _ _ => rfl, rfl, rfl⟩

theorem BlockAgrees.trans (h₁ : BlockAgrees obs S F b F' st) (h₂ : BlockAgrees obs S F' b G st)
    (hs₁ : Shrinks F F') (hs₂ : Shrinks F' G) : BlockAgrees obs S F b G st where
  regs n hn := by
    rw [h₂.regs n fun hn' => hn (hs₁.mem hn'), h₁.regs n fun hn' => hs₂.mem (hn hn')]
  log := h₂.log.trans h₁.log
  mem := h₂.mem.trans h₁.mem

theorem OperandsAgree.refl (hF : F.SsaForm) : OperandsAgree S F b F st := by
  intro a u u' hu hu' e
  rw [hF.inst_eq hu' hu e]

theorem OperandsAgree.trans (h₁ : OperandsAgree S F b F' st) (h₂ : OperandsAgree S F' b G st)
    (hs₂ : Shrinks F' G) : OperandsAgree S F b G st := by
  intro a u u'' hu hu'' e
  obtain ⟨u', hu', e', -⟩ := hs₂.insts hu''
  rw [h₂ hu' hu'' e', h₁ hu hu' (e'.symm.trans e)]

/-! Replacing a set of instructions by a value. -/

section
variable {D : Nat → Bool}

/-- The states of the two runs when the instructions `past` have run, of which one lacks those
in `D`; `used z` says that something is going to read `z`. -/
structure Alike (obs : Event V M → Option X) (S : Sem V M) (D : Nat → Bool) (v : Value)
    (used : Nat → Prop) (past : List Nat) (s s' : State V M) : Prop where
  regs : ∀ {n}, D n = false → s'.regs n = s.regs n
  mem : s'.mem = s.mem
  log : s'.log.filterMap obs = s.log.filterMap obs
  value : ∀ {z}, D z = true → z ∈ past → used z → ∀ ty, S.value s.regs v = S.value s.regs (.inst z ty)

namespace Alike

variable {used : Nat → Prop} {past : List Nat}

/-- Where `v` holds the values of `D`, an operand reads the same. -/
theorem operand (h : Alike obs S D v used past s s') (hv : ¬ v.isIn D) {o : Value}
    (ho : ∀ z ty, o = .inst z ty → D z = true → z ∈ past ∧ used z) :
    S.value s'.regs (o.collapse D v) = S.value s.regs o := by
  have hother : ∀ {w : Value}, ¬ w.isIn D → S.value s'.regs w = S.value s.regs w := by
    intro w hw
    refine value_congr fun z ty e => h.regs ?_
    rw [← Bool.not_eq_true]
    exact fun hz => hw ⟨z, ty, e, hz⟩
  by_cases hin : o.isIn D
  · obtain ⟨z, ty, rfl, hz⟩ := hin
    obtain ⟨hpast, hused⟩ := ho z ty rfl hz
    rw [collapse_isIn hz, hother hv, h.value hz hpast hused ty]
  · rw [collapse_of_not_isIn hin, hother hin]

theorem args (h : Alike obs S D v used past s s') (hv : ¬ v.isIn D)
    (ho : ∀ z ty, .inst z ty ∈ i.operands → D z = true → z ∈ past ∧ used z) :
    (i.collapse D v).args S s'.regs = i.args S s.regs := by
  rw [Instr.args, Instr.args, collapse_operands, List.map_map]
  exact List.map_congr_left fun o hm => h.operand hv fun z ty e => ho z ty (e ▸ hm)

/-- What `v` holds, it holds after an instruction that neither it nor `past` refers to. -/
theorem value_after (h : Alike obs S D v used past s s') (hpast : i.id ∉ past)
    (hi : ∀ z ∈ past, D z = true → ∀ ty, v ≠ .inst i.id ty) {z : Nat} (hz : D z = true)
    (hm : z ∈ past) (hu : used z) (ty : Ty) :
    S.value (execInst S i s).regs v = S.value (execInst S i s).regs (.inst z ty) := by
  have hne : z ≠ i.id := fun e => hpast (e ▸ hm)
  rw [value_congr fun id ty' e => execInst_regs i s fun hid => ?_, h.value hz hm hu ty]
  · simp [Sem.value, execInst_regs i s hne]
  · exact hi z hm hz ty' (hid ▸ e)

/-- One run skips an instruction of `D`. -/
theorem skip (h : Alike obs S D v used past s s') (hD : D i.id = true) (hpast : i.id ∉ past)
    (hi : ∀ ty, v ≠ .inst i.id ty) (hmem : (execInst S i s).mem = s.mem)
    (hlog : (execInst S i s).log.filterMap obs = s.log.filterMap obs)
    (hval : used i.id → ∀ ty, S.value s.regs v = S.value (execInst S i s).regs (.inst i.id ty)) :
    Alike obs S D v used (past ++ [i.id]) (execInst S i s) s' where
  regs {n} hn := by
    have hne : n ≠ i.id := by
      intro e
      obtain rfl := e
      rw [hD] at hn
      cases hn
    rw [h.regs hn, execInst_regs i s hne]
  mem := h.mem.trans hmem.symm
  log := h.log.trans hlog.symm
  value {z} hz hm hu ty := by
    rcases List.mem_append.mp hm with hm | hm
    · exact h.value_after hpast (fun _ _ _ => hi) hz hm hu ty
    · obtain rfl := List.mem_singleton.mp hm
      rw [← hval hu ty]
      exact value_congr fun id ty' e => execInst_regs i s fun hid => hi ty' (hid ▸ e)

/-- Both runs execute an instruction that is not in `D`. -/
theorem step (h : Alike obs S D v used past s s') (hv : ¬ v.isIn D) (hD : D i.id = false)
    (hpast : i.id ∉ past) (hi : ∀ z ∈ past, D z = true → ∀ ty, v ≠ .inst i.id ty)
    (ho : i.isPhi = false → ∀ z ty, .inst z ty ∈ i.operands → D z = true → z ∈ past ∧ used z) :
    Alike obs S D v used (past ++ [i.id]) (execInst S i s) (execInst S (i.collapse D v) s') := by
  have hvalue : ∀ {z}, D z = true → z ∈ past ++ [i.id] → used z → ∀ ty,
      S.value (execInst S i s).regs v = S.value (execInst S i s).regs (.inst z ty) := by
    intro z hz hm hu ty
    rcases List.mem_append.mp hm with hm | hm
    · exact h.value_after hpast hi hz hm hu ty
    · rw [List.mem_singleton.mp hm, hD] at hz
      cases hz
  cases hphi : i.isPhi with
  | true =>
    simp only [execInst, collapse_isPhi, hphi, if_true] at hvalue ⊢
    exact ⟨h.regs, h.mem, h.log, hvalue⟩
  | false =>
    have hargs := h.args hv (ho hphi)
    have hregs : ∀ {x : V} {n}, D n = false → assign s'.regs i.id x n = assign s.regs i.id x n := by
      intro x n hn
      simp [assign, h.regs hn]
    cases hpure : i.op.opcode.isPure with
    | true =>
      simp only [execInst, collapse_isPhi, hphi, collapse_op, hpure, hargs, collapse_id,
        Bool.false_eq_true, if_false, if_true] at hvalue ⊢
      exact ⟨fun hn => hregs hn, h.mem, h.log, hvalue⟩
    | false =>
      simp only [execInst, collapse_isPhi, hphi, collapse_op, hpure, hargs, collapse_id, h.mem,
        Bool.false_eq_true, if_false] at hvalue ⊢
      exact ⟨fun hn => hregs hn, rfl, by rw [List.filterMap_append, List.filterMap_append, h.log],
        hvalue⟩

theorem weaken (h : Alike obs S D v used past s s') : Alike obs S D v used [] s s' :=
  ⟨h.regs, h.mem, h.log, fun _ hm => nomatch hm⟩

/-- Instructions that read nothing of `D` keep the states alike. -/
theorem unread (h : Alike obs S D v used [] s s') (hv : ¬ v.isIn D)
    (hl : ∀ i ∈ l, D i.id = false ∧ ∀ o ∈ i.operands, ¬ o.isIn D) :
    Alike obs S D v used [] (runInsts S l s) (runInsts S l s') := by
  induction l generalizing s s' with
  | nil => exact h
  | cons i l ih =>
    obtain ⟨hD, ho⟩ := hl i List.mem_cons_self
    have hstep := h.step (i := i) hv hD (fun hm => nomatch hm) (fun _ hm => nomatch hm)
      fun _ z ty hz hDz => absurd ⟨z, ty, rfl, hDz⟩ (ho _ hz)
    rw [collapse_eq_self ho] at hstep
    exact ih hstep.weaken fun k hk => hl k (List.mem_cons_of_mem i hk)

/-- At the end of the block. -/
theorem agrees (h : Alike obs S D v used past (runInsts S (F.insts b) st)
    (runInsts S ((F.collapse D v).insts b) st)) (hD : ∀ z, D z = true → z ∈ F.ids b) :
    BlockAgrees obs S F b (F.collapse D v) st where
  regs n hn := by
    refine h.regs ?_
    rw [← Bool.not_eq_true]
    intro hz
    have := hn (hD n hz)
    rw [collapse_ids, List.mem_filter, hz] at this
    exact absurd this.2 (by simp)
  log := h.log
  mem := h.mem

end Alike

/-- Every instruction of `D` is of block `b`, and `v` is available there. -/
def Replaceable (F : Func) (b : Label) (D : Nat → Bool) (v : Value) : Prop :=
  ∀ z, D z = true → ∃ j ∈ F.insts b, j.id = z ∧ F.Available v b j

theorem Replaceable.not_isIn (hD : Replaceable F b D v) (hF : F.SsaForm) : ¬ v.isIn D := by
  intro ⟨z, ty, e, hz⟩
  obtain ⟨j, hj, rfl, hv⟩ := hD z hz
  obtain ⟨a, d, hd, hid, -, -, hbef⟩ := hv.2 _ _ e
  obtain rfl := hF.unique (mem_ids.mpr ⟨d, hd, hid⟩) (mem_ids.mpr ⟨j, hj, rfl⟩)
  exact Before.irrefl hF.nodup hbef

/-- What the instructions left read at the end of the block. -/
theorem Alike.operandsAgree {used : Nat → Prop} (h : Alike obs S D v used (F.ids b)
    (runInsts S (F.insts b) st) (runInsts S ((F.collapse D v).insts b) st)) (hF : F.SsaForm)
    (hD : Replaceable F b D v)
    (hu : ∀ a, ∀ i ∈ F.insts a, ∀ z ty, .inst z ty ∈ i.operands → D z = true → used z) :
    OperandsAgree S F b (F.collapse D v) st := by
  intro a u u' hu₁ hu₂ e
  obtain ⟨k, hk, -, rfl⟩ := mem_collapse.mp hu₂
  obtain rfl := hF.inst_eq hk hu₁ e
  refine h.args (hD.not_isIn hF) fun z ty ho hz => ⟨?_, hu a k hk z ty ho hz⟩
  obtain ⟨j, hj, rfl, -⟩ := hD z hz
  exact mem_ids.mpr ⟨j, hj, rfl⟩

/-- **The edit in a block.** If in the run from `st` the instructions of `D` leave the memory and
what is observed alone, and `v` holds the values of those that are used, the block without
them runs alike, from any state alike. -/
theorem collapse_block_from (hF : F.SsaForm) (hD : Replaceable F b D v) {used : Nat → Prop}
    {st' : State V M} (h₀ : Alike obs S D v used [] st st')
    (hq : ∀ pre j post, F.insts b = pre ++ j :: post → D j.id = true →
      (execInst S j (runInsts S pre st)).mem = (runInsts S pre st).mem ∧
        (execInst S j (runInsts S pre st)).log.filterMap obs =
          (runInsts S pre st).log.filterMap obs ∧
        (used j.id → ∀ ty, S.value (runInsts S pre st).regs v =
          S.value (execInst S j (runInsts S pre st)).regs (.inst j.id ty)))
    (hu : ∀ i ∈ F.insts b, i.isPhi = false → ∀ z ty, .inst z ty ∈ i.operands → D z = true → used z) :
    Alike obs S D v used (F.ids b) (runInsts S (F.insts b) st)
      (runInsts S ((F.collapse D v).insts b) st') := by
  have hv := hD.not_isIn hF
  have key : ∀ (rest pre : List Instr) (s' : State V M), F.insts b = pre ++ rest →
      Alike obs S D v used (pre.map Instr.id) (runInsts S pre st) s' →
      Alike obs S D v used (F.ids b) (runInsts S (F.insts b) st)
        (runInsts S ((rest.filter fun i => !D i.id).map fun i => i.collapse D v) s') := by
    intro rest
    induction rest with
    | nil =>
      intro pre s' hb h
      rw [List.append_nil] at hb
      rw [Func.ids, hb]
      exact h
    | cons i rest ih =>
      intro pre s' hb h
      have hpast : i.id ∉ pre.map Instr.id := by
        have hnd := hF.nodup b
        rw [Func.ids, hb, List.map_append, List.map_cons, List.nodup_append] at hnd
        exact fun hm => hnd.2.2 _ hm _ List.mem_cons_self rfl
      have hb' : F.insts b = (pre ++ [i]) ++ rest := by simp [hb]
      have hids : (pre ++ [i]).map Instr.id = pre.map Instr.id ++ [i.id] := by simp
      have hrun : runInsts S (pre ++ [i]) st = execInst S i (runInsts S pre st) := runInsts_append
      cases hDi : D i.id with
      | true =>
        obtain ⟨hmem, hlog, hval⟩ := hq pre i rest hb hDi
        obtain ⟨j, hj, hid, hav⟩ := hD i.id hDi
        obtain rfl := hF.inst_eq hj (by rw [hb]; simp) hid
        have hfresh := available_fresh hF hb hav j List.mem_cons_self
        rw [List.filter_cons_of_neg (by simp [hDi])]
        exact ih (pre ++ [j]) s' hb' (hids ▸ hrun ▸ h.skip hDi hpast hfresh hmem hlog hval)
      | false =>
        have hfresh : ∀ z ∈ pre.map Instr.id, D z = true → ∀ ty, v ≠ .inst i.id ty := by
          intro z hz hDz
          obtain ⟨j, hj, rfl⟩ := List.mem_map.mp hz
          obtain ⟨l₁, l₂, rfl⟩ := List.append_of_mem hj
          obtain ⟨j', hj', hid, hav⟩ := hD j.id hDz
          obtain rfl := hF.inst_eq hj' (by rw [hb]; simp) hid
          rw [List.append_assoc, List.cons_append] at hb
          exact available_fresh hF hb hav i (by simp)
        have hops : i.isPhi = false → ∀ z ty, .inst z ty ∈ i.operands → D z = true →
            z ∈ pre.map Instr.id ∧ used z := by
          intro hphi z ty ho hz
          obtain ⟨j, hj, hid, -⟩ := hD z hz
          exact ⟨uses_before hF hb hphi ho (mem_ids.mpr ⟨j, hj, hid⟩),
            hu i (by rw [hb]; simp) hphi z ty ho hz⟩
        rw [List.filter_cons_of_pos (by simp [hDi]), List.map_cons, runInsts_cons]
        exact ih (pre ++ [i]) _ hb' (hids ▸ hrun ▸ h.step hv hDi hpast hfresh hops)
  exact key (F.insts b) [] st' rfl h₀

theorem collapse_block (hF : F.SsaForm) (hD : Replaceable F b D v) {used : Nat → Prop}
    (hq : ∀ pre j post, F.insts b = pre ++ j :: post → D j.id = true →
      (execInst S j (runInsts S pre st)).mem = (runInsts S pre st).mem ∧
        (execInst S j (runInsts S pre st)).log.filterMap obs =
          (runInsts S pre st).log.filterMap obs ∧
        (used j.id → ∀ ty, S.value (runInsts S pre st).regs v =
          S.value (execInst S j (runInsts S pre st)).regs (.inst j.id ty)))
    (hu : ∀ i ∈ F.insts b, i.isPhi = false → ∀ z ty, .inst z ty ∈ i.operands → D z = true → used z) :
    Alike obs S D v used (F.ids b) (runInsts S (F.insts b) st)
      (runInsts S ((F.collapse D v).insts b) st) :=
  collapse_block_from hF hD ⟨fun _ => rfl, rfl, rfl, fun _ hm => nomatch hm⟩ hq hu

end

end Ece566.Llvm
