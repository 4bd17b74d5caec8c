import Ece566.LoadElim

/- When redundant-load elimination is right. If no instruction that may write the memory
   stands between `L` and a load it replaces, both read the same; if one does, there are
   calls that make the two loads, and whatever reads the later one, differ. -/
namespace Ece566.Llvm

open Dominance

variable {V M : Type} {S : Sem V M} {F : Func} {b : Label} {L i j k : Instr} {p : Pass}
variable {D : Nat → Bool} {st : State V M}

/-- What a load does. -/
theorem load_own (hl : isLoad i = true) :
    (execInst S i st).regs i.id = some (S.effect i.op (i.args S st.regs) st.mem).1 := by
  rw [execInst_effect (isPhi_of_isLoad hl) (by rw [opcode_of_isLoad hl]; rfl)]
  exact assign_same _ _ _

theorem load_mem (hS : S.Loads) (hl : isLoad i = true) : (execInst S i st).mem = st.mem := by
  rw [execInst_effect (isPhi_of_isLoad hl) (by rw [opcode_of_isLoad hl]; rfl)]
  exact hS.keeps (opcode_of_isLoad hl)

theorem load_log (hl : isLoad i = true) :
    (execInst S i st).log.filterMap storeOrCall = st.log.filterMap storeOrCall := by
  rw [execInst_effect (isPhi_of_isLoad hl) (by rw [opcode_of_isLoad hl]; rfl), List.filterMap_append]
  simp [storeOrCall, opcode_of_isLoad hl]

/-- Instructions that do not write leave the memory alone. -/
theorem runInsts_mem (hS : S.Loads) {l : List Instr} (h : ∀ i ∈ l, i.mayWrite = false) :
    (runInsts S l st).mem = st.mem := by
  induction l generalizing st with
  | nil => rfl
  | cons i l ih =>
    rw [runInsts_cons, ih fun k hk => h k (List.mem_cons_of_mem i hk)]
    have hi := h i List.mem_cons_self
    simp only [Instr.mayWrite, Bool.not_eq_false', Bool.or_eq_true] at hi
    rcases hi with (hphi | hpure) | hl
    · simp [execInst, hphi]
    · simp [execInst, isPhi_of_isPure hpure, hpure]
    · exact load_mem hS hl

/-- A load that reads again what `L` has read, with no write since. -/
theorem Reloaded.value (h : Reloaded F b L j) (hF : F.SsaForm) (hS : S.Loads)
    {pre mid post : List Instr} (hb : F.insts b = pre ++ L :: (mid ++ j :: post))
    (hw : ∀ k ∈ mid, k.mayWrite = false) (ty : Ty) :
    S.value (runInsts S (pre ++ L :: mid) st).regs L.value =
      S.value (execInst S j (runInsts S (pre ++ L :: mid) st)).regs (.inst j.id ty) := by
  have hl := h.reloading.load
  have hlj := h.reloading.right_load
  have hops : L.operands = j.operands := by simpa [sameOperands] using h.reloading.operands
  have hty : L.op.ty = j.op.ty := by simpa [sameType] using h.reloading.type
  have hpost := not_mem_post hF hb
  rw [List.map_append, List.mem_append, not_or] at hpost
  have hLw : L.mayWrite = false := by simp [Instr.mayWrite, hl]
  -- the memory and the address are what they were when `L` ran
  have hmem : (runInsts S (pre ++ L :: mid) st).mem = (runInsts S pre st).mem := by
    rw [runInsts_append]
    refine runInsts_mem hS fun i hi => ?_
    rcases List.mem_cons.mp hi with rfl | hi
    · exact hLw
    · exact hw i hi
  have hargs : j.args S (runInsts S (pre ++ L :: mid) st).regs = L.args S (runInsts S pre st).regs := by
    rw [Instr.args, ← hops]
    exact List.map_congr_left fun o ho => operand_kept hF hb (isPhi_of_isLoad hl) ho
  have hL : S.value (runInsts S (pre ++ L :: mid) st).regs L.value =
      (S.effect L.op (L.args S (runInsts S pre st).regs) (runInsts S pre st).mem).1 := by
    rw [Instr.value, Sem.value, runInsts_own hpost.1, load_own hl]
    rfl
  rw [hL, Sem.value, load_own hlj, hargs, hmem]
  exact hS.reads (opcode_of_isLoad hl) (opcode_of_isLoad hlj) hty

theorem reloaded_replaceable (hD : ∀ z, D z = true ↔ ∃ j, Reloaded F b L j ∧ j.id = z) :
    Replaceable F b D L.value := by
  intro z hz
  obtain ⟨j, hj, e⟩ := (hD z).mp hz
  exact ⟨j, hj.reloading.right, e, hj.reloading.available⟩

/-- Without the loads erased the block runs alike, if nothing that may write stands between `L`
and those that are used. -/
theorem reloaded_alike (hF : F.SsaForm) (hS : S.Loads)
    (hD : ∀ z, D z = true ↔ ∃ j, Reloaded F b L j ∧ j.id = z) {used : Nat → Prop}
    (hw : ∀ j k, Reloaded F b L j → used j.id → k ∈ F.insts b → [L.id, k.id].Sublist (F.ids b) →
      [k.id, j.id].Sublist (F.ids b) → k.mayWrite = false)
    (hu : ∀ i ∈ F.insts b, i.isPhi = false → ∀ z ty, .inst z ty ∈ i.operands → D z = true → used z) :
    Alike storeOrCall S D L.value used (F.ids b) (runInsts S (F.insts b) st)
      (runInsts S ((F.collapse D L.value).insts b) st) := by
  refine collapse_block hF (reloaded_replaceable hD) (fun pre₀ j post hb hj => ?_) hu
  obtain ⟨j', hj', e⟩ := (hD j.id).mp hj
  have hjb : j ∈ F.insts b := by rw [hb]; simp
  obtain rfl := hF.inst_eq hj'.reloading.right hjb e
  have hlj := hj'.reloading.right_load
  refine ⟨load_mem hS hlj, load_log hlj, fun hused ty => ?_⟩
  have hL := (split_pair hF hb).mp hj'.reloading.below
  obtain ⟨L', hL', e'⟩ := List.mem_map.mp hL
  obtain rfl := hF.inst_eq (by rw [hb]; simp [hL']) hj'.reloading.left e'
  obtain ⟨pre, mid, rfl⟩ := List.append_of_mem hL'
  have hb' : F.insts b = pre ++ L' :: (mid ++ j' :: post) := by simp [hb]
  refine hj'.value hF hS hb' (fun k hk => ?_) ty
  have hkb : k ∈ F.insts b := by rw [hb']; simp [hk]
  exact hw j' k hj' hused hkb ((split_after hF hb' hkb).mpr (by simp [hk]))
    ((split_pair hF hb).mpr (List.mem_map_of_mem (by simp [hk])))

/-! Calls that tell the two loads apart. -/

/-- The memory counts the writes, a load reads the count, and every other result keeps the
operands apart. -/
def counting : Sem Nat Nat where
  leaf _ := 0
  undef := 0
  compute _ args := Encodable.encode args
  effect op args m := (Nat.pair m (Encodable.encode args), if op.opcode = .load then m else m + 1)
  branch _ _ _ := 0

theorem counting_loads : counting.Loads where
  keeps h := if_pos h
  reads _ _ _ := rfl

variable {s s' : State Nat Nat} {l : List Instr}

theorem counting_mem : (runInsts counting l s).mem = s.mem + l.countP Instr.mayWrite := by
  induction l generalizing s with
  | nil => rfl
  | cons i l ih =>
    rw [runInsts_cons, ih, List.countP_cons]
    have hstep : (execInst counting i s).mem = s.mem + if i.mayWrite = true then 1 else 0 := by
      cases hphi : i.isPhi with
      | true => simp [execInst, Instr.mayWrite, hphi]
      | false =>
        cases hpure : i.op.opcode.isPure with
        | true => simp [execInst, Instr.mayWrite, hphi, hpure]
        | false =>
          rw [execInst_effect hphi hpure]
          by_cases hl : i.op.opcode = .load <;>
            simp [counting, Instr.mayWrite, hphi, hpure, isLoad, Instr.getOpcode, hl]
    rw [hstep]
    omega

/-- The value an instruction leaves tells its operands. -/
theorem counting_args {v : Value} (hphi : i.isPhi = false)
    (h : (execInst counting (i.collapse D v) s').regs i.id =
      (execInst counting i s).regs i.id) :
    (i.collapse D v).args counting s'.regs = i.args counting s.regs := by
  cases hpure : i.op.opcode.isPure with
  | true =>
    simp only [execInst, collapse_isPhi, hphi, collapse_op, hpure, collapse_id, assign_same,
      Bool.false_eq_true, if_false, if_true, Option.some.injEq] at h
    exact Encodable.encode_injective h
  | false =>
    simp only [execInst, collapse_isPhi, hphi, collapse_op, hpure, collapse_id, assign_same,
      Bool.false_eq_true, if_false, Option.some.injEq] at h
    exact Encodable.encode_injective (Nat.pair_eq_pair.mp h).2

/-- A reader that is left with the same value has read the same. -/
theorem counting_operand {A A' B B' : List Instr} {v o : Value} (hphi : i.isPhi = false)
    (ho : o ∈ i.operands) (hB : i.id ∉ B.map Instr.id) (hB' : i.id ∉ B'.map Instr.id)
    (h : (runInsts counting (A' ++ i.collapse D v :: B') s).regs i.id =
      (runInsts counting (A ++ i :: B) s).regs i.id) :
    counting.value (runInsts counting A' s).regs (o.collapse D v) =
      counting.value (runInsts counting A s).regs o := by
  have hnew : (runInsts counting (A' ++ i.collapse D v :: B') s).regs i.id =
      (execInst counting (i.collapse D v) (runInsts counting A' s)).regs i.id :=
    runInsts_own (i := i.collapse D v) hB'
  rw [runInsts_own hB] at h
  have hargs := counting_args hphi (hnew.symm.trans h)
  rw [Instr.args, Instr.args, collapse_operands, List.map_map] at hargs
  exact List.map_inj_left.mp hargs o ho

/-- The value of a load is the count of the writes before it, with its operands. -/
theorem counting_value {A B : List Instr} (hl : isLoad i = true) (hB : i.id ∉ B.map Instr.id) (ty : Ty) :
    counting.value (runInsts counting (A ++ i :: B) s).regs (.inst i.id ty) =
      Nat.pair (s.mem + A.countP Instr.mayWrite)
        (Encodable.encode (i.args counting (runInsts counting A s).regs)) := by
  rw [Sem.value, runInsts_own hB, load_own hl, ← counting_mem]
  rfl

/-- What is left of a list of instructions. -/
def left (D : Nat → Bool) (v : Value) (l : List Instr) : List Instr :=
  (l.filter fun i => !D i.id).map fun i => i.collapse D v

theorem left_ids {v : Value} {z : Nat} (h : z ∈ (left D v l).map Instr.id) : z ∈ l.map Instr.id := by
  obtain ⟨i', hi', rfl⟩ := List.mem_map.mp h
  obtain ⟨i, hi, rfl⟩ := List.mem_map.mp hi'
  exact List.mem_map.mpr ⟨i, (List.mem_filter.mp hi).1, rfl⟩

theorem left_append {v : Value} (l₁ l₂ : List Instr) :
    left D v (l₁ ++ l₂) = left D v l₁ ++ left D v l₂ := by
  simp [left]

theorem left_cons {v : Value} (h : D i.id = false) :
    left D v (i :: l) = i.collapse D v :: left D v l := by
  simp [left, h]

/-- Erasing loads does not change the count. -/
theorem left_count {v : Value} (h : ∀ i ∈ l, D i.id = true → i.mayWrite = false) :
    (left D v l).countP Instr.mayWrite = l.countP Instr.mayWrite := by
  rw [left, List.countP_map, List.countP_filter]
  refine List.countP_congr fun i hi => ?_
  have hop : (Instr.mayWrite ∘ fun i : Instr => i.collapse D v) i = i.mayWrite := rfl
  rw [hop, Bool.and_eq_true, Bool.not_eq_true']
  refine ⟨And.left, fun hw => ⟨hw, ?_⟩⟩
  rw [← Bool.not_eq_true]
  intro hz
  rw [h i hi hz] at hw
  cases hw

/-- A write between `L` and a load it replaces shows in what reads the load. -/
theorem reloaded_disagree (hF : F.SsaForm) (hD : ∀ z, D z = true ↔ ∃ j, Reloaded F b L j ∧ j.id = z)
    (hj : Reloaded F b L j) (hread : F.ReadIn b j.id) (hk : k ∈ F.insts b)
    (hLk : [L.id, k.id].Sublist (F.ids b)) (hkj : [k.id, j.id].Sublist (F.ids b))
    (hw : k.mayWrite = true) :
    ¬ BlockAgrees storeOrCall counting F b (F.collapse D L.value) s := by
  intro h
  obtain ⟨u, hu, hphi, ty, ho⟩ := hread
  have hl := hj.reloading.load
  have hjb := hj.reloading.right
  -- the block is `pre`, `L`, `mid` with `k` in it, `j`, `q`, `u`, `post`
  obtain ⟨pre₁, post, hb⟩ := List.append_of_mem hu
  obtain ⟨j', hj', e⟩ := List.mem_map.mp (uses_before hF hb hphi ho (mem_ids.mpr ⟨j, hjb, rfl⟩))
  obtain rfl := hF.inst_eq (by rw [hb]; simp [hj']) hjb e
  obtain ⟨pre₂, q, rfl⟩ := List.append_of_mem hj'
  have hb₂ : F.insts b = pre₂ ++ j' :: (q ++ u :: post) := by simp [hb]
  obtain ⟨L', hL', e'⟩ := List.mem_map.mp ((split_pair hF hb₂).mp hj.reloading.below)
  obtain rfl := hF.inst_eq (by rw [hb₂]; simp [hL']) hj.reloading.left e'
  obtain ⟨pre, mid, rfl⟩ := List.append_of_mem hL'
  have hb₃ : F.insts b = pre ++ L' :: (mid ++ j' :: (q ++ u :: post)) := by simp [hb]
  have hk := mem_between hF hb₃ hk hLk hkj
  have hDrel : ∀ {i}, i ∈ F.insts b → D i.id = true → Reloaded F b L' i := by
    intro i hi hz
    obtain ⟨i', hi', e⟩ := (hD i.id).mp hz
    rwa [← hF.inst_eq hi'.reloading.right hi e]
  have hDw : ∀ i ∈ F.insts b, D i.id = true → i.mayWrite = false := by
    intro i hi hz
    simp [Instr.mayWrite, (hDrel hi hz).reloading.right_load]
  have hDL : D L'.id = false := by
    rw [← Bool.not_eq_true]
    intro hz
    exact pair_irrefl (hF.nodup b) (hDrel hj.reloading.left hz).reloading.below
  have hDu : D u.id = false := by
    rw [← Bool.not_eq_true]
    intro hz
    have hops : L'.operands = u.operands := by
      simpa [sameOperands] using (hDrel hu hz).reloading.operands
    exact operand_fresh hF hb₃ (isPhi_of_isLoad hl) (hops ▸ ho) (by simp)
  have hnew : (F.collapse D L'.value).insts b =
      (left D L'.value pre ++ L'.collapse D L'.value :: left D L'.value (mid ++ j' :: q)) ++
        u.collapse D L'.value :: left D L'.value post := by
    show left D L'.value (F.insts b) = _
    rw [hb, left_append, left_cons hDu, List.append_assoc, List.cons_append, left_append, left_cons hDL]
  have hread := h.regs u.id fun hm => by
    rw [collapse_ids, List.mem_filter]
    exact ⟨hm, by simp [hDu]⟩
  rw [hnew, hb] at hread
  have hval := counting_operand hphi ho (not_mem_post hF hb)
    (fun hm => not_mem_post hF hb (left_ids hm)) hread
  -- the one value is that of `j`, the other that of `L`
  have hq : j'.id ∉ q.map Instr.id := fun hm => not_mem_post hF hb₂ (by simp_all)
  have hLq : (L'.collapse D L'.value).id ∉ (left D L'.value (mid ++ j' :: q)).map Instr.id := by
    refine fun hm => not_mem_post hF hb₃ ?_
    have := left_ids hm
    simp only [List.map_append, List.map_cons, List.mem_append, List.mem_cons, collapse_id] at this ⊢
    tauto
  have hDj : D j'.id = true := (hD j'.id).mpr ⟨j', hj, rfl⟩
  have hLval := counting_value (i := L'.collapse D L'.value) (s := s) (A := left D L'.value pre) hl hLq
    L'.op.ty
  rw [collapse_isIn hDj, counting_value hj.reloading.right_load hq] at hval
  have hcount := (Nat.pair_eq_pair.mp (hLval.symm.trans hval)).1
  rw [left_count, List.countP_append, List.countP_cons] at hcount
  · have hpos : 0 < mid.countP Instr.mayWrite := List.countP_pos_iff.mpr ⟨k, hk, hw⟩
    omega
  · exact fun i hi => hDw i (by rw [hb]; simp [hi])

/-- **Redundant-load elimination is right exactly without a write in between.** The scan from a
load `L` succeeds, and it keeps what the block does, for all memories and calls, if and
only if no instruction that may write the memory stands between `L` and a load it erases
that the block reads. -/
theorem eliminateRedundantLoads_agrees_iff (hF : p.func.SsaForm) (hi : L ∈ p.func.insts b)
    (hl : isLoad L = true) :
    ∃ p', (eliminateRedundantLoads b L.id (p.func.idsAfter b L.id)).run p = some (⟨⟩, p') ∧
      ((∀ {V M : Type} (S : Sem V M) (st : State V M), S.Loads →
          BlockAgrees storeOrCall S p.func b p'.func st) ↔
        ∀ j k, Reloaded p.func b L j → p.func.ReadIn b j.id → k ∈ p.func.insts b →
          [L.id, k.id].Sublist (p.func.ids b) → [k.id, j.id].Sublist (p.func.ids b) →
            k.mayWrite = false) := by
  obtain ⟨pre, post, hb⟩ := List.append_of_mem hi
  have hafter : p.func.idsAfter b L.id = post.map Instr.id := by
    rw [Func.idsAfter, idsFrom_eq (split_ids hb) (hF.nodup b)]
    rfl
  have hb' : p.func.insts b = pre ++ L :: ([] ++ post) := hb
  obtain ⟨_, p', hrun, D, hp', hD⟩ := eliminateRedundantLoads_collapse hF hl post (p := p)
    (D := fun _ => false) hb' (by simp) collapse_none.symm (by simp)
  refine ⟨p', hafter ▸ hrun, ?_⟩
  rw [hp']
  refine ⟨?_, ?_⟩
  · intro h j k hj hread hk hLk hkj
    by_contra hw
    rw [Bool.not_eq_false] at hw
    exact reloaded_disagree (s := ⟨fun _ => none, 0, [], []⟩) hF hD hj hread hk hLk hkj hw
      (h counting _ counting_loads)
  · intro hw V M S st hS
    refine Alike.agrees (reloaded_alike hF hS hD hw fun i hi hphi z ty ho _ => ?_) fun z hz => ?_
    · exact ⟨i, hi, hphi, ty, ho⟩
    · obtain ⟨j, hj, rfl⟩ := (hD z).mp hz
      exact mem_ids.mpr ⟨j, hj.reloading.right, rfl⟩

/-- `%1 = load %a`, `%2 = call f`, `%3 = load %a`, `%4 = add %3, 1`, `ret %4`. -/
def callBetween : Func :=
  let load : Op := ⟨.load, 32, [64], false, 0⟩
  oneBlock ([⟨1, load, [.arg 0 64], []⟩, ⟨2, ⟨.call, 0, [], false, 0⟩, [], []⟩,
      ⟨3, load, [.arg 0 64], []⟩, ⟨4, ⟨.add, 32, [32, 32], false, 0⟩, [.inst 3 32, .const 1 32], []⟩] ++
    [⟨5, ⟨.ret, 0, [32], false, 0⟩, [.inst 4 32], []⟩])

theorem callBetween_ssaForm : callBetween.SsaForm :=
  oneBlock_ssaForm (by decide) (by decide) (by decide)

theorem eliminateRedundantLoads_agrees_iff_callBetween :
    ∃ p', (eliminateRedundantLoads 0 1 (callBetween.idsAfter 0 1)).run (Pass.start callBetween) =
        some (⟨⟩, p') ∧
      ((∀ {V M : Type} (S : Sem V M) (st : State V M), S.Loads →
          BlockAgrees storeOrCall S callBetween 0 p'.func st) ↔
        ∀ j k, Reloaded callBetween 0 ⟨1, ⟨.load, 32, [64], false, 0⟩, [.arg 0 64], []⟩ j →
          callBetween.ReadIn 0 j.id → k ∈ callBetween.insts 0 →
            [1, k.id].Sublist (callBetween.ids 0) → [k.id, j.id].Sublist (callBetween.ids 0) →
              k.mayWrite = false) :=
  eliminateRedundantLoads_agrees_iff (p := Pass.start callBetween) (b := 0)
    (L := ⟨1, ⟨.load, 32, [64], false, 0⟩, [.arg 0 64], []⟩) callBetween_ssaForm (by decide) (by decide)

/-- A call between the two loads: the sum is made of the first one. -/
theorem load_across_call : ∃ p', (eliminateRedundantLoads 0 1 (callBetween.idsAfter 0 1)).run
      (Pass.start callBetween) = some (⟨⟩, p') ∧
    ¬ ∀ (V M : Type) (S : Sem V M) (st : State V M), S.Loads →
      BlockAgrees storeOrCall S callBetween 0 p'.func st := by
  refine ⟨_, rfl, fun h => ?_⟩
  have hregs := (h Nat Nat counting ⟨fun _ => none, 0, [], []⟩ counting_loads).regs 4 (by decide)
  exact absurd hregs (by decide)

end Ece566.Llvm
