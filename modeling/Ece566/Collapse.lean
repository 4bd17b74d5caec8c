import Ece566.CseRuns

/- Putting one value in place of a set of instructions. The scans over loads make one
   substitution after another, all of them with the same value; here they are one edit. -/
namespace Ece566.Llvm

open Dominance

def Value.collapse (o : Value) (D : Nat → Bool) (v : Value) : Value :=
  match o with
  | .inst id ty => if D id then v else .inst id ty
  | o => o

def Instr.collapse (i : Instr) (D : Nat → Bool) (v : Value) : Instr :=
  { i with operands := i.operands.map fun o => o.collapse D v }

/-- Every use of an instruction of `D` becomes `v`, and the instructions of `D` are erased. -/
def Func.collapse (F : Func) (D : Nat → Bool) (v : Value) : Func :=
  { F with insts := fun b => ((F.insts b).filter fun i => !D i.id).map fun i => i.collapse D v }

/-- `o` is an instruction of `D`. -/
def Value.isIn (D : Nat → Bool) (o : Value) : Prop := ∃ z ty, o = .inst z ty ∧ D z = true

variable {F : Func} {D : Nat → Bool} {v o : Value} {i j k : Instr} {b : Label} {z : Nat}

@[simp] theorem collapse_id : (i.collapse D v).id = i.id := rfl
@[simp] theorem collapse_op : (i.collapse D v).op = i.op := rfl
@[simp] theorem collapse_isPhi : (i.collapse D v).isPhi = i.isPhi := rfl
@[simp] theorem collapse_operands :
    (i.collapse D v).operands = i.operands.map (fun o => o.collapse D v) := rfl

theorem collapse_insts : (F.collapse D v).insts b =
    ((F.insts b).filter fun i => !D i.id).map fun i => i.collapse D v := rfl

theorem collapse_isIn {ty : Ty} (h : D z = true) : (Value.inst z ty).collapse D v = v := if_pos h

theorem collapse_of_not_isIn (h : ¬ o.isIn D) : o.collapse D v = o := by
  cases o with
  | inst z ty =>
    have hz : D z = false := by
      rw [← Bool.not_eq_true]
      exact fun hz => h ⟨z, ty, rfl, hz⟩
    simp [Value.collapse, hz]
  | _ => rfl

theorem collapse_eq_self (h : ∀ o ∈ i.operands, ¬ o.isIn D) : i.collapse D v = i := by
  have hops : i.operands.map (fun o => o.collapse D v) = i.operands :=
    (List.map_congr_left fun o ho => collapse_of_not_isIn (h o ho)).trans (List.map_id _)
  rw [Instr.collapse, hops]

theorem mem_collapse : i ∈ (F.collapse D v).insts b ↔
    ∃ j ∈ F.insts b, D j.id = false ∧ i = j.collapse D v := by
  simp only [Func.collapse, List.mem_map, List.mem_filter, Bool.not_eq_true']
  refine ⟨?_, ?_⟩
  · intro ⟨j, ⟨hj, hD⟩, e⟩
    exact ⟨j, hj, hD, e.symm⟩
  · intro ⟨j, hj, hD, e⟩
    exact ⟨j, ⟨hj, hD⟩, e.symm⟩

theorem collapse_ids : (F.collapse D v).ids b = (F.ids b).filter fun n => !D n := by
  simp only [Func.ids, Func.collapse, List.map_map, List.filter_map]
  rfl

/-- Functions with the same layout are known by their instructions. -/
theorem func_ext {G : Func} (he : F.entry = G.entry) (hl : F.blocks = G.blocks)
    (h : ∀ b, F.insts b = G.insts b) : F = G := by
  obtain ⟨e, l, insts⟩ := F
  obtain ⟨e', l', insts'⟩ := G
  obtain rfl : e = e' := he
  obtain rfl : l = l' := hl
  rw [show insts = insts' from funext h]

/-- Instructions that are not in `D` and read nothing of it stay as they are. -/
theorem collapse_unread {l : List Instr}
    (h : ∀ i ∈ l, D i.id = false ∧ ∀ o ∈ i.operands, ¬ o.isIn D) :
    ((l.filter fun i => !D i.id).map fun i => i.collapse D v) = l := by
  rw [List.filter_eq_self.mpr fun i hi => by simp [(h i hi).1]]
  exact (List.map_congr_left fun i hi => collapse_eq_self (h i hi).2).trans (List.map_id l)

theorem collapse_none : F.collapse (fun _ => false) v = F := by
  refine func_ext rfl rfl fun b => ?_
  have hself : ∀ i : Instr, i.collapse (fun _ => false) v = i := by
    intro i
    apply collapse_eq_self
    intro o _ h
    obtain ⟨z, ty, -, h⟩ := h
    cases h
  simp [collapse_insts, hself]

/-- One more replacement by the same value. -/
theorem collapse_replace (i : Instr) :
    (i.collapse D v).replace z v = i.collapse (fun n => D n || n == z) v := by
  have hvalue : ∀ o : Value, (o.collapse D v).replace z v = o.collapse (fun n => D n || n == z) v := by
    intro o
    cases o with
    | inst n ty => cases hn : D n <;> simp [Value.collapse, Value.replace, Value.refersTo, hn]
    | _ => rfl
  simp only [Instr.replace, Instr.collapse, List.map_map]
  congr 1
  exact List.map_congr_left fun o _ => hvalue o

/-- One more substitution of the same value. -/
theorem collapse_substitute : (F.collapse D v).substitute z v =
    F.collapse (fun n => D n || n == z) v := by
  refine func_ext rfl rfl fun b => ?_
  simp only [Func.substitute, eraseFromParent_insts, replaceAllUsesWith_insts, Func.collapse,
    List.map_map, List.filter_map, List.filter_filter]
  have hfilter : (fun a : Instr => ((fun i : Instr => i.id != z) ∘
      ((fun i : Instr => i.replace z v) ∘ fun i : Instr => i.collapse D v)) a && !D a.id) =
      fun i => !(D i.id || i.id == z) := by
    funext a
    show (a.id != z && !D a.id) = !(D a.id || a.id == z)
    cases D a.id <;> simp [bne]
  rw [hfilter]
  exact List.map_congr_left fun i _ => collapse_replace i

theorem substitute_eq_collapse : F.substitute z v = F.collapse (fun n => n == z) v := by
  have h := collapse_substitute (F := F) (D := fun _ => false) (v := v) (z := z)
  rw [collapse_none] at h
  simpa using h

theorem inst?_collapse (hF : F.SsaForm) (hi : i ∈ F.insts b) (hD : D i.id = false) :
    (F.collapse D v).inst? b i.id = some (i.collapse D v) := by
  cases hf : (F.collapse D v).inst? b i.id with
  | none =>
    have := List.find?_eq_none.mp hf _ (mem_collapse.mpr ⟨i, hi, hD, rfl⟩)
    simp at this
  | some k =>
    obtain ⟨hk, e⟩ := inst?_some hf
    obtain ⟨j, hj, -, rfl⟩ := mem_collapse.mp hk
    rw [hF.inst_eq hj hi e]

/-- What a scan finds at an instruction that is not in `D`. -/
theorem deref_collapse {p : Pass} (hF : F.SsaForm) (hp : p.func = F.collapse D v) (hi : i ∈ F.insts b)
    (hD : D i.id = false) : Wp (deref b i.id) (fun k s => k = i.collapse D v ∧ s = p) p := by
  refine Wp.bind' get_spec ?_
  intro _ _ h
  obtain ⟨rfl, rfl⟩ := h
  rw [hp, inst?_collapse hF hi hD]
  exact Wp.pure' ⟨rfl, rfl⟩

/-! A block around one of its instructions. -/

section
variable {pre post : List Instr}

theorem split_ids (hb : F.insts b = pre ++ i :: post) :
    F.ids b = pre.map Instr.id ++ i.id :: post.map Instr.id := by
  rw [Func.ids, hb, List.map_append, List.map_cons]

theorem split_pair (hF : F.SsaForm) (hb : F.insts b = pre ++ i :: post) {n : Nat} :
    [n, i.id].Sublist (F.ids b) ↔ n ∈ pre.map Instr.id := by
  have hnd := hF.nodup b
  rw [split_ids hb] at hnd ⊢
  exact pair_iff hnd

/-- What stands after `i`. -/
theorem split_after (hF : F.SsaForm) (hb : F.insts b = pre ++ i :: post) (hk : k ∈ F.insts b) :
    [i.id, k.id].Sublist (F.ids b) ↔ k ∈ post := by
  refine ⟨?_, ?_⟩
  · intro hs
    have hm : k ∈ pre ++ i :: post := hb ▸ hk
    rcases List.mem_append.mp hm with hm | hm
    · have hback := (split_pair hF hb).mpr (List.mem_map_of_mem hm)
      exact absurd (pair_trans (hF.nodup b) hs hback) (pair_irrefl (hF.nodup b))
    · rcases List.mem_cons.mp hm with rfl | hm
      · exact absurd hs (pair_irrefl (hF.nodup b))
      · exact hm
  · intro hm
    obtain ⟨l₁, l₂, rfl⟩ := List.append_of_mem hm
    have hb' : F.insts b = (pre ++ i :: l₁) ++ k :: l₂ := by simp [hb]
    exact (split_pair hF hb').mpr (by simp)

/-- What stands between `i` and `j`. -/
theorem mem_between (hF : F.SsaForm) {mid : List Instr} (hb : F.insts b = pre ++ i :: (mid ++ j :: post))
    (hk : k ∈ F.insts b) (h₁ : [i.id, k.id].Sublist (F.ids b)) (h₂ : [k.id, j.id].Sublist (F.ids b)) :
    k ∈ mid := by
  have hb' : F.insts b = (pre ++ i :: mid) ++ j :: post := by simp [hb]
  refine (List.mem_append.mp ((split_after hF hb hk).mp h₁)).resolve_right fun hm => ?_
  rcases List.mem_cons.mp hm with rfl | hm
  · exact pair_irrefl (hF.nodup b) h₂
  · exact pair_irrefl (hF.nodup b)
      (pair_trans (hF.nodup b) h₂ ((split_after hF hb' hk).mpr hm))

/-- An instruction with another one after it is no terminator. -/
theorem not_terminator_of_pair (hF : F.SsaForm) (hi : i ∈ F.insts b) {n : Nat}
    (h : [i.id, n].Sublist (F.ids b)) : i.isTerminator = false := by
  obtain ⟨body, t, hb, ht, hbody⟩ := hF.terminated (List.ne_nil_of_mem hi)
  rw [hb, List.mem_append, List.mem_singleton] at hi
  rcases hi with hi | rfl
  · exact hbody i hi
  · obtain ⟨j, hj, rfl⟩ := mem_ids.mp (pair_mem h).2
    have := (split_after hF hb hj).mp h
    cases this

theorem not_mem_pre (hF : F.SsaForm) (hb : F.insts b = pre ++ i :: post) :
    i.id ∉ pre.map Instr.id := by
  intro hm
  exact pair_irrefl (hF.nodup b) ((split_pair hF hb).mpr hm)

theorem not_mem_post (hF : F.SsaForm) (hb : F.insts b = pre ++ i :: post) :
    i.id ∉ post.map Instr.id := by
  have hnd := hF.nodup b
  rw [split_ids hb, List.nodup_append, List.nodup_cons] at hnd
  exact hnd.2.1.1

/-- What an instruction other than a phi uses of its block stands before it. -/
theorem uses_before (hF : F.SsaForm) (hb : F.insts b = pre ++ i :: post) (hphi : i.isPhi = false)
    {ty : Ty} (ho : .inst z ty ∈ i.operands) (hz : z ∈ F.ids b) : z ∈ pre.map Instr.id := by
  have hib : i ∈ F.insts b := by rw [hb]; simp
  rcases hF.uses hib hphi ho hz with ⟨-, hs⟩ | ⟨hne, -⟩
  · exact (split_pair hF hb).mp hs
  · exact absurd rfl hne

/-- The operands of an instruction stand in no part of its block from itself on. -/
theorem operand_fresh (hF : F.SsaForm) (hb : F.insts b = pre ++ i :: post) (hphi : i.isPhi = false)
    {ty : Ty} (ho : .inst z ty ∈ i.operands) : z ∉ (i :: post).map Instr.id := by
  intro hm
  have hz : z ∈ F.ids b := by
    rw [split_ids hb]
    exact List.mem_append_right _ hm
  have hpre := uses_before hF hb hphi ho hz
  have hnd := hF.nodup b
  rw [split_ids hb, List.nodup_append] at hnd
  exact hnd.2.2 z hpre z hm rfl

/-- Putting `i` in the place of later instructions gives no other instruction its operands. -/
theorem operands_collapse (hF : F.SsaForm) (hb : F.insts b = pre ++ i :: post) (hphi : i.isPhi = false)
    (hD : ∀ z, D z = true → z ∈ post.map Instr.id) (j : Instr) :
    i.operands = (j.collapse D i.value).operands ↔ i.operands = j.operands := by
  by_cases hin : ∃ o ∈ j.operands, o.isIn D
  · obtain ⟨o, ho, z, ty, rfl, hz⟩ := hin
    refine ⟨?_, ?_⟩
    · -- `i` would be an operand of `i`
      intro e
      have hm : i.value ∈ (j.collapse D i.value).operands :=
        List.mem_map.mpr ⟨.inst z ty, ho, collapse_isIn hz⟩
      rw [← e] at hm
      exact absurd List.mem_cons_self (operand_fresh hF hb hphi hm)
    · intro e
      have := operand_fresh hF hb hphi (e ▸ ho)
      exact absurd (List.mem_cons_of_mem _ (hD z hz)) this
  · rw [collapse_eq_self fun o ho h => hin ⟨o, ho, h⟩]

/-- It reads none of them itself. -/
theorem collapse_left (hF : F.SsaForm) (hb : F.insts b = pre ++ i :: post) (hphi : i.isPhi = false)
    (hD : ∀ z, D z = true → z ∈ post.map Instr.id) : i.collapse D i.value = i := by
  refine collapse_eq_self fun o ho ⟨z, ty, e, hz⟩ => ?_
  exact operand_fresh hF hb hphi (e ▸ ho) (List.mem_cons_of_mem _ (hD z hz))

/-- A value available at `j` is no instruction at or after `j`. -/
theorem available_fresh (hF : F.SsaForm) (hb : F.insts b = pre ++ j :: post)
    (hv : F.Available v b j) : ∀ i ∈ j :: post, ∀ ty, v ≠ .inst i.id ty := by
  intro i hi ty e
  obtain ⟨a, d, hd, hid, -, -, hbef⟩ := hv.2 _ _ e
  have hib : i ∈ F.insts b := by rw [hb]; exact List.mem_append_right _ hi
  have hnd := hF.nodup b
  obtain rfl := hF.unique (mem_ids.mpr ⟨d, hd, hid⟩) (mem_ids.mpr ⟨i, hib, rfl⟩)
  rcases hbef with ⟨-, hs⟩ | ⟨hne, -⟩
  · have hpre := (split_pair hF hb).mp hs
    rw [split_ids hb, List.nodup_append] at hnd
    exact hnd.2.2 _ hpre i.id (List.mem_map_of_mem hi) rfl
  · exact hne rfl

end

end Ece566.Llvm
