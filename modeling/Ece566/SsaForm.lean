import Ece566.Dominance
import Ece566.LlvmIr

/- SSA form. Every instruction a function refers to is defined in it once, with the type
   the reference has, and at a point that dominates the use; a phi uses its operands at
   the ends of its incoming blocks. The one edit the passes are made of is to put a value
   in place of an instruction and erase the instruction; it keeps SSA form when the
   value has the instruction's type and is defined before it. -/
namespace Ece566.Llvm

open Dominance

namespace Func

/-- Block `a` dominates block `b`. -/
def Dom (F : Func) (a b : Label) : Prop := Dominance.Dom F.Edge F.entry a b

/-- Instruction `d` of block `a` dominates instruction `u` of block `b`. -/
def Before (F : Func) (a : Label) (d : Nat) (b : Label) (u : Nat) : Prop :=
  Dominance.Before F.Edge F.entry F.ids a d b u

structure SsaForm (F : Func) : Prop where
  nodup : ∀ b, (F.ids b).Nodup
  unique : ∀ {a b d}, d ∈ F.ids a → d ∈ F.ids b → a = b
  listed : ∀ {b}, F.insts b ≠ [] → b ∈ F.blocks
  reachable : ∀ {b}, F.insts b ≠ [] → Reach F.Edge F.entry b
  entry : ∀ a, ¬ F.Edge a F.entry
  terminated : ∀ {b}, F.insts b ≠ [] → ∃ body t, F.insts b = body ++ [t] ∧
    t.isTerminator = true ∧ ∀ i ∈ body, i.isTerminator = false
  incoming : ∀ {b i}, i ∈ F.insts b → i.isPhi = true →
    i.blocks ≠ [] ∧ i.operands.length = i.blocks.length ∧ ∀ p, p ∈ i.blocks ↔ F.Edge p b
  typed : ∀ {b i}, i ∈ F.insts b → i.operands.map Value.ty = i.op.expects
  shape : ∀ {b i}, i ∈ F.insts b → (i.op.opcode = .load → i.operands.length = 1) ∧
    (i.op.opcode = .store → i.operands.length = 2)
  refs : ∀ {b i id ty}, i ∈ F.insts b → .inst id ty ∈ i.operands →
    ∃ a, ∃ d ∈ F.insts a, d.id = id ∧ d.op.ty = ty ∧ d.op.opcode.hasValue = true
  uses : ∀ {a b i id ty}, i ∈ F.insts b → i.isPhi = false → .inst id ty ∈ i.operands →
    id ∈ F.ids a → F.Before a id b i.id
  phiUses : ∀ {a b i id ty p}, i ∈ F.insts b → i.isPhi = true →
    (.inst id ty, p) ∈ i.operands.zip i.blocks → id ∈ F.ids a → F.Dom a p

/-- `v` can stand for instruction `i` of block `b`: it has its type, and if it is an
instruction it dominates `i`. -/
def Available (F : Func) (v : Value) (b : Label) (i : Instr) : Prop :=
  v.ty = i.op.ty ∧ ∀ id ty, v = .inst id ty → ∃ a, ∃ d ∈ F.insts a, d.id = id ∧ d.op.ty = ty ∧
    (i.op.opcode.hasValue = true → d.op.opcode.hasValue = true) ∧ F.Before a id b i.id

/-- Every use of `z` becomes `v`, and `z` is erased. -/
def substitute (F : Func) (z : Nat) (v : Value) : Func :=
  (F.replaceAllUsesWith z v).eraseFromParent z

end Func

variable {F : Func} {z : Nat} {v : Value} {a b : Label} {i : Instr}

namespace Func.SsaForm

/-- An instruction is known by its id. -/
theorem inst_eq (h : F.SsaForm) {j : Instr} (hi : i ∈ F.insts b) (hj : j ∈ F.insts b)
    (e : i.id = j.id) : i = j := List.inj_on_of_nodup_map (h.nodup b) hi hj e

theorem inst?_eq (h : F.SsaForm) (hi : i ∈ F.insts b) : F.inst? b i.id = some i :=
  inst?_of_nodup (h.nodup b) hi

theorem before_trans (h : F.SsaForm) {c : Label} {d u : Nat} (hz : z ∈ F.ids b)
    (h₁ : F.Before a d b z) (h₂ : F.Before b z c u) : F.Before a d c u := by
  obtain ⟨i, hi, -⟩ := mem_ids.mp hz
  exact Dominance.Before.trans h.nodup (h.reachable (List.ne_nil_of_mem hi)) h₁ h₂

end Func.SsaForm

theorem mem_substitute : i ∈ (F.substitute z v).insts b ↔
    ∃ j ∈ F.insts b, j.id ≠ z ∧ i = j.replace z v := by
  simp only [Func.substitute, eraseFromParent_insts, replaceAllUsesWith_insts, List.mem_filter,
    List.mem_map, bne_iff_ne]
  refine ⟨?_, ?_⟩
  · intro h
    obtain ⟨⟨j, hj, rfl⟩, hne⟩ := h
    exact ⟨j, hj, hne, rfl⟩
  · intro h
    obtain ⟨j, hj, hne, rfl⟩ := h
    exact ⟨⟨j, hj, rfl⟩, hne⟩

theorem substitute_ids : (F.substitute z v).ids b = (F.ids b).filter fun d => d != z := by
  rw [Func.substitute, eraseFromParent_ids, replaceAllUsesWith_ids]

theorem mem_substitute_ids {d : Nat} :
    d ∈ (F.substitute z v).ids b ↔ d ∈ F.ids b ∧ d ≠ z := by
  simp [substitute_ids]

theorem substitute_edge (h : ∀ a, ∀ t ∈ F.insts a, t.isTerminator = true → t.id ≠ z) :
    (F.substitute z v).Edge = F.Edge := by
  rw [Func.substitute, eraseFromParent_edge, replaceAllUsesWith_edge]
  intro a t ht hterm
  obtain ⟨t₀, ht₀, rfl⟩ := List.mem_map.mp ht
  exact h a t₀ ht₀ hterm

/-- An operand after the replacement is the new value or an operand that was there. -/
theorem mem_replace_operands {o : Value} (h : o ∈ (i.replace z v).operands) :
    (o = v ∧ ∃ ty, .inst z ty ∈ i.operands) ∨ (o ∈ i.operands ∧ o.refersTo z = false) := by
  obtain ⟨o₀, ho₀, rfl⟩ := List.mem_map.mp h
  cases hr : o₀.refersTo z with
  | true =>
    obtain ⟨ty, rfl⟩ := refersTo_iff.mp hr
    exact .inl ⟨by rw [Value.replace, hr]; rfl, ty, ho₀⟩
  | false => rw [replace_of_not_refersTo hr]; exact .inr ⟨ho₀, hr⟩

theorem mem_replace_zip {o : Value} {p : Label}
    (h : (o, p) ∈ (i.replace z v).operands.zip (i.replace z v).blocks) :
    (o = v ∧ ∃ ty, (.inst z ty, p) ∈ i.operands.zip i.blocks) ∨
      ((o, p) ∈ i.operands.zip i.blocks ∧ o.refersTo z = false) := by
  rw [replace_operands, replace_blocks, List.zip_map_left] at h
  obtain ⟨⟨o₀, p₀⟩, ho₀, e⟩ := List.mem_map.mp h
  obtain ⟨rfl, rfl⟩ := Prod.mk.inj e
  cases hr : o₀.refersTo z with
  | true =>
    obtain ⟨ty, rfl⟩ := refersTo_iff.mp hr
    exact .inl ⟨by simp [Value.replace, hr], ty, ho₀⟩
  | false =>
    simp only [replace_of_not_refersTo hr]
    exact .inr ⟨ho₀, hr⟩

/-- Putting a value in place of anything but a terminator keeps the control-flow graph. -/
theorem Func.SsaForm.substitute_edge (h : F.SsaForm) {iz : Instr} (hz : iz ∈ F.insts b)
    (hterm : iz.isTerminator = false) : (F.substitute iz.id v).Edge = F.Edge := by
  refine Llvm.substitute_edge fun a t ht hterm' e => ?_
  obtain rfl := h.unique (mem_ids.mpr ⟨t, ht, e⟩) (mem_ids.mpr ⟨iz, hz, rfl⟩)
  rw [h.inst_eq ht hz e, hterm] at hterm'
  cases hterm'

/-- The other instructions keep their order. -/
theorem Func.SsaForm.substitute_before (h : F.SsaForm) {iz : Instr} (hz : iz ∈ F.insts b)
    (hterm : iz.isTerminator = false) {a c : Label} {d u : Nat} (hb : F.Before a d c u)
    (hd : d ≠ iz.id) (hu : u ≠ iz.id) : (F.substitute iz.id v).Before a d c u := by
  have := Dominance.Before.filter (p := fun d => d != iz.id) hb (by simpa) (by simpa)
  rw [Func.Before, h.substitute_edge hz hterm,
    show (F.substitute iz.id v).ids = _ from funext fun _ => substitute_ids]
  exact this

/-- Every block still ends with its terminator. -/
theorem Func.SsaForm.substitute_terminated (h : F.SsaForm) {iz : Instr} (hz : iz ∈ F.insts b)
    (hterm : iz.isTerminator = false) {a : Label} (ha : F.insts a ≠ []) :
    ∃ body t, (F.substitute iz.id v).insts a = body ++ [t] ∧ t.isTerminator = true ∧
      ∀ i ∈ body, i.isTerminator = false := by
  obtain ⟨body, t, e, ht, hbody⟩ := h.terminated ha
  have htz : t.id ≠ iz.id := by
    intro eid
    have hta : t ∈ F.insts a := by rw [e]; simp
    obtain rfl := h.unique (mem_ids.mpr ⟨t, hta, eid⟩) (mem_ids.mpr ⟨iz, hz, rfl⟩)
    rw [h.inst_eq hta hz eid, hterm] at ht
    cases ht
  refine ⟨(body.map fun i => i.replace iz.id v).filter (fun i => i.id != iz.id),
    t.replace iz.id v, ?_, ht, ?_⟩
  · simp [Func.substitute, e, List.filter_append, htz]
  · intro i hi
    obtain ⟨j, hj, rfl⟩ := List.mem_map.mp (List.mem_filter.mp hi).1
    exact hbody j hj

/-- **The edit keeps SSA form**, if the value is available where the instruction is and
the instruction is no terminator. -/
theorem Func.SsaForm.substitute (h : F.SsaForm) {iz : Instr} (hz : iz ∈ F.insts b)
    (hterm : iz.isTerminator = false) (hv : F.Available v b iz) :
    (F.substitute iz.id v).SsaForm := by
  have hzb : iz.id ∈ F.ids b := mem_ids.mpr ⟨iz, hz, rfl⟩
  have hedge := h.substitute_edge (v := v) hz hterm
  have hne : ∀ {a}, (F.substitute iz.id v).insts a ≠ [] → F.insts a ≠ [] := by
    intro a ha e
    obtain ⟨i, hi⟩ := List.exists_mem_of_ne_nil _ ha
    obtain ⟨j, hj, -⟩ := mem_substitute.mp hi
    rw [e] at hj
    cases hj
  have hdom : ∀ a c, (F.substitute iz.id v).Dom a c = F.Dom a c := by
    intro a c; rw [Func.Dom, hedge]; rfl
  constructor
  case nodup => intro a; rw [substitute_ids]; exact (h.nodup a).filter _
  case unique =>
    intro a c d ha hc
    exact h.unique (mem_substitute_ids.mp ha).1 (mem_substitute_ids.mp hc).1
  case listed => exact fun ha => h.listed (hne ha)
  case reachable => rw [hedge]; exact fun ha => h.reachable (hne ha)
  case entry => rw [hedge]; exact h.entry
  case terminated => exact fun ha => h.substitute_terminated hz hterm (hne ha)
  case incoming =>
    intro a i hi hphi
    obtain ⟨j, hj, -, rfl⟩ := mem_substitute.mp hi
    rw [hedge]
    simpa using h.incoming hj hphi
  case typed =>
    intro a i hi
    obtain ⟨j, hj, -, rfl⟩ := mem_substitute.mp hi
    rw [replace_op, ← h.typed hj, replace_operands, List.map_map]
    refine List.map_congr_left fun o ho => ?_
    cases hr : o.refersTo iz.id with
    | false => rw [Function.comp, replace_of_not_refersTo hr]
    | true =>
      obtain ⟨ty, rfl⟩ := refersTo_iff.mp hr
      obtain ⟨a', d, hd, hid, hty, -⟩ := h.refs hj ho
      obtain rfl := h.unique (mem_ids.mpr ⟨d, hd, hid⟩) hzb
      rw [Function.comp, Value.replace, hr, if_pos rfl, hv.1, ← h.inst_eq hd hz hid, hty]
      rfl
  case shape =>
    intro a i hi
    obtain ⟨j, hj, -, rfl⟩ := mem_substitute.mp hi
    simpa using h.shape hj
  case refs =>
    intro a i id ty hi ho
    obtain ⟨j, hj, -, rfl⟩ := mem_substitute.mp hi
    obtain ⟨a', d, hd, hid, hty, hval⟩ : ∃ a, ∃ d ∈ F.insts a, d.id = id ∧ d.op.ty = ty ∧
        (d.id ≠ iz.id ∧ d.op.opcode.hasValue = true) := by
      rcases mem_replace_operands ho with ⟨e, ty', ho⟩ | ⟨ho, hr⟩
      · obtain ⟨a', d, hd, hid, hty, hval, hbef⟩ := hv.2 id ty e.symm
        obtain ⟨a'', d', hd', hid', -, hval'⟩ := h.refs hj ho
        obtain rfl := h.unique (mem_ids.mpr ⟨d', hd', hid'⟩) hzb
        refine ⟨a', d, hd, hid, hty, ?_, hval ?_⟩
        · intro e
          rw [← hid, e] at hbef
          obtain rfl := h.unique (mem_ids.mpr ⟨d, hd, e⟩) hzb
          exact Dominance.Before.irrefl h.nodup hbef
        · rw [← h.inst_eq hd' hz hid']; exact hval'
      · obtain ⟨a', d, hd, hid, hty, hval⟩ := h.refs hj ho
        refine ⟨a', d, hd, hid, hty, ?_, hval⟩
        intro e
        simp [Value.refersTo, ← hid, e] at hr
    exact ⟨a', d.replace iz.id v, mem_substitute.mpr ⟨d, hd, hval.1, rfl⟩, hid, hty, hval.2⟩
  case uses =>
    intro a c i id ty hi hphi ho hid
    obtain ⟨j, hj, hjz, rfl⟩ := mem_substitute.mp hi
    obtain ⟨hid, hidz⟩ := mem_substitute_ids.mp hid
    refine h.substitute_before hz hterm ?_ hidz hjz
    rcases mem_replace_operands ho with ⟨e, ty', ho⟩ | ⟨ho, -⟩
    · obtain ⟨a', d, hd, hid', -, -, hbef⟩ := hv.2 id ty e.symm
      obtain rfl := h.unique (mem_ids.mpr ⟨d, hd, hid'⟩) hid
      exact h.before_trans hzb hbef (h.uses (i := j) hj hphi ho hzb)
    · exact h.uses (i := j) hj hphi ho hid
  case phiUses =>
    intro a c i id ty p hi hphi ho hid
    obtain ⟨j, hj, hjz, rfl⟩ := mem_substitute.mp hi
    obtain ⟨hid, hidz⟩ := mem_substitute_ids.mp hid
    rw [hdom]
    rcases mem_replace_zip ho with ⟨e, ty', ho⟩ | ⟨ho, -⟩
    · obtain ⟨a', d, hd, hid', -, -, hbef⟩ := hv.2 id ty e.symm
      obtain rfl := h.unique (mem_ids.mpr ⟨d, hd, hid'⟩) hid
      exact hbef.dom.trans (h.phiUses hj hphi ho hzb)
    · exact h.phiUses hj hphi ho hid

theorem replaceAllUsesWith_unused (h : ∀ b, ∀ i ∈ F.insts b, ∀ o ∈ i.operands, o.refersTo z = false) :
    F.replaceAllUsesWith z v = F := by
  have hrep : ∀ b, (F.insts b).map (fun i => i.replace z v) = F.insts b := by
    intro b
    refine (List.map_congr_left fun i hi => ?_).trans (List.map_id _)
    have hops : i.operands.map (fun o => o.replace z v) = i.operands :=
      (List.map_congr_left fun o ho => replace_of_not_refersTo (h b i hi o ho)).trans
        (List.map_id _)
    rw [Instr.replace, hops]
    rfl
  unfold Func.replaceAllUsesWith
  simp only [hrep]

/-- Erasing an instruction that nothing uses. -/
theorem Func.SsaForm.erase (h : F.SsaForm) {iz : Instr} (hz : iz ∈ F.insts b)
    (hterm : iz.isTerminator = false)
    (hun : ∀ b, ∀ i ∈ F.insts b, ∀ o ∈ i.operands, o.refersTo iz.id = false) :
    F.eraseFromParent iz.id = F.substitute iz.id (.const 0 iz.op.ty) ∧
      (F.eraseFromParent iz.id).SsaForm := by
  have e : F.eraseFromParent iz.id = F.substitute iz.id (.const 0 iz.op.ty) := by
    rw [Func.substitute, replaceAllUsesWith_unused hun]
  refine ⟨e, e ▸ h.substitute hz hterm ⟨rfl, fun _ _ h => nomatch h⟩⟩

/-! Functions of several blocks, without phis and without values that leave their block. -/

/-- `o` is no instruction, or one of `l` before `u` and of the type the reference has. -/
def Value.definedIn (l : List Instr) (u : Nat) : Value → Bool
  | .inst id ty => decide ([id, u].Sublist (l.map Instr.id)) &&
    l.any fun d => d.id == id && d.op.ty == ty && d.op.opcode.hasValue
  | _ => true

/-- What the verifier checks of an instruction of block `b`. -/
def Instr.isLocal (F : Func) (b : Label) (i : Instr) : Bool :=
  !i.isPhi && i.operands.map Value.ty == i.op.expects &&
    (i.op.opcode != .load || i.operands.length == 1) &&
    (i.op.opcode != .store || i.operands.length == 2) &&
    i.operands.all (Value.definedIn (F.insts b) i.id) && !(i.isTerminator && i.blocks.contains F.entry)

/-- What it checks of the blocks. -/
def Func.isLocal (F : Func) : Bool :=
  F.blocks.all fun b => decide (F.ids b).Nodup && (F.insts b).all (Instr.isLocal F b) &&
    (F.insts b).dropLast.all (fun i => !i.isTerminator) && (F.insts b).getLast?.all Instr.isTerminator &&
    F.blocks.all fun c => (F.ids b).all fun d => b == c || !(F.ids c).contains d

/-- The edges between the blocks of the layout. -/
def Func.edges (F : Func) : List (Label × Label) :=
  F.blocks.flatMap fun a => ((F.insts a).filter Instr.isTerminator).flatMap fun t => t.blocks.map (a, ·)

theorem edge_iff (hlisted : ∀ {b}, F.insts b ≠ [] → b ∈ F.blocks) : F.Edge a b ↔ (a, b) ∈ F.edges := by
  simp only [Func.edges, List.mem_flatMap, List.mem_filter, List.mem_map, Prod.mk.injEq]
  refine ⟨?_, ?_⟩
  · intro ⟨t, ht, hterm, hb⟩
    exact ⟨a, hlisted (List.ne_nil_of_mem ht), t, ⟨ht, hterm⟩, b, hb, rfl, rfl⟩
  · intro ⟨_, _, t, ⟨ht, hterm⟩, _, hb, ha, hb'⟩
    obtain rfl := ha
    obtain rfl := hb'
    exact ⟨t, ht, hterm, hb⟩

theorem local_ssaForm (hlisted : ∀ {b}, F.insts b ≠ [] → b ∈ F.blocks)
    (hreach : ∀ {b}, b ∈ F.blocks → Reach F.Edge F.entry b) (h : F.isLocal = true) : F.SsaForm := by
  simp only [Func.isLocal, Bool.and_eq_true, decide_eq_true_eq, List.all_eq_true, Bool.or_eq_true,
    beq_iff_eq, Bool.not_eq_true', Option.all_eq_true] at h
  have hblock : ∀ {b i}, i ∈ F.insts b → b ∈ F.blocks := fun hi => hlisted (List.ne_nil_of_mem hi)
  have hinst : ∀ {b i}, i ∈ F.insts b → i.isLocal F b = true :=
    fun hi => (h _ (hblock hi)).1.1.1.2 _ hi
  have hphi : ∀ {b i}, i ∈ F.insts b → i.isPhi = false := by
    intro b i hi
    have := hinst hi
    simp only [Instr.isLocal, Bool.and_eq_true, Bool.not_eq_true'] at this
    exact this.1.1.1.1.1
  have hunique : ∀ {a b d}, d ∈ F.ids a → d ∈ F.ids b → a = b := by
    intro a b d ha hb
    obtain ⟨i, hi, -⟩ := mem_ids.mp ha
    obtain ⟨j, hj, -⟩ := mem_ids.mp hb
    refine ((h a (hblock hi)).2 b (hblock hj) d ha).resolve_right fun hno => ?_
    rw [← Bool.not_eq_true, List.contains_iff_mem] at hno
    exact hno hb
  have hdefined : ∀ {b i id ty}, i ∈ F.insts b → .inst id ty ∈ i.operands →
      [id, i.id].Sublist (F.ids b) ∧
        ∃ d ∈ F.insts b, d.id = id ∧ d.op.ty = ty ∧ d.op.opcode.hasValue = true := by
    intro b i id ty hi ho
    have := hinst hi
    simp only [Instr.isLocal, Bool.and_eq_true, List.all_eq_true] at this
    have := this.1.2 _ ho
    simp only [Value.definedIn, Bool.and_eq_true, decide_eq_true_eq, List.any_eq_true, beq_iff_eq] at this
    obtain ⟨hsub, d, hd, ⟨e, ety⟩, hv⟩ := this
    exact ⟨hsub, d, hd, e, ety, hv⟩
  constructor
  case nodup =>
    intro b
    by_cases hb : F.insts b = []
    · simp [Func.ids, hb]
    · exact (h b (hlisted hb)).1.1.1.1
  case unique => exact hunique
  case listed => exact hlisted
  case reachable => exact fun hb => hreach (hlisted hb)
  case entry =>
    rintro a ⟨t, ht, hterm, hmem⟩
    have := hinst ht
    simp only [Instr.isLocal, hterm, Bool.true_and, Bool.and_eq_true, Bool.not_eq_true',
      ← Bool.not_eq_true, List.contains_iff_mem] at this
    exact this.2 hmem
  case terminated =>
    intro b hb
    obtain ⟨⟨⟨-, hbody⟩, hlast⟩, -⟩ := h b (hlisted hb)
    exact ⟨(F.insts b).dropLast, (F.insts b).getLast hb, (List.dropLast_append_getLast hb).symm,
      hlast _ (List.getLast?_eq_some_getLast hb), hbody⟩
  case incoming =>
    intro b i hi hp
    rw [hphi hi] at hp
    cases hp
  case typed =>
    intro b i hi
    have := hinst hi
    simp only [Instr.isLocal, Bool.and_eq_true, beq_iff_eq] at this
    exact this.1.1.1.1.2
  case shape =>
    intro b i hi
    have := hinst hi
    simp only [Instr.isLocal, Bool.and_eq_true, Bool.or_eq_true, bne_iff_ne, beq_iff_eq] at this
    exact ⟨fun e => this.1.1.1.2.resolve_left (not_not.mpr e),
      fun e => this.1.1.2.resolve_left (not_not.mpr e)⟩
  case refs =>
    intro b i id ty hi ho
    exact ⟨b, (hdefined hi ho).2⟩
  case uses =>
    intro a b i id ty hi _ ho hid
    obtain ⟨hsub, d, hd, rfl, -⟩ := hdefined hi ho
    obtain rfl := hunique hid (mem_ids.mpr ⟨d, hd, rfl⟩)
    exact .inl ⟨rfl, hsub⟩
  case phiUses =>
    intro a b i id ty p hi hp
    rw [hphi hi] at hp
    cases hp

/-! Functions of one block. -/

def oneBlock (l : List Instr) : Func := ⟨0, [0], fun b => if b = 0 then l else []⟩

/-- What the verifier checks of a block of straight-line code that ends the function. -/
def straight (l : List Instr) : Bool :=
  decide (l.map Instr.id).Nodup && l.all fun i => !i.isPhi && i.blocks.isEmpty &&
    i.operands.map Value.ty == i.op.expects &&
    (i.op.opcode != .load || i.operands.length == 1) &&
    (i.op.opcode != .store || i.operands.length == 2) && i.operands.all (Value.definedIn l i.id)

theorem oneBlock_insts {l : List Instr} (h : i ∈ (oneBlock l).insts b) : b = 0 ∧ i ∈ l := by
  simp only [oneBlock] at h
  split at h
  · exact ⟨‹_›, h⟩
  · cases h

theorem oneBlock_ssaForm {body : List Instr} {t : Instr} (ht : t.isTerminator = true)
    (hbody : body.all (fun i => !i.isTerminator) = true) (hs : straight (body ++ [t]) = true) :
    (oneBlock (body ++ [t])).SsaForm := by
  simp only [straight, Bool.and_eq_true, decide_eq_true_eq, List.all_eq_true, beq_iff_eq,
    List.isEmpty_iff] at hs
  obtain ⟨hnd, hall⟩ := hs
  refine local_ssaForm (fun {b} hb => ?_) (fun {b} hb => ?_) ?_
  · obtain ⟨i, hi⟩ := List.exists_mem_of_ne_nil _ hb
    exact List.mem_singleton.mpr (oneBlock_insts hi).1
  · obtain rfl : b = 0 := List.mem_singleton.mp hb
    exact .refl
  · have hinsts : (oneBlock (body ++ [t])).insts 0 = body ++ [t] := rfl
    have hids : (oneBlock (body ++ [t])).ids 0 = (body ++ [t]).map Instr.id := rfl
    simp only [Func.isLocal, show (oneBlock (body ++ [t])).blocks = [0] from rfl, List.all_cons,
      List.all_nil, Bool.and_true, hinsts, hids, Bool.and_eq_true, decide_eq_true_eq, List.all_eq_true]
    refine ⟨⟨⟨⟨hnd, fun i hi => ?_⟩, ?_⟩, ?_⟩, ?_⟩
    · obtain ⟨h, hops⟩ := hall i hi
      simp only [Instr.isLocal, hinsts, Bool.and_eq_true, beq_iff_eq, List.all_eq_true]
      refine ⟨⟨⟨⟨⟨h.1.1.1.1, h.1.1.2⟩, h.1.2⟩, h.2⟩, hops⟩, ?_⟩
      simp [h.1.1.1.2]
    · simpa using hbody
    · simpa using ht
    · simp

end Ece566.Llvm
