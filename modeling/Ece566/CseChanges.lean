import Ece566.CseSound
import Ece566.EraseRuns
import Ece566.LoadSound

/- Each thing the CSE pass does to a function, seen from the runs of the whole function.
   An instruction is erased that nothing uses, that simplifies, or that is identical to
   one above it; a load, that reads what an earlier load or store of its block has read or
   stored; a store, that a later one of its block overwrites. Only the last changes the
   memory, and only between the two stores. -/
namespace Ece566.Llvm

open Dominance Relation

variable {V M : Type} {S : Sem V M} {F F' G : Func} {m : M} {c d : Config V M}
variable {a b bb : Label} {i j k L iz : Instr} {v : Value} {rest : List Instr}

/-- What is seen of a run: volatile loads and stores, a store with the memory it leaves, and
every other instruction that may have an effect, with the memory it finds. -/
def seen (e : Event V M) : Option (Op × List V × M) :=
  match e.op.opcode, e.op.volatile with
  | .load, false => none
  | .store, false => none
  | .store, true => some (e.op, e.args, e.after)
  | _, _ => some (e.op, e.args, e.before)

/-- The operands of a phi have its type. -/
def Func.PhisTyped (F : Func) : Prop :=
  ∀ {b i}, i ∈ F.insts b → i.isPhi = true → ∀ t ∈ i.op.expects, t = i.op.ty

/-- What two loads of one type read from the same place is the same. -/
def Sem.Reads (S : Sem V M) : Prop :=
  ∀ {op op' : Op} {args m}, op.opcode = .load → op'.opcode = .load → op.ty = op'.ty →
    (S.effect op args m).1 = (S.effect op' args m).1

/-- From a load to a later one of its type, of the same block and not volatile, no call and no
load writes the memory. -/
def Func.Undisturbed (F : Func) (S : Sem V M) : Prop :=
  ∀ {b L j k}, L ∈ F.insts b → j ∈ F.insts b → k ∈ F.insts b → isLoad L = true → isLoad j = true →
    j.op.volatile = false → L.op.ty = j.op.ty → L = k ∨ [L.id, k.id].Sublist (F.ids b) →
      [k.id, j.id].Sublist (F.ids b) → (isCall k || isLoad k) = true →
        ∀ args m, (S.effect k.op args m).2 = m

theorem Func.PhisTyped.shrink (h : F.PhisTyped) (hs : Shrinks F F') : F'.PhisTyped := by
  intro b i' hi' hphi
  obtain ⟨i, hi, -, hop, -⟩ := hs.insts hi'
  rw [Instr.isPhi, hop] at hphi
  rw [hop]
  exact h hi hphi

theorem Func.Undisturbed.shrink (h : F.Undisturbed S) (hF : F.SsaForm) (hs : Shrinks F F') :
    F'.Undisturbed S := by
  intro b L' j' k' hL' hj' hk' hlL hlj hvol hty hLk hkj hck
  obtain ⟨L, hL, eL, opL, -⟩ := hs.insts hL'
  obtain ⟨j, hj, ej, opj, -⟩ := hs.insts hj'
  obtain ⟨k, hk, ek, opk, -⟩ := hs.insts hk'
  simp only [isLoad, isCall, Instr.getOpcode, opL, opj, opk] at hlL hlj hvol hty hck ⊢
  refine h hL hj hk hlL hlj hvol hty ?_ (ek ▸ ej ▸ hs.pair_of hkj) hck
  rcases hLk with rfl | hLk
  · exact .inl (hF.inst_eq hL hk (eL.symm.trans ek))
  · exact .inr (eL ▸ ek ▸ hs.pair_of hLk)

/-! What a run reaches. -/

/-- Inside a block, a run has run the instructions before the point it is at. -/
theorem Reachable.block (h : Reachable S F m c) : ∃ pre st, F.insts c.label = pre ++ c.rest ∧
    c.st = runInsts S pre st := by
  induction h with
  | refl => exact ⟨[], _, rfl, rfl⟩
  | tail _ h ih =>
    obtain ⟨pre, st, hb, hst⟩ := ih
    rcases step_cases h with ⟨i, rest, hr, rfl⟩ | ⟨b, -, -, rfl⟩
    · refine ⟨pre ++ [i], st, by rw [hb, hr]; simp, ?_⟩
      rw [runInsts_append, ← hst]
      rfl
    · exact ⟨[], _, rfl, rfl⟩

/-- Every register of a run holds a value of its instruction's type. -/
theorem Reachable.typed {HasTy : V → Ty → Prop} (hF : F.SsaForm) (hS : S.Memory HasTy)
    (hphi : F.PhisTyped) (hc : Reachable S F m c) : Typed HasTy F c.st.regs := by
  induction hc with
  | refl => intro a i x _ hx; cases hx
  | tail hc h ih =>
    rcases step_cases h with ⟨k, rest, hr, rfl⟩ | ⟨b, -, -, rfl⟩
    · exact ih.step hF hS ((Reachable.valid hF hc).mem_insts hr)
    · intro a k x hk hx
      change enter S _ (F.insts b) _ k.id = some x at hx
      by_cases hnew : k ∈ F.insts b ∧ k.isPhi = true
      · obtain ⟨hkb, hkphi⟩ := hnew
        rw [enter_phi hF hkb hkphi, Option.some.injEq] at hx
        subst hx
        unfold phiValue
        split
        · rename_i o ho
          have hmem := (List.of_mem_zip (List.mem_of_find?_eq_some ho)).1
          have hty : o.1.ty = k.op.ty := hphi hkb hkphi _ (by
            rw [← hF.typed hkb]
            exact List.mem_map_of_mem hmem)
          exact hty ▸ ih.value hF hS hkb hmem
        · exact hS.undef _
      · rw [enter_other] at hx
        · exact ih hk hx
        · intro y hy hyphi e
          obtain rfl := hF.unique (mem_ids.mpr ⟨y, hy, e⟩) (mem_ids.mpr ⟨k, hk, rfl⟩)
          exact hnew ⟨hk, hF.inst_eq hy hk e ▸ hyphi⟩

theorem Func.Available.not_refersTo (hv : F.Available v a iz) (hF : F.SsaForm) (hi : iz ∈ F.insts a) :
    v.refersTo iz.id = false := by
  rw [← Bool.not_eq_true, refersTo_iff]
  rintro ⟨ty, rfl⟩
  obtain ⟨a', d, hd, hid, -, -, hbef⟩ := hv.2 _ _ rfl
  obtain rfl := hF.unique (mem_ids.mpr ⟨d, hd, hid⟩) (mem_ids.mpr ⟨iz, hi, rfl⟩)
  exact Dominance.Before.irrefl hF.nodup hbef

/-- An instruction changes no value but its own. -/
theorem value_execInst {st : State V M} (h : v.refersTo i.id = false) :
    S.value (execInst S i st).regs v = S.value st.regs v := by
  refine value_congr fun id ty e => execInst_regs i st ?_
  rintro rfl
  simp [e, Value.refersTo] at h

/-- **A value that an instruction leaves stays its value.** If each time `iz` has run `v` has the
value `iz` has, so it does wherever `iz` dominates. -/
theorem held (hF : F.SsaForm) (hi : iz ∈ F.insts a) (hv : F.Available v a iz)
    (hrun : ∀ {c rest}, Reachable S F m c → c.rest = iz :: rest →
      S.value (execInst S iz c.st).regs v = S.value (execInst S iz c.st).regs iz.value)
    (hc : Reachable S F m c) (hp : c.Past F a iz.id) (ty : Ty) :
    S.value c.st.regs v = S.value c.st.regs (.inst iz.id ty) := by
  have hia : iz.id ∈ F.ids a := mem_ids.mpr ⟨iz, hi, rfl⟩
  -- an instruction that leaves the registers of `v` and `iz` as they are
  have hkept : ∀ {regs regs' : Nat → Option V} {x : Label} {n : Nat}, n ∈ F.ids x →
      n ≠ iz.id → ¬ F.Before x n a iz.id → (∀ y, y ≠ n → regs' y = regs y) →
      S.value regs v = S.value regs (.inst iz.id ty) → S.value regs' v = S.value regs' (.inst iz.id ty) := by
    intro regs regs' x n hn hne hnb hregs h
    rw [value_congr fun id ty' e => hregs id ?_, h, Sem.value, Sem.value, hregs _ hne.symm]
    rintro rfl
    obtain ⟨a', d, hd, hid, -, -, hbef⟩ := hv.2 _ _ e
    obtain rfl := hF.unique hn (mem_ids.mpr ⟨d, hd, hid⟩)
    exact hnb hbef
  induction hc with
  | refl =>
    rcases hp with ⟨rfl, hnr⟩ | ⟨hne, hdom⟩
    · exact absurd hia hnr
    · exact absurd hdom.eq_root hne
  | @tail c _ hc h ih =>
    have hval := Reachable.valid hF hc
    rcases step_cases h with ⟨k, rest, hr, rfl⟩ | ⟨b, hr, hn, rfl⟩
    · have hk := hval.mem_insts hr
      rcases past_inst hr hp with hp | ⟨rfl, e⟩
      · have hnb := hval.not_before hF hr hia hp
        refine hkept (mem_ids.mpr ⟨k, hk, rfl⟩) ?_ hnb (fun y hy => execInst_regs k _ hy) (ih hp)
        intro e
        rcases hp with ⟨rfl, hnr⟩ | ⟨hne, -⟩
        · exact hnr (by rw [hr, ← e]; simp)
        · exact hne (hF.unique hia (mem_ids.mpr ⟨k, hk, e⟩))
      · obtain rfl := hF.inst_eq hi hk e
        exact hrun hc hr
    · obtain ⟨hp, hne, hdom⟩ := hval.past_enter hr hn hia hp
      have hother : ∀ {x : Label} {y : Nat}, y ∈ F.ids x → x ≠ b →
          enter S c.label (F.insts b) c.st.regs y = c.st.regs y := fun hy hx => enter_other fun u hu _ e =>
        hx (hF.unique hy (mem_ids.mpr ⟨u, hu, e⟩))
      show S.value (enter S c.label (F.insts b) c.st.regs) v =
        S.value (enter S c.label (F.insts b) c.st.regs) _
      rw [value_congr fun id ty' e => ?_, ih hp, Sem.value, Sem.value, hother hia hne]
      obtain ⟨a', d, hd, hid, -, -, hbef⟩ := hv.2 _ _ e
      refine hother (mem_ids.mpr ⟨d, hd, hid⟩) ?_
      rintro rfl
      exact hne (hdom.antisymm (Dominance.Before.dom hbef) (hval.reach.tail (hval.next hn)))

/-! One change at a time. -/

theorem Reachable.at_inst (hF : F.SsaForm) (hi : iz ∈ F.insts a) (hc : Reachable S F m c)
    (hr : c.rest = iz :: rest) :
    ∃ pre st, F.insts a = pre ++ iz :: rest ∧ c.st = runInsts S pre st := by
  obtain ⟨pre, st, hb, hst⟩ := hc.block
  have hmem := (hc.valid hF).mem_insts hr
  obtain rfl := hF.unique (mem_ids.mpr ⟨iz, hi, rfl⟩) (mem_ids.mpr ⟨iz, hmem, rfl⟩)
  exact ⟨pre, st, hr ▸ hb, hst⟩

/-- An instruction that leaves the memory alone and is not seen. -/
theorem erase_silent (hF : F.SsaForm) (hi : iz ∈ F.insts a) (hterm : iz.isTerminator = false)
    (hv : v.refersTo iz.id = false)
    (hrun : ∀ {c rest}, Reachable S F m c → c.rest = iz :: rest →
      (execInst S iz c.st).mem = c.st.mem ∧
        (execInst S iz c.st).log.filterMap seen = c.st.log.filterMap seen)
    (hholds : F.hasUses iz.id = true → ∀ {c}, Reachable S F m c → c.Past F a iz.id → ∀ ty,
      S.value c.st.regs v = S.value c.st.regs (.inst iz.id ty)) :
    Refines seen S m F (F.substitute iz.id v) := by
  have he : Erasable seen S F m a iz v fun c m' => m' = c.st.mem := by
    constructor
    case mem => exact hi
    case terminator => exact hterm
    case fresh => exact hv
    case init => rfl
    case holds => exact hholds
    case ends => exact fun _ _ h => h
    case enters => exact fun _ _ _ => rfl
    case skip =>
      intro c rest m' hc hr h
      obtain ⟨hmem, hlog⟩ := hrun hc hr
      exact ⟨h.trans hmem.symm, hlog⟩
    case quiet =>
      intro c i rest m' _ _ _ hq h
      exact h.trans (execInst_quiet hq c.st).1.symm
    case effect =>
      intro c i rest m' _ _ _ hq h
      subst h
      rw [Instr.isQuiet, Bool.or_eq_false_iff] at hq
      refine ⟨SameEffect.refl _ _ _, ?_⟩
      show _ = (execInst S i c.st).mem
      rw [execInst_effect hq.1 hq.2]
  exact he.refines hF

theorem execInst_silent (h : i.isQuiet = true) (st : State V M) : (execInst S i st).mem = st.mem ∧
    (execInst S i st).log.filterMap seen = st.log.filterMap seen := by
  obtain ⟨hm, hl, -⟩ := execInst_quiet (S := S) h st
  exact ⟨hm, by rw [hl]⟩

/-- A load that is not volatile is not seen. -/
theorem load_silent {HasTy : V → Ty → Prop} (hS : S.Memory HasTy) (hl : isLoad i = true)
    (hvol : i.op.volatile = false) (st : State V M) : (execInst S i st).mem = st.mem ∧
      (execInst S i st).log.filterMap seen = st.log.filterMap seen := by
  rw [execInst_effect (isPhi_of_isLoad hl) (not_pure_of_isLoad hl)]
  refine ⟨hS.load_keeps (opcode_of_isLoad hl) hvol, ?_⟩
  rw [List.filterMap_append]
  simp [seen, opcode_of_isLoad hl, hvol]

theorem isDead_quiet (h : isDead F i = true) : i.isQuiet = true ∧ F.hasUses i.id = false := by
  simp only [isDead, Bool.and_eq_true, Bool.not_eq_true'] at h
  refine ⟨?_, h.1⟩
  have hop := h.2
  unfold Instr.getOpcode at hop
  unfold Instr.isQuiet Instr.isPhi
  cases ho : i.op.opcode <;> first | rfl | (rw [ho] at hop; cases hop)

/-- An instruction that nothing uses. -/
theorem refines_dead (hF : F.SsaForm) (hi : i ∈ F.insts b) (hd : isDead F i = true) :
    Refines seen S m F (F.eraseFromParent i.id) := by
  obtain ⟨hterm, hun⟩ := isDead_iff hF hd
  obtain ⟨hq, huses⟩ := isDead_quiet hd
  rw [(hF.erase hi hterm hun).1]
  refine erase_silent hF hi hterm rfl (fun _ _ => execInst_silent hq _) fun h => ?_
  rw [huses] at h
  cases h

/-- LLVM's `SimplifyInstruction`: the value it finds for an instruction is the one the
instruction computes, and computing it is all the instruction does. -/
def Computes (S : Sem V M) (simplifyInstruction : Func → Label → Instr → Option Value) : Prop :=
  ∀ {F : Func} {b : Label} {i : Instr} {v : Value} {m : M} {c : Config V M} {rest : List Instr},
    F.SsaForm → i ∈ F.insts b → simplifyInstruction F b i = some v →
      Reachable S F m c → c.rest = i :: rest →
        (execInst S i c.st).mem = c.st.mem ∧
          (execInst S i c.st).log.filterMap seen = c.st.log.filterMap seen ∧
            S.value (execInst S i c.st).regs v = S.value (execInst S i c.st).regs i.value

theorem computes_none : Computes S fun _ _ _ => none := fun _ _ h => nomatch h

theorem refines_simplify {simplifyInstruction : Func → Label → Instr → Option Value}
    (hS : Simplifies simplifyInstruction) (hC : Computes S simplifyInstruction) (hF : F.SsaForm)
    (hi : i ∈ F.insts b) (hs : simplifyInstruction F b i = some v) :
    Refines seen S m F (F.substitute i.id v) := by
  obtain ⟨hterm, hav⟩ := hS hF hi hs
  refine erase_silent hF hi hterm (hav.not_refersTo hF hi) ?_ ?_
  · intro c rest hc hr
    obtain ⟨hmem, hlog, -⟩ := hC hF hi hs hc hr
    exact ⟨hmem, hlog⟩
  · intro _ c hc hp ty
    exact held hF hi hav (fun hc hr => (hC hF hi hs hc hr).2.2) hc hp ty

/-- In a function of pure instructions, phis, loads, stores and calls the pass merges only
instructions without effects. -/
theorem works_quiet (hacc : F.Accesses b) (hi : i ∈ F.insts b)
    (hw : shouldCSEworkOnInstruction i = true) : i.isQuiet = true := by
  rw [Instr.isQuiet, Bool.or_eq_true]
  have hterm := works_not_terminator hw
  simp only [shouldCSEworkOnInstruction, hterm, Bool.false_eq_true, if_false] at hw
  rcases hacc i hi hterm with h | h | h | h | h
  · exact .inl h
  · exact .inr h
  · rw [Instr.getOpcode, opcode_of_isLoad h] at hw; cases hw
  · rw [Instr.getOpcode, opcode_of_isStore h] at hw; cases hw
  · rw [show i.getOpcode = .call from by simpa [isCall] using h] at hw; cases hw

/-- An instruction identical to one above it. -/
theorem Merging.refines (h : Merging F b i bb j) (hF : F.SsaForm) (hacc : F.Accesses b) :
    Refines seen S m F (F.substitute j.id i.value) := by
  have hq := works_quiet hacc h.left h.works
  have hqj : j.isQuiet = true := by
    rw [Instr.isQuiet, Instr.isPhi, ← identical_op hF h.left h.right h.identical]
    exact hq
  refine erase_silent hF h.right h.right_not_terminator (h.available.not_refersTo hF h.right)
    (fun _ _ => execInst_silent hqj _) fun _ c hc hp ty => ?_
  obtain ⟨v, hvj, hvi⟩ := h.equal hF hq hc hp
  simp [Sem.value, Instr.value, hvj, hvi]

/-! Loads. -/

theorem execInst_keeps (h : ∀ args m, (S.effect k.op args m).2 = m) (st : State V M) :
    (execInst S k st).mem = st.mem := by
  cases hq : k.isQuiet with
  | true => exact (execInst_quiet hq st).1
  | false =>
    rw [Instr.isQuiet, Bool.or_eq_false_iff] at hq
    rw [execInst_effect hq.1 hq.2]
    exact h _ _

theorem runInsts_keeps {l : List Instr} (h : ∀ k ∈ l, ∀ st, (execInst S k st).mem = st.mem)
    (st : State V M) : (runInsts S l st).mem = st.mem := by
  induction l generalizing st with
  | nil => rfl
  | cons i l ih =>
    rw [runInsts_cons, ih fun k hk => h k (List.mem_cons_of_mem i hk)]
    exact h i List.mem_cons_self st

/-- From a load to one that reads it again, nothing writes the memory. -/
theorem Reloaded.keeps (h : Reloaded F b L j) (hF : F.SsaForm) (hacc : F.Accesses b)
    (hun : F.Undisturbed S) {pre mid post : List Instr}
    (hb : F.insts b = pre ++ L :: (mid ++ j :: post)) :
    ∀ k ∈ L :: mid, ∀ st, (execInst S k st).mem = st.mem := by
  intro k hk st
  have hr := h.reloading
  have hkb : k ∈ F.insts b := by
    rw [hb]
    rcases List.mem_cons.mp hk with rfl | hk <;> simp [*]
  have hLk : L = k ∨ [L.id, k.id].Sublist (F.ids b) := by
    rcases List.mem_cons.mp hk with rfl | hk
    · exact .inl rfl
    · exact .inr ((split_after hF hb hkb).mpr (List.mem_append_left _ hk))
  have hkj : [k.id, j.id].Sublist (F.ids b) := by
    have hb' : F.insts b = (pre ++ L :: mid) ++ j :: post := by simp [hb]
    exact (split_pair hF hb').mpr (List.mem_map_of_mem (List.mem_append_right _ hk))
  have hvol := volatile_of_notVolatile hr.quiet
  have hty : L.op.ty = j.op.ty := by simpa [sameType] using hr.type
  have hkeeps : (isCall k || isLoad k) = true → (execInst S k st).mem = st.mem := fun hck =>
    execInst_keeps (hun hr.left hr.right hkb hr.load hr.right_load hvol hty hLk hkj hck) st
  rcases hacc k hkb (not_terminator_of_pair hF hkb hkj) with hphi | hpure | hl | hs | hcall
  · exact (execInst_quiet (by simp [Instr.isQuiet, hphi]) st).1
  · exact (execInst_quiet (by simp [Instr.isQuiet, hpure]) st).1
  · exact hkeeps (by simp [hl])
  · rcases hLk with rfl | hLk
    · have := opcode_of_isLoad hr.load
      rw [opcode_of_isStore hs] at this
      cases this
    · exact absurd hkj (h.reached hkb hs hLk)
  · exact hkeeps (by simp [hcall])

/-- A load reads again what `L` has read. -/
theorem Reloaded.rereads (h : Reloaded F b L j) (hF : F.SsaForm) (hR : S.Reads) {pre mid post : List Instr}
    {st : State V M} (hb : F.insts b = pre ++ L :: (mid ++ j :: post))
    (hkeeps : ∀ k ∈ L :: mid, ∀ st : State V M, (execInst S k st).mem = st.mem) (ty : Ty) :
    S.value (runInsts S (pre ++ L :: mid) st).regs L.value =
      S.value (execInst S j (runInsts S (pre ++ L :: mid) st)).regs (.inst j.id ty) := by
  have hl := h.reloading.load
  have hlj := h.reloading.right_load
  have hops : L.operands = j.operands := by simpa [sameOperands] using h.reloading.operands
  have hty : L.op.ty = j.op.ty := by simpa [sameType] using h.reloading.type
  have hpost := not_mem_post hF hb
  rw [List.map_append, List.mem_append, not_or] at hpost
  have hmem : (runInsts S (pre ++ L :: mid) st).mem = (runInsts S pre st).mem := by
    rw [runInsts_append]
    exact runInsts_keeps hkeeps _
  have hargs : j.args S (runInsts S (pre ++ L :: mid) st).regs = L.args S (runInsts S pre st).regs := by
    rw [Instr.args, ← hops]
    exact List.map_congr_left fun o ho => operand_kept hF hb (isPhi_of_isLoad hl) ho
  have hL : S.value (runInsts S (pre ++ L :: mid) st).regs L.value =
      (S.effect L.op (L.args S (runInsts S pre st).regs) (runInsts S pre st).mem).1 := by
    rw [Instr.value, Sem.value, runInsts_own hpost.1, load_own hl]
    rfl
  rw [hL, Sem.value, load_own hlj, hargs, hmem]
  exact hR (opcode_of_isLoad hl) (opcode_of_isLoad hlj) hty

/-- A load of what was read already. -/
theorem Reloaded.refines {HasTy : V → Ty → Prop} (h : Reloaded F b L j) (hF : F.SsaForm)
    (hS : S.Memory HasTy) (hR : S.Reads) (hacc : F.Accesses b) (hun : F.Undisturbed S) :
    Refines seen S m F (F.substitute j.id L.value) := by
  have hr := h.reloading
  have hlj := hr.right_load
  have hvol := volatile_of_notVolatile hr.quiet
  refine erase_silent hF hr.right (not_terminator_of_isLoad hlj) (hr.available.not_refersTo hF hr.right)
    (fun _ _ => load_silent hS hlj hvol _) fun _ c hc hp ty => ?_
  refine held hF hr.right hr.available (fun {c rest} hc hr' => ?_) hc hp ty
  obtain ⟨l, st, hb, hst⟩ := hc.at_inst hF hr.right hr'
  obtain ⟨L', hL', e⟩ := List.mem_map.mp ((split_pair hF hb).mp hr.below)
  obtain rfl := hF.inst_eq (by rw [hb]; simp [hL']) hr.left e
  obtain ⟨pre, mid, rfl⟩ := List.append_of_mem hL'
  have hb' : F.insts b = pre ++ L' :: (mid ++ j :: rest) := by simp [hb]
  rw [value_execInst (hr.available.not_refersTo hF hr.right), hst]
  exact h.rereads hF hR hb' (h.keeps hF hacc hun hb') j.op.ty

/-! Stores. -/

/-- A load of what was stored. -/
theorem Forwarding.rereads {HasTy : V → Ty → Prop} (h : Forwarding F b i j v) (hF : F.SsaForm)
    (hS : S.Memory HasTy) {pre mid post : List Instr} {st : State V M}
    (hb : F.insts b = pre ++ i :: (mid ++ j :: post)) (hmid : ∀ k ∈ mid, k.isQuiet = true)
    (hty : Typed HasTy F (runInsts S (pre ++ i :: mid) st).regs) (ty : Ty) :
    S.value (runInsts S (pre ++ i :: mid) st).regs v =
      S.value (execInst S j (runInsts S (pre ++ i :: mid) st)).regs (.inst j.id ty) := by
  obtain ⟨a, hops, haddr⟩ := store_operands hF h.left h.store h.value
  obtain ⟨a', hops', haddr'⟩ := load_operands hF h.right h.load
  obtain rfl : a = a' := by simpa [sameAddress, haddr, haddr'] using h.address
  have hphi := not_phi_of_isStore h.store
  have hvty : v.ty = j.op.ty := (h.available hF).1
  have hmem : (runInsts S (pre ++ i :: mid) st).mem =
      (S.effect i.op (i.args S (runInsts S pre st).regs) (runInsts S pre st).mem).2 := by
    rw [runInsts_append, runInsts_cons, runInsts_quiet hmid,
      execInst_effect hphi (not_pure_of_isStore h.store)]
  have hkept : ∀ o ∈ i.operands, S.value (runInsts S (pre ++ i :: mid) st).regs o =
      S.value (runInsts S pre st).regs o := fun o ho => operand_kept hF hb hphi ho
  have hx : HasTy (S.value (runInsts S pre st).regs v) j.op.ty := by
    rw [← hvty, ← hkept v (by rw [hops]; simp)]
    exact hty.value hF hS h.left (by rw [hops]; simp)
  have hexp : i.op.expects.head? = some j.op.ty := by
    rw [← hF.typed h.left, hops, ← hvty]
    rfl
  have hargs : i.args S (runInsts S pre st).regs =
      [S.value (runInsts S pre st).regs v, S.value (runInsts S pre st).regs a] := by
    rw [Instr.args, hops]
    rfl
  have hargs' : j.args S (runInsts S (pre ++ i :: mid) st).regs =
      [S.value (runInsts S pre st).regs a] := by
    rw [Instr.args, hops', ← hkept a (by rw [hops]; simp)]
    rfl
  rw [value_own (isPhi_of_isLoad h.load) (not_pure_of_isLoad h.load), hkept v (by rw [hops]; simp), hmem,
    hargs, hargs']
  exact (hS.load_stored (opcode_of_isStore h.store) (opcode_of_isLoad h.load)
    (volatile_of_notVolatile h.quiet) hexp hx).symm

theorem Forwarding.refines {HasTy : V → Ty → Prop} (h : Forwarding F b i j v) (hF : F.SsaForm)
    (hS : S.Memory HasTy) (hphi : F.PhisTyped) (hq : QuietBetween F b i j) :
    Refines seen S m F (F.substitute j.id v) := by
  have hav := h.available hF
  have hvol := volatile_of_notVolatile h.quiet
  refine erase_silent hF h.right (not_terminator_of_isLoad h.load) (hav.not_refersTo hF h.right)
    (fun _ _ => load_silent hS h.load hvol _) fun _ c hc hp ty => ?_
  refine held hF h.right hav (fun {c rest} hc hr => ?_) hc hp ty
  obtain ⟨l, st, hb, hst⟩ := hc.at_inst hF h.right hr
  obtain ⟨pre, mid, rfl, hmid⟩ := split_before hF hb h.left h.below hq
  have hb' : F.insts b = pre ++ i :: (mid ++ j :: rest) := by simp [hb]
  rw [value_execInst (hav.not_refersTo hF h.right), hst]
  exact h.rereads hF hS hb' hmid (hst ▸ hc.typed hF hS hphi) j.op.ty

/-- The run is between the stores `i` and `j` of block `b`. -/
def Config.Between (c : Config V M) (b : Label) (i j : Instr) : Prop :=
  c.label = b ∧ i.id ∉ c.rest.map Instr.id ∧ j.id ∈ c.rest.map Instr.id

/-- The memory `m'` of the run without the store `i` to `p`, which `j` overwrites. -/
structure Pending (S : Sem V M) (b : Label) (i j : Instr) (p : Value) (c : Config V M) (m' : M) :
    Prop where
  inside : c.Between b i j → ∃ x, c.st.mem = (S.effect i.op [x, S.value c.st.regs p] m').2
  outside : ¬ c.Between b i j → m' = c.st.mem

theorem Config.Between.of_ran (hne : k.id ≠ i.id) (hr : c.rest = k :: rest)
    (h : (c.ran S k rest).Between b i j) : c.Between b i j := by
  obtain ⟨hl, hi, hj⟩ := h
  refine ⟨hl, ?_, ?_⟩
  · rw [hr, List.map_cons, List.mem_cons, not_or]
    exact ⟨hne.symm, hi⟩
  · rw [hr]
    exact List.mem_cons_of_mem _ hj

/-- What runs between `i` and `j`, or is `j`. -/
theorem Config.Between.split (h : c.Between b i j) (hF : F.SsaForm) (hv : Valid S F c)
    (hi : i ∈ F.insts b) (hj : j ∈ F.insts b) (hr : c.rest = k :: rest) :
    k ∈ F.insts b ∧ [i.id, k.id].Sublist (F.ids b) ∧ (k = j ∨ [k.id, j.id].Sublist (F.ids b)) := by
  obtain ⟨rfl, hpast, hnext⟩ := h
  obtain ⟨pre, hpre⟩ := hv.suffix
  rw [hr] at hpre hpast hnext
  have hk : k ∈ F.insts c.label := by rw [hpre]; simp
  have hik : i ∈ pre := by
    rw [hpre, List.mem_append] at hi
    exact hi.resolve_right fun hm => hpast (List.mem_map_of_mem hm)
  refine ⟨hk, (split_pair hF hpre).mpr (List.mem_map_of_mem hik), ?_⟩
  rcases List.mem_cons.mp hnext with e | hm
  · exact .inl (hF.inst_eq hk hj e.symm)
  · obtain ⟨j', hj', e⟩ := List.mem_map.mp hm
    obtain rfl := hF.inst_eq (by rw [hpre]; simp [hj']) hj e
    exact .inr ((split_after hF hpre hj).mpr hj')

/-- A store the pass deletes, with the address of both. -/
theorem Overwriting.erasable {HasTy : V → Ty → Prop} (h : Overwriting F b i j) (hF : F.SsaForm)
    (hS : S.Memory HasTy) (hq : QuietBetween F b i j) {x y p : Value} (hops : i.operands = [x, p])
    (hops' : j.operands = [y, p]) (hexp : i.op.expects.head? = j.op.expects.head?) :
    Erasable seen S F m b i (.const 0 i.op.ty) (Pending S b i j p) := by
  have hls := opcode_of_isStore h.store
  have hls' := opcode_of_isStore h.store'
  have hphi := not_phi_of_isStore h.store
  have hphi' := not_phi_of_isStore h.store'
  have hexec : ∀ st : State V M, execInst S i st = _ := fun _ =>
    execInst_effect hphi (not_pure_of_isStore h.store)
  have hexec' : ∀ st : State V M, execInst S j st = _ := fun _ =>
    execInst_effect hphi' (not_pure_of_isStore h.store')
  -- no instruction from `i` on is the address
  have hfresh : ∀ {k}, k = i ∨ [i.id, k.id].Sublist (F.ids b) → k ∈ F.insts b →
      p.refersTo k.id = false := by
    intro k hk hkb
    rw [← Bool.not_eq_true, refersTo_iff]
    rintro ⟨ty, e⟩
    obtain ⟨pre, post, hb⟩ := List.append_of_mem h.left
    have ho : .inst k.id ty ∈ i.operands := by rw [hops, ← e]; simp
    refine operand_fresh hF hb hphi ho ?_
    rcases hk with rfl | hk
    · simp
    · exact List.mem_cons_of_mem _ (List.mem_map_of_mem ((split_after hF hb hkb).mp hk))
  constructor
  case mem => exact h.left
  case terminator => exact not_terminator_of_isStore h.store
  case fresh => rfl
  case init =>
    refine ⟨fun hb => absurd (List.mem_map_of_mem ?_) hb.2.1, fun _ => rfl⟩
    obtain ⟨rfl, -⟩ := hb
    exact h.left
  case ends =>
    intro c m' _ hr hp
    refine hp.outside fun hb => ?_
    have := hb.2.2
    rw [hr] at this
    cases this
  case enters =>
    intro c b' _ _ _
    refine ⟨fun hb => absurd (List.mem_map_of_mem ?_) hb.2.1, fun _ => rfl⟩
    obtain ⟨rfl, -⟩ := hb
    exact h.left
  case holds =>
    intro huses
    obtain ⟨k, hk, ho⟩ := List.any_eq_true.mp huses
    obtain ⟨b', -, hk⟩ := List.mem_flatMap.mp hk
    obtain ⟨o, ho, hz⟩ := List.any_eq_true.mp ho
    rw [store_unused hF h.left h.store b' k hk o ho] at hz
    cases hz
  case skip =>
    intro c rest m' hc hr hp
    have hout : m' = c.st.mem := hp.outside fun hb => hb.2.1 (by rw [hr]; simp)
    subst hout
    refine ⟨⟨fun _ => ⟨S.value c.st.regs x, ?_⟩, fun hnb => absurd ?_ hnb⟩, ?_⟩
    · show (execInst S i c.st).mem = (S.effect i.op [_, S.value (execInst S i c.st).regs p] _).2
      rw [value_execInst (hfresh (.inl rfl) h.left), hexec, Instr.args, hops]
      rfl
    · obtain ⟨pre, st, hb, -⟩ := hc.at_inst hF h.left hr
      have hmem := (hc.valid hF).mem_insts hr
      refine ⟨hF.unique (mem_ids.mpr ⟨i, hmem, rfl⟩) (mem_ids.mpr ⟨i, h.left, rfl⟩),
        not_mem_post hF hb, List.mem_map_of_mem ((split_after hF hb h.right).mp h.below)⟩
    · rw [hexec, List.filterMap_append]
      simp [seen, hls, volatile_of_notVolatile h.quiet]
  case quiet =>
    intro c k rest m' hc hr hne hkq hp
    have hkj : k ≠ j := by
      rintro rfl
      rw [Instr.isQuiet, hphi', not_pure_of_isStore h.store'] at hkq
      cases hkq
    refine ⟨fun hb => ?_, fun hnb => ?_⟩
    · have hb := hb.of_ran hne hr
      obtain ⟨hkb, hik, -⟩ := hb.split hF (hc.valid hF) h.left h.right hr
      obtain ⟨w, hw⟩ := hp.inside hb
      refine ⟨w, ?_⟩
      show (execInst S k c.st).mem = (S.effect i.op [_, S.value (execInst S k c.st).regs p] _).2
      rw [value_execInst (hfresh (.inr hik) hkb), (execInst_quiet hkq c.st).1, hw]
    · refine (hp.outside fun hb => hnb ?_).trans (execInst_quiet hkq c.st).1.symm
      obtain ⟨hl, hi, hj⟩ := hb
      rw [hr, List.map_cons, List.mem_cons] at hi hj
      refine ⟨hl, fun hm => hi (.inr hm), hj.resolve_left fun e => hkj ?_⟩
      exact hF.inst_eq (hl ▸ (hc.valid hF).mem_insts hr) h.right e.symm
  case effect =>
    intro c k rest m' hc hr hne hkq hp
    have hkq' := hkq
    rw [Instr.isQuiet, Bool.or_eq_false_iff] at hkq'
    by_cases hb : c.Between b i j
    · obtain ⟨hkb, hik, hkj⟩ := hb.split hF (hc.valid hF) h.left h.right hr
      obtain rfl : k = j := hkj.resolve_right fun hkj => by
        rw [hq k hkb hik hkj] at hkq
        cases hkq
      obtain ⟨w, hw⟩ := hp.inside hb
      have hargs : k.args S c.st.regs = [S.value c.st.regs y, S.value c.st.regs p] := by
        rw [Instr.args, hops']
        rfl
      have hover : (S.effect k.op (k.args S c.st.regs) m').2 =
          (S.effect k.op (k.args S c.st.regs) c.st.mem).2 := by
        rw [hw, hargs]
        exact (hS.store_overwrites hls (volatile_of_notVolatile h.quiet) hls' hexp).symm
      refine ⟨⟨?_, ?_, fun hterm => ?_⟩, fun hb' => ?_, fun _ => ?_⟩
      · rw [hS.store_result hls', hS.store_result hls']
      · cases hvol : k.op.volatile <;> simp [seen, hls', hvol, hover]
      · rw [not_terminator_of_isStore h.store'] at hterm
        cases hterm
      · obtain ⟨pre, st, hb, -⟩ := hc.at_inst hF h.right hr
        exact absurd hb'.2.2 (not_mem_post hF hb)
      · show _ = (execInst S k c.st).mem
        rw [hexec', hover]
    · obtain rfl := hp.outside hb
      refine ⟨SameEffect.refl _ _ _, fun hb' => absurd (hb'.of_ran hne hr) hb, fun _ => ?_⟩
      show _ = (execInst S k c.st).mem
      rw [execInst_effect hkq'.1 hkq'.2]

/-- A store that another one overwrites. -/
theorem Overwriting.refines {HasTy : V → Ty → Prop} (h : Overwriting F b i j) (hF : F.SsaForm)
    (hS : S.Memory HasTy) (hq : QuietBetween F b i j) :
    Refines seen S m F (F.eraseFromParent i.id) := by
  obtain ⟨x, y, p, hops, hops', hexp⟩ := h.operands hF
  rw [(hF.erase h.left (not_terminator_of_isStore h.store) (store_unused hF h.left h.store)).1]
  exact (h.erasable hF hS hq hops hops' hexp).refines hF

/-! Any number of changes. -/

/-- What the pass makes of a function by erasing one instruction. -/
inductive Change (simplifyInstruction : Func → Label → Instr → Option Value) : Func → Func → Prop where
  | dead {F : Func} {b : Label} {i : Instr} : i ∈ F.insts b → isDead F i = true →
      Change simplifyInstruction F (F.eraseFromParent i.id)
  | simplify {F : Func} {b : Label} {i : Instr} {v : Value} : i ∈ F.insts b →
      simplifyInstruction F b i = some v → Change simplifyInstruction F (F.substitute i.id v)
  | merge {F : Func} {b bb : Label} {i j : Instr} : Merging F b i bb j →
      Change simplifyInstruction F (F.substitute j.id i.value)
  | load {F : Func} {b : Label} {L j : Instr} : Reloaded F b L j →
      Change simplifyInstruction F (F.substitute j.id L.value)
  | forward {F : Func} {b : Label} {i j : Instr} {v : Value} : Forwarding F b i j v →
      QuietBetween F b i j → Change simplifyInstruction F (F.substitute j.id v)
  | store {F : Func} {b : Label} {i j : Instr} : Overwriting F b i j → QuietBetween F b i j →
      Change simplifyInstruction F (F.eraseFromParent i.id)

/-- What is asked of a function, and of its memory and calls, for the changes to be right. -/
structure Func.Plain (F : Func) (S : Sem V M) : Prop where
  ssa : F.SsaForm
  phis : F.PhisTyped
  accesses : ∀ b, F.Accesses b
  undisturbed : F.Undisturbed S

section
variable {simplifyInstruction : Func → Label → Instr → Option Value} {HasTy : V → Ty → Prop}

/-- A change is one of the edits of the pass. -/
theorem Change.edit (h : Change simplifyInstruction F F') {p : Pass} (hp : p.func = F) :
    ∃ p', Edit simplifyInstruction p p' ∧ p'.func = F' := by
  subst hp
  cases h with
  | dead hi hd => exact ⟨_, .dead hi hd, rfl⟩
  | simplify hi hs => exact ⟨_, .simplify hi hs, rfl⟩
  | merge h => exact ⟨_, .merge (.mk rfl h), rfl⟩
  | load h => exact ⟨_, .load h.reloading, rfl⟩
  | forward h _ => exact ⟨_, .forward h, rfl⟩
  | store h _ => exact ⟨_, .store h, rfl⟩

theorem Change.ssaForm (hs : Simplifies simplifyInstruction) (hF : F.SsaForm)
    (h : Change simplifyInstruction F F') : F'.SsaForm ∧ Shrinks F F' := by
  obtain ⟨p', hedit, rfl⟩ := h.edit (p := Pass.start F) rfl
  exact hedit.ssaForm hs hF

theorem Func.Plain.change (hF : F.Plain S) (hs : Simplifies simplifyInstruction)
    (h : Change simplifyInstruction F F') : F'.Plain S := by
  obtain ⟨hF', hsh⟩ := h.ssaForm hs hF.ssa
  exact ⟨hF', Func.PhisTyped.shrink hF.phis hsh, fun b => (hF.accesses b).shrink hsh,
    Func.Undisturbed.shrink hF.undisturbed hF.ssa hsh⟩

theorem Change.refines (hS : S.Memory HasTy) (hR : S.Reads) (hs : Simplifies simplifyInstruction)
    (hC : Computes S simplifyInstruction) (hF : F.Plain S) (h : Change simplifyInstruction F F') :
    Refines seen S m F F' := by
  cases h with
  | dead hi hd => exact refines_dead hF.ssa hi hd
  | simplify hi h => exact refines_simplify hs hC hF.ssa hi h
  | merge h => exact h.refines hF.ssa (hF.accesses _)
  | load h => exact h.refines hF.ssa hS hR (hF.accesses _) hF.undisturbed
  | forward h hq => exact h.refines hF.ssa hS hF.phis hq
  | store h hq => exact h.refines hF.ssa hS hq

abbrev Changes (simplifyInstruction : Func → Label → Instr → Option Value) : Func → Func → Prop :=
  ReflTransGen (Change simplifyInstruction)

theorem Changes.refines (hS : S.Memory HasTy) (hR : S.Reads) (hs : Simplifies simplifyInstruction)
    (hC : Computes S simplifyInstruction) (hF : F.Plain S) (h : Changes simplifyInstruction F F') :
    F'.Plain S ∧ Refines seen S m F F' := by
  induction h with
  | refl => exact ⟨hF, Refines.refl F⟩
  | tail _ h ih =>
    obtain ⟨hF₁, hr⟩ := ih
    have hsh := (h.ssaForm hs hF₁.ssa).2
    exact ⟨hF₁.change hs h, hr.trans (fun hn => hsh.mem hn) (h.refines hS hR hs hC hF₁)⟩

end

end Ece566.Llvm
