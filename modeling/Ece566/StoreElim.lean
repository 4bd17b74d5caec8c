import Ece566.BlockExec
import Ece566.CseSsa
import Ece566.Simulation

/- The two things the scan from a store does to a block. A load that reads back what was
   just stored is replaced by the value stored, which it would have read. A store that
   another one overwrites, with nothing in between that looks at the memory, is erased:
   the memories of the two runs differ until the second store. -/
namespace Ece566.Llvm

open Dominance

variable {V M : Type} {S : Sem V M} {F F' G : Func} {b : Label} {i j k : Instr}
variable {st s s' : State V M} {v : Value} {pre mid post : List Instr}

/-- A memory, with the values of each type: what a store puts in place a load of the same type
that is not volatile reads back, and another store of the same type overwrites if the
first is not volatile; such a load leaves the memory as it is, and a store has no result. -/
structure Sem.Memory (S : Sem V M) (HasTy : V → Ty → Prop) : Prop where
  leaf : ∀ {v : Value}, (∀ id ty, v ≠ .inst id ty) → HasTy (S.leaf v) v.ty
  undef : ∀ ty, HasTy S.undef ty
  compute : ∀ {op args}, List.Forall₂ HasTy args op.expects → HasTy (S.compute op args) op.ty
  effect : ∀ {op args m}, List.Forall₂ HasTy args op.expects → HasTy (S.effect op args m).1 op.ty
  load_keeps : ∀ {op args m}, op.opcode = .load → op.volatile = false → (S.effect op args m).2 = m
  load_stored : ∀ {op op' x a m}, op.opcode = .store → op'.opcode = .load → op'.volatile = false →
    op.expects.head? = some op'.ty → HasTy x op'.ty →
      (S.effect op' [a] (S.effect op [x, a] m).2).1 = x
  store_overwrites : ∀ {op op' x y a m}, op.opcode = .store → op.volatile = false →
    op'.opcode = .store → op.expects.head? = op'.expects.head? →
      (S.effect op' [y, a] (S.effect op [x, a] m).2).2 = (S.effect op' [y, a] m).2
  store_result : ∀ {op args m}, op.opcode = .store → (S.effect op args m).1 = S.undef

/-- Calls and volatile loads with their arguments and the memory they find, volatile stores with
their arguments and the memory they leave. -/
def callOrVolatile (e : Event V M) : Option (Op × List V × M) :=
  match e.op.opcode, e.op.volatile with
  | .call, _ => some (e.op, e.args, e.before)
  | .load, true => some (e.op, e.args, e.before)
  | .store, true => some (e.op, e.args, e.after)
  | _, _ => none

/-- Every register holds a value of its instruction's type. -/
def Typed (HasTy : V → Ty → Prop) (F : Func) (regs : Nat → Option V) : Prop :=
  ∀ {a i x}, i ∈ F.insts a → regs i.id = some x → HasTy x i.op.ty

/-- In every memory and from every state, running block `b` of `F'` in place of that of `F`
gives the registers that remain the same values, every call and every volatile access
what `callOrVolatile` says of it, the same memory at the end, and the instructions left in
the function the same operands. -/
def Preserves (F : Func) (b : Label) (F' : Func) : Prop :=
  ∀ (V M : Type) (S : Sem V M) (HasTy : V → Ty → Prop) (st : State V M), S.Memory HasTy →
    Typed HasTy F st.regs → BlockAgrees callOrVolatile S F b F' st ∧ OperandsAgree S F b F' st

/-- A block of pure instructions, loads, stores and calls, with its terminator. -/
def Func.Accesses (F : Func) (b : Label) : Prop :=
  ∀ i ∈ F.insts b, i.isTerminator = false →
    i.isPhi = true ∨ i.op.opcode.isPure = true ∨ isLoad i = true ∨ isStore i = true ∨ isCall i = true

theorem Preserves.refl (hF : F.SsaForm) : Preserves F b F :=
  fun _ _ _ _ _ _ _ => ⟨BlockAgrees.refl, OperandsAgree.refl hF⟩

theorem Typed.shrink {HasTy : V → Ty → Prop} {regs : Nat → Option V} (h : Typed HasTy F regs)
    (hs : Shrinks F F') : Typed HasTy F' regs := by
  intro a i' x hi' hx
  obtain ⟨i, hi, e, hop, -⟩ := hs.insts hi'
  rw [hop]
  exact h hi (e ▸ hx)

theorem Func.Accesses.shrink (h : F.Accesses b) (hs : Shrinks F F') : F'.Accesses b := by
  intro i' hi' hterm
  obtain ⟨i, hi, -, hop, -⟩ := hs.insts hi'
  have := h i hi
  simp only [Instr.isTerminator, Instr.isPhi, isLoad, isStore, isCall, Instr.getOpcode, hop] at this hterm ⊢
  exact this hterm

theorem Preserves.trans (h₁ : Preserves F b F') (h₂ : Preserves F' b G) (hs₁ : Shrinks F F')
    (hs₂ : Shrinks F' G) : Preserves F b G := by
  intro V M S HasTy st hS hty
  obtain ⟨a₁, o₁⟩ := h₁ V M S HasTy st hS hty
  obtain ⟨a₂, o₂⟩ := h₂ V M S HasTy st hS (hty.shrink hs₁)
  exact ⟨a₁.trans a₂ hs₁ hs₂, o₁.trans o₂ hs₂⟩

/-! Types along a run. -/

section
variable {HasTy : V → Ty → Prop}

theorem Typed.value (h : Typed HasTy F st.regs) (hF : F.SsaForm) (hS : S.Memory HasTy)
    (hi : i ∈ F.insts b) {o : Value} (ho : o ∈ i.operands) : HasTy (S.value st.regs o) o.ty := by
  cases o with
  | inst id ty =>
    obtain ⟨a, d, hd, rfl, rfl, -⟩ := hF.refs hi ho
    cases hr : st.regs d.id with
    | none =>
      rw [Sem.value, hr]
      exact hS.undef _
    | some x =>
      rw [Sem.value, hr]
      exact h hd hr
  | _ =>
    refine hS.leaf ?_
    intro _ _ e
    cases e

theorem Typed.args (h : Typed HasTy F st.regs) (hF : F.SsaForm) (hS : S.Memory HasTy)
    (hi : i ∈ F.insts b) : List.Forall₂ HasTy (i.args S st.regs) i.op.expects := by
  rw [← hF.typed hi, Instr.args, List.forall₂_map_left_iff, List.forall₂_map_right_iff,
    List.forall₂_same]
  exact fun o ho => h.value hF hS hi ho

theorem Typed.step (h : Typed HasTy F st.regs) (hF : F.SsaForm) (hS : S.Memory HasTy)
    (hi : i ∈ F.insts b) : Typed HasTy F (execInst S i st).regs := by
  intro a k x hk hx
  by_cases e : k.id = i.id
  · obtain rfl := hF.unique (mem_ids.mpr ⟨k, hk, e⟩) (mem_ids.mpr ⟨i, hi, rfl⟩)
    obtain rfl := hF.inst_eq hk hi e
    cases hphi : k.isPhi with
    | true =>
      rw [execInst, hphi, if_pos rfl] at hx
      exact h hk hx
    | false =>
      cases hpure : k.op.opcode.isPure with
      | true =>
        simp only [execInst, hphi, hpure, assign_same, Bool.false_eq_true, if_false, if_true,
          Option.some.injEq] at hx
        exact hx ▸ hS.compute (h.args hF hS hk)
      | false =>
        simp only [execInst_effect hphi hpure, assign_same, Option.some.injEq] at hx
        exact hx ▸ hS.effect (h.args hF hS hk)
  · rw [execInst_regs i st e] at hx
    exact h hk hx

theorem Typed.run (hF : F.SsaForm) (hS : S.Memory HasTy) {l : List Instr} :
    ∀ {st : State V M}, Typed HasTy F st.regs → (∀ i ∈ l, i ∈ F.insts b) →
      Typed HasTy F (runInsts S l st).regs := by
  induction l with
  | nil => exact fun h _ => h
  | cons i l ih =>
    intro st h hl
    exact ih (h.step hF hS (hl i List.mem_cons_self)) fun k hk => hl k (List.mem_cons_of_mem i hk)

end

/-! Instructions that leave the memory alone. -/

theorem runInsts_quiet {l : List Instr} (h : ∀ i ∈ l, i.isQuiet = true) :
    (runInsts S l st).mem = st.mem := by
  induction l generalizing st with
  | nil => rfl
  | cons i l ih =>
    rw [runInsts_cons, ih fun k hk => h k (List.mem_cons_of_mem i hk)]
    exact (execInst_quiet (h i List.mem_cons_self) st).1

/-- They do not look at it either. -/
theorem runInsts_quiet_mem {l : List Instr} (h : ∀ i ∈ l, i.isQuiet = true) (m : M) :
    runInsts S l { st with mem := m } = { runInsts S l st with mem := m } := by
  induction l generalizing st with
  | nil => rfl
  | cons i l ih =>
    have hi : execInst S i { st with mem := m } = { execInst S i st with mem := m } := by
      have := h i List.mem_cons_self
      cases hphi : i.isPhi with
      | true => simp [execInst, hphi]
      | false =>
        have hpure : i.op.opcode.isPure = true := by simpa [Instr.isQuiet, hphi] using this
        simp [execInst, hphi, hpure]
    rw [runInsts_cons, runInsts_cons, hi, ih fun k hk => h k (List.mem_cons_of_mem i hk)]

/-- Between `i` and `j`, no instruction looks at the memory. -/
def QuietBetween (F : Func) (b : Label) (i j : Instr) : Prop :=
  ∀ k ∈ F.insts b, [i.id, k.id].Sublist (F.ids b) → [k.id, j.id].Sublist (F.ids b) → k.isQuiet = true

/-- The block before `j`, with `i` in it. -/
theorem split_before (hF : F.SsaForm) {l : List Instr} (hb : F.insts b = l ++ j :: post)
    (hi : i ∈ F.insts b) (hp : [i.id, j.id].Sublist (F.ids b)) (hq : QuietBetween F b i j) :
    ∃ pre mid, l = pre ++ i :: mid ∧ ∀ k ∈ mid, k.isQuiet = true := by
  obtain ⟨i', hi', e⟩ := List.mem_map.mp ((split_pair hF hb).mp hp)
  obtain rfl := hF.inst_eq (by rw [hb]; simp [hi']) hi e
  obtain ⟨pre, mid, rfl⟩ := List.append_of_mem hi'
  refine ⟨pre, mid, rfl, fun k hk => ?_⟩
  have hb' : F.insts b = pre ++ i' :: (mid ++ j :: post) := by simp [hb]
  have hkb : k ∈ F.insts b := by rw [hb]; simp [hk]
  exact hq k hkb ((split_after hF hb' hkb).mpr (by simp [hk]))
    ((split_pair hF hb).mpr (List.mem_map_of_mem (by simp [hk])))

/-! The two steps. -/

/-- **Forwarding**: the load reads what was stored. -/
theorem Forwarding.preserves (h : Forwarding F b i j v) (hF : F.SsaForm) (hq : QuietBetween F b i j) :
    Preserves F b (F.substitute j.id v) := by
  intro V M S HasTy st hS hty
  obtain ⟨a, hops, haddr⟩ := store_operands hF h.left h.store h.value
  obtain ⟨a', hops', haddr'⟩ := load_operands hF h.right h.load
  obtain rfl : a = a' := by simpa [sameAddress, haddr, haddr'] using h.address
  have hls := opcode_of_isStore h.store
  have hll := opcode_of_isLoad h.load
  have hphi := not_phi_of_isStore h.store
  have hphi' : j.isPhi = false := by rw [Instr.isPhi, hll]; rfl
  have hvty : v.ty = j.op.ty := (h.available hF).1
  rw [substitute_eq_collapse]
  have hD : Replaceable F b (fun n => n == j.id) v := by
    intro z hz
    exact ⟨j, h.right, (beq_iff_eq.mp hz).symm, h.available hF⟩
  suffices halike : Alike callOrVolatile S (fun n => n == j.id) v (fun _ => True) (F.ids b)
      (runInsts S (F.insts b) st) (runInsts S ((F.collapse (fun n => n == j.id) v).insts b) st) by
    refine ⟨halike.agrees fun z hz => ?_, halike.operandsAgree hF hD fun _ _ _ _ _ _ _ => trivial⟩
    exact beq_iff_eq.mp hz ▸ mem_ids.mpr ⟨j, h.right, rfl⟩
  refine collapse_block hF hD (fun l j' post hb hj => ?_) fun _ _ _ _ _ _ _ => trivial
  have hjb : j' ∈ F.insts b := by rw [hb]; simp
  obtain rfl := hF.inst_eq hjb h.right (beq_iff_eq.mp hj)
  obtain ⟨pre, mid, rfl, hmid⟩ := split_before hF hb h.left h.below hq
  have hb' : F.insts b = pre ++ i :: (mid ++ j' :: post) := by simp [hb]
  have hexec : execInst S j' (runInsts S (pre ++ i :: mid) st) = _ :=
    execInst_effect hphi' (by rw [hll]; rfl)
  have hvol := volatile_of_notVolatile h.quiet
  refine ⟨?_, ?_, fun _ ty => ?_⟩
  · rw [hexec]
    exact hS.load_keeps hll hvol
  · rw [hexec, List.filterMap_append]
    simp [callOrVolatile, hll, hvol]
  · -- the memory is the one the store left, the operands are those it had
    have hmem : (runInsts S (pre ++ i :: mid) st).mem =
        (S.effect i.op (i.args S (runInsts S pre st).regs) (runInsts S pre st).mem).2 := by
      rw [runInsts_append, runInsts_cons, runInsts_quiet hmid,
        execInst_effect hphi (by rw [hls]; rfl)]
    have hkept : ∀ o ∈ i.operands, S.value (runInsts S (pre ++ i :: mid) st).regs o =
        S.value (runInsts S pre st).regs o := fun o ho => operand_kept hF hb' hphi ho
    have hpre : Typed HasTy F (runInsts S pre st).regs :=
      hty.run hF hS fun k hk => by rw [hb]; simp [hk]
    have hx : HasTy (S.value (runInsts S pre st).regs v) j'.op.ty :=
      hvty ▸ hpre.value hF hS h.left (by rw [hops]; simp)
    have hexp : i.op.expects.head? = some j'.op.ty := by
      rw [← hF.typed h.left, hops, ← hvty]
      rfl
    have hargs : i.args S (runInsts S pre st).regs =
        [S.value (runInsts S pre st).regs v, S.value (runInsts S pre st).regs a] := by
      rw [Instr.args, hops]
      rfl
    have hargs' : j'.args S (runInsts S (pre ++ i :: mid) st).regs =
        [S.value (runInsts S pre st).regs a] := by
      rw [Instr.args, hops', ← hkept a (by rw [hops]; simp)]
      rfl
    rw [value_own hphi' (by rw [hll]; rfl), hkept v (by rw [hops]; simp), hmem, hargs, hargs']
    exact (hS.load_stored hls hll hvol hexp hx).symm

/-- Two stores of one address and type. -/
theorem Overwriting.operands (h : Overwriting F b i j) (hF : F.SsaForm) :
    ∃ v w a, i.operands = [v, a] ∧ j.operands = [w, a] ∧ i.op.expects.head? = j.op.expects.head? := by
  obtain ⟨v, hv⟩ := store_value hF h.left h.store
  obtain ⟨w, hw⟩ := store_value hF h.right h.store'
  obtain ⟨a, hops, haddr⟩ := store_operands hF h.left h.store hv
  obtain ⟨a', hops', haddr'⟩ := store_operands hF h.right h.store' hw
  obtain rfl : a = a' := by simpa [sameAddress, haddr, haddr'] using h.address
  refine ⟨v, w, a, hops, hops', ?_⟩
  have := h.type
  simp only [sameDataType, h.store', hv, hw, if_true, Option.map_some, beq_iff_eq] at this
  rw [← hF.typed h.left, ← hF.typed h.right, hops, hops']
  exact this

/-- From any state, the runs with and without the first store. -/
theorem Overwriting.alike (h : Overwriting F b i j) (hF : F.SsaForm) {HasTy : V → Ty → Prop}
    (hS : S.Memory HasTy) (hmid : ∀ k ∈ mid, k.isQuiet = true)
    (hfresh : ∀ id ty, .inst id ty ∈ i.operands → id ∉ (i :: mid).map Instr.id)
    (hun : ∀ k ∈ mid ++ j :: post, (k.id == i.id) = false ∧
      ∀ o ∈ k.operands, ¬ o.isIn fun n => n == i.id) :
    Alike callOrVolatile S (fun n => n == i.id) (.const 0 i.op.ty) (fun _ => False) []
      (runInsts S (i :: (mid ++ j :: post)) s) (runInsts S (mid ++ j :: post) s) := by
  obtain ⟨v, w, a, hops, hops', hexp⟩ := h.operands hF
  have hls := opcode_of_isStore h.store
  have hls' := opcode_of_isStore h.store'
  have hvol := volatile_of_notVolatile h.quiet
  have hv : ¬ (Value.const 0 i.op.ty).isIn fun n => n == i.id := fun ⟨_, _, e, _⟩ => nomatch e
  have hexec : execInst S i s = _ :=
    execInst_effect (not_phi_of_isStore h.store) (by rw [hls]; rfl)
  have hexec' : ∀ t : State V M, execInst S j t = _ := fun t =>
    execInst_effect (not_phi_of_isStore h.store') (by rw [hls']; rfl)
  -- the memory apart, the states agree up to the second store
  have h₁ : Alike callOrVolatile S (fun n => n == i.id) (.const 0 i.op.ty) (fun _ => False) []
      { execInst S i s with mem := s.mem } s := by
    refine ⟨fun {n} hn => ?_, rfl, ?_, fun _ hm => nomatch hm⟩
    · exact (execInst_regs i s (beq_eq_false_iff_ne.mp hn)).symm
    · rw [hexec, List.filterMap_append]
      simp [callOrVolatile, hls, hvol]
  have h₂ := h₁.unread hv (l := mid) fun k hk => hun k (List.mem_append_left _ hk)
  have hmem : runInsts S mid (execInst S i s) =
      { runInsts S mid { execInst S i s with mem := s.mem } with mem := (execInst S i s).mem } :=
    @runInsts_quiet_mem V M S { execInst S i s with mem := s.mem } mid hmid (execInst S i s).mem
  have hmem₀ : (runInsts S mid s).mem = s.mem := runInsts_quiet hmid
  have hregs : ∀ {n}, (n == i.id) = false →
      (runInsts S mid s).regs n = (runInsts S mid (execInst S i s)).regs n := by
    rw [hmem]
    exact fun hn => h₂.regs hn
  have hlog : (runInsts S mid s).log.filterMap callOrVolatile =
      (runInsts S mid (execInst S i s)).log.filterMap callOrVolatile := by
    rw [hmem]
    exact h₂.log
  -- both stores go to the same place
  have hargs : i.args S s.regs = [S.value s.regs v, S.value s.regs a] := by
    rw [Instr.args, hops]
    rfl
  have haddr : S.value (runInsts S mid (execInst S i s)).regs a = S.value s.regs a := by
    rw [← runInsts_cons]
    exact value_congr fun id ty e => runInsts_regs (hfresh id ty (by rw [hops, ← e]; simp))
  have hargs' : j.args S (runInsts S mid (execInst S i s)).regs =
      [S.value (runInsts S mid (execInst S i s)).regs w, S.value s.regs a] := by
    rw [Instr.args, hops', ← haddr]
    rfl
  have hsame : j.args S (runInsts S mid s).regs = j.args S (runInsts S mid (execInst S i s)).regs := by
    have hj := hun j (by simp)
    have := h₂.args hv (i := j) fun z ty ho hz => absurd ⟨z, ty, rfl, hz⟩ (hj.2 _ ho)
    rw [collapse_eq_self hj.2] at this
    rw [this, hmem]
  have hover : (S.effect j.op (j.args S (runInsts S mid (execInst S i s)).regs)
        (runInsts S mid (execInst S i s)).mem).2 =
      (S.effect j.op (j.args S (runInsts S mid (execInst S i s)).regs) (runInsts S mid s).mem).2 := by
    rw [hargs', hmem₀, runInsts_quiet hmid, hexec, hargs]
    exact hS.store_overwrites hls hvol hls' hexp
  have h₃ : Alike callOrVolatile S (fun n => n == i.id) (.const 0 i.op.ty) (fun _ => False) []
      (execInst S j (runInsts S mid (execInst S i s))) (execInst S j (runInsts S mid s)) := by
    rw [hexec', hexec', hsame]
    refine ⟨fun {n} hn => ?_, hover.symm, ?_, fun _ hm => nomatch hm⟩
    · simp only [assign, hS.store_result hls', hregs hn]
    · rw [List.filterMap_append, List.filterMap_append, hlog, ← hover]
      cases hvol' : j.op.volatile <;> simp [callOrVolatile, hls', hvol']
  rw [runInsts_cons, runInsts_append, runInsts_append, runInsts_cons, runInsts_cons]
  exact h₃.unread hv fun k hk => hun k (by simp [hk])

/-- **Deletion**: the second store leaves the memory as if the first one had not been. -/
theorem Overwriting.preserves (h : Overwriting F b i j) (hF : F.SsaForm) (hq : QuietBetween F b i j) :
    Preserves F b (F.eraseFromParent i.id) := by
  intro V M S HasTy st hS hty
  have hun := store_unused hF h.left h.store
  rw [(hF.erase h.left (not_terminator_of_isStore h.store) hun).1, substitute_eq_collapse]
  obtain ⟨l, post, hb⟩ := List.append_of_mem h.right
  obtain ⟨pre, mid, rfl, hmid⟩ := split_before hF hb h.left h.below hq
  have hb' : F.insts b = pre ++ i :: (mid ++ j :: post) := by simp [hb]
  -- nothing but `i` itself is erased, and nothing reads it
  have hunread : ∀ l : List Instr, (∀ k ∈ l, k ∈ F.insts b ∧ k ≠ i) →
      ∀ k ∈ l, (k.id == i.id) = false ∧ ∀ o ∈ k.operands, ¬ o.isIn fun n => n == i.id := by
    intro l hl k hk
    obtain ⟨hkb, hne⟩ := hl k hk
    refine ⟨beq_eq_false_iff_ne.mpr fun e => hne (hF.inst_eq hkb h.left e), ?_⟩
    intro o ho h
    obtain ⟨z, ty, rfl, hz⟩ := h
    have := hun b k hkb _ ho
    rw [Value.refersTo, show (z == i.id) = true from hz] at this
    cases this
  have hpre := hunread pre fun k hk => ⟨by rw [hb']; simp [hk], fun e =>
    not_mem_pre hF hb' (e ▸ List.mem_map_of_mem hk)⟩
  have hrest := hunread (mid ++ j :: post) fun k hk => ⟨by rw [hb']; simp [hk], fun e =>
    not_mem_post hF hb' (e ▸ List.mem_map_of_mem hk)⟩
  have hinsts : (F.collapse (fun n => n == i.id) (.const 0 i.op.ty)).insts b =
      pre ++ (mid ++ j :: post) := by
    rw [collapse_insts, hb', List.filter_append, List.filter_cons_of_neg (by simp), List.map_append,
      collapse_unread hpre, collapse_unread hrest]
  have hfresh : ∀ id ty, .inst id ty ∈ i.operands → id ∉ (i :: mid).map Instr.id := by
    intro id ty ho hm
    refine operand_fresh hF hb' (not_phi_of_isStore h.store) ho ?_
    rw [← List.cons_append, List.map_append]
    exact List.mem_append_left _ hm
  have h₀ := h.alike hF hS hmid hfresh hrest (s := runInsts S pre st)
  rw [← runInsts_append, ← runInsts_append, ← hb', ← hinsts] at h₀
  have halike : Alike callOrVolatile S (fun n => n == i.id) (.const 0 i.op.ty) (fun _ => False)
      (F.ids b) (runInsts S (F.insts b) st) _ := ⟨h₀.regs, h₀.mem, h₀.log, fun _ _ hu => hu.elim⟩
  have hmem : ∀ z, (z == i.id) = true → z ∈ F.ids b := fun z hz =>
    beq_iff_eq.mp hz ▸ mem_ids.mpr ⟨i, h.left, rfl⟩
  refine ⟨halike.agrees hmem, halike.operandsAgree hF (fun z hz => ?_) fun a k hk z ty ho hz => ?_⟩
  · refine ⟨i, h.left, (beq_iff_eq.mp hz).symm, rfl, ?_⟩
    intro _ _ e
    cases e
  · have := hun a k hk _ ho
    rw [Value.refersTo, hz] at this
    cases this

end Ece566.Llvm
