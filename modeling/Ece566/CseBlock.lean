import Ece566.BlockExec
import Ece566.CseSsa

/- Merging within one block. `shouldCSEworkOnInstruction` names the opcodes it does not
   merge and accepts every other one. Of those the pure ones and the phis have one value
   at a time, fences and freezes leave the memory alone, and a block has one exception
   pad at most; what is left is `atomicrmw` and `cmpxchg`, whose second execution writes
   the memory again. So a block runs alike without the instructions the scan from `I`
   erases exactly when `I` is neither of these or the scan erases nothing. -/
namespace Ece566.Llvm

open Dominance

variable {V M X : Type}

namespace Opcode

/-- The exception pads. -/
def isPad : Opcode → Bool
  | landingPad | cleanupPad | catchPad | catchSwitch => true
  | _ => false

/-- Neither pure nor a phi, and yet without an effect on the memory. -/
def isPlain : Opcode → Bool
  | fence | freeze | userOp1 | userOp2 => true
  | _ => false

/-- The opcodes that read and write the memory in one. -/
def isAtomic : Opcode → Bool
  | atomicRMW | atomicCmpXchg => true
  | _ => false

end Opcode

/-- LLVM's rule for exception pads: only phis stand before one. -/
def Func.PadsFirst (F : Func) : Prop :=
  ∀ {b i j}, i ∈ F.insts b → j ∈ F.insts b → j.op.opcode.isPad = true →
    [i.id, j.id].Sublist (F.ids b) → i.isPhi = true

/-- A fence or a freeze leaves the memory as it is, and what it gives depends on its operands. -/
structure Sem.Plain (S : Sem V M) : Prop where
  keeps : ∀ {op args m}, op.opcode.isPlain = true → (S.effect op args m).2 = m
  gives : ∀ {op args m m'}, op.opcode.isPlain = true →
    (S.effect op args m).1 = (S.effect op args m').1

/-- Block `b`, entered from `q`. -/
def runBlock (S : Sem V M) (F : Func) (q b : Label) (st : State V M) : State V M :=
  runInsts S (F.insts b) { st with regs := enter S q (F.insts b) st.regs }

/-- What a phi of block `b` reads of an erased instruction, coming from `q`, is in `v` too. -/
def Carried (S : Sem V M) (F F' : Func) (q b : Label) (v : Value) (regs : Nat → Option V) : Prop :=
  ∀ {i z ty}, i ∈ F.insts b → i.isPhi = true → (.inst z ty, q) ∈ i.operands.zip i.blocks →
    z ∈ F.ids b → z ∉ F'.ids b → S.value regs v = S.value regs (.inst z ty)

/-- Running block `b` of `F'` leaves the memory and the registers that remain as running it of
`F` does, and `v` holds what was in the others. -/
structure Unchanged (S : Sem V M) (F F' : Func) (q b : Label) (v : Value) (st : State V M) : Prop where
  mem : (runBlock S F' q b st).mem = (runBlock S F q b st).mem
  regs : ∀ n, (n ∈ F.ids b → n ∈ F'.ids b) →
    (runBlock S F' q b st).regs n = (runBlock S F q b st).regs n
  held : ∀ {z}, z ∈ F.ids b → z ∉ F'.ids b → ∀ ty,
    S.value (runBlock S F q b st).regs v = S.value (runBlock S F q b st).regs (.inst z ty)

variable {S : Sem V M} {F : Func} {b q : Label} {I i j : Instr} {v : Value} {D : Nat → Bool} {z : Nat}
variable {pre mid post rest : List Instr} {p : Pass} {st : State V M}

/-! What the scan erases. -/

/-- Of the instructions `l` after `I`, those in `D` look like `I` once `I` has taken the place
of `D`, and those that look like `I` now are in `D`. -/
structure Absorbed (I : Instr) (l : List Instr) (D : Nat → Bool) : Prop where
  alike : ∀ {z}, D z = true → ∃ j ∈ l, j.id = z ∧
    (I.collapse D I.value).isIdenticalTo (j.collapse D I.value) = true
  all : ∀ {j}, j ∈ l → I.isIdenticalTo j = true → D j.id = true

theorem identical_collapse (h : i.isIdenticalTo j = true) :
    (i.collapse D v).isIdenticalTo (j.collapse D v) = true := by
  rw [isIdenticalTo_iff] at h ⊢
  simpa [Instr.collapse, h.2.2.2.2.1] using h

theorem Absorbed.start : Absorbed I [] fun _ => false := ⟨fun h => (nomatch h), fun h => (nomatch h)⟩

/-- One more instruction that is merged. -/
theorem Absorbed.take (h : Absorbed I mid D)
    (hj : (I.collapse D I.value).isIdenticalTo (j.collapse D I.value) = true) :
    Absorbed I (mid ++ [j]) fun n => D n || n == j.id where
  alike {z} hz := by
    simp only [← collapse_replace]
    rw [Bool.or_eq_true, beq_iff_eq] at hz
    rcases hz with hz | rfl
    · obtain ⟨k, hk, rfl, hkI⟩ := h.alike hz
      exact ⟨k, List.mem_append_left _ hk, rfl, identical_replace hkI⟩
    · exact ⟨j, by simp, rfl, identical_replace hj⟩
  all {k} hk hI := by
    rcases List.mem_append.mp hk with hk | hk
    · simp [h.all hk hI]
    · simp [List.mem_singleton.mp hk]

/-- One more instruction that is not. -/
theorem Absorbed.leave (h : Absorbed I mid D)
    (hj : (I.collapse D I.value).isIdenticalTo (j.collapse D I.value) = false) :
    Absorbed I (mid ++ [j]) D where
  alike hz := by
    obtain ⟨k, hk, e, hkI⟩ := h.alike hz
    exact ⟨k, List.mem_append_left _ hk, e, hkI⟩
  all {k} hk hI := by
    rcases List.mem_append.mp hk with hk | hk
    · exact h.all hk hI
    · rw [List.mem_singleton.mp hk] at hI
      rw [identical_collapse hI] at hj
      cases hj

/-- **What the scan does**: it puts `I` in place of the instructions it erases. -/
theorem removeCommonInstructionsIn_collapse (hF : F.SsaForm) (rest : List Instr) :
    ∀ {mid : List Instr} {D : Nat → Bool} {p : Pass}, F.insts b = pre ++ I :: (mid ++ rest) →
      p.func = F.collapse D I.value → Absorbed I mid D →
      Wp (removeCommonInstructionsIn b I.id b (rest.map Instr.id)) (fun _ p' =>
        ∃ D, p'.func = F.collapse D I.value ∧ Absorbed I (mid ++ rest) D) p := by
  induction rest with
  | nil =>
    intro mid D p hb hp hD
    rw [List.append_nil]
    exact Wp.pure' ⟨D, hp, hD⟩
  | cons j rest ih =>
    intro mid D p hb hp hD
    have hb' : F.insts b = (pre ++ I :: mid) ++ j :: rest := by simp [hb]
    have hb'' : F.insts b = pre ++ I :: ((mid ++ [j]) ++ rest) := by simp [hb]
    have hmid : mid ++ j :: rest = (mid ++ [j]) ++ rest := by simp
    have hIj : I.id ≠ j.id := by
      intro e
      exact not_mem_post hF hb (by rw [e]; simp)
    have hnotD : ∀ {i : Instr}, i.id ∉ mid.map Instr.id → D i.id = false := by
      intro i hi
      rw [← Bool.not_eq_true]
      intro hz
      obtain ⟨k, hk, e, -⟩ := hD.alike hz
      exact hi (e ▸ List.mem_map_of_mem hk)
    have hImid : I.id ∉ mid.map Instr.id := by
      intro hm
      refine not_mem_post hF hb ?_
      rw [List.map_append]
      exact List.mem_append_left _ hm
    have hjmid : j.id ∉ mid.map Instr.id := by
      intro hm
      refine not_mem_pre hF hb' ?_
      rw [List.map_append, List.map_cons]
      exact List.mem_append_right _ (List.mem_cons_of_mem _ hm)
    have hI : I ∈ F.insts b := by rw [hb]; simp
    have hj : j ∈ F.insts b := by rw [hb]; simp
    -- the scan compares `I` and `j` as they are now
    refine Wp.bind' (deref_collapse hF hp hI (hnotD hImid)) ?_
    intro _ _ h
    obtain ⟨rfl, rfl⟩ := h
    refine Wp.bind' (deref_collapse hF hp hj (hnotD hjmid)) ?_
    intro _ _ h
    obtain ⟨rfl, rfl⟩ := h
    rw [show (I.id != j.id) = true from bne_iff_ne.mpr hIj, Bool.true_and, hmid]
    cases hc : (I.collapse D I.value).isIdenticalTo (j.collapse D I.value) with
    | true =>
      rw [if_pos rfl]
      refine substitute_spec ?_
      refine ih hb'' ?_ (hD.take hc)
      rw [Pass.become, hp]
      exact collapse_substitute
    | false =>
      rw [if_neg Bool.false_ne_true]
      exact ih hb'' hp (hD.leave hc)

/-! What is left of the block. -/

theorem works_cases (h : shouldCSEworkOnInstruction i = true) : i.isPhi = true ∨
    i.op.opcode.isPure = true ∨ i.op.opcode.isPlain = true ∨ i.op.opcode.isPad = true ∨
      i.op.opcode.isAtomic = true := by
  unfold shouldCSEworkOnInstruction Instr.isTerminator Instr.getOpcode at h
  unfold Instr.isPhi
  revert h
  cases i.op.opcode <;> decide

/-- What the erased instructions are. -/
structure Erased (F : Func) (b : Label) (I j : Instr) (D : Nat → Bool) : Prop where
  mem : j ∈ F.insts b
  pair : [I.id, j.id].Sublist (F.ids b)
  alike : (I.collapse D I.value).isIdenticalTo (j.collapse D I.value) = true

theorem Absorbed.erased (h : Absorbed I post D) (hF : F.SsaForm) (hb : F.insts b = pre ++ I :: post)
    (hj : j ∈ F.insts b) (hD : D j.id = true) : Erased F b I j D := by
  obtain ⟨k, hk, e, hkI⟩ := h.alike hD
  have hkb : k ∈ F.insts b := by rw [hb]; simp [hk]
  obtain rfl := hF.inst_eq hkb hj e
  exact ⟨hkb, (split_after hF hb hkb).mpr hk, hkI⟩

theorem Absorbed.replaceable (h : Absorbed I post D) (hF : F.SsaForm) (hb : F.insts b = pre ++ I :: post) :
    Replaceable F b D I.value := by
  intro z hz
  obtain ⟨j, hj, rfl, hI⟩ := h.alike hz
  have hjb : j ∈ F.insts b := by rw [hb]; simp [hj]
  obtain ⟨hop, hty, -⟩ := isIdenticalTo_iff.mp hI
  refine ⟨j, hjb, rfl, hty, fun id ty e => ?_⟩
  obtain ⟨rfl, rfl⟩ := Value.inst.inj e
  refine ⟨b, I, by rw [hb]; simp, rfl, rfl, fun hv => ?_, ?_⟩
  · rw [show I.op.opcode = j.op.opcode from hop]
    exact hv
  · exact .inl ⟨rfl, (split_after hF hb hjb).mpr hj⟩

theorem Absorbed.mem_post (h : Absorbed I post D) : ∀ z, D z = true → z ∈ post.map Instr.id := by
  intro z hz
  obtain ⟨j, hj, rfl, -⟩ := h.alike hz
  exact List.mem_map_of_mem hj

theorem Absorbed.mem_ids (h : Absorbed I post D) (hb : F.insts b = pre ++ I :: post) :
    ∀ z, D z = true → z ∈ F.ids b := by
  intro z hz
  rw [split_ids hb]
  exact List.mem_append_right _ (List.mem_cons_of_mem _ (h.mem_post z hz))

theorem op_ext {op op' : Op} (hopcode : op.opcode = op'.opcode) (hty : op.ty = op'.ty)
    (hexpects : op.expects = op'.expects) (hvol : op.volatile = op'.volatile)
    (hattrs : op.attrs = op'.attrs) : op = op' := by
  cases op
  cases op'
  simp only at hopcode hty hexpects hvol hattrs
  rw [hopcode, hty, hexpects, hvol, hattrs]

/-- An instruction other than a phi is erased as it was. -/
theorem Erased.same (h : Erased F b I j D) (hF : F.SsaForm) (hb : F.insts b = pre ++ I :: post)
    (hD : ∀ z, D z = true → z ∈ post.map Instr.id) (hphi : I.isPhi = false) :
    I.op = j.op ∧ I.operands = j.operands := by
  have hI : I ∈ F.insts b := by rw [hb]; simp
  have halike := h.alike
  rw [collapse_left hF hb hphi hD] at halike
  obtain ⟨hopcode, hty, hvol, hattrs, hops, -⟩ := isIdenticalTo_iff.mp halike
  have hops := (operands_collapse hF hb hphi hD j).mp hops
  have hexpects : I.op.expects = j.op.expects := by rw [← hF.typed hI, ← hF.typed h.mem, hops]
  refine ⟨?_, hops⟩
  exact op_ext hopcode hty hexpects hvol hattrs

/-! Where an instruction has its value from. -/

/-- What an instruction that is no phi leaves in its register. -/
def Sem.result (S : Sem V M) (op : Op) (args : List V) (m : M) : V :=
  if op.opcode.isPure then S.compute op args else (S.effect op args m).1

theorem result_own (hphi : i.isPhi = false) :
    (execInst S i st).regs i.id = some (S.result i.op (i.args S st.regs) st.mem) := by
  cases hpure : i.op.opcode.isPure with
  | true => simp [execInst, hphi, hpure, Sem.result, assign_same]
  | false => simp [execInst, hphi, hpure, Sem.result, assign_same]

theorem Sem.Plain.result (hS : S.Plain) {op : Op} {args : List V} {m m' : M}
    (h : op.opcode.isPure = true ∨ op.opcode.isPlain = true) :
    S.result op args m = S.result op args m' := by
  cases hpure : op.opcode.isPure with
  | true => simp [Sem.result, hpure]
  | false =>
    have hplain : op.opcode.isPlain = true := by simpa [hpure] using h
    simp only [Sem.result, hpure, Bool.false_eq_true, if_false]
    exact hS.gives hplain

theorem Sem.Plain.mem (hS : S.Plain)
    (h : i.isPhi = true ∨ i.op.opcode.isPure = true ∨ i.op.opcode.isPlain = true) :
    (execInst S i st).mem = st.mem := by
  cases hphi : i.isPhi with
  | true => simp [execInst, hphi]
  | false =>
    cases hpure : i.op.opcode.isPure with
    | true => simp [execInst, hphi, hpure]
    | false =>
      rw [execInst_effect hphi hpure]
      exact hS.keeps (by simpa [hphi, hpure] using h)

/-- A phi keeps what it has from the entry of its block. -/
theorem runInsts_phi {l : List Instr} (h : ∀ k ∈ l, k.id = z → k.isPhi = true) :
    (runInsts S l st).regs z = st.regs z := by
  induction l generalizing st with
  | nil => rfl
  | cons k l ih =>
    rw [runInsts_cons, ih fun i hi => h i (List.mem_cons_of_mem k hi)]
    by_cases hk : k.id = z
    · simp [execInst, h k List.mem_cons_self hk]
    · exact execInst_regs k st (Ne.symm hk)

section
variable {regs : Nat → Option V}

theorem Carried.operand (hc : Carried S F (F.collapse D v) q b v regs) (hD : ∀ z, D z = true → z ∈ F.ids b)
    (hi : i ∈ F.insts b) (hphi : i.isPhi = true) {o : Value} (ho : (o, q) ∈ i.operands.zip i.blocks) :
    S.value regs (o.collapse D v) = S.value regs o := by
  by_cases hin : o.isIn D
  · obtain ⟨z, ty, rfl, hz⟩ := hin
    rw [collapse_isIn hz]
    refine hc hi hphi ho (hD z hz) fun hm => ?_
    rw [collapse_ids, List.mem_filter, hz] at hm
    exact absurd hm.2 (by simp)
  · rw [collapse_of_not_isIn hin]

theorem Carried.phiValue (hc : Carried S F (F.collapse D v) q b v regs)
    (hD : ∀ z, D z = true → z ∈ F.ids b) (hi : i ∈ F.insts b) (hphi : i.isPhi = true) :
    phiValue S regs q (i.collapse D v) = phiValue S regs q i :=
  phiValue_map fun _ ho => hc.operand hD hi hphi ho

/-- The registers that remain are the same at the entry. -/
theorem Carried.enter (hc : Carried S F (F.collapse D v) q b v regs) (hD : ∀ z, D z = true → z ∈ F.ids b)
    {n : Nat} (hn : D n = false) : Llvm.enter S q ((F.collapse D v).insts b) regs n =
      Llvm.enter S q (F.insts b) regs n := by
  rw [Llvm.enter, Llvm.enter, collapse_insts,
    find?_edited (f := fun i => i.collapse D v) (fun i => rfl) (by
      intro i _ hp
      simp only [Bool.and_eq_true, beq_iff_eq] at hp
      simp [hp.2, hn])]
  cases hf : (F.insts b).find? fun i => i.isPhi && i.id == n with
  | none => rfl
  | some i =>
    have hp := List.find?_some hf
    simp only [Bool.and_eq_true] at hp
    exact congrArg some (hc.phiValue hD (List.mem_of_find?_eq_some hf) hp.1)

/-- A phi that is erased has the value of `I`. -/
theorem Erased.phi (h : Erased F b I j D) (hF : F.SsaForm) (hI : I ∈ F.insts b) (hphi : I.isPhi = true)
    (hc : Carried S F (F.collapse D I.value) q b I.value regs) (hD : ∀ z, D z = true → z ∈ F.ids b) :
    Llvm.enter S q (F.insts b) regs I.id = Llvm.enter S q (F.insts b) regs j.id := by
  obtain ⟨hopcode, -, -, -, hops, hblocks⟩ := isIdenticalTo_iff.mp h.alike
  have hphij : j.isPhi = true := by
    rw [Instr.isPhi, ← show I.op.opcode = j.op.opcode from hopcode]
    exact hphi
  have hsame : Llvm.phiValue S regs q (I.collapse D I.value) =
      Llvm.phiValue S regs q (j.collapse D I.value) := by
    rw [Llvm.phiValue, Llvm.phiValue, hops, hblocks]
  rw [enter_phi hF hI hphi, enter_phi hF h.mem hphij, ← hc.phiValue hD hI hphi,
    ← hc.phiValue hD h.mem hphij, hsame]

end

/-! Both directions. -/

/-- Nothing is observed of a block but its registers and its memory. -/
def noEvent (_ : Event V M) : Option Unit := none

theorem filterMap_noEvent (l : List (Event V M)) : l.filterMap noEvent = [] :=
  List.filterMap_eq_nil_iff.mpr fun _ _ => rfl

/-- Without the instructions erased the block runs alike, if `I` has no effect on the memory. -/
theorem absorbed_alike (hF : F.SsaForm) (hS : S.Plain) (hb : F.insts b = pre ++ I :: post)
    (hD : Absorbed I post D)
    (hI : I.isPhi = true ∨ I.op.opcode.isPure = true ∨ I.op.opcode.isPlain = true)
    (hc : Carried S F (F.collapse D I.value) q b I.value st.regs) :
    Alike noEvent S D I.value (fun _ => True) (F.ids b) (runBlock S F q b st)
      (runBlock S (F.collapse D I.value) q b st) := by
  refine collapse_block_from hF (hD.replaceable hF hb)
    ⟨fun hn => hc.enter (hD.mem_ids hb) hn, rfl, rfl, fun _ hm => nomatch hm⟩
    (fun l j post' hb' hj => ?_) fun _ _ _ _ _ _ _ => trivial
  have hIb : I ∈ F.insts b := by rw [hb]; simp
  have hjb : j ∈ F.insts b := by rw [hb']; simp
  have he := hD.erased hF hb hjb hj
  have hopcode : I.op.opcode = j.op.opcode := (isIdenticalTo_iff.mp he.alike).1
  have hsafe : j.isPhi = true ∨ j.op.opcode.isPure = true ∨ j.op.opcode.isPlain = true := by
    rw [Instr.isPhi, ← hopcode]
    exact hI
  refine ⟨hS.mem hsafe, (filterMap_noEvent _).trans (filterMap_noEvent _).symm, fun _ ty => ?_⟩
  cases hphi : I.isPhi with
  | true =>
    -- a phi has its value from the entry, and so has `I`
    have hphij : j.isPhi = true := by
      rw [Instr.isPhi, ← hopcode]
      exact hphi
    have hself : ∀ {i : Instr}, i ∈ F.insts b → i.isPhi = true → ∀ k ∈ l, k.id = i.id → k.isPhi = true := by
      intro i hi hp k hk e
      rw [hF.inst_eq (by rw [hb']; simp [hk]) hi e]
      exact hp
    have hskip : ∀ st : State V M, execInst S j st = st := fun st => by simp [execInst, hphij]
    rw [hskip, Instr.value, Sem.value, Sem.value, runInsts_phi (hself hIb hphi),
      runInsts_phi (hself hjb hphij)]
    exact congrArg (fun v => v.getD S.undef) (he.phi hF hIb hphi hc (hD.mem_ids hb))
  | false =>
    -- `I` ran before, on the same operands
    obtain ⟨hop, hops⟩ := he.same hF hb hD.mem_post hphi
    have hphij : j.isPhi = false := by
      rw [Instr.isPhi, ← hopcode]
      exact hphi
    have hsafe' : j.op.opcode.isPure = true ∨ j.op.opcode.isPlain = true := by simpa [hphij] using hsafe
    obtain ⟨I', hI', e⟩ := List.mem_map.mp ((split_pair hF hb').mp he.pair)
    obtain rfl := hF.inst_eq (by rw [hb']; simp [hI']) hIb e
    obtain ⟨l₁, l₂, rfl⟩ := List.append_of_mem hI'
    have hb'' : F.insts b = l₁ ++ I' :: (l₂ ++ j :: post') := by simp [hb']
    have hown : I'.id ∉ l₂.map Instr.id := by
      intro hm
      refine not_mem_post hF hb'' ?_
      rw [List.map_append]
      exact List.mem_append_left _ hm
    have hargs : ∀ st : State V M, j.args S (runInsts S (l₁ ++ I' :: l₂) st).regs =
        I'.args S (runInsts S l₁ st).regs := by
      intro st
      rw [Instr.args, ← hops]
      exact List.map_congr_left fun o ho => operand_kept hF hb'' hphi ho
    rw [Instr.value, Sem.value, Sem.value, runInsts_own hown, result_own hphi, result_own hphij, hargs, hop,
      hS.result hsafe']

theorem absorbed_unchanged (hF : F.SsaForm) (hS : S.Plain) (hb : F.insts b = pre ++ I :: post)
    (hD : Absorbed I post D)
    (hI : I.isPhi = true ∨ I.op.opcode.isPure = true ∨ I.op.opcode.isPlain = true)
    (hc : Carried S F (F.collapse D I.value) q b I.value st.regs) :
    Unchanged S F (F.collapse D I.value) q b I.value st := by
  have h := absorbed_alike hF hS hb hD hI hc
  have hout : ∀ {z}, D z = true → z ∉ (F.collapse D I.value).ids b := by
    intro z hz hm
    rw [collapse_ids, List.mem_filter, hz] at hm
    exact absurd hm.2 (by simp)
  refine ⟨h.mem, fun n hn => h.regs ?_, fun {z} hz hz' ty => h.value ?_ hz trivial ty⟩
  · rw [← Bool.not_eq_true]
    exact fun hz => hout hz (hn (hD.mem_ids hb n hz))
  · rw [← Bool.not_eq_false]
    intro hDz
    refine hz' ?_
    rw [collapse_ids, List.mem_filter, hDz]
    exact ⟨hz, rfl⟩

theorem unchanged_refl : Unchanged S F F q b v st :=
  ⟨rfl, fun _ _ => rfl, fun h h' => absurd h h'⟩

/-- The memory counts the atomic writes. -/
def tally : Sem Unit Nat where
  leaf _ := ()
  undef := ()
  compute _ _ := ()
  effect op _ m := ((), if op.opcode.isAtomic then m + 1 else m)
  branch _ _ _ := 0

theorem tally_plain : tally.Plain where
  keeps {op args m} h := by
    have hop : op.opcode.isAtomic = false := by
      revert h
      cases op.opcode <;> decide
    simp [tally, hop]
  gives _ := rfl

theorem tally_mem {l : List Instr} {st : State Unit Nat} : (runInsts tally l st).mem =
    st.mem + l.countP fun i => i.op.opcode.isAtomic := by
  induction l generalizing st with
  | nil => rfl
  | cons i l ih =>
    have hstep : (execInst tally i st).mem = st.mem + if i.op.opcode.isAtomic = true then 1 else 0 := by
      cases hat : i.op.opcode.isAtomic with
      | true =>
        have hphi : i.isPhi = false ∧ i.op.opcode.isPure = false := by
          rw [Instr.isPhi]
          revert hat
          cases i.op.opcode <;> decide
        rw [execInst_effect hphi.1 hphi.2]
        simp [tally, hat]
      | false =>
        cases hphi : i.isPhi with
        | true => simp [execInst, hphi]
        | false =>
          cases hpure : i.op.opcode.isPure with
          | true => simp [execInst, hphi, hpure]
          | false =>
            rw [execInst_effect hphi hpure]
            simp [tally, hat]
    rw [runInsts_cons, ih, List.countP_cons, hstep]
    omega

/-- A second atomic write that is erased is missing in the count. -/
theorem erased_atomic (hj : j ∈ F.insts b) (hDj : D j.id = true) (hat : j.op.opcode.isAtomic = true)
    {st : State Unit Nat} : ¬ Unchanged tally F (F.collapse D v) q b v st := by
  intro h
  have hmem := h.mem
  rw [runBlock, runBlock, tally_mem, tally_mem, collapse_insts, List.countP_map] at hmem
  have hsplit := List.countP_eq_countP_filter_add (F.insts b) (fun i => i.op.opcode.isAtomic)
    (fun i => !D i.id)
  have hpos : 0 < ((F.insts b).filter fun i => !!D i.id).countP fun i => i.op.opcode.isAtomic :=
    List.countP_pos_iff.mpr ⟨j, List.mem_filter.mpr ⟨hj, by simp [hDj]⟩, hat⟩
  have hops : ((fun i => i.op.opcode.isAtomic) ∘ fun i : Instr => i.collapse D v) =
      fun i => i.op.opcode.isAtomic := rfl
  rw [hops] at hmem
  simp only at hmem
  omega

/-- **Merging within a block is right exactly without a second atomic write.** The scan of its
block from an instruction `I` that the pass works on succeeds, and for every memory and all
registers the block leaves what it left before if and only if `I` is no `atomicrmw` and no
`cmpxchg` or the block has no later instruction identical to `I`. -/
theorem removeCommonInstructionsIn_unchanged_iff (hF : p.func.SsaForm) (hpads : p.func.PadsFirst)
    (hi : I ∈ p.func.insts b) (hw : shouldCSEworkOnInstruction I = true) :
    ∃ p', (removeCommonInstructionsIn b I.id b (p.func.idsFrom b I.id)).run p = some (⟨⟩, p') ∧
      ((∀ {V M : Type} (S : Sem V M) (q : Label) (st : State V M), S.Plain →
          Carried S p.func p'.func q b I.value st.regs →
            Unchanged S p.func p'.func q b I.value st) ↔
        I.op.opcode.isAtomic = false ∨ ∀ j ∈ p.func.insts b, [I.id, j.id].Sublist (p.func.ids b) →
          I.isIdenticalTo j = false) := by
  obtain ⟨pre, post, hb⟩ := List.append_of_mem hi
  have hfrom : p.func.idsFrom b I.id = I.id :: post.map Instr.id :=
    idsFrom_eq (split_ids hb) (hF.nodup b)
  have hb₀ : p.func.insts b = pre ++ I :: ([] ++ post) := hb
  have hscan : Wp (removeCommonInstructionsIn b I.id b (I.id :: post.map Instr.id)) (fun _ p' =>
      ∃ D, p'.func = p.func.collapse D I.value ∧ Absorbed I post D) p := by
    -- the scan passes `I` itself
    refine Wp.bind' (deref_spec hF hi rfl) ?_
    intro _ _ h
    obtain ⟨rfl, rfl⟩ := h
    refine Wp.bind' (deref_spec hF hi rfl) ?_
    intro _ _ h
    obtain ⟨rfl, rfl⟩ := h
    rw [bne_self_eq_false, Bool.false_and, if_neg Bool.false_ne_true]
    exact removeCommonInstructionsIn_collapse hF post hb₀ collapse_none.symm Absorbed.start
  obtain ⟨_, p', hrun, D, hp', hD⟩ := hscan
  refine ⟨p', hfrom ▸ hrun, ?_⟩
  rw [hp']
  refine ⟨?_, ?_⟩
  · intro h
    by_contra hno
    simp only [not_or, Bool.not_eq_false, not_forall] at hno
    obtain ⟨hat, j, hj, hpair, hid⟩ := hno
    have hDj := hD.all ((split_after hF hb hj).mp hpair) hid
    have hatj : j.op.opcode.isAtomic = true := by
      rw [← (isIdenticalTo_iff.mp hid).1]
      exact hat
    exact erased_atomic hj hDj hatj (h tally b ⟨fun _ => none, 0, [], []⟩ tally_plain
      fun _ _ _ _ _ => rfl)
  · intro h V M S q st hS hc
    by_cases hnone : ∀ z, D z = false
    · obtain rfl : D = fun _ => false := funext hnone
      rw [collapse_none]
      exact unchanged_refl
    · -- something is erased, so `I` is neither atomic nor a pad
      simp only [not_forall, Bool.not_eq_false] at hnone
      obtain ⟨z, hz⟩ := hnone
      obtain ⟨j, hj, rfl, -⟩ := hD.alike hz
      have hjb : j ∈ p.func.insts b := by rw [hb]; simp [hj]
      have he := hD.erased hF hb hjb hz
      have hopcode : I.op.opcode = j.op.opcode := (isIdenticalTo_iff.mp he.alike).1
      refine absorbed_unchanged hF hS hb hD ?_ hc
      rcases works_cases hw with hphi | hpure | hplain | hpad | hat
      · exact .inl hphi
      · exact .inr (.inl hpure)
      · exact .inr (.inr hplain)
      · exact .inl (hpads hi hjb (hopcode ▸ hpad) he.pair)
      · exfalso
        have hphi : I.isPhi = false := by
          rw [Instr.isPhi]
          revert hat
          cases I.op.opcode <;> decide
        have hid : I.isIdenticalTo j = true := by
          obtain ⟨hop, hops⟩ := he.same hF hb hD.mem_post hphi
          have hblocks := (isIdenticalTo_iff.mp he.alike).2.2.2.2.2
          exact isIdenticalTo_iff.mpr ⟨by rw [hop], by rw [hop], by rw [hop], by rw [hop], hops, hblocks⟩
        rcases h with h | h
        · rw [hat] at h
          cases h
        · rw [h j hjb he.pair] at hid
          cases hid

/-- `%1 = atomicrmw add %p, 1`, `%2 = atomicrmw add %p, 1`, `%3 = sub %2, %1`, `ret %3`. -/
def addTwiceAtomic : Func :=
  let rmw : Op := ⟨.atomicRMW, 32, [64, 32], false, 0⟩
  oneBlock ([⟨1, rmw, [.arg 0 64, .const 1 32], []⟩, ⟨2, rmw, [.arg 0 64, .const 1 32], []⟩,
      ⟨3, ⟨.sub, 32, [32, 32], false, 0⟩, [.inst 2 32, .inst 1 32], []⟩] ++
    [⟨4, ⟨.ret, 0, [32], false, 0⟩, [.inst 3 32], []⟩])

theorem addTwiceAtomic_ssaForm : addTwiceAtomic.SsaForm :=
  oneBlock_ssaForm (by decide) (by decide) (by decide)

theorem addTwiceAtomic_padsFirst : addTwiceAtomic.PadsFirst := by
  intro b i j _ hj hpad
  have hnone : (addTwiceAtomic.insts 0).all (fun j => !j.op.opcode.isPad) = true := by decide
  obtain ⟨rfl, -⟩ := oneBlock_insts hj
  have := List.all_eq_true.mp hnone j hj
  rw [hpad] at this
  cases this

/-- The first `atomicrmw`. -/
def firstAdd : Instr := ⟨1, ⟨.atomicRMW, 32, [64, 32], false, 0⟩, [.arg 0 64, .const 1 32], []⟩

theorem removeCommonInstructionsIn_unchanged_iff_atomic :
    ∃ p', (removeCommonInstructionsIn 0 1 0 (addTwiceAtomic.idsFrom 0 1)).run
        (Pass.start addTwiceAtomic) = some (⟨⟩, p') ∧
      ((∀ {V M : Type} (S : Sem V M) (q : Label) (st : State V M), S.Plain →
          Carried S addTwiceAtomic p'.func q 0 firstAdd.value st.regs →
            Unchanged S addTwiceAtomic p'.func q 0 firstAdd.value st) ↔
        firstAdd.op.opcode.isAtomic = false ∨ ∀ j ∈ addTwiceAtomic.insts 0,
          [1, j.id].Sublist (addTwiceAtomic.ids 0) → firstAdd.isIdenticalTo j = false) :=
  removeCommonInstructionsIn_unchanged_iff (p := Pass.start addTwiceAtomic) (b := 0) (I := firstAdd)
    addTwiceAtomic_ssaForm addTwiceAtomic_padsFirst (by decide) (by decide)

/-- Two additions to the same word: after the merge the memory is written once. -/
theorem atomic_merged : ∃ p', (removeCommonInstructionsIn 0 1 0 (addTwiceAtomic.idsFrom 0 1)).run
      (Pass.start addTwiceAtomic) = some (⟨⟩, p') ∧
    ¬ ∀ (V M : Type) (S : Sem V M) (q : Label) (st : State V M), S.Plain →
      Carried S addTwiceAtomic p'.func q 0 firstAdd.value st.regs →
        Unchanged S addTwiceAtomic p'.func q 0 firstAdd.value st := by
  refine ⟨_, rfl, fun h => ?_⟩
  have hmem := (h Unit Nat tally 0 ⟨fun _ => none, 0, [], []⟩ tally_plain fun _ _ _ _ _ => rfl).mem
  exact absurd hmem (by decide)

end Ece566.Llvm
