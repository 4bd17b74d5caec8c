import Ece566.CsePass
import Ece566.SsaForm
import Ece566.Wp

/- The pass as a sequence of edits. Whatever `CommonSubexpressionElimination` does to a
   function is one of six edits, each of which erases one instruction, counts it, and
   may put a value in its place (`Edit`); the specifications below say that every
   sub-pass succeeds and makes such edits only. An edit keeps SSA form, and a function
   only ever gets smaller (`Shrinks`). -/
namespace Ece566.Llvm

open Dominance Relation

variable {F F' G : Func} {b : Label} {i j : Instr} {p p' : Pass}

/-! Getting smaller. -/

/-- `F'` is `F` without some instructions, and with other operands. -/
structure Shrinks (F F' : Func) : Prop where
  entry : F'.entry = F.entry
  blocks : F'.blocks = F.blocks
  edge : F'.Edge = F.Edge
  ids : ∃ q : Nat → Bool, ∀ b, F'.ids b = (F.ids b).filter q
  insts : ∀ {b i'}, i' ∈ F'.insts b →
    ∃ i ∈ F.insts b, i'.id = i.id ∧ i'.op = i.op ∧ i'.blocks = i.blocks

namespace Shrinks

theorem refl (F : Func) : Shrinks F F :=
  ⟨rfl, rfl, rfl, ⟨fun _ => true, fun b => by simp⟩, fun h => ⟨_, h, rfl, rfl, rfl⟩⟩

theorem trans (h : Shrinks F F') (h' : Shrinks F' G) : Shrinks F G where
  entry := h'.entry.trans h.entry
  blocks := h'.blocks.trans h.blocks
  edge := h'.edge.trans h.edge
  ids := by
    obtain ⟨q, hq⟩ := h.ids
    obtain ⟨q', hq'⟩ := h'.ids
    exact ⟨fun n => q n && q' n, fun b => by rw [hq', hq, List.filter_filter]; congr 1; grind⟩
  insts hi := by
    obtain ⟨i', hi', e₁, e₂, e₃⟩ := h'.insts hi
    obtain ⟨i, hi, e₁', e₂', e₃'⟩ := h.insts hi'
    exact ⟨i, hi, e₁.trans e₁', e₂.trans e₂', e₃.trans e₃'⟩

theorem mem (h : Shrinks F F') {n : Nat} (hn : n ∈ F'.ids b) : n ∈ F.ids b := by
  obtain ⟨q, hq⟩ := h.ids
  rw [hq] at hn
  exact (List.mem_filter.mp hn).1

theorem pair (h : Shrinks F F') {x y : Nat} (hs : [x, y].Sublist (F.ids b)) (hx : x ∈ F'.ids b)
    (hy : y ∈ F'.ids b) : [x, y].Sublist (F'.ids b) := by
  obtain ⟨q, hq⟩ := h.ids
  rw [hq] at hx hy ⊢
  have := hs.filter q
  rwa [List.filter_cons_of_pos (List.mem_filter.mp hx).2,
    List.filter_cons_of_pos (List.mem_filter.mp hy).2] at this

theorem pair_of (h : Shrinks F F') {x y : Nat} (hs : [x, y].Sublist (F'.ids b)) :
    [x, y].Sublist (F.ids b) := by
  obtain ⟨q, hq⟩ := h.ids
  rw [hq] at hs
  exact hs.trans List.filter_sublist

/-- What is left of an instruction is what it was, operands apart. -/
theorem inst (h : Shrinks F F') (hF : F.SsaForm) (hi : i ∈ F.insts b) (hn : i.id ∈ F'.ids b) :
    ∃ i' ∈ F'.insts b, i'.id = i.id ∧ i'.op = i.op := by
  obtain ⟨i', hi', e⟩ := mem_ids.mp hn
  obtain ⟨i₀, hi₀, e₁, e₂, -⟩ := h.insts hi'
  obtain rfl := hF.inst_eq hi₀ hi (e₁.symm.trans e)
  exact ⟨i', hi', e, e₂⟩

end Shrinks

theorem Func.SsaForm.substitute_shrinks (h : F.SsaForm) (hi : i ∈ F.insts b)
    (hterm : i.isTerminator = false) (v : Value) : Shrinks F (F.substitute i.id v) where
  entry := rfl
  blocks := rfl
  edge := h.substitute_edge hi hterm
  ids := ⟨fun n => n != i.id, fun _ => substitute_ids⟩
  insts hi' := by
    obtain ⟨j, hj, -, rfl⟩ := mem_substitute.mp hi'
    exact ⟨j, hj, rfl, rfl, rfl⟩

/-! What the tests of the pass mean. -/

theorem isDead_iff (h : F.SsaForm) (hd : isDead F i = true) : i.isTerminator = false ∧
    ∀ b, ∀ j ∈ F.insts b, ∀ o ∈ j.operands, o.refersTo i.id = false := by
  simp only [isDead, Bool.and_eq_true, Bool.not_eq_true'] at hd
  refine ⟨?_, ?_⟩
  · unfold Instr.isTerminator
    unfold Instr.getOpcode at hd
    cases ho : i.op.opcode <;> first | rfl | (rw [ho] at hd; exact absurd hd.2 (by decide))
  · intro b j hj o ho
    have hall : j ∈ F.all := List.mem_flatMap.mpr ⟨b, h.listed (List.ne_nil_of_mem hj), hj⟩
    have := hd.1
    simp only [Func.hasUses, List.any_eq_false, Bool.not_eq_true] at this
    exact this j hall o ho

theorem works_not_terminator (h : shouldCSEworkOnInstruction i = true) : i.isTerminator = false := by
  unfold shouldCSEworkOnInstruction at h
  split at h
  · cases h
  · rename_i hterm
    exact Bool.not_eq_true _ ▸ hterm

/-- Instructions of a well-formed function that are identical have the same `Op`. -/
theorem identical_op (h : F.SsaForm) {bb : Label} (hi : i ∈ F.insts b) (hj : j ∈ F.insts bb)
    (he : i.isIdenticalTo j = true) : i.op = j.op := by
  obtain ⟨e₁, e₂, e₃, e₄, e₅, -⟩ := isIdenticalTo_iff.mp he
  have e₆ : i.op.expects = j.op.expects := by rw [← h.typed hi, ← h.typed hj, e₅]
  obtain ⟨id, ⟨opcode, ty, expects, volatile, attrs⟩, operands, blocks⟩ := i
  obtain ⟨id', ⟨opcode', ty', expects', volatile', attrs'⟩, operands', blocks'⟩ := j
  simp_all

/-! The edits. -/

/-- Instruction `j` of block `bb` is one the scans from instruction `i` of block `b` erase. -/
structure Merging (F : Func) (b : Label) (i : Instr) (bb : Label) (j : Instr) : Prop where
  left : i ∈ F.insts b
  right : j ∈ F.insts bb
  works : shouldCSEworkOnInstruction i = true
  identical : i.isIdenticalTo j = true
  below : (b = bb ∧ [i.id, j.id].Sublist (F.ids bb)) ∨ Idom F.Edge F.entry b bb

/-- The later load `j` reads what the load `i` reads. -/
structure Reloading (F : Func) (b : Label) (i j : Instr) : Prop where
  left : i ∈ F.insts b
  right : j ∈ F.insts b
  load : isLoad i = true
  opcode : sameOpcode i j = true
  quiet : notVolatile j = true
  type : sameType i j = true
  operands : sameOperands i j = true
  below : [i.id, j.id].Sublist (F.ids b)

/-- The later load `j` reads the value `v` that `i` stores. -/
structure Forwarding (F : Func) (b : Label) (i j : Instr) (v : Value) : Prop where
  left : i ∈ F.insts b
  right : j ∈ F.insts b
  store : isStore i = true
  load : isLoad j = true
  quiet : notVolatile j = true
  address : sameAddress i j = true
  type : sameDataType i j = true
  value : i.getValueOperand = some v
  below : [i.id, j.id].Sublist (F.ids b)

/-- The later store `j` overwrites what `i` stores. -/
structure Overwriting (F : Func) (b : Label) (i j : Instr) : Prop where
  left : i ∈ F.insts b
  right : j ∈ F.insts b
  store : isStore i = true
  store' : isStore j = true
  quiet : notVolatile i = true
  address : sameAddress i j = true
  type : sameDataType i j = true
  below : [i.id, j.id].Sublist (F.ids b)

def Pass.become (p : Pass) (F : Func) : Pass := { p with func := F, trail := p.trail ++ [F] }

/-- The merges of one call of `basicCSEPass`. -/
inductive Merge (b : Label) (I : Nat) : Pass → Pass → Prop where
  | mk {p : Pass} {i j : Instr} {bb : Label} : i.id = I → Merging p.func b i bb j →
      Merge b I p { p.become (p.func.substitute j.id i.value) with cseElim := p.cseElim + 1 }

inductive Edit (simplifyInstruction : Func → Label → Instr → Option Value) : Pass → Pass → Prop where
  | dead {p : Pass} {b : Label} {i : Instr} : i ∈ p.func.insts b → isDead p.func i = true →
      Edit simplifyInstruction p
        { p.become (p.func.eraseFromParent i.id) with cseDead := p.cseDead + 1 }
  | simplify {p : Pass} {b : Label} {i : Instr} {v : Value} : i ∈ p.func.insts b →
      simplifyInstruction p.func b i = some v →
      Edit simplifyInstruction p
        { p.become (p.func.substitute i.id v) with cseSimplify := p.cseSimplify + 1 }
  | merge {p p' : Pass} {b : Label} {I : Nat} : Merge b I p p' → Edit simplifyInstruction p p'
  | load {p : Pass} {b : Label} {i j : Instr} : Reloading p.func b i j → Edit simplifyInstruction p
        { p.become (p.func.substitute j.id i.value) with cseLdElim := p.cseLdElim + 1 }
  | forward {p : Pass} {b : Label} {i j : Instr} {v : Value} :
    Forwarding p.func b i j v → Edit simplifyInstruction p
        { p.become (p.func.substitute j.id v) with cseStore2Load := p.cseStore2Load + 1 }
  | store {p : Pass} {b : Label} {i j : Instr} : Overwriting p.func b i j → Edit simplifyInstruction p
        { p.become (p.func.eraseFromParent i.id) with cseStElim := p.cseStElim + 1 }

/-- LLVM's `SimplifyInstruction`: the value it finds has the instruction's type and is
available there, and it finds none for a terminator. -/
def Simplifies (simplifyInstruction : Func → Label → Instr → Option Value) : Prop :=
  ∀ {F : Func} {b i v}, F.SsaForm → i ∈ F.insts b → simplifyInstruction F b i = some v →
    i.isTerminator = false ∧ F.Available v b i

theorem simplifies_none : Simplifies fun _ _ _ => none := fun _ _ h => nomatch h

theorem Merging.before (h : Merging F b i b' j) : F.Before b i.id b' j.id := by
  rcases h.below with ⟨rfl, hs⟩ | hd
  · exact .inl ⟨rfl, hs⟩
  · exact .inr ⟨hd.1, hd.2.1⟩

/-! Each edit keeps SSA form. -/

theorem opcode_of_isLoad (h : isLoad i = true) : i.op.opcode = .load := by
  simpa [isLoad, Instr.getOpcode] using h

theorem opcode_of_isStore (h : isStore i = true) : i.op.opcode = .store := by
  simpa [isStore, Instr.getOpcode] using h

theorem volatile_of_notVolatile (h : notVolatile i = true) : i.op.volatile = false := by
  simpa [notVolatile] using h

theorem not_phi_of_isStore (h : isStore i = true) : i.isPhi = false := by
  rw [Instr.isPhi, opcode_of_isStore h]; rfl

theorem not_pure_of_isStore (h : isStore i = true) : i.op.opcode.isPure = false := by
  rw [opcode_of_isStore h]; rfl

theorem not_pure_of_isLoad (h : isLoad i = true) : i.op.opcode.isPure = false := by
  rw [opcode_of_isLoad h]; rfl

theorem isPhi_of_isLoad (h : isLoad i = true) : i.isPhi = false := by
  rw [Instr.isPhi, opcode_of_isLoad h]; rfl

theorem not_terminator_of_isStore (h : isStore i = true) : i.isTerminator = false := by
  rw [Instr.isTerminator, opcode_of_isStore h]; rfl

theorem not_terminator_of_isLoad (h : isLoad i = true) : i.isTerminator = false := by
  rw [Instr.isTerminator, opcode_of_isLoad h]; rfl

theorem store_value (hF : F.SsaForm) (hi : i ∈ F.insts b) (hs : isStore i = true) :
    ∃ v, i.getValueOperand = some v := by
  have hop := opcode_of_isStore hs
  have hlen := (hF.shape hi).2 hop
  exact ⟨i.operands[0], by simp [Instr.getValueOperand, hop]⟩

/-- The operands of a store and of a load. -/
theorem store_operands (hF : F.SsaForm) (hi : i ∈ F.insts b) (hs : isStore i = true)
    {v : Value} (hv : i.getValueOperand = some v) :
    ∃ a, i.operands = [v, a] ∧ i.getPointerOperand = some a := by
  have hop := opcode_of_isStore hs
  have hlen := (hF.shape hi).2 hop
  match hops : i.operands, hlen with
  | [x, a], _ =>
    simp only [Instr.getValueOperand, Instr.getPointerOperand, hop, hops] at hv ⊢
    exact ⟨a, by simpa using hv, rfl⟩

theorem load_operands (hF : F.SsaForm) (hj : j ∈ F.insts b) (hl : isLoad j = true) :
    ∃ a, j.operands = [a] ∧ j.getPointerOperand = some a := by
  have hop := opcode_of_isLoad hl
  have hlen := (hF.shape hj).1 hop
  match hops : j.operands, hlen with
  | [a], _ => exact ⟨a, rfl, by simp [Instr.getPointerOperand, hop, hops]⟩

theorem Reloading.right_load (h : Reloading F b i j) : isLoad j = true := by
  have h₁ := h.load
  have h₂ := h.opcode
  simp only [isLoad, sameOpcode, beq_iff_eq] at h₁ h₂ ⊢
  rw [← h₂, h₁]

theorem Merging.right_not_terminator (h : Merging F b i b' j) : j.isTerminator = false := by
  have := works_not_terminator h.works
  rwa [Instr.isTerminator, (isIdenticalTo_iff.mp h.identical).1] at this

/-- An instruction before another, with the same type and opcode, can stand for it. -/
theorem available_of_before {bb : Label} (hi : i ∈ F.insts b) (hb : F.Before b i.id bb j.id)
    (hty : i.op.ty = j.op.ty) (hop : i.op.opcode = j.op.opcode) : F.Available i.value bb j := by
  refine ⟨hty, fun id ty e => ?_⟩
  obtain ⟨rfl, rfl⟩ := Value.inst.inj e
  exact ⟨b, i, hi, rfl, rfl, by rw [hop]; exact id, hb⟩

theorem Merging.available (h : Merging F b i b' j) : F.Available i.value b' j :=
  available_of_before h.left h.before (isIdenticalTo_iff.mp h.identical).2.1
    (isIdenticalTo_iff.mp h.identical).1

theorem Reloading.available (h : Reloading F b i j) : F.Available i.value b j :=
  available_of_before h.left (.inl ⟨rfl, h.below⟩) (by simpa [sameType] using h.type)
    (by simpa [sameOpcode, Instr.getOpcode] using h.opcode)

theorem value_mem_operands {v : Value} (h : i.getValueOperand = some v) : v ∈ i.operands := by
  unfold Instr.getValueOperand at h
  split at h
  · exact List.mem_of_getElem? h
  · cases h

theorem Forwarding.available (hF : F.SsaForm) (h : Forwarding F b i j v) : F.Available v b j := by
  have hs := opcode_of_isLoad h.load
  refine ⟨?_, ?_⟩
  · have := h.type
    simp only [sameDataType, h.value, isStore, Instr.getOpcode, hs, Option.map_some,
      beq_iff_eq] at this
    simpa using this
  · intro id ty e
    obtain rfl := e
    obtain ⟨a, d, hd, rfl, rfl, hval⟩ := hF.refs h.left (value_mem_operands h.value)
    refine ⟨a, d, hd, rfl, rfl, fun _ => hval, ?_⟩
    exact hF.before_trans (mem_ids.mpr ⟨i, h.left, rfl⟩)
      (hF.uses h.left (not_phi_of_isStore h.store) (value_mem_operands h.value)
        (mem_ids.mpr ⟨d, hd, rfl⟩)) (.inl ⟨rfl, h.below⟩)

/-- Nothing uses a store. -/
theorem store_unused (hF : F.SsaForm) (hi : i ∈ F.insts b) (hs : isStore i = true) :
    ∀ b, ∀ j ∈ F.insts b, ∀ o ∈ j.operands, o.refersTo i.id = false := by
  intro c j hj o ho
  by_contra hr
  rw [Bool.not_eq_false] at hr
  obtain ⟨ty, rfl⟩ := refersTo_iff.mp hr
  obtain ⟨a, d, hd, e, -, hval⟩ := hF.refs hj ho
  obtain rfl := hF.unique (mem_ids.mpr ⟨d, hd, e⟩) (mem_ids.mpr ⟨i, hi, rfl⟩)
  rw [hF.inst_eq hd hi e, opcode_of_isStore hs] at hval
  cases hval

section
variable {simplifyInstruction : Func → Label → Instr → Option Value}

/-- An edit erases one instruction that is no terminator, and puts an available value in its place
if it has uses. -/
theorem Edit.substitutes (hS : Simplifies simplifyInstruction) (hF : p.func.SsaForm)
    (h : Edit simplifyInstruction p p') : ∃ b, ∃ i ∈ p.func.insts b, ∃ v,
      i.isTerminator = false ∧ p.func.Available v b i ∧ p'.func = p.func.substitute i.id v ∧
      p'.trail = p.trail ++ [p'.func] := by
  cases h with
  | dead hi hd =>
    obtain ⟨hterm, hun⟩ := isDead_iff hF hd
    exact ⟨_, _, hi, .const 0 _, hterm, ⟨rfl, fun _ _ h => nomatch h⟩, (hF.erase hi hterm hun).1,
      rfl⟩
  | simplify hi hs => exact ⟨_, _, hi, _, (hS hF hi hs).1, (hS hF hi hs).2, rfl, rfl⟩
  | merge h =>
    obtain ⟨-, h⟩ := h
    exact ⟨_, _, h.right, _, h.right_not_terminator, h.available, rfl, rfl⟩
  | load h =>
    exact ⟨_, _, h.right, _, not_terminator_of_isLoad h.right_load, h.available, rfl, rfl⟩
  | forward h =>
    exact ⟨_, _, h.right, _, not_terminator_of_isLoad h.load, h.available hF, rfl, rfl⟩
  | store h =>
    have hterm := not_terminator_of_isStore h.store
    exact ⟨_, _, h.left, .const 0 _, hterm, ⟨rfl, fun _ _ h => nomatch h⟩,
      (hF.erase h.left hterm (store_unused hF h.left h.store)).1, rfl⟩

theorem Edit.ssaForm (hS : Simplifies simplifyInstruction) (hF : p.func.SsaForm)
    (h : Edit simplifyInstruction p p') : p'.func.SsaForm ∧ Shrinks p.func p'.func := by
  obtain ⟨b, i, hi, v, hterm, hv, e, -⟩ := h.substitutes hS hF
  rw [e]
  exact ⟨hF.substitute hi hterm hv, hF.substitute_shrinks hi hterm v⟩

/-- Any number of edits keeps SSA form, at the end and all along. -/
theorem Edits.ssaForm (hS : Simplifies simplifyInstruction) (hF : p.func.SsaForm)
    (h : ReflTransGen (Edit simplifyInstruction) p p') :
    p'.func.SsaForm ∧ Shrinks p.func p'.func ∧ ∀ G ∈ p'.trail, G ∈ p.trail ∨ G.SsaForm := by
  induction h with
  | refl => exact ⟨hF, Shrinks.refl _, fun G hG => .inl hG⟩
  | tail _ h ih =>
    obtain ⟨hF₁, hs₁, ht⟩ := ih
    obtain ⟨hF₂, hs₂⟩ := h.ssaForm hS hF₁
    obtain ⟨-, -, -, -, -, -, -, htrail⟩ := h.substitutes hS hF₁
    refine ⟨hF₂, hs₁.trans hs₂, fun G hG => ?_⟩
    rw [htrail, List.mem_append, List.mem_singleton] at hG
    rcases hG with hG | rfl
    · exact ht G hG
    · exact .inr hF₂

end

end Ece566.Llvm
