import Ece566.CseRuns

/- What the pass removes. Whatever `CommonSubexpressionElimination` does to a function is a
   sequence of erasures, each of one instruction and counted under one counter
   (`Erasures`). This needs no SSA form, only that every instruction has a place of its own
   (`Func.Placed`), and no dominator tree but nodes for the blocks visited. The scans leave
   the instruction they work for, and a turn of the instruction loop leaves the iterator on
   the first of the instructions below that is still there. -/
namespace Ece566.Llvm

variable {F G : Func} {a b bb : Label} {I n z : Nat} {i j : Instr} {p p' p'' : Pass} {v : Value}

/-- Every instruction is in one block, once, and every block once in the layout; a store has a
value. -/
structure Func.Placed (F : Func) : Prop where
  blocks : F.blocks.Nodup
  listed : ∀ {b}, F.insts b ≠ [] → b ∈ F.blocks
  nodup : ∀ b, (F.ids b).Nodup
  unique : ∀ {a b d}, d ∈ F.ids a → d ∈ F.ids b → a = b
  value : ∀ {b i}, i ∈ F.insts b → isStore i = true → i.operands ≠ []

theorem Func.SsaForm.placed (h : F.SsaForm) (hb : F.blocks.Nodup) : F.Placed where
  blocks := hb
  listed := h.listed
  nodup := h.nodup
  unique := h.unique
  value hi hs := by
    rw [← List.length_pos_iff, (h.shape hi).2 (opcode_of_isStore hs)]
    decide

namespace Func.Placed

theorem inst_eq (h : F.Placed) (hi : i ∈ F.insts a) (hj : j ∈ F.insts b) (e : i.id = j.id) : i = j := by
  obtain rfl := h.unique (mem_ids.mpr ⟨i, hi, e⟩) (mem_ids.mpr ⟨j, hj, rfl⟩)
  exact List.inj_on_of_nodup_map (h.nodup a) hi hj e

theorem inst?_eq (h : F.Placed) (hi : i ∈ F.insts b) : F.inst? b i.id = some i :=
  inst?_of_nodup (h.nodup b) hi

theorem getValueOperand (h : F.Placed) (hi : i ∈ F.insts b) (hs : isStore i = true) :
    ∃ v, i.getValueOperand = some v := by
  rw [Instr.getValueOperand, opcode_of_isStore hs]
  exact ⟨_, List.getElem?_eq_getElem (List.length_pos_of_ne_nil (h.value hi hs))⟩

end Func.Placed

/-- The addresses of all instructions. -/
def Func.allIds (F : Func) : List Nat := F.all.map Instr.id

theorem allIds_eq (F : Func) : F.allIds = F.blocks.flatMap F.ids := by
  rw [Func.allIds, Func.all, List.map_flatMap]
  rfl

theorem Func.Placed.nodup_allIds (h : F.Placed) : F.allIds.Nodup := by
  rw [allIds_eq, List.nodup_flatMap]
  refine ⟨fun b _ => h.nodup b, h.blocks.imp fun hne d hd hd' => hne (h.unique hd hd')⟩

/-! Dropping an instruction. -/

def Instr.mapOperands (f : Value → Value) (i : Instr) : Instr := { i with operands := i.operands.map f }

/-- `F` without instruction `z`, and with other operands. -/
def Func.drop (F : Func) (z : Nat) (f : Value → Value) : Func :=
  { F with insts := fun b => ((F.insts b).filter fun i => i.id != z).map (Instr.mapOperands f) }

theorem erase_drop (F : Func) (z : Nat) : F.eraseFromParent z = F.drop z id := by
  have h : Instr.mapOperands id = id := by
    funext i
    rw [Instr.mapOperands, List.map_id]
    rfl
  rw [Func.drop, h]
  simp only [List.map_id]
  rfl

theorem substitute_drop (F : Func) (z : Nat) (v : Value) :
    F.substitute z v = F.drop z fun o => o.replace z v := by
  rw [Func.substitute, Func.drop, Func.eraseFromParent]
  congr 1
  funext b
  rw [replaceAllUsesWith_insts, List.filter_map]
  rfl

theorem drop_ids (F : Func) (z : Nat) (f : Value → Value) (b : Label) :
    (F.drop z f).ids b = (F.ids b).filter fun d => d != z := by
  rw [Func.ids, Func.drop, List.map_map, Func.ids, List.filter_map]
  rfl

theorem mem_drop {f : Value → Value} : i ∈ (F.drop z f).insts b ↔
    ∃ j ∈ F.insts b, j.id ≠ z ∧ i = j.mapOperands f := by
  simp only [Func.drop, List.mem_map, List.mem_filter, bne_iff_ne, and_assoc]
  exact exists_congr fun j => and_congr_right fun _ => and_congr_right fun _ => eq_comm

theorem Func.Placed.drop (h : F.Placed) (z : Nat) (f : Value → Value) : (F.drop z f).Placed where
  blocks := h.blocks
  listed {b} hb := by
    obtain ⟨i, hi⟩ := List.exists_mem_of_ne_nil _ hb
    obtain ⟨j, hj, -⟩ := mem_drop.mp hi
    exact h.listed (List.ne_nil_of_mem hj)
  nodup b := by
    rw [drop_ids]
    exact (h.nodup b).filter _
  unique ha hb := by
    rw [drop_ids] at ha hb
    exact h.unique (List.mem_filter.mp ha).1 (List.mem_filter.mp hb).1
  value {b i} hi hs := by
    obtain ⟨j, hj, -, rfl⟩ := mem_drop.mp hi
    rw [Instr.mapOperands, ne_eq, List.map_eq_nil_iff]
    exact h.value hj hs

theorem drop_edge (h : F.Placed) (hj : j ∈ F.insts b) (hterm : j.isTerminator = false)
    (f : Value → Value) : (F.drop j.id f).Edge = F.Edge := by
  funext a c
  refine propext ⟨?_, ?_⟩
  · intro ⟨t, ht, htt, hc⟩
    obtain ⟨t₀, ht₀, -, rfl⟩ := mem_drop.mp ht
    exact ⟨t₀, ht₀, htt, hc⟩
  · intro ⟨t, ht, htt, hc⟩
    refine ⟨t.mapOperands f, mem_drop.mpr ⟨t, ht, fun e => ?_, rfl⟩, htt, hc⟩
    rw [h.inst_eq ht hj e, hterm] at htt
    cases htt

/-! The counters, and what is counted under each. -/

inductive Counter where
  | cseDead | cseElim | cseSimplify | cseLdElim | cseStore2Load | cseStElim
  deriving DecidableEq

def Pass.count (p : Pass) : Counter → Nat
  | .cseDead => p.cseDead
  | .cseElim => p.cseElim
  | .cseSimplify => p.cseSimplify
  | .cseLdElim => p.cseLdElim
  | .cseStore2Load => p.cseStore2Load
  | .cseStElim => p.cseStElim

/-- The counter goes up by one. -/
def Pass.bump (p : Pass) : Counter → Pass
  | .cseDead => { p with cseDead := p.cseDead + 1 }
  | .cseElim => { p with cseElim := p.cseElim + 1 }
  | .cseSimplify => { p with cseSimplify := p.cseSimplify + 1 }
  | .cseLdElim => { p with cseLdElim := p.cseLdElim + 1 }
  | .cseStore2Load => { p with cseStore2Load := p.cseStore2Load + 1 }
  | .cseStElim => { p with cseStElim := p.cseStElim + 1 }

@[simp] theorem bump_func (p : Pass) (c : Counter) : (p.bump c).func = p.func := by cases c <;> rfl
@[simp] theorem become_func (p : Pass) (F : Func) : (p.become F).func = F := rfl
@[simp] theorem become_count (p : Pass) (F : Func) : (p.become F).count = p.count := rfl

theorem bump_count (p : Pass) (c d : Counter) :
    (p.bump c).count d = p.count d + if c = d then 1 else 0 := by
  cases c <;> cases d <;> rfl

section
variable (simplifyInstruction : Func → Label → Instr → Option Value)

/-- What the pass knows of an instruction it erases and counts so. -/
def Counter.Erasable (F : Func) (b : Label) (j : Instr) : Counter → Prop
  | .cseDead => isDead F j = true
  | .cseElim => shouldCSEworkOnInstruction j = true
  | .cseSimplify => (simplifyInstruction F b j).isSome = true
  | .cseLdElim => isLoad j = true ∧ notVolatile j = true
  | .cseStore2Load => isLoad j = true ∧ notVolatile j = true
  | .cseStElim => isStore j = true ∧ notVolatile j = true

/-- An instruction erased, and the counter it is counted under. -/
structure Removal where
  counter : Counter
  inst : Instr

/-- One erasure. -/
inductive Erases : Pass → Removal → Pass → Prop where
  | mk {p : Pass} {b : Label} {r : Removal} (f : Value → Value) : r.inst ∈ p.func.insts b →
      r.counter.Erasable simplifyInstruction p.func b r.inst →
      Erases p r ((p.become (p.func.drop r.inst.id f)).bump r.counter)

/-- A sequence of erasures. -/
inductive Erasures : Pass → List Removal → Pass → Prop where
  | nil (p : Pass) : Erasures p [] p
  | cons {p p' p'' : Pass} {r : Removal} {removed : List Removal} :
      Erases simplifyInstruction p r p' → Erasures p' removed p'' → Erasures p (r :: removed) p''

end

/-- The addresses of the instructions removed. -/
def erased (removed : List Removal) : List Nat := removed.map fun r => r.inst.id

variable {simplifyInstruction : Func → Label → Instr → Option Value}
variable {getDomTree : Func → Label → Option (List Label)}
variable {r : Removal} {removed removed' : List Removal} {ns : List Nat}

@[simp] theorem erased_nil : erased [] = [] := rfl
@[simp] theorem erased_cons : erased (r :: removed) = r.inst.id :: erased removed := rfl
@[simp] theorem erased_append : erased (removed ++ removed') = erased removed ++ erased removed' :=
  List.map_append

/-- LLVM's `SimplifyInstruction` finds nothing for a terminator. -/
def KeepsTerminators (simplifyInstruction : Func → Label → Instr → Option Value) : Prop :=
  ∀ F b i, i.isTerminator = true → simplifyInstruction F b i = none

theorem isDead_not_terminator (h : isDead F i = true) : i.isTerminator = false := by
  simp only [isDead, Bool.and_eq_true] at h
  unfold Instr.isTerminator
  unfold Instr.getOpcode at h
  cases ho : i.op.opcode <;> first | rfl | (rw [ho] at h; exact absurd h.2 (by decide))

theorem Counter.Erasable.not_terminator (hS : KeepsTerminators simplifyInstruction) {c : Counter}
    (h : c.Erasable simplifyInstruction F b j) : j.isTerminator = false := by
  cases c with
  | cseDead => exact isDead_not_terminator h
  | cseElim => exact works_not_terminator h
  | cseSimplify =>
    rw [← Bool.not_eq_true]
    intro hterm
    have h : (simplifyInstruction F b j).isSome = true := h
    rw [hS _ _ _ hterm] at h
    cases h
  | cseLdElim => exact not_terminator_of_isLoad h.1
  | cseStore2Load => exact not_terminator_of_isLoad h.1
  | cseStElim => exact not_terminator_of_isStore h.1

namespace Erases

theorem placed (h : Erases simplifyInstruction p r p') (hp : p.func.Placed) : p'.func.Placed := by
  obtain ⟨f, -, -⟩ := h
  rw [bump_func]
  exact hp.drop _ f

theorem ids (h : Erases simplifyInstruction p r p') (b : Label) :
    p'.func.ids b = (p.func.ids b).filter fun d => d != r.inst.id := by
  obtain ⟨f, -, -⟩ := h
  rw [bump_func]
  exact drop_ids _ _ f b

theorem blocks (h : Erases simplifyInstruction p r p') : p'.func.blocks = p.func.blocks := by
  obtain ⟨f, -, -⟩ := h
  rw [bump_func]
  rfl

theorem edge (hS : KeepsTerminators simplifyInstruction) (h : Erases simplifyInstruction p r p')
    (hp : p.func.Placed) : p'.func.Edge = p.func.Edge ∧ p'.func.entry = p.func.entry := by
  obtain ⟨f, hj, he⟩ := h
  rw [bump_func]
  exact ⟨drop_edge hp hj (he.not_terminator hS) f, rfl⟩

theorem count (h : Erases simplifyInstruction p r p') (c : Counter) :
    p'.count c = p.count c + if r.counter = c then 1 else 0 := by
  obtain ⟨f, -, -⟩ := h
  rw [bump_count, become_count]

end Erases

namespace Erasures

theorem single (h : Erases simplifyInstruction p r p') : Erasures simplifyInstruction p [r] p' :=
  .cons h (.nil p')

theorem append (h : Erasures simplifyInstruction p removed p')
    (h' : Erasures simplifyInstruction p' removed' p'') :
    Erasures simplifyInstruction p (removed ++ removed') p'' := by
  induction h with
  | nil => exact h'
  | cons h₁ _ ih => exact .cons h₁ (ih h')

theorem placed (h : Erasures simplifyInstruction p removed p') (hp : p.func.Placed) : p'.func.Placed := by
  induction h with
  | nil => exact hp
  | cons h₁ _ ih => exact ih (h₁.placed hp)

/-- The blocks are left without the instructions removed. -/
theorem ids (h : Erasures simplifyInstruction p removed p') (b : Label) :
    p'.func.ids b = (p.func.ids b).filter fun d => d ∉ erased removed := by
  induction h with
  | nil => simp [erased]
  | cons h₁ _ ih =>
    rw [ih, h₁.ids, List.filter_filter]
    refine List.filter_congr fun d _ => ?_
    rw [Bool.eq_iff_iff, Bool.and_eq_true, decide_eq_true_iff, decide_eq_true_iff, bne_iff_ne,
      erased_cons, List.mem_cons, not_or]
    exact and_comm

theorem mem_ids (h : Erasures simplifyInstruction p removed p') :
    n ∈ p'.func.ids b ↔ n ∈ p.func.ids b ∧ n ∉ erased removed := by
  rw [h.ids, List.mem_filter, decide_eq_true_iff]

theorem blocks (h : Erasures simplifyInstruction p removed p') : p'.func.blocks = p.func.blocks := by
  induction h with
  | nil => rfl
  | cons h₁ _ ih => rw [ih, h₁.blocks]

theorem edge (hS : KeepsTerminators simplifyInstruction)
    (h : Erasures simplifyInstruction p removed p') (hp : p.func.Placed) :
    p'.func.Edge = p.func.Edge ∧ p'.func.entry = p.func.entry := by
  induction h with
  | nil => exact ⟨rfl, rfl⟩
  | cons h₁ _ ih =>
    obtain ⟨e₁, e₂⟩ := h₁.edge hS hp
    obtain ⟨e₁', e₂'⟩ := ih (h₁.placed hp)
    exact ⟨e₁'.trans e₁, e₂'.trans e₂⟩

theorem count (h : Erasures simplifyInstruction p removed p') (c : Counter) :
    p'.count c = p.count c + removed.countP fun r => r.counter = c := by
  induction h with
  | nil => rfl
  | cons h₁ _ ih =>
    rw [ih, h₁.count, List.countP_cons, Nat.add_assoc]
    simp only [decide_eq_true_eq, Nat.add_comm]

/-- What is left of an instruction is what it was, operands apart. -/
theorem inst (h : Erasures simplifyInstruction p removed p') (hi : i ∈ p.func.insts b)
    (hn : i.id ∉ erased removed) : ∃ i' ∈ p'.func.insts b, i'.id = i.id ∧ i'.op = i.op := by
  induction h generalizing i with
  | nil => exact ⟨i, hi, rfl, rfl⟩
  | cons h₁ _ ih =>
    rw [erased_cons, List.mem_cons, not_or] at hn
    obtain ⟨f, -, -⟩ := h₁
    exact ih (i := i.mapOperands f) (by rw [bump_func]; exact mem_drop.mpr ⟨i, hi, hn.1, rfl⟩) hn.2

end Erasures

/-! What a sub-pass that works for instruction `I` may do. -/

/-- Erasures of other instructions than `I`. -/
def Spares (simplifyInstruction : Func → Label → Instr → Option Value) (I : Nat) (p p' : Pass) : Prop :=
  ∃ removed, Erasures simplifyInstruction p removed p' ∧ I ∉ erased removed

namespace Spares

theorem refl (p : Pass) : Spares simplifyInstruction I p p := ⟨[], .nil p, List.not_mem_nil⟩

theorem trans (h : Spares simplifyInstruction I p p') (h' : Spares simplifyInstruction I p' p'') :
    Spares simplifyInstruction I p p'' := by
  obtain ⟨removed, he, hn⟩ := h
  obtain ⟨removed', he', hn'⟩ := h'
  refine ⟨removed ++ removed', he.append he', ?_⟩
  rw [erased_append, List.mem_append, not_or]
  exact ⟨hn, hn'⟩

theorem cons (h : Erases simplifyInstruction p r p') (hr : r.inst.id ≠ I)
    (h' : Spares simplifyInstruction I p' p'') : Spares simplifyInstruction I p p'' := by
  refine trans ⟨[r], .single h, ?_⟩ h'
  rw [erased_cons, erased_nil, List.mem_singleton]
  exact hr.symm

theorem placed (h : Spares simplifyInstruction I p p') (hp : p.func.Placed) : p'.func.Placed := by
  obtain ⟨removed, he, -⟩ := h
  exact he.placed hp

theorem inst (h : Spares simplifyInstruction I p p') (hi : i ∈ p.func.insts b) (hid : i.id = I) :
    ∃ i' ∈ p'.func.insts b, i'.id = I ∧ i'.op = i.op := by
  obtain ⟨removed, he, hn⟩ := h
  obtain ⟨i', hi', e, hop⟩ := he.inst hi (hid ▸ hn)
  exact ⟨i', hi', e.trans hid, hop⟩

end Spares

/-! The primitives, on functions whose instructions have their places. -/

theorem deref_placed (hp : p.func.Placed) (hi : i ∈ p.func.insts b) (hid : i.id = n) :
    Wp (deref b n) (fun j s => j = i ∧ s = p) p := by
  subst hid
  refine Wp.get_bind ?_
  rw [hp.inst?_eq hi]
  exact Wp.pure' ⟨rfl, rfl⟩

theorem deref_some (hp : p.func.Placed) (hi : i ∈ p.func.insts b) :
    (deref b i.id).run p = some (i, p) := by
  obtain ⟨j, p', hrun, rfl, rfl⟩ := deref_placed hp hi rfl
  exact hrun

theorem run_deref_bind {α : Type} {k : Instr → Cse α} (hp : p.func.Placed) (hi : i ∈ p.func.insts b) :
    (deref b i.id >>= k).run p = (k i).run p := Wp.run_bind_some (deref_some hp hi)

/-- A scan of block `bb` for instruction `I`, with `ns` yet to visit: `I` is in block `b`, the others
are still there. -/
structure Ready (p : Pass) (b : Label) (i : Instr) (bb : Label) (ns : List Nat) : Prop where
  placed : p.func.Placed
  left : i ∈ p.func.insts b
  right : ∀ n ∈ ns, n ∈ p.func.ids bb
  nodup : ns.Nodup

namespace Ready

theorem tail (h : Ready p b i bb (n :: ns)) : Ready p b i bb ns where
  placed := h.placed
  left := h.left
  right m hm := h.right m (List.mem_cons_of_mem n hm)
  nodup := (List.nodup_cons.mp h.nodup).2

/-- The instruction just visited is erased. -/
theorem erase (h : Ready p b i bb (r.inst.id :: ns)) (he : Erases simplifyInstruction p r p')
    (hne : r.inst.id ≠ i.id) :
    ∃ i', i'.id = i.id ∧ i'.op = i.op ∧ Ready p' b i' bb ns := by
  obtain ⟨i', hi', e, hop⟩ := (Spares.cons he hne (.refl p')).inst h.left rfl
  refine ⟨i', e, hop, he.placed h.placed, hi', fun m hm => ?_, (List.nodup_cons.mp h.nodup).2⟩
  rw [he.ids, List.mem_filter, bne_iff_ne]
  refine ⟨h.right m (List.mem_cons_of_mem _ hm), ?_⟩
  intro e
  obtain rfl := e
  exact (List.nodup_cons.mp h.nodup).1 hm

end Ready

theorem substitute_erases {c : Counter} (hj : j ∈ p.func.insts b)
    (hc : c.Erasable simplifyInstruction p.func b j) :
    Erases simplifyInstruction p ⟨c, j⟩ ((p.become (p.func.substitute j.id v)).bump c) := by
  rw [substitute_drop]
  exact Erases.mk (r := ⟨c, j⟩) _ hj hc

theorem erase_erases {c : Counter} (hj : j ∈ p.func.insts b)
    (hc : c.Erasable simplifyInstruction p.func b j) :
    Erases simplifyInstruction p ⟨c, j⟩ ((p.become (p.func.eraseFromParent j.id)).bump c) := by
  rw [erase_drop]
  exact Erases.mk (r := ⟨c, j⟩) _ hj hc

/-! Merging. -/

theorem works_of_identical (hw : Works i) (h : i.isIdenticalTo j = true) : Works j := by
  have hop := (isIdenticalTo_iff.mp h).1
  unfold Works shouldCSEworkOnInstruction Instr.isTerminator Instr.getOpcode at hw ⊢
  rwa [← hop]

variable (simplifyInstruction) in
theorem removeCommonInstructionsIn_spares (ns : List Nat) : ∀ {p : Pass} {i : Instr},
    Ready p b i bb ns → Works i →
    Wp (removeCommonInstructionsIn b i.id bb ns)
      (fun _ p' => Spares simplifyInstruction i.id p p') p := by
  induction ns with
  | nil => exact fun _ _ => Wp.pure' (Spares.refl _)
  | cons n ns ih =>
    intro p i h hw
    obtain ⟨j, hj, rfl⟩ := mem_ids.mp (h.right n List.mem_cons_self)
    refine Wp.bind' (deref_placed h.placed h.left rfl) ?_
    intro i p e
    obtain ⟨rfl, rfl⟩ := e
    refine Wp.bind' (deref_placed h.placed hj rfl) ?_
    intro j p e
    obtain ⟨rfl, rfl⟩ := e
    split
    · rename_i hc
      simp only [Bool.and_eq_true, bne_iff_ne] at hc
      have he : Erases simplifyInstruction p ⟨.cseElim, j⟩
          ((p.become (p.func.substitute j.id i.value)).bump .cseElim) :=
        substitute_erases hj (works_of_identical hw hc.2)
      obtain ⟨i', e, hop, h'⟩ := h.erase he (Ne.symm hc.1)
      refine substitute_spec ?_
      -- `i` may have had the erased value for an operand: what goes on merging is `i'`
      have hrest := ih h' (works_congr hop.symm hw)
      rw [e] at hrest
      exact hrest.mono fun _ _ hs => Spares.cons he (Ne.symm hc.1) hs
    · exact ih h.tail hw

variable (simplifyInstruction) in
theorem removeCommonInBlocks_spares (children : List Label) : ∀ {p : Pass} {i : Instr},
    p.func.Placed → i ∈ p.func.insts b → Works i →
    Wp (removeCommonInBlocks b i.id children)
      (fun _ p' => Spares simplifyInstruction i.id p p') p := by
  induction children with
  | nil => exact fun _ _ _ => Wp.pure' (Spares.refl _)
  | cons c cs ih =>
    intro p i hp hi hw
    refine Wp.get_bind (Wp.bind' (removeCommonInstructionsIn_spares simplifyInstruction _
      ⟨hp, hi, fun _ h => h, hp.nodup c⟩ hw) ?_)
    intro _ p₁ h₁
    obtain ⟨i', hi', e, hop⟩ := h₁.inst hi rfl
    have hrest := ih (h₁.placed hp) hi' (works_congr hop.symm hw)
    rw [e] at hrest
    exact hrest.mono fun _ _ h₂ => h₁.trans h₂

/-- The dominator tree has a node for block `b`, as long as the control-flow graph is that of
`F`. -/
def HasNode (getDomTree : Func → Label → Option (List Label)) (F : Func) (b : Label) : Prop :=
  ∀ G : Func, G.Edge = F.Edge → G.entry = F.entry → (getDomTree G b).isSome = true

theorem HasNode.keep (hS : KeepsTerminators simplifyInstruction) (h : HasNode getDomTree p.func b)
    (he : Erasures simplifyInstruction p removed p') (hp : p.func.Placed) :
    HasNode getDomTree p'.func b := by
  obtain ⟨e₁, e₂⟩ := he.edge hS hp
  intro G h₁ h₂
  exact h G (h₁.trans e₁) (h₂.trans e₂)

theorem basicCSEPass_spares (hS : KeepsTerminators simplifyInstruction) (hp : p.func.Placed)
    (hD : HasNode getDomTree p.func b) (hi : i ∈ p.func.insts b) :
    Wp (basicCSEPass getDomTree b i.id) (fun _ p' => Spares simplifyInstruction i.id p p') p := by
  refine Wp.bind' (deref_placed hp hi rfl) ?_
  intro i p e
  obtain ⟨rfl, rfl⟩ := e
  split
  · rename_i hw
    have hready : Ready p b i b (p.func.idsFrom b i.id) :=
      ⟨hp, hi, fun _ hn => idsFrom_sublist.subset hn, idsFrom_sublist.nodup (hp.nodup b)⟩
    refine Wp.get_bind (Wp.bind' (removeCommonInstructionsIn_spares simplifyInstruction _ hready hw) ?_)
    intro _ p₁ h₁
    obtain ⟨i', hi', e, hop⟩ := h₁.inst hi rfl
    refine Wp.get_bind ?_
    obtain ⟨removed, he, hn⟩ := h₁
    obtain ⟨children, hch⟩ := Option.isSome_iff_exists.mp (hD.keep hS he hp _ rfl rfl)
    rw [hch]
    have hrest := removeCommonInBlocks_spares simplifyInstruction children (he.placed hp) hi'
      (works_congr hop.symm hw)
    rw [e] at hrest
    exact hrest.mono fun _ _ h₂ => Spares.trans ⟨removed, he, hn⟩ h₂
  · exact Wp.pure' (Spares.refl _)

/-! The instructions after one. -/

theorem idsAfter_eq {pre rest : List Nat} (hids : F.ids b = pre ++ n :: rest) (hnd : (F.ids b).Nodup) :
    F.idsAfter b n = rest := by
  rw [Func.idsAfter, idsFrom_eq hids hnd, List.tail_cons]

theorem idsAfter_spec (hp : F.Placed) (hn : n ∈ F.ids b) :
    (∀ m ∈ F.idsAfter b n, m ∈ F.ids b) ∧ (F.idsAfter b n).Nodup ∧ n ∉ F.idsAfter b n := by
  obtain ⟨pre, rest, hids⟩ := List.append_of_mem hn
  rw [idsAfter_eq hids (hp.nodup b)]
  have hnd := hp.nodup b
  rw [hids, List.nodup_append] at hnd
  refine ⟨fun m hm => ?_, (List.nodup_cons.mp hnd.2.1).2, (List.nodup_cons.mp hnd.2.1).1⟩
  rw [hids]
  exact List.mem_append_right _ (List.mem_cons_of_mem _ hm)

/-- What is left of the instructions after `n`, where `n` is left. -/
theorem Erasures.idsAfter (h : Erasures simplifyInstruction p removed p') (hp : p.func.Placed)
    (hn : n ∈ p'.func.ids b) :
    p'.func.idsAfter b n = (p.func.idsAfter b n).filter fun d => d ∉ erased removed := by
  obtain ⟨hn₀, hkeep⟩ := h.mem_ids.mp hn
  obtain ⟨pre, rest, hids⟩ := List.append_of_mem hn₀
  rw [idsAfter_eq hids (hp.nodup b)]
  have hids' : p'.func.ids b = (pre.filter fun d => d ∉ erased removed) ++
      n :: rest.filter fun d => d ∉ erased removed := by
    rw [h.ids, hids, List.filter_append, List.filter_cons_of_pos (by simpa using hkeep)]
  exact idsAfter_eq hids' ((h.placed hp).nodup b)

/-! Memory. -/

variable (simplifyInstruction) in
theorem eliminateRedundantLoads_spares (ns : List Nat) : ∀ {p : Pass} {i : Instr},
    Ready p b i b ns → isLoad i = true → i.id ∉ ns →
    Wp (eliminateRedundantLoads b i.id ns) (fun _ p' => Spares simplifyInstruction i.id p p') p := by
  induction ns with
  | nil => exact fun _ _ _ => Wp.pure' (Spares.refl _)
  | cons n ns ih =>
    intro p i h hl hI
    rw [List.mem_cons, not_or] at hI
    obtain ⟨hne, hI⟩ := hI
    obtain ⟨j, hj, rfl⟩ := mem_ids.mp (h.right n List.mem_cons_self)
    refine Wp.bind' (deref_placed h.placed h.left rfl) ?_
    intro i p e
    obtain ⟨rfl, rfl⟩ := e
    refine Wp.bind' (deref_placed h.placed hj rfl) ?_
    intro j p e
    obtain ⟨rfl, rfl⟩ := e
    split
    · rename_i hc
      simp only [Bool.and_eq_true] at hc
      have hload : isLoad j = true := by
        have hop := hc.1.1.1
        rw [sameOpcode, beq_iff_eq] at hop
        rwa [isLoad, ← hop]
      have he : Erases simplifyInstruction p ⟨.cseLdElim, j⟩
          ((p.become (p.func.substitute j.id i.value)).bump .cseLdElim) :=
        substitute_erases hj ⟨hload, hc.1.1.2⟩
      obtain ⟨i', e, hop, h'⟩ := h.erase he (Ne.symm hne)
      refine substitute_spec ?_
      split
      · exact Wp.pure' (Spares.cons he (Ne.symm hne) (Spares.refl _))
      · have hrest := ih h' (by rwa [isLoad, Instr.getOpcode, hop]) (e ▸ hI)
        rw [e] at hrest
        exact hrest.mono fun _ _ hs => Spares.cons he (Ne.symm hne) hs
    · split
      · exact Wp.pure' (Spares.refl _)
      · exact ih h.tail hl hI

/-- The first of the instructions after `I` that is left. -/
def NextLeft (F : Func) (b : Label) (I : Nat) (removed : List Removal) (it : Option Nat) : Prop :=
  it = ((F.idsAfter b I).filter fun d => d ∉ erased removed).head?

/-- What the scan from a store leaves: the store is still there and the iterator on it, or it is gone
and the iterator has gone on. -/
def AfterStore (simplifyInstruction : Func → Label → Instr → Option Value) (b : Label) (I : Nat)
    (p : Pass) (it : Option Nat) (p' : Pass) : Prop :=
  ∃ removed, Erasures simplifyInstruction p removed p' ∧
    ((it = some I ∧ I ∉ erased removed) ∨ (it ≠ some I ∧ NextLeft p.func b I removed it))

theorem next_eq (F : Func) (b : Label) (n : Nat) : F.next b n = (F.idsAfter b n).head? := rfl

theorem NextLeft.trans {it : Option Nat} (h : Erasures simplifyInstruction p removed p')
    (hp : p.func.Placed) (hI : I ∈ p'.func.ids b) (hn : NextLeft p'.func b I removed' it) :
    NextLeft p.func b I (removed ++ removed') it := by
  rw [NextLeft, h.idsAfter hp hI, List.filter_filter] at hn
  rw [NextLeft, hn]
  congr 1
  refine List.filter_congr fun d _ => ?_
  rw [Bool.eq_iff_iff, Bool.and_eq_true, decide_eq_true_iff, decide_eq_true_iff, decide_eq_true_iff,
    erased_append, List.mem_append, not_or]
  exact and_comm

/-- The iterator moves on and the instruction goes. -/
theorem NextLeft.erase (hp : p.func.Placed) (hi : i ∈ p.func.insts b) (c : Counter) :
    NextLeft p.func b i.id [⟨c, i⟩] (p.func.next b i.id) ∧ p.func.next b i.id ≠ some i.id := by
  obtain ⟨-, -, hnot⟩ := idsAfter_spec hp (mem_ids.mpr ⟨i, hi, rfl⟩)
  rw [NextLeft, next_eq]
  refine ⟨?_, fun e => hnot (List.mem_of_head? e)⟩
  rw [List.filter_eq_self.mpr fun d hd => ?_]
  rw [decide_eq_true_iff, erased_cons, erased_nil, List.mem_singleton]
  intro e
  obtain rfl := e
  exact hnot hd

theorem AfterStore.trans {it : Option Nat} (h : Erasures simplifyInstruction p removed p')
    (hn : I ∉ erased removed) (hp : p.func.Placed) (hI : I ∈ p.func.ids b)
    (ha : AfterStore simplifyInstruction b I p' it p'') :
    AfterStore simplifyInstruction b I p it p'' := by
  obtain ⟨removed', h', hit⟩ := ha
  refine ⟨removed ++ removed', h.append h', ?_⟩
  rcases hit with ⟨e, hn'⟩ | ⟨e, hnext⟩
  · refine .inl ⟨e, ?_⟩
    rw [erased_append, List.mem_append, not_or]
    exact ⟨hn, hn'⟩
  · exact .inr ⟨e, hnext.trans h hp (h.mem_ids.mpr ⟨hI, hn⟩)⟩

variable (simplifyInstruction) in
theorem eliminateRedundantStoreCall_after (ns : List Nat) : ∀ {p : Pass} {i : Instr},
    Ready p b i b ns → i.id ∉ ns →
    Wp (eliminateRedundantStoreCall b i.id ns)
      (fun it p' => AfterStore simplifyInstruction b i.id p it p') p := by
  induction ns with
  | nil => exact fun _ _ => Wp.pure' ⟨[], .nil _, .inl ⟨rfl, List.not_mem_nil⟩⟩
  | cons n ns ih =>
    intro p i h hI
    rw [List.mem_cons, not_or] at hI
    obtain ⟨hne, hI⟩ := hI
    obtain ⟨j, hj, rfl⟩ := mem_ids.mp (h.right n List.mem_cons_self)
    refine Wp.bind' (deref_placed h.placed h.left rfl) ?_
    intro i p e
    obtain ⟨rfl, rfl⟩ := e
    refine Wp.bind' (deref_placed h.placed hj rfl) ?_
    intro j p e
    obtain ⟨rfl, rfl⟩ := e
    have hi : i.id ∈ p.func.ids b := mem_ids.mpr ⟨i, h.left, rfl⟩
    split
    · -- the load reads what `i` stores, so `i` stays and the scan goes on
      rename_i hc
      simp only [Bool.and_eq_true] at hc
      obtain ⟨v, hv⟩ := h.placed.getValueOperand h.left hc.1.1.1.1
      rw [hv]
      have he : Erases simplifyInstruction p ⟨.cseStore2Load, j⟩
          ((p.become (p.func.substitute j.id v)).bump .cseStore2Load) :=
        substitute_erases hj ⟨hc.1.1.1.2, hc.1.1.2⟩
      obtain ⟨i', e, -, h'⟩ := h.erase he (Ne.symm hne)
      refine substitute_spec ?_
      have hrest := ih h' (e ▸ hI)
      rw [e] at hrest
      refine hrest.mono fun _ _ ha => ha.trans (.single he) ?_ h.placed hi
      rw [erased_cons, erased_nil, List.mem_singleton]
      exact hne
    · split
      · -- `i` itself goes
        rename_i hc
        simp only [Bool.and_eq_true] at hc
        refine Wp.get_bind (erase_spec ?_)
        have he : Erases simplifyInstruction p ⟨.cseStElim, i⟩
            ((p.become (p.func.eraseFromParent i.id)).bump .cseStElim) :=
          erase_erases h.left ⟨hc.1.1.1.1, hc.1.1.2⟩
        obtain ⟨hnext, hit⟩ := NextLeft.erase h.placed h.left .cseStElim
        exact Wp.pure' ⟨_, .single he, .inr ⟨hit, hnext⟩⟩
      · split
        · exact Wp.pure' ⟨[], .nil _, .inl ⟨rfl, List.not_mem_nil⟩⟩
        · exact ih h.tail hI

/-! A turn of the instruction loop. -/

/-- What a turn leaves: fewer instructions, and the iterator on the first one after `n` that is
left. -/
def AfterInst (simplifyInstruction : Func → Label → Instr → Option Value) (b : Label) (n : Nat)
    (p : Pass) (it : Option Nat) (p' : Pass) : Prop :=
  ∃ removed, Erasures simplifyInstruction p removed p' ∧ NextLeft p.func b n removed it

/-- A scan of the rest of `i`'s own block. -/
theorem Ready.own (hp : p.func.Placed) (hi : i ∈ p.func.insts b) :
    Ready p b i b (p.func.idsAfter b i.id) ∧ i.id ∉ p.func.idsAfter b i.id := by
  obtain ⟨hmem, hnd, hnot⟩ := idsAfter_spec hp (mem_ids.mpr ⟨i, hi, rfl⟩)
  exact ⟨⟨hp, hi, hmem, hnd⟩, hnot⟩

theorem AfterStore.inst {it : Option Nat} (hp : p.func.Placed) (hI : I ∈ p.func.ids b)
    (h : AfterStore simplifyInstruction b I p it p') :
    AfterInst simplifyInstruction b I p (if it = some I then p'.func.next b I else it) p' := by
  obtain ⟨removed, he, ⟨rfl, hn⟩ | ⟨hit, hnext⟩⟩ := h
  · refine ⟨removed, he, ?_⟩
    rw [if_pos rfl, NextLeft, next_eq, he.idsAfter hp (he.mem_ids.mpr ⟨hI, hn⟩)]
  · exact ⟨removed, he, by rwa [if_neg hit]⟩

variable (simplifyInstruction) in
/-- The two passes over the rest of the block, for the instruction `i` that is `j` now. -/
theorem cseLoads_spares {i j : Instr} (hp : p.func.Placed) (hj : j ∈ p.func.insts b) (hid : j.id = i.id)
    (hop : j.op = i.op) : Wp (onlyIf (isLoad i) ⟨⟩ (do
      eliminateRedundantLoads b i.id ((← get).func.idsAfter b i.id)))
      (fun _ p' => Spares simplifyInstruction i.id p p') p := by
  refine onlyIf_spec (fun hl => ?_) fun _ => Spares.refl _
  obtain ⟨hready, hnot⟩ := Ready.own hp hj
  rw [← hid]
  exact eliminateRedundantLoads_spares simplifyInstruction _ hready
    (by rwa [isLoad, Instr.getOpcode, hop]) hnot

variable (simplifyInstruction) in
theorem cseStores_after {i j : Instr} (hp : p.func.Placed) (hj : j ∈ p.func.insts b)
    (hid : j.id = i.id) : Wp (onlyIf (isStore i) (some i.id) (do
      eliminateRedundantStoreCall b i.id ((← get).func.idsAfter b i.id)))
      (fun it p' => AfterStore simplifyInstruction b i.id p it p') p := by
  refine onlyIf_spec (fun _ => ?_) fun _ => ⟨[], .nil _, .inl ⟨rfl, List.not_mem_nil⟩⟩
  obtain ⟨hready, hnot⟩ := Ready.own hp hj
  rw [← hid]
  exact eliminateRedundantStoreCall_after simplifyInstruction _ hready hnot

theorem cseInst_after (hS : KeepsTerminators simplifyInstruction) (hp : p.func.Placed)
    (hD : HasNode getDomTree p.func b) (hn : n ∈ p.func.ids b) :
    Wp (cseInst getDomTree simplifyInstruction b n)
      (fun it p' => AfterInst simplifyInstruction b n p it p') p := by
  obtain ⟨i, hi, rfl⟩ := mem_ids.mp hn
  refine Wp.bind' (deref_placed hp hi rfl) ?_
  intro i p e
  obtain ⟨rfl, rfl⟩ := e
  refine Wp.get_bind ?_
  split
  · rename_i hd
    refine erase_spec (Wp.pure' ⟨[⟨.cseDead, i⟩], .single (erase_erases hi hd), ?_⟩)
    exact (NextLeft.erase hp hi _).1
  · split
    · rename_i v hv
      refine substitute_spec (Wp.pure' ⟨[⟨.cseSimplify, i⟩], .single (substitute_erases hi ?_), ?_⟩)
      · exact Option.isSome_iff_exists.mpr ⟨v, hv⟩
      · exact (NextLeft.erase hp hi _).1
    · -- the three sub-passes; only the last can erase `i`, and it then moves the iterator itself
      refine Wp.bind' (basicCSEPass_spares hS hp hD hi) ?_
      intro _ p₁ h₁
      obtain ⟨i₁, hi₁, e₁, hop₁⟩ := h₁.inst hi rfl
      refine Wp.bind' (cseLoads_spares simplifyInstruction (h₁.placed hp) hi₁ e₁ hop₁) ?_
      intro _ p₂ h₂
      have h₁₂ := h₁.trans h₂
      obtain ⟨i₂, hi₂, e₂, hop₂⟩ := h₁₂.inst hi rfl
      refine Wp.bind' (cseStores_after simplifyInstruction (h₁₂.placed hp) hi₂ e₂) ?_
      intro it p₃ h₃
      obtain ⟨removed, he, hnot⟩ := h₁₂
      have hafter := (h₃.trans he hnot hp hn).inst hp hn
      split
      · rename_i hit
        rw [if_pos hit] at hafter
        exact Wp.get_bind (Wp.pure' hafter)
      · rename_i hit
        rw [if_neg hit] at hafter
        exact Wp.pure' hafter

end Ece566.Llvm
