import Ece566.CseCursor

/- What is gone after the pass, and what is not. The erasures of a run account for every
   instruction that is gone, each under one counter. None of them is a call, a volatile
   access, an alloca or a terminator, so that these stay as they were and in their order,
   in every run that comes to its end. -/
namespace Ece566.Llvm

variable {simplifyInstruction : Func → Label → Instr → Option Value}
variable {getDomTree : Func → Label → Option (List Label)}
variable {F F' : Func} {b : Label} {i j : Instr} {p p' : Pass} {r : Removal} {removed : List Removal}

/-! Counting. -/

/-- The total printed. -/
def Pass.total (p : Pass) : Nat :=
  p.cseDead + p.cseElim + p.cseSimplify + p.cseLdElim + p.cseStore2Load + p.cseStElim

theorem bump_total (p : Pass) (c : Counter) : (p.bump c).total = p.total + 1 := by
  cases c <;> simp only [Pass.bump, Pass.total] <;> omega

theorem Erases.total (h : Erases simplifyInstruction p r p') : p'.total = p.total + 1 := by
  obtain ⟨f, -, -⟩ := h
  rw [bump_total]
  rfl

/-- One instruction is gone. -/
theorem Erases.perm (hp : p.func.Placed) (h : Erases simplifyInstruction p r p') :
    p.func.allIds.Perm (r.inst.id :: p'.func.allIds) := by
  have he : p'.func.allIds = p.func.allIds.erase r.inst.id := by
    rw [hp.nodup_allIds.erase_eq_filter, allIds_eq, allIds_eq, h.blocks, List.filter_flatMap]
    exact congrArg p.func.blocks.flatMap (funext h.ids)
  have hmem : r.inst.id ∈ p.func.allIds := by
    obtain ⟨f, hj, -⟩ := h
    exact List.mem_map_of_mem (List.mem_flatMap.mpr ⟨_, hp.listed (List.ne_nil_of_mem hj), hj⟩)
  rw [he]
  exact List.perm_cons_erase hmem

theorem Erasures.total (h : Erasures simplifyInstruction p removed p') :
    p'.total = p.total + removed.length := by
  induction h with
  | nil => rfl
  | cons h₁ _ ih => rw [ih, h₁.total, List.length_cons]; omega

theorem Erasures.perm (hp : p.func.Placed) (h : Erasures simplifyInstruction p removed p') :
    p.func.allIds.Perm (p'.func.allIds ++ erased removed) := by
  induction h with
  | nil => simp
  | cons h₁ _ ih =>
    rw [erased_cons]
    exact (h₁.perm hp).trans (((ih (h₁.placed hp)).cons _).trans List.perm_middle.symm)

/-- A function before and after the pass, with the removals in between. -/
structure Rewrite where
  before : Func
  removed : List Removal
  after : Func

/-- The run over a module, function by function: the removals lead from the state in which the pass
turns to a function to the one in which it leaves it. -/
inductive History (simplifyInstruction : Func → Label → Instr → Option Value) :
    Pass → List Rewrite → Pass → Prop where
  | nil (p : Pass) : History simplifyInstruction p [] p
  | cons {p p₁ p' : Pass} {t : Rewrite} {ts : List Rewrite} :
      Erasures simplifyInstruction (p.become t.before) t.removed p₁ → p₁.func = t.after →
      History simplifyInstruction p₁ ts p' → History simplifyInstruction p (t :: ts) p'

/-- What is not there any more has been removed, and once; nothing is new. -/
structure Rewrite.Accounts (t : Rewrite) : Prop where
  all : t.before.allIds.Perm (t.after.allIds ++ erased t.removed)
  once : (erased t.removed).Nodup
  kept : ∀ b, (t.after.ids b).Sublist (t.before.ids b)

theorem Erasures.accounts {t : Rewrite} (hp : t.before.Placed)
    (h : Erasures simplifyInstruction (p.become t.before) t.removed p') (hafter : p'.func = t.after) :
    t.Accounts where
  all := by
    rw [← hafter]
    exact h.perm hp
  once := (List.nodup_append.mp ((h.perm hp).nodup_iff.mp hp.nodup_allIds)).2.1
  kept b := by
    rw [← hafter, h.ids]
    exact List.filter_sublist

theorem Rewrite.Accounts.size {t : Rewrite} (h : t.Accounts) :
    t.before.all.length = t.after.all.length + t.removed.length := by
  have := h.all.length_eq
  rwa [List.length_append, Func.allIds, Func.allIds, erased, List.length_map, List.length_map,
    List.length_map] at this

def Module.size (M : Module) : Nat := (M.map fun F => F.all.length).sum

/-- What a run over a module has done: to each function, and to the counters. -/
structure Accounted (simplifyInstruction : Func → Label → Instr → Option Value) (M : Module) (p : Pass)
    (ts : List Rewrite) (M' : Module) (p' : Pass) : Prop where
  before : ts.map Rewrite.before = M
  after : ts.map Rewrite.after = M'
  history : History simplifyInstruction p ts p'
  each : ∀ t ∈ ts, t.Accounts
  count : ∀ c, p'.count c = p.count c + (ts.flatMap Rewrite.removed).countP fun r => r.counter = c
  total : p'.total = p.total + (ts.flatMap Rewrite.removed).length

theorem cseBlocks_erasures (hS : KeepsTerminators simplifyInstruction) (hp : p.func.Placed)
    (hD : ∀ b ∈ p.func.blocks, HasNode getDomTree p.func b) :
    Wp (cseBlocks getDomTree simplifyInstruction p.func.blocks)
      (fun _ p' => ∃ removed, Erasures simplifyInstruction p removed p') p := by
  rw [← cseBlocksHeads_forget]
  exact Wp.map' ((cseBlocksHeads_spec hS _ hp hp.blocks hD).mono fun _ _ h => h.1)

theorem CommonSubexpressionElimination_accounted (hS : KeepsTerminators simplifyInstruction)
    (M : Module) : ∀ {p : Pass}, (∀ F ∈ M, F.Placed ∧ ∀ b ∈ F.blocks, HasNode getDomTree F b) →
    Wp (CommonSubexpressionElimination getDomTree simplifyInstruction M)
      (fun M' p' => ∃ ts, Accounted simplifyInstruction M p ts M' p') p := by
  induction M with
  | nil => exact fun _ => Wp.pure' ⟨[], rfl, rfl, .nil _, by simp, fun _ => rfl, rfl⟩
  | cons F M ih =>
    intro p hM
    obtain ⟨⟨hF, hD⟩, hrest⟩ := List.forall_mem_cons.mp hM
    refine Wp.bind' (Wp.modify' (Q := fun _ s => s = p.become F) rfl) ?_
    intro _ _ e
    subst e
    refine Wp.bind' (cseBlocks_erasures (p := p.become F) hS hF hD) ?_
    intro _ p₁ h₁
    obtain ⟨removed, he⟩ := h₁
    refine Wp.get_bind (Wp.bind' (ih hrest) fun M' p₂ h₂ => Wp.pure' ?_)
    obtain ⟨ts, h₂⟩ := h₂
    refine ⟨⟨F, removed, p₁.func⟩ :: ts, ?_, ?_, .cons he rfl h₂.history, ?_, fun c => ?_, ?_⟩
    · rw [List.map_cons, h₂.before]
    · rw [List.map_cons, h₂.after]
    · exact List.forall_mem_cons.mpr ⟨he.accounts (t := ⟨F, removed, p₁.func⟩) hF rfl, h₂.each⟩
    · rw [h₂.count, he.count, become_count, List.flatMap_cons, List.countP_append, Nat.add_assoc]
    · rw [h₂.total, he.total, List.flatMap_cons, List.length_append, ← Nat.add_assoc]
      rfl

/-- The sizes of the functions add up. -/
theorem size_rewrites {ts : List Rewrite} (h : ∀ t ∈ ts, t.Accounts) :
    Module.size (ts.map Rewrite.before) =
      Module.size (ts.map Rewrite.after) + (ts.flatMap Rewrite.removed).length := by
  induction ts with
  | nil => rfl
  | cons t ts ih =>
    obtain ⟨ht, hts⟩ := List.forall_mem_cons.mp h
    have hone := ht.size
    have hrest := ih hts
    simp only [Module.size, List.map_cons, List.sum_cons, List.flatMap_cons, List.length_append]
      at hrest ⊢
    omega

/-- **The counters account for what is gone**: over a module of reachable blocks the pass succeeds;
the instructions before are those after and those removed, each of these under one counter,
and every counter has gone up by the number removed under it. -/
theorem CommonSubexpressionElimination_accounts (hD : NodesReachable getDomTree)
    (hS : KeepsTerminators simplifyInstruction) (M : Module) (p : Pass) (hM : ∀ F ∈ M, F.Connected) :
    ∃ M' p' ts, (CommonSubexpressionElimination getDomTree simplifyInstruction M).run p =
        some (M', p') ∧
      Accounted simplifyInstruction M p ts M' p' ∧
      Module.size M = Module.size M' + (p'.total - p.total) := by
  obtain ⟨M', p', hrun, ts, h⟩ := CommonSubexpressionElimination_accounted (p := p) hS M
    fun F hF => ⟨(hM F hF).placed, (hM F hF).hasNode hD⟩
  refine ⟨M', p', ts, hrun, h, ?_⟩
  rw [h.total, Nat.add_sub_cancel_left, ← h.before, ← h.after]
  exact size_rewrites h.each

theorem CommonSubexpressionElimination_accounts_addTwice :
    ∃ M' p' ts, (CommonSubexpressionElimination (fun _ _ => some []) (fun _ _ _ => none)
        [addTwice]).run (Pass.start addTwice) = some (M', p') ∧
      Accounted (fun _ _ _ => none) [addTwice] (Pass.start addTwice) ts M' p' ∧
      Module.size [addTwice] = Module.size M' + (p'.total - (Pass.start addTwice).total) :=
  CommonSubexpressionElimination_accounts (fun _ _ _ => rfl) (fun _ _ _ _ => rfl) [addTwice]
    (Pass.start addTwice) (by simpa using addTwice_connected)

/-! Effects. -/

/-- Calls, volatile accesses, allocas and terminators. -/
def Instr.effectful (i : Instr) : Bool :=
  i.isTerminator || isCall i || i.getOpcode == .alloca || ((isLoad i || isStore i) && i.op.volatile)

/-- The effectful instructions of a block in their order, operands apart. -/
def Func.effects (F : Func) (b : Label) : List (Nat × Op × List Label) :=
  ((F.insts b).filter Instr.effectful).map fun i => (i.id, i.op, i.blocks)

/-- LLVM's `SimplifyInstruction` finds nothing for these. -/
def KeepsEffects (simplifyInstruction : Func → Label → Instr → Option Value) : Prop :=
  ∀ F b i, i.effectful = true → simplifyInstruction F b i = none

theorem KeepsEffects.terminators (hS : KeepsEffects simplifyInstruction) :
    KeepsTerminators simplifyInstruction := by
  intro F b i h
  exact hS F b i (by rw [Instr.effectful, h]; rfl)

theorem effectful_of_opcode {c : Opcode} (h : i.op.opcode = c) : i.effectful =
    (c.isTerminator || c == .call || c == .alloca || ((c == .load || c == .store) && i.op.volatile)) := by
  rw [Instr.effectful, Instr.isTerminator, isCall, isLoad, isStore, Instr.getOpcode, h]

theorem isDead_not_effectful (h : isDead F i = true) : i.effectful = false := by
  simp only [isDead, Bool.and_eq_true, Instr.getOpcode] at h
  cases ho : i.op.opcode <;>
    first | (rw [effectful_of_opcode ho]; rfl) | (rw [ho] at h; exact absurd h.2 (by decide))

theorem works_not_effectful (h : shouldCSEworkOnInstruction i = true) : i.effectful = false := by
  unfold shouldCSEworkOnInstruction at h
  split at h
  · cases h
  · rename_i hterm
    unfold Instr.getOpcode at h
    cases ho : i.op.opcode <;>
      first
        | (rw [effectful_of_opcode ho]; rfl)
        | (rw [ho] at h; exact absurd h (by decide))
        | exact absurd (by rw [Instr.isTerminator, ho]; rfl) hterm

/-- **Nothing the pass erases has an effect.** -/
theorem Counter.Erasable.not_effectful (hS : KeepsEffects simplifyInstruction) {c : Counter}
    (h : c.Erasable simplifyInstruction F b j) : j.effectful = false := by
  cases c with
  | cseDead => exact isDead_not_effectful h
  | cseElim => exact works_not_effectful h
  | cseSimplify =>
    rw [← Bool.not_eq_true]
    intro heff
    have h : (simplifyInstruction F b j).isSome = true := h
    rw [hS _ _ _ heff] at h
    cases h
  | cseLdElim => rw [effectful_of_opcode (opcode_of_isLoad h.1), volatile_of_notVolatile h.2]; rfl
  | cseStore2Load => rw [effectful_of_opcode (opcode_of_isLoad h.1), volatile_of_notVolatile h.2]; rfl
  | cseStElim => rw [effectful_of_opcode (opcode_of_isStore h.1), volatile_of_notVolatile h.2]; rfl

/-- Without an instruction that has no effect, the effects are the same. -/
theorem drop_effects {z : Nat} {f : Value → Value}
    (h : ∀ a, ∀ i ∈ F.insts a, i.id = z → i.effectful = false) (b : Label) :
    (F.drop z f).effects b = F.effects b := by
  have hkeep : ((F.insts b).filter fun i => i.id != z).filter Instr.effectful =
      (F.insts b).filter Instr.effectful := by
    rw [List.filter_filter]
    refine List.filter_congr fun i hi => ?_
    rw [Bool.and_eq_left_iff_imp]
    intro heff
    rw [bne_iff_ne]
    intro e
    rw [h b i hi e] at heff
    cases heff
  have hdrop : ((F.drop z f).insts b).filter Instr.effectful =
      (((F.insts b).filter fun i => i.id != z).filter Instr.effectful).map (Instr.mapOperands f) :=
    List.filter_map
  rw [Func.effects, hdrop, hkeep, List.map_map]
  rfl

theorem Erases.effects (hS : KeepsEffects simplifyInstruction) (hp : p.func.Placed)
    (h : Erases simplifyInstruction p r p') (b : Label) : p'.func.effects b = p.func.effects b := by
  obtain ⟨f, hj, he⟩ := h
  rw [bump_func, become_func]
  refine drop_effects (fun a i hi e => ?_) b
  rw [hp.inst_eq hi hj e]
  exact he.not_effectful hS

theorem Erasures.effects (hS : KeepsEffects simplifyInstruction) (hp : p.func.Placed)
    (h : Erasures simplifyInstruction p removed p') (b : Label) :
    p'.func.effects b = p.func.effects b := by
  induction h with
  | nil => rfl
  | cons h₁ _ ih => rw [ih (h₁.placed hp), h₁.effects hS hp]

theorem History.effects {ts : List Rewrite} (hS : KeepsEffects simplifyInstruction)
    (h : History simplifyInstruction p ts p') (hp : ∀ t ∈ ts, t.before.Placed) :
    ∀ t ∈ ts, ∀ b, t.after.effects b = t.before.effects b := by
  induction h with
  | nil => simp
  | cons he hafter _ ih =>
    obtain ⟨hplaced, hrest⟩ := List.forall_mem_cons.mp hp
    refine List.forall_mem_cons.mpr ⟨fun b => ?_, ih hrest⟩
    rw [← hafter]
    exact he.effects hS hplaced b

/-! Runs that come to their end, of modules with any blocks. -/

/-- A dominator tree with a node for every block. -/
def withNodes (getDomTree : Func → Label → Option (List Label)) (F : Func) (b : Label) :
    Option (List Label) := some ((getDomTree F b).getD [])

theorem basicCSEPass_within (b : Label) (I : Nat) :
    Within (basicCSEPass getDomTree b I) (basicCSEPass (withNodes getDomTree) b I) := by
  refine (Within.refl _).bind' fun i => ?_
  split
  · refine (Within.refl _).bind' fun here => (Within.refl _).bind' fun _ => ?_
    refine (Within.refl _).bind' fun there => ?_
    cases hd : getDomTree there.func b with
    | none => exact fun _ _ h => nomatch h
    | some children =>
      rw [withNodes, hd]
      exact Within.refl _
  · exact Within.refl _

theorem cseInst_within (b : Label) (n : Nat) :
    Within (cseInst getDomTree simplifyInstruction b n)
      (cseInst (withNodes getDomTree) simplifyInstruction b n) := by
  refine (Within.refl _).bind' fun i => (Within.refl _).bind' fun here => ?_
  split
  · exact Within.refl _
  · split
    · exact Within.refl _
    · exact (basicCSEPass_within b n).bind' fun _ => Within.refl _

theorem cseBlock_within (b : Label) (fuel : Nat) : ∀ it : Option Nat,
    Within (cseBlock getDomTree simplifyInstruction b fuel it)
      (cseBlock (withNodes getDomTree) simplifyInstruction b fuel it) := by
  induction fuel with
  | zero => intro it; cases it <;> exact Within.refl _
  | succ fuel ih =>
    intro it
    cases it with
    | none => exact Within.refl _
    | some n => exact (cseInst_within b n).bind' ih

theorem cseBlocks_within (blocks : List Label) :
    Within (cseBlocks getDomTree simplifyInstruction blocks)
      (cseBlocks (withNodes getDomTree) simplifyInstruction blocks) := by
  induction blocks with
  | nil => exact Within.refl _
  | cons b blocks ih =>
    exact (Within.refl _).bind' fun _ => (cseBlock_within b _ _).bind' fun _ => ih

theorem CommonSubexpressionElimination_within (M : Module) :
    Within (CommonSubexpressionElimination getDomTree simplifyInstruction M)
      (CommonSubexpressionElimination (withNodes getDomTree) simplifyInstruction M) := by
  induction M with
  | nil => exact Within.refl _
  | cons F M ih =>
    exact (Within.refl _).bind' fun _ => (cseBlocks_within _).bind' fun _ =>
      (Within.refl _).bind' fun _ => ih.bind' fun _ => Within.refl _

/-- **Effects stay**: in every block of every function the calls, volatile accesses, allocas and
terminators after the pass are those before it, in the same order, operands apart. -/
theorem CommonSubexpressionElimination_effects (hS : KeepsEffects simplifyInstruction)
    {M M' : Module} {p p' : Pass} (hM : ∀ F ∈ M, F.Placed)
    (hrun : (CommonSubexpressionElimination getDomTree simplifyInstruction M).run p = some (M', p')) :
    List.Forall₂ (fun F F' => ∀ b, F'.effects b = F.effects b) M M' := by
  have hwp : Wp (CommonSubexpressionElimination (withNodes getDomTree) simplifyInstruction M)
      (fun M' p' => ∃ ts, Accounted simplifyInstruction M p ts M' p') p :=
    CommonSubexpressionElimination_accounted hS.terminators M
      fun F hF => ⟨hM F hF, fun _ _ _ _ _ => rfl⟩
  obtain ⟨M₁, p₁, hrun₁, ts, h⟩ := hwp
  rw [CommonSubexpressionElimination_within M _ _ hrun] at hrun₁
  obtain ⟨rfl, rfl⟩ := Prod.mk.inj (Option.some.inj hrun₁)
  obtain rfl := h.before
  obtain rfl := h.after
  rw [List.forall₂_map_left_iff, List.forall₂_map_right_iff, List.forall₂_same]
  exact h.history.effects hS fun t ht => hM t.before (List.mem_map_of_mem ht)

/-- `%1 = load volatile %a`, `%2 = load volatile %a`, `ret %2`. -/
def loadVolatileTwice : Func :=
  let load : Op := ⟨.load, 32, [64], true, 0⟩
  oneBlock ([⟨1, load, [.arg 0 64], []⟩, ⟨2, load, [.arg 0 64], []⟩] ++
    [⟨3, ⟨.ret, 0, [32], false, 0⟩, [.inst 2 32], []⟩])

theorem loadVolatileTwice_placed : loadVolatileTwice.Placed :=
  (oneBlock_ssaForm (by decide) (by decide) (by decide)).placed (by decide)

theorem CommonSubexpressionElimination_effects_loadVolatileTwice : ∃ M' p',
    (CommonSubexpressionElimination (fun _ _ => some []) (fun _ _ _ => none)
      [loadVolatileTwice]).run (Pass.start loadVolatileTwice) = some (M', p') ∧
    List.Forall₂ (fun F F' => ∀ b, F'.effects b = F.effects b) [loadVolatileTwice] M' := by
  have hM : ∀ F ∈ [loadVolatileTwice], F.Placed := by simpa using loadVolatileTwice_placed
  have hwp : Wp (CommonSubexpressionElimination (fun _ _ => some []) (fun _ _ _ => none)
      [loadVolatileTwice]) (fun M' p' => ∃ ts, Accounted (fun _ _ _ => none) _ _ ts M' p')
      (Pass.start loadVolatileTwice) :=
    CommonSubexpressionElimination_accounted (fun _ _ _ _ => rfl) _
      fun F hF => ⟨hM F hF, fun _ _ _ _ _ => rfl⟩
  obtain ⟨M', p', hrun, -⟩ := hwp
  exact ⟨M', p', hrun, CommonSubexpressionElimination_effects (fun _ _ _ _ => rfl) hM hrun⟩

end Ece566.Llvm
