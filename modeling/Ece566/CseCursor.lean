import Ece566.CseErasures

/- Where the iterator of the instruction loop stands. The loops of
   `CommonSubexpressionElimination` are run with a record of the head of every iteration
   (`Head`); leaving the record out gives the loops of the pass. In a block the
   instructions still to come are those from the iterator on, whatever the sub-passes
   erase, so that each one left at the end has had its turn, once. -/
namespace Ece566.Llvm

open Dominance

/-- The head of an iteration over block `block`: the iterator (none at the end of the block) and
the function then. -/
structure Head where
  block : Label
  cursor : Option Nat
  func : Func

/-- The iterator is at the end of its block or on an instruction in it. -/
def Head.Stands (h : Head) : Prop := ∀ n, h.cursor = some n → n ∈ h.func.ids h.block

section
variable (getDomTree : Func → Label → Option (List Label))
variable (simplifyInstruction : Func → Label → Instr → Option Value)

/-- `cseBlock`, with the heads of its iterations. -/
def cseBlockHeads (b : Label) : Nat → Option Nat → Cse (List Head)
  | _, none => do return [⟨b, none, (← get).func⟩]
  | 0, some _ => failure
  | fuel + 1, some n => do
    let here ← get
    let it ← cseInst getDomTree simplifyInstruction b n
    return ⟨b, some n, here.func⟩ :: (← cseBlockHeads b fuel it)

def cseBlocksHeads : List Label → Cse (List Head)
  | [] => return []
  | b :: rest => do
    let here ← get
    let heads ← cseBlockHeads getDomTree simplifyInstruction b (here.func.ids b).length
      (here.func.ids b).head?
    return heads ++ (← cseBlocksHeads rest)

/-- What the functions of a module become, each with the heads of the iterations over it. -/
def CommonSubexpressionEliminationHeads : Module → Cse (List (Func × List Head))
  | [] => return []
  | F :: rest => do
    modify fun p => { p with func := F, trail := p.trail ++ [F] }
    let heads ← cseBlocksHeads getDomTree simplifyInstruction F.blocks
    let done ← get
    return (done.func, heads) :: (← CommonSubexpressionEliminationHeads rest)

/-! The record is an observation. -/

theorem cseBlockHeads_forget (b : Label) (fuel : Nat) : ∀ it : Option Nat,
    (fun _ => ⟨⟩) <$> cseBlockHeads getDomTree simplifyInstruction b fuel it =
      cseBlock getDomTree simplifyInstruction b fuel it := by
  induction fuel with
  | zero => intro it; cases it <;> rfl
  | succ fuel ih =>
    intro it
    cases it with
    | none => rfl
    | some n =>
      refine StateT.ext fun p => ?_
      show ((fun _ => PUnit.unit) <$> (cseInst getDomTree simplifyInstruction b n >>= fun it =>
        cseBlockHeads getDomTree simplifyInstruction b fuel it >>= fun heads =>
          pure (⟨b, some n, p.func⟩ :: heads))).run p = _
      simp only [cseBlock, ← ih, map_eq_pure_bind, bind_assoc, pure_bind]

theorem cseBlocksHeads_forget (blocks : List Label) :
    (fun _ => ⟨⟩) <$> cseBlocksHeads getDomTree simplifyInstruction blocks =
      cseBlocks getDomTree simplifyInstruction blocks := by
  induction blocks with
  | nil => rfl
  | cons b blocks ih =>
    simp only [cseBlocksHeads, cseBlocks, ← cseBlockHeads_forget, ← ih, map_eq_pure_bind, bind_assoc,
      pure_bind]

theorem CommonSubexpressionEliminationHeads_forget (M : Module) :
    (fun ts => ts.map Prod.fst) <$> CommonSubexpressionEliminationHeads getDomTree simplifyInstruction M =
      CommonSubexpressionElimination getDomTree simplifyInstruction M := by
  induction M with
  | nil => rfl
  | cons F M ih =>
    simp only [CommonSubexpressionEliminationHeads, CommonSubexpressionElimination,
      ← cseBlocksHeads_forget, ← ih, map_eq_pure_bind, bind_assoc, pure_bind, List.map_cons]

end

variable {getDomTree : Func → Label → Option (List Label)}
variable {simplifyInstruction : Func → Label → Instr → Option Value}
variable {F : Func} {a b : Label} {n : Nat} {p p' : Pass} {heads : List Head}

/-! The loop over the instructions of a block. -/

/-- The heads of the iterations over block `b`, from the iterator at the first of `rest` to the end,
started at `p` and ended at `p'`. -/
structure Visits (b : Label) (rest : List Nat) (p p' : Pass) (heads : List Head) : Prop where
  block : ∀ h ∈ heads, h.block = b
  stands : ∀ h ∈ heads, h.Stands
  here : ∀ h ∈ heads, ∀ n, h.cursor = some n → n ∈ p.func.ids b
  once : ∀ n ∈ p'.func.ids b, heads.countP (fun h => h.cursor = some n) = rest.count n

/-- What is still there of the instructions from `n` on. -/
theorem rest_filter {pre rest : List Nat} {removed : List Removal} (hp : p.func.Placed)
    (hids : p.func.ids b = pre ++ n :: rest) (he : Erasures simplifyInstruction p removed p') :
    p'.func.ids b = (pre ++ [n]).filter (fun d => d ∉ erased removed) ++
        rest.filter (fun d => d ∉ erased removed) ∧
      p.func.idsAfter b n = rest := by
  refine ⟨?_, idsAfter_eq hids (hp.nodup b)⟩
  rw [he.ids, hids, ← List.filter_append, List.append_assoc, List.singleton_append]

/-- **A block is visited**: as many iterations as it has instructions are enough, and each of those
left at the end has had one. -/
theorem cseBlockHeads_spec (hS : KeepsTerminators simplifyInstruction) (fuel : Nat) :
    ∀ {p : Pass} {pre rest : List Nat}, p.func.Placed → HasNode getDomTree p.func b →
      p.func.ids b = pre ++ rest → rest.length ≤ fuel →
      Wp (cseBlockHeads getDomTree simplifyInstruction b fuel rest.head?)
        (fun heads p' => (∃ removed, Erasures simplifyInstruction p removed p') ∧
          Visits b rest p p' heads) p := by
  induction fuel with
  | zero =>
    intro p pre rest _ _ _ hlen
    obtain rfl := List.length_eq_zero_iff.mp (Nat.le_zero.mp hlen)
    exact Wp.get_bind (Wp.pure' ⟨⟨[], .nil p⟩, by simp, by simp [Head.Stands], by simp, by simp⟩)
  | succ fuel ih =>
    intro p pre rest hp hD hids hlen
    cases rest with
    | nil =>
      exact Wp.get_bind (Wp.pure' ⟨⟨[], .nil p⟩, by simp, by simp [Head.Stands], by simp, by simp⟩)
    | cons n rest =>
      have hn : n ∈ p.func.ids b := by rw [hids]; simp
      -- the iterator goes to the first left of `rest`, which is where the next iteration starts
      refine Wp.get_bind (Wp.bind' (cseInst_after hS hp hD hn) ?_)
      intro it p₁ h₁
      obtain ⟨removed, he, hit⟩ := h₁
      obtain ⟨hids₁, hafter⟩ := rest_filter hp hids he
      rw [NextLeft, hafter] at hit
      subst hit
      have hlen₁ : (rest.filter fun d => d ∉ erased removed).length ≤ fuel :=
        (List.length_filter_le _ _).trans (Nat.le_of_succ_le_succ hlen)
      refine Wp.bind' (ih (he.placed hp) (hD.keep hS he hp) hids₁ hlen₁) ?_
      intro heads p₂ h₂
      obtain ⟨⟨removed', he'⟩, hv⟩ := h₂
      refine Wp.pure' ⟨⟨_, he.append he'⟩, ?_, ?_, ?_, ?_⟩
      · exact List.forall_mem_cons.mpr ⟨rfl, hv.block⟩
      · refine List.forall_mem_cons.mpr ⟨?_, hv.stands⟩
        intro m hm
        obtain rfl := Option.some.inj hm
        exact hn
      · refine List.forall_mem_cons.mpr ⟨?_, fun h hh m hm => (he.mem_ids.mp (hv.here h hh m hm)).1⟩
        intro m hm
        obtain rfl := Option.some.inj hm
        exact hn
      · intro m hm
        have hleft : m ∉ erased removed := (he.mem_ids.mp (he'.mem_ids.mp hm).1).2
        rw [List.countP_cons, hv.once m hm, List.count_filter (by simpa using hleft), List.count_cons]
        simp only [Option.some.injEq, decide_eq_true_eq, beq_iff_eq]

/-! The loop over the blocks. -/

/-- The heads of the iterations over `blocks`. -/
structure VisitsAll (blocks : List Label) (p p' : Pass) (heads : List Head) : Prop where
  block : ∀ h ∈ heads, h.block ∈ blocks
  stands : ∀ h ∈ heads, h.Stands
  here : ∀ h ∈ heads, ∀ n, h.cursor = some n → n ∈ p.func.ids h.block
  once : ∀ b ∈ blocks, ∀ n ∈ p'.func.ids b, heads.countP (fun h => h.cursor = some n) = 1

theorem cseBlocksHeads_spec (hS : KeepsTerminators simplifyInstruction) (blocks : List Label) :
    ∀ {p : Pass}, p.func.Placed → blocks.Nodup → (∀ b ∈ blocks, HasNode getDomTree p.func b) →
      Wp (cseBlocksHeads getDomTree simplifyInstruction blocks)
        (fun heads p' => (∃ removed, Erasures simplifyInstruction p removed p') ∧
          VisitsAll blocks p p' heads) p := by
  induction blocks with
  | nil => exact fun _ _ _ => Wp.pure' ⟨⟨[], .nil _⟩, by simp, by simp, by simp, by simp⟩
  | cons b blocks ih =>
    intro p hp hnd hD
    obtain ⟨hb, hnd⟩ := List.nodup_cons.mp hnd
    refine Wp.get_bind (Wp.bind' (cseBlockHeads_spec hS _ hp (hD b List.mem_cons_self)
      (List.nil_append _).symm (Nat.le_refl _)) ?_)
    intro heads p₁ h₁
    obtain ⟨⟨removed, he⟩, hv⟩ := h₁
    refine Wp.bind' (ih (he.placed hp) hnd fun c hc =>
      (hD c (List.mem_cons_of_mem b hc)).keep hS he hp) ?_
    intro heads' p₂ h₂
    obtain ⟨⟨removed', he'⟩, hv'⟩ := h₂
    refine Wp.pure' ⟨⟨_, he.append he'⟩, ?_, ?_, ?_, ?_⟩
    · intro h hh
      rcases List.mem_append.mp hh with hh | hh
      · exact hv.block h hh ▸ List.mem_cons_self
      · exact List.mem_cons_of_mem b (hv'.block h hh)
    · exact List.forall_mem_append.mpr ⟨hv.stands, hv'.stands⟩
    · refine List.forall_mem_append.mpr ⟨fun h hh n hn => hv.block h hh ▸ hv.here h hh n hn, ?_⟩
      exact fun h hh n hn => (he.mem_ids.mp (hv'.here h hh n hn)).1
    · intro c hc n hn
      have hn₁ : n ∈ p₁.func.ids c := (he'.mem_ids.mp hn).1
      have hn₀ : n ∈ p.func.ids c := (he.mem_ids.mp hn₁).1
      rw [List.countP_append]
      rcases List.mem_cons.mp hc with rfl | hc
      · -- the turns of the other blocks are turns of other instructions
        have hother : heads'.countP (fun h => h.cursor = some n) = 0 := by
          rw [List.countP_eq_zero]
          intro h hh e
          have hmem := hv'.here h hh n (of_decide_eq_true e)
          exact hb ((he.placed hp).unique hmem hn₁ ▸ hv'.block h hh)
        rw [hother, hv.once n hn₁, List.count_eq_one_of_mem (hp.nodup c) hn₀]
      · have hfirst : heads.countP (fun h => h.cursor = some n) = 0 := by
          rw [List.countP_eq_zero]
          intro h hh e
          have hmem := hv.here h hh n (of_decide_eq_true e)
          exact hb (hp.unique hmem hn₀ ▸ hc)
        rw [hfirst, hv'.once c hc n hn]

/-! The loop over the functions. -/

/-- LLVM's dominator tree has a node for every block that can be reached from the entry. -/
def NodesReachable (getDomTree : Func → Label → Option (List Label)) : Prop :=
  ∀ F b, Reach F.Edge F.entry b → (getDomTree F b).isSome = true

/-- All blocks of the function can be reached. -/
structure Func.Connected (F : Func) : Prop where
  placed : F.Placed
  reach : ∀ b ∈ F.blocks, Reach F.Edge F.entry b

theorem Func.Connected.hasNode (h : F.Connected) (hD : NodesReachable getDomTree) :
    ∀ b ∈ F.blocks, HasNode getDomTree F b := by
  intro b hb G hedge hentry
  refine hD G b ?_
  rw [hedge, hentry]
  exact h.reach b hb

/-- One function after the pass, with the heads of the iterations over it. -/
def EveryTurn (t : Func × List Head) : Prop :=
  (∀ h ∈ t.2, h.Stands) ∧
    ∀ b, ∀ n ∈ t.1.ids b, t.2.countP (fun h => h.cursor = some n) = 1

/-- **The traversal of a module**: the loops end, the iterator always stands on an instruction of
its block or at its end, and each instruction left has been the current one, once. -/
theorem CommonSubexpressionElimination_visits (hD : NodesReachable getDomTree)
    (hS : KeepsTerminators simplifyInstruction) (M : Module) : ∀ p : Pass, (∀ F ∈ M, F.Connected) →
    ∃ ts p', (CommonSubexpressionEliminationHeads getDomTree simplifyInstruction M).run p =
        some (ts, p') ∧
      (CommonSubexpressionElimination getDomTree simplifyInstruction M).run p =
        some (ts.map Prod.fst, p') ∧
      ∀ t ∈ ts, EveryTurn t := by
  suffices h : ∀ p : Pass, (∀ F ∈ M, F.Connected) →
      Wp (CommonSubexpressionEliminationHeads getDomTree simplifyInstruction M)
        (fun ts _ => ∀ t ∈ ts, EveryTurn t) p by
    intro p hM
    obtain ⟨ts, p', hrun, hts⟩ := h p hM
    refine ⟨ts, p', hrun, ?_, hts⟩
    rw [← CommonSubexpressionEliminationHeads_forget, StateT.run_map, hrun]
    rfl
  induction M with
  | nil => exact fun _ _ => Wp.pure' (by simp)
  | cons F M ih =>
    intro p hM
    obtain ⟨hF, hrest⟩ := List.forall_mem_cons.mp hM
    refine Wp.bind' (Wp.modify' (Q := fun _ s => s.func = F) rfl) ?_
    intro _ p₀ e
    subst e
    refine Wp.bind' (cseBlocksHeads_spec hS _ hF.placed hF.placed.blocks (hF.hasNode hD)) ?_
    intro heads p₁ h₁
    obtain ⟨⟨removed, he⟩, hv⟩ := h₁
    refine Wp.get_bind (Wp.bind' (ih p₁ hrest) fun ts p₂ hts => Wp.pure' ?_)
    refine List.forall_mem_cons.mpr ⟨⟨hv.stands, fun b n hn => ?_⟩, hts⟩
    have hlisted := (he.placed hF.placed).listed (List.ne_nil_of_mem (mem_ids.mp hn).choose_spec.1)
    exact hv.once b (he.blocks ▸ hlisted) n hn

/-! A run. -/

theorem addTwice_connected : addTwice.Connected where
  placed := addTwice_ssaForm.placed (by decide)
  reach b hb := List.mem_singleton.mp hb ▸ Relation.ReflTransGen.refl

theorem CommonSubexpressionElimination_visits_addTwice :
    ∃ ts p', (CommonSubexpressionEliminationHeads (fun _ _ => some []) (fun _ _ _ => none)
        [addTwice]).run (Pass.start addTwice) = some (ts, p') ∧
      (CommonSubexpressionElimination (fun _ _ => some []) (fun _ _ _ => none)
        [addTwice]).run (Pass.start addTwice) = some (ts.map Prod.fst, p') ∧
      ∀ t ∈ ts, EveryTurn t :=
  CommonSubexpressionElimination_visits (fun _ _ _ => rfl) (fun _ _ _ _ => rfl) [addTwice]
    (Pass.start addTwice) (by simpa using addTwice_connected)

end Ece566.Llvm
