import Ece566.CseErasures
import Ece566.LicmSsa

/- What the hoisting moves. The loops of a function are worked on from the inside out, each
   one once (`postorder`). Working on a loop takes some of the instructions of its blocks,
   in the order in which they are visited, and puts them before the terminator of its
   preheader (`Relocates`); nothing else changes, in a loop without preheader nothing at
   all, and the counters count the moves and the loops. An instruction may move on when its
   new block is one of an outer loop. No SSA form is needed, only that instructions have
   their places (`Func.Laid`). -/
namespace Ece566.Llvm

/-! Loop nests. -/

def Loop.subLoops : Loop → List Loop
  | .mk _ _ subLoops => subLoops

mutual

/-- A loop with all loops nested in it. -/
def Loop.all : Loop → List Loop
  | .mk header blocks subLoops => .mk header blocks subLoops :: allLoops subLoops

def allLoops : List Loop → List Loop
  | [] => []
  | L :: rest => L.all ++ allLoops rest

end

mutual

/-- The loops in the order in which they are worked on. -/
def Loop.postorder : Loop → List Loop
  | .mk header blocks subLoops => postorders subLoops ++ [.mk header blocks subLoops]

def postorders : List Loop → List Loop
  | [] => []
  | L :: rest => L.postorder ++ postorders rest

end

mutual

theorem Loop.postorder_perm : ∀ L : Loop, L.postorder.Perm L.all
  | .mk header blocks subLoops => by
    rw [Loop.postorder, Loop.all]
    exact (List.perm_append_singleton _ _).trans ((postorders_perm subLoops).cons _)

theorem postorders_perm : ∀ loops : List Loop, (postorders loops).Perm (allLoops loops)
  | [] => .nil
  | L :: rest => (Loop.postorder_perm L).append (postorders_perm rest)

end

mutual

/-- A loop comes after all loops nested in it. -/
theorem Loop.postorder_before : ∀ (L : Loop) {pre post : List Loop} {K : Loop},
    L.postorder = pre ++ K :: post → ∀ S ∈ allLoops K.subLoops, S ∈ pre
  | .mk header blocks subLoops, pre, post, K, e, S, hS => by
    rw [Loop.postorder] at e
    rcases List.append_eq_append_iff.mp e with ⟨as, rfl, e'⟩ | ⟨cs, e₁, e₂⟩
    · cases as with
      | nil =>
        obtain ⟨rfl, -⟩ := List.cons.inj e'
        rw [List.append_nil]
        exact (postorders_perm subLoops).symm.subset hS
      | cons a as =>
        have hlen := congrArg List.length e'
        simp at hlen
    · cases cs with
      | nil =>
        obtain ⟨rfl, -⟩ := List.cons.inj e₂
        rw [List.append_nil] at e₁
        rw [← e₁]
        exact (postorders_perm subLoops).symm.subset hS
      | cons c cs =>
        obtain ⟨rfl, -⟩ := List.cons.inj e₂
        exact postorders_before subLoops e₁ S hS

theorem postorders_before : ∀ (loops : List Loop) {pre post : List Loop} {K : Loop},
    postorders loops = pre ++ K :: post → ∀ S ∈ allLoops K.subLoops, S ∈ pre
  | [], pre, post, K, e, S, hS => by cases pre <;> cases e
  | L :: rest, pre, post, K, e, S, hS => by
    rw [postorders] at e
    rcases List.append_eq_append_iff.mp e with ⟨as, rfl, e'⟩ | ⟨cs, e₁, e₂⟩
    · exact List.mem_append_right _ (postorders_before rest e' S hS)
    · cases cs with
      | nil =>
        have e₀ : postorders rest = [] ++ K :: post := e₂.symm
        have hnone : S ∈ ([] : List Loop) := postorders_before rest e₀ S hS
        cases hnone
      | cons c cs =>
        obtain ⟨rfl, -⟩ := List.cons.inj e₂
        exact Loop.postorder_before L e₁ S hS

end

variable {F F' G : Func} {L : Loop} {A : LoopAnalyses} {a b p : Label} {i j : Instr} {n : Nat}
variable {s s' s'' : Hoisting} {moved moved' : List Instr}

/-! Relocations. -/

/-- Every instruction has its place, and every block ends with a terminator. -/
structure Func.Laid (F : Func) : Prop where
  placed : F.Placed
  ended : ∀ b ∈ F.blocks, ∃ body t, F.insts b = body ++ [t] ∧ t.isTerminator = true

def Func.terminators (F : Func) (b : Label) : List Instr := (F.insts b).filter Instr.isTerminator

/-- `F'` is `F` with the instructions `moved` before the terminator of block `p`. -/
structure Relocates (F : Func) (p : Label) (moved : List Instr) (F' : Func) : Prop where
  entry : F'.entry = F.entry
  blocks : F'.blocks = F.blocks
  pre : ∃ body t, F.insts p = body ++ [t] ∧ t.isTerminator = true ∧ F'.insts p = body ++ moved ++ [t]
  others : ∀ b, b ≠ p → F'.insts b = (F.insts b).filter fun i => i ∉ moved

namespace Relocates

theorem refl (hF : F.Laid) (hp : p ∈ F.blocks) : Relocates F p [] F where
  entry := rfl
  blocks := rfl
  pre := by
    obtain ⟨body, t, e, ht⟩ := hF.ended p hp
    exact ⟨body, t, e, ht, by rw [List.append_nil, e]⟩
  others b _ := by simp

theorem trans (h : Relocates F p moved F') (h' : Relocates F' p moved' G) :
    Relocates F p (moved ++ moved') G where
  entry := h'.entry.trans h.entry
  blocks := h'.blocks.trans h.blocks
  pre := by
    obtain ⟨body, t, e, ht, e'⟩ := h.pre
    obtain ⟨body', t', e₁, -, e₂⟩ := h'.pre
    rw [e'] at e₁
    obtain ⟨rfl, e₃⟩ := List.append_inj' e₁ rfl
    obtain rfl := List.singleton_inj.mp e₃
    exact ⟨body, t, e, ht, by rw [e₂, List.append_assoc body]⟩
  others b hb := by
    rw [h'.others b hb, h.others b hb, List.filter_filter]
    refine List.filter_congr fun i _ => ?_
    rw [Bool.eq_iff_iff, Bool.and_eq_true, decide_eq_true_iff, decide_eq_true_iff, decide_eq_true_iff,
      List.mem_append, not_or]
    exact and_comm

end Relocates

/-! One move. -/

section
variable (hF : F.Laid) (hi : i ∈ F.insts b) (hne : b ≠ p) (hp : p ∈ F.blocks)

include hF hi

theorem moveBefore_filter (ha : a ≠ p) :
    (F.moveBefore i p).insts a = (F.insts a).filter fun j => j ∉ [i] := by
  rw [moveBefore_other ha]
  refine List.filter_congr fun j hj => ?_
  rw [Bool.eq_iff_iff, bne_iff_ne, decide_eq_true_iff, List.mem_singleton]
  exact not_congr ⟨fun e => hF.placed.inst_eq hj hi e, fun e => e ▸ rfl⟩

include hne hp

theorem moveBefore_relocates : Relocates F p [i] (F.moveBefore i p) where
  entry := rfl
  blocks := rfl
  pre := by
    obtain ⟨body, t, e, ht⟩ := hF.ended p hp
    refine ⟨body, t, e, ht, ?_⟩
    rw [moveBefore_at (fun h => hne (hF.placed.unique (mem_ids.mpr ⟨i, hi, rfl⟩) h)) e,
      List.append_assoc]
    rfl
  others _ ha := moveBefore_filter hF hi ha

theorem moveBefore_placed : (F.moveBefore i p).Placed where
  blocks := hF.placed.blocks
  listed {a} ha := by
    obtain ⟨j, hj⟩ := List.exists_mem_of_ne_nil _ ha
    rcases mem_moveBefore.mp hj with ⟨hj, -⟩ | ⟨rfl, -⟩
    · exact hF.placed.listed (List.ne_nil_of_mem hj)
    · exact hp
  nodup := by
    obtain ⟨body, t, e, -⟩ := hF.ended p hp
    exact nodup_moveBefore hF.placed.nodup
      (fun h => hne (hF.placed.unique (mem_ids.mpr ⟨i, hi, rfl⟩) h)) e
  unique := unique_moveBefore hF.placed.unique
  value {a j} hj hs := by
    rcases mem_moveBefore.mp hj with ⟨hj, -⟩ | ⟨-, rfl⟩
    · exact hF.placed.value hj hs
    · exact hF.placed.value hi hs

theorem moveBefore_laid (hterm : i.isTerminator = false) : (F.moveBefore i p).Laid where
  placed := moveBefore_placed hF hi hne hp
  ended a ha := by
    obtain ⟨body, t, e, ht⟩ := hF.ended a ha
    by_cases hap : a = p
    · subst hap
      obtain ⟨body, t, -, ht, e'⟩ := (moveBefore_relocates hF hi hne hp).pre
      exact ⟨body ++ [i], t, e', ht⟩
    · refine ⟨body.filter fun j => j ∉ [i], t, ?_, ht⟩
      have hti : t ∉ [i] := by
        intro h
        rw [List.mem_singleton.mp h, hterm] at ht
        cases ht
      rw [moveBefore_filter hF hi hap, e, List.filter_append,
        List.filter_cons_of_pos (by simpa using hti)]
      rfl

theorem moveBefore_terminators (hterm : i.isTerminator = false) (a : Label) :
    (F.moveBefore i p).terminators a = F.terminators a := by
  unfold Func.terminators
  by_cases ha : a = p
  · subst ha
    obtain ⟨body, t, e, -, e'⟩ := (moveBefore_relocates hF hi hne hp).pre
    rw [e, e', List.filter_append, List.filter_append, List.filter_append,
      List.filter_cons_of_neg (by simp [hterm])]
    simp
  · rw [moveBefore_filter hF hi ha, List.filter_filter]
    refine List.filter_congr fun j _ => ?_
    rw [Bool.and_eq_left_iff_imp, decide_eq_true_iff, List.mem_singleton]
    intro hj e
    rw [e, hterm] at hj
    cases hj

/-- No instruction is lost, duplicated or changed. -/
theorem moveBefore_perm (hterm : i.isTerminator = false) : F.all.Perm (F.moveBefore i p).all := by
  have hnodup : ∀ {F : Func}, F.Placed → F.all.Nodup := fun h => List.Nodup.of_map _ h.nodup_allIds
  refine (List.perm_ext_iff_of_nodup (hnodup hF.placed)
    (hnodup (moveBefore_laid hF hi hne hp hterm).placed)).mpr fun j => ?_
  have hb : b ∈ F.blocks := hF.placed.listed (List.ne_nil_of_mem hi)
  simp only [Func.all, List.mem_flatMap, mem_moveBefore]
  refine ⟨?_, ?_⟩
  · rintro ⟨a, ha, hj⟩
    by_cases e : j.id = i.id
    · exact ⟨p, hp, .inr ⟨rfl, hF.placed.inst_eq hj hi e⟩⟩
    · exact ⟨a, ha, .inl ⟨hj, e⟩⟩
  · rintro ⟨a, ha, hj⟩
    rcases hj with ⟨hj, -⟩ | ⟨-, rfl⟩
    · exact ⟨a, ha, hj⟩
    · exact ⟨b, hb, hi⟩

end

/-! The work on one loop. -/

/-- What the pass relies on of LLVM: a preheader is a block of the function outside the loop, and
which one it is depends on the terminators only; `makeLoopInvariant` moves no terminator. -/
structure LoopAnalyses.Hoists (A : LoopAnalyses) : Prop where
  listed : ∀ {F L p}, F.Laid → A.getLoopPreheader F L = some p → p ∈ F.blocks
  outside : ∀ {F L p}, A.getLoopPreheader F L = some p → L.contains p = false
  congr : ∀ {F G : Func} {L}, G.blocks = F.blocks → (∀ b, G.terminators b = F.terminators b) →
    A.getLoopPreheader G L = A.getLoopPreheader F L
  isHoistable : ∀ {F L i}, A.isHoistable F L i = true → i.isTerminator = false

def Hoisting.moves (s : Hoisting) : Nat := s.licmBasic + s.licmLoadHoist

/-- From `s` to `s'`, `moved` have been moved to block `p` and counted. -/
structure Moves (p : Label) (s : Hoisting) (moved : List Instr) (s' : Hoisting) : Prop where
  laid : s'.func.Laid
  terminators : ∀ b, s'.func.terminators b = s.func.terminators b
  relocates : Relocates s.func p moved s'.func
  perm : s.func.all.Perm s'.func.all
  moves : s'.moves = s.moves + moved.length
  numLoops : s'.numLoops = s.numLoops
  noPreheader : s'.licmNoPreheader = s.licmNoPreheader

namespace Moves

/-- Only counters that count no moves have changed. -/
theorem none (hF : s.func.Laid) (hp : p ∈ s.func.blocks) (hf : s'.func = s.func)
    (hm : s'.moves = s.moves) (hn : s'.numLoops = s.numLoops)
    (hl : s'.licmNoPreheader = s.licmNoPreheader) : Moves p s [] s' where
  laid := hf ▸ hF
  terminators _ := by rw [hf]
  relocates := by
    rw [hf]
    exact .refl hF hp
  perm := by rw [hf]
  moves := hm
  numLoops := hn
  noPreheader := hl

theorem refl (hF : s.func.Laid) (hp : p ∈ s.func.blocks) : Moves p s [] s := none hF hp rfl rfl rfl rfl

theorem one (hF : s.func.Laid) (hi : i ∈ s.func.insts b) (hne : b ≠ p) (hp : p ∈ s.func.blocks)
    (hterm : i.isTerminator = false) (hf : s'.func = s.func.moveBefore i p)
    (hm : s'.moves = s.moves + 1) (hn : s'.numLoops = s.numLoops)
    (hl : s'.licmNoPreheader = s.licmNoPreheader) : Moves p s [i] s' where
  laid := by
    rw [hf]
    exact moveBefore_laid hF hi hne hp hterm
  terminators b := by
    rw [hf]
    exact moveBefore_terminators hF hi hne hp hterm b
  relocates := by
    rw [hf]
    exact moveBefore_relocates hF hi hne hp
  perm := by
    rw [hf]
    exact moveBefore_perm hF hi hne hp hterm
  moves := hm
  numLoops := hn
  noPreheader := hl

theorem trans (h : Moves p s moved s') (h' : Moves p s' moved' s'') : Moves p s (moved ++ moved') s'' where
  laid := h'.laid
  terminators b := (h'.terminators b).trans (h.terminators b)
  relocates := h.relocates.trans h'.relocates
  perm := h.perm.trans h'.perm
  moves := by rw [h'.moves, h.moves, List.length_append, Nat.add_assoc]
  numLoops := h'.numLoops.trans h.numLoops
  noPreheader := h'.noPreheader.trans h.noPreheader

theorem preheader (hA : A.Hoists) (h : Moves p s moved s') (hp : A.getLoopPreheader s.func L = some p) :
    A.getLoopPreheader s'.func L = some p := by
  rw [hA.congr h.relocates.blocks h.terminators]
  exact hp

end Moves

/-- Where the work on loop `L` with preheader `p` is, at instruction `i` of block `b`. -/
structure At (A : LoopAnalyses) (L : Loop) (p : Label) (b : Label) (i : Instr) (s : Hoisting) : Prop where
  laid : s.func.Laid
  preheader : A.getLoopPreheader s.func L = some p
  inside : L.contains b = true
  inst : i ∈ s.func.insts b

theorem instAt_placed (hF : s.func.Placed) (hi : i ∈ s.func.insts b) :
    Wp (instAt b i.id) (fun j s' => j = i ∧ s' = s) s := by
  refine Wp.get_bind ?_
  rw [hF.inst?_eq hi]
  exact Wp.pure' ⟨rfl, rfl⟩

section
variable (hA : A.Hoists) (h : At A L p b i s)

include hA h

/-- The state after a counted move. -/
theorem At.step (hterm : i.isTerminator = false) (hf : s'.func = s.func.moveBefore i p)
    (hm : s'.moves = s.moves + 1) (hn : s'.numLoops = s.numLoops)
    (hl : s'.licmNoPreheader = s.licmNoPreheader) : Moves p s [i] s' := by
  have hne : b ≠ p := by
    intro e
    have hin := h.inside
    rw [e, hA.outside h.preheader] at hin
    cases hin
  exact .one h.laid h.inst hne (hA.listed h.laid h.preheader) hterm hf hm hn hl

/-- One turn moves its instruction or nothing. -/
theorem moveLoopInvariants_moves :
    Wp (moveLoopInvariants A L b i.id)
      (fun _ s' => ∃ moved, Moves p s moved s' ∧ (moved = [] ∨ moved = [i])) s := by
  have hp := hA.listed h.laid h.preheader
  refine Wp.bind' (instAt_placed h.laid.placed h.inst) ?_
  intro i s e
  obtain ⟨rfl, rfl⟩ := e
  refine Wp.get_bind (Wp.bind' (P := fun made s' => (made = false ∧ s' = s) ∨ made = true ∧
    i.isTerminator = false ∧ s' = { s with
      func := s.func.moveBefore i p, trail := s.trail ++ [s.func.moveBefore i p] }) ?_ ?_)
  · refine onlyIf_spec (fun _ => Wp.get_bind ?_) fun _ => .inl ⟨rfl, rfl⟩
    split
    · rename_i hh
      rw [h.preheader]
      refine Wp.bind' (Wp.modify' (Q := fun _ s' => s' = { s with
        func := s.func.moveBefore i p, trail := s.trail ++ [s.func.moveBefore i p] }) rfl) ?_
      intro _ s' e
      exact Wp.pure' (.inr ⟨rfl, hA.isHoistable hh, e⟩)
    · exact Wp.pure' (.inl ⟨rfl, rfl⟩)
  · intro made s₁ hmade
    obtain ⟨rfl, rfl⟩ | ⟨rfl, hterm, rfl⟩ := hmade
    · -- not made invariant: a load may still go, a store is counted and stays
      simp only [Bool.false_eq_true, if_false]
      split
      · rename_i hl
        split
        · rw [h.preheader]
          refine Wp.bind' (Wp.modify' (Q := fun _ s' => s' = { s₁ with
            func := s₁.func.moveBefore i p, trail := s₁.trail ++ [s₁.func.moveBefore i p] }) rfl) ?_
          intro _ s' e
          obtain rfl := e
          exact Wp.modify' ⟨[i], h.step hA (not_terminator_of_isLoad hl) rfl rfl rfl rfl, .inr rfl⟩
        · exact Wp.pure' ⟨[], .refl h.laid hp, .inl rfl⟩
      · split
        · split
          · exact Wp.modify' ⟨[], .none h.laid hp rfl rfl rfl rfl, .inl rfl⟩
          · exact Wp.pure' ⟨[], .refl h.laid hp, .inl rfl⟩
        · exact Wp.pure' ⟨[], .refl h.laid hp, .inl rfl⟩
    · refine Wp.modify' ⟨[i], h.step hA hterm rfl ?_ rfl rfl, .inr rfl⟩
      simp only [Hoisting.moves]
      omega

end

/-- A block of the loop: of the instructions from an iterator on, in their order, some are moved. -/
theorem moveInsts_moves (hA : A.Hoists) (hb : L.contains b = true) (rest : List Instr) :
    ∀ {c : Counts} {s : Hoisting}, s.func.Laid → A.getLoopPreheader s.func L = some p →
      rest.Sublist (s.func.insts b) →
      Wp (moveInsts A L b (rest.map Instr.id) c)
        (fun _ s' => ∃ moved, Moves p s moved s' ∧ moved.Sublist rest) s := by
  induction rest with
  | nil => exact fun hF hp _ => Wp.pure' ⟨[], .refl hF (hA.listed hF hp), .slnil⟩
  | cons i rest ih =>
    intro c s hF hp hsub
    have hi : i ∈ s.func.insts b := hsub.subset List.mem_cons_self
    refine Wp.bind' (instAt_placed hF.placed hi) ?_
    intro i s e
    obtain ⟨rfl, rfl⟩ := e
    refine Wp.bind' (moveLoopInvariants_moves hA ⟨hF, hp, hb, hi⟩) ?_
    intro _ s₁ h₁
    obtain ⟨moved, h₁, hmoved⟩ := h₁
    have hne : b ≠ p := by
      intro e
      rw [e, hA.outside hp] at hb
      cases hb
    have hnd : (i :: rest).Nodup := hsub.nodup (List.Nodup.of_map _ (hF.placed.nodup b))
    -- a turn moves its own instruction or none, so the rest of the block is still to come
    have hkept : ∀ j ∈ rest, j ∉ moved := by
      intro j hj hm
      rcases hmoved with rfl | rfl
      · cases hm
      · exact (List.nodup_cons.mp hnd).1 (List.mem_singleton.mp hm ▸ hj)
    have hsub₁ : rest.Sublist (s₁.func.insts b) := by
      rw [h₁.relocates.others b hne]
      have hfilter := ((List.sublist_cons_self i rest).trans hsub).filter fun j => j ∉ moved
      rwa [List.filter_eq_self.mpr fun j hj => by simpa using hkept j hj] at hfilter
    refine (ih h₁.laid (h₁.preheader hA hp) hsub₁).mono ?_
    intro _ s₂ h₂
    obtain ⟨moved', h₂, hsub₂⟩ := h₂
    refine ⟨moved ++ moved', h₁.trans h₂, ?_⟩
    rcases hmoved with rfl | rfl
    · exact hsub₂.cons i
    · exact hsub₂.cons_cons i

theorem moveBlocks_moves (hA : A.Hoists) (blocks : List Label) :
    ∀ {c : Counts} {s : Hoisting}, s.func.Laid → A.getLoopPreheader s.func L = some p →
      (∀ b ∈ blocks, L.contains b = true) →
      Wp (moveBlocks A L blocks c)
        (fun _ s' => ∃ moved, Moves p s moved s' ∧ moved.Sublist (blocks.flatMap s.func.insts)) s := by
  induction blocks with
  | nil => exact fun hF hp _ => Wp.pure' ⟨[], .refl hF (hA.listed hF hp), .slnil⟩
  | cons b blocks ih =>
    intro c s hF hp hin
    obtain ⟨hb, hrest⟩ := List.forall_mem_cons.mp hin
    refine Wp.get_bind (Wp.bind' (moveInsts_moves hA hb (s.func.insts b) hF hp (.refl _)) ?_)
    intro c₁ s₁ h₁
    obtain ⟨moved, h₁, hsub₁⟩ := h₁
    refine (ih h₁.laid (h₁.preheader hA hp) hrest).mono ?_
    intro _ s₂ h₂
    obtain ⟨moved', h₂, hsub₂⟩ := h₂
    refine ⟨moved ++ moved', h₁.trans h₂, ?_⟩
    rw [List.flatMap_cons]
    refine hsub₁.append (hsub₂.trans ?_)
    -- the blocks of the loop have only lost instructions
    have hlost : ∀ a ∈ blocks, (s₁.func.insts a).Sublist (s.func.insts a) := by
      intro a ha
      have hne : a ≠ p := by
        intro e
        have hin := hrest a ha
        rw [e, hA.outside hp] at hin
        cases hin
      rw [h₁.relocates.others a hne]
      exact List.filter_sublist
    clear ih hrest hin hsub₂ h₂
    induction blocks with
    | nil => exact .slnil
    | cons a blocks ih =>
      obtain ⟨ha, hlost⟩ := List.forall_mem_cons.mp hlost
      exact ha.append (ih hlost)

/-- The work on one loop: the preheader found, and what was moved there. -/
structure LoopTurn where
  loop : Loop
  preheader : Option Label
  moved : List Instr

/-- What the work on a loop does. -/
structure Processes (A : LoopAnalyses) (s : Hoisting) (t : LoopTurn) (s' : Hoisting) : Prop where
  preheader : A.getLoopPreheader s.func t.loop = t.preheader
  stays : t.preheader = none → t.moved = [] ∧ s'.func = s.func
  relocates : ∀ p, t.preheader = some p → Relocates s.func p t.moved s'.func
  visited : t.moved.Sublist (t.loop.getBlocks.flatMap s.func.insts)
  perm : s.func.all.Perm s'.func.all
  moves : s'.moves = s.moves + t.moved.length
  numLoops : s'.numLoops = s.numLoops + 1
  noPreheader : s'.licmNoPreheader = s.licmNoPreheader + if t.preheader = none then 1 else 0

theorem loopInvariantCodeMotion_processes (hA : A.Hoists) (hF : s.func.Laid) :
    Wp (loopInvariantCodeMotion A L) (fun _ s' => s'.func.Laid ∧
      ∃ t : LoopTurn, t.loop = L ∧ Processes A s t s') s := by
  refine Wp.bind' (Wp.modify' (Q := fun _ s' => s' = { s with numLoops := s.numLoops + 1 }) rfl) ?_
  intro _ s₁ e
  subst e
  refine Wp.get_bind ?_
  split
  · rename_i hnone
    refine Wp.modify' ⟨hF, ⟨L, none, []⟩, rfl, hnone, fun _ => ⟨rfl, rfl⟩, ?_, List.nil_sublist _,
      .refl _, rfl, rfl, rfl⟩
    exact fun p e => nomatch e
  · rename_i p hp
    have hlisted := hA.listed hF hp
    split
    · refine Wp.pure' ⟨hF, ⟨L, some p, []⟩, rfl, hp, (fun e => nomatch e), ?_, List.nil_sublist _,
        .refl _, rfl, rfl, rfl⟩
      intro q e
      obtain rfl := Option.some.inj e
      exact .refl hF hlisted
    · refine Wp.bind' (moveBlocks_moves hA _ hF hp fun b hb => List.contains_iff_mem.mpr hb) ?_
      intro c s₂ h₂
      obtain ⟨moved, h₂, hsub⟩ := h₂
      refine Wp.modify' ⟨h₂.laid, ⟨L, some p, moved⟩, rfl, hp, (fun e => nomatch e), ?_, hsub,
        h₂.perm, h₂.moves, h₂.numLoops, h₂.noPreheader⟩
      intro q e
      obtain rfl := Option.some.inj e
      exact h₂.relocates

/-! The work on the loops of a function. -/

/-- Loops worked on one after the other. -/
inductive LoopTurns (A : LoopAnalyses) : Hoisting → List LoopTurn → Hoisting → Prop where
  | nil (s : Hoisting) : LoopTurns A s [] s
  | cons {s s₁ s' : Hoisting} {t : LoopTurn} {ts : List LoopTurn} :
      Processes A s t s₁ → LoopTurns A s₁ ts s' → LoopTurns A s (t :: ts) s'

namespace LoopTurns

variable {t : LoopTurn} {ts ts' : List LoopTurn}

theorem single (h : Processes A s t s') : LoopTurns A s [t] s' := .cons h (.nil s')

theorem append (h : LoopTurns A s ts s') (h' : LoopTurns A s' ts' s'') : LoopTurns A s (ts ++ ts') s'' := by
  induction h with
  | nil => exact h'
  | cons h₁ _ ih => exact .cons h₁ (ih h')

theorem perm (h : LoopTurns A s ts s') : s.func.all.Perm s'.func.all := by
  induction h with
  | nil => exact .refl _
  | cons h₁ _ ih => exact h₁.perm.trans ih

theorem moves (h : LoopTurns A s ts s') : s'.moves = s.moves + (ts.flatMap LoopTurn.moved).length := by
  induction h with
  | nil => rfl
  | cons h₁ _ ih => rw [ih, h₁.moves, List.flatMap_cons, List.length_append, Nat.add_assoc]

theorem numLoops (h : LoopTurns A s ts s') : s'.numLoops = s.numLoops + ts.length := by
  induction h with
  | nil => rfl
  | cons h₁ _ ih => rw [ih, h₁.numLoops, List.length_cons]; omega

theorem noPreheader (h : LoopTurns A s ts s') :
    s'.licmNoPreheader = s.licmNoPreheader + ts.countP fun t => t.preheader = none := by
  induction h with
  | nil => rfl
  | cons h₁ _ ih =>
    rw [ih, h₁.noPreheader, List.countP_cons, Nat.add_assoc]
    simp only [decide_eq_true_eq, Nat.add_comm]

end LoopTurns

mutual

theorem workOnNestedLoops_turns (hA : A.Hoists) : ∀ {L : Loop} {s : Hoisting}, s.func.Laid →
    Wp (workOnNestedLoops A L) (fun _ s' => s'.func.Laid ∧
      ∃ ts, ts.map LoopTurn.loop = L.postorder ∧ LoopTurns A s ts s') s
  | .mk _ _ _, _, hF => by
    rw [workOnNestedLoops]
    refine Wp.bind' (workOnSubLoops_turns hA hF) fun _ s₁ h₁ => ?_
    obtain ⟨hF₁, ts, hts, h₁⟩ := h₁
    refine (loopInvariantCodeMotion_processes hA hF₁).mono fun _ s₂ h₂ => ?_
    obtain ⟨hF₂, t, ht, h₂⟩ := h₂
    exact ⟨hF₂, ts ++ [t], by rw [List.map_append, hts, List.map_singleton, ht, Loop.postorder],
      h₁.append (.single h₂)⟩

theorem workOnSubLoops_turns (hA : A.Hoists) : ∀ {loops : List Loop} {s : Hoisting}, s.func.Laid →
    Wp (workOnSubLoops A loops) (fun _ s' => s'.func.Laid ∧
      ∃ ts, ts.map LoopTurn.loop = postorders loops ∧ LoopTurns A s ts s') s
  | [], s, hF => by
    rw [workOnSubLoops]
    exact Wp.pure' ⟨hF, [], rfl, .nil s⟩
  | _ :: _, _, hF => by
    rw [workOnSubLoops]
    refine Wp.bind' (workOnNestedLoops_turns hA hF) fun _ s₁ h₁ => ?_
    obtain ⟨hF₁, ts, hts, h₁⟩ := h₁
    refine (workOnSubLoops_turns hA hF₁).mono fun _ s₂ h₂ => ?_
    obtain ⟨hF₂, ts', hts', h₂⟩ := h₂
    exact ⟨hF₂, ts ++ ts', by rw [List.map_append, hts, hts', postorders], h₁.append h₂⟩

end

/-! The work on the functions of a module. -/

/-- The loops the pass finds; a declaration has none. -/
def loopsOf (A : LoopAnalyses) (F : Func) : List Loop := if F.blocks.isEmpty then [] else A.loops F

/-- A function before and after the hoisting, and the work on its loops in between. -/
structure FuncTurns where
  before : Func
  turns : List LoopTurn
  after : Func

def Hoisting.turnTo (s : Hoisting) (F : Func) : Hoisting := { s with func := F, trail := s.trail ++ [F] }

/-- Functions worked on one after the other. -/
inductive ModuleTurns (A : LoopAnalyses) : Hoisting → List FuncTurns → Hoisting → Prop where
  | nil (s : Hoisting) : ModuleTurns A s [] s
  | cons {s s₁ s' : Hoisting} {t : FuncTurns} {ts : List FuncTurns} :
      LoopTurns A (s.turnTo t.before) t.turns s₁ → s₁.func = t.after → ModuleTurns A s₁ ts s' →
      ModuleTurns A s (t :: ts) s'

/-- Each loop of the function has been worked on once, and after the loops nested in it; the
instructions are those there were. -/
structure FuncTurns.Relocated (A : LoopAnalyses) (t : FuncTurns) : Prop where
  loops : (t.turns.map LoopTurn.loop).Perm (allLoops (loopsOf A t.before))
  nested : ∀ pre L post, t.turns.map LoopTurn.loop = pre ++ L :: post →
    ∀ S ∈ allLoops L.subLoops, S ∈ pre
  perm : t.before.all.Perm t.after.all

/-- What the hoisting has done over a module: to each function, and to the counters. -/
structure Relocated (A : LoopAnalyses) (M : Module) (s : Hoisting) (ts : List FuncTurns) (M' : Module)
    (s' : Hoisting) : Prop where
  before : ts.map FuncTurns.before = M
  after : ts.map FuncTurns.after = M'
  turns : ModuleTurns A s ts s'
  each : ∀ t ∈ ts, t.Relocated A
  numLoops : s'.numLoops = s.numLoops + (M.map fun F => (allLoops (loopsOf A F)).length).sum
  noPreheader : s'.licmNoPreheader = s.licmNoPreheader +
    (ts.flatMap FuncTurns.turns).countP fun t => t.preheader = none
  moves : s'.moves = s.moves + ((ts.flatMap FuncTurns.turns).flatMap LoopTurn.moved).length

theorem workOnFunction_turns (hA : A.Hoists) (hF : F.Laid) (s : Hoisting) :
    Wp (onlyIf (!F.blocks.isEmpty) ⟨⟩ (workOnSubLoops A (A.loops F)))
      (fun _ s' => ∃ ts, ts.map LoopTurn.loop = postorders (loopsOf A F) ∧
        LoopTurns A (s.turnTo F) ts s') (s.turnTo F) := by
  refine onlyIf_spec (fun h => ?_) fun h => ?_
  · rw [Bool.not_eq_true'] at h
    rw [loopsOf, h, if_neg Bool.false_ne_true]
    exact (workOnSubLoops_turns hA hF).mono fun _ _ h => h.2
  · rw [Bool.not_eq_false'] at h
    rw [loopsOf, h, if_pos rfl]
    exact ⟨[], rfl, .nil _⟩

/-- **The hoisting is a relocation**: over a module it works on every loop once, after its subloops;
each loop with a preheader sends instructions of its own there, in the order in which they
are visited, the others send none, and the counters count the loops, those without a
preheader and the moves. -/
theorem LoopInvariantCodeMotion_relocates (hA : A.Hoists) (M : Module) : ∀ s : Hoisting,
    (∀ F ∈ M, F.Laid) → ∃ M' s' ts, (LoopInvariantCodeMotion A M).run s = some (M', s') ∧
      Relocated A M s ts M' s' := by
  suffices h : ∀ {s : Hoisting}, (∀ F ∈ M, F.Laid) → Wp (LoopInvariantCodeMotion A M)
      (fun M' s' => ∃ ts, Relocated A M s ts M' s') s by
    intro s hM
    obtain ⟨M', s', hrun, ts, hts⟩ := h hM
    exact ⟨M', s', ts, hrun, hts⟩
  induction M with
  | nil => exact fun _ => Wp.pure' ⟨[], rfl, rfl, .nil _, by simp, rfl, rfl, rfl⟩
  | cons F M ih =>
    intro s hM
    obtain ⟨hF, hrest⟩ := List.forall_mem_cons.mp hM
    refine Wp.bind' (Wp.modify' (Q := fun _ s' => s' = s.turnTo F) rfl) ?_
    intro _ _ e
    subst e
    refine Wp.bind' (workOnFunction_turns hA hF s) ?_
    intro _ s₁ h₁
    obtain ⟨turns, hloops, h₁⟩ := h₁
    refine Wp.get_bind (Wp.bind' (ih hrest) fun M' s₂ h₂ => Wp.pure' ?_)
    obtain ⟨ts, h₂⟩ := h₂
    have hperm := postorders_perm (loopsOf A F)
    refine ⟨⟨F, turns, s₁.func⟩ :: ts, ?_, ?_, .cons h₁ rfl h₂.turns, ?_, ?_, ?_, ?_⟩
    · rw [List.map_cons, h₂.before]
    · rw [List.map_cons, h₂.after]
    · refine List.forall_mem_cons.mpr ⟨⟨hloops ▸ hperm, ?_, h₁.perm⟩, h₂.each⟩
      intro pre L post e
      exact postorders_before _ (hloops.symm.trans e)
    · have hlen : turns.length = (allLoops (loopsOf A F)).length := by
        rw [← hperm.length_eq, ← hloops, List.length_map]
      rw [h₂.numLoops, h₁.numLoops, hlen, List.map_cons, List.sum_cons, ← Nat.add_assoc]
      rfl
    · rw [h₂.noPreheader, h₁.noPreheader, List.flatMap_cons, List.countP_append, ← Nat.add_assoc]
      rfl
    · rw [h₂.moves, h₁.moves, List.flatMap_cons, List.flatMap_append, List.length_append,
        ← Nat.add_assoc]
      rfl

/-! A run. -/

theorem exactAnalyses_hoists (loops : List Loop) : (exactAnalyses loops).Hoists := by
  classical
  have hpre : ∀ {F L p}, (exactAnalyses loops).getLoopPreheader F L = some p → F.IsPreheader L p := by
    intro F L p h
    simp only [exactAnalyses] at h
    split at h
    · rename_i hex
      rw [← Option.some.inj h]
      exact hex.choose_spec
    · cases h
  refine ⟨?_, ?_, ?_, fun h => ((exactAnalyses_correct loops).isHoistable h).2⟩
  · intro F L p hF h
    obtain ⟨t, ht, -⟩ := (hpre h).entered.edge
    exact hF.placed.listed (List.ne_nil_of_mem ht)
  · intro F L p h
    exact Bool.not_eq_true _ ▸ (hpre h).entered.outside
  · -- a preheader is told from terminators, so a function with the same ones has the same
    intro F G L _ hterm
    have hmem : ∀ b t, (t ∈ G.insts b ∧ t.isTerminator = true) ↔ t ∈ F.insts b ∧ t.isTerminator = true := by
      intro b t
      rw [← List.mem_filter, ← List.mem_filter]
      exact iff_of_eq (congrArg (t ∈ ·) (hterm b))
    have hedge : G.Edge = F.Edge := by
      funext a b
      refine propext (exists_congr fun t => ?_)
      rw [← and_assoc, ← and_assoc, hmem]
    have hiff : ∀ p, G.IsPreheader L p = F.IsPreheader L p := by
      intro p
      refine propext ⟨?_, ?_⟩
      · intro h
        exact ⟨hedge ▸ h.entered, fun t ht hterm => h.only t ((hmem p t).mpr ⟨ht, hterm⟩).1 hterm,
          fun t ht hterm => h.plain t ((hmem p t).mpr ⟨ht, hterm⟩).1 hterm⟩
      · intro h
        exact ⟨hedge ▸ h.entered, fun t ht hterm => h.only t ((hmem p t).mp ⟨ht, hterm⟩).1 hterm,
          fun t ht hterm => h.plain t ((hmem p t).mp ⟨ht, hterm⟩).1 hterm⟩
    have hsame : ∀ P Q : Label → Prop, P = Q →
        (if h : ∃ p, P p then some h.choose else none) = if h : ∃ p, Q p then some h.choose else none := by
      intro P Q e
      rw [e]
    exact hsame _ _ (funext hiff)

theorem endless_laid : endless.Laid where
  placed := endless_ssaForm.placed (by decide)
  ended b hb := by
    have hne : ∀ b ∈ endless.blocks, endless.insts b ≠ [] := by decide
    obtain ⟨body, t, e, ht, -⟩ := endless_ssaForm.terminated (hne b hb)
    exact ⟨body, t, e, ht⟩

theorem LoopInvariantCodeMotion_relocates_endless :
    ∃ M' s' ts, (LoopInvariantCodeMotion (exactAnalyses [endlessLoop]) [endless]).run
        (Hoisting.start endless) = some (M', s') ∧
      Relocated (exactAnalyses [endlessLoop]) [endless] (Hoisting.start endless) ts M' s' :=
  LoopInvariantCodeMotion_relocates (exactAnalyses_hoists [endlessLoop]) [endless]
    (Hoisting.start endless) fun _ hF => List.mem_singleton.mp hF ▸ endless_laid

end Ece566.Llvm
