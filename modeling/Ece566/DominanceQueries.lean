import Ece566.Wp

/- The C interface to the dominance analyses (`dominance.cpp` of project 2). The trees and
   the loops of the function asked about last are kept in globals; `UpdateDominators`
   computes them anew when the next question is about another function. What LLVM computes
   is a parameter (`Analyses`): the trees of a function, and what `analyze` adds to the loops
   known so far. A null pointer that is dereferenced is a failure. -/
namespace Ece566.Queries

structure Node (Block : Type) where
  getIDom : Option Block
  children : List Block

structure Tree (Block : Type) where
  getNode : Block → Option (Node Block)
  dominates : Block → Block → Bool
  isReachableFromEntry : Block → Bool
  findNearestCommonDominator : Block → Block → Option Block

/-- The depth of each block; 0 for a block that is in no loop known. -/
abbrev LoopInfo (Block : Type) := Block → Nat

structure Analyses (Function Block : Type) where
  getParent : Block → Function
  recalculate : Function → Tree Block
  recalculatePost : Function → Tree Block
  analyze : Tree Block → LoopInfo Block → LoopInfo Block

structure Globals (Function Block : Type) where
  Current : Option Function
  DT : Option (Tree Block)
  PDT : Option (Tree Block)
  LI : Option (LoopInfo Block)

def Globals.null {Function Block : Type} : Globals Function Block := ⟨none, none, none, none⟩

abbrev Query (Function Block : Type) := StateT (Globals Function Block) Option

/-- A loop analysis that has seen no function. -/
def noLoops {Block : Type} : LoopInfo Block := fun _ => 0

section
variable {Function Block : Type} [DecidableEq Function] [DecidableEq Block]
variable (A : Analyses Function Block)

def deref {α : Type} (field : Globals Function Block → Option α) : Query Function Block α := do
  match field (← get) with
  | some a => return a
  | none => failure

def UpdateDominators (F : Function) : Query Function Block Unit := do
  let globals ← get
  if globals.Current ≠ some F then do
    -- the loop analysis is made with the trees, unless there is one
    modify fun g => if g.DT.isNone && g.LI.isNone then { g with LI := some noLoops } else g
    let LI ← deref Globals.LI
    let DT := A.recalculate F
    set (⟨some F, some DT, some (A.recalculatePost F), some (A.analyze DT LI)⟩ : Globals Function Block)
  else pure ()

def LLVMDominates (Fun : Function) (a b : Block) : Query Function Block Bool := do
  UpdateDominators A Fun
  return (← deref Globals.DT).dominates a b

def LLVMPostDominates (Fun : Function) (a b : Block) : Query Function Block Bool := do
  UpdateDominators A Fun
  return (← deref Globals.PDT).dominates a b

def LLVMIsReachableFromEntry (Fun : Function) (bb : Block) : Query Function Block Bool := do
  UpdateDominators A Fun
  return (← deref Globals.DT).isReachableFromEntry bb

def LLVMImmDom (BB : Block) : Query Function Block (Option Block) := do
  UpdateDominators A (A.getParent BB)
  match (← deref Globals.DT).getNode BB with
  | none => return none
  | some node => return node.getIDom

def LLVMFirstDomChild (BB : Block) : Query Function Block (Option Block) := do
  UpdateDominators A (A.getParent BB)
  match (← deref Globals.DT).getNode BB with
  | none => return none
  | some node => return node.children.head?

/-- The loop over the children: the one after `Child`, which is a node of the tree. -/
def childAfter (Child : Block) : Bool → List Block → Option Block
  | _, [] => none
  | next, it :: rest => if next then some it else childAfter Child (it == Child) rest

def LLVMNextDomChild (BB Child : Block) : Query Function Block (Option Block) := do
  UpdateDominators A (A.getParent BB)
  let DT ← deref Globals.DT
  match DT.getNode BB with
  | none => failure
  | some node =>
    match DT.getNode Child with
    | none => return none
    | some _ => return childAfter Child false node.children

def LLVMNearestCommonDominator (BA BB : Block) : Query Function Block (Option Block) := do
  UpdateDominators A (A.getParent BA)
  return (← deref Globals.DT).findNearestCommonDominator BA BB

def LLVMGetLoopNestingDepth (BB : Block) : Query Function Block Nat := do
  if (← get).LI.isNone then UpdateDominators A (A.getParent BB) else pure ()
  return (← deref Globals.LI) BB

end

/-! A sequence of calls. -/

inductive Call (Function Block : Type) where
  | dominates (Fun : Function) (a b : Block)
  | postDominates (Fun : Function) (a b : Block)
  | isReachableFromEntry (Fun : Function) (bb : Block)
  | immDom (BB : Block)
  | firstDomChild (BB : Block)
  | nextDomChild (BB Child : Block)
  | nearestCommonDominator (BA BB : Block)
  | getLoopNestingDepth (BB : Block)

inductive Answer (Block : Type) where
  | bool (b : Bool)
  | block (b : Option Block)
  | depth (n : Nat)
  deriving DecidableEq

namespace Call

variable {Function Block : Type} [DecidableEq Function] [DecidableEq Block]

/-- The block asked about, and the others. -/
def block : Call Function Block → Block
  | dominates _ b _ | postDominates _ b _ | isReachableFromEntry _ b | immDom b | firstDomChild b
  | nextDomChild b _ | nearestCommonDominator b _ | getLoopNestingDepth b => b

def others : Call Function Block → List Block
  | dominates _ _ b | postDominates _ _ b | nextDomChild _ b | nearestCommonDominator _ b => [b]
  | _ => []

/-- The function a call hands to `UpdateDominators`, if it calls it. -/
def function (A : Analyses Function Block) : Call Function Block → Function
  | dominates Fun _ _ | postDominates Fun _ _ | isReachableFromEntry Fun _ => Fun
  | immDom b | firstDomChild b | nextDomChild b _ | nearestCommonDominator b _
  | getLoopNestingDepth b => A.getParent b

def asksDepth : Call Function Block → Bool
  | getLoopNestingDepth _ => true
  | _ => false

def run (A : Analyses Function Block) : Call Function Block → Query Function Block (Answer Block)
  | dominates Fun a b => .bool <$> LLVMDominates A Fun a b
  | postDominates Fun a b => .bool <$> LLVMPostDominates A Fun a b
  | isReachableFromEntry Fun bb => .bool <$> LLVMIsReachableFromEntry A Fun bb
  | immDom BB => .block <$> LLVMImmDom A BB
  | firstDomChild BB => .block <$> LLVMFirstDomChild A BB
  | nextDomChild BB Child => .block <$> LLVMNextDomChild A BB Child
  | nearestCommonDominator BA BB => .block <$> LLVMNearestCommonDominator A BA BB
  | getLoopNestingDepth BB => .depth <$> LLVMGetLoopNestingDepth A BB

/-- What the trees and the loops of one function say. -/
def ask (DT PDT : Tree Block) (LI : LoopInfo Block) : Call Function Block → Option (Answer Block)
  | dominates _ a b => some (.bool (DT.dominates a b))
  | postDominates _ a b => some (.bool (PDT.dominates a b))
  | isReachableFromEntry _ bb => some (.bool (DT.isReachableFromEntry bb))
  | immDom BB => some (.block ((DT.getNode BB).bind Node.getIDom))
  | firstDomChild BB => some (.block ((DT.getNode BB).bind fun node => node.children.head?))
  | nextDomChild BB Child => (DT.getNode BB).map fun node =>
      .block ((DT.getNode Child).bind fun _ => childAfter Child false node.children)
  | nearestCommonDominator BA BB => some (.block (DT.findNearestCommonDominator BA BB))
  | getLoopNestingDepth BB => some (.depth (LI BB))

end Call

variable {Function Block : Type} [DecidableEq Function] [DecidableEq Block]
variable {A : Analyses Function Block} {c : Call Function Block} {calls pre : List (Call Function Block)}
variable {F G : Function} {done : List Function} {g : Globals Function Block} {b : Block} {n : Nat}

/-- The loops of `F` when it has been analysed `n` times, each time on top of what there was. -/
def Analyses.lookup (A : Analyses Function Block) (F : Function) : Nat → LoopInfo Block
  | 0 => noLoops
  | n + 1 => A.analyze (A.recalculate F) (A.lookup F n)

/-- The loop depth of a block in its own function. -/
def Analyses.depth (A : Analyses Function Block) (b : Block) : Nat := A.lookup (A.getParent b) 1 b

/-- A fresh analysis of the function of the block asked about. -/
def Call.fresh (A : Analyses Function Block) (c : Call Function Block) : Option (Answer Block) :=
  let F := A.getParent c.block
  c.ask (A.recalculate F) (A.recalculatePost F) (A.analyze (A.recalculate F) noLoops)

/-- What is relied on of LLVM: a reachable block has a node; `analyze` goes by the loops known of
the function it is given and leaves those of the others; and where it finds the loops of this
function already there it puts new ones around them. -/
structure Analyses.Correct (A : Analyses Function Block) : Prop where
  node : ∀ {F b}, (A.recalculate F).isReachableFromEntry b = true →
    ((A.recalculate F).getNode b).isSome = true
  own : ∀ {F LI LI' b}, (∀ b, A.getParent b = F → LI b = LI' b) → A.getParent b = F →
    A.analyze (A.recalculate F) LI b = A.analyze (A.recalculate F) LI' b
  other : ∀ {F LI b}, A.getParent b ≠ F → A.analyze (A.recalculate F) LI b = LI b
  again : ∀ {b n}, 0 < A.lookup (A.getParent b) n b →
    A.lookup (A.getParent b) n b < A.lookup (A.getParent b) (n + 1) b

/-- The blocks are reachable blocks of the function named. -/
def Call.WellFormed (A : Analyses Function Block) (c : Call Function Block) : Prop :=
  ∀ b ∈ c.block :: c.others, A.getParent b = c.function A ∧
    (A.recalculate (c.function A)).isReachableFromEntry b = true

instance : Decidable (c.WellFormed A) :=
  inferInstanceAs (Decidable (∀ b ∈ c.block :: c.others, A.getParent b = c.function A ∧
    (A.recalculate (c.function A)).isReachableFromEntry b = true))

/-- What a call adds to the functions that have been analysed, the last one first: its function, if
that is not the current one; a question for a depth only if there is none. -/
def note (A : Analyses Function Block) (done : List Function) (c : Call Function Block) :
    List Function :=
  if done = [] ∨ (c.asksDepth = false ∧ done.head? ≠ some (c.function A)) then c.function A :: done
  else done

/-- The functions that a sequence of calls analyses, each as often as it does. -/
def analysed (A : Analyses Function Block) (calls : List (Call Function Block)) : List Function :=
  calls.foldl (note A) []

/-- How often the function of block `b` has been analysed when a question for its depth that comes
after `pre` is answered. -/
def times (A : Analyses Function Block) (pre : List (Call Function Block)) (b : Block) : Nat :=
  (analysed A (pre ++ [.getLoopNestingDepth b])).count (A.getParent b)

/-- The function of the block asked about has been analysed once; or the block is in no loop, and
in none after as many analyses as there have been. -/
def Call.Ready (A : Analyses Function Block) (pre : List (Call Function Block)) :
    Call Function Block → Prop
  | .getLoopNestingDepth BB => times A pre BB = 1 ∨
      (A.depth BB = 0 ∧ A.lookup (A.getParent BB) (times A pre BB) BB = 0)
  | _ => True

/-! The globals. -/

/-- What the globals hold: the trees of `F`, and the loops of the functions `done`. -/
structure Holds (A : Analyses Function Block) (done : List Function) (F : Function)
    (g : Globals Function Block) : Prop where
  last : done.head? = some F
  current : g.Current = some F
  tree : g.DT = some (A.recalculate F)
  post : g.PDT = some (A.recalculatePost F)
  loops : ∃ LI, g.LI = some LI ∧ ∀ b, LI b = A.lookup (A.getParent b) (done.count (A.getParent b)) b

/-- What the globals hold after a sequence of calls. -/
def After (A : Analyses Function Block) (g : Globals Function Block)
    (pre : List (Call Function Block)) : Prop :=
  (analysed A pre = [] ∧ g = .null) ∨ ∃ F, Holds A (analysed A pre) F g

section
omit [DecidableEq Function] [DecidableEq Block]

theorem deref_spec {α : Type} {field : Globals Function Block → Option α} {a : α}
    (h : field g = some a) : Wp (deref field) (fun b g' => b = a ∧ g' = g) g := by
  refine Wp.get_bind ?_
  rw [h]
  exact Wp.pure' ⟨rfl, rfl⟩

end

section
omit [DecidableEq Block]

theorem analysed_snoc : analysed A (pre ++ [c]) = note A (analysed A pre) c := by
  rw [analysed, analysed, List.foldl_append]
  rfl

/-- Where there are loops, a question for a depth analyses nothing. -/
theorem note_depth (hdone : done ≠ []) : note A done (.getLoopNestingDepth b) = done :=
  if_neg (not_or.mpr ⟨hdone, fun h => by cases h.1⟩)

/-- The loops found for `F` join those known. -/
theorem Analyses.Correct.loops (hA : A.Correct) {LI : LoopInfo Block}
    (h : ∀ b, LI b = A.lookup (A.getParent b) (done.count (A.getParent b)) b) (b : Block) :
    A.analyze (A.recalculate F) LI b =
      A.lookup (A.getParent b) ((F :: done).count (A.getParent b)) b := by
  by_cases hb : A.getParent b = F
  · rw [hb, List.count_cons_self, Analyses.lookup]
    exact hA.own (fun b' hb' => by rw [h, hb']) hb
  · rw [hA.other hb, h, List.count_cons_of_ne (Ne.symm hb)]

omit [DecidableEq Function] in
/-- Only the first analysis is right of a block in a loop: what there is grows from then on. -/
theorem Analyses.Correct.lookup_eq_iff (hA : A.Correct) : A.lookup (A.getParent b) n b = A.depth b ↔
    n = 1 ∨ (A.depth b = 0 ∧ A.lookup (A.getParent b) n b = 0) := by
  refine ⟨fun h => ?_, fun h => ?_⟩
  · by_cases hb : A.depth b = 0
    · exact .inr ⟨hb, h.trans hb⟩
    · have hgrows : ∀ k, A.depth b < A.lookup (A.getParent b) (k + 2) b := by
        intro k
        induction k with
        | zero => exact hA.again (Nat.pos_of_ne_zero hb)
        | succ k ih => exact ih.trans (hA.again (Nat.zero_lt_of_lt ih))
      match n, h with
      | 0, h => exact absurd h.symm hb
      | 1, _ => exact .inl rfl
      | k + 2, h => exact absurd h (hgrows k).ne'
  · rcases h with rfl | ⟨hb, h⟩
    · rfl
    · rw [h, hb]

theorem UpdateDominators_null (hA : A.Correct) :
    Wp (UpdateDominators A F) (fun _ g' => Holds A [F] F g') .null :=
  ⟨_, _, rfl, rfl, rfl, rfl, rfl, _, rfl, hA.loops fun _ => rfl⟩

theorem UpdateDominators_holds (hA : A.Correct) (h : Holds A done G g) :
    Wp (UpdateDominators A F)
      (fun _ g' => Holds A (if done.head? ≠ some F then F :: done else done) F g') g := by
  refine Wp.get_bind ?_
  rw [h.last, ← h.current]
  by_cases hF : g.Current = some F
  · -- nothing to do
    obtain rfl : G = F := Option.some.inj (h.current.symm.trans hF)
    rw [if_neg (not_not.mpr hF), if_neg (not_not.mpr hF)]
    exact Wp.pure' h
  · -- the trees are made anew; the loops are only added to
    obtain ⟨LI, hLI, hloops⟩ := h.loops
    rw [if_pos hF, if_pos hF]
    refine Wp.bind' (Wp.modify' (Q := fun _ g' => g' = g) ?_) ?_
    · rw [hLI, Option.isNone_some, Bool.and_false]
      rfl
    · intro _ _ e
      obtain rfl := e
      refine Wp.bind' (deref_spec hLI) ?_
      intro _ _ e
      obtain ⟨rfl, rfl⟩ := e
      exact ⟨_, _, rfl, rfl, rfl, rfl, rfl, _, rfl, hA.loops hloops⟩

/-- `UpdateDominators` puts the function of a call in the globals. -/
theorem After.update (hA : A.Correct) (h : After A g pre)
    (hc : analysed A pre = [] ∨ c.asksDepth = false) :
    Wp (UpdateDominators A (c.function A))
      (fun _ g' => Holds A (analysed A (pre ++ [c])) (c.function A) g') g := by
  rw [analysed_snoc, note]
  rcases h with ⟨hnil, rfl⟩ | ⟨F, hF⟩
  · rw [if_pos (.inl hnil), hnil]
    exact UpdateDominators_null hA
  · have hne : analysed A pre ≠ [] := by
      intro e
      have hlast := hF.last
      rw [e] at hlast
      cases hlast
    simpa only [hne, hc.resolve_left hne, false_or, true_and] using UpdateDominators_holds hA hF

/-! One call. -/

omit [DecidableEq Function] in
/-- The function a well-formed call names is the function of its block. -/
theorem Call.WellFormed.function_eq (hc : c.WellFormed A) : c.function A = A.getParent c.block :=
  (hc c.block List.mem_cons_self).1.symm

omit [DecidableEq Function] in
theorem Call.WellFormed.node (hc : c.WellFormed A) (hA : A.Correct) :
    ∃ node, (A.recalculate (c.function A)).getNode c.block = some node :=
  Option.isSome_iff_exists.mp (hA.node (hc c.block List.mem_cons_self).2)

/-- What most calls do: `UpdateDominators`, then a question to one of the trees. -/
theorem After.ask (hA : A.Correct) (h : After A g pre) (hc : c.asksDepth = false)
    {field : Globals Function Block → Option (Tree Block)} {tree : Tree Block}
    (hf : ∀ {done g'}, Holds A done (c.function A) g' → field g' = some tree) {α : Type}
    {x : Tree Block → Query Function Block α} {Q : α → Globals Function Block → Prop}
    (hx : ∀ {g'}, After A g' (pre ++ [c]) → Wp (x tree) Q g') :
    Wp (do UpdateDominators A (c.function A); x (← deref field)) Q g := by
  refine Wp.bind' (h.update hA (.inr hc)) ?_
  intro _ g₁ hg
  refine Wp.bind' (deref_spec (hf hg)) ?_
  intro _ _ e
  obtain ⟨rfl, rfl⟩ := e
  exact hx (.inr ⟨_, hg⟩)

/-- A question for a depth finds what the analyses of its block's function have come to. -/
theorem LLVMGetLoopNestingDepth_spec (hA : A.Correct) {BB : Block} (h : After A g pre) :
    Wp (LLVMGetLoopNestingDepth A BB) (fun n g' => After A g' (pre ++ [.getLoopNestingDepth BB]) ∧
      n = A.lookup (A.getParent BB) (times A pre BB) BB) g := by
  have hread : ∀ {F g'}, Holds A (analysed A (pre ++ [.getLoopNestingDepth BB])) F g' →
      Wp (do return (← deref Globals.LI) BB)
        (fun n g' => After A g' (pre ++ [.getLoopNestingDepth BB]) ∧
          n = A.lookup (A.getParent BB) (times A pre BB) BB) g' := by
    intro F g' hg
    obtain ⟨LI, hLI, hloops⟩ := hg.loops
    refine Wp.bind' (deref_spec hLI) ?_
    intro _ _ e
    obtain ⟨rfl, rfl⟩ := e
    exact Wp.pure' ⟨.inr ⟨F, hg⟩, hloops BB⟩
  refine Wp.get_bind ?_
  rcases h with ⟨hnil, rfl⟩ | ⟨F, hg⟩
  · -- the first call of all
    have hupdate := After.update (c := .getLoopNestingDepth BB) hA (.inl ⟨hnil, rfl⟩) (.inl hnil)
    exact Wp.bind' hupdate fun _ _ hg => hread hg
  · have hne : analysed A pre ≠ [] := by
      intro e
      have hlast := hg.last
      rw [e] at hlast
      cases hlast
    obtain ⟨LI, hLI, -⟩ := hg.loops
    rw [hLI]
    refine hread (F := F) ?_
    rw [analysed_snoc, note_depth hne]
    exact hg

end

/-- A call that asks for no depth returns what a fresh analysis says. -/
theorem Call.run_tree (hA : A.Correct) (hw : c.WellFormed A) (h : After A g pre)
    (hc : c.asksDepth = false) :
    Wp (c.run A) (fun a g' => c.fresh A = some a ∧ After A g' (pre ++ [c])) g := by
  have hfresh : c.fresh A = c.ask (A.recalculate (c.function A)) (A.recalculatePost (c.function A))
      (A.analyze (A.recalculate (c.function A)) noLoops) := by
    rw [Call.fresh, hw.function_eq]
  rw [hfresh]
  obtain ⟨node, hnode⟩ := hw.node hA
  cases c with
  | dominates Fun a b =>
    exact Wp.map' (h.ask hA hc Holds.tree fun hg => Wp.pure' ⟨rfl, hg⟩)
  | postDominates Fun a b =>
    exact Wp.map' (h.ask hA hc Holds.post fun hg => Wp.pure' ⟨rfl, hg⟩)
  | isReachableFromEntry Fun bb =>
    exact Wp.map' (h.ask hA hc Holds.tree fun hg => Wp.pure' ⟨rfl, hg⟩)
  | immDom BB =>
    refine Wp.map' (h.ask hA hc Holds.tree fun hg => ?_)
    simp only [Call.function, Call.block, Call.ask] at hnode ⊢
    rw [hnode]
    exact Wp.pure' ⟨rfl, hg⟩
  | firstDomChild BB =>
    refine Wp.map' (h.ask hA hc Holds.tree fun hg => ?_)
    simp only [Call.function, Call.block, Call.ask] at hnode ⊢
    rw [hnode]
    exact Wp.pure' ⟨rfl, hg⟩
  | nextDomChild BB Child =>
    refine Wp.map' (h.ask hA hc Holds.tree fun hg => ?_)
    simp only [Call.function, Call.block, Call.ask] at hnode ⊢
    rw [hnode]
    cases (A.recalculate (A.getParent BB)).getNode Child with
    | none => exact Wp.pure' ⟨rfl, hg⟩
    | some _ => exact Wp.pure' ⟨rfl, hg⟩
  | nearestCommonDominator BA BB =>
    exact Wp.map' (h.ask hA hc Holds.tree fun hg => Wp.pure' ⟨rfl, hg⟩)
  | getLoopNestingDepth BB => cases hc

/-- One call returns what a fresh analysis says exactly if it is ready. -/
theorem Call.run_spec (hA : A.Correct) (hw : c.WellFormed A) (h : After A g pre) :
    ∃ fresh, c.fresh A = some fresh ∧
      Wp (c.run A) (fun a g' => After A g' (pre ++ [c]) ∧ (a = fresh ↔ c.Ready A pre)) g := by
  cases hc : c.asksDepth with
  | false =>
    obtain ⟨a, g', hrun, hfresh, hg⟩ := Call.run_tree hA hw h hc
    refine ⟨a, hfresh, a, g', hrun, hg, fun _ => ?_, fun _ => rfl⟩
    cases c <;> trivial
  | true =>
    cases c with
    | getLoopNestingDepth BB =>
      refine ⟨.depth (A.depth BB), rfl, Wp.map' ((LLVMGetLoopNestingDepth_spec hA h).mono ?_)⟩
      intro n g' h'
      obtain ⟨hg, rfl⟩ := h'
      refine ⟨hg, ?_⟩
      rw [Answer.depth.injEq]
      exact hA.lookup_eq_iff
    | _ => cases hc

/-! The sequence. -/

/-- What the calls return, one after the other, from globals that are null. -/
def answers (A : Analyses Function Block) (calls : List (Call Function Block)) :
    Option (List (Answer Block)) :=
  (calls.mapM (Call.run A)).run' .null

omit [DecidableEq Block] in
/-- All calls of a sequence are ready when their turn comes if the first one is and then the
others are. -/
theorem ready_cons {cs : List (Call Function Block)} :
    (∀ mid d post, c :: cs = mid ++ d :: post → d.Ready A (pre ++ mid)) ↔
      c.Ready A pre ∧ ∀ mid d post, cs = mid ++ d :: post → d.Ready A (pre ++ [c] ++ mid) := by
  refine ⟨?_, ?_⟩
  · intro h
    refine ⟨by simpa using h [] c cs rfl, fun mid d post e => ?_⟩
    rw [List.append_assoc]
    exact h (c :: mid) d post (by rw [e]; rfl)
  · intro ⟨hc, h⟩ mid d post e
    cases mid with
    | nil =>
      obtain ⟨rfl, -⟩ := List.cons.inj e
      rwa [List.append_nil]
    | cons x mid =>
      obtain ⟨rfl, rfl⟩ := List.cons.inj e
      simpa using h mid d post rfl

theorem mapM_spec (hA : A.Correct) (calls : List (Call Function Block)) :
    ∀ {pre g}, (∀ c ∈ calls, c.WellFormed A) → After A g pre →
      ∃ fresh, calls.mapM (Call.fresh A) = some fresh ∧ Wp (calls.mapM (Call.run A)) (fun as _ =>
        as = fresh ↔ ∀ mid d post, calls = mid ++ d :: post → d.Ready A (pre ++ mid)) g := by
  induction calls with
  | nil =>
    intro pre g _ _
    refine ⟨[], rfl, Wp.pure' ⟨fun _ mid c post e => ?_, fun _ => rfl⟩⟩
    cases mid <;> cases e
  | cons c cs ih =>
    intro pre g hw h
    obtain ⟨a, hfresh, b, g₁, hrun, hg, hb⟩ := Call.run_spec hA (hw c List.mem_cons_self) h
    obtain ⟨as, hfreshs, hruns⟩ := ih (fun d hd => hw d (List.mem_cons_of_mem c hd)) hg
    refine ⟨a :: as, ?_, ?_⟩
    · rw [List.mapM_cons, hfresh, hfreshs]
      rfl
    · rw [List.mapM_cons]
      refine Wp.bind' ⟨b, g₁, hrun, ⟨rfl, rfl⟩⟩ (P := fun x s => x = b ∧ s = g₁) ?_
      intro _ _ e
      obtain ⟨rfl, rfl⟩ := e
      refine Wp.bind' hruns fun bs g₂ hbs => Wp.pure' ?_
      rw [List.cons.injEq, hb, hbs, ready_cons]

/-- **When the cached answers are those of the right function.** For a sequence of calls over
reachable blocks, each call returns what a fresh analysis of its block's function would if
and only if at every question for a loop depth the function of the block has been analysed
exactly once, or the block is in no loop and the analyses there have been leave it in none. -/
theorem answers_fresh_iff (hA : A.Correct) (calls : List (Call Function Block))
    (hw : ∀ c ∈ calls, c.WellFormed A) :
    answers A calls = calls.mapM (Call.fresh A) ↔
      ∀ pre c post, calls = pre ++ c :: post → c.Ready A pre := by
  have hstart : After A .null [] := .inl ⟨rfl, rfl⟩
  obtain ⟨fresh, hfresh, as, g, hrun, has⟩ := mapM_spec hA calls hw hstart
  rw [answers, hfresh]
  show Option.map Prod.fst ((calls.mapM (Call.run A)).run .null) = _ ↔ _
  rw [hrun, Option.map_some, Option.some.injEq, has]
  simp only [List.nil_append]

/-! Two functions of three blocks, one after the other; in function 1 the second block is a loop. -/

def twoFunctions : Analyses (Fin 2) (Fin 2 × Fin 3) where
  getParent := Prod.fst
  recalculate F :=
    { getNode := fun b => if b.1 = F then
        some ⟨if b.2 = 0 then none else some (F, b.2 - 1), if b.2 = 2 then [] else [(F, b.2 + 1)]⟩
        else none
      dominates := fun a b => decide (a.2 ≤ b.2)
      isReachableFromEntry := fun b => decide (b.1 = F)
      findNearestCommonDominator := fun a b => some (F, min a.2 b.2) }
  recalculatePost F :=
    { getNode := fun b => if b.1 = F then
        some ⟨if b.2 = 2 then none else some (F, b.2 + 1), if b.2 = 0 then [] else [(F, b.2 - 1)]⟩
        else none
      dominates := fun a b => decide (b.2 ≤ a.2)
      isReachableFromEntry := fun b => decide (b.1 = F)
      findNearestCommonDominator := fun a b => some (F, max a.2 b.2) }
  analyze DT LI := fun b => match DT.getNode b with
    | some _ =>
      if b = (1, 1) then LI b + 1
      -- a loop around the old one takes in what leads to it
      else if b = (1, 0) ∧ LI (1, 1) ≠ 0 then LI b + 1 else LI b
    | none => LI b

theorem twoFunctions_analyze (F : Fin 2) (LI : LoopInfo (Fin 2 × Fin 3)) (b : Fin 2 × Fin 3) :
    twoFunctions.analyze (twoFunctions.recalculate F) LI b = if b.1 ≠ F then LI b
      else if b = (1, 1) then LI b + 1 else if b = (1, 0) ∧ LI (1, 1) ≠ 0 then LI b + 1 else LI b := by
  by_cases h : b.1 = F <;> simp [twoFunctions, h]

theorem twoFunctions_lookup (F : Fin 2) (n : Nat) (b : Fin 2 × Fin 3) :
    twoFunctions.lookup F n b =
      if F ≠ 1 then 0 else if b = (1, 1) then n else if b = (1, 0) then n - 1 else 0 := by
  induction n generalizing b with
  | zero => simp [Analyses.lookup, noLoops]
  | succ n ih =>
    rw [Analyses.lookup, twoFunctions_analyze, ih, ih]
    have hparent : ∀ c : Fin 3, b = (1, c) → b.1 = 1 := fun c e => by rw [e]
    by_cases hF : F = 1
    · subst hF
      by_cases h₁ : b = (1, 1)
      · simp [h₁]
      by_cases h₀ : b = (1, 0)
      · subst h₀
        cases n <;> simp
      · simp [h₁, h₀]
    · have h₁ : b.1 = F → b ≠ (1, 1) := fun hb e => hF (hb.symm.trans (hparent 1 e))
      have h₀ : b.1 = F → b ≠ (1, 0) := fun hb e => hF (hb.symm.trans (hparent 0 e))
      by_cases hb : b.1 = F <;> simp [hF, hb, h₁, h₀]

theorem twoFunctions_correct : twoFunctions.Correct where
  node h := by simpa [twoFunctions] using h
  own {F LI LI' b} h hb := by
    rw [twoFunctions_analyze, twoFunctions_analyze, h b hb]
    by_cases hF : F = 1
    · rw [h (1, 1) hF.symm]
    · have hne : b ≠ (1, 1) ∧ b ≠ (1, 0) := by
        refine ⟨?_, ?_⟩ <;> rintro rfl <;> exact hF hb.symm
      simp [hne]
  other {F LI b} h := by
    rw [twoFunctions_analyze, if_pos (by exact h)]
  again {b n} h := by
    rw [twoFunctions_lookup] at h ⊢
    rw [twoFunctions_lookup]
    split_ifs at h ⊢ <;> omega

/-- After a question about function 0 the depth of the loop of function 1 is said to be 0; and when
questions about function 0 have come between two about function 1, it is said to be 2. -/
theorem stale_depth :
    answers twoFunctions [.immDom (0, 1), .getLoopNestingDepth (1, 1)] =
      some [.block (some (0, 0)), .depth 0] ∧
    [Call.immDom (0, 1), .getLoopNestingDepth (1, 1)].mapM (Call.fresh twoFunctions) =
      some [.block (some (0, 0)), .depth 1] ∧
    answers twoFunctions [.getLoopNestingDepth (1, 1), .immDom (0, 1), .immDom (1, 1),
      .getLoopNestingDepth (1, 1)] =
        some [.depth 1, .block (some (0, 0)), .block (some (1, 0)), .depth 2] ∧
    ∀ c ∈ [Call.immDom (0, 1), .immDom (1, 1), .getLoopNestingDepth (1, 1)],
      c.WellFormed twoFunctions :=
  ⟨rfl, rfl, rfl, by decide⟩

/-- The same questions, with one about the function of the loop before. -/
theorem answers_fresh_iff_prepared :
    answers twoFunctions [.immDom (0, 1), .dominates 1 (1, 0) (1, 1), .getLoopNestingDepth (1, 1)] =
      [Call.immDom (0, 1), .dominates 1 (1, 0) (1, 1), .getLoopNestingDepth (1, 1)].mapM
        (Call.fresh twoFunctions) := by
  refine (answers_fresh_iff twoFunctions_correct _ (by decide)).mpr ?_
  suffices h : ∀ mid d post, [Call.immDom (0, 1), .dominates 1 (1, 0) (1, 1),
      .getLoopNestingDepth (1, 1)] = mid ++ d :: post → d.Ready twoFunctions ([] ++ mid) from h
  refine ready_cons.mpr ⟨trivial, ready_cons.mpr ⟨trivial, ready_cons.mpr ⟨?_, ?_⟩⟩⟩
  · exact .inl (by decide)
  · intro mid d post e
    cases mid <;> cases e

end Ece566.Queries
