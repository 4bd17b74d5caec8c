import Ece566.Dce

/- The loop of `RunDeadCodeElimination`, point by point: at its condition, with an
   instruction taken off, and between the operands of one that is being erased. A step
   goes from one point to the next, and each erasure is noted (`erased`). An iteration is
   a turn (`Iteration.turn`), and within it the module stays what it was when the
   iteration began, so what holds between the turns is carried into them (`Sound`). -/
namespace Ece566.Dce

open Llvm Worklist Relation

/-- At the condition of the loop; with `a` taken off; in the loop over the operands of `a`, with
`todo` to come. -/
inductive Place
  | head
  | taken (a : Address)
  | operands (a : Address) (todo : List Value)

structure Point where
  place : Place
  state : Elimination
  erased : List Address

/-- An instruction of the module. -/
def Present (M : Module) (a : Address) : Prop := ∃ i, find? M a = some i

def Elimination.take (s : Elimination) (a : Address) : Elimination :=
  { s with worklist := s.worklist.erase a }

def Elimination.erase (s : Elimination) (a : Address) (F : Func) : Elimination :=
  { s with module := s.module.set a.1 (F.eraseFromParent a.2), deadInst := s.deadInst + 1 }

/-- The next statement. Those that follow a pointer to an instruction have none where it has gone. -/
inductive Step : Point → Point → Prop
  | take {s : Elimination} {es : List Address} {a : Address} : a ∈ s.worklist →
      Step ⟨.head, s, es⟩ ⟨.taken a, s.take a, es⟩
  | leave {s : Elimination} {es : List Address} {a : Address} {F : Func} {i : Instr} :
      s.module[a.1]? = some F → find? s.module a = some i → isDead F i = false →
      Step ⟨.taken a, s, es⟩ ⟨.head, s, es⟩
  | dead {s : Elimination} {es : List Address} {a : Address} {F : Func} {i : Instr} :
      s.module[a.1]? = some F → find? s.module a = some i → isDead F i = true →
      Step ⟨.taken a, s, es⟩ ⟨.operands a i.operands, s, es⟩
  | insert {s : Elimination} {es : List Address} {a : Address} {v : Value} {todo : List Value} :
      Step ⟨.operands a (v :: todo), s, es⟩ ⟨.operands a todo, insertOperand a.1 s v, es⟩
  | erase {s : Elimination} {es : List Address} {a : Address} {F : Func} :
      s.module[a.1]? = some F → Present s.module a →
      Step ⟨.operands a [], s, es⟩ ⟨.head, s.erase a F, es ++ [a]⟩

/-- The points of the loop that a run comes to. -/
def Visits (M : Module) (p : Point) : Prop := ReflTransGen Step ⟨.head, start M, []⟩ p

/-- A step from within an iteration. -/
def Inside (p p' : Point) : Prop := p.place ≠ .head ∧ Step p p'

/-- From the condition of the loop to the next time it is there. -/
def Iteration (p p' : Point) : Prop :=
  p.place = .head ∧ p'.place = .head ∧ ∃ q, Step p q ∧ ReflTransGen Inside q p'

/-- The number of instructions left. -/
def size (M : Module) : Nat := (M.map fun F => F.all.length).sum

variable {M : Module} {F : Func} {a b : Address} {k : Nat} {i : Instr} {s s' : Elimination} {p p' : Point}
variable {es : List Address} {todo : List Value}

/-! What an erasure does to the module. -/

theorem eraseFromParent_all {z : Nat} : (F.eraseFromParent z).all = F.all.filter fun i => i.id != z := by
  rw [Func.all, Func.all, List.filter_flatMap]
  rfl

theorem find?_erase (hF : M[a.1]? = some F) :
    find? (M.set a.1 (F.eraseFromParent a.2)) b = if b = a then none else find? M b := by
  obtain ⟨hlt, -⟩ := List.getElem?_eq_some_iff.mp hF
  by_cases hk : b.1 = a.1
  · rw [find?, find?, hk, List.getElem?_set_self hlt, hF, Option.bind_some, Option.bind_some,
      eraseFromParent_all, List.find?_filter]
    split
    · rename_i e
      apply List.find?_eq_none.mpr
      intro i _
      simp [e]
    · rename_i hne
      refine List.find?_congr fun i _ => ?_
      by_cases hid : i.id = b.2
      · have : b.2 ≠ a.2 := fun e => hne (Prod.ext hk e)
        simp [hid, this]
      · simp [hid]
  · have hne : b ≠ a := fun e => hk (congrArg Prod.fst e)
    rw [find?, find?, List.getElem?_set_ne (Ne.symm hk), if_neg hne]

theorem size_set (hF : M[k]? = some F) {G : Func} (h : G.all.length < F.all.length) :
    size (M.set k G) < size M := by
  induction M generalizing k with
  | nil => cases hF
  | cons H M ih =>
    cases k with
    | zero =>
      obtain rfl := Option.some.inj hF
      simp only [size, List.set_cons_zero, List.map_cons, List.sum_cons]
      omega
    | succ k =>
      have := ih hF
      simp only [size, List.set_cons_succ, List.map_cons, List.sum_cons] at this ⊢
      omega

theorem size_erase (hF : M[a.1]? = some F) (hi : find? M a = some i) :
    size (M.set a.1 (F.eraseFromParent a.2)) < size M := by
  obtain ⟨F', hF', hmem, hid⟩ := find?_some hi
  obtain rfl : F = F' := Option.some.inj (hF.symm.trans hF')
  refine size_set hF ?_
  rw [eraseFromParent_all]
  refine List.length_filter_lt_length_iff_exists.mpr ⟨i, hmem, ?_⟩
  simp [hid]

/-! An iteration is a turn. -/

theorem insertOperand_module {v : Value} : (insertOperand k s v).module = s.module := by
  cases v <;> rfl

theorem turn_leave (hF : s.module[a.1]? = some F) (hi : find? s.module a = some i)
    (hdead : isDead F i = false) : turn a s = some (s.take a) := by
  simp only [turn, hF, hi, hdead]
  rfl

theorem turn_dead (hF : s.module[a.1]? = some F) (hi : find? s.module a = some i)
    (hdead : isDead F i = true) :
    turn a s = some ((i.operands.foldl (insertOperand a.1) (s.take a)).erase a F) := by
  simp only [turn, hF, hi, hdead]
  rfl

/-- A turn is one of these two. -/
theorem turn_cases (h : turn a s = some s') : ∃ F i, s.module[a.1]? = some F ∧ find? s.module a = some i ∧
    ((isDead F i = false ∧ s' = s.take a) ∨
      (isDead F i = true ∧ s' = (i.operands.foldl (insertOperand a.1) (s.take a)).erase a F)) := by
  unfold turn at h
  split at h
  · rename_i F i hF hi
    cases hdead : isDead F i with
    | false =>
      rw [hdead] at h
      exact ⟨F, i, hF, hi, .inl ⟨hdead, (Option.some.inj h).symm⟩⟩
    | true =>
      rw [hdead] at h
      exact ⟨F, i, hF, hi, .inr ⟨hdead, (Option.some.inj h).symm⟩⟩
  · cases h

/-- The loop over the operands, and the erasure. -/
theorem Inside.operands (todo : List Value) : ∀ {s : Elimination}, p'.place = .head →
    ReflTransGen Inside ⟨.operands a todo, s, es⟩ p' →
    ∃ F, s.module[a.1]? = some F ∧ p'.state = (todo.foldl (insertOperand a.1) s).erase a F := by
  induction todo with
  | nil =>
    intro s hp' h
    rcases ReflTransGen.cases_head h with e | ⟨q, ⟨-, hstep⟩, hrest⟩
    · rw [← e] at hp'
      cases hp'
    · cases hstep with
      | @erase _ _ _ F hF _ =>
        rcases ReflTransGen.cases_head hrest with e | ⟨q', ⟨hne, -⟩, -⟩
        · exact ⟨F, hF, by rw [← e]; rfl⟩
        · exact absurd rfl hne
  | cons v todo ih =>
    intro s hp' h
    rcases ReflTransGen.cases_head h with e | ⟨q, ⟨-, hstep⟩, hrest⟩
    · rw [← e] at hp'
      cases hp'
    · cases hstep with
      | insert =>
        obtain ⟨F, hF, hstate⟩ := ih hp' hrest
        refine ⟨F, ?_, hstate⟩
        rwa [insertOperand_module] at hF

theorem Iteration.turn (h : Iteration p p') :
    ∃ a ∈ p.state.worklist, turn a p.state = some p'.state := by
  obtain ⟨hp, hp', q, hstep, hrest⟩ := h
  cases hstep with
  | @take s es a ha =>
    refine ⟨a, ha, ?_⟩
    rcases ReflTransGen.cases_head hrest with e | ⟨q', ⟨-, hstep⟩, hrest⟩
    · rw [← e] at hp'
      cases hp'
    · cases hstep with
      | @leave _ _ _ F i hF hi hdead =>
        rcases ReflTransGen.cases_head hrest with e | ⟨q', ⟨hne, -⟩, -⟩
        · rw [← e]
          exact turn_leave hF hi hdead
        · exact absurd rfl hne
      | @dead _ _ _ F i hF hi hdead =>
        obtain ⟨F', hF', hstate⟩ := Inside.operands _ hp' hrest
        obtain rfl : F = F' := Option.some.inj (hF.symm.trans hF')
        rw [hstate]
        exact turn_dead hF hi hdead
  | _ => cases hp

theorem Inside.loop (todo : List Value) : ∀ {s : Elimination}, s.module[a.1]? = some F → Present s.module a →
    ReflTransGen Inside ⟨.operands a todo, s, es⟩
      ⟨.head, (todo.foldl (insertOperand a.1) s).erase a F, es ++ [a]⟩ := by
  induction todo with
  | nil =>
    intro s hF ha
    exact .single ⟨nofun, .erase hF ha⟩
  | cons v todo ih =>
    intro s hF ha
    have hstep : Step ⟨.operands a (v :: todo), s, es⟩
        ⟨.operands a todo, insertOperand a.1 s v, es⟩ := .insert
    refine .head ⟨nofun, hstep⟩ (ih ?_ ?_)
    · rwa [insertOperand_module]
    · rwa [insertOperand_module]

/-- The same loop, a turn at a time. -/
theorem iteration_iff : (∃ es', Iteration ⟨.head, s, es⟩ ⟨.head, s', es'⟩) ↔ Turn s s' := by
  refine ⟨fun ⟨_, h⟩ => h.turn, ?_⟩
  intro ⟨a, ha, h⟩
  have htake : Step ⟨.head, s, es⟩ ⟨.taken a, s.take a, es⟩ := .take ha
  obtain ⟨F, i, hF, hi, ⟨hdead, rfl⟩ | ⟨hdead, rfl⟩⟩ := turn_cases h
  · have hstep : Step ⟨.taken a, s.take a, es⟩ ⟨.head, s.take a, es⟩ := .leave hF hi hdead
    exact ⟨es, rfl, rfl, _, htake, .single ⟨nofun, hstep⟩⟩
  · have hstep : Step ⟨.taken a, s.take a, es⟩ ⟨.operands a i.operands, s.take a, es⟩ := .dead hF hi hdead
    have hloop : ReflTransGen Inside ⟨.operands a i.operands, s.take a, es⟩ _ :=
      Inside.loop i.operands hF ⟨i, hi⟩
    exact ⟨es ++ [a], rfl, rfl, _, htake, (ReflTransGen.single ⟨nofun, hstep⟩).trans hloop⟩

theorem turn_lowers (ha : a ∈ s.worklist) (h : turn a s = some s') :
    Prod.Lex (· < ·) (· < ·) (size s'.module, s'.worklist.card) (size s.module, s.worklist.card) := by
  obtain ⟨F, i, hF, hi, ⟨-, rfl⟩ | ⟨-, rfl⟩⟩ := turn_cases h
  · exact .right _ (Finset.card_erase_lt_of_mem ha)
  -- the worklist may grow here, but the module has lost an instruction
  · refine .left _ _ ?_
    obtain ⟨-, hmodule, -⟩ := @insertOperand_worklist a.1 i.operands (s.take a)
    refine (congrArg (fun m : Module => size (m.set a.1 _)) hmodule).trans_lt ?_
    exact size_erase hF hi

/-! What holds at every point. -/

/-- Where an iteration that began in `s` is. -/
inductive Stage (s : Elimination) : Point → Prop
  | head {es : List Address} : Stage s ⟨.head, s, es⟩
  | taken {es : List Address} {a : Address} : a ∈ s.worklist → Stage s ⟨.taken a, s.take a, es⟩
  | operands {es : List Address} {a : Address} {F : Func} {i : Instr} {done todo : List Value} :
      a ∈ s.worklist → s.module[a.1]? = some F → find? s.module a = some i → isDead F i = true →
      i.operands = done ++ todo →
      Stage s ⟨.operands a todo, done.foldl (insertOperand a.1) (s.take a), es⟩

/-- The iteration under way began in a state of the loop, and what has been erased is not there. -/
structure Sound (M : Module) (p : Point) : Prop where
  once : p.erased.Nodup
  gone : ∀ a ∈ p.erased, ¬ Present p.state.module a
  began : ∃ s, Reaches M s ∧ Stage s p

theorem take_operands (l : List Value) : (l.foldl (insertOperand a.1) (s.take a)).module = s.module ∧
    (l.foldl (insertOperand a.1) (s.take a)).worklist = s.worklist.erase a ∪ refersTo a.1 l := by
  obtain ⟨h₁, h₂, -⟩ := @insertOperand_worklist a.1 l (s.take a)
  exact ⟨h₂, h₁⟩

theorem Sound.start (M : Module) : Sound M ⟨.head, Dce.start M, []⟩ :=
  ⟨List.nodup_nil, (fun _ h => nomatch h), _, .refl, .head⟩

theorem Sound.step (h : Sound M p) (hstep : Step p p') : Sound M p' := by
  obtain ⟨honce, hgone, s, hs, hstage⟩ := h
  cases hstep with
  | @take s' es a ha =>
    cases hstage with
    | head => exact ⟨honce, hgone, s, hs, .taken ha⟩
  | @leave s' es a F i hF hi hdead =>
    cases hstage with
    | taken ha =>
      exact ⟨honce, hgone, _, hs.tail ⟨a, ha, turn_leave hF hi hdead⟩, .head⟩
  | @dead s' es a F i hF hi hdead =>
    cases hstage with
    | taken ha =>
      have hstage := @Stage.operands s es a F i [] i.operands ha hF hi hdead rfl
      exact ⟨honce, hgone, s, hs, hstage⟩
  | @insert s' es a v todo =>
    cases hstage with
    | @operands _ _ F i done _ ha hF hi hdead hops =>
      have hstage := @Stage.operands s es a F i (done ++ [v]) todo ha hF hi hdead
        (by rw [hops, List.append_assoc]; rfl)
      rw [List.foldl_concat] at hstage
      refine ⟨honce, ?_, s, hs, hstage⟩
      rwa [insertOperand_module]
  | @erase s' es a F hF hpresent =>
    cases hstage with
    | @operands _ _ F' i done _ ha hF' hi hdead hops =>
      rw [List.append_nil] at hops
      obtain rfl : F = F' := by
        rw [(take_operands done).1] at hF
        exact Option.some.inj (hF.symm.trans hF')
      have hturn := turn_dead hF' hi hdead
      rw [hops] at hturn
      -- `a` is still in the module, so it is none of those erased before
      refine ⟨?_, ?_, _, hs.tail ⟨a, ha, hturn⟩, .head⟩
      · refine List.nodup_append.mpr ⟨honce, List.nodup_singleton a, ?_⟩
        intro b hb c hc e
        obtain rfl := List.mem_singleton.mp hc
        exact hgone b hb (e ▸ hpresent)
      · intro b hb ⟨j, hj⟩
        rw [Elimination.erase, find?_erase hF] at hj
        rcases List.mem_append.mp hb with hb | hb
        · split at hj
          · cases hj
          · exact hgone b hb ⟨j, hj⟩
        · rw [if_pos (List.mem_singleton.mp hb)] at hj
          cases hj

theorem Sound.visits (h : Visits M p) : Sound M p := by
  induction h with
  | refl => exact .start M
  | tail _ hstep ih => exact ih.step hstep

/-! The worklist. -/

section
variable {hM : ∀ F ∈ M, Linked F} {t : State Address}

theorem present_iff (hs : Represents M s t) (hinv : Inv (graph M hM) t) :
    Present s.module a ↔ a ∈ t.live := by
  rw [Present, hs.module, keep_find?]
  refine ⟨?_, ?_⟩
  · intro ⟨i, hi⟩
    by_contra hn
    rw [if_neg hn] at hi
    cases hi
  · intro h
    rw [if_pos h]
    exact find?_isSome hM (hinv.live h)

/-- An instruction of the loop's state, and what its operands refer to. -/
theorem present_operand (hs : Represents M s t) (hinv : Inv (graph M hM) t)
    (hi : find? s.module a = some i) (hb : b ∈ refersTo a.1 i.operands) : Present s.module b := by
  have ha : a ∈ t.live := (present_iff hs hinv).mp ⟨i, hi⟩
  rw [hs.module, keep_find?, if_pos ha] at hi
  exact (present_iff hs hinv).mpr (hinv.kept ha ((mem_operands hi).mpr (mem_refersTo.mp hb)))

end

theorem Stage.present (h : Stage s p) (hM : ∀ F ∈ M, Linked F) (hs : Reaches M s)
    (ha : a ∈ p.state.worklist) : Present p.state.module a := by
  obtain ⟨t, hrep, hinv⟩ := reaches_represents hM hs
  have hwork : ∀ b ∈ s.worklist, Present s.module b := fun b hb =>
    (present_iff hrep hinv).mpr (hinv.work (hrep.work ▸ hb))
  cases h with
  | head => exact hwork a ha
  | taken _ => exact hwork a (Finset.mem_of_mem_erase ha)
  | @operands es c F i done todo hc hF hi _ hops =>
    obtain ⟨hmodule, hworklist⟩ := @take_operands c s done
    rw [hworklist, Finset.mem_union] at ha
    rw [hmodule]
    rcases ha with ha | ha
    · exact hwork a (Finset.mem_of_mem_erase ha)
    -- put in by this iteration: an operand of `c`, which is still there
    · refine present_operand hrep hinv hi ?_
      obtain ⟨hk, ty, ho⟩ := mem_refersTo.mp ha
      exact mem_refersTo.mpr ⟨hk, ty, hops ▸ List.mem_append_left todo ho⟩

/-- The one that is about to be erased is there, and nothing uses it. -/
theorem Stage.unused (h : Stage s ⟨.operands a todo, s', es⟩) :
    ∃ F i, s'.module[a.1]? = some F ∧ find? s'.module a = some i ∧ F.hasUses a.2 = false := by
  cases h with
  | @operands _ _ F i done _ _ hF hi hdead _ =>
    obtain ⟨F', hF', -, hid⟩ := find?_some hi
    obtain rfl : F = F' := Option.some.inj (hF.symm.trans hF')
    simp only [isDead, Bool.and_eq_true, Bool.not_eq_true'] at hdead
    rw [(take_operands done).1]
    exact ⟨F, i, hF, hi, hid ▸ hdead.1⟩

/-- No pointer is followed to an instruction that has gone: the loop goes on until the worklist is
empty. -/
theorem Sound.progress (h : Sound M p) (hM : ∀ F ∈ M, Linked F) :
    (p.place = .head ∧ p.state.worklist = ∅) ∨ ∃ p', Step p p' := by
  obtain ⟨-, -, s, hs, hstage⟩ := h
  obtain ⟨place, s', es⟩ := p
  cases place with
  | head =>
    rcases s'.worklist.eq_empty_or_nonempty with hnil | ⟨a, ha⟩
    · exact .inl ⟨rfl, hnil⟩
    · exact .inr ⟨_, .take ha⟩
  | taken a =>
    cases hstage with
    | taken ha =>
      obtain ⟨i, hi⟩ := Stage.present (@Stage.head s es) hM hs ha
      obtain ⟨F, hF, -⟩ := find?_some hi
      cases hdead : isDead F i with
      | false => exact .inr ⟨_, .leave hF hi hdead⟩
      | true => exact .inr ⟨_, .dead hF hi hdead⟩
  | operands a todo =>
    cases todo with
    | cons v todo => exact .inr ⟨_, .insert⟩
    | nil =>
      obtain ⟨F, i, hF, hi, -⟩ := hstage.unused
      exact .inr ⟨_, .erase hF ⟨i, hi⟩⟩

/-- **The worklist holds only instructions that are there.** So it is at every point of the loop, for
any order in which they are taken off. What an iteration erases has no use while its
operands are looked at and when it goes, nothing is erased twice, each iteration lowers the
number of instructions left or leaves it and shortens the worklist, and only an empty worklist
ends the loop. -/
theorem RunDeadCodeElimination_points (M : Module) (hM : ∀ F ∈ M, Linked F) (p : Point) (h : Visits M p) :
    (∀ a ∈ p.state.worklist, Present p.state.module a) ∧
      (∀ a todo, p.place = .operands a todo → ∃ F i, p.state.module[a.1]? = some F ∧
        find? p.state.module a = some i ∧ F.hasUses a.2 = false) ∧
      p.erased.Nodup ∧
      (∀ p', Iteration p p' → Prod.Lex (· < ·) (· < ·)
        (size p'.state.module, p'.state.worklist.card) (size p.state.module, p.state.worklist.card)) ∧
      ((p.place = .head ∧ p.state.worklist = ∅) ∨ ∃ p', Step p p') := by
  have hsound := Sound.visits h
  obtain ⟨s, hs, hstage⟩ := hsound.began
  refine ⟨fun a ha => hstage.present hM hs ha, ?_, hsound.once, ?_, hsound.progress hM⟩
  · intro a todo hplace
    obtain ⟨place, s', es⟩ := p
    subst hplace
    exact hstage.unused
  · intro p' hiter
    obtain ⟨a, ha, hturn⟩ := hiter.turn
    exact turn_lowers ha hturn

theorem RunDeadCodeElimination_points_chain :
    (∀ a ∈ (start [chain]).worklist, Present (start [chain]).module a) ∧
      (∀ a todo, Place.head = .operands a todo → ∃ F i, (start [chain]).module[a.1]? = some F ∧
        find? (start [chain]).module a = some i ∧ F.hasUses a.2 = false) ∧
      ([] : List Address).Nodup ∧
      (∀ p', Iteration ⟨.head, start [chain], []⟩ p' → Prod.Lex (· < ·) (· < ·)
        (size p'.state.module, p'.state.worklist.card)
        (size (start [chain]).module, (start [chain]).worklist.card)) ∧
      ((Place.head = .head ∧ (start [chain]).worklist = ∅) ∨
        ∃ p', Step ⟨.head, start [chain], []⟩ p') :=
  RunDeadCodeElimination_points [chain] (fun _ hF => List.mem_singleton.mp hF ▸ chain_linked)
    ⟨.head, start [chain], []⟩ .refl

end Ece566.Dce
