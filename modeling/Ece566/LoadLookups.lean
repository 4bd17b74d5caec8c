import Ece566.CseErasures
import Ece566.LoadElim

/- The instructions redundant-load elimination looks at, from its call to the end of the
   turn of the instruction loop. Each look takes the instruction from those in the
   function at that moment, so that a look at one already erased fails. The scan asks the
   instruction it has just compared for its opcode, also when it has erased it: the turn
   goes through when there is nothing to erase, and only then. -/
namespace Ece566.Llvm

variable {simplifyInstruction : Func → Label → Instr → Option Value}
variable {getDomTree : Func → Label → Option (List Label)}
variable {F : Func} {b : Label} {L i j : Instr} {n : Nat} {p : Pass} {pre mid rest : List Instr}

section
variable (b : Label) (I : Nat)

/-- `eliminateRedundantLoads`, where the question for a store takes the instruction anew. -/
def eliminateRedundantLoadsLive : List Nat → Cse Unit
  | [] => pure ()
  | n :: rest => do
    let loadInst ← deref b I
    let nextInst ← deref b n
    onlyIf (reloads loadInst nextInst) ⟨⟩ do
      replaceAllUsesWith n loadInst.value
      eraseFromParent n
      modify fun p => { p with cseLdElim := p.cseLdElim + 1 }
    let nextInst ← deref b n
    if isStore nextInst then pure () else eliminateRedundantLoadsLive rest

/-- The turn of load `I` from the call on: the question whether it is a store, and the iterator. -/
def restOfTurn : Cse (Option Nat) := do
  let _ ← deref b I
  eliminateRedundantLoadsLive b I ((← get).func.idsAfter b I)
  let i ← deref b I
  let moved ← onlyIf (isStore i) (some I) do
    eliminateRedundantStoreCall b I ((← get).func.idsAfter b I)
  if moved = some I then do
    let _ ← deref b I
    return (← get).func.next b I
  else return moved

end

/-- Of the instructions after `L` one passes the scan's test, with no store before it. -/
def Repeated (L : Instr) (post : List Instr) : Prop :=
  ∃ mid j rest, post = mid ++ j :: rest ∧ (∀ k ∈ mid, isStore k = false) ∧ reloads L j = true

theorem repeated_nil : ¬ Repeated L [] := by
  intro ⟨mid, j, rest, e, _⟩
  cases mid <;> cases e

theorem repeated_cons : Repeated L (j :: rest) ↔
    reloads L j = true ∨ (isStore j = false ∧ Repeated L rest) := by
  refine ⟨?_, ?_⟩
  · intro ⟨mid, k, post, e, hmid, hk⟩
    cases mid with
    | nil =>
      obtain ⟨rfl, -⟩ := List.cons.inj e
      exact .inl hk
    | cons m mid =>
      obtain ⟨rfl, rfl⟩ := List.cons.inj e
      obtain ⟨hm, hmid⟩ := List.forall_mem_cons.mp hmid
      exact .inr ⟨hm, mid, k, post, rfl, hmid, hk⟩
  · intro h
    rcases h with hj | ⟨hj, mid, k, post, rfl, hmid, hk⟩
    · exact ⟨[], j, rest, rfl, by simp, hj⟩
    · exact ⟨j :: mid, k, post, rfl, List.forall_mem_cons.mpr ⟨hj, hmid⟩, hk⟩

/-! The looks. -/

theorem substitute_run {v : Value} {g : Pass → Pass} :
    (do replaceAllUsesWith n v; eraseFromParent n; modify g : Cse Unit).run p =
      some (⟨⟩, g (p.become (p.func.substitute n v))) := rfl

/-- What is erased cannot be looked at. -/
theorem deref_substitute {v : Value} {g : Pass → Pass} (hg : ∀ p, (g p).func = p.func) :
    (deref b n).run (g (p.become (p.func.substitute n v))) = none := by
  have h : (p.func.substitute n v).inst? b n = none := by
    rw [Func.inst?, List.find?_eq_none]
    intro i hi
    obtain ⟨j, -, hne, rfl⟩ := mem_substitute.mp hi
    simpa using hne
  have hnone : (g (p.become (p.func.substitute n v))).func.inst? b n = none := by
    rw [hg, become_func, h]
  rw [deref, Wp.run_get_bind, hnone]
  rfl

/-- The scan: it looks at an erased instruction, or changes nothing. -/
theorem eliminateRedundantLoadsLive_run (hp : p.func.Placed) (hL : L ∈ p.func.insts b)
    (post : List Instr) : (∀ i ∈ post, i ∈ p.func.insts b) →
    (eliminateRedundantLoadsLive b L.id (post.map Instr.id)).run p = none ∧ Repeated L post ∨
      (eliminateRedundantLoadsLive b L.id (post.map Instr.id)).run p = some (⟨⟩, p) ∧
        ¬ Repeated L post := by
  induction post with
  | nil => exact fun _ => .inr ⟨rfl, repeated_nil⟩
  | cons j rest ih =>
    intro h
    obtain ⟨hj, hrest⟩ := List.forall_mem_cons.mp h
    rw [List.map_cons, eliminateRedundantLoadsLive, run_deref_bind hp hL, run_deref_bind hp hj,
      repeated_cons]
    cases hr : reloads L j with
    | true =>
      refine .inl ⟨?_, .inl rfl⟩
      rw [onlyIf, if_pos rfl, Wp.run_bind_some substitute_run]
      exact Wp.run_bind_none (deref_substitute (g := fun p => { p with cseLdElim := p.cseLdElim + 1 })
        fun _ => rfl)
    | false =>
      rw [onlyIf, if_neg Bool.false_ne_true, pure_bind, run_deref_bind hp hj]
      cases hs : isStore j with
      | true => exact .inr ⟨rfl, by simp⟩
      | false =>
        rcases ih hrest with ⟨hrun, h⟩ | ⟨hrun, h⟩
        · exact .inl ⟨hrun, .inr ⟨rfl, h⟩⟩
        · exact .inr ⟨hrun, by simpa using h⟩

/-- With nothing to erase, the scan of the pass changes nothing either. -/
theorem eliminateRedundantLoads_run (hp : p.func.Placed) (hL : L ∈ p.func.insts b) (post : List Instr) :
    (∀ i ∈ post, i ∈ p.func.insts b) → ¬ Repeated L post →
      (eliminateRedundantLoads b L.id (post.map Instr.id)).run p = some (⟨⟩, p) := by
  induction post with
  | nil => exact fun _ _ => rfl
  | cons j rest ih =>
    intro h hrep
    obtain ⟨hj, hrest⟩ := List.forall_mem_cons.mp h
    rw [repeated_cons, not_or, Bool.not_eq_true] at hrep
    rw [List.map_cons, eliminateRedundantLoads, run_deref_bind hp hL, run_deref_bind hp hj]
    change (if reloads L j = true then _ else _ : Cse Unit).run p = _
    rw [hrep.1, if_neg Bool.false_ne_true]
    cases hs : isStore j with
    | true => rfl
    | false => exact ih hrest fun hr => hrep.2 ⟨hs, hr⟩

/-- The rest of a turn with nothing to erase. -/
theorem restOfTurn_run {post : List Instr} (hp : p.func.Placed) (hb : p.func.insts b = pre ++ L :: post)
    (hl : isLoad L = true) :
    (restOfTurn b L.id).run p = none ∧ Repeated L post ∨
      (restOfTurn b L.id).run p = some (p.func.next b L.id, p) ∧ ¬ Repeated L post := by
  have hL : L ∈ p.func.insts b := by rw [hb]; simp
  have hids : p.func.ids b = pre.map Instr.id ++ L.id :: post.map Instr.id := by
    rw [Func.ids, hb, List.map_append, List.map_cons]
  have hs : isStore L = false := by rw [isStore, Instr.getOpcode, opcode_of_isLoad hl]; rfl
  have hpost : ∀ i ∈ post, i ∈ p.func.insts b := fun i hi => by rw [hb]; simp [hi]
  rw [restOfTurn, run_deref_bind hp hL, Wp.run_get_bind, idsAfter_eq hids (hp.nodup b)]
  rcases eliminateRedundantLoadsLive_run hp hL post hpost with ⟨hrun, h⟩ | ⟨hrun, h⟩
  · exact .inl ⟨Wp.run_bind_none hrun, h⟩
  · refine .inr ⟨?_, h⟩
    rw [Wp.run_bind_some hrun, run_deref_bind hp hL, hs, onlyIf, if_neg Bool.false_ne_true, pure_bind,
      if_pos rfl, run_deref_bind hp hL]
    rfl

/-- The turns that go through are those of the pass. -/
theorem restOfTurn_cseInst {post : List Instr} (hp : p.func.Placed)
    (hb : p.func.insts b = pre ++ L :: post) (hl : isLoad L = true)
    (hnone : simplifyInstruction p.func b L = none) {r : Option Nat × Pass}
    (hrun : (restOfTurn b L.id).run p = some r) :
    (cseInst getDomTree simplifyInstruction b L.id).run p = some r := by
  have hL : L ∈ p.func.insts b := by rw [hb]; simp
  have hids : p.func.ids b = pre.map Instr.id ++ L.id :: post.map Instr.id := by
    rw [Func.ids, hb, List.map_append, List.map_cons]
  have hop := opcode_of_isLoad hl
  have hs : isStore L = false := by rw [isStore, Instr.getOpcode, hop]; rfl
  have hdead : isDead p.func L = false := by rw [isDead, Instr.getOpcode, hop, Bool.and_false]
  have hworks : shouldCSEworkOnInstruction L = false := by
    rw [shouldCSEworkOnInstruction, not_terminator_of_isLoad hl, Instr.getOpcode, hop]
    rfl
  have hbasic : (basicCSEPass getDomTree b L.id).run p = some (⟨⟩, p) := by
    rw [basicCSEPass, run_deref_bind hp hL, hworks]
    rfl
  rcases restOfTurn_run hp hb hl with ⟨hnot, _⟩ | ⟨hsome, hrep⟩
  · rw [hnot] at hrun
    cases hrun
  · rw [← hrun, hsome, cseInst, run_deref_bind hp hL, Wp.run_get_bind, hdead,
      if_neg Bool.false_ne_true, hnone]
    have hscan := eliminateRedundantLoads_run hp hL post (fun i hi => by rw [hb]; simp [hi]) hrep
    rw [Wp.run_bind_some hbasic, hl, hs, onlyIf, if_pos rfl, bind_assoc, Wp.run_get_bind,
      idsAfter_eq hids (hp.nodup b), Wp.run_bind_some hscan, onlyIf, if_neg Bool.false_ne_true,
      pure_bind, if_pos rfl]
    rfl

/-- **When every look finds its instruction**: if and only if none of the instructions below the load
passes the test of the scan before the next store. -/
theorem restOfTurn_live_iff {post : List Instr} (hp : p.func.Placed)
    (hb : p.func.insts b = pre ++ L :: post) (hl : isLoad L = true) :
    ((restOfTurn b L.id).run p).isSome = true ↔ ¬ Repeated L post := by
  rcases restOfTurn_run hp hb hl with ⟨hrun, h⟩ | ⟨hrun, h⟩
  · rw [hrun]
    simpa using h
  · rw [hrun]
    simpa using h

/-- `%1 = load %a`, `%2 = load %a`, `ret %2`. -/
def loadTwice : Func :=
  let load : Op := ⟨.load, 32, [64], false, 0⟩
  oneBlock ([⟨1, load, [.arg 0 64], []⟩, ⟨2, load, [.arg 0 64], []⟩] ++
    [⟨3, ⟨.ret, 0, [32], false, 0⟩, [.inst 2 32], []⟩])

theorem loadTwice_ssaForm : loadTwice.SsaForm :=
  oneBlock_ssaForm (by decide) (by decide) (by decide)

/-- The second load is erased, and then asked whether it is a store. -/
theorem loadTwice_looks_erased : loadTwice.SsaForm ∧ 1 ∈ loadTwice.ids 0 ∧
    (loadTwice.inst? 0 1).any isLoad = true ∧
    (restOfTurn 0 1).run (Pass.start loadTwice) = none :=
  ⟨loadTwice_ssaForm, by decide, by decide, rfl⟩

/-- From the second load on nothing is erased. -/
theorem restOfTurn_live_iff_loadTwice :
    ((restOfTurn 0 2).run (Pass.start loadTwice)).isSome = true := by
  let load : Op := ⟨.load, 32, [64], false, 0⟩
  have hb : (Pass.start loadTwice).func.insts 0 = [⟨1, load, [.arg 0 64], []⟩] ++
      ⟨2, load, [.arg 0 64], []⟩ :: [⟨3, ⟨.ret, 0, [32], false, 0⟩, [.inst 2 32], []⟩] := rfl
  refine (restOfTurn_live_iff (loadTwice_ssaForm.placed (by decide)) hb rfl).mpr ?_
  rw [repeated_cons, not_or]
  exact ⟨by decide, fun h => repeated_nil h.2⟩

end Ece566.Llvm
