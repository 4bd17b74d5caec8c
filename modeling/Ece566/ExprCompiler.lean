import Ece566.ExprGrammar
import Ece566.StraightLine

/- The compiler of tutorial 2 (`expr.y`). A program is a sequence of assignments to registers
   and a `return`; its code is one block that has no registers: `regs` maps each to the
   value that was assigned to it last, and an assignment emits nothing of its own. A
   register that is read before it is assigned becomes the constant 0.

   The parser stops at the semicolon of the first `return`, whatever follows. What it has built
   then (`yyparse_iff`) returns the value of the program (`actProgram_means`). -/
namespace Ece566.ExprCompiler

open Precedence ExprGrammar StraightLine

abbrev Reg := BitVec 32

abbrev Token := ExprGrammar.Token Reg

abbrev Expr := ExprGrammar.Expr Reg

/-- The global `regs`, and the block that `Builder` inserts into. -/
structure State where
  regs : Reg → Option (Value 32)
  block : Block 32

/-- `main` sets R0 to R7 before it calls `yyparse`. -/
def State.init : State where
  regs r := if r < 8 then some (.const 0) else none
  block := []

/-- `regs[r] = v`. -/
def State.set (st : State) (r : Reg) (v : Value 32) : State :=
  { st with regs := fun k => if k = r then some v else st.regs k }

/-- The builder works on the block. -/
def build {α : Type} (x : StateM (Block 32) α) : StateM State α := fun st =>
  let (a, block) := x.run st.block
  (a, { st with block := block })

/-! The actions. -/

/-- `expr: REG`. -/
def actReg (r : Reg) : StateM State (Value 32) := modifyGet fun st =>
  match st.regs r with
  | some v => (v, st)
  | none => (.const 0, st.set r (.const 0))

/-- `LBRACKET expr RBRACKET`. -/
def actLoad (a : Value 32) : StateM (Block 32) (Value 32) := do
  let tmp ← createIntToPtr a
  createLoad tmp

def acts : Actions (Atom Reg) Sign Bracket (Value 32) (StateM State) where
  atom
    | .immediate n => pure (.const n)
    | .reg r => actReg r
  binary
    | .plus, a, b => build (createAdd a b)
    | .minus, a, b => build (createSub a b)
  unary _ a := build (createNeg a)
  bracket
    | .paren, a => pure a
    | .square, a => build (actLoad a)

/-- How `yyparse` ends: at a `return` of a value, at the end of the text, or by an error. -/
inductive Outcome where
  | returned (v : Value 32)
  | accepted
  | error
  deriving DecidableEq, Repr

/-- `REG ASSIGN expr SEMI`, the first two tokens having been read. -/
def assignment (r : Reg) (ts : List Token) : StateM State (Option (List Token)) := do
  match ← exprSemi acts ts with
  | some (v, rest) => do
    modify fun st => st.set r v
    return some rest
  | none => return none

def assignThen (r : Reg) (ts : List Token) (next : List Token → StateM State Outcome) :
    StateM State Outcome := do
  match ← assignment r ts with
  | some rest => next rest
  | none => return .error

/-- What may follow the first assignment. -/
def statements : Nat → List Token → StateM State Outcome
  | 0, _ => return .error
  | _ + 1, [] => return .accepted
  | fuel + 1, .REG r :: .ASSIGN :: ts => assignThen r ts (statements fuel)
  | _ + 1, .RETURN :: ts => do
    match ← exprSemi acts ts with
    | some (v, _) => return .returned v
    | none => return .error
  | _ + 1, _ => return .error

def yyparse : List Token → StateM State Outcome
  | .REG r :: .ASSIGN :: ts => assignThen r ts (statements ts.length)
  | _ => return .error

/-! The meaning of a program. -/

section
variable (mem : BitVec 32 → BitVec 32)

def eval (regs : Reg → BitVec 32) : Expr → BitVec 32
  | .atom (.immediate n) => n
  | .atom (.reg r) => regs r
  | .binary .plus l r => eval regs l + eval regs r
  | .binary .minus l r => eval regs l - eval regs r
  | .unary _ e => - eval regs e
  | .bracket .paren e => eval regs e
  | .bracket .square e => mem (eval regs e)

/-- The registers after the assignments. -/
def exec (regs : Reg → BitVec 32) : List (Reg × Expr) → Reg → BitVec 32
  | [] => regs
  | (r, e) :: rest => exec (fun k => if k = r then eval mem regs e else regs k) rest

/-- The value that the program returns, started with all registers 0. -/
def value (assigns : List (Reg × Expr)) (ret : Expr) : BitVec 32 :=
  eval mem (exec mem (fun _ => 0) assigns) ret

end

/-- The tokens of the assignments and of `return`. -/
def program : List (Reg × Expr) → Expr → List Token
  | [], ret => .RETURN :: tokens ret ++ [.SEMI]
  | (r, e) :: rest, ret => .REG r :: .ASSIGN :: tokens e ++ .SEMI :: program rest ret

theorem program_exit (assigns : List (Reg × Expr)) (ret : Expr) : .exit ∉ program assigns ret := by
  induction assigns with
  | nil => simp [program, exit_not_mem]
  | cons a assigns ih => simp [program, exit_not_mem, ih]

/-! The actions compute the values. -/

variable {mem : BitVec 32 → BitVec 32} {regs : Reg → BitVec 32} {st st' : State} {v : Value 32}
variable {x : BitVec 32} {r : Reg} {ts rest : List Token}

/-- The values in `regs` mean what the registers hold; one that has no value holds 0. -/
structure Between (mem : BitVec 32 → BitVec 32) (st : State) (regs : Reg → BitVec 32) : Prop where
  runs : Runs mem st.block
  held : ∀ {r v}, st.regs r = some v → Means mem st.block v (regs r)
  unset : ∀ {r}, st.regs r = none → regs r = 0

theorem Between.init : Between mem State.init fun _ => 0 where
  runs := rfl
  held {r v} h := by
    have hruns : Runs mem State.init.block := rfl
    simp only [State.init] at h
    split at h
    · obtain rfl := Option.some.inj h
      exact means_const hruns 0
    · cases h
  unset _ := rfl

/-- From `st` the actions have made a value that means `x`, and left the registers. -/
structure Computes (mem : BitVec 32 → BitVec 32) (regs : Reg → BitVec 32) (st : State)
    (made : Value 32 × State) (x : BitVec 32) : Prop where
  between : Between mem made.2 regs
  makes : Makes mem st.block (made.1, made.2.block) x

theorem Between.grow (h : Between mem st regs) {block : Block 32} (hg : Grows mem st.block block) :
    Between mem { st with block := block } regs where
  runs := hg.runs h.runs
  held hr := (h.held hr).grow hg
  unset hr := h.unset hr

theorem Between.build (h : Between mem st regs) {a : StateM (Block 32) (Value 32)}
    (ha : Makes mem st.block (a.run st.block) x) : Computes mem regs st ((build a).run st) x :=
  ⟨h.grow ha.toGrows, ha⟩

/-- More is made. -/
theorem Computes.then {made : Value 32 × State} {y : BitVec 32} {made' : Value 32 × State}
    (h : Computes mem regs st made x) (h' : Computes mem regs made.2 made' y) :
    Computes mem regs st made' y :=
  ⟨h'.between, h.makes.toGrows.trans h'.makes.toGrows, h'.makes.means⟩

/-- A register has the value that was assigned to it. -/
theorem Between.set (h : Between mem st regs) (hv : Means mem st.block v x) :
    Between mem (st.set r v) fun k => if k = r then x else regs k where
  runs := h.runs
  held {k u} hk := by
    simp only [State.set] at hk
    split at hk
    · rename_i e
      obtain rfl := Option.some.inj hk
      rwa [if_pos e]
    · rename_i e
      rw [if_neg e]
      exact h.held hk
  unset {k} hk := by
    simp only [State.set] at hk
    split at hk
    · cases hk
    · rename_i e
      rw [if_neg e]
      exact h.unset hk

theorem actReg_computes (h : Between mem st regs) (r : Reg) :
    Computes mem regs st ((actReg r).run st) (regs r) := by
  cases hr : st.regs r with
  | some v =>
    have hrun : (actReg r).run st = (v, st) := by
      simp only [actReg, StateT.run_modifyGet, hr]
      rfl
    rw [hrun]
    exact ⟨h, .refl, h.held hr⟩
  | none =>
    have hrun : (actReg r).run st = (.const 0, st.set r (.const 0)) := by
      simp only [actReg, StateT.run_modifyGet, hr]
      rfl
    have hregs : (fun k => if k = r then 0 else regs k) = regs := by
      funext k
      split
      · rename_i e
        rw [e, h.unset hr]
      · rfl
    rw [hrun]
    refine ⟨?_, .refl, ?_⟩
    · have hset := h.set (r := r) (means_const h.runs 0)
      rwa [hregs] at hset
    · rw [h.unset hr]
      exact means_const h.runs 0

theorem actLoad_makes {block : Block 32} (h : Means mem block v x) :
    Makes mem block ((actLoad v).run block) (mem x) := by
  have hptr := createIntToPtr_makes h
  have hload := createLoad_makes hptr.means
  exact ⟨hptr.toGrows.trans hload.toGrows, hload.means⟩

/-- **The code of an expression** computes the value of the expression. -/
theorem acts_computes (e : Expr) : ∀ {st : State}, Between mem st regs →
    Computes mem regs st ((e.run acts).run st) (eval mem regs e) := by
  induction e with
  | atom a =>
    intro st h
    cases a with
    | immediate n => exact ⟨h, const_makes h.runs n⟩
    | reg r => exact actReg_computes h r
  | binary o l r ihl ihr =>
    intro st h
    have hl := ihl h
    have hr := ihr hl.between
    have hmeans := hl.makes.means.grow hr.makes.toGrows
    rw [Tree.run]
    cases o with
    | plus =>
      exact (hl.then hr).then (hr.between.build (createAdd_makes hmeans hr.makes.means))
    | minus =>
      exact (hl.then hr).then (hr.between.build (createSub_makes hmeans hr.makes.means))
  | unary o e ih =>
    intro st h
    have he := ih h
    exact he.then (he.between.build (createNeg_makes he.makes.means))
  | bracket k e ih =>
    intro st h
    have he := ih h
    cases k with
    | paren => exact he
    | square => exact he.then (he.between.build (actLoad_makes he.makes.means))

/-! The parser. -/

/-- The actions of an assignment. -/
def actAssignment (r : Reg) (e : Expr) : StateM State Unit := do
  let v ← e.run acts
  modify fun st => st.set r v

/-- The actions of a program. -/
def actProgram : List (Reg × Expr) → Expr → StateM State (Value 32)
  | [], ret => ret.run acts
  | (r, e) :: assigns, ret => do
    actAssignment r e
    actProgram assigns ret

/-- The expressions of a program fit. -/
def Fits (assigns : List (Reg × Expr)) (ret : Expr) : Prop :=
  (∀ a ∈ assigns, a.2.Fits signs) ∧ ret.Fits signs

theorem assignment_iff : (assignment r ts).run st = (some rest, st') ↔
    ∃ e : Expr, e.Fits signs ∧ ts = tokens e ++ .SEMI :: rest ∧ (actAssignment r e).run st = ((), st') := by
  constructor
  · intro h
    rw [assignment, StateT.run_bind] at h
    generalize hp : (exprSemi acts ts).run st = p at h
    obtain ⟨_ | ⟨v, ys⟩, st₁⟩ := p
    · cases h
    · obtain ⟨e, he, rfl, hrun⟩ := exprSemi_iff.mp hp
      obtain ⟨h₁, h₂⟩ := Prod.mk.inj h
      obtain rfl := Option.some.inj h₁
      refine ⟨e, he, rfl, ?_⟩
      rw [actAssignment, StateT.run_bind, hrun]
      exact Prod.ext rfl h₂
  · rintro ⟨e, he, rfl, hrun⟩
    rw [actAssignment, StateT.run_bind] at hrun
    generalize hp : (e.run acts).run st = p at hrun
    obtain ⟨v, st₁⟩ := p
    rw [assignment, StateT.run_bind, exprSemi_iff.mpr ⟨e, he, rfl, hp⟩]
    exact Prod.ext rfl (Prod.mk.inj hrun).2

theorem assignment_shorter (h : (assignment r ts).run st = (some rest, st')) : rest.length < ts.length := by
  obtain ⟨e, -, rfl, -⟩ := assignment_iff.mp h
  simp only [List.length_append, List.length_cons]
  omega

/-- The tokens begin with a program, and its actions give `v` and leave `st'`. -/
def Returns (ts : List Token) (st : State) (v : Value 32) (st' : State) : Prop :=
  ∃ assigns ret tail, Fits assigns ret ∧ ts = program assigns ret ++ tail ∧
    (actProgram assigns ret).run st = (v, st')

theorem assignThen_iff {next : List Token → StateM State Outcome}
    (hnext : ∀ {rest : List Token} {st : State}, rest.length < ts.length →
      ((next rest).run st = (.returned v, st') ↔ Returns rest st v st')) :
    (assignThen r ts next).run st = (.returned v, st') ↔
      ∃ e rest st₁, e.Fits signs ∧ ts = tokens e ++ .SEMI :: rest ∧
        (actAssignment r e).run st = ((), st₁) ∧ Returns rest st₁ v st' := by
  constructor
  · intro h
    rw [assignThen, StateT.run_bind] at h
    generalize hp : (assignment r ts).run st = p at h
    obtain ⟨_ | rest, st₁⟩ := p
    · cases h
    · obtain ⟨e, he, hts, hact⟩ := assignment_iff.mp hp
      exact ⟨e, rest, st₁, he, hts, hact, (hnext (assignment_shorter hp)).mp h⟩
  · rintro ⟨e, rest, st₁, he, hts, hact, h⟩
    have hassign : (assignment r ts).run st = (some rest, st₁) := assignment_iff.mpr ⟨e, he, hts, hact⟩
    rw [assignThen, StateT.run_bind, hassign]
    exact (hnext (assignment_shorter hassign)).mpr h

/-- The program goes on after an assignment. -/
theorem returns_cons {e : Expr} {st₁ : State} (he : e.Fits signs)
    (hact : (actAssignment r e).run st = ((), st₁)) (h : Returns rest st₁ v st') :
    ∃ assigns ret tail, assigns ≠ [] ∧ Fits assigns ret ∧
      .REG r :: .ASSIGN :: (tokens e ++ .SEMI :: rest) = program assigns ret ++ tail ∧
      (actProgram assigns ret).run st = (v, st') := by
  obtain ⟨assigns, ret, tail, ⟨hassigns, hret⟩, rfl, hrun⟩ := h
  refine ⟨(r, e) :: assigns, ret, tail, by simp, ⟨List.forall_mem_cons.mpr ⟨he, hassigns⟩, hret⟩, ?_, ?_⟩
  · simp [program]
  · rw [actProgram, StateT.run_bind, hact]
    exact hrun

theorem returns_uncons {e : Expr} {assigns : List (Reg × Expr)} {ret : Expr} (tail : List Token)
    (hfits : Fits ((r, e) :: assigns) ret) (hrun : (actProgram ((r, e) :: assigns) ret).run st = (v, st')) :
    e.Fits signs ∧ ∃ rest st₁, program ((r, e) :: assigns) ret ++ tail =
      .REG r :: .ASSIGN :: (tokens e ++ .SEMI :: rest) ∧
      (actAssignment r e).run st = ((), st₁) ∧ Returns rest st₁ v st' := by
  obtain ⟨he, hassigns⟩ := List.forall_mem_cons.mp hfits.1
  rw [actProgram, StateT.run_bind] at hrun
  generalize hp : (actAssignment r e).run st = p at hrun
  obtain ⟨⟨⟩, st₁⟩ := p
  exact ⟨he, program assigns ret ++ tail, st₁, by simp [program], rfl, assigns, ret, tail,
    ⟨hassigns, hfits.2⟩, rfl, hrun⟩

/-- The statements are parsed up to the first `return`, with their actions in order. -/
theorem statements_iff (fuel : Nat) : ∀ {ts : List Token} {st : State}, ts.length < fuel →
    ((statements fuel ts).run st = (.returned v, st') ↔ Returns ts st v st') := by
  induction fuel with
  | zero => exact fun h => absurd h (Nat.not_lt_zero _)
  | succ fuel ih =>
    intro ts st hlen
    constructor
    · intro h
      unfold statements at h
      split at h
      · cases h
      · cases h
      · rename_i r ts heq
        obtain rfl := Nat.succ.inj heq
        simp only [List.length_cons] at hlen
        obtain ⟨e, rest, st₁, he, rfl, hact, h⟩ := (assignThen_iff fun hr => ih (by omega)).mp h
        obtain ⟨assigns, ret, tail, -, hfits, hts, hrun⟩ := returns_cons he hact h
        exact ⟨assigns, ret, tail, hfits, hts, hrun⟩
      · rename_i ts heq
        rw [StateT.run_bind] at h
        generalize hp : (exprSemi acts ts).run st = p at h
        obtain ⟨_ | ⟨u, rest⟩, st₁⟩ := p
        · cases h
        · obtain ⟨ret, hret, rfl, hrun⟩ := exprSemi_iff.mp hp
          obtain ⟨h₁, rfl⟩ := Prod.mk.inj h
          obtain rfl := Outcome.returned.inj h₁
          exact ⟨[], ret, rest, ⟨by simp, hret⟩, by simp [program], hrun⟩
      · cases h
    · rintro ⟨assigns, ret, tail, hfits, rfl, hrun⟩
      cases assigns with
      | nil =>
        have hts : program [] ret ++ tail = .RETURN :: (tokens ret ++ .SEMI :: tail) := by
          simp [program]
        rw [hts, statements, StateT.run_bind, exprSemi_iff.mpr ⟨ret, hfits.2, rfl, hrun⟩]
        rfl
      | cons a assigns =>
        obtain ⟨r, e⟩ := a
        obtain ⟨he, rest, st₁, hts, hact, h⟩ := returns_uncons tail hfits hrun
        rw [hts] at hlen ⊢
        simp only [List.length_cons] at hlen
        rw [statements]
        exact (assignThen_iff fun hr => ih (by omega)).mpr ⟨e, rest, st₁, he, rfl, hact, h⟩

/-- `yyparse` comes to a `return` when the text begins with a program that has an assignment. -/
theorem yyparse_iff : (yyparse ts).run st = (.returned v, st') ↔
    ∃ assigns ret tail, assigns ≠ [] ∧ Fits assigns ret ∧ ts = program assigns ret ++ tail ∧
      (actProgram assigns ret).run st = (v, st') := by
  constructor
  · intro h
    unfold yyparse at h
    split at h
    · obtain ⟨e, rest, st₁, he, rfl, hact, h⟩ := (assignThen_iff fun hr => statements_iff _ hr).mp h
      exact returns_cons he hact h
    · cases h
  · rintro ⟨assigns, ret, tail, hne, hfits, rfl, hrun⟩
    cases assigns with
    | nil => exact absurd rfl hne
    | cons a assigns =>
      obtain ⟨r, e⟩ := a
      obtain ⟨he, rest, st₁, hts, hact, h⟩ := returns_uncons tail hfits hrun
      rw [hts, yyparse]
      exact (assignThen_iff fun hr => statements_iff _ hr).mpr ⟨e, rest, st₁, he, rfl, hact, h⟩

/-! Correctness. -/

theorem actProgram_means (assigns : List (Reg × Expr)) (ret : Expr) :
    ∀ {st : State} {regs : Reg → BitVec 32}, Between mem st regs →
      Means mem ((actProgram assigns ret).run st).2.block ((actProgram assigns ret).run st).1
        (eval mem (exec mem regs assigns) ret) := by
  induction assigns with
  | nil => exact fun h => (acts_computes ret h).makes.means
  | cons a assigns ih =>
    intro st regs h
    obtain ⟨r, e⟩ := a
    have he := acts_computes e h
    exact ih (he.between.set he.makes.means)

end Ece566.ExprCompiler
