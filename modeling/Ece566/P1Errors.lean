import Ece566.P1SliceTable

/- Name errors. Five actions look a name up and report one that is not there, but only
   `bitslice_lhs DOT ID` aborts the parse (`YYERROR`); the others print a message
   (`yyerror`) and the parse goes on to build a function. So what is rejected is exactly
   the programs with an assignment that targets an undeclared slice. -/
namespace Ece566.P1

/-! The driver. -/

section
variable (handleBitsliceID : String → Parse Value) (p : Program)

/-- A parse that reaches the end of the program is accepted; there is no error token to
recover with, so an action that aborts it makes it fail. -/
def yyparse : Nat :=
  match (p.act handleBitsliceID).run Parser.init with
  | some _ => 0
  | none => 1

/-- The module: the block of its function, and what that returns. -/
def parseP1File : Option (List Inst × Value) :=
  match (p.act handleBitsliceID).run Parser.init with
  | some (ret, st) => some (st.block, ret)
  | none => none

/-- `main`: the bitcode it writes, and its exit status. -/
def p1Main : Option (List Inst × Value) × Nat :=
  match parseP1File handleBitsliceID p with
  | some M => (some M, 0)
  | none => (none, 1)

/-- The program is rejected: the parse fails, there is no module, no bitcode is written
and the exit status says so. -/
structure Rejected : Prop where
  yyparse : yyparse handleBitsliceID p ≠ 0
  parseP1File : parseP1File handleBitsliceID p = none
  p1Main : p1Main handleBitsliceID p = (none, 1)

end

/-! The errors. -/

mutual
/-- The slice names an expression reads. -/
def Expr.reads : Expr → List String
  | .bitslice b => b.reads
  | .plus a b | .minus a b | .xor a b | .and a b | .or a b | .mul a b | .div a b | .mod a b =>
    a.reads ++ b.reads
  | .inv a | .binv a | .reduceAnd a | .reduceOr a | .reduceXor a | .reducePlus a | .expand a =>
    a.reads

def Bitslice.reads : Bitslice → List String
  | .id _ | .number _ => []
  | .list l => l.reads
  | .paren e => e.reads
  | .bit b _ => b.reads
  | .dot b f => b.reads ++ [f]
  | .bracket b e => b.reads ++ e.reads
  | .range b hi lo => b.reads ++ hi.reads ++ lo.reads

def BitsliceList.reads : BitsliceList → List String
  | .one b => b.reads
  | .snoc l b => l.reads ++ b.reads
end

/-- The slice names read by the indexes of a left-hand side. -/
def BitsliceLhs.reads : BitsliceLhs → List String
  | .id _ => []
  | .bit l _ | .dot l _ => l.reads
  | .bracket l e => l.reads ++ e.reads
  | .range l hi lo => l.reads ++ hi.reads ++ lo.reads

def Field.reads : Field → List String
  | .bit _ e => e.reads
  | .wide _ n e => n.reads ++ e.reads
  | .bare _ => []

def Statement.reads : Statement → List String
  | .assign l e => l.reads ++ e.reads
  | .slice fields => fields.flatMap Field.reads

/-- A number, an index or a range selects from the variable before a named slice has given
it a value. -/
def BitsliceLhs.selectsFirst : BitsliceLhs → Prop
  | .id _ => False
  | .dot l _ => l.selectsFirst
  | .bit l _ | .bracket l _ | .range l _ _ => l.selectsFirst ∨ l.names = []

/-- The variables with a value: the parameters, and those assigned to. -/
def valued (params : List String) : List Statement → List String
  | [] => params
  | .assign l _ :: ss => valued (l.var :: params) ss
  | .slice _ :: ss => valued params ss

/-- An assignment targets a slice that no earlier statement declares. -/
def BadTarget (p : Program) : Prop :=
  ∃ pre l e post, p.statements = pre ++ Statement.assign l e :: post ∧
    ∃ f ∈ l.names, f ∉ declared pre

/-- An expression reads a slice that no earlier statement declares. -/
def BadRead (p : Program) : Prop :=
  (∃ pre s post, p.statements = pre ++ s :: post ∧ ∃ f ∈ Statement.reads s, f ∉ declared pre) ∨
    ∃ f ∈ p.final.reads, f ∉ declared p.statements

/-- An assignment selects from a variable that has no value yet. -/
def BadVariable (p : Program) : Prop :=
  ∃ pre l e post, p.statements = pre ++ Statement.assign l e :: post ∧
    l.selectsFirst ∧ l.var ∉ valued p.params pre

def NameError (p : Program) : Prop := BadRead p ∨ BadTarget p ∨ BadVariable p

variable {handleBitsliceID : String → Parse Value}

/-! What is rejected. -/

/-- Statements abort the parse exactly when one of them targets a slice that has no entry
and that none before it declares. -/
theorem statements_abort (hq : QuietID handleBitsliceID) : ∀ (ss : List Statement) {st : Parser},
    st.bitsliceFieldIds = [] →
    ((actStatements handleBitsliceID ss).run st = none ↔
      ∃ pre l e post, ss = pre ++ Statement.assign l e :: post ∧
        ∃ f ∈ l.names, f ∉ declared pre ∧ st.slicesDict f = none)
  | [], st, _ => by
    refine ⟨?_, ?_⟩
    · intro h; cases h
    · intro h
      obtain ⟨pre, l, e, post, h, -⟩ := h
      cases pre <;> cases h
  | .assign l e :: ss, st, hids => by
    by_cases hl : ∃ f ∈ l.names, st.slicesDict f = none
    · obtain ⟨f, hf, hnone⟩ := hl
      refine ⟨?_, ?_⟩
      · intro _
        exact ⟨[], l, e, ss, rfl, f, hf, by simp [declared], hnone⟩
      · intro _
        exact Wp.run_bind_none (assign_aborts hq ⟨f, hf, hnone⟩)
    · obtain ⟨_, s1, hrun, k1⟩ := assign_keeps (e := e) hq fun f hf h => hl ⟨f, hf, h⟩
      rw [actStatements, StateT.run_bind, hrun]
      show (actStatements handleBitsliceID ss).run s1 = none ↔ _
      rw [statements_abort hq ss (k1.ids.trans hids), k1.slices]
      refine ⟨?_, ?_⟩
      · intro h
        obtain ⟨pre, l', e', post, rfl, h⟩ := h
        exact ⟨.assign l e :: pre, l', e', post, rfl, h⟩
      · intro h
        obtain ⟨pre, l', e', post, hss, f, hf, hpre, hnone⟩ := h
        cases pre with
        | nil =>
          obtain ⟨h1, -⟩ := List.cons.inj hss
          obtain ⟨rfl, -⟩ := Statement.assign.inj h1
          exact absurd ⟨f, hf, hnone⟩ hl
        | cons s pre =>
          obtain ⟨rfl, rfl⟩ := List.cons.inj hss
          exact ⟨pre, l', e', post, rfl, f, hf, hpre, hnone⟩
  | .slice fields :: ss, st, hids => by
    obtain ⟨ds, s1, hrun, hnames, hd⟩ := slice_declares hq fields hids
    have hact := Statement.act_run.mpr ⟨ds, hrun⟩
    rw [actStatements, StateT.run_bind, hact]
    show (actStatements handleBitsliceID ss).run s1 = none ↔ _
    rw [statements_abort hq ss hd.ids]
    refine ⟨?_, ?_⟩
    · intro h
      obtain ⟨pre, l, e, post, rfl, f, hf, hpre, hnone⟩ := h
      rw [hd.undeclared, hnames] at hnone
      refine ⟨.slice fields :: pre, l, e, post, rfl, f, hf, ?_, hnone.2⟩
      simp only [declared, List.mem_append, not_or]
      exact ⟨hnone.1, hpre⟩
    · intro h
      obtain ⟨pre, l, e, post, hss, f, hf, hpre, hnone⟩ := h
      cases pre with
      | nil => cases (List.cons.inj hss).1
      | cons s pre =>
        obtain ⟨rfl, rfl⟩ := List.cons.inj hss
        simp only [declared, List.mem_append, not_or] at hpre
        refine ⟨pre, l, e, post, rfl, f, hf, hpre.2, (hd.undeclared f).mpr ⟨?_, hnone⟩⟩
        rw [hnames]
        exact hpre.1

/-- The parse of a program fails exactly at a bad target. -/
theorem act_eq_none_iff (hq : QuietID handleBitsliceID) (p : Program) :
    (p.act handleBitsliceID).run Parser.init = none ↔ BadTarget p := by
  obtain ⟨_, s1, hrun, k1⟩ := inputs_keep p.params 0 Parser.init
  have hids : s1.bitsliceFieldIds = [] := k1.ids
  have hstatements := statements_abort hq p.statements hids
  have hnone : ∀ f, s1.slicesDict f = none := fun f => by rw [k1.slices]; rfl
  rw [Program.act, StateT.run_bind, hrun]
  show (do
      actStatements handleBitsliceID p.statements
      p.final.act handleBitsliceID).run s1 = none ↔ _
  simp only [hnone, and_true] at hstatements
  rw [BadTarget, ← hstatements]
  refine ⟨?_, ?_⟩
  · intro h
    by_contra hne
    obtain ⟨⟨_, s2⟩, h2⟩ := Option.ne_none_iff_exists'.mp hne
    obtain ⟨ret, s3, h3, -⟩ := Expr.act_quiet hq p.final s2
    rw [StateT.run_bind, h2] at h
    exact absurd (h3.symm.trans h) (by simp)
  · exact Wp.run_bind_none

theorem rejected_iff (hq : QuietID handleBitsliceID) (p : Program) :
    Rejected handleBitsliceID p ↔ BadTarget p := by
  rw [← act_eq_none_iff hq]
  refine ⟨?_, ?_⟩
  · intro h
    have hparse := h.yyparse
    unfold yyparse at hparse
    cases hrun : (p.act handleBitsliceID).run Parser.init with
    | none => rfl
    | some r => rw [hrun] at hparse; exact absurd rfl hparse
  · intro h
    have hfile : parseP1File handleBitsliceID p = none := by rw [parseP1File, h]
    exact ⟨by rw [yyparse, h]; decide, hfile, by rw [p1Main, hfile]⟩

/-- **Name errors.** A program's name errors reject it exactly when it has none, or one
of them is an assignment that targets an undeclared slice. -/
theorem nameError_rejected_iff (hq : QuietID handleBitsliceID) (p : Program) :
    (NameError p → Rejected handleBitsliceID p) ↔ (¬ NameError p ∨ BadTarget p) := by
  rw [rejected_iff hq, ← imp_iff_not_or]

/-- `in x`, `x.f = 1`, `final x`. -/
def undeclaredTarget : Program :=
  ⟨["x"], [.assign (.dot (.id "x") "f") (.bitslice (.number 1))], .bitslice (.id "x")⟩

theorem nameError_rejected_iff_target :
    p1Main findID undeclaredTarget = (none, 1) ∧
    ((NameError undeclaredTarget → Rejected findID undeclaredTarget) ↔
      (¬ NameError undeclaredTarget ∨ BadTarget undeclaredTarget)) :=
  ⟨by decide, nameError_rejected_iff findID_quiet undeclaredTarget⟩

/-- The test `fail_4`: `in a`, `slice a, b, c`, `b1 = a . d`, `final b`. -/
def fail4 : Program where
  params := ["a"]
  statements := [.slice [.bare "a", .bare "b", .bare "c"],
    .assign (.bit (.id "b") 1) (.bitslice (.dot (.id "a") "d"))]
  final := .bitslice (.id "b")

/-- It reads a slice that is not declared and selects from a variable without a value, and
it is accepted. -/
theorem fail4_accepted : BadRead fail4 ∧ BadVariable fail4 ∧ yyparse findID fail4 = 0 ∧
    (p1Main findID fail4).2 = 0 ∧ ¬ (NameError fail4 → Rejected findID fail4) := by
  have hread : BadRead fail4 :=
    .inl ⟨[.slice [.bare "a", .bare "b", .bare "c"]], _, [], rfl, "d", by decide, by decide⟩
  have hvar : BadVariable fail4 :=
    ⟨[.slice [.bare "a", .bare "b", .bare "c"]], _, _, [], rfl, .inr rfl, by decide⟩
  refine ⟨hread, hvar, by decide, by decide, fun h => ?_⟩
  exact (h (.inl hread)).yyparse (by decide)

end Ece566.P1
