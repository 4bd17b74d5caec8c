import Ece566.ExprCompiler
import Ece566.ExprScanner
import Ece566.RegisterCode

/- Tutorials 1 and 2 from the text on. `main` of tutorial 2 builds a function and `main` of
   tutorial 1 prints the code of a register machine. Both are right for every text: what
   tutorial 2 has built returns the value of the program that the text begins with, and there
   is such a program whenever it has come to a `return` (`main_value`); what tutorial 1 has
   printed is the code of the assignment that the text begins with (`prints_iff`). For the
   assignment that tutorial 1 compiles the two give the same (`backends_agree`). -/
namespace Ece566.ExprMain

open Precedence ExprGrammar ExprScanner StraightLine ExprCompiler

/-! Tutorial 2. -/

/-- The block of the function and the value it returns, where `yyparse` has come to a `return`. -/
def main (text : List Char) : Option (Block 32 × Value 32) :=
  match (yyparse (yylex tutorial2 text)).run State.init with
  | (.returned v, st) => some (st.block, v)
  | _ => none

variable {mem : BitVec 32 → BitVec 32} {text : List Char} {x : BitVec 32} {block : Block 32} {v : Value 32}

theorem main_eq : main text = some (block, v) ↔ ∃ st, st.block = block ∧
    (yyparse (yylex tutorial2 text)).run State.init = (.returned v, st) := by
  rw [main]
  generalize (yyparse (yylex tutorial2 text)).run State.init = r
  obtain ⟨o, st⟩ := r
  cases o with
  | returned u =>
    constructor
    · intro h
      cases h
      exact ⟨st, rfl, rfl⟩
    · rintro ⟨_, rfl, h⟩
      cases h
      rfl
  | _ =>
    constructor
    · intro h
      cases h
    · rintro ⟨_, _, h⟩
      cases h

/-- The function built for a text that begins with a program returns the value of the program. -/
theorem main_program {assigns : List (Reg × Expr)} {ret : Expr} {tail : List Token} (hne : assigns ≠ [])
    (hfits : Fits assigns ret) (htext : yylex tutorial2 text = program assigns ret ++ tail) :
    ((main text).bind fun f => result mem f.1 f.2) = some (value mem assigns ret) := by
  have hinit : Between mem State.init fun _ => 0 := .init
  have hmeans := actProgram_means assigns ret hinit
  generalize hact : (actProgram assigns ret).run State.init = r at hmeans
  obtain ⟨v, st⟩ := r
  have hmain : main text = some (st.block, v) :=
    main_eq.mpr ⟨st, rfl, yyparse_iff.mpr ⟨assigns, ret, tail, hne, hfits, htext, hact⟩⟩
  rw [hmain]
  exact hmeans

/-- **Tutorial 2 is right for every text**: when run on any memory the function returns `x` if and
only if the text begins with a program of value `x`. -/
theorem main_value (mem : BitVec 32 → BitVec 32) (text : List Char) (x : BitVec 32) :
    ((main text).bind fun f => result mem f.1 f.2) = some x ↔
      ∃ assigns ret tail, assigns ≠ [] ∧ Fits assigns ret ∧
        yylex tutorial2 text = program assigns ret ++ tail ∧ value mem assigns ret = x := by
  constructor
  · intro h
    obtain ⟨⟨block, v⟩, hmain, -⟩ := Option.bind_eq_some_iff.mp h
    obtain ⟨st, -, hrun⟩ := main_eq.mp hmain
    obtain ⟨assigns, ret, tail, hne, hfits, htext, -⟩ := yyparse_iff.mp hrun
    refine ⟨assigns, ret, tail, hne, hfits, htext, ?_⟩
    exact Option.some.inj ((main_program hne hfits htext).symm.trans h)
  · rintro ⟨assigns, ret, tail, hne, hfits, htext, rfl⟩
    exact main_program hne hfits htext

/-! Tutorial 1. -/

open RegisterCode (Gen Line nextReg printf printed Machine)

/-- The actions of `expr.y` of tutorial 1. -/
def printing : Actions (Atom (Fin 8)) Sign Bracket Nat (StateM Gen) where
  atom
    | .immediate n => do
      let r ← nextReg
      printf (.comment "# Output of expr: IMMEDIATE")
      printf (.inst (.andImm r r 0))
      printf (.inst (.addImm r r n.toInt))
      return r
    | .reg r => return r
  binary
    | .plus, x, y => do
      let r ← nextReg
      printf (.comment "# Output of expr: expr PLUS expr")
      printf (.inst (.add r x y))
      return r
    | .minus, x, y => do
      let r ← nextReg
      printf (.comment "# Output of expr: expr MINUS expr")
      printf (.inst (.sub r x y))
      return r
  unary _ x := do
    let r ← nextReg
    printf (.comment "# Output of expr: MINUS expr")
    printf (.inst (.not r x))
    printf (.inst (.addImm r r 1))
    return r
  bracket
    | .paren, x => return x
    | .square, x => do
      let r ← nextReg
      printf (.comment "# Output of expr: [ expr ]")
      printf (.inst (.ldr r x 0))
      return r

/-- `program: REG ASSIGN expr SEMI`, whose action ends the parse; what has been printed then. -/
def prints (text : List Char) : Option (List Line) :=
  match yylex tutorial1 text with
  | .REG d :: .ASSIGN :: ts =>
    match (exprSemi printing ts).run Gen.init with
    | (some (x, _), g) =>
      some (g.output ++ [.comment "# Output of program: REG ASSIGN expr SEMI", .inst (.addImm d x 0),
        .comment "# End of program"])
    | (none, _) => none
  | _ => none

/-- The derivation as the code generator has it. -/
def derivation : ExprGrammar.Expr (Fin 8) → RegisterCode.Expr
  | .atom (.immediate n) => .immediate n.toInt
  | .atom (.reg r) => .reg r
  | .binary .plus l r => .plus (derivation l) (derivation r)
  | .binary .minus l r => .minus (derivation l) (derivation r)
  | .unary _ e => .neg (derivation e)
  | .bracket .paren e => .paren (derivation e)
  | .bracket .square e => .load (derivation e)

theorem run_printing (e : ExprGrammar.Expr (Fin 8)) : e.run printing = (derivation e).act := by
  induction e with
  | atom a => cases a <;> rfl
  | binary o l r ihl ihr =>
    cases o with
    | plus =>
      rw [Tree.run, ihl, ihr]
      rfl
    | minus =>
      rw [Tree.run, ihl, ihr]
      rfl
  | unary o e ih =>
    rw [Tree.run, ih]
    rfl
  | bracket k e ih =>
    cases k with
    | paren =>
      rw [Tree.run, ih]
      rfl
    | square =>
      rw [Tree.run, ih]
      rfl

/-- What tutorial 1 prints is the code of the assignment that the text begins with. -/
theorem prints_iff {lines : List Line} : prints text = some lines ↔ ∃ d e tail, e.Fits signs ∧
    yylex tutorial1 text = .REG d :: .ASSIGN :: (tokens e ++ .SEMI :: tail) ∧
      lines = printed d (derivation e) := by
  constructor
  · intro h
    rw [prints] at h
    split at h
    · rename_i d ts htext
      split at h
      · rename_i x rest g hrun
        obtain ⟨e, he, rfl, hact⟩ := exprSemi_iff.mp hrun
        refine ⟨d, e, rest, he, htext, ?_⟩
        rw [run_printing] at hact
        obtain rfl := Option.some.inj h
        rw [RegisterCode.printed_eq, hact]
        simp
      · cases h
    · cases h
  · rintro ⟨d, e, tail, he, htext, rfl⟩
    generalize hact : (e.run printing).run Gen.init = r
    obtain ⟨x, g⟩ := r
    rw [prints, htext]
    simp only [exprSemi_iff.mpr ⟨e, he, rfl, hact⟩]
    rw [run_printing] at hact
    rw [RegisterCode.printed_eq, hact]
    simp

theorem printed_value {w : Nat} (d : Fin 8) (e : RegisterCode.Expr) (m : Machine w) :
    (RegisterCode.run (printed d e) m).regs d = e.eval m := by
  have h := e.act_compiled (RegisterCode.Clean.init m)
  rw [RegisterCode.printed_eq, ← h.value]
  simp [RegisterCode.run, Gen.machine, Line.exec, RegisterCode.Inst.exec]

/-! The two back ends. -/

/-- The atom of tutorial 2. -/
def widen : Atom (Fin 8) → Atom Reg
  | .reg r => .reg (BitVec.ofNat 32 r)
  | .immediate n => .immediate n

theorem eval_widen {m : Machine 32} (hm : ∀ k : Fin 8, m.regs k = 0) (e : ExprGrammar.Expr (Fin 8)) :
    eval m.mem (fun _ => 0) (e.map widen) = (derivation e).eval m := by
  induction e with
  | atom a =>
    cases a with
    | reg r => exact (hm r).symm
    | immediate n => exact (BitVec.ofInt_toInt).symm
  | binary o l r ihl ihr =>
    cases o with
    | plus => exact congrArg₂ (· + ·) ihl ihr
    | minus => exact congrArg₂ (· - ·) ihl ihr
  | unary o e ih => exact congrArg (- ·) ih
  | bracket k e ih =>
    cases k with
    | paren => exact ih
    | square => exact congrArg m.mem ih

/-- **The back ends agree**: what tutorial 1 prints for an assignment leaves in its register, started
with R0 to R7 zero, what tutorial 2 returns for that assignment and a `return` of the
register. -/
theorem backends_agree {text : List Char} {lines : List Line} (h : prints text = some lines) :
    ∃ d e tail, e.Fits signs ∧
      yylex tutorial1 text = .REG d :: .ASSIGN :: (tokens e ++ .SEMI :: tail) ∧
      ∀ m : Machine 32, (∀ k : Fin 8, m.regs k = 0) →
        ((main (ExprScanner.print (program [(BitVec.ofNat 32 d, e.map widen)]
          (.atom (.reg (BitVec.ofNat 32 d)))))).bind fun f => result m.mem f.1 f.2) =
            some ((RegisterCode.run lines m).regs d) := by
  obtain ⟨d, e, tail, he, htext, rfl⟩ := prints_iff.mp h
  refine ⟨d, e, tail, he, htext, fun m hm => ?_⟩
  have hfits : Fits [(BitVec.ofNat 32 d, e.map widen)] (.atom (.reg (BitVec.ofNat 32 d)) : Expr) :=
    ⟨by simpa using he.map, trivial⟩
  have hscan := lex_layout (layout_print _ (program_exit [(BitVec.ofNat 32 d, e.map widen)]
    (.atom (.reg (BitVec.ofNat 32 d))))) true
  rw [main_program (List.cons_ne_nil _ _) hfits (hscan.trans (List.append_nil _).symm),
    printed_value, ← eval_widen hm]
  simp [value, exec, eval]

theorem layout_minusSeven : Layout tutorial1 "R1=-7;".toList
    [.REG 1, .ASSIGN, .MINUS, .IMMEDIATE 7, .SEMI] := by
  have hseven : Layout tutorial1 "7;".toList [.IMMEDIATE 7, .SEMI] :=
    .immediate (n := 1) (by decide) (.sign (k := (';', .SEMI)) (by decide) .nil)
  have hexpr : Layout tutorial1 "=-7;".toList [.ASSIGN, .MINUS, .IMMEDIATE 7, .SEMI] :=
    .sign (k := ('=', .ASSIGN)) (by decide) (.sign (k := ('-', .MINUS)) (by decide) hseven)
  exact .register (D := tutorial1) (c := 'R') (n := 1) rfl (by decide) hexpr

theorem backends_agree_minusSeven : ∃ d e tail, e.Fits signs ∧
    yylex tutorial1 "R1=-7;".toList = .REG d :: .ASSIGN :: (tokens e ++ .SEMI :: tail) ∧
      ∀ m : Machine 32, (∀ k : Fin 8, m.regs k = 0) →
        ((main (ExprScanner.print (program [(BitVec.ofNat 32 d, e.map widen)]
          (.atom (.reg (BitVec.ofNat 32 d)))))).bind fun f => result m.mem f.1 f.2) =
            some ((RegisterCode.run (printed 1 (.neg (.immediate 7))) m).regs d) :=
  backends_agree (prints_iff.mpr ⟨1, .unary .minus (.atom (.immediate 7)), [], ⟨rfl, trivial, trivial⟩,
    lex_layout layout_minusSeven true, rfl⟩)

end Ece566.ExprMain
