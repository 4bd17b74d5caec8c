import Ece566.Precedence

/- The expressions of tutorials 1 and 2 (`expr.y`). Both grammars have the same productions for
   `expr` and the same `%left PLUS MINUS`; they differ in which registers the scanner
   knows and in the actions. The rule `MINUS expr` has the level of its operator, so a minus
   sign applies to the operand that comes next and not to a sum of it. -/
namespace Ece566.ExprGrammar

open Precedence

/-- `exit` is no token: the scanner has printed an error and ended the program. -/
inductive Token (ρ : Type) where
  | REG (reg : ρ)
  | IMMEDIATE (imm : BitVec 32)
  | RETURN | ASSIGN | SEMI | PLUS | MINUS | LPAREN | RPAREN | LBRACKET | RBRACKET
  | exit
  deriving DecidableEq, Repr

inductive Atom (ρ : Type) where
  | reg (r : ρ)
  | immediate (n : BitVec 32)
  deriving DecidableEq, Repr

inductive Sign where
  | plus | minus
  deriving DecidableEq, Repr

inductive Bracket where
  | paren | square
  deriving DecidableEq, Repr

/-- `%left PLUS MINUS`. -/
def signs : Operators Sign where
  binary _ := true
  unary o := o == .minus
  level _ := 0

variable {ρ : Type}

abbrev Expr (ρ : Type) := Tree (Atom ρ) Sign Bracket

def classify : Token ρ → Precedence.Token (Atom ρ) Sign Bracket
  | .REG r => .atom (.reg r)
  | .IMMEDIATE n => .atom (.immediate n)
  | .PLUS => .op .plus
  | .MINUS => .op .minus
  | .LPAREN => .opening .paren
  | .RPAREN => .closing .paren
  | .LBRACKET => .opening .square
  | .RBRACKET => .closing .square
  | .RETURN | .ASSIGN | .SEMI | .exit => .other

/-- The token of a kind. -/
def token : Precedence.Token (Atom ρ) Sign Bracket → Token ρ
  | .atom (.reg r) => .REG r
  | .atom (.immediate n) => .IMMEDIATE n
  | .op .plus => .PLUS
  | .op .minus => .MINUS
  | .opening .paren => .LPAREN
  | .closing .paren => .RPAREN
  | .opening .square => .LBRACKET
  | .closing .square => .RBRACKET
  | .other => .exit

/-- The tokens of an expression. -/
def tokens (e : Expr ρ) : List (Token ρ) := e.yield.map token

theorem classify_token (k : Precedence.Token (Atom ρ) Sign Bracket) : classify (token k) = k := by
  match k with
  | .atom (.reg _) | .atom (.immediate _) | .op .plus | .op .minus | .opening .paren
  | .closing .paren | .opening .square | .closing .square | .other => rfl

theorem token_classify {x : Token ρ} (h : classify x ≠ .other) : token (classify x) = x := by
  cases x with
  | RETURN | ASSIGN | SEMI | exit => exact absurd rfl h
  | _ => rfl

theorem tokens_classify (e : Expr ρ) : (tokens e).map classify = e.yield := by
  rw [tokens, List.map_map]
  exact (List.map_congr_left fun k _ => classify_token k).trans (List.map_id _)

theorem tokens_eq {e : Expr ρ} {pre : List (Token ρ)} (h : pre.map classify = e.yield) : pre = tokens e := by
  rw [tokens, ← h, List.map_map]
  refine ((List.map_congr_left fun x hx => ?_).trans (List.map_id _)).symm
  refine token_classify fun hother => other_not_mem e ?_
  rw [← h, ← hother]
  exact List.mem_map_of_mem hx

theorem exit_not_mem (e : Expr ρ) : .exit ∉ tokens e := by
  intro h
  obtain ⟨k, hk, he⟩ := List.mem_map.mp h
  have hother : k = .other := by
    rw [← classify_token k, he]
    rfl
  exact other_not_mem e (hother ▸ hk)

section
variable [DecidableEq ρ] {V σ : Type}

/-- `expr SEMI`: the value, and the tokens left. -/
def exprSemi (acts : Actions (Atom ρ) Sign Bracket V (StateM σ)) (ts : List (Token ρ)) :
    StateM σ (Option (V × List (Token ρ))) := parseTo signs acts classify .SEMI ts

variable {acts : Actions (Atom ρ) Sign Bracket V (StateM σ)} {ts rest : List (Token ρ)}
variable {st st' : σ} {v : V}

/-- **The parser of `expr SEMI`** accepts an expression that fits and runs its actions. -/
theorem exprSemi_iff : (exprSemi acts ts).run st = (some (v, rest), st') ↔
    ∃ e : Expr ρ, e.Fits signs ∧ ts = tokens e ++ .SEMI :: rest ∧ (e.run acts).run st = (v, st') := by
  rw [exprSemi, parseTo_iff fun o h => by cases h]
  constructor
  · rintro ⟨e, pre, he, hpre, rfl, hrun⟩
    exact ⟨e, he, by rw [tokens_eq hpre], hrun⟩
  · rintro ⟨e, he, rfl, hrun⟩
    exact ⟨e, tokens e, he, tokens_classify e, rfl, hrun⟩

end

end Ece566.ExprGrammar
