import Ece566.Calc
import Ece566.ExprScanner

/- The calculators from the text on. Their scanners (`calc.lex` of `Parser` and of `SDT`) have the
   same rules but for the signs. A character that no rule is for is taken by the default rule
   of `flex`, which prints it and goes on: the parser does not see it. So a text is numbers,
   each as long as it goes, and signs, with anything else between them (`Layout`). What the
   default rule prints is not modelled. -/
namespace Ece566.CalcScanner

open Flex Calc StraightLine

inductive Action where
  | ignore
  | number
  | token (t : Calc.Token)
  deriving DecidableEq

/-- `[ \\t]`. -/
def isBlank (c : Char) : Bool := c == ' ' || c == '\t'

/-- The rules for one character that return a token. -/
structure Dialect where
  signs : List (Char × Calc.Token)
  apart : ∀ k ∈ signs, isBlank k.1 = false ∧ k.1.isDigit = false
  nodup : (signs.map Prod.fst).Nodup

def parser : Dialect where
  signs := [('\n', .NEWLINE), ('*', .MULTIPLY), ('/', .DIVIDE), ('+', .PLUS), ('-', .MINUS), ('(', .LPAREN),
    (')', .RPAREN)]
  apart := by decide
  nodup := by decide

def sdt : Dialect where
  signs := [('\n', .NEWLINE), ('+', .PLUS), ('-', .MINUS), ('(', .LPAREN), (')', .RPAREN), ('x', .DONE)]
  apart := by decide
  nodup := by decide

def space : Rule Action := ⟨false, .cls isBlank, false, .ignore⟩
def number : Rule Action := ⟨false, ExprScanner.digits, false, .number⟩
def sign (k : Char × Calc.Token) : Rule Action := ⟨false, .cls fun c => c == k.1, false, .token k.2⟩

/-- The default rule. -/
def echo : Rule Action := ⟨false, .cls fun _ => true, false, .ignore⟩

def before (D : Dialect) : List (Rule Action) := [space, number] ++ D.signs.map sign

def rules (D : Dialect) : List (Rule Action) := before D ++ [echo]

variable {D : Dialect} {bol : Bool} {c : Char} {s w v : List Char} {σ : Rule Action} {n : Nat}
variable {ts : List Calc.Token} {k : Char × Calc.Token}

/-! What the rules match. -/

theorem mem_rules (hσ : σ ∈ rules D) : σ = space ∨ σ = number ∨ (∃ k ∈ D.signs, σ = sign k) ∨ σ = echo := by
  simp only [rules, before, List.mem_append, List.mem_cons, List.mem_map, List.not_mem_nil,
    or_false] at hσ
  rcases hσ with ((rfl | rfl) | ⟨k, hk, rfl⟩) | rfl
  · exact .inl rfl
  · exact .inr (.inl rfl)
  · exact .inr (.inr (.inl ⟨k, hk, rfl⟩))
  · exact .inr (.inr (.inr rfl))

theorem whole_eq (hσ : σ ∈ rules D) : σ.eol = false ∧ σ.pattern.nullable = false := by
  rcases mem_rules hσ with rfl | rfl | ⟨k, -, rfl⟩ | rfl <;> exact ⟨rfl, rfl⟩

/-- The one rule that may match, besides the default rule. -/
def only (D : Dialect) (c : Char) : Option (Rule Action) :=
  if isBlank c then some space
  else if c.isDigit then some number
  else (D.signs.find? fun k => k.1 == c).map sign

theorem blank_not_digit (h : c.isDigit = true) : isBlank c = false := by
  simp only [isBlank, Bool.or_eq_false_iff, beq_eq_false_iff_ne, ne_eq]
  refine ⟨?_, ?_⟩ <;> rintro rfl <;> revert h <;> decide

theorem number_takes (h : number.Takes bol (c :: s) w) : c.isDigit = true := by
  obtain ⟨hne, hall⟩ := Regex.mem_plus.mp h.mem
  obtain ⟨a, u, rfl⟩ := List.exists_cons_of_ne_nil hne
  obtain ⟨rfl, -⟩ := List.cons_prefix_cons.mp h.here
  exact hall a List.mem_cons_self

theorem find_sign (D : Dialect) (hk : k ∈ D.signs) : D.signs.find? (fun k' => k'.1 == k.1) = some k := by
  cases h : D.signs.find? fun k' => k'.1 == k.1 with
  | none => exact absurd (List.find?_eq_none.mp h k hk) (by simp)
  | some k' =>
    have hfst : k'.1 = k.1 := by simpa using List.find?_some h
    rw [List.inj_on_of_nodup_map D.nodup (List.mem_of_find?_eq_some h) hk hfst]

theorem only_of_takes (hσ : σ ∈ before D) (h : σ.Takes bol (c :: s) w) : only D c = some σ := by
  simp only [before, List.mem_append, List.mem_cons, List.mem_map, List.not_mem_nil, or_false] at hσ
  rcases hσ with (rfl | rfl) | ⟨k, hk, rfl⟩
  · obtain ⟨-, hc⟩ := takes_cls h
    rw [only, if_pos (by simpa using hc)]
  · have hc := number_takes h
    rw [only, if_neg (by simp [blank_not_digit hc]), if_pos hc]
  · obtain ⟨-, hc⟩ := takes_cls h
    obtain rfl : c = k.1 := by simpa using hc
    obtain ⟨h₁, h₂⟩ := D.apart k hk
    rw [only, if_neg (by simp [h₁]), if_neg (by simp [h₂]), find_sign D hk]
    rfl

/-! The scanner. -/

theorem echo_takes (bol : Bool) (c : Char) (s : List Char) : echo.Takes bol (c :: s) [c] :=
  ⟨nofun, ⟨c, rfl, rfl⟩, List.prefix_append [c] s⟩

theorem covers (D : Dialect) (bol : Bool) (c : Char) (s : List Char) :
    (best (rules D) bol (c :: s)).isSome = true :=
  best_isSome_of_takes (by simp [rules]) (echo_takes bol c s)

def scanner (D : Dialect) : Scanner Action where
  rules := rules D
  covers := covers D
  advances _ hσ := (whole_eq hσ).2

def emit (m : Lexeme Action) (rest : List Calc.Token) : List Calc.Token :=
  match m.action with
  | .ignore => rest
  | .number => .NUMBER (P1Lex.atoi m.text) :: rest
  | .token t => t :: rest

def lex (D : Dialect) (bol : Bool) (s : List Char) : List Calc.Token :=
  ((scanner D).scan bol s).foldr emit []

/-- What the calls of `yylex` return, one after the other. -/
def yylex (D : Dialect) (text : List Char) : List Calc.Token := lex D true text

theorem lex_cons (h : best (rules D) bol (c :: s) = some (σ, n)) : lex D bol (c :: s) =
    emit ⟨σ.action, (c :: s).take n⟩ (lex D (Flex.after bol ((c :: s).take n)) ((c :: s).drop n)) := by
  rw [lex, Scanner.scan_whole (S := scanner D) h (whole_eq (best_mem h).1).1]
  rfl

/-- A rule that matches `w` and no more is taken. -/
theorem lex_takes (hσ : σ ∈ before D) (h : σ.Takes bol (c :: s) w) (hne : w ≠ [])
    (hmax : ∀ v, σ.Takes bol (c :: s) v → v.length ≤ w.length) : lex D bol (c :: s) =
      emit ⟨σ.action, w⟩ (lex D (Flex.after bol w) ((c :: s).drop w.length)) := by
  have honly : ∀ τ ∈ before D, ∀ v, τ.Takes bol (c :: s) v → τ = σ := fun τ hτ v hv =>
    Option.some.inj ((only_of_takes hτ hv).symm.trans (only_of_takes hσ h))
  have hlast : ∀ v, echo.Takes bol (c :: s) v → v.length = 1 := fun v hv => by rw [(takes_cls hv).1]; rfl
  have heol := (whole_eq (D := D) (List.mem_append_left _ hσ)).1
  rw [lex, Scanner.scan_sole (S := scanner D) rfl hσ heol h hne hmax honly hlast]
  rfl

/-- A character that is neither a digit nor a sign is passed over. -/
theorem lex_skip (hdigit : c.isDigit = false) (hsign : ∀ k ∈ D.signs, k.1 ≠ c) :
    ∃ bol', lex D bol (c :: s) = lex D bol' s := by
  obtain ⟨⟨σ, n⟩, hbest⟩ := Option.isSome_iff_exists.mp (covers D bol c s)
  obtain ⟨hσ, htotal⟩ := best_mem hbest
  obtain ⟨w, hw, rfl⟩ := total_takes htotal
  refine ⟨Flex.after bol [c], ?_⟩
  rw [lex_cons hbest]
  rcases mem_rules hσ with rfl | rfl | ⟨k, hk, rfl⟩ | rfl
  · obtain ⟨rfl, -⟩ := takes_cls hw
    rfl
  · rw [number_takes hw] at hdigit
    cases hdigit
  · obtain ⟨-, hc⟩ := takes_cls hw
    obtain rfl : c = k.1 := by simpa using hc
    exact absurd rfl (hsign k hk)
  · obtain ⟨rfl, -⟩ := takes_cls hw
    rfl

/-! The tokens of a text. -/

/-- Numbers, each as long as it goes, and signs, with any other characters between them. -/
inductive Layout (D : Dialect) : List Char → List Calc.Token → Prop where
  | nil : Layout D [] []
  | skip {c : Char} {s : List Char} {ts : List Calc.Token} (hdigit : c.isDigit = false)
      (hsign : ∀ k ∈ D.signs, k.1 ≠ c) (h : Layout D s ts) : Layout D (c :: s) ts
  | number {s : List Char} {n : Nat} {ts : List Calc.Token} (hn : ExprScanner.digits.longest s = some n)
      (h : Layout D (s.drop n) ts) : Layout D s (.NUMBER (P1Lex.atoi (s.take n)) :: ts)
  | sign {k : Char × Calc.Token} {s : List Char} {ts : List Calc.Token} (hk : k ∈ D.signs) (h : Layout D s ts) :
      Layout D (k.1 :: s) (k.2 :: ts)

theorem lex_layout (h : Layout D s ts) : ∀ bol, lex D bol s = ts := by
  induction h with
  | nil => exact fun _ => rfl
  | skip hdigit hsign _ ih =>
    intro bol
    obtain ⟨bol', hlex⟩ := lex_skip hdigit hsign
    exact hlex.trans (ih bol')
  | @number s n ts hn _ ih =>
    intro bol
    obtain ⟨hmem, hlen, hle⟩ := Regex.longest_take hn
    have hne := (Regex.mem_plus.mp hmem).1
    obtain ⟨c, s, rfl⟩ : ∃ c u, s = c :: u := by
      cases s with
      | nil => exact absurd List.take_nil hne
      | cons c u => exact ⟨c, u, rfl⟩
    have htakes : number.Takes bol (c :: s) ((c :: s).take n) := ⟨nofun, hmem, List.take_prefix _ _⟩
    rw [lex_takes (by simp [before]) htakes hne fun v hv => ?_, hlen]
    · exact congrArg (_ :: ·) (ih _)
    · rw [hlen]
      exact hle v hv.mem hv.here
  | @sign k s ts hk _ ih =>
    intro bol
    have hmem : sign k ∈ before D := List.mem_append_right _ (List.mem_map_of_mem hk)
    have htakes : (sign k).Takes bol (k.1 :: s) [k.1] :=
      ⟨nofun, ⟨k.1, by simp, rfl⟩, List.prefix_append [k.1] s⟩
    rw [lex_takes hmem htakes (List.cons_ne_nil _ []) fun v hv => by rw [(takes_cls hv).1]]
    exact congrArg (_ :: ·) (ih _)

/-- Every text is laid out so. -/
theorem exists_layout (D : Dialect) (s : List Char) : ∃ ts, Layout D s ts := by
  induction hm : s.length using Nat.strong_induction_on generalizing s with
  | h m ih =>
    cases s with
    | nil => exact ⟨[], .nil⟩
    | cons c s =>
      cases hdigit : c.isDigit with
      | true =>
        have hone : [c] ∈ ExprScanner.digits.lang :=
          Regex.mem_plus.mpr ⟨List.cons_ne_nil c [], fun d hd => List.mem_singleton.mp hd ▸ hdigit⟩
        obtain ⟨n, hn, hle⟩ := Regex.le_longest hone (List.prefix_append [c] s)
        have hlt : ((c :: s).drop n).length < m := by
          rw [List.length_drop, ← hm, List.length_cons]
          rw [List.length_singleton] at hle
          omega
        obtain ⟨ts, h⟩ := ih _ hlt _ rfl
        exact ⟨_, .number hn h⟩
      | false =>
        have hlt : s.length < m := by
          rw [← hm]
          exact Nat.lt_succ_self _
        obtain ⟨ts, h⟩ := ih _ hlt _ rfl
        by_cases hsign : ∃ k ∈ D.signs, k.1 = c
        · obtain ⟨k, hk, rfl⟩ := hsign
          exact ⟨_, .sign hk h⟩
        · exact ⟨ts, .skip hdigit (fun k hk e => hsign ⟨k, hk, e⟩) h⟩

theorem layout_iff {text : List Char} : yylex D text = ts ↔ Layout D text ts := by
  constructor
  · rintro rfl
    obtain ⟨ts, h⟩ := exists_layout D text
    rw [yylex, lex_layout h true]
    exact h
  · exact fun h => lex_layout h true

/-! The calculators. -/

/-- **The first calculator, from the text on**: it accepts the texts that are lines of expressions
that fit, and empty ones, and prints what they are worth. -/
theorem interpret_text (text : List Char) (out : List Out) : interpret (yylex parser text) = (true, out) ↔
    ∃ lines : List (Option Calc.Expr), lines ≠ [] ∧ (∀ e, some e ∈ lines → e.Fits operators) ∧
      Layout parser text (lines.flatMap lineTokens) ∧ out = lines.flatMap lineOut := by
  rw [interpret_iff]
  exact exists_congr fun lines => and_congr_right fun _ => and_congr_right fun _ =>
    and_congr_left fun _ => layout_iff

/-- **The second calculator, from the text on**: its function returns the value of the last line
before the first `x`. -/
theorem compile_text (text : List Char) (mem : BitVec 64 → BitVec 64) (x : BitVec 64) :
    ((compile (yylex sdt text)).1.bind fun v => result mem (compile (yylex sdt text)).2 v) = some x ↔
      ∃ es e tail, (∀ e' ∈ es ++ [e], e'.Fits sums) ∧
        Layout sdt text ((es ++ [e]).flatMap line ++ .DONE :: tail) ∧ x = BitVec.ofInt 64 (sum e) := by
  rw [compile_value]
  exact exists_congr fun es => exists_congr fun e => exists_congr fun tail =>
    and_congr_right fun _ => and_congr_left fun _ => layout_iff

end Ece566.CalcScanner
