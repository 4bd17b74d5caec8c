import Ece566.ExprGrammar
import Ece566.P1Lex

/- The scanners of tutorials 1 and 2 (`expr.lex`). They have the same rules but for the digits
   of a register, which is one of `[0-7]` in tutorial 1 and any number in tutorial 2, and
   for the word `return` that only tutorial 2 knows (`Dialect`). At most one rule besides
   the last can match at a place (`only`), so a text is its tokens, each as long as it goes,
   with blanks and comments between them (`Layout`), and nothing else is accepted
   (`yylex_iff`). -/
namespace Ece566.ExprScanner

open Flex ExprGrammar

variable {ρ : Type}

/-- `[0-7]` or `[0-9]+` after the `R`, what `atoi` makes of it, and whether `return` is a word. -/
structure Dialect (ρ : Type) where
  digits : Regex Char
  digit : ∀ w ∈ digits.lang, ∃ d ∈ w.head?, d.isDigit = true
  register : List Char → ρ
  returns : Bool

/-- What a rule does; `exit` prints an error and ends the program. -/
inductive Action (ρ : Type) where
  | ignore
  | reg
  | imm
  | token (t : Token ρ)
  | exit
  deriving DecidableEq

/-- `[ \\n\\t]`. -/
def isSpace (c : Char) : Bool := c == ' ' || c == '\n' || c == '\t'

/-- `[Rr]`. -/
def isR (c : Char) : Bool := c == 'R' || c == 'r'

def signs : List (Char × Token ρ) :=
  [('=', .ASSIGN), (';', .SEMI), ('(', .LPAREN), (')', .RPAREN), ('[', .LBRACKET), (']', .RBRACKET),
    ('-', .MINUS), ('+', .PLUS)]

def space : Rule (Action ρ) := ⟨false, .cls isSpace, false, .ignore⟩
def register (D : Dialect ρ) : Rule (Action ρ) := ⟨false, .cat (.cls isR) D.digits, false, .reg⟩
def immediate : Rule (Action ρ) := ⟨false, (Regex.cls Char.isDigit).plus, false, .imm⟩
def sign (k : Char × Token ρ) : Rule (Action ρ) := ⟨false, .cls fun c => c == k.1, false, .token k.2⟩
def word : Rule (Action ρ) := ⟨false, .text "return".toList, false, .token .RETURN⟩
def comment : Rule (Action ρ) :=
  ⟨false, .cat (.text ['/', '/']) (.cat (.star (.cls P1Lex.dot)) (.text ['\n'])), false, .ignore⟩
def other : Rule (Action ρ) := ⟨false, .cls P1Lex.dot, false, .exit⟩

/-- The rules but the last. -/
def before (D : Dialect ρ) : List (Rule (Action ρ)) :=
  [space, register D, immediate] ++ signs.map sign ++ (if D.returns then [word] else []) ++ [comment]

def rules (D : Dialect ρ) : List (Rule (Action ρ)) := before D ++ [other]

variable {D : Dialect ρ} {bol : Bool} {c d : Char} {s w v y : List Char} {σ : Rule (Action ρ)}
variable {t : Token ρ} {ts : List (Token ρ)} {n : Nat}

/-! What the rules match. -/

/-- The one rule that may match, besides the last. -/
def only (D : Dialect ρ) (c : Char) (s : List Char) : Option (Rule (Action ρ)) :=
  if isSpace c then some space
  else if isR c then
    match s.head? with
    | some d => if d.isDigit then some (register D) else some word
    | none => none
  else if c.isDigit then some immediate
  else if c == '/' then some comment
  else (signs.find? fun k => k.1 == c).map sign

theorem takes_comment (h : (comment : Rule (Action ρ)).Takes bol s w) :
    ∃ y, '\n' ∉ y ∧ w = '/' :: '/' :: (y ++ ['\n']) := P1Lex.mem_comment.mp h.mem

theorem other_takes (h : (other : Rule (Action ρ)).Takes bol s w) : w.length = 1 := by
  obtain ⟨c, -, rfl⟩ := h.mem
  rfl

theorem digit_not_space (h : c.isDigit = true) : isSpace c = false ∧ isR c = false := by
  simp only [isSpace, isR, Bool.or_eq_false_iff, beq_eq_false_iff_ne, ne_eq]
  refine ⟨⟨⟨?_, ?_⟩, ?_⟩, ?_, ?_⟩ <;> rintro rfl <;> revert h <;> decide

/-- A rule that matches is the one that may. -/
theorem only_of_takes (hσ : σ ∈ before D) (h : σ.Takes bol (c :: s) w) : only D c s = some σ := by
  simp only [before, List.mem_append, List.mem_cons, List.mem_map, List.not_mem_nil, or_false] at hσ
  rcases hσ with (((rfl | rfl | rfl) | ⟨k, hk, rfl⟩) | hσ) | rfl
  · obtain ⟨rfl, hc⟩ := takes_cls h
    have hc : isSpace c = true := by simpa using hc
    rw [only, if_pos hc]
  · obtain ⟨a, u, ha, hu, rfl⟩ := Regex.mem_cls_cat.mp h.mem
    obtain ⟨rfl, hpre⟩ := List.cons_prefix_cons.mp h.here
    obtain ⟨d, hd, hdigit⟩ := D.digit u hu
    have hspace : isSpace a = false := by
      rw [← Bool.not_eq_true]
      intro hs
      simp only [isSpace, isR, Bool.or_eq_true, beq_iff_eq] at hs ha
      rcases ha with rfl | rfl <;> revert hs <;> decide
    obtain ⟨x, u', rfl⟩ : ∃ x u', u = x :: u' := by
      cases u with
      | nil => cases hd
      | cons x u' => exact ⟨x, u', rfl⟩
    obtain rfl := Option.some.inj hd
    obtain ⟨tail, rfl⟩ := hpre
    rw [only, if_neg (by simp [hspace]), if_pos ha]
    simp [hdigit]
  · obtain ⟨hne, hall⟩ := Regex.mem_plus.mp h.mem
    obtain ⟨a, u, rfl⟩ := List.exists_cons_of_ne_nil hne
    obtain ⟨rfl, -⟩ := List.cons_prefix_cons.mp h.here
    have ha := hall a List.mem_cons_self
    obtain ⟨h₁, h₂⟩ := digit_not_space ha
    rw [only, if_neg (by simp [h₁]), if_neg (by simp [h₂]), if_pos ha]
  · obtain ⟨rfl, hc⟩ := takes_cls h
    have hc : c = k.1 := by simpa using hc
    have hall : ∀ k ∈ (signs : List (Char × Token ρ)), isSpace k.1 = false ∧ isR k.1 = false ∧
        k.1.isDigit = false ∧ k.1 ≠ '/' ∧ signs.find? (fun k' => k'.1 == k.1) = some k := by
      intro k hk
      simp only [signs, List.mem_cons, List.not_mem_nil, or_false] at hk
      rcases hk with rfl | rfl | rfl | rfl | rfl | rfl | rfl | rfl <;>
        exact ⟨rfl, rfl, rfl, by simp, by simp [signs]⟩
    obtain ⟨h₁, h₂, h₃, h₄, h₅⟩ := hall k hk
    subst hc
    rw [only, if_neg (by simp [h₁]), if_neg (by simp [h₂]), if_neg (by simp [h₃]),
      if_neg (by simpa using h₄), h₅]
    rfl
  · split at hσ
    · obtain rfl := List.mem_singleton.mp hσ
      obtain rfl := Regex.mem_text.mp h.mem
      obtain ⟨rfl, hpre⟩ := List.cons_prefix_cons.mp h.here
      obtain ⟨tail, rfl⟩ := hpre
      rw [only, if_neg (by decide), if_pos (by decide)]
      rfl
    · cases hσ
  · obtain ⟨y, -, rfl⟩ := takes_comment h
    obtain ⟨rfl, -⟩ := List.cons_prefix_cons.mp h.here
    rw [only, if_neg (by decide), if_neg (by decide), if_neg (by decide), if_pos (by decide)]

/-! The scanner. -/

theorem covers (D : Dialect ρ) (bol : Bool) (c : Char) (s : List Char) :
    (best (rules D) bol (c :: s)).isSome = true := by
  by_cases hc : c = '\n'
  · have hmem : (space : Rule (Action ρ)) ∈ rules D := by simp [rules, before]
    have htakes : (space : Rule (Action ρ)).Takes bol (c :: s) [c] :=
      ⟨nofun, ⟨c, by simp [isSpace, hc], rfl⟩, List.prefix_append [c] s⟩
    exact best_isSome_of_takes hmem htakes
  · have hmem : (other : Rule (Action ρ)) ∈ rules D := by simp [rules]
    have htakes : (other : Rule (Action ρ)).Takes bol (c :: s) [c] :=
      ⟨nofun, ⟨c, by simpa [P1Lex.dot] using hc, rfl⟩, List.prefix_append [c] s⟩
    exact best_isSome_of_takes hmem htakes

theorem mem_rules (hσ : σ ∈ rules D) : σ = space ∨ σ = register D ∨ σ = immediate ∨
    (∃ k ∈ signs, σ = sign k) ∨ (σ = word ∧ D.returns = true) ∨ σ = comment ∨ σ = other := by
  simp only [rules, before, List.mem_append, List.mem_cons, List.mem_map, List.not_mem_nil,
    or_false] at hσ
  rcases hσ with ((((rfl | rfl | rfl) | ⟨k, hk, rfl⟩) | hσ) | rfl) | rfl
  · simp
  · simp
  · simp
  · exact .inr (.inr (.inr (.inl ⟨k, hk, rfl⟩)))
  · split at hσ
    · rename_i hret
      obtain rfl := List.mem_singleton.mp hσ
      simp [hret]
    · cases hσ
  · simp
  · simp

theorem whole_eq (hσ : σ ∈ rules D) : σ.eol = false ∧ σ.pattern.nullable = false := by
  rcases mem_rules hσ with rfl | rfl | rfl | ⟨k, -, rfl⟩ | ⟨rfl, -⟩ | rfl | rfl <;> exact ⟨rfl, rfl⟩

def scanner (D : Dialect ρ) : Scanner (Action ρ) where
  rules := rules D
  covers := covers D
  advances _ hσ := (whole_eq hσ).2

/-- What a match returns, before what comes later; nothing comes after `exit`. -/
def emit (D : Dialect ρ) (m : Lexeme (Action ρ)) (rest : List (Token ρ)) : List (Token ρ) :=
  match m.action with
  | .ignore => rest
  | .reg => .REG (D.register m.text.tail) :: rest
  | .imm => .IMMEDIATE (P1Lex.atoi m.text) :: rest
  | .token t => t :: rest
  | .exit => [.exit]

def lex (D : Dialect ρ) (bol : Bool) (s : List Char) : List (Token ρ) :=
  ((scanner D).scan bol s).foldr (emit D) []

/-- What the calls of `yylex` return, one after the other. -/
def yylex (D : Dialect ρ) (text : List Char) : List (Token ρ) := lex D true text

theorem lex_cons (h : best (rules D) bol (c :: s) = some (σ, n)) : lex D bol (c :: s) =
    emit D ⟨σ.action, (c :: s).take n⟩ (lex D (Flex.after bol ((c :: s).take n)) ((c :: s).drop n)) := by
  rw [lex, Scanner.scan_whole (S := scanner D) h (whole_eq (best_mem h).1).1]
  rfl

/-- A rule that matches `w` and no more is taken. -/
theorem lex_takes (hσ : σ ∈ before D) (h : σ.Takes bol (c :: s) w) (hne : w ≠ [])
    (hmax : ∀ v, σ.Takes bol (c :: s) v → v.length ≤ w.length) : lex D bol (c :: s) =
      emit D ⟨σ.action, w⟩ (lex D (Flex.after bol w) ((c :: s).drop w.length)) := by
  have honly : ∀ τ ∈ before D, ∀ v, τ.Takes bol (c :: s) v → τ = σ := fun τ hτ v hv =>
    Option.some.inj ((only_of_takes hτ hv).symm.trans (only_of_takes hσ h))
  have heol := (whole_eq (D := D) (List.mem_append_left _ hσ)).1
  rw [lex, Scanner.scan_sole (S := scanner D) rfl hσ heol h hne hmax honly fun v hv => other_takes hv]
  rfl

/-! The texts that are accepted. -/

/-- The digits of a number. -/
def digits : Regex Char := (Regex.cls Char.isDigit).plus

/-- Blanks, comments and the tokens, each as long as it goes. -/
inductive Layout (D : Dialect ρ) : List Char → List (Token ρ) → Prop where
  | nil : Layout D [] []
  | space {c : Char} {s : List Char} {ts : List (Token ρ)} (hc : isSpace c = true) (h : Layout D s ts) :
      Layout D (c :: s) ts
  | comment {y s : List Char} {ts : List (Token ρ)} (hy : '\n' ∉ y) (h : Layout D s ts) :
      Layout D ('/' :: '/' :: (y ++ '\n' :: s)) ts
  | register {c : Char} {s : List Char} {n : Nat} {ts : List (Token ρ)} (hc : isR c = true)
      (hn : D.digits.longest s = some n) (h : Layout D (s.drop n) ts) :
      Layout D (c :: s) (.REG (D.register (s.take n)) :: ts)
  | immediate {s : List Char} {n : Nat} {ts : List (Token ρ)} (hn : digits.longest s = some n)
      (h : Layout D (s.drop n) ts) : Layout D s (.IMMEDIATE (P1Lex.atoi (s.take n)) :: ts)
  | sign {k : Char × Token ρ} {s : List Char} {ts : List (Token ρ)} (hk : k ∈ signs) (h : Layout D s ts) :
      Layout D (k.1 :: s) (k.2 :: ts)
  | word {s : List Char} {ts : List (Token ρ)} (hD : D.returns = true) (h : Layout D s ts) :
      Layout D ("return".toList ++ s) (.RETURN :: ts)

theorem takes_sole {p : Char → Bool} {a : Action ρ} (bol : Bool) (s : List Char) (hp : p c = true) :
    (⟨false, .cls p, false, a⟩ : Rule (Action ρ)).Takes bol (c :: s) [c] ∧
      ∀ v, (⟨false, .cls p, false, a⟩ : Rule (Action ρ)).Takes bol (c :: s) v → v.length ≤ [c].length :=
  ⟨⟨nofun, ⟨c, hp, rfl⟩, List.prefix_append [c] s⟩, fun v hv => by rw [(takes_cls hv).1]⟩

theorem comment_takes (bol : Bool) (s : List Char) (hy : '\n' ∉ y) : let w := '/' :: '/' :: (y ++ ['\n'])
    (comment : Rule (Action ρ)).Takes bol (w ++ s) w ∧
      ∀ v, (comment : Rule (Action ρ)).Takes bol (w ++ s) v → v.length ≤ w.length := by
  refine ⟨⟨nofun, P1Lex.mem_comment.mpr ⟨y, hy, rfl⟩, List.prefix_append _ _⟩, fun v hv => ?_⟩
  obtain ⟨y', hy', rfl⟩ := takes_comment hv
  obtain ⟨tail, htail⟩ := hv.here
  have hline : y' ++ '\n' :: tail = y ++ '\n' :: s := by simpa using htail
  rw [line_unique hy' hy hline]

/-- A text of blanks, comments and tokens is scanned as these tokens. -/
theorem lex_layout (h : Layout D s ts) : ∀ bol, lex D bol s = ts := by
  induction h with
  | nil => exact fun _ => rfl
  | @space c s ts hc _ ih =>
    intro bol
    obtain ⟨htakes, hmax⟩ := takes_sole (a := .ignore) bol s hc
    have hmem : (space : Rule (Action ρ)) ∈ before D := by simp [before]
    rw [lex_takes hmem htakes (List.cons_ne_nil c []) hmax]
    exact ih _
  | @comment y s ts hy _ ih =>
    intro bol
    obtain ⟨htakes, hmax⟩ := @comment_takes ρ y bol s hy
    have hs : '/' :: '/' :: (y ++ '\n' :: s) = '/' :: '/' :: (y ++ ['\n']) ++ s := by simp
    have hmem : (comment : Rule (Action ρ)) ∈ before D := by simp [before]
    have hlex := lex_takes (c := '/') (s := '/' :: (y ++ ['\n']) ++ s) hmem htakes
      (List.cons_ne_nil _ _) hmax
    rw [← List.cons_append, List.drop_left] at hlex
    rw [hs]
    exact hlex.trans (ih _)
  | @register c s n ts hc hn _ ih =>
    intro bol
    obtain ⟨hmem, hlen, hle⟩ := Regex.longest_take hn
    have htakes : (register D).Takes bol (c :: s) (c :: s.take n) :=
      ⟨nofun, Regex.mem_cls_cat.mpr ⟨c, _, hc, hmem, rfl⟩,
        List.cons_prefix_cons.mpr ⟨rfl, List.take_prefix _ _⟩⟩
    rw [lex_takes (by simp [before]) htakes (List.cons_ne_nil _ _) fun v hv => ?_, List.length_cons, hlen]
    · exact congrArg (_ :: ·) (ih _)
    · obtain ⟨a, u, -, hu, rfl⟩ := Regex.mem_cls_cat.mp hv.mem
      have hpre := (List.cons_prefix_cons.mp hv.here).2
      rw [List.length_cons, List.length_cons, hlen]
      exact Nat.succ_le_succ (hle u hu hpre)
  | @immediate s n ts hn _ ih =>
    intro bol
    obtain ⟨hmem, hlen, hle⟩ := Regex.longest_take hn
    have hne := (Regex.mem_plus.mp hmem).1
    obtain ⟨c, s, rfl⟩ : ∃ c u, s = c :: u := by
      cases s with
      | nil => exact absurd List.take_nil hne
      | cons c u => exact ⟨c, u, rfl⟩
    have htakes : (immediate : Rule (Action ρ)).Takes bol (c :: s) ((c :: s).take n) :=
      ⟨nofun, hmem, List.take_prefix _ _⟩
    rw [lex_takes (by simp [before]) htakes hne fun v hv => ?_, hlen]
    · exact congrArg (_ :: ·) (ih _)
    · rw [hlen]
      exact hle v hv.mem hv.here
  | @sign k s ts hk _ ih =>
    intro bol
    obtain ⟨htakes, hmax⟩ := takes_sole (a := .token k.2) (c := k.1) (p := fun c => c == k.1) bol s
      (by simp)
    have hmem : sign k ∈ before D := by
      simp only [before, List.mem_append, List.mem_map]
      exact .inl (.inl (.inr ⟨k, hk, rfl⟩))
    rw [lex_takes hmem htakes (List.cons_ne_nil _ []) hmax]
    exact congrArg (_ :: ·) (ih _)
  | @word s ts hD _ ih =>
    intro bol
    have htakes : (word : Rule (Action ρ)).Takes bol ("return".toList ++ s) "return".toList :=
      ⟨nofun, Regex.mem_text.mpr rfl, List.prefix_append _ _⟩
    have hmem : (word : Rule (Action ρ)) ∈ before D := by simp [before, hD]
    have hne : "return".toList ≠ [] := by decide
    have hmax : ∀ v, (word : Rule (Action ρ)).Takes bol ("return".toList ++ s) v →
        v.length ≤ "return".toList.length := by
      intro v hv
      rw [Regex.mem_text.mp hv.mem]
    have hlex := lex_takes (c := 'r') (s := "eturn".toList ++ s) hmem htakes hne hmax
    exact hlex.trans (congrArg (_ :: ·) (ih _))

theorem total_longest (hσ : σ.bol = false) : σ.total bol s = σ.whole.longest s := by
  rw [Rule.total, hσ]
  rfl

/-- A scanned text is blanks, comments and tokens, if `exit` is not among them. -/
theorem layout_lex (bol : Bool) (s : List Char) (h : .exit ∉ lex D bol s) : Layout D s (lex D bol s) := by
  induction bol, s using (scanner D).scan_induction with
  | nil => exact .nil
  | @step bol c s σ n hbest ih =>
    have hmem := (best_mem hbest).1
    have hn : σ.consumed n = n := by
      rw [Rule.consumed, (whole_eq hmem).1]
      rfl
    obtain ⟨w, hw, rfl⟩ := total_takes (best_mem hbest).2
    have hlex := lex_cons hbest
    rw [hn] at ih
    rw [hlex] at h ⊢
    obtain ⟨tail, htail⟩ := hw.here
    rw [← htail, List.take_left, List.drop_left] at h ih ⊢
    have hrest : ∀ x : Token ρ, .exit ∉ x :: lex D (Flex.after bol w) tail →
        Layout D tail (lex D (Flex.after bol w) tail) := fun x hx =>
      ih fun hexit => hx (List.mem_cons_of_mem _ hexit)
    rcases mem_rules hmem with rfl | rfl | rfl | ⟨k, hk, rfl⟩ | ⟨rfl, hD⟩ | rfl | rfl
    · obtain ⟨rfl, hc⟩ := takes_cls hw
      exact .space (by simpa using hc) (ih h)
    · obtain ⟨a, u, ha, hu, rfl⟩ := Regex.mem_cls_cat.mp hw.mem
      obtain ⟨m, hm, hle⟩ := Regex.le_longest hu (List.prefix_append u tail)
      obtain ⟨hmem', hlen, -⟩ := Regex.longest_take hm
      -- a longer match for the digits would be one for the rule
      have hlonger : (a :: (u ++ tail).take m).length ≤ (a :: u).length := by
        have htotal := (best_mem hbest).2
        rw [total_longest rfl, ← htail] at htotal
        refine (Regex.longest_take htotal).2.2 _ (Regex.mem_cls_cat.mpr ⟨a, _, ha, hmem', rfl⟩) ?_
        exact List.cons_prefix_cons.mpr ⟨rfl, List.take_prefix _ _⟩
      obtain rfl : m = u.length := by
        simp only [List.length_cons, hlen] at hlonger
        omega
      have hlayout := Layout.register ha hm (by rw [List.drop_left]; exact hrest _ h)
      rwa [List.take_left] at hlayout
    · have htotal := (best_mem hbest).2
      rw [total_longest rfl, ← htail] at htotal
      have hlayout := Layout.immediate htotal (by rw [List.drop_left]; exact hrest _ h)
      rwa [List.take_left] at hlayout
    · obtain ⟨rfl, hc⟩ := takes_cls hw
      obtain rfl : c = k.1 := by simpa using hc
      exact .sign hk (hrest _ h)
    · obtain rfl := Regex.mem_text.mp hw.mem
      exact .word hD (hrest _ h)
    · obtain ⟨y, hy, rfl⟩ := takes_comment hw
      have hs : '/' :: '/' :: (y ++ ['\n']) ++ tail = '/' :: '/' :: (y ++ '\n' :: tail) := by simp
      rw [hs]
      exact .comment hy (ih h)
    · exact absurd List.mem_cons_self h

theorem Layout.exit (h : Layout D s ts) : .exit ∉ ts := by
  induction h with
  | nil => simp
  | sign hk _ ih =>
    refine fun hmem => (List.mem_cons.mp hmem).elim (fun e => ?_) ih
    simp [signs] at hk
    rcases hk with rfl | rfl | rfl | rfl | rfl | rfl | rfl | rfl <;> cases e
  | space _ _ ih | comment _ _ ih => exact ih
  | _ => simpa

/-- **The texts that are scanned to the end**, and the tokens they are scanned as. -/
theorem yylex_iff {text : List Char} : (yylex D text = ts ∧ .exit ∉ ts) ↔ Layout D text ts := by
  constructor
  · rintro ⟨rfl, h⟩
    exact layout_lex true text h
  · intro h
    exact ⟨lex_layout h true, h.exit⟩

/-! The two scanners, and the way back. -/

theorem digits_digit : ∀ w ∈ digits.lang, ∃ d ∈ w.head?, d.isDigit = true := by
  intro w hw
  obtain ⟨hne, hall⟩ := Regex.mem_plus.mp hw
  obtain ⟨d, u, rfl⟩ := List.exists_cons_of_ne_nil hne
  exact ⟨d, rfl, hall d List.mem_cons_self⟩

/-- `[0-7]`. -/
def isOctal (c : Char) : Bool := '0' ≤ c && c ≤ '7'

theorem octal_digit (h : isOctal c = true) : c.isDigit = true := by
  simp only [isOctal, Bool.and_eq_true, decide_eq_true_eq] at h
  simp only [Char.isDigit, Bool.and_eq_true, decide_eq_true_eq]
  exact ⟨h.1, h.2.trans (by decide)⟩

def tutorial1 : Dialect (Fin 8) where
  digits := .cls isOctal
  digit := by
    rintro w ⟨d, hd, rfl⟩
    exact ⟨d, rfl, octal_digit hd⟩
  register ds := Fin.ofNat 8 (P1Lex.atoi ds).toNat
  returns := false

def tutorial2 : Dialect (BitVec 32) where
  digits := digits
  digit := digits_digit
  register := P1Lex.atoi
  returns := true

/-- The decimal digits of a word. -/
def decimal (n : BitVec 32) : List Char := Nat.toDigits 10 n.toNat

def spell : Token (BitVec 32) → List Char
  | .REG r => 'R' :: decimal r
  | .IMMEDIATE n => decimal n
  | .RETURN => "return".toList
  | .ASSIGN => ['=']
  | .SEMI => [';']
  | .PLUS => ['+']
  | .MINUS => ['-']
  | .LPAREN => ['(']
  | .RPAREN => [')']
  | .LBRACKET => ['[']
  | .RBRACKET => [']']
  | .exit => []

/-- The tokens with a blank after each. -/
def print (ts : List (Token (BitVec 32))) : List Char := ts.flatMap fun t => spell t ++ [' ']

theorem atoi_decimal (n : BitVec 32) : P1Lex.atoi (decimal n) = n := by
  have hfold : (decimal n).foldl (fun n c => 10 * n + (c.toNat - '0'.toNat)) 0 = n.toNat := by
    rw [decimal, ← Nat.ofDigitChars_eq_foldl, Nat.ofDigitChars_ten_toDigits]
  have hlt := n.isLt
  rw [P1Lex.atoi, hfold, Nat.min_eq_left (by omega), BitVec.ofNat_toNat, BitVec.setWidth_eq]

/-- A number ends at the blank. -/
theorem decimal_longest (n : BitVec 32) : digits.longest (decimal n ++ ' ' :: s) = some (decimal n).length := by
  have hmem : decimal n ∈ digits.lang := Regex.mem_plus.mpr ⟨Nat.toDigits_ne_nil, fun d hd =>
    Nat.isDigit_of_mem_toDigits (by omega) (by omega) hd⟩
  obtain ⟨m, hm, hle⟩ := Regex.le_longest hmem (List.prefix_append _ (' ' :: s))
  obtain ⟨hmem', hlen, -⟩ := Regex.longest_take hm
  have hno : ' ' ∉ (decimal n ++ ' ' :: s).take m := fun hblank =>
    absurd ((Regex.mem_plus.mp hmem').2 _ hblank) (by decide)
  rcases Nat.lt_or_ge (decimal n).length m with hlt | hge
  · refine absurd ?_ hno
    obtain ⟨k, rfl⟩ : ∃ k, m = (decimal n).length + (k + 1) := ⟨m - (decimal n).length - 1, by omega⟩
    rw [List.take_length_add_append, List.take_succ_cons]
    simp
  · rw [hm, Nat.le_antisymm hge hle]

theorem layout_spell {t : Token (BitVec 32)} {ts : List (Token (BitVec 32))} (ht : t ≠ .exit)
    (h : Layout tutorial2 s ts) : Layout tutorial2 (spell t ++ ' ' :: s) (t :: ts) := by
  have hblank : Layout tutorial2 (' ' :: s) ts := .space rfl h
  have hsign : ∀ k ∈ (signs : List (Char × Token (BitVec 32))),
      Layout tutorial2 (k.1 :: ' ' :: s) (k.2 :: ts) := fun k hk => .sign hk hblank
  have hdecimal : ∀ n, (decimal n ++ ' ' :: s).take (decimal n).length = decimal n ∧
      (decimal n ++ ' ' :: s).drop (decimal n).length = ' ' :: s := fun n =>
    ⟨List.take_left, List.drop_left⟩
  cases t with
  | exit => exact absurd rfl ht
  | REG r =>
    obtain ⟨h₁, h₂⟩ := hdecimal r
    have hreg := Layout.register (D := tutorial2) (c := 'R') rfl (decimal_longest r) (h₂ ▸ hblank)
    rwa [h₁, show tutorial2.register (decimal r) = r from atoi_decimal r] at hreg
  | IMMEDIATE n =>
    obtain ⟨h₁, h₂⟩ := hdecimal n
    have himm := Layout.immediate (D := tutorial2) (decimal_longest n) (h₂ ▸ hblank)
    rwa [h₁, atoi_decimal] at himm
  | RETURN => exact .word rfl hblank
  | ASSIGN => exact hsign ('=', .ASSIGN) (by simp [signs])
  | SEMI => exact hsign (';', .SEMI) (by simp [signs])
  | PLUS => exact hsign ('+', .PLUS) (by simp [signs])
  | MINUS => exact hsign ('-', .MINUS) (by simp [signs])
  | LPAREN => exact hsign ('(', .LPAREN) (by simp [signs])
  | RPAREN => exact hsign (')', .RPAREN) (by simp [signs])
  | LBRACKET => exact hsign ('[', .LBRACKET) (by simp [signs])
  | RBRACKET => exact hsign (']', .RBRACKET) (by simp [signs])

theorem layout_print (ts : List (Token (BitVec 32))) (h : .exit ∉ ts) : Layout tutorial2 (print ts) ts := by
  induction ts with
  | nil => exact .nil
  | cons t ts ih =>
    rw [List.mem_cons, not_or] at h
    have hprint : print (t :: ts) = spell t ++ ' ' :: print ts := by simp [print]
    rw [hprint]
    exact layout_spell (Ne.symm h.1) (ih h.2)

/-- **Tokens that are printed are scanned back.** -/
theorem yylex_print (ts : List (Token (BitVec 32))) (h : .exit ∉ ts) : yylex tutorial2 (print ts) = ts :=
  lex_layout (layout_print ts h) true

theorem yylex_print_assignment : yylex tutorial2 (print [.REG 12, .ASSIGN, .MINUS, .IMMEDIATE 7, .SEMI]) =
    [.REG 12, .ASSIGN, .MINUS, .IMMEDIATE 7, .SEMI] := yylex_print _ (by decide)

end Ece566.ExprScanner
