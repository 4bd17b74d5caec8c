import Ece566.Flex

/- The scanner of project 1 (`p1.lex`). The newline that ends a statement is a token. The rule
   for comments takes the newline too and returns nothing, so a comment on a line of its own
   is not seen by the parser, but one after a statement takes the end of the statement away. -/
namespace Ece566.P1Lex

open Flex

inductive Token
  | IN | FINAL | NONE | REDUCE | EXPAND | SLICE
  | ID (id : List Char)
  | NUMBER (num : BitVec 32)
  | LBRACKET | RBRACKET | LPAREN | RPAREN | LBRACE | RBRACE
  | ASSIGN | MUL | MOD | DIV | PLUS | MINUS | XOR | OR | AND | INV | BINV
  | COMMA | DOT | COLON | ENDLINE
deriving DecidableEq

/-- What a rule does: nothing, return a token, or print an error and `exit(1)`. -/
inductive Action
  | ignore
  | token (t : Token)
  | id
  | number
  | syntaxError
deriving DecidableEq

/-- `.`. -/
def dot (c : Char) : Bool := c != '\n'

def keywords : List (List Char × Token) :=
  [(['i', 'n'], .IN), (['f', 'i', 'n', 'a', 'l'], .FINAL), (['n', 'o', 'n', 'e'], .NONE),
    (['r', 'e', 'd', 'u', 'c', 'e'], .REDUCE), (['e', 'x', 'p', 'a', 'n', 'd'], .EXPAND),
    (['s', 'l', 'i', 'c', 'e'], .SLICE)]

def signs : List (Char × Token) :=
  [('[', .LBRACKET), (']', .RBRACKET), ('(', .LPAREN), (')', .RPAREN), ('{', .LBRACE), ('}', .RBRACE),
    ('=', .ASSIGN), ('*', .MUL), ('%', .MOD), ('/', .DIV), ('+', .PLUS), ('-', .MINUS), ('^', .XOR),
    ('|', .OR), ('&', .AND), ('~', .INV), ('!', .BINV), (',', .COMMA), ('.', .DOT), (':', .COLON),
    ('\n', .ENDLINE)]

def space : Rule Action := ⟨false, .cls fun c => c == ' ' || c == '\t' || c == '\r', false, .ignore⟩
def keyword (k : List Char × Token) : Rule Action := ⟨false, .text k.1, false, .token k.2⟩
def identifier : Rule Action := ⟨false, (Regex.cls Char.isAlpha).plus, false, .id⟩
def number : Rule Action := ⟨false, (Regex.cls Char.isDigit).plus, false, .number⟩
def sign (k : Char × Token) : Rule Action := ⟨false, .text [k.1], false, .token k.2⟩
def comment : Rule Action :=
  ⟨false, .cat (.text ['/', '/']) (.cat (.star (.cls dot)) (.text ['\n'])), false, .ignore⟩
def other : Rule Action := ⟨false, .cls dot, false, .syntaxError⟩

/-- The rules before the one for comments. -/
def before : List (Rule Action) :=
  space :: keywords.map keyword ++ [identifier, number] ++ signs.map sign

def rules : List (Rule Action) := before ++ [comment, other]

variable {bol : Bool} {c : Char} {s x y z w : List Char} {ρ : Rule Action} {ms ms' : List (Lexeme Action)}

/-! What the rules match. -/

/-- A slash or a newline is a match of its own. -/
def Plain (ρ : Rule Action) : Prop :=
  ∀ w ∈ ρ.whole.lang, ∀ c, c = '/' ∨ c = '\n' → c ∈ w → w = [c]

theorem plain_cls {p : Char → Bool} {a : Action} : Plain ⟨false, .cls p, false, a⟩ := by
  intro w ⟨d, _, e⟩ c _ hmem
  rw [e, List.mem_singleton] at hmem
  rw [e, hmem]

theorem plain_plus {p : Char → Bool} {a : Action} (hslash : p '/' = false) (hnl : p '\n' = false) :
    Plain ⟨false, (Regex.cls p).plus, false, a⟩ := by
  intro w hw c hc hmem
  have hp := (Regex.mem_plus.mp hw).2 c hmem
  rcases hc with rfl | rfl
  · rw [hslash] at hp
    cases hp
  · rw [hnl] at hp
    cases hp

theorem plain_keyword : ∀ k ∈ keywords, Plain (keyword k) := by
  intro k hk w hw c hc hmem
  obtain rfl := Regex.mem_text.mp hw
  have hno : ∀ k ∈ keywords, '/' ∉ k.1 ∧ '\n' ∉ k.1 := by decide
  rcases hc with rfl | rfl
  · exact absurd hmem (hno k hk).1
  · exact absurd hmem (hno k hk).2

theorem plain_sign (k : Char × Token) : Plain (sign k) := by
  intro w hw c _ hmem
  obtain rfl := Regex.mem_text.mp hw
  rw [List.mem_singleton.mp hmem]

theorem plain_before (hρ : ρ ∈ before) : Plain ρ := by
  simp only [before, List.mem_append, List.mem_cons, List.mem_map, List.not_mem_nil, or_false] at hρ
  rcases hρ with ((rfl | ⟨k, hk, rfl⟩) | rfl | rfl) | ⟨k, -, rfl⟩
  · exact plain_cls
  · exact plain_keyword k hk
  · exact plain_plus rfl rfl
  · exact plain_plus rfl rfl
  · exact plain_sign k

theorem plain_or_comment (hρ : ρ ∈ rules) : Plain ρ ∨ ρ = comment := by
  rcases List.mem_append.mp hρ with hρ | hρ
  · exact .inl (plain_before hρ)
  · rcases List.mem_cons.mp hρ with rfl | hρ
    · exact .inr rfl
    · exact .inl (List.mem_singleton.mp hρ ▸ plain_cls)

theorem mem_comment : w ∈ comment.whole.lang ↔ ∃ y, '\n' ∉ y ∧ w = '/' :: '/' :: (y ++ ['\n']) := by
  refine Regex.mem_cat.trans ⟨?_, ?_⟩
  · intro ⟨u, hu, v, hv, huv⟩
    obtain ⟨y, hy, t, ht, hyt⟩ := Regex.mem_cat.mp hv
    rw [Regex.mem_text.mp hu] at huv
    rw [Regex.mem_text.mp ht] at hyt
    refine ⟨y, fun hmem => ?_, by rw [← huv, ← hyt]; rfl⟩
    exact absurd (Regex.mem_star_cls.mp hy _ hmem) (by decide)
  · intro ⟨y, hy, e⟩
    refine ⟨['/', '/'], Regex.mem_text.mpr rfl, y ++ ['\n'], Regex.mem_cat.mpr ?_, e.symm⟩
    refine ⟨y, Regex.mem_star_cls.mpr fun a ha => ?_, ['\n'], Regex.mem_text.mpr rfl, rfl⟩
    have : a ≠ '\n' := fun h => hy (h ▸ ha)
    simpa [dot] using this

theorem lined : Scanner.Lined rules := by
  intro ρ hρ w hw hmem
  rcases plain_or_comment hρ with hplain | rfl
  · rw [hplain w hw '\n' (.inr rfl) (List.mem_of_mem_dropLast hmem)] at hmem
    cases hmem
  · obtain ⟨y, hy, rfl⟩ := mem_comment.mp hw
    rw [← List.cons_append, ← List.cons_append, List.dropLast_concat] at hmem
    simp only [List.mem_cons] at hmem
    rcases hmem with h | h | h
    · exact absurd h (by decide)
    · exact absurd h (by decide)
    · exact hy h

/-! The scanner. -/

theorem covers (bol : Bool) (c : Char) (s : List Char) : (best rules bol (c :: s)).isSome = true := by
  by_cases hnl : c = '\n'
  · have hmem : sign ('\n', .ENDLINE) ∈ rules := by
      refine List.mem_append_left _ (List.mem_append_right _ (List.mem_map_of_mem ?_))
      decide
    have htakes : (sign ('\n', .ENDLINE)).Takes bol (c :: s) [c] :=
      ⟨nofun, hnl ▸ Regex.mem_text.mpr rfl, List.prefix_append [c] s⟩
    exact best_isSome_of_takes hmem htakes
  · have hmem : other ∈ rules := List.mem_append_right _ (List.mem_cons_of_mem _ List.mem_cons_self)
    have htakes : other.Takes bol (c :: s) [c] :=
      ⟨nofun, ⟨c, by simpa [dot] using hnl, rfl⟩, List.prefix_append [c] s⟩
    exact best_isSome_of_takes hmem htakes

def scanner : Scanner Action where
  rules := rules
  covers := covers
  advances := by decide

/-- The value of the digits, as `(int) strtol` has it. -/
def atoi (s : List Char) : BitVec 32 :=
  BitVec.ofNat 32 (min (s.foldl (fun n c => 10 * n + (c.toNat - '0'.toNat)) 0) (2 ^ 63 - 1))

/-- What the matches return, if none of them ends the program. -/
def tokens : List (Lexeme Action) → Option (List Token)
  | [] => some []
  | m :: ms =>
    match m.action with
    | .ignore => tokens ms
    | .token t => (tokens ms).map fun ts => t :: ts
    | .id => (tokens ms).map fun ts => .ID m.text :: ts
    | .number => (tokens ms).map fun ts => .NUMBER (atoi m.text) :: ts
    | .syntaxError => none

/-- What the calls of `yylex` return, one after the other, until the end of the text. -/
def yylex (text : List Char) : Option (List Token) := tokens (scanner.scan true text)

/-- The characters that have a rule besides the last. -/
def accepted (c : Char) : Bool :=
  (c == ' ' || c == '\t' || c == '\r') || c.isAlpha || c.isDigit || signs.any fun k => k.1 == c

theorem accepted_takes (h : accepted c = true) : ∃ σ ∈ before, σ.Takes bol (c :: s) [c] := by
  have hone : ∀ p : Char → Bool, p c = true → [c] ∈ (Regex.cls p).plus.lang := fun p hp =>
    Regex.mem_plus.mpr ⟨List.cons_ne_nil c [], fun d hd => List.mem_singleton.mp hd ▸ hp⟩
  have hhere : [c] <+: c :: s := List.prefix_append [c] s
  simp only [accepted, Bool.or_eq_true] at h
  rcases h with ((h | h) | h) | h
  · have hspace : (c == ' ' || c == '\t' || c == '\r') = true := by simpa only [Bool.or_eq_true] using h
    exact ⟨space, by simp [before], nofun, ⟨c, hspace, rfl⟩, hhere⟩
  · exact ⟨identifier, by simp [before], nofun, hone _ h, hhere⟩
  · exact ⟨number, by simp [before], nofun, hone _ h, hhere⟩
  · obtain ⟨k, hk, e⟩ := List.any_eq_true.mp h
    obtain rfl := beq_iff_eq.mp e
    refine ⟨sign k, ?_, nofun, Regex.mem_text.mpr rfl, hhere⟩
    exact List.mem_append_right _ (List.mem_map_of_mem hk)

theorem accepted_action {n : Nat} (h : accepted c = true) (hbest : best rules bol (c :: s) = some (ρ, n)) :
    ρ.action ≠ .syntaxError := by
  obtain ⟨σ, hσ, htakes⟩ := @accepted_takes bol c s h
  obtain ⟨k, hk, hle⟩ := le_total htakes
  have hlast : ∀ τ ∈ [other], ∀ m, τ.total bol (c :: s) = some m → m ≤ k := by
    intro τ hτ m hm
    rw [List.mem_singleton.mp hτ, other, total_cls] at hm
    split at hm
    · exact Option.some.inj hm ▸ hle
    · cases hm
  have hrules : rules = (before ++ [comment]) ++ [other] := by rw [List.append_assoc]; rfl
  rw [hrules] at hbest
  have hno : ∀ ρ ∈ before ++ [comment], ρ.action ≠ .syntaxError := by decide
  exact hno ρ (best_early (List.mem_append_left _ hσ) hk hlast hbest)

theorem tokens_isSome (h : ∀ m ∈ ms, m.action ≠ .syntaxError) : (tokens ms).isSome = true := by
  induction ms with
  | nil => rfl
  | cons m ms ih =>
    have ih := ih fun m hm => h m (List.mem_cons_of_mem _ hm)
    rw [tokens]
    split
    · exact ih
    · rwa [Option.isSome_map]
    · rwa [Option.isSome_map]
    · rwa [Option.isSome_map]
    · exact absurd ‹_› (h m List.mem_cons_self)

/-- A text of accepted characters is scanned to its end. -/
theorem yylex_isSome {text : List Char} (h : ∀ c ∈ text, accepted c = true) : (yylex text).isSome = true := by
  refine tokens_isSome ?_
  generalize true = bol
  induction bol, text using scanner.scan_induction with
  | nil => simp
  | @step bol c s ρ n hbest ih =>
    intro m hm
    rw [Scanner.scan_cons hbest] at hm
    rcases List.mem_cons.mp hm with rfl | hm
    · exact accepted_action (h c List.mem_cons_self) hbest
    · exact ih (fun d hd => h d (List.mem_of_mem_drop hd)) m hm

/-- One after the other. -/
def join (a b : Option (List Token)) : Option (List Token) :=
  a.bind fun ts => b.map fun us => ts ++ us

theorem join_nil {b : Option (List Token)} : join (some []) b = b := by cases b <;> rfl

theorem tokens_append : tokens (ms ++ ms') = join (tokens ms) (tokens ms') := by
  induction ms with
  | nil => exact join_nil.symm
  | cons m ms ih =>
    rw [List.cons_append, tokens, tokens, ih]
    cases m.action <;> cases tokens ms <;> cases tokens ms' <;> rfl

/-- Where a line begins. -/
def LineStart (x : List Char) : Prop := x = [] ∨ x.getLast? = some '\n'

/-- The scanner reads a text line by line. -/
theorem yylex_append (hx : LineStart x) : yylex (x ++ z) = join (yylex x) (yylex z) := by
  rcases hx with rfl | hx
  · exact join_nil.symm
  · have hafter : after true x = true := by rw [after, hx]; rfl
    rw [yylex, Scanner.scan_append (Scanner.Lined.fits (S := scanner) lined hx), tokens_append, hafter]
    rfl

/-! Comments. -/

def slashes : List Char := ['/', '/']

theorem comment_takes (hy : '\n' ∉ y) (h : comment.Takes bol (slashes ++ y ++ '\n' :: z) w) :
    w = slashes ++ y ++ ['\n'] := by
  obtain ⟨-, hmem, t, ht⟩ := h
  obtain ⟨u, hu, rfl⟩ := mem_comment.mp hmem
  have hyu : u = y := by
    refine line_unique (t := t) (s := z) hu hy ?_
    simpa [slashes] using ht
  rw [hyu]
  rfl

/-- The rule for comments matches most at the beginning of a comment, and takes the newline. -/
theorem best_comment (hy : '\n' ∉ y) :
    best rules bol (slashes ++ y ++ '\n' :: z) = some (comment, (slashes ++ y ++ ['\n']).length) := by
  have htakes : comment.Takes bol (slashes ++ y ++ '\n' :: z) (slashes ++ y ++ ['\n']) := by
    refine ⟨nofun, mem_comment.mpr ⟨y, hy, rfl⟩, z, ?_⟩
    rw [List.append_assoc, List.singleton_append]
  have htotal := total_eq_some htakes fun v hv => by rw [comment_takes hy hv]
  -- the others take the slash at most
  have hone : ∀ σ : Rule Action, Plain σ → ∀ k, σ.total bol (slashes ++ y ++ '\n' :: z) = some k →
      k < (slashes ++ y ++ ['\n']).length := by
    intro σ hσ k hk
    obtain ⟨w, hw, rfl⟩ := total_takes hk
    have hlen : w.length ≤ 1 := by
      cases w with
      | nil => exact Nat.zero_le 1
      | cons d w =>
        obtain ⟨rfl, -⟩ := List.cons_prefix_cons.mp hw.here
        rw [hσ _ hw.mem '/' (.inl rfl) List.mem_cons_self]
        exact Nat.le_refl 1
    refine Nat.lt_of_le_of_lt hlen ?_
    simp [slashes]
  refine best_append_cons htotal (fun σ hσ => hone σ (plain_before hσ)) fun σ hσ k hk => ?_
  obtain rfl := List.mem_singleton.mp hσ
  exact Nat.le_of_lt (hone other plain_cls k hk)

theorem scan_comment (hy : '\n' ∉ y) : scanner.scan bol (slashes ++ y ++ '\n' :: z) =
    ⟨.ignore, slashes ++ y ++ ['\n']⟩ :: scanner.scan true z := by
  have hbest : best scanner.rules bol (slashes ++ y ++ '\n' :: z) =
      some (comment, (slashes ++ y ++ ['\n']).length) := best_comment hy
  have hscan := Scanner.scan_cons hbest
  have htext : '/' :: ('/' :: y ++ '\n' :: z) = (slashes ++ y ++ ['\n']) ++ z := by simp [slashes]
  have hconsumed : comment.consumed (slashes ++ y ++ ['\n']).length = (slashes ++ y ++ ['\n']).length := rfl
  have hafter : after bol (slashes ++ y ++ ['\n']) = true := by simp [after]
  refine hscan.trans ?_
  rw [hconsumed]
  show ⟨_, List.take _ ('/' :: ('/' :: y ++ '\n' :: z))⟩ :: scanner.scan
    (after bol (List.take _ ('/' :: ('/' :: y ++ '\n' :: z)))) (List.drop _ ('/' :: ('/' :: y ++ '\n' :: z))) = _
  rw [htext, List.take_left, List.drop_left, hafter]
  rfl

/-- A line without a comment is read up to its newline, or up to a comment that follows it. -/
theorem fits (hc : c = '/' ∨ c = '\n') (hx : ¬ slashes <:+: x ++ [c]) : scanner.Fits x (c :: z) := by
  intro y hy hne bol ρ hρ w hw
  by_contra hlen
  rw [Nat.not_le] at hlen
  -- a match that goes on takes `c`
  have hlast : y ++ [c] <+: w := by
    refine List.prefix_of_prefix_length_le ?_ hw.here ?_
    · exact ⟨z, by simp⟩
    · rw [List.length_append]
      exact hlen
  rcases plain_or_comment hρ with hplain | rfl
  · have hw1 := hplain w hw.mem c hc (hlast.subset (List.mem_append_right y List.mem_cons_self))
    have := List.length_pos_iff.mpr hne
    rw [hw1, List.length_singleton] at hlen
    omega
  · obtain ⟨u, -, rfl⟩ := mem_comment.mp hw.mem
    have hslashes : slashes <+: '/' :: '/' :: (u ++ ['\n']) := ⟨u ++ ['\n'], rfl⟩
    have hstart : slashes <+: y ++ [c] := by
      refine List.prefix_of_prefix_length_le hslashes hlast ?_
      have := List.length_pos_iff.mpr hne
      rw [List.length_append]
      simp only [slashes, List.length_cons, List.length_nil]
      omega
    refine hx (hstart.isInfix.trans ?_)
    obtain ⟨x', rfl⟩ := hy
    exact ⟨x', [], by simp⟩

/-- The first comment of a line. -/
theorem exists_comment (h : slashes <:+: x) :
    ∃ y z, x = y ++ slashes ++ z ∧ ¬ slashes <:+: y ++ ['/'] := by
  induction x with
  | nil => simp [slashes] at h
  | cons c x ih =>
    by_cases hhere : slashes <+: c :: x
    · obtain ⟨z, hz⟩ := hhere
      exact ⟨[], z, hz.symm, by decide⟩
    · rcases List.infix_cons_iff.mp h with h | h
      · exact absurd h hhere
      · obtain ⟨y, z, rfl, hy⟩ := ih h
        refine ⟨c :: y, z, rfl, fun hin => ?_⟩
        -- two slashes at the front of `c :: y` and `/` are two at the front of `c :: x`
        rcases List.infix_cons_iff.mp hin with hin | hin
        · refine hhere (hin.trans ⟨'/' :: z, ?_⟩)
          simp [slashes]
        · exact hy hin

/-! Lines. -/

/-- A line as the scanner reads it: what comes before its first comment, or all of it and its
newline. -/
theorem yylex_comment (hy : '\n' ∉ y) (hx : ¬ slashes <:+: x ++ ['/']) :
    yylex (x ++ (slashes ++ y ++ '\n' :: z)) = join (yylex x) (yylex z) := by
  have hfits : scanner.Fits x (slashes ++ y ++ '\n' :: z) := fits (.inl rfl) hx
  rw [yylex, Scanner.scan_append hfits, tokens_append, scan_comment hy]
  rfl

/-- The rules, as the families they come in. -/
theorem rules_cases (hρ : ρ ∈ rules) : ρ = space ∨ (∃ k ∈ keywords, ρ = keyword k) ∨ ρ = identifier ∨ ρ = number ∨
    (∃ k ∈ signs, ρ = sign k) ∨ ρ = comment ∨ ρ = other := by
  simp only [rules, before, List.mem_append, List.mem_cons, List.mem_map, List.not_mem_nil, or_false] at hρ
  rcases hρ with (((h | ⟨k, hk, h⟩) | h | h) | ⟨k, hk, h⟩) | h | h
  · exact .inl h
  · exact .inr (.inl ⟨k, hk, h.symm⟩)
  · exact .inr (.inr (.inl h))
  · exact .inr (.inr (.inr (.inl h)))
  · exact .inr (.inr (.inr (.inr (.inl ⟨k, hk, h.symm⟩))))
  · exact .inr (.inr (.inr (.inr (.inr (.inl h)))))
  · exact .inr (.inr (.inr (.inr (.inr (.inr h)))))

/-- A newline by itself is the end of a statement. -/
theorem newline_action (hρ : ρ ∈ rules) (hw : ['\n'] ∈ ρ.pattern.lang) : ρ.action = .token .ENDLINE := by
  have hcls : ∀ p : Char → Bool, ['\n'] ∈ (Regex.cls p).lang → p '\n' = true := by
    intro p ⟨d, hd, e⟩
    obtain rfl := List.singleton_inj.mp e
    exact hd
  rcases rules_cases hρ with rfl | ⟨k, hk, rfl⟩ | rfl | rfl | ⟨k, hk, rfl⟩ | rfl | rfl
  · exact absurd (hcls _ hw) (by decide)
  · have hno : ∀ k ∈ keywords, ['\n'] ≠ k.1 := by decide
    exact absurd (Regex.mem_text.mp hw) (hno k hk)
  · exact absurd ((Regex.mem_plus.mp hw).2 '\n' List.mem_cons_self) (by decide)
  · exact absurd ((Regex.mem_plus.mp hw).2 '\n' List.mem_cons_self) (by decide)
  · have hsign : ∀ k ∈ signs, ['\n'] = [k.1] → k.2 = .ENDLINE := by decide
    exact congrArg Action.token (hsign k hk (Regex.mem_text.mp hw))
  · obtain ⟨u, -, e⟩ := mem_comment.mp hw
    cases e
  · exact absurd (hcls _ hw) (by decide)

/-- Nothing else is. -/
theorem endline_newline (hρ : ρ ∈ rules) (haction : ρ.action = .token .ENDLINE) (hw : w ∈ ρ.pattern.lang) :
    '\n' ∈ w := by
  rcases rules_cases hρ with rfl | ⟨k, hk, rfl⟩ | rfl | rfl | ⟨k, hk, rfl⟩ | rfl | rfl
  · cases haction
  · have hno : ∀ k ∈ keywords, k.2 ≠ .ENDLINE := by decide
    exact absurd (Action.token.inj haction) (hno k hk)
  · cases haction
  · cases haction
  · have hsign : ∀ k ∈ signs, k.2 = .ENDLINE → k.1 = '\n' := by decide
    rw [Regex.mem_text.mp hw, hsign k hk (Action.token.inj haction)]
    exact List.mem_cons_self
  · cases haction
  · cases haction

theorem scan_newline : scanner.scan bol ('\n' :: z) = ⟨.token .ENDLINE, ['\n']⟩ :: scanner.scan true z := by
  obtain ⟨⟨ρ, n⟩, hbest⟩ := Option.isSome_iff_exists.mp (scanner.covers bol '\n' z)
  obtain ⟨hρ, htotal⟩ := best_mem hbest
  obtain ⟨hmem, hpos, hle, -⟩ := Scanner.best_word hbest
  have hone : n = 1 := by
    obtain ⟨w, hw, rfl⟩ := total_takes htotal
    obtain ⟨d, w, rfl⟩ := List.exists_cons_of_length_pos (Nat.lt_of_lt_of_le hpos hle)
    obtain ⟨rfl, -⟩ := List.cons_prefix_cons.mp hw.here
    rcases plain_or_comment hρ with hplain | rfl
    · rw [hplain _ hw.mem '\n' (.inr rfl) List.mem_cons_self]
      rfl
    · obtain ⟨u, -, e⟩ := mem_comment.mp hw.mem
      cases e
  have hconsumed : ρ.consumed n = 1 := by omega
  rw [hconsumed] at hmem
  rw [Scanner.scan_cons hbest, hconsumed, newline_action hρ hmem]
  rfl

theorem bare_newline (hx : ¬ slashes <:+: x) : ¬ slashes <:+: x ++ ['\n'] := by
  rw [List.infix_concat_iff]
  rintro (⟨y, hy⟩ | h)
  · have hlast := congrArg List.getLast? hy
    simp [slashes] at hlast
  · exact hx h

theorem yylex_bare (hx : ¬ slashes <:+: x) :
    yylex (x ++ '\n' :: z) = join (yylex x) (join (some [.ENDLINE]) (yylex z)) := by
  rw [yylex, Scanner.scan_append (fits (.inr rfl) (bare_newline hx)), tokens_append, scan_newline, tokens]
  rfl

/-- Only a newline returns `ENDLINE`. -/
theorem endline_notMem {ts : List Token} (hx : '\n' ∉ x) (h : yylex x = some ts) : .ENDLINE ∉ ts := by
  have hno : ∀ m ∈ scanner.scan true x, m.action ≠ .token .ENDLINE := by
    intro m hm e
    obtain ⟨ρ, hρ, haction, hmem, hin⟩ := Scanner.scan_sound m hm
    exact hx (hin.subset (endline_newline hρ (haction ▸ e) hmem))
  rw [yylex] at h
  generalize scanner.scan true x = ms at hno h
  induction ms generalizing ts with
  | nil =>
    obtain rfl := Option.some.inj h
    exact List.not_mem_nil
  | cons m ms ih =>
    have ih := fun {us} h => @ih us (fun m hm => hno m (List.mem_cons_of_mem _ hm)) h
    have hm := hno m List.mem_cons_self
    rw [tokens] at h
    split at h
    · exact ih h
    · obtain ⟨us, hus, rfl⟩ := Option.map_eq_some_iff.mp h
      rename_i t ht
      have hne : Token.ENDLINE ≠ t := fun e => hm (e ▸ ht)
      exact List.not_mem_cons_of_ne_of_not_mem hne (ih hus)
    · obtain ⟨us, hus, rfl⟩ := Option.map_eq_some_iff.mp h
      exact List.not_mem_cons_of_ne_of_not_mem nofun (ih hus)
    · obtain ⟨us, hus, rfl⟩ := Option.map_eq_some_iff.mp h
      exact List.not_mem_cons_of_ne_of_not_mem nofun (ih hus)
    · cases h

/-! The law. -/

/-- The line has tokens besides the one for its end. -/
def HasTokens (line : List Char) : Prop := ∃ ts, yylex (line ++ ['\n']) = some ts ∧ ∃ t ∈ ts, t ≠ .ENDLINE

theorem join_eq_some {a b : Option (List Token)} {vs : List Token} :
    join a b = some vs ↔ ∃ ts us, a = some ts ∧ b = some us ∧ ts ++ us = vs := by
  simp [join, Option.bind_eq_some_iff, Option.map_eq_some_iff]

/-- What stands behind a comment on its line is not seen, nor is the end of the line. -/
theorem yylex_commented (hx : '\n' ∉ x) (h : slashes <:+: x) :
    ∃ y, '\n' ∉ y ∧ ∀ u z, '\n' ∉ u → yylex (x ++ u ++ '\n' :: z) = join (yylex y) (yylex z) := by
  obtain ⟨y, v, rfl, hy⟩ := exists_comment h
  simp only [List.mem_append, not_or] at hx
  refine ⟨y, hx.1.1, fun u z hu => ?_⟩
  have hvu : '\n' ∉ v ++ u := by simp [hx.2, hu]
  rw [← yylex_comment hvu hy]
  simp [List.append_assoc]

theorem yylex_comment_line (hx : LineStart x) (hy : '\n' ∉ y) :
    yylex (x ++ (slashes ++ y ++ '\n' :: z)) = yylex (x ++ z) := by
  rw [yylex_append hx, yylex_append hx]
  congr 1
  rw [yylex, scan_comment hy]
  rfl

/-- With one `ENDLINE` less the tokens are not the same. -/
theorem endline_lost {a l k q : Option (List Token)}
    (hok : (join a (join l (join (some [.ENDLINE]) q))).isSome = true) (hk : ∀ ts, k = some ts → .ENDLINE ∉ ts) :
    join a (join k q) ≠ join a (join l (join (some [.ENDLINE]) q)) := by
  intro heq
  obtain ⟨vs, hvs⟩ := Option.isSome_iff_exists.mp hok
  obtain ⟨as, ls, ha, hl, rfl⟩ := join_eq_some.mp hvs
  obtain ⟨ts, us, hts, hus, rfl⟩ := join_eq_some.mp hl
  obtain ⟨es, qs, hes, hq, rfl⟩ := join_eq_some.mp hus
  obtain ⟨as', ls', ha', hl', e⟩ := join_eq_some.mp (heq.trans hvs)
  obtain ⟨ks, qs', hks, hq', rfl⟩ := join_eq_some.mp hl'
  obtain rfl : as = as' := Option.some.inj (ha.symm.trans ha')
  obtain rfl : qs = qs' := Option.some.inj (hq.symm.trans hq')
  obtain rfl : [Token.ENDLINE] = es := Option.some.inj hes
  -- what stands before and behind the line is the same, so it has to be the line itself
  have hcount := congrArg (List.count Token.ENDLINE) (List.append_cancel_left e)
  have hnone := List.count_eq_zero_of_not_mem (hk ks hks)
  rw [List.count_append, List.count_append, List.count_append, hnone] at hcount
  have hone : List.count Token.ENDLINE [Token.ENDLINE] = 1 := by decide
  omega

/-- **Comments and the tokens of a program.** A comment on a line of its own is never seen. Put at
the end of a line that has tokens of its own it changes what is returned, unless there is
one on that line already. -/
theorem comments_keep_tokens_iff (pre line c post : List Char) (hpre : LineStart pre) (hline : '\n' ∉ line)
    (hc : '\n' ∉ c) (hok : (yylex (pre ++ (line ++ '\n' :: post))).isSome = true) :
    ((HasTokens line → yylex (pre ++ (line ++ (slashes ++ c) ++ '\n' :: post)) =
        yylex (pre ++ (line ++ '\n' :: post))) ∧
      ∀ x z, LineStart x → x ++ z = pre ++ (line ++ '\n' :: post) →
        yylex (x ++ (slashes ++ c ++ '\n' :: z)) = yylex (x ++ z)) ↔
      (HasTokens line → slashes <:+: line) := by
  have hsc : '\n' ∉ slashes ++ c := by simpa [slashes] using hc
  refine ⟨fun ⟨h, _⟩ htokens => ?_, fun h => ⟨fun htokens => ?_, fun x z hx _ => yylex_comment_line hx hc⟩⟩
  -- a line without a comment has its `ENDLINE`, and with the comment it has none
  · by_contra hbare
    have hlc : '\n' ∉ line ++ (slashes ++ c) := by simp [hline, hsc]
    have hin : slashes <:+: line ++ (slashes ++ c) := ⟨line, c, by simp⟩
    obtain ⟨y, hy, hall⟩ := yylex_commented hlc hin
    have hwith := hall [] post List.not_mem_nil
    rw [List.append_nil] at hwith
    have heq := h htokens
    rw [yylex_append hpre, yylex_append hpre, hwith, yylex_bare hbare] at heq
    rw [yylex_append hpre, yylex_bare hbare] at hok
    exact endline_lost hok (fun ts hts => endline_notMem hy hts) heq
  -- behind a comment nothing is seen anyway
  · obtain ⟨y, -, hall⟩ := yylex_commented hline (h htokens)
    have hnone := hall [] post List.not_mem_nil
    rw [List.append_nil] at hnone
    rw [yylex_append hpre, yylex_append hpre, hall _ _ hsc, hnone]

/-- `in a`, `x=a` and `final x`. -/
def header : List Char := ['i', 'n', ' ', 'a', '\n']
def assignment : List Char := ['x', '=', 'a']
def footer : List Char := ['f', 'i', 'n', 'a', 'l', ' ', 'x', '\n']

theorem comments_keep_tokens_iff_assignment :
    ((HasTokens assignment → yylex (header ++ (assignment ++ (slashes ++ ['c']) ++ '\n' :: footer)) =
        yylex (header ++ (assignment ++ '\n' :: footer))) ∧
      ∀ x z, LineStart x → x ++ z = header ++ (assignment ++ '\n' :: footer) →
        yylex (x ++ (slashes ++ ['c'] ++ '\n' :: z)) = yylex (x ++ z)) ↔
      (HasTokens assignment → slashes <:+: assignment) :=
  comments_keep_tokens_iff header assignment ['c'] footer (.inr rfl) (by decide) (by decide) (by decide +kernel)

/-- A comment after the assignment joins it to the line that follows. -/
theorem comment_after_statement : ¬ ∀ pre line c post : List Char, LineStart pre → '\n' ∉ line → '\n' ∉ c →
    (yylex (pre ++ (line ++ '\n' :: post))).isSome = true → HasTokens line →
    yylex (pre ++ (line ++ (slashes ++ c) ++ '\n' :: post)) = yylex (pre ++ (line ++ '\n' :: post)) := by
  intro h
  have htokens : HasTokens assignment :=
    ⟨[.ID ['x'], .ASSIGN, .ID ['a'], .ENDLINE], by decide +kernel, .ASSIGN, by decide, by decide⟩
  have heq := h header assignment ['c'] footer (.inr rfl) (by decide) (by decide) (by decide +kernel) htokens
  exact absurd heq (by decide +kernel)

end Ece566.P1Lex
