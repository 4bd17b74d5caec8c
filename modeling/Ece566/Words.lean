import Ece566.Flex

/- The password checker of the lectures (`words.lex`). Each rule but the first raises flags, and
   the newline has them looked at and taken back, so what is printed for a line depends on
   that line alone (`run_line`). A line of more than twenty characters is one match: the flags
   of its characters are not raised, only `more20`. -/
namespace Ece566.Words

open Flex

/-- `[#$%^&!_]`. -/
def isSpecial (c : Char) : Bool := ['#', '$', '%', '^', '&', '!', '_'].contains c

/-- `[^a-zA-Z0-9#$%^&!_]`. -/
def isArbitary (c : Char) : Bool := !(c.isLower || c.isUpper || c.isDigit || isSpecial c)

structure Flags where
  startsWithAlpha : Bool
  containsLowercase : Bool
  containsUppercase : Bool
  containsDigits : Bool
  containsSpecials : Bool
  containsArbitary : Bool
  more20 : Bool

def cleared : Flags := ⟨false, false, false, false, false, false, false⟩

def Flags.passwordValid (f : Flags) : Bool :=
  f.startsWithAlpha && f.containsLowercase && f.containsUppercase && f.containsDigits &&
    f.containsSpecials && !f.containsArbitary && !f.more20

/-- The flags, and what the two `printf` of each call of `check_valid_pword` wrote. -/
structure State where
  flags : Flags
  printed : List (String × String)

/-- What `%d` writes for a flag. -/
def digitOf (b : Bool) : String := if b then "1" else "0"

def Flags.report (f : Flags) : String :=
  "Start " ++ digitOf f.startsWithAlpha ++ ", L " ++ digitOf f.containsLowercase ++ ", U " ++
    digitOf f.containsUppercase ++ ", Num " ++ digitOf f.containsDigits ++ ", Sp " ++
    digitOf f.containsSpecials ++ ", Arb " ++ digitOf f.containsArbitary ++ ", >20 " ++ digitOf f.more20

def checkValidPword (s : State) : State :=
  ⟨cleared, s.printed ++ [(s.flags.report, if s.flags.passwordValid then "\nValid\n" else "\nnope\n")]⟩

inductive Action
  | check
  | startLower
  | startUpper
  | lower
  | upper
  | digits
  | specials
  | arbitary
  | more20
deriving DecidableEq

def Action.flags : Action → Flags → Flags
  | .check, f => f
  | .startLower, f => { f with startsWithAlpha := true, containsLowercase := true }
  | .startUpper, f => { f with startsWithAlpha := true, containsUppercase := true }
  | .lower, f => { f with containsLowercase := true }
  | .upper, f => { f with containsUppercase := true }
  | .digits, f => { f with containsDigits := true }
  | .specials, f => { f with containsSpecials := true }
  | .arbitary, f => { f with containsArbitary := true }
  | .more20, f => { f with more20 := true }

def run (s : State) (m : Lexeme Action) : State :=
  match m.action with
  | .check => checkValidPword s
  | a => { s with flags := a.flags s.flags }

/-- `^.{21,}$`. -/
def long : Rule Action := ⟨true, (Regex.cls fun c => c != '\n').atLeast 21, true, .more20⟩

def singles : List (Rule Action) :=
  [⟨false, .cls fun c => c == '\n', false, .check⟩,
    ⟨true, .cls Char.isLower, false, .startLower⟩,
    ⟨true, .cls Char.isUpper, false, .startUpper⟩,
    ⟨false, .cls Char.isLower, false, .lower⟩,
    ⟨false, .cls Char.isUpper, false, .upper⟩,
    ⟨false, .cls Char.isDigit, false, .digits⟩,
    ⟨false, .cls isSpecial, false, .specials⟩,
    ⟨false, .cls isArbitary, false, .arbitary⟩]

def rules : List (Rule Action) := singles ++ [long]

variable {bol : Bool} {c : Char} {l s w z : List Char} {st : State}

/-- The action for one character. -/
def kind (bol : Bool) (c : Char) : Action :=
  if c = '\n' then .check
  else if c.isLower then if bol then .startLower else .lower
  else if c.isUpper then if bol then .startUpper else .upper
  else if c.isDigit then .digits
  else if isSpecial c then .specials
  else .arbitary

theorem singles_total : ∀ ρ ∈ singles, ∀ n, ρ.total bol (c :: s) = some n → n = 1 := by
  intro ρ hρ n hn
  have hcls : ∃ b p a, ρ = ⟨b, .cls p, false, a⟩ := by
    simp only [singles, List.mem_cons, List.not_mem_nil, or_false] at hρ
    rcases hρ with rfl | rfl | rfl | rfl | rfl | rfl | rfl | rfl <;> exact ⟨_, _, _, rfl⟩
  obtain ⟨b, p, a, rfl⟩ := hcls
  rw [total_cls] at hn
  split at hn
  · exact (Option.some.inj hn).symm
  · cases hn

theorem singles_find? : ∃ ρ, singles.find? (fun ρ => (ρ.total bol (c :: s)).isSome) = some ρ ∧
    ρ.eol = false ∧ ρ.action = kind bol c := by
  simp only [singles, List.find?_cons, total_cls]
  unfold kind
  by_cases hnl : c = '\n'
  · simp [hnl]
  cases hl : c.isLower <;> cases hu : c.isUpper <;> cases hd : c.isDigit <;> cases hs : isSpecial c <;>
    cases bol <;> simp [hnl, isArbitary, hl, hu, hd, hs]

/-- Where the rule for long lines does not match. -/
theorem best_kind (h : long.total bol (c :: s) = none) :
    ∃ ρ, best rules bol (c :: s) = some (ρ, 1) ∧ ρ.consumed 1 = 1 ∧ ρ.action = kind bol c := by
  have hone : ∀ ρ ∈ rules, ∀ n, ρ.total bol (c :: s) = some n → n = 1 := by
    intro ρ hρ n hn
    rcases List.mem_append.mp hρ with hρ | hρ
    · exact singles_total ρ hρ n hn
    · rw [List.mem_singleton.mp hρ, h] at hn
      cases hn
  obtain ⟨ρ, hfind, heol, haction⟩ := @singles_find? bol c s
  refine ⟨ρ, ?_, ?_, haction⟩
  · rw [best_eq_find? hone, rules, List.find?_append, hfind]
    rfl
  · rw [Rule.consumed, heol]
    rfl

theorem mem_long : w ∈ long.whole.lang ↔ ∃ v, 21 ≤ v.length ∧ '\n' ∉ v ∧ w = v ++ ['\n'] := by
  refine Regex.mem_cat.trans ⟨?_, ?_⟩
  · intro ⟨v, hv, _, ⟨d, hd, rfl⟩, e⟩
    obtain ⟨hlen, hall⟩ := Regex.mem_atLeast.mp hv
    obtain rfl : d = '\n' := by simpa using hd
    exact ⟨v, hlen, fun hmem => by simpa using hall _ hmem, e.symm⟩
  · intro ⟨v, hlen, hv, e⟩
    refine ⟨v, Regex.mem_atLeast.mpr ⟨hlen, fun a ha => ?_⟩, ['\n'], ⟨'\n', rfl, rfl⟩, e.symm⟩
    have : a ≠ '\n' := fun h => hv (h ▸ ha)
    simpa using this

theorem long_takes (hl : '\n' ∉ l) (h : long.Takes bol (l ++ '\n' :: s) w) :
    w = l ++ ['\n'] ∧ 21 ≤ l.length := by
  obtain ⟨-, hmem, t, ht⟩ := h
  obtain ⟨v, hlen, hv, rfl⟩ := mem_long.mp hmem
  rw [List.append_assoc] at ht
  obtain rfl := line_unique hv hl ht
  exact ⟨rfl, hlen⟩

/-- Not at the beginning of a line, nor in a line that has no end or is short. -/
theorem long_total_none (h : bol = false ∨ '\n' ∉ s ∨ ∃ l z, s = l ++ '\n' :: z ∧ '\n' ∉ l ∧ l.length ≤ 20) :
    long.total bol s = none := by
  refine total_eq_none fun w hw => ?_
  rcases h with rfl | hs | ⟨l, z, rfl, hl, hlen⟩
  · cases hw.line rfl
  · obtain ⟨v, -, -, rfl⟩ := mem_long.mp hw.mem
    exact hs (hw.here.subset (List.mem_append_right v List.mem_cons_self))
  · have := (long_takes hl hw).2
    omega

theorem long_total (hl : '\n' ∉ l) (hlen : 21 ≤ l.length) :
    long.total true (l ++ '\n' :: s) = some (l.length + 1) := by
  have htakes : long.Takes true (l ++ '\n' :: s) (l ++ ['\n']) :=
    ⟨fun _ => rfl, mem_long.mpr ⟨l, hlen, hl, rfl⟩, s, by rw [List.append_assoc]; rfl⟩
  rw [total_eq_some htakes fun v hv => by rw [(long_takes hl hv).1], List.length_append]
  rfl

theorem best_long (hl : '\n' ∉ l) (hlen : 21 ≤ l.length) :
    best rules true (l ++ '\n' :: s) = some (long, l.length + 1) := by
  obtain ⟨c, l', rfl⟩ := List.exists_cons_of_length_pos (show 0 < l.length by omega)
  refine best_append_cons (long_total hl hlen) (fun ρ hρ n hn => ?_) fun ρ hρ => absurd hρ List.not_mem_nil
  rw [singles_total ρ hρ n hn]
  omega

def scanner : Scanner Action where
  rules := rules
  covers bol c s := by
    obtain ⟨ρ, hfind, -⟩ := @singles_find? bol c s
    have htotal : (ρ.total bol (c :: s)).isSome = true := by simpa using List.find?_some hfind
    obtain ⟨n, hn⟩ := Option.isSome_iff_exists.mp htotal
    exact best_isSome (List.mem_append_left _ (List.mem_of_find?_eq_some hfind)) hn
  advances := by
    intro ρ hρ
    simp only [rules, singles, List.cons_append, List.nil_append, List.mem_cons, List.not_mem_nil, or_false] at hρ
    rcases hρ with rfl | rfl | rfl | rfl | rfl | rfl | rfl | rfl | rfl <;> rfl

/-- The scanner run on a text, from its beginning. -/
def yylex (text : List Char) : State := (scanner.scan true text).foldl run ⟨cleared, []⟩

theorem scan_kind (h : long.total bol (c :: s) = none) :
    scanner.scan bol (c :: s) = ⟨kind bol c, [c]⟩ :: scanner.scan (c == '\n') s := by
  obtain ⟨ρ, hbest, hone, haction⟩ := best_kind h
  have hbest : best scanner.rules bol (c :: s) = some (ρ, 1) := hbest
  rw [Scanner.scan_cons hbest, hone, haction]
  rfl

theorem scan_rest (hl : '\n' ∉ l) : scanner.scan false (l ++ z) =
    l.map (fun c => ⟨kind false c, [c]⟩) ++ scanner.scan false z := by
  induction l with
  | nil => rfl
  | cons c l ih =>
    rw [List.mem_cons, not_or] at hl
    have hc : (c == '\n') = false := by simpa using Ne.symm hl.1
    rw [List.cons_append, scan_kind (long_total_none (.inl rfl)), hc, ih hl.2]
    rfl

theorem scan_check : scanner.scan bol ('\n' :: s) = ⟨.check, ['\n']⟩ :: scanner.scan true s :=
  scan_kind (long_total_none (.inr (.inr ⟨[], s, rfl, List.not_mem_nil, Nat.zero_le _⟩)))

/-! The classes of characters have none in common. -/

theorem isLower_iff : c.isLower = true ↔ 97 ≤ c.toNat ∧ c.toNat ≤ 122 := by
  simp [Char.isLower, UInt32.le_iff_toNat_le, ← Char.toNat_val]

theorem isUpper_iff : c.isUpper = true ↔ 65 ≤ c.toNat ∧ c.toNat ≤ 90 := by
  simp [Char.isUpper, UInt32.le_iff_toNat_le, ← Char.toNat_val]

theorem isDigit_iff : c.isDigit = true ↔ 48 ≤ c.toNat ∧ c.toNat ≤ 57 := by
  simp [Char.isDigit, UInt32.le_iff_toNat_le, ← Char.toNat_val]

theorem isLower_not (h : c.isLower = true) : c.isUpper = false ∧ c.isDigit = false := by
  have hl := isLower_iff.mp h
  refine ⟨?_, ?_⟩
  · rw [← Bool.not_eq_true, isUpper_iff]
    omega
  · rw [← Bool.not_eq_true, isDigit_iff]
    omega

theorem isUpper_not (h : c.isUpper = true) : c.isDigit = false := by
  have hu := isUpper_iff.mp h
  rw [← Bool.not_eq_true, isDigit_iff]
  omega

theorem isSpecial_not (h : isSpecial c = true) : c.isLower = false ∧ c.isUpper = false ∧ c.isDigit = false := by
  simp only [isSpecial, List.contains_iff_mem, List.mem_cons, List.not_mem_nil, or_false] at h
  rcases h with rfl | rfl | rfl | rfl | rfl | rfl | rfl <;> decide

/-! What a line raises. -/

/-- When it is read a character at a time. -/
def lineFlags (l : List Char) : Flags :=
  ⟨(l.head?.map Char.isAlpha).getD false, l.any Char.isLower, l.any Char.isUpper, l.any Char.isDigit,
    l.any isSpecial, l.any isArbitary, false⟩

def Flags.add (f : Flags) (l : List Char) : Flags :=
  ⟨f.startsWithAlpha, f.containsLowercase || l.any Char.isLower, f.containsUppercase || l.any Char.isUpper,
    f.containsDigits || l.any Char.isDigit, f.containsSpecials || l.any isSpecial,
    f.containsArbitary || l.any isArbitary, f.more20⟩

theorem Flags.add_nil {f : Flags} : f.add [] = f := by simp [Flags.add]

theorem Flags.add_cons {f : Flags} : f.add (c :: l) = (f.add [c]).add l := by
  simp [Flags.add, Bool.or_assoc]

theorem lineFlags_cons : lineFlags (c :: l) = (lineFlags [c]).add l := by
  simp [lineFlags, Flags.add]

theorem kind_flags {f : Flags} (hc : c ≠ '\n') : (kind false c).flags f = f.add [c] := by
  have h₁ := @isLower_not c
  have h₂ := @isUpper_not c
  have h₃ := @isSpecial_not c
  cases hl : c.isLower <;> cases hu : c.isUpper <;> cases hd : c.isDigit <;> cases hs : isSpecial c <;>
    simp_all [kind, Action.flags, Flags.add, isArbitary]

/-- The first character of a line. -/
theorem kind_start (hc : c ≠ '\n') : (kind true c).flags cleared = lineFlags [c] := by
  have h₁ := @isLower_not c
  have h₂ := @isUpper_not c
  have h₃ := @isSpecial_not c
  cases hl : c.isLower <;> cases hu : c.isUpper <;> cases hd : c.isDigit <;> cases hs : isSpecial c <;>
    simp_all [kind, Action.flags, lineFlags, cleared, isArbitary, Char.isAlpha]

theorem run_kind {f : Flags} {p : List (String × String)} (hc : c ≠ '\n') :
    run ⟨f, p⟩ ⟨kind bol c, [c]⟩ = ⟨(kind bol c).flags f, p⟩ := by
  unfold kind
  rw [if_neg hc]
  split
  · cases bol <;> rfl
  split
  · cases bol <;> rfl
  split
  · rfl
  split <;> rfl

theorem run_rest {f : Flags} {p : List (String × String)} (hl : '\n' ∉ l) :
    (l.map fun c => (⟨kind false c, [c]⟩ : Lexeme Action)).foldl run ⟨f, p⟩ = ⟨f.add l, p⟩ := by
  induction l generalizing f with
  | nil => rw [Flags.add_nil]; rfl
  | cons c l ih =>
    rw [List.mem_cons, not_or] at hl
    rw [List.map_cons, List.foldl_cons, run_kind (Ne.symm hl.1), kind_flags (Ne.symm hl.1), ih hl.2,
      ← Flags.add_cons]

/-- A line of at most twenty characters. -/
theorem run_short {p : List (String × String)} (hl : '\n' ∉ l) (hlen : l.length ≤ 20) :
    (scanner.scan true (l ++ '\n' :: s)).foldl run ⟨cleared, p⟩ =
      (scanner.scan true s).foldl run (checkValidPword ⟨lineFlags l, p⟩) := by
  cases l with
  | nil => rw [List.nil_append, scan_check]; rfl
  | cons c l =>
    have hlong : long.total true (c :: (l ++ '\n' :: s)) = none :=
      long_total_none (.inr (.inr ⟨c :: l, s, rfl, hl, hlen⟩))
    rw [List.mem_cons, not_or] at hl
    have hc : (c == '\n') = false := by simpa using Ne.symm hl.1
    rw [List.cons_append, scan_kind hlong, hc, scan_rest hl.2, scan_check, List.foldl_cons, List.foldl_append,
      run_kind (Ne.symm hl.1), kind_start (Ne.symm hl.1), run_rest hl.2, ← lineFlags_cons]
    rfl

/-- A longer one. -/
theorem run_long {p : List (String × String)} (hl : '\n' ∉ l) (hlen : 21 ≤ l.length) :
    (scanner.scan true (l ++ '\n' :: s)).foldl run ⟨cleared, p⟩ =
      (scanner.scan true s).foldl run (checkValidPword ⟨{ cleared with more20 := true }, p⟩) := by
  have hbest := @best_long l s hl hlen
  -- the match takes the line and leaves its newline, which is then not at the beginning of a line
  have hafter : after true l = false := by
    rw [after]
    cases hlast : l.getLast? with
    | none => rw [List.getLast?_eq_none_iff.mp hlast] at hlen; cases hlen
    | some d =>
      have : d ≠ '\n' := fun e => hl (e ▸ List.mem_of_getLast? hlast)
      simpa using this
  obtain ⟨c, l', rfl⟩ := List.exists_cons_of_length_pos (show 0 < l.length by omega)
  have hbest : best scanner.rules true (c :: (l' ++ '\n' :: s)) = some (long, (c :: l').length + 1) := hbest
  have hconsumed : long.consumed ((c :: l').length + 1) = (c :: l').length := rfl
  rw [List.cons_append, Scanner.scan_cons hbest, hconsumed, ← List.cons_append, List.take_left, List.drop_left,
    hafter, scan_check]
  rfl

/-- One rule calls `check_valid_pword`. -/
theorem check_pattern {ρ : Rule Action} (hρ : ρ ∈ rules) (haction : ρ.action = .check) :
    ρ.pattern = .cls fun c => c == '\n' := by
  simp only [rules, singles, List.cons_append, List.nil_append, List.mem_cons, List.not_mem_nil, or_false] at hρ
  rcases hρ with rfl | rfl | rfl | rfl | rfl | rfl | rfl | rfl | rfl
  · rfl
  all_goals cases haction

/-- Without a newline nothing is printed. -/
theorem run_unended (hs : '\n' ∉ s) : ((scanner.scan bol s).foldl run st).printed = st.printed := by
  have hno : ∀ m ∈ scanner.scan bol s, m.action ≠ .check := by
    intro m hm e
    obtain ⟨ρ, hρ, haction, hmem, hin⟩ := Scanner.scan_sound m hm
    rw [check_pattern hρ (haction.symm.trans e)] at hmem
    obtain ⟨c, hc, htext⟩ := hmem
    obtain rfl : c = '\n' := by simpa using hc
    exact hs (hin.subset (htext ▸ List.mem_cons_self))
  generalize scanner.scan bol s = ms at hno
  induction ms generalizing st with
  | nil => rfl
  | cons m ms ih =>
    rw [List.foldl_cons, ih fun m hm => hno m (List.mem_cons_of_mem _ hm)]
    have := hno m List.mem_cons_self
    unfold run
    split
    · exact absurd ‹_› this
    · rfl

/-! The policy. -/

/-- What a password has to be. -/
structure Policy (l : List Char) : Prop where
  starts : ∃ c, l.head? = some c ∧ c.isAlpha = true
  short : l.length ≤ 20
  lower : ∃ c ∈ l, c.isLower = true
  upper : ∃ c ∈ l, c.isUpper = true
  digit : ∃ c ∈ l, c.isDigit = true
  special : ∃ c ∈ l, isSpecial c = true
  only : ∀ c ∈ l, c.isLower = true ∨ c.isUpper = true ∨ c.isDigit = true ∨ isSpecial c = true

theorem passwordValid_iff (hlen : l.length ≤ 20) : (lineFlags l).passwordValid = true ↔ Policy l := by
  have honly : l.any isArbitary = false ↔
      ∀ c ∈ l, c.isLower = true ∨ c.isUpper = true ∨ c.isDigit = true ∨ isSpecial c = true := by
    simp only [List.any_eq_false, isArbitary, Bool.not_eq_true, Bool.not_eq_false', Bool.or_eq_true, or_assoc]
  have hstarts : (l.head?.map Char.isAlpha).getD false = true ↔ ∃ c, l.head? = some c ∧ c.isAlpha = true := by
    cases l.head? <;> simp
  simp only [Flags.passwordValid, lineFlags, Bool.and_eq_true, Bool.not_eq_true', Bool.not_false, and_true,
    List.any_eq_true, honly, hstarts]
  refine ⟨?_, ?_⟩
  · intro ⟨⟨⟨⟨⟨h₁, h₂⟩, h₃⟩, h₄⟩, h₅⟩, h₆⟩
    exact ⟨h₁, hlen, h₂, h₃, h₄, h₅, h₆⟩
  · intro ⟨h₁, _, h₂, h₃, h₄, h₅, h₆⟩
    exact ⟨⟨⟨⟨⟨h₁, h₂⟩, h₃⟩, h₄⟩, h₅⟩, h₆⟩

instance : DecidablePred Policy := fun l =>
  if hlen : l.length ≤ 20 then decidable_of_iff _ (passwordValid_iff hlen)
  else isFalse fun h => hlen h.short

def verdict (l : List Char) : String := if Policy l then "\nValid\n" else "\nnope\n"

/-- What is printed for a line, and that the flags are taken back. -/
theorem run_line {p : List (String × String)} (hl : '\n' ∉ l) :
    ∃ report, (scanner.scan true (l ++ '\n' :: s)).foldl run ⟨cleared, p⟩ =
      (scanner.scan true s).foldl run ⟨cleared, p ++ [(report, verdict l)]⟩ := by
  by_cases hlen : l.length ≤ 20
  · refine ⟨(lineFlags l).report, ?_⟩
    simp only [run_short hl hlen, checkValidPword, passwordValid_iff hlen]
    rfl
  · refine ⟨({ cleared with more20 := true } : Flags).report, ?_⟩
    have hnot : ¬ Policy l := fun h => hlen h.short
    rw [run_long hl (by omega), verdict, if_neg hnot]
    rfl

theorem run_text (text : List Char) : ∀ {p : List (String × String)},
    (((scanner.scan true text).foldl run ⟨cleared, p⟩).printed.map Prod.snd) =
      p.map Prod.snd ++ (text.splitOn '\n').dropLast.map verdict := by
  induction hn : text.length using Nat.strong_induction_on generalizing text with
  | h n ih =>
    intro p
    -- the text behind the last newline prints nothing
    by_cases hmem : '\n' ∈ text
    · obtain ⟨l, s, rfl, hl⟩ := List.eq_append_cons_of_mem hmem
      obtain ⟨report, hrun⟩ := @run_line l s p hl
      have hsplit : (l ++ '\n' :: s).splitOn '\n' = l :: s.splitOn '\n' :=
        List.splitOn_append_cons_self_of_not_mem hl s
      have hlen : s.length < n := by
        rw [← hn, List.length_append, List.length_cons]
        omega
      rw [hrun, ih s.length hlen s rfl, hsplit, List.dropLast_cons_of_ne_nil (List.splitOn_ne_nil _ _)]
      simp
    · rw [run_unended hmem, List.splitOn_eq_singleton hmem]
      simp

/-- **The checker prints its verdict on each line that has an end**, in order: `Valid` where the line
is what the policy asks for, whatever the lines before it were. -/
theorem yylex_verdicts (text : List Char) :
    (yylex text).printed.map Prod.snd = (text.splitOn '\n').dropLast.map verdict := by
  rw [yylex, run_text]
  rfl

end Ece566.Words
