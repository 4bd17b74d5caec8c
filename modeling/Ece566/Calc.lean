import Ece566.Precedence
import Ece566.StraightLine

/- The two calculators of the lectures. The one of `Parser` (`calc.y`) evaluates each line as it is
   parsed and prints its value; the one of `SDT` knows sums and differences only, emits
   code for each line as it is parsed, and the function it builds returns the value of the
   last one. The scanner returns an `int`, and so does each operation of the first; an
   overflow has no defined value. The second extends a number to 64 bits and computes with
   these.

   The level of `MINUS expr` is that of its operator, so a minus sign before a product is applied
   to the product. -/
namespace Ece566.Calc

open Precedence StraightLine

inductive Token where
  | NUMBER (num : BitVec 32)
  | PLUS | MINUS | MULTIPLY | DIVIDE | LPAREN | RPAREN | NEWLINE | DONE
  deriving DecidableEq, Repr

inductive Sign where
  | plus | minus | multiply | divide
  deriving DecidableEq, Repr

abbrev Expr := Tree (BitVec 32) Sign Unit

def classify : Token → Precedence.Token (BitVec 32) Sign Unit
  | .NUMBER n => .atom n
  | .PLUS => .op .plus
  | .MINUS => .op .minus
  | .MULTIPLY => .op .multiply
  | .DIVIDE => .op .divide
  | .LPAREN => .opening ()
  | .RPAREN => .closing ()
  | .NEWLINE | .DONE => .other

def token : Precedence.Token (BitVec 32) Sign Unit → Token
  | .atom n => .NUMBER n
  | .op .plus => .PLUS
  | .op .minus => .MINUS
  | .op .multiply => .MULTIPLY
  | .op .divide => .DIVIDE
  | .opening () => .LPAREN
  | .closing () => .RPAREN
  | .other => .DONE

/-- `%left PLUS MINUS`, then `%left MULTIPLY DIVIDE`. -/
def operators : Operators Sign where
  binary _ := true
  unary o := o == .minus
  level
    | .plus | .minus => 0
    | .multiply | .divide => 1

/-- The operators of `SDT`: `%left PLUS MINUS`. -/
def sums : Operators Sign where
  binary o := o == .plus || o == .minus
  unary o := o == .minus
  level _ := 0

/-- A line: the tokens of an expression, and `NEWLINE`. -/
def line (e : Expr) : List Token := e.yield.map token ++ [.NEWLINE]

theorem classify_token (k : Precedence.Token (BitVec 32) Sign Unit) : classify (token k) = k := by
  match k with
  | .atom _ | .op .plus | .op .minus | .op .multiply | .op .divide | .opening () | .closing ()
  | .other => rfl

theorem token_classify {x : Token} (h : classify x ≠ .other) : token (classify x) = x := by
  cases x with
  | NEWLINE | DONE => exact absurd rfl h
  | _ => rfl

/-! The calculator of `Parser`. -/

/-- What is printed: the value of a line, where it has one, or a message. -/
inductive Out where
  | value (v : Option Int)
  | divideByZero
  | syntaxError
  deriving DecidableEq, Repr

/-- The `int` of this value, if there is one. -/
def toInt (x : Int) : Option Int := if -2 ^ 31 ≤ x ∧ x < 2 ^ 31 then some x else none

def printf (o : Out) : StateM (List Out) Unit := modify fun out => out ++ [o]

/-- `if ($3 != 0) $$ = $1 / $3; else …`. -/
def divide (a b : Option Int) : StateM (List Out) (Option Int) :=
  match b with
  | none => return none
  | some y =>
    if y ≠ 0 then return (do toInt (Int.tdiv (← a) y))
    else do
      printf .divideByZero
      return some 0

def interpreting : Actions (BitVec 32) Sign Unit (Option Int) (StateM (List Out)) where
  atom n := return some n.toInt
  binary
    | .plus, a, b => return (do toInt ((← a) + (← b)))
    | .minus, a, b => return (do toInt ((← a) - (← b)))
    | .multiply, a, b => return (do toInt ((← a) * (← b)))
    | .divide, a, b => divide a b
  unary _ a := return (do toInt (- (← a)))
  bracket _ a := return a

/-- `expr_list`, after a first line or not; whether all of the text was one. -/
def exprList : Nat → List Token → StateM (List Out) Bool
  | 0, _ => return false
  | _ + 1, [] => return true
  | fuel + 1, .NEWLINE :: ts => exprList fuel ts
  | fuel + 1, ts => do
    match ← parseTo operators interpreting classify .NEWLINE ts with
    | some (v, rest) => do
      printf (.value v)
      exprList fuel rest
    | none => do
      printf .syntaxError
      return false

/-- `yyparse`, and what has been printed. An empty text is no `expr_list`. -/
def interpret (ts : List Token) : Bool × List Out :=
  if ts = [] then (false, [.syntaxError]) else (exprList (ts.length + 1) ts).run []

/-! The meaning of a line. -/

/-- The value by the rules of `int`, which has none where an operation overflows. -/
def eval : Expr → Option Int
  | .atom n => some n.toInt
  | .binary .plus l r => do toInt ((← eval l) + (← eval r))
  | .binary .minus l r => do toInt ((← eval l) - (← eval r))
  | .binary .multiply l r => do toInt ((← eval l) * (← eval r))
  | .binary .divide l r => do
    let y ← eval r
    if y = 0 then return 0 else toInt (Int.tdiv (← eval l) y)
  | .unary _ e => do toInt (- (← eval e))
  | .bracket _ e => eval e

/-- A message for each division by zero. -/
def messages : Expr → List Out
  | .atom _ => []
  | .binary .divide l r => messages l ++ messages r ++ if eval r = some 0 then [.divideByZero] else []
  | .binary _ l r => messages l ++ messages r
  | .unary _ e | .bracket _ e => messages e

/-- What is printed for a line. -/
def printed (e : Expr) : List Out := messages e ++ [.value (eval e)]

/-- The value without bounds, of sums and differences. -/
def sum : Expr → Int
  | .atom n => n.toInt
  | .binary .plus l r => sum l + sum r
  | .binary _ l r => sum l - sum r
  | .unary _ e => - sum e
  | .bracket _ e => sum e

/-! The calculator of `SDT`. -/

def emitting : Actions (BitVec 32) Sign Unit (Value 64) (StateM (Block 64)) where
  atom n := return .const (n.signExtend 64)
  binary
    | .plus, a, b => createAdd a b
    | _, a, b => createSub a b
  unary _ a := createNeg a
  bracket _ a := return a

/-- `program`: lines up to `DONE`, the value of the last of them being `last`. -/
def program : Nat → Option (Value 64) → List Token → StateM (Block 64) (Option (Value 64))
  | 0, _, _ => return none
  | _ + 1, some v, .DONE :: _ => return some v
  | fuel + 1, _, ts => do
    match ← parseTo sums emitting classify .NEWLINE ts with
    | some (v, rest) => program fuel (some v) rest
    | none => return none

/-- The value that is returned, and the block. -/
def compile (ts : List Token) : Option (Value 64) × Block 64 := (program (ts.length + 1) none ts).run []

/-! Lines, in both. -/

variable {e : Expr} {es : List Expr} {ts rest : List Token} {out out' : List Out} {v : Option Int}
variable {O : Operators Sign} {V σ : Type} {st st' : σ}

theorem line_eq {pre : List Token} (h : pre.map classify = e.yield) : pre ++ .NEWLINE :: rest = line e ++ rest := by
  have hpre : pre = e.yield.map token := by
    rw [← h, List.map_map]
    refine ((List.map_congr_left fun x hx => ?_).trans (List.map_id _)).symm
    refine token_classify fun hother => other_not_mem e ?_
    rw [← h, ← hother]
    exact List.mem_map_of_mem hx
  rw [line, hpre, List.append_assoc]
  rfl

theorem parseTo_line {acts : Actions (BitVec 32) Sign Unit V (StateM σ)} {r : V} :
    (parseTo O acts classify .NEWLINE ts).run st = (some (r, rest), st') ↔
      ∃ e : Expr, e.Fits O ∧ ts = line e ++ rest ∧ (e.run acts).run st = (r, st') := by
  rw [parseTo_iff fun o h => by cases h]
  constructor
  · rintro ⟨e, pre, he, hpre, rfl, hrun⟩
    exact ⟨e, he, line_eq hpre, hrun⟩
  · rintro ⟨e, he, rfl, hrun⟩
    have hpre : (e.yield.map token).map classify = e.yield := by
      rw [List.map_map]
      exact (List.map_congr_left fun k _ => classify_token k).trans (List.map_id _)
    exact ⟨e, e.yield.map token, he, hpre, (line_eq hpre).symm, hrun⟩

/-- A line is not empty, and begins with no `NEWLINE` and no `DONE`. -/
theorem line_head (e : Expr) (rest : List Token) :
    ∃ x ts, line e ++ rest = x :: ts ∧ x ≠ .NEWLINE ∧ x ≠ .DONE ∧ rest.length ≤ ts.length := by
  have hne : e.yield ≠ [] := by
    cases e <;> simp [Tree.yield]
  obtain ⟨k, ks, hk⟩ := List.exists_cons_of_ne_nil hne
  have hother : k ≠ .other := fun h => other_not_mem e (by rw [hk, h]; exact List.mem_cons_self)
  refine ⟨token k, ks.map token ++ .NEWLINE :: rest, by simp [line, hk], fun h => ?_, fun h => ?_, ?_⟩
  · exact hother (by rw [← classify_token k, h]; rfl)
  · exact hother (by rw [← classify_token k, h]; rfl)
  · rw [List.length_append, List.length_cons]
    omega

/-! The first calculator prints the values. -/

theorem run_divide (a b : Option Int) (out : List Out) : (divide a b).run out =
    (do let y ← b; if y = 0 then return 0 else toInt (Int.tdiv (← a) y),
      out ++ if b = some 0 then [.divideByZero] else []) := by
  cases b with
  | none => exact Prod.ext rfl (List.append_nil out).symm
  | some y =>
    by_cases hy : y = 0
    · subst hy
      rfl
    · have hb : some y ≠ some 0 := fun h => hy (Option.some.inj h)
      rw [divide, if_pos hy, if_neg hb, List.append_nil]
      exact Prod.ext (if_neg hy).symm rfl

theorem run_interpreting (e : Expr) : ∀ out : List Out,
    (e.run interpreting).run out = (eval e, out ++ messages e) := by
  induction e with
  | atom n =>
    intro out
    rw [messages, List.append_nil]
    rfl
  | binary o l r ihl ihr =>
    intro out
    have hrun : ((Tree.binary o l r).run interpreting).run out =
        (interpreting.binary o (eval l) (eval r)).run (out ++ messages l ++ messages r) := by
      rw [Tree.run, StateT.run_bind, ihl]
      show ((r.run interpreting >>= fun y => interpreting.binary o (eval l) y).run _) = _
      rw [StateT.run_bind, ihr]
      rfl
    rw [hrun]
    cases o with
    | divide =>
      rw [messages, ← List.append_assoc, ← List.append_assoc]
      exact run_divide (eval l) (eval r) _
    | _ =>
      rw [messages, ← List.append_assoc]
      · rfl
      · simp
  | unary o e ih =>
    intro out
    rw [Tree.run, StateT.run_bind, ih]
    rfl
  | bracket k e ih =>
    intro out
    rw [Tree.run, StateT.run_bind, ih]
    rfl

/-- A line of the first calculator; it may be empty. -/
def lineTokens : Option Expr → List Token
  | none => [.NEWLINE]
  | some e => line e

def lineOut : Option Expr → List Out
  | none => []
  | some e => printed e

/-- A line that is not empty, with what it prints. -/
theorem exprList_line {fuel : Nat} {x : Token} (hx : x ≠ .NEWLINE) :
    exprList (fuel + 1) (x :: ts) = do
      match ← parseTo operators interpreting classify .NEWLINE (x :: ts) with
      | some (v, rest) => do
        printf (.value v)
        exprList fuel rest
      | none => do
        printf .syntaxError
        return false := by
  rw [exprList]
  · exact fun h => by cases h
  · exact fun _ h => hx (List.cons.inj h).1

/-- What is accepted is lines. -/
theorem exprList_sound (fuel : Nat) : ∀ {ts : List Token} {out : List Out},
    (exprList fuel ts).run out = (true, out') → ∃ lines : List (Option Expr),
      (∀ e, some e ∈ lines → e.Fits operators) ∧ ts = lines.flatMap lineTokens ∧
        out' = out ++ lines.flatMap lineOut := by
  induction fuel with
  | zero =>
    intro ts out h
    cases h
  | succ fuel ih =>
    intro ts out h
    cases ts with
    | nil =>
      rw [exprList] at h
      cases h
      exact ⟨[], by simp, rfl, by simp⟩
    | cons x ts =>
      by_cases hx : x = .NEWLINE
      · subst hx
        rw [exprList] at h
        obtain ⟨lines, hfits, rfl, rfl⟩ := ih h
        exact ⟨none :: lines, by simpa using hfits, rfl, rfl⟩
      · rw [exprList_line hx, StateT.run_bind] at h
        generalize hp : (parseTo operators interpreting classify .NEWLINE (x :: ts)).run out = q at h
        obtain ⟨_ | ⟨v, rest⟩, out₁⟩ := q
        · cases h
        · obtain ⟨e, he, hts, hrun⟩ := parseTo_line.mp hp
          rw [run_interpreting] at hrun
          obtain ⟨rfl, rfl⟩ := Prod.mk.inj hrun
          obtain ⟨lines, hfits, rfl, rfl⟩ := ih h
          refine ⟨some e :: lines, ?_, hts, ?_⟩
          · intro e' he'
            rcases List.mem_cons.mp he' with heq | hmem
            · obtain rfl := Option.some.inj heq
              exact he
            · exact hfits e' hmem
          · simp [lineOut, printed]

/-- Lines are accepted, and what they print is printed. -/
theorem exprList_lines (lines : List (Option Expr)) : ∀ {fuel : Nat} {out : List Out},
    (∀ e, some e ∈ lines → e.Fits operators) → (lines.flatMap lineTokens).length < fuel →
      (exprList fuel (lines.flatMap lineTokens)).run out = (true, out ++ lines.flatMap lineOut) := by
  induction lines with
  | nil =>
    intro fuel out _ hlen
    obtain ⟨fuel, rfl⟩ := Nat.exists_eq_succ_of_ne_zero (Nat.ne_of_gt hlen)
    rw [List.flatMap_nil, exprList, List.flatMap_nil, List.append_nil]
    rfl
  | cons l lines ih =>
    intro fuel out hfits hlen
    obtain ⟨fuel, rfl⟩ := Nat.exists_eq_succ_of_ne_zero (Nat.ne_of_gt (Nat.zero_lt_of_lt hlen))
    have hfits' : ∀ e, some e ∈ lines → e.Fits operators := fun e he =>
      hfits e (List.mem_cons_of_mem _ he)
    cases l with
    | none =>
      have hlen' : (lines.flatMap lineTokens).length < fuel := Nat.lt_of_succ_lt_succ hlen
      rw [List.flatMap_cons, lineTokens, List.singleton_append, exprList]
      exact ih hfits' hlen'
    | some e =>
      obtain ⟨x, ts, hts, hx, -, hle⟩ := line_head e (lines.flatMap lineTokens)
      have hparse : (parseTo operators interpreting classify .NEWLINE (x :: ts)).run out =
          (some (eval e, lines.flatMap lineTokens), out ++ messages e) :=
        parseTo_line.mpr ⟨e, hfits e List.mem_cons_self, hts.symm, run_interpreting e out⟩
      rw [List.flatMap_cons, lineTokens, hts, List.length_cons] at hlen
      rw [List.flatMap_cons, lineTokens, hts, exprList_line hx, StateT.run_bind, hparse]
      refine (ih hfits' (by omega)).trans ?_
      simp [lineOut, printed]

theorem lineTokens_ne_nil (l : Option Expr) : lineTokens l ≠ [] := by
  cases l with
  | none => simp [lineTokens]
  | some e => simp [lineTokens, line]

theorem interpret_lines {lines : List (Option Expr)} (hne : lines ≠ [])
    (hfits : ∀ e, some e ∈ lines → e.Fits operators) :
    interpret (lines.flatMap lineTokens) = (true, lines.flatMap lineOut) := by
  have hts : lines.flatMap lineTokens ≠ [] := by
    obtain ⟨l, lines, rfl⟩ := List.exists_cons_of_ne_nil hne
    rw [List.flatMap_cons]
    exact fun h => lineTokens_ne_nil l (List.append_eq_nil_iff.mp h).1
  rw [interpret, if_neg hts]
  exact exprList_lines lines hfits (Nat.lt_succ_self _)

/-- **The first calculator** accepts lines of expressions that fit, and empty ones, and prints the
value of each expression after a message for each of its divisions by zero. -/
theorem interpret_iff : interpret ts = (true, out) ↔ ∃ lines : List (Option Expr), lines ≠ [] ∧
    (∀ e, some e ∈ lines → e.Fits operators) ∧ ts = lines.flatMap lineTokens ∧
      out = lines.flatMap lineOut := by
  constructor
  · intro h
    rw [interpret] at h
    split at h
    · cases h
    · rename_i hts
      obtain ⟨lines, hfits, rfl, rfl⟩ := exprList_sound _ h
      refine ⟨lines, ?_, hfits, rfl, List.nil_append _⟩
      rintro rfl
      exact hts rfl
  · rintro ⟨lines, hne, hfits, rfl, rfl⟩
    exact interpret_lines hne hfits

/-! The second calculator builds the value of the last line. -/

variable {mem : BitVec 64 → BitVec 64} {block block' : Block 64} {x : BitVec 64}

theorem emitting_makes (e : Expr) : ∀ {block : Block 64}, Runs mem block →
    Makes mem block ((e.run emitting).run block) (BitVec.ofInt 64 (sum e)) := by
  induction e with
  | atom n => exact fun h => const_makes h (n.signExtend 64)
  | binary o l r ihl ihr =>
    intro block h
    have hl := ihl h
    have hr := ihr hl.means.runs
    have hmeans := hl.means.grow hr.toGrows
    have hadd := createAdd_makes hmeans hr.means
    have hsub := createSub_makes hmeans hr.means
    rw [← BitVec.ofInt_add] at hadd
    rw [BitVec.sub_eq_add_neg, ← BitVec.ofInt_neg, ← BitVec.ofInt_add, ← Int.sub_eq_add_neg] at hsub
    rw [Tree.run]
    cases o with
    | plus => exact ⟨(hl.toGrows.trans hr.toGrows).trans hadd.toGrows, hadd.means⟩
    | _ => exact ⟨(hl.toGrows.trans hr.toGrows).trans hsub.toGrows, hsub.means⟩
  | unary o e ih =>
    intro block h
    have he := ih h
    have hneg := createNeg_makes he.means
    rw [← BitVec.ofInt_neg] at hneg
    exact ⟨he.toGrows.trans hneg.toGrows, hneg.means⟩
  | bracket k e ih => exact fun h => ih h

/-- The actions of the lines. -/
def actLines : Option (Value 64) → List Expr → StateM (Block 64) (Option (Value 64))
  | last, [] => return last
  | _, e :: es => do
    let v ← e.run emitting
    actLines (some v) es

theorem program_line {fuel : Nat} {last : Option (Value 64)} (h : ts.head? ≠ some .DONE ∨ last = none) :
    program (fuel + 1) last ts = do
      match ← parseTo sums emitting classify .NEWLINE ts with
      | some (v, rest) => program fuel (some v) rest
      | none => return none := by
  rw [program]
  rintro v ts' rfl rfl
  exact h.elim (fun h => h rfl) fun h => by cases h

/-- What is accepted is lines and `DONE`, and their actions have been run. -/
theorem program_sound {r : Value 64} (fuel : Nat) : ∀ {ts : List Token} {last : Option (Value 64)}
    {block : Block 64}, (program fuel last ts).run block = (some r, block') →
      ∃ es tail, (∀ e ∈ es, e.Fits sums) ∧ ts = es.flatMap line ++ .DONE :: tail ∧
        (actLines last es).run block = (some r, block') := by
  induction fuel with
  | zero =>
    intro ts last block h
    cases h
  | succ fuel ih =>
    intro ts last block h
    by_cases hdone : ts.head? ≠ some .DONE ∨ last = none
    · rw [program_line hdone, StateT.run_bind] at h
      generalize hp : (parseTo sums emitting classify .NEWLINE ts).run block = q at h
      obtain ⟨_ | ⟨v, rest⟩, block₁⟩ := q
      · cases h
      · obtain ⟨e, he, rfl, hrun⟩ := parseTo_line.mp hp
        obtain ⟨es, tail, hfits, rfl, hact⟩ := ih h
        refine ⟨e :: es, tail, List.forall_mem_cons.mpr ⟨he, hfits⟩, by simp, ?_⟩
        rw [actLines, StateT.run_bind, hrun]
        exact hact
    · rw [not_or, not_not] at hdone
      obtain ⟨ts', rfl⟩ := List.head?_eq_some_iff.mp hdone.1
      obtain ⟨v, rfl⟩ := Option.ne_none_iff_exists'.mp hdone.2
      exact ⟨[], ts', by simp, rfl, h⟩

/-- Lines and `DONE` are accepted, where there is a line. -/
theorem program_lines {r : Value 64} {tail : List Token} (es : List Expr) : ∀ {fuel : Nat}
    {last : Option (Value 64)} {block : Block 64}, (∀ e ∈ es, e.Fits sums) →
      (es.flatMap line ++ .DONE :: tail).length < fuel →
        (actLines last es).run block = (some r, block') →
          (program fuel last (es.flatMap line ++ .DONE :: tail)).run block = (some r, block') := by
  induction es with
  | nil =>
    intro fuel last block _ hlen hact
    obtain ⟨fuel, rfl⟩ := Nat.exists_eq_succ_of_ne_zero (Nat.ne_of_gt (Nat.zero_lt_of_lt hlen))
    obtain ⟨h₁, rfl⟩ := Prod.mk.inj hact
    obtain rfl : last = some r := h₁
    rfl
  | cons e es ih =>
    intro fuel last block hfits hlen hact
    obtain ⟨fuel, rfl⟩ := Nat.exists_eq_succ_of_ne_zero (Nat.ne_of_gt (Nat.zero_lt_of_lt hlen))
    obtain ⟨he, hfits⟩ := List.forall_mem_cons.mp hfits
    obtain ⟨x, xs, hx, -, hne, hle⟩ := line_head e (es.flatMap line ++ .DONE :: tail)
    rw [actLines, StateT.run_bind] at hact
    generalize hrun : (e.run emitting).run block = q at hact
    obtain ⟨v, block₁⟩ := q
    have hparse : (parseTo sums emitting classify .NEWLINE (x :: xs)).run block =
        (some (v, es.flatMap line ++ .DONE :: tail), block₁) :=
      parseTo_line.mpr ⟨e, he, hx.symm, hrun⟩
    rw [List.flatMap_cons, List.append_assoc, hx, List.length_cons] at hlen
    rw [List.flatMap_cons, List.append_assoc, hx,
      program_line (.inl (by simpa using hne)), StateT.run_bind, hparse]
    exact ih hfits (by omega) hact

theorem actLines_means {r : Value 64} (es : List Expr) (e : Expr) : ∀ {last : Option (Value 64)}
    {block : Block 64}, Runs mem block → (actLines last (es ++ [e])).run block = (some r, block') →
      Means mem block' r (BitVec.ofInt 64 (sum e)) := by
  induction es with
  | nil =>
    intro last block h hrun
    obtain ⟨h₁, rfl⟩ := Prod.mk.inj hrun
    obtain rfl := Option.some.inj h₁
    exact (emitting_makes e h).means
  | cons e' es ih =>
    intro last block h hrun
    exact ih (emitting_makes e' h).means.runs hrun

/-- There is a value of the last line. -/
theorem actLines_isSome (es : List Expr) (e : Expr) : ∀ (last : Option (Value 64)) (block : Block 64),
    ∃ r block', (actLines last (es ++ [e])).run block = (some r, block') := by
  induction es with
  | nil => exact fun _ _ => ⟨_, _, rfl⟩
  | cons e' es ih => exact fun _ _ => ih _ _

/-- Lines and `DONE` make a function that returns the value of the last line. -/
theorem compile_lines {es : List Expr} {e : Expr} {tail : List Token} (hfits : ∀ e' ∈ es ++ [e], e'.Fits sums)
    (hts : ts = (es ++ [e]).flatMap line ++ .DONE :: tail) :
    ((compile ts).1.bind fun v => result mem (compile ts).2 v) = some (BitVec.ofInt 64 (sum e)) := by
  have hruns : Runs mem ([] : Block 64) := rfl
  obtain ⟨r, block', hact⟩ := actLines_isSome es e none []
  have hcompile : compile ts = (some r, block') := by
    rw [compile, hts]
    exact program_lines (es ++ [e]) hfits (Nat.lt_succ_self _) hact
  rw [hcompile]
  exact actLines_means es e hruns hact

/-- **The second calculator is right**: its function returns `x` if and only if the tokens begin with
lines and `DONE`, and `x` is the value of the last line in 64 bits. -/
theorem compile_value (ts : List Token) (mem : BitVec 64 → BitVec 64) (x : BitVec 64) :
    ((compile ts).1.bind fun v => result mem (compile ts).2 v) = some x ↔ ∃ es e tail,
      (∀ e' ∈ es ++ [e], e'.Fits sums) ∧ ts = (es ++ [e]).flatMap line ++ .DONE :: tail ∧
        x = BitVec.ofInt 64 (sum e) := by
  constructor
  · intro h
    obtain ⟨v, hv, -⟩ := Option.bind_eq_some_iff.mp h
    obtain ⟨es, tail, hfits, hts, hact⟩ := program_sound _ (Prod.ext hv rfl)
    rcases List.eq_nil_or_concat es with rfl | ⟨es, e, rfl⟩
    · cases hact
    · rw [List.concat_eq_append] at hfits hts
      exact ⟨es, e, tail, hfits, hts, Option.some.inj (h.symm.trans (compile_lines hfits hts))⟩
  · rintro ⟨es, e, tail, hfits, hts, rfl⟩
    exact compile_lines hfits hts

/-! Sums and differences are the same to both. -/

theorem sums_level {o : Sign} (h : sums.binary o = true ∨ sums.unary o = true) : operators.level o = 0 := by
  cases o with
  | plus | minus => rfl
  | multiply | divide => rcases h with h | h <;> cases h

theorem closed_sums {o : Sign} (ho : sums.binary o = true) (h : e.Fits sums) :
    e.Closed (operators.reduces o) := by
  have hreduces : ∀ o', sums.binary o' = true ∨ sums.unary o' = true → operators.reduces o o' = true := by
    intro o' ho'
    simp only [Operators.reduces, sums_level (.inl ho), sums_level ho', Nat.le_refl, decide_true]
  induction e with
  | atom n => trivial
  | binary o' l r _ ih => exact ⟨hreduces o' (.inl h.1), ih h.2.2.1⟩
  | unary o' e ih => exact ⟨hreduces o' (.inr h.1), ih h.2.1⟩
  | bracket k e _ => trivial

theorem under_sums {o : Sign} (h : e.Under sums o) : e.Under operators o := by
  cases e with
  | binary o' l r => cases (show true = false from h)
  | _ => trivial

theorem fits_operators (h : e.Fits sums) : e.Fits operators := by
  induction e with
  | atom n => trivial
  | binary o l r ihl ihr =>
    obtain ⟨ho, hl, hr, -, hunder⟩ := h
    exact ⟨rfl, ihl hl, ihr hr, closed_sums ho hl, under_sums hunder⟩
  | unary o e ih =>
    obtain ⟨ho, he, hunder⟩ := h
    exact ⟨ho, ih he, under_sums hunder⟩
  | bracket k e ih => exact ih h

theorem toInt_eq {x y : Int} (h : toInt x = some y) : y = x := by
  rw [toInt] at h
  split at h
  · exact (Option.some.inj h).symm
  · cases h

/-- Where no operation overflows the value is the one without bounds. -/
theorem eval_sum (h : e.Fits sums) {x : Int} (hx : eval e = some x) : x = sum e := by
  induction e generalizing x with
  | atom n => exact (Option.some.inj hx).symm
  | binary o l r ihl ihr =>
    obtain ⟨ho, hl, hr, -, -⟩ := h
    cases o with
    | plus | minus =>
      obtain ⟨a, ha, hx⟩ := Option.bind_eq_some_iff.mp hx
      obtain ⟨b, hb, hx⟩ := Option.bind_eq_some_iff.mp hx
      rw [toInt_eq hx, ihl hl ha, ihr hr hb]
      rfl
    | multiply | divide => cases ho
  | unary o e ih =>
    obtain ⟨a, ha, hx⟩ := Option.bind_eq_some_iff.mp hx
    rw [toInt_eq hx, ih h.2.1 ha]
    rfl
  | bracket k e ih => exact ih h hx

theorem messages_sum (h : e.Fits sums) : messages e = [] := by
  induction e with
  | atom n => rfl
  | binary o l r ihl ihr =>
    obtain ⟨ho, hl, hr, -, -⟩ := h
    cases o with
    | plus | minus =>
      rw [messages, ihl hl, ihr hr, List.append_nil]
      exact nofun
    | multiply | divide => cases ho
  | unary o e ih => exact ih h.2.1
  | bracket k e ih => exact ih h

/-- **The calculators agree**: on lines of sums and differences the first prints one value for each
line, and what the second builds returns the last of them, where it has not overflowed. -/
theorem calculators_agree (es : List Expr) (e : Expr) (hfits : ∀ e' ∈ es ++ [e], e'.Fits sums)
    (mem : BitVec 64 → BitVec 64) :
    interpret ((es ++ [e]).flatMap line) = (true, (es ++ [e]).map fun e' => .value (eval e')) ∧
      ∀ x, eval e = some x → ((compile ((es ++ [e]).flatMap line ++ [.DONE])).1.bind fun v =>
        result mem (compile ((es ++ [e]).flatMap line ++ [.DONE])).2 v) = some (BitVec.ofInt 64 x) := by
  constructor
  · have hlines : ∀ e', some e' ∈ (es ++ [e]).map some → e'.Fits operators := by
      intro e' he'
      obtain ⟨e'', hmem, heq⟩ := List.mem_map.mp he'
      exact fits_operators (hfits e' (Option.some.inj heq ▸ hmem))
    have hout : ∀ e' ∈ es ++ [e], lineOut (some e') = [.value (eval e')] := by
      intro e' he'
      rw [lineOut, printed, messages_sum (hfits e' he'), List.nil_append]
    have hrun := interpret_lines (by simp) hlines
    rw [List.flatMap_map, List.flatMap_map, List.flatMap_congr hout, ← List.map_eq_flatMap] at hrun
    exact hrun
  · intro x hx
    rw [eval_sum (hfits e (by simp)) hx]
    exact compile_lines hfits rfl

/-- `1-2`. -/
def oneMinusTwo : Expr := .binary .minus (.atom 1) (.atom 2)

/-- `-(3+4)`. -/
def minusSeven : Expr := .unary .minus (.bracket () (.binary .plus (.atom 3) (.atom 4)))

theorem calculators_agree_minusSeven :
    interpret (([oneMinusTwo] ++ [minusSeven]).flatMap line) =
      (true, ([oneMinusTwo] ++ [minusSeven]).map fun e' => .value (eval e')) ∧
    ((compile (([oneMinusTwo] ++ [minusSeven]).flatMap line ++ [.DONE])).1.bind fun v =>
      result id (compile (([oneMinusTwo] ++ [minusSeven]).flatMap line ++ [.DONE])).2 v) =
        some (BitVec.ofInt 64 (-7)) := by
  obtain ⟨hprints, hreturns⟩ := calculators_agree [oneMinusTwo] minusSeven (fun e' he' => by
    simp only [List.cons_append, List.nil_append, List.mem_cons, List.not_mem_nil, or_false] at he'
    rcases he' with rfl | rfl
    · exact ⟨rfl, trivial, trivial, trivial, trivial⟩
    · exact ⟨rfl, ⟨rfl, trivial, trivial, trivial, trivial⟩, trivial⟩) id
  exact ⟨hprints, hreturns (-7) (by decide)⟩

end Ece566.Calc
