import Mathlib

/- Scanners as `flex` makes them. Of all the rules that match at a place the one that matches
   the most is taken, and of those that match as much the first one. A rule may ask to be at
   the beginning of a line (`bol`) or to be followed by its end (`eol`); in the second case
   the newline counts for the length of the match and is not consumed.

   A text is scanned in two parts where no match at a place of the first part goes on into
   the second (`Scanner.scan_append`). -/
namespace Ece566.Flex

/-! Regular expressions. -/

inductive Regex (α : Type)
  | none
  | eps
  | cls (p : α → Bool)
  | cat (r s : Regex α)
  | alt (r s : Regex α)
  | star (r : Regex α)

namespace Regex

variable {α : Type} {r s : Regex α} {p : α → Bool} {a : α} {w l : List α} {n : Nat}

def lang : Regex α → Language α
  | none => 0
  | eps => 1
  | cls p => {w | ∃ a, p a = true ∧ w = [a]}
  | cat r s => r.lang * s.lang
  | alt r s => r.lang + s.lang
  | star r => KStar.kstar r.lang

def plus (r : Regex α) : Regex α := cat r (star r)

/-- At least `n` times. -/
def atLeast (r : Regex α) : Nat → Regex α
  | 0 => star r
  | n + 1 => cat r (r.atLeast n)

/-- A text in quotes. -/
def text [DecidableEq α] : List α → Regex α
  | [] => eps
  | a :: l => cat (cls fun b => b = a) (text l)

def nullable : Regex α → Bool
  | none => false
  | eps => true
  | cls _ => false
  | cat r s => r.nullable && s.nullable
  | alt r s => r.nullable || s.nullable
  | star _ => true

def deriv : Regex α → α → Regex α
  | none, _ => none
  | eps, _ => none
  | cls p, a => if p a then eps else none
  | cat r s, a => if r.nullable then alt (cat (r.deriv a) s) (s.deriv a) else cat (r.deriv a) s
  | alt r s, a => alt (r.deriv a) (s.deriv a)
  | star r, a => cat (r.deriv a) (star r)

/-- The length of the longest match at the beginning of a text. -/
def longest : Regex α → List α → Option Nat
  | r, [] => if r.nullable then some 0 else Option.none
  | r, a :: l =>
    match (r.deriv a).longest l with
    | some n => some (n + 1)
    | Option.none => if r.nullable then some 0 else Option.none

theorem mem_cls : w ∈ (cls p).lang ↔ ∃ a, p a = true ∧ w = [a] := Iff.rfl

theorem mem_cat : w ∈ (cat r s).lang ↔ ∃ u ∈ r.lang, ∃ v ∈ s.lang, u ++ v = w := Language.mem_mul

theorem nullable_iff : r.nullable = true ↔ [] ∈ r.lang := by
  induction r with
  | none => simp [nullable, lang]
  | eps => simp [nullable, lang]
  | cls p => simp [nullable, mem_cls]
  | cat r s ihr ihs => simp [nullable, mem_cat, ihr, ihs]
  | alt r s ihr ihs => simp [nullable, lang, Language.mem_add, ihr, ihs]
  | star r _ => simp [nullable, lang, Language.nil_mem_kstar]

theorem cons_mem_star : a :: w ∈ (star r).lang ↔ ∃ u v, a :: u ∈ r.lang ∧ v ∈ (star r).lang ∧ u ++ v = w := by
  refine ⟨?_, ?_⟩
  · intro h
    obtain ⟨S, hS, hmem⟩ := Language.mem_kstar_iff_exists_nonempty.mp h
    cases S with
    | nil => cases hS
    | cons x S =>
      obtain ⟨hx, hne⟩ := hmem x List.mem_cons_self
      obtain ⟨b, u, rfl⟩ := List.exists_cons_of_ne_nil hne
      rw [List.flatten_cons, List.cons_append, List.cons.injEq] at hS
      obtain ⟨rfl, rfl⟩ := hS
      refine ⟨u, S.flatten, hx, ⟨S, rfl, fun y hy => ?_⟩, rfl⟩
      exact (hmem y (List.mem_cons_of_mem _ hy)).1
  · intro ⟨u, v, hu, ⟨S, hS, hmem⟩, huv⟩
    refine ⟨(a :: u) :: S, ?_, fun y hy => ?_⟩
    · rw [List.flatten_cons, ← hS, List.cons_append, huv]
    · rcases List.mem_cons.mp hy with rfl | hy
      · exact hu
      · exact hmem y hy

theorem cons_mem_cat : a :: w ∈ (cat r s).lang ↔
    (∃ u v, a :: u ∈ r.lang ∧ v ∈ s.lang ∧ u ++ v = w) ∨ ([] ∈ r.lang ∧ a :: w ∈ s.lang) := by
  rw [mem_cat]
  refine ⟨?_, ?_⟩
  · intro ⟨u, hu, v, hv, e⟩
    cases u with
    | nil => exact .inr ⟨hu, e ▸ hv⟩
    | cons b u =>
      rw [List.cons_append, List.cons.injEq] at e
      obtain ⟨rfl, rfl⟩ := e
      exact .inl ⟨u, v, hu, hv, rfl⟩
  · intro h
    rcases h with ⟨u, v, hu, hv, rfl⟩ | ⟨hr, hs⟩
    · exact ⟨a :: u, hu, v, hv, rfl⟩
    · exact ⟨[], hr, a :: w, hs, rfl⟩

theorem mem_deriv : w ∈ (r.deriv a).lang ↔ a :: w ∈ r.lang := by
  induction r generalizing w with
  | none => simp [deriv, lang]
  | eps => simp [deriv, lang, Language.mem_one]
  | cls p =>
    rw [deriv, mem_cls]
    cases hp : p a <;> simp [lang, Language.mem_one, hp]
  | cat r s ihr ihs =>
    have hcat : w ∈ (cat (r.deriv a) s).lang ↔ ∃ u v, a :: u ∈ r.lang ∧ v ∈ s.lang ∧ u ++ v = w := by
      rw [mem_cat]
      refine ⟨?_, ?_⟩
      · intro ⟨u, hu, v, hv, e⟩
        exact ⟨u, v, ihr.mp hu, hv, e⟩
      · intro ⟨u, v, hu, hv, e⟩
        exact ⟨u, ihr.mpr hu, v, hv, e⟩
    rw [cons_mem_cat, deriv, ← nullable_iff]
    -- `a` begins a word of `s` only if the word of `r` may be empty
    cases hnull : r.nullable with
    | true => simp only [if_true, true_and, lang, Language.mem_add, ← ihs]; exact or_congr_left hcat
    | false => simpa using hcat
  | alt r s ihr ihs => simp only [deriv, lang, Language.mem_add, ihr, ihs]
  | star r ih =>
    rw [cons_mem_star, deriv, mem_cat]
    refine ⟨?_, ?_⟩
    · intro ⟨u, hu, v, hv, e⟩
      exact ⟨u, v, ih.mp hu, hv, e⟩
    · intro ⟨u, v, hu, hv, e⟩
      exact ⟨u, ih.mpr hu, v, hv, e⟩

theorem longest_mem (h : r.longest l = some n) : ∃ w ∈ r.lang, w <+: l ∧ w.length = n := by
  induction l generalizing r n with
  | nil =>
    rw [longest] at h
    split at h
    · rename_i hnull
      obtain rfl := Option.some.inj h
      exact ⟨[], nullable_iff.mp hnull, List.nil_prefix, rfl⟩
    · cases h
  | cons a l ih =>
    rw [longest] at h
    split at h
    · rename_i m hm
      obtain rfl := Option.some.inj h
      obtain ⟨w, hw, hpre, rfl⟩ := ih hm
      exact ⟨a :: w, mem_deriv.mp hw, List.cons_prefix_cons.mpr ⟨rfl, hpre⟩, rfl⟩
    · split at h
      · rename_i hnull
        obtain rfl := Option.some.inj h
        exact ⟨[], nullable_iff.mp hnull, List.nil_prefix, rfl⟩
      · cases h

theorem le_longest (hw : w ∈ r.lang) (hpre : w <+: l) : ∃ n, r.longest l = some n ∧ w.length ≤ n := by
  induction l generalizing r w with
  | nil =>
    obtain rfl := List.prefix_nil.mp hpre
    exact ⟨0, by rw [longest, if_pos (nullable_iff.mpr hw)], Nat.le_refl 0⟩
  | cons a l ih =>
    rw [longest]
    cases w with
    | nil =>
      cases (r.deriv a).longest l with
      | some n => exact ⟨n + 1, rfl, Nat.zero_le _⟩
      | none => exact ⟨0, if_pos (nullable_iff.mpr hw), Nat.le_refl 0⟩
    | cons b w =>
      obtain ⟨rfl, hw'⟩ := List.cons_prefix_cons.mp hpre
      obtain ⟨n, hn, hle⟩ := ih (mem_deriv.mpr hw) hw'
      rw [hn]
      exact ⟨n + 1, rfl, Nat.succ_le_succ hle⟩

/-- The longest match is one, and no other is longer. -/
theorem longest_take {n : Nat} (h : r.longest l = some n) : l.take n ∈ r.lang ∧ (l.take n).length = n ∧
    ∀ v ∈ r.lang, v <+: l → v.length ≤ n := by
  obtain ⟨w, hw, hpre, rfl⟩ := longest_mem h
  have htake : l.take w.length = w := (List.prefix_iff_eq_take.mp hpre).symm
  rw [htake]
  refine ⟨hw, rfl, fun v hv hv' => ?_⟩
  obtain ⟨m, hm, hle⟩ := le_longest hv hv'
  rw [h] at hm
  obtain rfl := Option.some.inj hm
  exact hle

/-! What the expressions of scanners mean. -/

theorem mem_star_cls : w ∈ (star (cls p)).lang ↔ ∀ a ∈ w, p a = true := by
  induction w with
  | nil => simp [← nullable_iff, nullable]
  | cons a w ih =>
    rw [cons_mem_star, List.forall_mem_cons, ← ih]
    refine ⟨?_, ?_⟩
    · intro ⟨u, v, ⟨b, hb, e⟩, hv, huv⟩
      obtain ⟨rfl, rfl⟩ := List.cons.inj e
      exact ⟨hb, huv ▸ hv⟩
    · intro ⟨ha, hw⟩
      exact ⟨[], w, ⟨a, ha, rfl⟩, hw, rfl⟩

theorem mem_cls_cat : w ∈ (cat (cls p) r).lang ↔ ∃ a v, p a = true ∧ v ∈ r.lang ∧ w = a :: v := by
  rw [mem_cat]
  refine ⟨?_, ?_⟩
  · intro ⟨_, ⟨a, ha, rfl⟩, v, hv, e⟩
    exact ⟨a, v, ha, hv, e.symm⟩
  · intro ⟨a, v, ha, hv, e⟩
    exact ⟨[a], ⟨a, ha, rfl⟩, v, hv, e.symm⟩

theorem mem_atLeast : w ∈ ((cls p).atLeast n).lang ↔ n ≤ w.length ∧ ∀ a ∈ w, p a = true := by
  induction n generalizing w with
  | zero => simp [atLeast, mem_star_cls]
  | succ n ih =>
    rw [atLeast, mem_cls_cat]
    refine ⟨?_, ?_⟩
    · intro ⟨a, v, ha, hv, e⟩
      obtain ⟨hlen, hall⟩ := ih.mp hv
      rw [e]
      exact ⟨Nat.succ_le_succ hlen, List.forall_mem_cons.mpr ⟨ha, hall⟩⟩
    · intro ⟨hlen, hall⟩
      cases w with
      | nil => cases hlen
      | cons a v =>
        obtain ⟨ha, hv⟩ := List.forall_mem_cons.mp hall
        exact ⟨a, v, ha, ih.mpr ⟨Nat.le_of_succ_le_succ hlen, hv⟩, rfl⟩

theorem mem_plus : w ∈ (cls p).plus.lang ↔ w ≠ [] ∧ ∀ a ∈ w, p a = true := by
  refine (mem_atLeast (n := 1)).trans ?_
  rw [Nat.succ_le_iff, List.length_pos_iff]

theorem mem_text [DecidableEq α] : w ∈ (text l).lang ↔ w = l := by
  induction l generalizing w with
  | nil => exact Language.mem_one w
  | cons a l ih =>
    rw [text, mem_cls_cat]
    simp [ih]

end Regex

/-! Rules. -/

structure Rule (τ : Type) where
  bol : Bool
  pattern : Regex Char
  eol : Bool
  action : τ

variable {τ : Type} {ρ σ : Rule τ} {rules before : List (Rule τ)} {bol : Bool} {c : Char}
variable {s x y z w v : List Char} {n k : Nat}

/-- What counts for the length. -/
def Rule.whole (ρ : Rule τ) : Regex Char :=
  if ρ.eol then .cat ρ.pattern (.cls fun c => c == '\n') else ρ.pattern

/-- What is consumed of a match of length `n`. -/
def Rule.consumed (ρ : Rule τ) (n : Nat) : Nat := if ρ.eol then n - 1 else n

def Rule.total (ρ : Rule τ) (bol : Bool) (s : List Char) : Option Nat :=
  if ρ.bol && !bol then none else ρ.whole.longest s

def best : List (Rule τ) → Bool → List Char → Option (Rule τ × Nat)
  | [], _, _ => none
  | ρ :: rules, bol, s =>
    match ρ.total bol s, best rules bol s with
    | none, b => b
    | some n, none => some (ρ, n)
    | some n, some (σ, k) => if n < k then some (σ, k) else some (ρ, n)

/-- The rule matches `w` at the beginning of `s`. -/
structure Rule.Takes (ρ : Rule τ) (bol : Bool) (s w : List Char) : Prop where
  line : ρ.bol = true → bol = true
  mem : w ∈ ρ.whole.lang
  here : w <+: s

theorem total_takes (h : ρ.total bol s = some n) : ∃ w, ρ.Takes bol s w ∧ w.length = n := by
  rw [Rule.total] at h
  split at h
  · cases h
  · rename_i hbol
    obtain ⟨w, hw, hpre, hlen⟩ := Regex.longest_mem h
    exact ⟨w, ⟨by simpa using hbol, hw, hpre⟩, hlen⟩

theorem le_total (h : ρ.Takes bol s w) : ∃ n, ρ.total bol s = some n ∧ w.length ≤ n := by
  have hbol : (ρ.bol && !bol) = false := by simpa using h.line
  rw [Rule.total, hbol]
  exact Regex.le_longest h.mem h.here

theorem total_eq_some (h : ρ.Takes bol s w) (hmax : ∀ v, ρ.Takes bol s v → v.length ≤ w.length) :
    ρ.total bol s = some w.length := by
  obtain ⟨n, hn, hle⟩ := le_total h
  obtain ⟨v, hv, rfl⟩ := total_takes hn
  rw [hn, Nat.le_antisymm (hmax v hv) hle]

theorem total_eq_none (h : ∀ w, ¬ ρ.Takes bol s w) : ρ.total bol s = none := by
  cases hn : ρ.total bol s with
  | none => rfl
  | some n =>
    obtain ⟨w, hw, -⟩ := total_takes hn
    exact absurd hw (h w)

/-- A class takes one character. -/
theorem takes_cls {b : Bool} {p : Char → Bool} {a : τ} (h : (⟨b, .cls p, false, a⟩ : Rule τ).Takes bol (c :: s) w) :
    w = [c] ∧ ((!b || bol) && p c) = true := by
  obtain ⟨hbol, ⟨d, hd, rfl⟩, hpre⟩ := h
  obtain ⟨rfl, -⟩ := List.cons_prefix_cons.mp hpre
  refine ⟨rfl, ?_⟩
  cases b <;> simp_all

theorem total_cls {b : Bool} {p : Char → Bool} {a : τ} :
    (⟨b, .cls p, false, a⟩ : Rule τ).total bol (c :: s) =
      if (!b || bol) && p c then some 1 else none := by
  split
  · rename_i h
    rw [Bool.and_eq_true] at h
    refine total_eq_some (w := [c]) ⟨fun hb => ?_, ⟨c, h.2, rfl⟩, List.prefix_append [c] s⟩ fun v hv => ?_
    · simpa [show b = true from hb] using h.1
    · rw [(takes_cls hv).1]
  · rename_i h
    exact total_eq_none fun w hw => h (takes_cls hw).2

theorem best_congr {bol' : Bool} {s' : List Char}
    (h : ∀ ρ ∈ rules, ρ.total bol s = ρ.total bol' s') : best rules bol s = best rules bol' s' := by
  induction rules with
  | nil => rfl
  | cons ρ rules ih =>
    rw [best, best, h ρ List.mem_cons_self, ih fun σ hσ => h σ (List.mem_cons_of_mem _ hσ)]

theorem best_mem (h : best rules bol s = some (ρ, n)) : ρ ∈ rules ∧ ρ.total bol s = some n := by
  induction rules with
  | nil => cases h
  | cons σ rules ih =>
    rw [best] at h
    split at h
    · exact ⟨List.mem_cons_of_mem _ (ih h).1, (ih h).2⟩
    · rename_i hσ _
      cases h
      exact ⟨List.mem_cons_self, hσ⟩
    · rename_i hσ hbest
      split at h
      · cases h
        exact ⟨List.mem_cons_of_mem _ (ih hbest).1, (ih hbest).2⟩
      · cases h
        exact ⟨List.mem_cons_self, hσ⟩

theorem best_isSome (hρ : ρ ∈ rules) (h : ρ.total bol s = some n) : (best rules bol s).isSome = true := by
  induction rules with
  | nil => cases hρ
  | cons σ rules ih =>
    rw [best]
    split
    · rename_i hσ
      rcases List.mem_cons.mp hρ with rfl | hρ
      · rw [hσ] at h
        cases h
      · exact ih hρ
    · rfl
    · split <;> rfl

theorem best_isSome_of_takes (hρ : ρ ∈ rules) (h : ρ.Takes bol s w) : (best rules bol s).isSome = true := by
  obtain ⟨n, hn, -⟩ := le_total h
  exact best_isSome hρ hn

/-- Rules that come before and match less are passed over, and so are those that come after and do
not match more. -/
theorem best_append_cons (hρ : ρ.total bol s = some n)
    (hbefore : ∀ σ ∈ before, ∀ k, σ.total bol s = some k → k < n)
    (hafter : ∀ σ ∈ rules, ∀ k, σ.total bol s = some k → k ≤ n) :
    best (before ++ ρ :: rules) bol s = some (ρ, n) := by
  induction before with
  | nil =>
    rw [List.nil_append, best, hρ]
    cases hbest : best rules bol s with
    | none => rfl
    | some σk =>
      obtain ⟨hσ, hk⟩ := best_mem hbest
      exact if_neg (Nat.not_lt.mpr (hafter _ hσ _ hk))
  | cons σ before ih =>
    rw [List.cons_append, best, ih fun σ hσ => hbefore σ (List.mem_cons_of_mem _ hσ)]
    cases hσ : σ.total bol s with
    | none => rfl
    | some k => exact if_pos (hbefore σ List.mem_cons_self k hσ)

/-- A rule is not taken where one that comes before it matches as much. -/
theorem best_early (hσ : σ ∈ before) (hk : σ.total bol s = some k)
    (hafter : ∀ τ ∈ rules, ∀ m, τ.total bol s = some m → m ≤ k)
    (h : best (before ++ rules) bol s = some (ρ, n)) : ρ ∈ before := by
  induction before with
  | nil => cases hσ
  | cons τ before ih =>
    rw [List.cons_append, best] at h
    split at h
    · rename_i hτ
      rcases List.mem_cons.mp hσ with rfl | hσ
      · rw [hτ] at hk
        cases hk
      · exact List.mem_cons_of_mem _ (ih hσ h)
    · cases h
      exact List.mem_cons_self
    · rename_i m τ' k' hτ hbest
      split at h
      · rename_i hlt
        cases h
        apply List.mem_cons_of_mem
        rcases List.mem_cons.mp hσ with rfl | hσ
        · -- what is taken matches more than `σ`, so it is none of those that come after
          obtain ⟨hmem, htotal⟩ := best_mem hbest
          obtain rfl : m = k := Option.some.inj (hτ.symm.trans hk)
          refine (List.mem_append.mp hmem).resolve_right fun hρ => ?_
          have := hafter _ hρ _ htotal
          omega
        · exact ih hσ hbest
      · cases h
        exact List.mem_cons_self

/-- Where every rule that matches takes one character the first that matches is taken. -/
theorem best_eq_find? (h : ∀ ρ ∈ rules, ∀ n, ρ.total bol s = some n → n = 1) :
    best rules bol s = (rules.find? fun ρ => (ρ.total bol s).isSome).map fun ρ => (ρ, 1) := by
  induction rules with
  | nil => rfl
  | cons ρ rules ih =>
    rw [best, List.find?_cons, ih fun σ hσ => h σ (List.mem_cons_of_mem _ hσ)]
    cases hρ : ρ.total bol s with
    | none => rfl
    | some n =>
      obtain rfl := h ρ List.mem_cons_self n hρ
      cases rules.find? fun ρ => (ρ.total bol s).isSome <;> rfl

/-- A rule is taken, as far as it goes, where no other matches but a last one that takes one
character. -/
theorem best_sole {last : Rule τ} (hσ : σ ∈ before) (hw : σ.Takes bol s w) (hne : w ≠ [])
    (hmax : ∀ v, σ.Takes bol s v → v.length ≤ w.length)
    (honly : ∀ ρ ∈ before, ∀ v, ρ.Takes bol s v → ρ = σ)
    (hlast : ∀ v, last.Takes bol s v → v.length = 1) :
    best (before ++ [last]) bol s = some (σ, w.length) := by
  have hlen : 1 ≤ w.length := List.length_pos_iff.mpr hne
  have hk := total_eq_some hw hmax
  obtain ⟨⟨ρ, n⟩, hbest⟩ := Option.isSome_iff_exists.mp
    (best_isSome (List.mem_append_left [last] hσ) hk)
  have hρ : ρ ∈ before := best_early hσ hk (fun τ hτ m hm => by
    obtain ⟨v, hv, rfl⟩ := total_takes hm
    rw [List.mem_singleton.mp hτ] at hv
    rw [hlast v hv]
    exact hlen) hbest
  obtain ⟨v, hv, hlv⟩ := total_takes (best_mem hbest).2
  obtain rfl := honly ρ hρ v hv
  have hn : n = w.length := Option.some.inj ((best_mem hbest).2.symm.trans hk)
  rw [hbest, hn]

/-! Scanners. -/

/-- Some rule matches at every character, and what it matches is not empty. -/
structure Scanner (τ : Type) where
  rules : List (Rule τ)
  covers : ∀ bol c s, (best rules bol (c :: s)).isSome = true
  advances : ∀ ρ ∈ rules, ρ.pattern.nullable = false

structure Lexeme (τ : Type) where
  action : τ
  text : List Char
deriving DecidableEq

/-- Whether the next character is the first of a line, after `w`. -/
def after (bol : Bool) (w : List Char) : Bool := (w.getLast?.map fun c => c == '\n').getD bol

namespace Scanner

variable {S : Scanner τ}

def loop (S : Scanner τ) : Nat → Bool → List Char → List (Lexeme τ)
  | _, _, [] => []
  | 0, _, _ => []
  | fuel + 1, bol, c :: s =>
    match best S.rules bol (c :: s) with
    | none => []
    | some (ρ, n) =>
      let text := (c :: s).take (ρ.consumed n)
      ⟨ρ.action, text⟩ :: S.loop fuel (after bol text) ((c :: s).drop (ρ.consumed n))

/-- What the actions are called with, in order. -/
def scan (S : Scanner τ) (bol : Bool) (s : List Char) : List (Lexeme τ) := S.loop s.length bol s

/-- A match is a word of the pattern, and a newline that is not consumed. -/
theorem best_word (h : best S.rules bol s = some (ρ, n)) :
    s.take (ρ.consumed n) ∈ ρ.pattern.lang ∧ 0 < ρ.consumed n ∧ ρ.consumed n ≤ n ∧ n ≤ s.length := by
  obtain ⟨hρ, htotal⟩ := best_mem h
  obtain ⟨w, ⟨-, hmem, hpre⟩, rfl⟩ := total_takes htotal
  have hlen : w.length ≤ s.length := hpre.length_le
  have hne : ∀ u ∈ ρ.pattern.lang, 0 < u.length := by
    intro u hu
    rw [List.length_pos_iff]
    intro hnil
    have := S.advances ρ hρ
    rw [← Bool.not_eq_true, Regex.nullable_iff] at this
    exact this (hnil ▸ hu)
  have htake : ∀ u, u <+: s → s.take u.length = u := fun u hu => (List.prefix_iff_eq_take.mp hu).symm
  rw [Rule.whole] at hmem
  rw [Rule.consumed]
  split at hmem
  -- the newline at the end of the match is not consumed
  · obtain ⟨u, hu, _, ⟨c, -, rfl⟩, huv⟩ := Regex.mem_cat.mp hmem
    have hcount : w.length - 1 = u.length := by rw [← huv, List.length_append]; rfl
    have hu' : u <+: s := (List.prefix_append u [c]).trans (huv ▸ hpre)
    rw [if_pos ‹_›, hcount, htake u hu']
    exact ⟨hu, hne u hu, by omega, hlen⟩
  · rw [if_neg ‹_›, htake w hpre]
    exact ⟨hmem, hne w hmem, Nat.le_refl _, hlen⟩

theorem loop_enough {fuel : Nat} (h : s.length ≤ fuel) : S.loop fuel bol s = S.scan bol s := by
  have key : ∀ (m fuel : Nat) (bol : Bool) (s : List Char), s.length ≤ m → s.length ≤ fuel →
      S.loop fuel bol s = S.loop m bol s := by
    -- each match takes a character at least, so less fuel is enough for what is left
    intro m
    induction m with
    | zero =>
      intro fuel bol s hm _
      obtain rfl := List.length_eq_zero_iff.mp (Nat.le_zero.mp hm)
      cases fuel <;> rfl
    | succ m ih =>
      intro fuel bol s hm hfuel
      cases s with
      | nil => cases fuel <;> rfl
      | cons c s =>
        cases fuel with
        | zero => cases hfuel
        | succ fuel =>
          rw [loop, loop]
          cases hbest : best S.rules bol (c :: s) with
          | none => rfl
          | some ρn =>
            obtain ⟨ρ, n⟩ := ρn
            obtain ⟨-, hpos, -, -⟩ := best_word hbest
            have hdrop : ((c :: s).drop (ρ.consumed n)).length < (c :: s).length := by
              rw [List.length_drop, List.length_cons]
              omega
            simp only
            rw [ih fuel _ _ (by omega) (by omega)]
  exact key s.length fuel bol s (Nat.le_refl _) h

@[simp] theorem scan_nil : S.scan bol [] = [] := rfl

theorem scan_cons (h : best S.rules bol (c :: s) = some (ρ, n)) :
    S.scan bol (c :: s) = ⟨ρ.action, (c :: s).take (ρ.consumed n)⟩ ::
      S.scan (after bol ((c :: s).take (ρ.consumed n))) ((c :: s).drop (ρ.consumed n)) := by
  obtain ⟨-, hpos, -, -⟩ := best_word h
  rw [scan, List.length_cons, loop, h]
  simp only
  rw [loop_enough]
  rw [List.length_drop, List.length_cons]
  omega

/-- A rule that asks for no end of the line takes its match. -/
theorem scan_whole (h : best S.rules bol (c :: s) = some (ρ, n)) (heol : ρ.eol = false) :
    S.scan bol (c :: s) = ⟨ρ.action, (c :: s).take n⟩ ::
      S.scan (after bol ((c :: s).take n)) ((c :: s).drop n) := by
  have hn : ρ.consumed n = n := by
    rw [Rule.consumed, heol]
    rfl
  have hscan := scan_cons h
  rwa [hn] at hscan

/-- The match where no other rule does but a last one that takes one character. -/
theorem scan_sole {last : Rule τ} (hrules : S.rules = before ++ [last]) (hρ : ρ ∈ before)
    (heol : ρ.eol = false) (hw : ρ.Takes bol (c :: s) w) (hne : w ≠ [])
    (hmax : ∀ v, ρ.Takes bol (c :: s) v → v.length ≤ w.length)
    (honly : ∀ σ ∈ before, ∀ v, σ.Takes bol (c :: s) v → σ = ρ)
    (hlast : ∀ v, last.Takes bol (c :: s) v → v.length = 1) :
    S.scan bol (c :: s) = ⟨ρ.action, w⟩ :: S.scan (after bol w) ((c :: s).drop w.length) := by
  have hbest := best_sole hρ hw hne hmax honly hlast
  rw [← hrules] at hbest
  rw [scan_whole hbest heol, ← List.prefix_iff_eq_take.mp hw.here]

/-- Induction on the matches. -/
theorem scan_induction (S : Scanner τ) {P : Bool → List Char → Prop} (nil : ∀ bol, P bol [])
    (step : ∀ {bol c s ρ n}, best S.rules bol (c :: s) = some (ρ, n) →
      P (after bol ((c :: s).take (ρ.consumed n))) ((c :: s).drop (ρ.consumed n)) → P bol (c :: s))
    (bol : Bool) (s : List Char) : P bol s := by
  induction hm : s.length using Nat.strong_induction_on generalizing bol s with
  | h m ih =>
    cases s with
    | nil => exact nil bol
    | cons c s =>
      obtain ⟨⟨ρ, n⟩, hbest⟩ := Option.isSome_iff_exists.mp (S.covers bol c s)
      obtain ⟨-, hpos, -, -⟩ := best_word hbest
      refine step hbest (ih _ ?_ _ _ rfl)
      rw [← hm, List.length_drop, List.length_cons]
      omega

theorem scan_sound : ∀ m ∈ S.scan bol s,
    ∃ ρ ∈ S.rules, m.action = ρ.action ∧ m.text ∈ ρ.pattern.lang ∧ m.text <:+: s := by
  induction bol, s using S.scan_induction with
  | nil => simp
  | @step bol c s ρ n hbest ih =>
    intro m hm
    rw [scan_cons hbest] at hm
    rcases List.mem_cons.mp hm with rfl | hm
    · exact ⟨ρ, (best_mem hbest).1, rfl, (best_word hbest).1, (List.take_prefix _ _).isInfix⟩
    · obtain ⟨σ, hσ, haction, hmem, hin⟩ := ih m hm
      exact ⟨σ, hσ, haction, hmem, hin.trans (List.drop_suffix _ _).isInfix⟩

theorem after_append : after bol (x ++ y) = after (after bol x) y := by
  rw [after, after, after, List.getLast?_append]
  cases y.getLast? <;> rfl

/-- No match that begins in `x` goes on into `z`. -/
def Fits (S : Scanner τ) (x z : List Char) : Prop :=
  ∀ y, y <:+ x → y ≠ [] → ∀ bol, ∀ ρ ∈ S.rules, ∀ w, ρ.Takes bol (y ++ z) w → w.length ≤ y.length

theorem total_append (h : ∀ w, ρ.Takes bol (y ++ z) w → w.length ≤ y.length) :
    ρ.total bol (y ++ z) = ρ.total bol y := by
  cases hy : ρ.total bol y with
  | none =>
    refine total_eq_none fun w hw => ?_
    obtain ⟨n, hn, -⟩ := le_total (s := y) ⟨hw.line, hw.mem, List.prefix_of_prefix_length_le hw.here
      (List.prefix_append y z) (h w hw)⟩
    rw [hy] at hn
    cases hn
  | some n =>
    obtain ⟨w, hw, rfl⟩ := total_takes hy
    refine total_eq_some ⟨hw.line, hw.mem, hw.here.trans (List.prefix_append y z)⟩ fun v hv => ?_
    obtain ⟨k, hk, hle⟩ := le_total (s := y) ⟨hv.line, hv.mem, List.prefix_of_prefix_length_le hv.here
      (List.prefix_append y z) (h v hv)⟩
    rw [hy] at hk
    obtain rfl := Option.some.inj hk
    exact hle

theorem scan_append (h : S.Fits x z) : S.scan bol (x ++ z) = S.scan bol x ++ S.scan (after bol x) z := by
  induction bol, x using S.scan_induction with
  | nil => rfl
  | @step bol c x ρ n hbest ih =>
    -- with `z` behind it each rule matches as much of `c :: x` as without
    have hbest' : best S.rules bol (c :: (x ++ z)) = some (ρ, n) := by
      rw [← hbest, ← List.cons_append]
      refine best_congr fun ρ hρ => total_append fun w hw => ?_
      exact h (c :: x) List.suffix_rfl (List.cons_ne_nil c x) bol ρ hρ w hw
    obtain ⟨-, -, hle, hlen⟩ := best_word hbest
    have hfits : S.Fits ((c :: x).drop (ρ.consumed n)) z := fun y hy =>
      h y (hy.trans (List.drop_suffix _ _))
    rw [scan_cons hbest, List.cons_append, scan_cons hbest', ← List.cons_append,
      List.take_append_of_le_length (hle.trans hlen), List.drop_append_of_le_length (hle.trans hlen),
      ih hfits, ← after_append, List.take_append_drop, List.cons_append]

/-- No match goes on after a newline. -/
def Lined (rules : List (Rule τ)) : Prop := ∀ ρ ∈ rules, ∀ w ∈ ρ.whole.lang, '\n' ∉ w.dropLast

theorem Lined.fits (h : Lined S.rules) (hx : x.getLast? = some '\n') : S.Fits x z := by
  intro y hy hne bol ρ hρ w hw
  by_contra hlen
  rw [Nat.not_le] at hlen
  have hlast : y.getLast? = some '\n' := by
    obtain ⟨x', rfl⟩ := hy
    rwa [List.getLast?_append_of_ne_nil _ hne] at hx
  -- a match that goes on has the newline at the end of `y` in it, and a character behind that
  have hpre : y <+: w := List.prefix_of_prefix_length_le (List.prefix_append y z) hw.here (Nat.le_of_lt hlen)
  obtain ⟨v, rfl⟩ := hpre
  have hv : v ≠ [] := by
    rintro rfl
    simp at hlen
  refine h ρ hρ _ hw.mem ?_
  rw [List.dropLast_append_of_ne_nil hv]
  exact List.mem_append_left _ (List.mem_of_getLast? hlast)

end Scanner

/-- A text has one first line. -/
theorem line_unique {v t l s : List Char} (hv : '\n' ∉ v) (hl : '\n' ∉ l)
    (h : v ++ '\n' :: t = l ++ '\n' :: s) : v = l := by
  have key : ∀ x y : List Char, '\n' ∉ x → (x ++ '\n' :: y).takeWhile (fun c => c != '\n') = x := by
    intro x y hx
    rw [List.takeWhile_append_of_pos]
    · simp
    · intro c hc
      have : c ≠ '\n' := fun e => hx (e ▸ hc)
      simpa using this
  rw [← key v t hv, h, key l s hl]

end Ece566.Flex
