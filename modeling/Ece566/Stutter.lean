import Mathlib

/- Two deterministic systems of which one makes more steps. Related states make the same
   steps, apart from those where the first lags: there it steps alone, and not for ever.
   Then every state of either is met by a related state of the other. In a `Weave` the
   second may make a step of its own before one they share. -/
namespace Ece566

open Relation

variable {A B : Type} {f : A → Option A} {g : B → Option B} {R : A → B → Prop} {lag : A → Prop}
variable {fuel : A → Nat} {a a₀ a' : A} {b b₀ : B}

structure Stutter (f : A → Option A) (g : B → Option B) (R : A → B → Prop) (lag : A → Prop)
    (fuel : A → Nat) : Prop where
  lags : ∀ {a b}, R a b → lag a → ∃ a', f a = some a' ∧ R a' b ∧ fuel a' < fuel a
  goes : ∀ {a b a'}, R a b → ¬ lag a → f a = some a' → ∃ b', g b = some b' ∧ R a' b'
  stops : ∀ {a b}, R a b → ¬ lag a → f a = none → g b = none

/-- The states a system goes through. -/
abbrev Runs {A : Type} (f : A → Option A) : A → A → Prop := ReflTransGen fun a a' => f a = some a'

namespace Stutter

theorem forward (h : Stutter f g R lag fuel) (h₀ : R a₀ b₀) (ha : Runs f a₀ a) :
    ∃ b, Runs g b₀ b ∧ R a b := by
  induction ha with
  | refl => exact ⟨b₀, .refl, h₀⟩
  | @tail a _ _ hs ih =>
    obtain ⟨b, hb, hr⟩ := ih
    by_cases hl : lag a
    · obtain ⟨a', ha', hr', -⟩ := h.lags hr hl
      obtain rfl := Option.some.inj (hs.symm.trans ha')
      exact ⟨b, hb, hr'⟩
    · obtain ⟨b', hb', hr'⟩ := h.goes hr hl hs
      exact ⟨b', hb.tail hb', hr'⟩

/-- The first system can be brought to where it does not lag. -/
theorem catchUp (h : Stutter f g R lag fuel) (hr : R a b) : ∃ a', Runs f a a' ∧ R a' b ∧ ¬ lag a' := by
  induction hn : fuel a using Nat.strongRecOn generalizing a with
  | ind n ih =>
    by_cases hl : lag a
    · obtain ⟨a', ha', hr', hlt⟩ := h.lags hr hl
      obtain ⟨a'', ha'', hr'', hl''⟩ := ih (fuel a') (hn ▸ hlt) hr' rfl
      exact ⟨a'', .head ha' ha'', hr'', hl''⟩
    · exact ⟨a, .refl, hr, hl⟩

theorem backward (h : Stutter f g R lag fuel) (h₀ : R a₀ b₀) (hb : Runs g b₀ b) :
    ∃ a, Runs f a₀ a ∧ R a b ∧ ¬ lag a := by
  induction hb with
  | refl => exact h.catchUp h₀
  | tail _ hs ih =>
    obtain ⟨a, ha, hr, hl⟩ := ih
    cases hf : f a with
    | none =>
      rw [h.stops hr hl hf] at hs
      cases hs
    | some a' =>
      obtain ⟨b', hb', hr'⟩ := h.goes hr hl hf
      obtain rfl := Option.some.inj (hs.symm.trans hb')
      obtain ⟨a'', ha'', hr'', hl''⟩ := h.catchUp hr'
      exact ⟨a'', (ha.tail hf).trans ha'', hr'', hl''⟩

end Stutter

/-- Two systems of which the second may make two steps where the first makes one; `inner` are its
states in the middle of two such steps. -/
structure Weave (f : A → Option A) (g : B → Option B) (R : A → B → Prop) (lag : A → Prop)
    (fuel : A → Nat) (inner : B → Prop) : Prop where
  lags : ∀ {a b}, R a b → lag a → ∃ a', f a = some a' ∧ R a' b ∧ fuel a' < fuel a
  goes : ∀ {a b a'}, R a b → ¬ lag a → f a = some a' → ∃ b', g b = some b' ∧
    (R a' b' ∨ inner b' ∧ ∃ b'', g b' = some b'' ∧ R a' b'')
  stops : ∀ {a b}, R a b → ¬ lag a → f a = none → g b = none

namespace Weave

variable {inner : B → Prop}

theorem forward (h : Weave f g R lag fuel inner) (h₀ : R a₀ b₀) (ha : Runs f a₀ a) :
    ∃ b, Runs g b₀ b ∧ R a b := by
  induction ha with
  | refl => exact ⟨b₀, .refl, h₀⟩
  | @tail a _ _ hs ih =>
    obtain ⟨b, hb, hr⟩ := ih
    by_cases hl : lag a
    · obtain ⟨a', ha', hr', -⟩ := h.lags hr hl
      obtain rfl := Option.some.inj (hs.symm.trans ha')
      exact ⟨b, hb, hr'⟩
    · obtain ⟨b', hb', hr' | ⟨-, b'', hb'', hr'⟩⟩ := h.goes hr hl hs
      · exact ⟨b', hb.tail hb', hr'⟩
      · exact ⟨b'', (hb.tail hb').tail hb'', hr'⟩

theorem catchUp (h : Weave f g R lag fuel inner) (hr : R a b) : ∃ a', Runs f a a' ∧ R a' b ∧ ¬ lag a' := by
  induction hn : fuel a using Nat.strongRecOn generalizing a with
  | ind n ih =>
    by_cases hl : lag a
    · obtain ⟨a', ha', hr', hlt⟩ := h.lags hr hl
      obtain ⟨a'', ha'', hr'', hl''⟩ := ih (fuel a') (hn ▸ hlt) hr' rfl
      exact ⟨a'', .head ha' ha'', hr'', hl''⟩
    · exact ⟨a, .refl, hr, hl⟩

/-- A state of the second system is met, or is the middle of two steps. -/
theorem backward (h : Weave f g R lag fuel inner) (h₀ : R a₀ b₀) (hb : Runs g b₀ b) (hin : ¬ inner b) :
    ∃ a, Runs f a₀ a ∧ R a b ∧ ¬ lag a := by
  suffices h : (∃ a, Runs f a₀ a ∧ R a b ∧ ¬ lag a) ∨
      inner b ∧ ∃ a b', Runs f a₀ a ∧ g b = some b' ∧ R a b' ∧ ¬ lag a by
    exact h.resolve_right fun h => hin h.1
  clear hin
  induction hb with
  | refl =>
    obtain ⟨a, ha, hr, hl⟩ := h.catchUp h₀
    exact .inl ⟨a, ha, hr, hl⟩
  | tail _ hs ih =>
    rcases ih with ⟨a, ha, hr, hl⟩ | ⟨-, a, b', ha, hb', hr, hl⟩
    · cases hf : f a with
      | none =>
        rw [h.stops hr hl hf] at hs
        cases hs
      | some a' =>
        obtain ⟨b', hb', hr' | ⟨hin, b'', hb'', hr'⟩⟩ := h.goes hr hl hf
        · obtain rfl := Option.some.inj (hs.symm.trans hb')
          obtain ⟨a'', ha'', hr'', hl''⟩ := h.catchUp hr'
          exact .inl ⟨a'', (ha.tail hf).trans ha'', hr'', hl''⟩
        · obtain rfl := Option.some.inj (hs.symm.trans hb')
          obtain ⟨a'', ha'', hr'', hl''⟩ := h.catchUp hr'
          exact .inr ⟨hin, a'', b'', (ha.tail hf).trans ha'', hb'', hr'', hl''⟩
    · obtain rfl := Option.some.inj (hs.symm.trans hb')
      exact .inl ⟨a, ha, hr, hl⟩

end Weave

end Ece566
