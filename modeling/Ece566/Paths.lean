import Mathlib

/- Paths that need not end. In a graph, a node that leads to a cycle begins a path that
   goes on for ever, and such a path can be taken up from any node further back; where
   finitely many nodes are reached and none is on a cycle, what holds of a node when it
   holds of the nodes after it holds of the first. -/
namespace Ece566.Paths

open Relation

variable {α : Type} {E R : α → α → Prop} {a x : α} {w : Nat → α}

def Endless (E : α → α → Prop) (w : Nat → α) : Prop := ∀ k, E (w k) (w (k + 1))

/-- A path with a node before it. -/
def cons (a : α) (w : Nat → α) : Nat → α
  | 0 => a
  | k + 1 => w k

theorem Endless.cons (hw : Endless E w) (e : E a (w 0)) : Endless E (cons a w)
  | 0 => e
  | k + 1 => hw k

theorem exists_endless (hx : TransGen E x x) (ha : ReflTransGen E a x) :
    ∃ w, w 0 = a ∧ Endless E w := by
  -- whatever leads to the cycle has a successor that does
  have hnext : ∀ y : { y // ReflTransGen E y x }, ∃ z : { z // ReflTransGen E z x }, E y z := by
    intro ⟨y, hy⟩
    rcases ReflTransGen.cases_head hy with rfl | ⟨z, e, hz⟩
    · obtain ⟨z, e, hz⟩ := TransGen.head'_iff.mp hx
      exact ⟨⟨z, hz⟩, e⟩
    · exact ⟨⟨z, hz⟩, e⟩
  choose next hnext using hnext
  refine ⟨fun k => (next^[k] ⟨a, ha⟩).1, rfl, fun k => ?_⟩
  simp only [Function.iterate_succ_apply']
  exact hnext _

/-- An endless path with a path before it, whose edges are of a kind. -/
theorem Endless.extend (hw : Endless E w) (hR : ∀ {x y}, R x y → E x y) (h : ReflTransGen R a (w 0)) :
    ∃ w' n, w' 0 = a ∧ Endless E w' ∧ (∀ k, w' (n + k) = w k) ∧ ∀ k < n, R (w' k) (w' (k + 1)) := by
  induction h using ReflTransGen.head_induction_on with
  | refl => exact ⟨w, 0, rfl, hw, fun k => by rw [Nat.zero_add], fun k hk => absurd hk k.not_lt_zero⟩
  | head e _ ih =>
    obtain ⟨w', n, rfl, hw', hn, hkind⟩ := ih
    refine ⟨Paths.cons _ w', n + 1, rfl, hw'.cons (hR e), fun k => ?_, fun k hk => ?_⟩
    · rw [Nat.add_right_comm]
      exact hn k
    · cases k with
      | zero => exact e
      | succ k => exact hkind k (Nat.lt_of_succ_lt_succ hk)

theorem acyclic_induction {l : List α} {P : α → Prop} (hl : ∀ x, ReflTransGen E a x → x ∈ l)
    (hc : ∀ x, ReflTransGen E a x → ¬ TransGen E x x)
    (step : ∀ x, ReflTransGen E a x → (∀ y, E x y → P y) → P x) : P a := by
  let after : { x // ReflTransGen E a x } → { x // ReflTransGen E a x } → Prop :=
    fun y x => TransGen E x.1 y.1
  have : Finite { x // ReflTransGen E a x } := Set.Finite.subset (List.finite_toSet l) hl
  have : IsTrans _ after := ⟨fun _ _ _ h h' => h'.trans h⟩
  have : Std.Irrefl after := ⟨fun x => hc x.1 x.2⟩
  have hwf : WellFounded after := Finite.wellFounded_of_trans_of_irrefl after
  refine hwf.induction (C := fun x => P x.1) ⟨a, .refl⟩ fun ⟨x, hx⟩ ih => ?_
  exact step x hx fun y e => ih ⟨y, hx.tail e⟩ (.single e)

end Ece566.Paths
