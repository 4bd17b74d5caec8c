import Mathlib

/- Dominance. In a graph with a root, `a` dominates `b` when every path from the root
   to `b` goes through `a`; equivalently `b` cannot be reached avoiding `a`, and that is
   the definition here. The order is then carried from nodes to the items the nodes
   hold in sequence: an item is before another when it stands earlier in the same node,
   or in a node that dominates the other's. Last, loops: a definition outside a loop
   that dominates a node inside it dominates the node the loop is entered from. -/
namespace Ece566.Dominance

open Relation (ReflTransGen)

variable {α : Type} {E : α → α → Prop} {r a b c : α}

def Reach (E : α → α → Prop) (r b : α) : Prop := ReflTransGen E r b

/-- `b` can be reached from `r` without going through `a`. -/
def Avoids (E : α → α → Prop) (r a b : α) : Prop :=
  r ≠ a ∧ ReflTransGen (fun x y => E x y ∧ y ≠ a) r b

/-- Every path from `r` to `b` goes through `a`. -/
def Dom (E : α → α → Prop) (r a b : α) : Prop := ¬ Avoids E r a b

/-- `a` is the closest node that strictly dominates `b`. -/
def Idom (E : α → α → Prop) (r a b : α) : Prop :=
  a ≠ b ∧ Dom E r a b ∧ ∀ c, c ≠ b → Dom E r c b → Dom E r c a

namespace Avoids

theorem ne (h : Avoids E r a b) : b ≠ a := by
  rcases ReflTransGen.cases_tail h.2 with rfl | ⟨_, _, e⟩
  · exact h.1
  · exact e.2

theorem step (h : Avoids E r a b) (e : E b c) (hc : c ≠ a) : Avoids E r a c :=
  ⟨h.1, h.2.tail ⟨e, hc⟩⟩

end Avoids

theorem dom_refl (a : α) : Dom E r a a := fun h => h.ne rfl

theorem Dom.eq_root (h : Dom E r a r) : a = r := by
  by_contra hne
  exact h ⟨fun e => hne e.symm, .refl⟩

/-- What dominates a node dominates its predecessors, itself apart. -/
theorem Dom.pred (h : Dom E r a c) (e : E b c) (hne : c ≠ a) : Dom E r a b :=
  fun hb => h (hb.step e hne)

theorem Dom.trans (hab : Dom E r a b) (hbc : Dom E r b c) : Dom E r a c := by
  intro h
  obtain ⟨hr, hpath⟩ := h
  -- along a path that avoids `a`, `b` is never met
  have key : ∀ {x}, ReflTransGen (fun x y => E x y ∧ y ≠ a) r x → Avoids E r b x := by
    intro x hx
    induction hx with
    | refl => exact ⟨fun hrb => hab ⟨hr, by rw [← hrb]⟩, .refl⟩
    | @tail x y hx e ih =>
      refine ih.step e.1 fun hy => hab ⟨hr, ?_⟩
      rw [← hy]
      exact hx.tail e
  exact hbc (key hpath)

theorem Dom.antisymm (hab : Dom E r a b) (hba : Dom E r b a) (hb : Reach E r b) : a = b := by
  by_contra hne
  -- along any path neither of the two can be the first one met
  have key : ∀ {x}, ReflTransGen E r x → Avoids E r a x ∧ Avoids E r b x := by
    intro x hx
    induction hx with
    | refl =>
      refine ⟨⟨fun hra => ?_, .refl⟩, ⟨fun hrb => ?_, .refl⟩⟩
      · subst hra; exact hne hba.eq_root.symm
      · subst hrb; exact hne hab.eq_root
    | tail hx e ih =>
      refine ⟨ih.1.step e fun hy => ?_, ih.2.step e fun hy => ?_⟩
      · exact hba (ih.2.step (hy ▸ e) hne)
      · exact hab (ih.1.step (hy ▸ e) (Ne.symm hne))
  exact (key hb).2.ne rfl

/-- What dominates a node that can be reached can itself be reached. -/
theorem Dom.reach (h : Dom E r a b) (hb : Reach E r b) : Reach E r a := by
  by_contra hna
  have key : ∀ {x}, ReflTransGen E r x → ReflTransGen (fun x y => E x y ∧ y ≠ a) r x := by
    intro x hx
    induction hx with
    | refl => exact .refl
    | tail hx e ih => exact ih.tail ⟨e, fun hy => hna (hy ▸ hx.tail e)⟩
  exact h ⟨fun e => hna (e ▸ .refl), key hb⟩

/-- There is at most one immediate dominator. -/
theorem Idom.unique (ha : Idom E r a c) (hb : Idom E r b c) (hc : Reach E r c) : a = b :=
  (hb.2.2 a ha.1 ha.2.1).antisymm (ha.2.2 b hb.1 hb.2.1) (hb.2.1.reach hc)

/-! Items in sequence. -/

section Pairs
variable {β : Type} {l pre rest : List β} {d z u : β}

theorem pair_iff (h : (pre ++ u :: rest).Nodup) :
    [d, u].Sublist (pre ++ u :: rest) ↔ d ∈ pre := by
  refine ⟨?_, ?_⟩
  · intro hs
    obtain ⟨l₁, l₂, e, h₁, h₂⟩ := List.sublist_append_iff.mp hs
    have hu : u ∉ pre ∧ u ∉ rest := by
      rw [List.nodup_append] at h
      exact ⟨fun hm => h.2.2 u hm u List.mem_cons_self rfl, (List.nodup_cons.mp h.2.1).1⟩
    match l₁, e with
    | [], e =>
      obtain rfl : [d, u] = l₂ := e
      cases h₂ with
      | cons _ h₂ => exact absurd (h₂.subset (by simp)) hu.2
      | cons_cons _ h₂ => exact absurd (h₂.subset (by simp)) hu.2
    | x :: l₁, e =>
      obtain rfl : d = x := (List.cons.inj e).1
      exact h₁.subset List.mem_cons_self
  · intro hd
    have h₁ : [d].Sublist pre := List.singleton_sublist.mpr hd
    exact h₁.append (List.singleton_sublist.mpr List.mem_cons_self)

theorem pair_mem (h : [d, u].Sublist l) : d ∈ l ∧ u ∈ l := ⟨h.subset (by simp), h.subset (by simp)⟩

/-- Standing earlier is transitive where nothing stands twice. -/
theorem pair_trans (h : l.Nodup) (h₁ : [d, z].Sublist l) (h₂ : [z, u].Sublist l) :
    [d, u].Sublist l := by
  obtain ⟨pre, rest, rfl⟩ := List.append_of_mem (pair_mem h₂).2
  rw [pair_iff h] at h₂ ⊢
  obtain ⟨pre₁, pre₂, rfl⟩ := List.append_of_mem h₂
  rw [List.append_assoc, List.cons_append] at h h₁
  rw [pair_iff h] at h₁
  exact List.mem_append_left _ h₁

theorem pair_irrefl (h : l.Nodup) : ¬ [d, d].Sublist l := by
  intro hs
  have := hs.nodup h
  simp at this

end Pairs

section Before
variable {β : Type} {items : α → List β} {d z u : β}

/-- `d` of node `a` comes before `u` of node `b` on every path to `u`. -/
def Before (E : α → α → Prop) (r : α) (items : α → List β) (a : α) (d : β) (b : α) (u : β) : Prop :=
  (a = b ∧ [d, u].Sublist (items b)) ∨ (a ≠ b ∧ Dom E r a b)

theorem Before.dom (h : Before E r items a d b u) : Dom E r a b := by
  rcases h with ⟨rfl, -⟩ | ⟨-, h⟩
  · exact dom_refl a
  · exact h

theorem Before.trans (hn : ∀ a, (items a).Nodup) (hb : Reach E r b)
    (h₁ : Before E r items a d b z) (h₂ : Before E r items b z c u) :
    Before E r items a d c u := by
  rcases h₁ with ⟨rfl, h₁⟩ | ⟨hne₁, h₁⟩ <;> rcases h₂ with ⟨rfl, h₂⟩ | ⟨hne₂, h₂⟩
  · exact .inl ⟨rfl, pair_trans (hn _) h₁ h₂⟩
  · exact .inr ⟨hne₂, h₂⟩
  · exact .inr ⟨hne₁, h₁⟩
  · refine .inr ⟨?_, h₁.trans h₂⟩
    intro e
    obtain rfl := e
    exact hne₁ (h₁.antisymm h₂ hb)

theorem Before.irrefl (hn : ∀ a, (items a).Nodup) : ¬ Before E r items a d a d := by
  intro h
  obtain ⟨-, h⟩ | ⟨hne, -⟩ := h
  · exact pair_irrefl (hn a) h
  · exact hne rfl

/-- Dropping items keeps the order of the others. -/
theorem Before.filter {p : β → Bool} (h : Before E r items a d b u) (hd : p d = true)
    (hu : p u = true) : Before E r (fun a => (items a).filter p) a d b u := by
  rcases h with ⟨rfl, h⟩ | h
  · refine .inl ⟨rfl, ?_⟩
    have := h.filter p
    rwa [List.filter_cons_of_pos hd, List.filter_cons_of_pos hu] at this
  · exact .inr h

end Before

/-! Loops. -/

/-- A set of nodes that is entered only at its header and that the root is not in. -/
structure IsLoop (E : α → α → Prop) (r : α) (L : α → Prop) (h : α) : Prop where
  header : L h
  root : ¬ L r
  entry : ∀ {a b}, E a b → ¬ L a → L b → b = h

/-- The only node outside the loop from which the header is entered. -/
structure IsPreheader (E : α → α → Prop) (L : α → Prop) (h p : α) : Prop where
  outside : ¬ L p
  edge : E p h
  unique : ∀ {q}, E q h → ¬ L q → q = p

section Loops
variable {L : α → Prop} {h p : α}

/-- Every node of a loop is reached from the header without leaving the loop. -/
theorem IsLoop.within (hL : IsLoop E r L h) (hb : Reach E r b) (hm : L b) :
    ReflTransGen (fun x y => E x y ∧ L y) h b := by
  revert hm
  induction hb with
  | refl => exact fun hm => absurd hm hL.root
  | @tail x y _ e ih =>
    intro hy
    by_cases hx : L x
    · exact (ih hx).tail ⟨e, hy⟩
    · rw [hL.entry e hx hy]

/-- A node outside a loop that dominates a node inside it dominates the header. -/
theorem IsLoop.dom_header (hL : IsLoop E r L h) (hb : Reach E r b) (hm : L b) (ha : ¬ L a)
    (hd : Dom E r a b) : Dom E r a h := by
  intro hav
  have key : ∀ {x}, ReflTransGen (fun x y => E x y ∧ L y) h x → Avoids E r a x := by
    intro x hx
    induction hx with
    | refl => exact hav
    | tail _ e ih => exact ih.step e.1 fun e' => ha (e' ▸ e.2)
  exact hd (key (hL.within hb hm))

/-- It dominates the preheader too. -/
theorem IsLoop.dom_preheader (hL : IsLoop E r L h) (hp : IsPreheader E L h p) (hb : Reach E r b)
    (hm : L b) (ha : ¬ L a) (hd : Dom E r a b) : Dom E r a p :=
  (hL.dom_header hb hm ha hd).pred hp.edge fun e => ha (e ▸ hL.header)

/-- The header dominates the loop. -/
theorem IsLoop.header_dom (hL : IsLoop E r L h) (hm : L b) : Dom E r h b := by
  intro hav
  have key : ∀ {x}, ReflTransGen (fun x y => E x y ∧ y ≠ h) r x → ¬ L x := by
    intro x hx
    induction hx with
    | refl => exact hL.root
    | tail _ e ih => exact fun hy => e.2 (hL.entry e.1 ih hy)
  exact key hav.2 hm

/-- The preheader dominates the loop. -/
theorem IsLoop.preheader_dom (hL : IsLoop E r L h) (hp : IsPreheader E L h p) (hm : L b) :
    Dom E r p b := by
  intro h
  obtain ⟨hr, hpath⟩ := h
  have key : ∀ {x}, ReflTransGen (fun x y => E x y ∧ y ≠ p) r x → ¬ L x := by
    intro x hx
    induction hx with
    | refl => exact hL.root
    | @tail x y hx e ih =>
      intro hy
      have hyh := hL.entry e.1 ih hy
      have hxp : x = p := hp.unique (hyh ▸ e.1) ih
      exact (Avoids.ne (E := E) ⟨hr, hx⟩) hxp
  exact key hpath hm

end Loops

end Ece566.Dominance
