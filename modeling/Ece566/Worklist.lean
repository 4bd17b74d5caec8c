import Mathlib

/- Removing what nothing uses, with a worklist. Items have operands; an item is dead when it
   is of a kind that may go and no item left uses it. A turn takes any item off the
   worklist and, if it is dead, removes it and puts its operands on. The turns come to an
   end, and what has gone then is the least set that holds an item of such a kind when it
   holds all its users, whatever was taken in which order: a dead item is always on the
   worklist (`Inv.dead`), and what goes is in the set (`Inv.erased`). -/
namespace Ece566.Worklist

variable {α : Type}

/-- What the turns do not change. -/
structure Graph (α : Type) where
  items : Finset α
  removable : α → Prop
  operands : α → Finset α
  closed : ∀ {u d}, u ∈ items → d ∈ operands u → d ∈ items

/-- The least set that holds a removable item all of whose users it holds. -/
inductive Doomed (G : Graph α) : α → Prop
  | intro {d : α} : d ∈ G.items → G.removable d →
      (∀ u ∈ G.items, d ∈ G.operands u → Doomed G u) → Doomed G d

@[ext] structure State (α : Type) where
  live : Finset α
  work : Finset α

variable {G : Graph α} {s s' : State α} {d i u : α}

def Dead (G : Graph α) (s : State α) (d : α) : Prop :=
  G.removable d ∧ ∀ u ∈ s.live, d ∉ G.operands u

/-- What holds between the turns. -/
structure Inv (G : Graph α) (s : State α) : Prop where
  live : s.live ⊆ G.items
  work : s.work ⊆ s.live
  kept : ∀ {u d}, u ∈ s.live → d ∈ G.operands u → d ∈ s.live
  dead : ∀ {d}, d ∈ s.live → Dead G s d → d ∈ s.work
  erased : ∀ {d}, d ∈ G.items → d ∉ s.live → Doomed G d

/-- At the start everything is there, and the worklist is what is dead. -/
theorem Inv.start (hlive : s.live = G.items) (hwork : ∀ d, d ∈ s.work ↔ d ∈ G.items ∧ Dead G s d) :
    Inv G s where
  live := by rw [hlive]
  work d hd := by
    rw [hlive]
    exact ((hwork d).mp hd).1
  kept hu hd := by
    rw [hlive] at hu ⊢
    exact G.closed hu hd
  dead hd hdead := (hwork _).mpr ⟨hlive ▸ hd, hdead⟩
  erased hd hn := absurd (hlive ▸ hd) hn

section
variable [DecidableEq α]

/-- One turn. -/
inductive Pop (G : Graph α) : State α → State α → Prop
  | remove {s : State α} {i : α} : i ∈ s.work → Dead G s i →
      Pop G s ⟨s.live.erase i, s.work.erase i ∪ G.operands i⟩
  | leave {s : State α} {i : α} : i ∈ s.work → ¬ Dead G s i → Pop G s ⟨s.live, s.work.erase i⟩

theorem Inv.pop (h : Inv G s) (hp : Pop G s s') : Inv G s' := by
  cases hp with
  | @remove i hi hdead =>
    have hlive := h.work hi
    have hself : i ∉ G.operands i := hdead.2 i hlive
    constructor
    case live => exact fun d hd => h.live (Finset.mem_of_mem_erase hd)
    case work =>
      intro d hd
      rw [Finset.mem_union] at hd
      apply Finset.mem_erase.mpr
      cases hd with
      | inl hd => exact ⟨Finset.ne_of_mem_erase hd, h.work (Finset.mem_of_mem_erase hd)⟩
      | inr hd =>
        refine ⟨?_, h.kept hlive hd⟩
        intro e
        exact hself (e ▸ hd)
    case kept =>
      intro u d hu hd
      refine Finset.mem_erase.mpr ⟨?_, h.kept (Finset.mem_of_mem_erase hu) hd⟩
      intro e
      exact hdead.2 u (Finset.mem_of_mem_erase hu) (e ▸ hd)
    case dead =>
      intro d hd hdd
      rw [Finset.mem_union]
      by_cases hop : d ∈ G.operands i
      · exact .inr hop
      · -- it was dead before
        refine .inl (Finset.mem_erase.mpr ⟨Finset.ne_of_mem_erase hd, ?_⟩)
        refine h.dead (Finset.mem_of_mem_erase hd) ⟨hdd.1, fun u hu => ?_⟩
        by_cases hui : u = i
        · exact hui ▸ hop
        · exact hdd.2 u (Finset.mem_erase.mpr ⟨hui, hu⟩)
    case erased =>
      intro d hd hn
      by_cases hdi : d = i
      · subst hdi
        refine .intro hd hdead.1 fun u hu hop => h.erased hu fun hul => hdead.2 u hul hop
      · exact h.erased hd fun hdl => hn (Finset.mem_erase.mpr ⟨hdi, hdl⟩)
  | @leave i hi hn =>
    refine ⟨h.live, fun d hd => h.work (Finset.mem_of_mem_erase hd), h.kept, ?_, h.erased⟩
    intro d hd hdead
    refine Finset.mem_erase.mpr ⟨?_, h.dead hd hdead⟩
    intro e
    exact hn (e ▸ hdead)

/-- **What is left when the worklist is empty.** -/
theorem Inv.finished (h : Inv G s) (hw : s.work = ∅) (hd : d ∈ G.items) : d ∈ s.live ↔ ¬ Doomed G d := by
  refine ⟨?_, ?_⟩
  · intro hl hdoomed
    induction hdoomed with
    | @intro d hd hrem _ ih =>
      -- its users have gone, so it is dead, and the worklist would hold it
      have hdead : Dead G s d := ⟨hrem, fun u hu hop => ih u (h.live hu) hop (h.live hu) hu⟩
      have := h.dead hl hdead
      rw [hw] at this
      exact absurd this (Finset.notMem_empty d)
  · intro hn
    by_contra hl
    exact hn (h.erased hd hl)

/-- A turn removes an item, or else takes one off the worklist. -/
theorem pop_decreases (h : Inv G s) (hp : Pop G s s') :
    s'.live.card < s.live.card ∨ s'.live.card = s.live.card ∧ s'.work.card < s.work.card := by
  cases hp with
  | remove hi hdead => exact .inl (Finset.card_erase_lt_of_mem (h.work hi))
  | leave hi _ => exact .inr ⟨rfl, Finset.card_erase_lt_of_mem hi⟩

/-- **The turns come to an end.** -/
theorem Inv.terminates (h : Inv G s) : Acc (fun s' s => Pop G s s') s := by
  have hwf : WellFounded (@Prod.Lex Nat Nat (· < ·) (· < ·)) :=
    WellFounded.prod_lex Nat.lt_wfRel.wf Nat.lt_wfRel.wf
  generalize hm : (s.live.card, s.work.card) = m
  induction m using hwf.induction generalizing s with
  | _ m ih =>
    subst hm
    refine ⟨s, fun s' hp => ih _ ?_ (h.pop hp) rfl⟩
    apply Prod.lex_iff.mpr
    exact pop_decreases h hp

end

end Ece566.Worklist
