import Mathlib

/- A write that is made late. A write to a place of its own makes what was written there
   before forgotten, and writing what is there changes nothing. A step ignores the place
   when it does the same whatever is written there first. Of two memories that take the
   same steps, all of them such, the one with writes in between and the other without, the
   second becomes the first by the last of those writes. -/
namespace Ece566.LateWrites

variable {X M R : Type} {put : X → M → M} {f : M → R × M} {last : Option X} {y : X} {m n : M}

structure Overwrites (put : X → M → M) : Prop where
  again : ∀ x y m, put y (put x m) = put y m
  back : ∀ m, ∃ x, put x m = m

/-- At `m`, the step `f` neither reads nor writes the place. -/
def Ignores (put : X → M → M) (f : M → R × M) (m : M) : Prop :=
  ∀ x, f (put x m) = ((f m).1, put x (f m).2)

/-- `m` has the writes, `last` the last of them, and `n` lacks them. -/
structure Lacks (put : X → M → M) (last : Option X) (m n : M) : Prop where
  lacks : ∃ x, n = put x m
  has : ∀ y, last = some y → put y m = m

namespace Lacks

theorem start (hp : Overwrites put) (m : M) : Lacks put none m m := by
  obtain ⟨x, hx⟩ := hp.back m
  exact ⟨⟨x, hx.symm⟩, fun _ h => nomatch h⟩

/-- Both take a step that ignores the place. -/
theorem ignored (h : Lacks put last m n) (hf : Ignores put f m) :
    (f n).1 = (f m).1 ∧ Lacks put last (f m).2 (f n).2 := by
  obtain ⟨x, rfl⟩ := h.lacks
  have hx := hf x
  refine ⟨by rw [hx], ⟨x, by rw [hx]⟩, fun y hy => ?_⟩
  have hy' := hf y
  rw [h.has y hy] at hy'
  exact (congrArg Prod.snd hy').symm

/-- The first alone takes the write. -/
theorem written (hp : Overwrites put) (h : Lacks put last m n) : Lacks put (some y) (put y m) n := by
  obtain ⟨x, rfl⟩ := h.lacks
  refine ⟨⟨x, (hp.again y x m).symm⟩, fun z hz => ?_⟩
  obtain rfl := Option.some.inj hz
  exact hp.again y y m

theorem settle (hp : Overwrites put) (h : Lacks put (some y) m n) : put y n = m := by
  obtain ⟨x, rfl⟩ := h.lacks
  rw [hp.again, h.has y rfl]

end Lacks

end Ece566.LateWrites
