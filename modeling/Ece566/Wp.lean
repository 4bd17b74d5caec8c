import Mathlib

/- Total correctness for computations that carry a state and may fail. `Wp x Q s`
   says that `x` started in `s` does not fail and ends in a result and a state
   related by `Q`. The rules follow the shape of a program: one for each
   combinator, and consequence. -/
namespace Ece566

/-- From `s`, `x` succeeds with a result and a state satisfying `Q`. -/
def Wp {σ α : Type} (x : StateT σ Option α) (Q : α → σ → Prop) (s : σ) : Prop :=
  ∃ a s', x.run s = some (a, s') ∧ Q a s'

namespace Wp

variable {σ α β : Type} {s : σ}

theorem pure' {a : α} {Q : α → σ → Prop} (h : Q a s) : Wp (pure a) Q s :=
  ⟨a, s, rfl, h⟩

theorem mono {x : StateT σ Option α} {P Q : α → σ → Prop} (hx : Wp x P s)
    (h : ∀ a s', P a s' → Q a s') : Wp x Q s := by
  obtain ⟨a, s', e, p⟩ := hx
  exact ⟨a, s', e, h a s' p⟩

theorem bind' {x : StateT σ Option α} {f : α → StateT σ Option β} {P : α → σ → Prop}
    {Q : β → σ → Prop} (hx : Wp x P s) (hf : ∀ a s', P a s' → Wp (f a) Q s') :
    Wp (x >>= f) Q s := by
  obtain ⟨a, s', e, p⟩ := hx
  obtain ⟨b, s'', e', q⟩ := hf a s' p
  refine ⟨b, s'', ?_, q⟩
  rw [StateT.run_bind, e]
  exact e'

theorem map' {f : α → β} {x : StateT σ Option α} {Q : β → σ → Prop}
    (hx : Wp x (fun a s' => Q (f a) s') s) : Wp (f <$> x) Q s := by
  obtain ⟨a, s', e, q⟩ := hx
  refine ⟨f a, s', ?_, q⟩
  rw [StateT.run_map, e]
  rfl

theorem get' {Q : σ → σ → Prop} (h : Q s s) : Wp get Q s := ⟨s, s, rfl, h⟩

theorem get_bind {f : σ → StateT σ Option β} {Q : β → σ → Prop} (h : Wp (f s) Q s) :
    Wp (get >>= f) Q s := h

theorem modify' {f : σ → σ} {Q : PUnit → σ → Prop} (h : Q ⟨⟩ (f s)) : Wp (modify f) Q s :=
  ⟨⟨⟩, f s, rfl, h⟩

theorem and' {x : StateT σ Option α} {P Q : α → σ → Prop} (hp : Wp x P s) (hq : Wp x Q s) :
    Wp x (fun a s' => P a s' ∧ Q a s') s := by
  obtain ⟨a, s', e, p⟩ := hp
  obtain ⟨a', s'', e', q⟩ := hq
  rw [e, Option.some.injEq, Prod.mk.injEq] at e'
  obtain ⟨rfl, rfl⟩ := e'
  exact ⟨a, s', e, p, q⟩

/-- A run of a sequence is a run of its first part, then one of the rest. -/
theorem run_bind {x : StateT σ Option α} {f : α → StateT σ Option β} {b : β} {s'' : σ} :
    (x >>= f).run s = some (b, s'') ↔
      ∃ a s', x.run s = some (a, s') ∧ (f a).run s' = some (b, s'') := by
  rw [StateT.run_bind, Option.bind_eq_bind, Option.bind_eq_some_iff]
  refine ⟨?_, ?_⟩
  · intro h
    obtain ⟨⟨a, s'⟩, hx, hf⟩ := h
    exact ⟨a, s', hx, hf⟩
  · intro h
    obtain ⟨a, s', hx, hf⟩ := h
    exact ⟨(a, s'), hx, hf⟩

theorem run_bind_none {x : StateT σ Option α} {f : α → StateT σ Option β} (h : x.run s = none) :
    (x >>= f).run s = none := by
  rw [StateT.run_bind, h]; rfl

theorem run_bind_some {x : StateT σ Option α} {f : α → StateT σ Option β} {a : α} {s' : σ}
    (h : x.run s = some (a, s')) : (x >>= f).run s = (f a).run s' := by
  rw [StateT.run_bind, h]; rfl

theorem run_get_bind {f : σ → StateT σ Option β} : (get >>= f).run s = (f s).run s := rfl

end Wp

/-- From every state `x` succeeds, in a state that `R` relates to the first. -/
def Always {σ α : Type} (R : σ → σ → Prop) (x : StateT σ Option α) : Prop :=
  ∀ s, Wp x (fun _ s' => R s s') s

namespace Always

variable {σ α β : Type} {R S : σ → σ → Prop} {x : StateT σ Option α}

theorem pure' [Std.Refl R] (a : α) : Always R (pure a : StateT σ Option α) :=
  fun s => Wp.pure' (Std.Refl.refl s)

theorem get' [Std.Refl R] : Always R (get : StateT σ Option σ) :=
  fun s => Wp.get' (Std.Refl.refl s)

theorem bind' [IsTrans σ R] {f : α → StateT σ Option β} (hx : Always R x)
    (hf : ∀ a, Always R (f a)) : Always R (x >>= f) := fun s =>
  Wp.bind' (hx s) fun a s1 h1 => (hf a s1).mono fun _ s2 h2 => IsTrans.trans s s1 s2 h1 h2

theorem mono (hx : Always R x) (h : ∀ s s', R s s' → S s s') : Always S x :=
  fun s => (hx s).mono fun _ s' => h s s'

/-- Something that always succeeds, and then a result. -/
theorem then_pure (hx : Always R x) (b : β) (s : σ) :
    Wp (x >>= fun _ => pure b) (fun b' s' => b' = b ∧ R s s') s :=
  Wp.bind' (hx s) fun _ _ h => Wp.pure' ⟨rfl, h⟩

/-- Of the one run there is. -/
theorem run (hx : Always R x) {s s' : σ} {a : α} (h : x.run s = some (a, s')) : R s s' := by
  obtain ⟨b, s1, h1, hr⟩ := hx s
  rw [h, Option.some.injEq, Prod.mk.injEq] at h1
  obtain ⟨-, rfl⟩ := h1
  exact hr

end Always

/-- Started where `P` holds, `x` ends as `Q` says, unless it fails. -/
def Leads {σ α : Type} (P : σ → Prop) (x : StateT σ Option α) (Q : α → σ → Prop) : Prop :=
  ∀ s a s', P s → x.run s = some (a, s') → Q a s'

namespace Leads

variable {σ α β : Type} {R : σ → σ → Prop} {P : σ → Prop} {x : StateT σ Option α} {Q : α → σ → Prop}

theorem pure' {a : α} (h : ∀ s, P s → Q a s) : Leads P (pure a) Q := by
  intro s b s' hs hrun
  obtain ⟨rfl, rfl⟩ := Prod.mk.inj (Option.some.inj hrun)
  exact h s hs

theorem modify' {f : σ → σ} {Q : PUnit → σ → Prop} (h : ∀ s, P s → Q ⟨⟩ (f s)) : Leads P (modify f) Q := by
  intro s b s' hs hrun
  obtain ⟨rfl, rfl⟩ := Prod.mk.inj (Option.some.inj hrun)
  exact h s hs

theorem fail : Leads P (failure : StateT σ Option α) Q := fun _ _ _ _ hrun => nomatch hrun

theorem bind' {f : α → StateT σ Option β} {T : β → σ → Prop} (hx : Leads P x Q)
    (hf : ∀ a, Leads (Q a) (f a) T) : Leads P (x >>= f) T := by
  intro s b s' hs hrun
  obtain ⟨a, s₁, hrun₁, hrun₂⟩ := Wp.run_bind.mp hrun
  exact hf a s₁ b s' (hx s a s₁ hs hrun₁) hrun₂

theorem get_bind {f : σ → StateT σ Option α} (h : ∀ t, Leads P (f t) Q) : Leads P (get >>= f) Q :=
  fun s a s' hs hrun => h s s a s' hs hrun

theorem weaken {P' : σ → Prop} (h : ∀ s, P' s → P s) (hx : Leads P x Q) : Leads P' x Q :=
  fun s a s' hs hrun => hx s a s' (h s hs) hrun

theorem assuming {c : Prop} (h : c → Leads P x Q) : Leads (fun s => c ∧ P s) x Q :=
  fun s a s' hs hrun => h hs.1 s a s' hs.2 hrun

theorem of_always (hx : Always R x) (h : ∀ s s', R s s' → P s → P s') : Leads P x (fun _ => P) :=
  fun s _ s' hs hrun => h s s' (hx.run hrun) hs

end Leads

/-- Whenever `x` succeeds so does `y`, in the same way. -/
def Within {σ α : Type} (x y : StateT σ Option α) : Prop :=
  ∀ s r, x.run s = some r → y.run s = some r

namespace Within

variable {σ α β : Type} {x y : StateT σ Option α}

theorem refl (x : StateT σ Option α) : Within x x := fun _ _ h => h

theorem bind' {f g : α → StateT σ Option β} (hx : Within x y) (hf : ∀ a, Within (f a) (g a)) :
    Within (x >>= f) (y >>= g) := by
  intro s r h
  obtain ⟨a, s', ha, hr⟩ := Wp.run_bind.mp h
  exact Wp.run_bind.mpr ⟨a, s', hx s _ ha, hf a s' r hr⟩

end Within

/-- From `s`, `x` ends as `r` says if `c` holds, and fails otherwise. -/
def EndsIff {σ α : Type} (x : StateT σ Option α) (s : σ) (r : α × σ) (c : Prop) : Prop :=
  (c ∧ x.run s = some r) ∨ (¬ c ∧ x.run s = none)

namespace EndsIff

variable {σ α β : Type} {x : StateT σ Option α} {s : σ} {r : α × σ} {c d : Prop}

theorem of_run (h : x.run s = some r) (hc : c) : EndsIff x s r c := .inl ⟨hc, h⟩

theorem congr (h : EndsIff x s r c) (hcd : c ↔ d) : EndsIff x s r d := by
  unfold EndsIff
  rwa [← hcd]

theorem bind' {f : α → StateT σ Option β} {a : α} {s' : σ} {t : β × σ}
    (hx : EndsIff x s (a, s') c) (hf : EndsIff (f a) s' t d) : EndsIff (x >>= f) s t (c ∧ d) := by
  rcases hx with ⟨hc, hrun⟩ | ⟨hc, hrun⟩
  · have hbind : (x >>= f).run s = (f a).run s' := Wp.run_bind_some hrun
    rcases hf with ⟨hd, hrun⟩ | ⟨hd, hrun⟩
    · exact .inl ⟨⟨hc, hd⟩, hbind.trans hrun⟩
    · exact .inr ⟨fun h => hd h.2, hbind.trans hrun⟩
  · exact .inr ⟨fun h => hc h.1, Wp.run_bind_none hrun⟩

theorem get_bind {f : σ → StateT σ Option α} (h : EndsIff (f s) s r c) : EndsIff (get >>= f) s r c := h

end EndsIff

end Ece566
