import Ece566.P1Exprs

/- Statements and programs. Between statements the dictionaries hold the environment,
   no slice is pending and no bare field is waiting to be numbered (`Between`); inside
   an assignment the entry of its variable, and only that one, carries the field the
   left-hand side denotes (`Selected`). -/
namespace Ece566.P1

/-- No entry of the value dictionary but perhaps `x`'s has a slice pending. -/
def OthersDefault (st : Parser) (x : String) : Prop :=
  ∀ y vs, y ≠ x → st.valueSliceDict y = some vs → vs.slice = defaultSlice

structure Between (args : List Word) (st : Parser) (env : Env) : Prop where
  sim : Sim args st env
  default : ∀ x vs, st.valueSliceDict x = some vs → vs.slice = defaultSlice
  ids : st.bitsliceFieldIds = []

/-- The entry of `x` holds the word `v` and, pending, the field `(s, n)`. -/
def Selected (args : List Word) (st : Parser) (x : String) (v : Word) (s n : Nat) : Prop :=
  ∃ vs, st.valueSliceDict x = some vs ∧ Means args st.block vs.value v ∧
    Means args st.block vs.slice.start (BitVec.ofNat 32 s) ∧
    Means args st.block vs.slice.range (BitVec.ofNat 32 n)

/-- In an assignment to `x`, after its left-hand side: the dictionaries hold the
environment and only the entry of `x` has a slice pending, the field `(s, n)`. -/
structure Pending (args : List Word) (st : Parser) (env : Env) (x : String) (s n : Nat) : Prop where
  sim : Sim args st env
  others : OthersDefault st x
  ids : st.bitsliceFieldIds = []
  selected : ∀ v, env.vars x = some v → Selected args st x v s n

variable {args : List Word} {st st' : Parser} {env env' : Env}

theorem Selected.grow {x : String} {v : Word} {s n : Nat} (h : Selected args st x v s n)
    (g : Grows args st st') : Selected args st' x v s n := by
  obtain ⟨vs, e, mv, ms, mn⟩ := h
  exact ⟨vs, by rw [g.vals, e], g.means _ _ mv, g.means _ _ ms, g.means _ _ mn⟩

theorem OthersDefault.grow {x : String} (h : OthersDefault st x) (g : Grows args st st') :
    OthersDefault st' x := by
  intro y vs hy e
  rw [g.vals] at e
  exact h y vs hy e

theorem Pending.grow {x : String} {s n : Nat} (h : Pending args st env x s n)
    (g : Grows args st st') : Pending args st' env x s n :=
  ⟨h.sim.grow g, h.others.grow g, g.ids.trans h.ids, fun v hv => (h.selected v hv).grow g⟩

theorem Between.grow (h : Between args st env) (g : Grows args st st') : Between args st' env :=
  ⟨h.sim.grow g, fun x vs e => h.default x vs (by rwa [g.vals] at e), g.ids.trans h.ids⟩

/-- Nothing pending is the whole word pending. -/
theorem Between.pending (h : Between args st env) (x : String) : Pending args st env x 0 32 where
  sim := h.sim
  others := fun y vs _ => h.default y vs
  ids := h.ids
  selected v hv := by
    obtain ⟨vs, e, m⟩ := h.sim.vars hv
    refine ⟨vs, e, m, ?_, ?_⟩ <;> rw [h.default x vs e]
    · exact Means.getInt32 m.runs 0
    · exact Means.getInt32 m.runs 32

theorem setKey_same {α : Type} (d : String → Option α) (k : String) (v : α) :
    setKey d k v k = some v := if_pos rfl

theorem setKey_ne {α : Type} (d : String → Option α) {k k' : String} (v : α) (h : k' ≠ k) :
    setKey d k v k' = d k' := if_neg h

section Setters
variable (st) (env) (x : String) (vs : ValueSlice) (sl : Slice) (v w : Word)

theorem setValue_same : (st.setValue x vs).valueSliceDict x = some vs := setKey_same _ _ _
theorem setValue_ne {y : String} (h : y ≠ x) :
    (st.setValue x vs).valueSliceDict y = st.valueSliceDict y := setKey_ne _ _ h
theorem setSlice_same : (st.setSlice x sl).slicesDict x = some sl := setKey_same _ _ _
theorem setSlice_ne {y : String} (h : y ≠ x) :
    (st.setSlice x sl).slicesDict y = st.slicesDict y := setKey_ne _ _ h
theorem setVar_same : (env.setVar x v).vars x = some v := setKey_same _ _ _
theorem setVar_ne {y : String} (h : y ≠ x) : (env.setVar x v).vars y = env.vars y :=
  setKey_ne _ _ h
theorem envSetSlice_same : (env.setSlice x v w).slices x = some (v, w) := setKey_same _ _ _
theorem envSetSlice_ne {y : String} (h : y ≠ x) : (env.setSlice x v w).slices y = env.slices y :=
  setKey_ne _ _ h

end Setters

/-- A new entry for `x` holding `v`. -/
theorem Sim.setVar (h : Sim args st env) (x : String) (vs : ValueSlice) {v : Word}
    (m : Means args st.block vs.value v) : Sim args (st.setValue x vs) (env.setVar x v) where
  runs := h.runs
  vars {y w} hy := by
    by_cases hx : y = x
    · subst hx
      rw [setVar_same, Option.some.injEq] at hy
      subst hy
      exact ⟨vs, setValue_same _ _ _, m⟩
    · rw [setVar_ne _ _ _ hx] at hy
      rw [setValue_ne _ _ _ hx]
      exact h.vars hy
  undefined {y} hy := by
    by_cases hx : y = x
    · subst hx; rw [setVar_same] at hy; cases hy
    · rw [setVar_ne _ _ _ hx] at hy
      rw [setValue_ne _ _ _ hx]
      exact h.undefined hy
  slices := h.slices
  undeclared := h.undeclared

/-- Changing only the slice kept with `x`. -/
theorem Sim.setPending (h : Sim args st env) {x : String} {vs : ValueSlice}
    (hx : st.valueSliceDict x = some vs) (sl : Slice) :
    Sim args (st.setValue x { vs with slice := sl }) env where
  runs := h.runs
  vars {y w} hy := by
    obtain ⟨vs', e, m⟩ := h.vars hy
    by_cases hyx : y = x
    · subst hyx
      rw [hx, Option.some.injEq] at e
      subst e
      exact ⟨_, setValue_same _ _ _, m⟩
    · exact ⟨vs', by rw [setValue_ne _ _ _ hyx, e], m⟩
  undefined {y} hy := by
    by_cases hyx : y = x
    · subst hyx; rw [h.undefined hy] at hx; cases hx
    · rw [setValue_ne _ _ _ hyx, h.undefined hy]
  slices := h.slices
  undeclared := h.undeclared

/-- A new slice name. -/
theorem Sim.setSlice (h : Sim args st env) (f : String) (sl : Slice) {s n : Word}
    (ms : Means args st.block sl.start s) (mn : Means args st.block sl.range n) :
    Sim args (st.setSlice f sl) (env.setSlice f s n) where
  runs := h.runs
  vars := h.vars
  undefined := h.undefined
  slices {g s' n'} hg := by
    by_cases hgf : g = f
    · subst hgf
      rw [envSetSlice_same, Option.some.injEq, Prod.mk.injEq] at hg
      obtain ⟨rfl, rfl⟩ := hg
      exact ⟨sl, setSlice_same _ _ _, ms, mn⟩
    · rw [envSetSlice_ne _ _ _ _ hgf] at hg
      rw [setSlice_ne _ _ _ hgf]
      exact h.slices hg
  undeclared {g} hg := by
    by_cases hgf : g = f
    · subst hgf; rw [envSetSlice_same] at hg; cases hg
    · rw [envSetSlice_ne _ _ _ _ hgf] at hg
      rw [setSlice_ne _ _ _ hgf]
      exact h.undeclared hg

/-- An entry of `x` with nothing pending leaves nothing pending anywhere. -/
theorem OthersDefault.set {x : String} (h : OthersDefault st x) (val : Value) :
    ∀ y vs, (st.setValue x ⟨val, defaultSlice⟩).valueSliceDict y = some vs →
      vs.slice = defaultSlice := by
  intro y vs e
  by_cases hy : y = x
  · subst hy
    rw [setValue_same, Option.some.injEq] at e
    subst e
    rfl
  · rw [setValue_ne _ _ _ hy] at e
    exact h y vs hy e

theorem setValueSlice_spec (x : String) (vs : ValueSlice) :
    Wp (setValueSlice x vs) (fun _ s => s = st.setValue x vs) st := Wp.modify' rfl

/-! The assignment action. -/

/-- With the field `(s, n)` of `x` pending, `x` gets the low bits of `e` there, and its
entry the default slice. -/
theorem actAssign_spec {x : String} {e : Value} {xv ev : Word} {s n : Nat}
    (h : Pending args st env x s n) (hx : env.vars x = some xv) (hin : maskable s n)
    (he : Means args st.block e ev) :
    Wp (actAssign x e) (fun _ st' =>
      Between args st' (env.setVar x (BitField.put xv s n ev))) st := by
  obtain ⟨⟨val, ⟨p, r⟩⟩, hx, mv, mp, mr⟩ := h.selected xv hx
  obtain ⟨hs32, hn1, hn32⟩ := hin
  have hs : (BitVec.ofNat 32 s).toNat = s := by simp; omega
  have hn : (BitVec.ofNat 32 n).toNat = n := by simp; omega
  refine Wp.bind' get_spec ?_
  intro _ st h
  obtain ⟨rfl, rfl⟩ := h
  simp only [hx]
  refine Wp.bind' (createMask_spec mp mr (by rw [hs, hn]; exact ⟨hs32, hn1, hn32⟩)) ?_
  intro mask s1 h
  obtain ⟨e1, m1⟩ := h
  rw [hs, hn] at m1
  refine Wp.bind' (create_spec (e1.means _ _ he) (e1.means _ _ mp) (evalBin_shl (by omega))) ?_
  intro expr s2 h
  obtain ⟨e2, m2⟩ := h
  rw [hs] at m2
  refine Wp.bind' (create_spec (e2.means _ _ m1) m2 rfl) ?_
  intro maskedExpr s3 h
  obtain ⟨e3, m3⟩ := h
  refine Wp.bind' (createNot_spec (e3.means _ _ (e2.means _ _ m1))) ?_
  intro invertedMask s4 h
  obtain ⟨e4, m4⟩ := h
  have e14 := ((e1.trans e2).trans e3).trans e4
  refine Wp.bind' (create_spec (e14.means _ _ mv) m4 rfl) ?_
  intro safeValue s5 h
  obtain ⟨e5, m5⟩ := h
  refine Wp.bind' (create_spec (e5.means _ _ (e4.means _ _ m3)) m5 rfl) ?_
  intro computedValue s6 h
  obtain ⟨e6, m6⟩ := h
  rw [BitField.masked_merge] at m6
  have g := ((e14.trans e5).trans e6).toGrows
  refine (setValueSlice_spec _ _).mono ?_
  intro _ _ e
  obtain rfl := e
  exact ⟨(h.sim.grow g).setVar x ⟨computedValue, defaultSlice⟩ m6,
    (h.others.grow g).set computedValue, g.ids.trans h.ids⟩

/-- A variable without an entry gets one holding the whole value. -/
theorem actAssign_new {x : String} {e : Value} {ev : Word} {s n : Nat}
    (h : Pending args st env x s n) (hx : env.vars x = none) (he : Means args st.block e ev) :
    Wp (actAssign x e) (fun _ st' => Between args st' (env.setVar x ev)) st := by
  refine Wp.bind' get_spec ?_
  intro _ st h
  obtain ⟨rfl, rfl⟩ := h
  simp only [h.sim.undefined hx]
  refine (setValueSlice_spec _ _).mono ?_
  intro _ _ e
  obtain rfl := e
  exact ⟨h.sim.setVar x ⟨e, defaultSlice⟩ he, h.others.set e, h.ids⟩

/-! Left-hand sides. -/

/-- `x` counted as 0 when it has no value. -/
def Env.entered (env : Env) (x : String) : Env :=
  match env.vars x with
  | some _ => env
  | none => env.setVar x 0

theorem enter_named (l : BitsliceLhs) (h : l.named = true) :
    l.enter env = some (env.entered l.var) := by
  cases l with
  | dot l f => cases hv : env.vars l.var <;> simp [BitsliceLhs.enter, BitsliceLhs.var, Env.entered, hv, h]
  | _ => cases h

theorem entered_slices (x : String) : (env.entered x).slices = env.slices := by
  unfold Env.entered; split <;> rfl

/-- The pending slice of `x` is replaced by a field of it. -/
theorem sliceFurther_spec {x : String} {sl : Slice} {xv start width : Word} {s n : Nat}
    (h : Pending args st env x s n) (hx : env.vars x = some xv)
    (ms : Means args st.block sl.start start) (mw : Means args st.block sl.range width) :
    Wp (sliceFurther x sl)
      (fun _ st' => Pending args st' env x (s + start.toNat) width.toNat) st := by
  obtain ⟨vs, hvs, mv, mp, -⟩ := h.selected xv hx
  refine Wp.bind' get_spec ?_
  intro _ st h
  obtain ⟨rfl, rfl⟩ := h
  simp only [hvs]
  refine Wp.bind' (create_spec mp ms rfl) ?_
  intro p s1 h
  obtain ⟨e1, m1⟩ := h
  have hvs1 : s1.valueSliceDict x = some vs := by rw [e1.vals, hvs]
  have hs : BitVec.ofNat 32 (s + start.toNat) = BitVec.ofNat 32 s + start := by
    rw [BitVec.ofNat_add, BitVec.ofNat_toNat, BitVec.setWidth_eq]
  refine (setValueSlice_spec _ _).mono ?_
  intro _ _ e
  obtain rfl := e
  have h1 := h.grow e1.toGrows
  refine ⟨h1.sim.setPending hvs1 _, ?_, h1.ids, ?_⟩
  · intro y vs' hy e
    exact h1.others y vs' hy (by rwa [setValue_ne _ _ _ hy] at e)
  · intro v hv
    rw [hx, Option.some.injEq] at hv
    subst hv
    refine ⟨_, setValue_same _ _ _, e1.means _ _ mv, by rw [hs]; exact m1, ?_⟩
    rw [BitVec.ofNat_toNat, BitVec.setWidth_eq]
    exact e1.means _ _ mw

/-- A variable without an entry gets one holding 0, with the slice pending. -/
theorem sliceFurther_new {x : String} {sl : Slice} {start width : Word}
    (h : Between args st env) (hx : env.vars x = none)
    (ms : Means args st.block sl.start start) (mw : Means args st.block sl.range width) :
    Wp (sliceFurther x sl) (fun _ st' =>
      Pending args st' (env.setVar x 0) x start.toNat width.toNat) st := by
  refine Wp.bind' get_spec ?_
  intro _ st h
  obtain ⟨rfl, rfl⟩ := h
  simp only [h.sim.undefined hx]
  refine (setValueSlice_spec _ _).mono ?_
  intro _ _ e
  obtain rfl := e
  have m0 : Means args st.block (getInt32 0) 0 := Means.getInt32 ms.runs 0
  refine ⟨h.sim.setVar x ⟨getInt32 0, sl⟩ m0, ?_, h.ids, ?_⟩
  · intro y vs hy e
    exact h.default y vs (by rwa [setValue_ne _ _ _ hy] at e)
  · intro v hv
    rw [setVar_same, Option.some.injEq] at hv
    subst hv
    refine ⟨_, setValue_same _ _ _, m0, ?_, ?_⟩
    · rw [BitVec.ofNat_toNat, BitVec.setWidth_eq]; exact ms
    · rw [BitVec.ofNat_toNat, BitVec.setWidth_eq]; exact mw

/-- The pending slice of `x` is replaced by a field of the whole word. -/
theorem replaceSlice_spec {x : String} {sl : Slice} {xv start : Word} {s n n' : Nat}
    (h : Pending args st env x s n) (hx : env.vars x = some xv)
    (ms : Means args st.block sl.start start) (mn : Means args st.block sl.range (BitVec.ofNat 32 n')) :
    Wp (replaceSlice x sl) (fun _ st' => Pending args st' env x start.toNat n') st := by
  obtain ⟨vs, hvs, mv, -⟩ := h.selected xv hx
  refine Wp.bind' get_spec ?_
  intro _ st h
  obtain ⟨rfl, rfl⟩ := h
  simp only [hvs]
  refine (setValueSlice_spec _ _).mono ?_
  intro _ _ e
  obtain rfl := e
  refine ⟨h.sim.setPending hvs _, ?_, h.ids, ?_⟩
  · intro y vs' hy e
    exact h.others y vs' hy (by rwa [setValue_ne _ _ _ hy] at e)
  · intro v hv
    rw [hx, Option.some.injEq] at hv
    subst hv
    refine ⟨_, setValue_same _ _ _, mv, ?_, mn⟩
    rw [BitVec.ofNat_toNat, BitVec.setWidth_eq]
    exact ms

section
variable {handleBitsliceID : String → Parse Value}

/-- A chain of named slices: the field it denotes is pending on its variable, which has
a value from then on. -/
theorem named_spec : ∀ (l : BitsliceLhs), l.named = true → ∀ {st s n}, Between args st env →
    l.field (env.entered l.var) = some (s, n) →
    Wp (l.act handleBitsliceID) (fun y st' => y = l.var ∧
      Pending args st' (env.entered l.var) l.var s n ∧ inside s n 32 ∧
      ∃ xv, (env.entered l.var).vars l.var = some xv) st
  | .dot (.id x) f, _, st, s, n, hb, hf => by
    obtain ⟨⟨start, width⟩, hsl, hf⟩ := Option.bind_eq_some_iff.mp hf
    rw [entered_slices] at hsl
    simp only at hf
    split at hf
    · rename_i hin
      obtain ⟨rfl, rfl⟩ := Prod.mk.inj (Option.some.inj hf)
      obtain ⟨sl, hd, ms, mw⟩ := hb.sim.slices hsl
      refine Wp.bind' (Wp.pure' (Q := fun y s => y = x ∧ s = st) ⟨rfl, rfl⟩) ?_
      intro _ _ h
      obtain ⟨rfl, rfl⟩ := h
      refine Wp.bind' get_spec ?_
      intro _ st h
      obtain ⟨rfl, rfl⟩ := h
      simp only [hd]
      simp only [BitsliceLhs.var, Nat.zero_add]
      unfold Env.entered
      cases hv : env.vars _ with
      | some xv =>
        refine Wp.bind' (sliceFurther_spec (hb.pending _) hv ms mw) ?_
        intro _ s1 h1
        exact Wp.pure' ⟨rfl, by simpa using h1, hin, xv, hv⟩
      | none =>
        refine Wp.bind' (sliceFurther_new hb hv ms mw) ?_
        intro _ s1 h1
        exact Wp.pure' ⟨rfl, h1, hin, 0, setVar_same _ _ _⟩
    · cases hf
  | .dot (.dot l g) f, hn, st, s, n, hb, hf => by
    obtain ⟨⟨s', n'⟩, hf', hf⟩ := Option.bind_eq_some_iff.mp hf
    obtain ⟨⟨start, width⟩, hsl, hf⟩ := Option.bind_eq_some_iff.mp hf
    simp only at hf
    split at hf
    · rename_i hin
      obtain ⟨rfl, rfl⟩ := Prod.mk.inj (Option.some.inj hf)
      refine Wp.bind' (named_spec (.dot l g) hn hb hf') ?_
      intro _ s1 h
      obtain ⟨rfl, h1, hin', xv, hv⟩ := h
      obtain ⟨sl, hd, ms, mw⟩ := h1.sim.slices hsl
      refine Wp.bind' get_spec ?_
      intro _ s1 h
      obtain ⟨rfl, rfl⟩ := h
      simp only [hd]
      refine Wp.bind' (sliceFurther_spec h1 hv ms mw) ?_
      intro _ s2 h2
      refine Wp.pure' ⟨rfl, h2, ⟨hin.1, ?_⟩, xv, hv⟩
      have := hin.2
      have := hin'.2
      omega
    · cases hf
  | .dot (.bit _ _) _, hn, _, _, _, _, _ => by cases hn
  | .dot (.bracket _ _) _, hn, _, _, _, _, _ => by cases hn
  | .dot (.range _ _ _) _, hn, _, _, _, _, _ => by cases hn
  | .id _, hn, _, _, _, _, _ => by cases hn
  | .bit _ _, hn, _, _, _, _, _ => by cases hn
  | .bracket _ _, hn, _, _, _, _, _ => by cases hn
  | .range _ _ _, hn, _, _, _, _, _ => by cases hn

/-- Every left-hand side of the plain forms leaves the field it denotes pending. -/
theorem lhs_spec (hID : ReadsID handleBitsliceID) : ∀ (l : BitsliceLhs), l.plain = true →
    ∀ {st env' s n}, Between args st env → l.enter env = some env' → l.field env' = some (s, n) →
    Wp (l.act handleBitsliceID) (fun y st' => y = l.var ∧ Pending args st' env' l.var s n ∧
      inside s n 32 ∧ (env'.vars l.var = none → s = 0 ∧ n = 32)) st
  | .id x, _, st, env', s, n, hb, he, hf => by
    obtain rfl : env = env' := by simpa [BitsliceLhs.enter] using he
    obtain ⟨rfl, rfl⟩ := Prod.mk.inj (Option.some.inj hf)
    exact Wp.pure' ⟨rfl, hb.pending x, by decide, fun _ => ⟨rfl, rfl⟩⟩
  | .bracket (.id x) e, hp, st, env', s, n, hb, he, hf => by
    cases hv : env.vars x with
    | none => simp [BitsliceLhs.enter, BitsliceLhs.var, hv, BitsliceLhs.named] at he
    | some xv =>
      obtain rfl : env = env' := by simpa [BitsliceLhs.enter, BitsliceLhs.var, hv] using he
      obtain ⟨i, hi, hf⟩ := Option.bind_eq_some_iff.mp hf
      split at hf
      · rename_i hin
        obtain ⟨rfl, rfl⟩ := Prod.mk.inj (Option.some.inj hf)
        refine Wp.bind' (Wp.pure' (Q := fun y s => y = x ∧ s = st) ⟨rfl, rfl⟩) ?_
        intro _ _ h
        obtain ⟨rfl, rfl⟩ := h
        refine Wp.bind' (Expr.act_spec hID e hp hb.sim hi) ?_
        intro p s1 h
        obtain ⟨g1, m1⟩ := h
        refine Wp.bind' (replaceSlice_spec ((hb.pending _).grow g1) hv m1
          (Means.getInt32 m1.runs 1)) ?_
        intro _ s2 h2
        refine Wp.pure' ⟨rfl, by rw [Nat.zero_add]; exact h2, by rw [Nat.zero_add]; exact hin, ?_⟩
        intro hnone
        rw [show env.vars (BitsliceLhs.bracket (.id _) e).var = some xv from hv] at hnone
        cases hnone
      · cases hf
  | .dot l f, hp, st, env', s, n, hb, he, hf => by
    have hn : (BitsliceLhs.dot l f).named = true := hp
    rw [enter_named _ hn, Option.some.injEq] at he
    subst he
    refine (named_spec _ hn hb hf).mono ?_
    intro y s1 h
    obtain ⟨hy, h1, hin, xv, hv⟩ := h
    exact ⟨hy, h1, hin, fun hnone => by rw [hv] at hnone; cases hnone⟩
  | .bracket (.bit _ _) _, hp, _, _, _, _, _, _, _ => by cases hp
  | .bracket (.dot _ _) _, hp, _, _, _, _, _, _, _ => by cases hp
  | .bracket (.bracket _ _) _, hp, _, _, _, _, _, _, _ => by cases hp
  | .bracket (.range _ _ _) _, hp, _, _, _, _, _, _, _ => by cases hp
  | .bit _ _, hp, _, _, _, _, _, _, _ => by cases hp
  | .range _ _ _, hp, _, _, _, _, _, _, _ => by cases hp

theorem assignStatement_spec (hID : ReadsID handleBitsliceID) {l : BitsliceLhs} {e : Expr}
    (hl : l.plain = true) (hp : e.plain = true) (hb : Between args st env)
    (he : (Statement.assign l e).exec env = some env') :
    Wp ((Statement.assign l e).act handleBitsliceID) (fun _ st' => Between args st' env') st := by
  obtain ⟨env1, henter, he⟩ := Option.bind_eq_some_iff.mp he
  obtain ⟨⟨s, n⟩, hf, he⟩ := Option.bind_eq_some_iff.mp he
  obtain ⟨v, hv, he⟩ := Option.bind_eq_some_iff.mp he
  obtain rfl := Option.some.inj he
  refine Wp.bind' (lhs_spec hID l hl hb henter hf) ?_
  intro _ s1 h
  obtain ⟨rfl, h1, hin, hnew⟩ := h
  refine Wp.bind' (Expr.act_spec hID e hp h1.sim hv) ?_
  intro val s2 h
  obtain ⟨g2, m2⟩ := h
  cases hx : env1.vars l.var with
  | some xv => exact actAssign_spec (h1.grow g2) hx hin.maskable m2
  | none =>
    obtain ⟨rfl, rfl⟩ := hnew hx
    rw [BitField.put_whole]
    exact actAssign_new (h1.grow g2) hx m2

/-! Slice statements. -/

/-- `map::insert` of a name that is not there yet. -/
theorem addSlice_spec {f : String} {sl : Slice} {s n : Word} (hb : Between args st env)
    (hf : env.slices f = none) (ms : Means args st.block sl.start s)
    (mn : Means args st.block sl.range n) :
    Wp (addSlice f sl) (fun _ st' => Between args st' (env.setSlice f s n)) st := by
  refine Wp.modify' ?_
  simp only [hb.sim.undeclared hf]
  exact ⟨hb.sim.setSlice f sl ms mn, hb.default, hb.ids⟩

/-- Names a slice statement does not declare keep their field. -/
theorem execFields_slices : ∀ (fields : List Field) {env env' : Env},
    execFields env fields = some env' →
    ∀ g, g ∉ fields.map Field.name → env'.slices g = env.slices g
  | [], _, _, he, _, _ => by rw [Option.some.inj he]
  | .bit f e :: rest, env, env', he, g, hg => by
    simp only [List.map_cons, List.mem_cons, not_or, Field.name] at hg
    obtain ⟨v, -, he⟩ := Option.bind_eq_some_iff.mp he
    rw [execFields_slices rest he g hg.2, envSetSlice_ne _ _ _ _ hg.1]
  | .wide f n e :: rest, env, env', he, g, hg => by
    simp only [List.map_cons, List.mem_cons, not_or, Field.name] at hg
    obtain ⟨v, -, he⟩ := Option.bind_eq_some_iff.mp he
    obtain ⟨w, -, he⟩ := Option.bind_eq_some_iff.mp he
    rw [execFields_slices rest he g hg.2, envSetSlice_ne _ _ _ _ hg.1]
  | .bare f :: rest, env, env', he, g, hg => by
    simp only [List.map_cons, List.mem_cons, not_or, Field.name] at hg
    exact execFields_slices rest he g hg.2

/-- After a new name is declared the remaining ones are still unused. -/
theorem unused_after {f : String} {s n : Word} {names : List String} (hf : f ∉ names)
    (hun : ∀ g ∈ f :: names, env.slices g = none) :
    ∀ g ∈ names, (env.setSlice f s n).slices g = none := by
  intro g hg
  have hgf : g ≠ f := fun e => hf (by rw [← e]; exact hg)
  rw [envSetSlice_ne _ _ _ _ hgf]
  exact hun g (List.mem_cons_of_mem f hg)

/-- The fields of a slice statement, when none of their names is in use. -/
theorem fields_spec (hID : ReadsID handleBitsliceID) : ∀ (fields : List Field) {st env env'},
    fields.all Field.plain = true → (fields.map Field.name).Nodup →
    (∀ f ∈ fields.map Field.name, env.slices f = none) → Between args st env →
    execFields env fields = some env' →
    Wp (actFields handleBitsliceID fields) (fun _ st' => Between args st' env') st
  | [], st, env, env', _, _, _, hb, he => by
    obtain rfl := Option.some.inj he
    exact Wp.pure' hb
  | .bit f e :: rest, st, env, env', hp, hnd, hun, hb, he => by
    simp only [List.all_cons, Bool.and_eq_true, Field.plain] at hp
    simp only [List.map_cons, List.nodup_cons, Field.name] at hnd hun
    obtain ⟨v, hv, he⟩ := Option.bind_eq_some_iff.mp he
    refine Wp.bind' (P := fun _ st' => Between args st' (env.setSlice f v 1)) ?_ fun _ s1 hb1 =>
      fields_spec hID rest hp.2 hnd.2 (unused_after hnd.1 hun) hb1 he
    refine Wp.bind' (Expr.act_spec hID e hp.1 hb.sim hv) ?_
    intro start s1 h
    obtain ⟨g1, m1⟩ := h
    exact addSlice_spec (hb.grow g1) (hun f (by simp)) m1 (Means.getInt32 m1.runs 1)
  | .wide f n e :: rest, st, env, env', hp, hnd, hun, hb, he => by
    simp only [List.all_cons, Bool.and_eq_true, Field.plain] at hp
    simp only [List.map_cons, List.nodup_cons, Field.name] at hnd hun
    obtain ⟨v, hv, he⟩ := Option.bind_eq_some_iff.mp he
    obtain ⟨w, hw, he⟩ := Option.bind_eq_some_iff.mp he
    refine Wp.bind' (P := fun _ st' => Between args st' (env.setSlice f v w)) ?_ fun _ s1 hb1 =>
      fields_spec hID rest hp.2 hnd.2 (unused_after hnd.1 hun) hb1 he
    refine Wp.bind' (Expr.act_spec hID n hp.1.1 hb.sim hw) ?_
    intro range s1 h
    obtain ⟨g1, m1⟩ := h
    refine Wp.bind' (Expr.act_spec hID e hp.1.2 (hb.sim.grow g1) hv) ?_
    intro start s2 h
    obtain ⟨g2, m2⟩ := h
    exact addSlice_spec (hb.grow (g1.trans g2)) (hun f (by simp)) m2 (g2.means _ _ m1)
  | .bare _ :: _, _, _, _, hp, _, _, _, _ => by simp [Field.plain] at hp

theorem bareNames_plain : ∀ (fields : List Field), fields.all Field.plain = true →
    bareNames fields = []
  | [], _ => rfl
  | .bit _ _ :: rest, h => bareNames_plain rest (by simp_all [Field.plain])
  | .wide _ _ _ :: rest, h => bareNames_plain rest (by simp_all [Field.plain])
  | .bare _ :: _, h => by simp [Field.plain] at h

theorem sliceStatement_spec (hID : ReadsID handleBitsliceID) {fields : List Field}
    (hp : fields.all Field.plain = true) (hnd : (fields.map Field.name).Nodup)
    (hun : ∀ f ∈ fields.map Field.name, env.slices f = none) (hb : Between args st env)
    (he : (Statement.slice fields).exec env = some env') :
    Wp ((Statement.slice fields).act handleBitsliceID) (fun _ st' => Between args st' env') st ∧
      ∀ g, g ∉ fields.map Field.name → env'.slices g = env.slices g := by
  obtain ⟨env1, hf, he⟩ := Option.bind_eq_some_iff.mp he
  rw [bareNames_plain fields hp] at he
  obtain rfl := Option.some.inj he
  refine ⟨?_, execFields_slices fields hf⟩
  refine Wp.bind' (fields_spec hID fields hp hnd hun hb hf) ?_
  intro _ s1 hb1
  refine Wp.bind' get_spec ?_
  intro _ s1 h
  obtain ⟨rfl, rfl⟩ := h
  rw [hb1.ids]
  refine Wp.bind' (Wp.pure' (Q := fun _ s => s = s1) rfl) ?_
  intro _ _ e
  obtain rfl := e
  exact Wp.modify' ⟨hb1.sim.grow ⟨rfl, rfl, hb1.ids.symm, fun _ _ h => h⟩, hb1.default, rfl⟩

end

end Ece566.P1
