import Ece566.P1Statements

/- The P1 compiler is correct: on every tuple of arguments for which a program has a
   value, the parse succeeds and the function it builds returns that value. -/
namespace Ece566.P1

variable {args : List Word} {st : Parser} {env env' : Env}
variable {handleBitsliceID : String → Parse Value}

/-- The parameters, in order, hold the arguments from `argNo` on. -/
theorem inputs_spec : ∀ (ps : List String) (argNo : Nat) {st env}, Between args st env →
    bindParams env ps (args.drop argNo) = some env' →
    Wp (actInputs ps argNo) (fun _ st' => Between args st' env' ∧ env'.slices = env.slices) st
  | [], argNo, st, env, hb, he => by
    cases hd : args.drop argNo with
    | nil =>
      rw [hd] at he
      obtain rfl := Option.some.inj he
      exact Wp.pure' ⟨hb, rfl⟩
    | cons a as => rw [hd] at he; cases he
  | p :: ps, argNo, st, env, hb, he => by
    cases hd : args.drop argNo with
    | nil => rw [hd] at he; cases he
    | cons a as =>
      have hget : args[argNo]? = some a := by
        have h := congrArg List.head? hd
        simpa using h
      have has : as = args.drop (argNo + 1) := by
        rw [← List.tail_drop, hd]; rfl
      rw [hd] at he
      simp only [bindParams, has] at he
      refine Wp.bind' (setValueSlice_spec _ _) ?_
      intro _ _ e
      obtain rfl := e
      have ho : OthersDefault st p := fun y vs _ => hb.default y vs
      have hb' : Between args (st.setValue p ⟨.arg argNo, defaultSlice⟩) (env.setVar p a) :=
        ⟨hb.sim.setVar p ⟨.arg argNo, defaultSlice⟩ (Means.arg hb.sim.runs hget),
          ho.set (.arg argNo), hb.ids⟩
      exact (inputs_spec ps (argNo + 1) hb' he).mono fun _ s1 h => h

theorem entered_env_slices {l : BitsliceLhs} (h : l.enter env = some env') :
    env'.slices = env.slices := by
  unfold BitsliceLhs.enter at h
  split at h
  · rw [← Option.some.inj h]
  · rw [← Option.some.inj h]
  · split at h
    · rw [← Option.some.inj h]; rfl
    · cases h

/-- Assignments leave the slice names alone. -/
theorem assign_slices {l : BitsliceLhs} {e : Expr}
    (he : (Statement.assign l e).exec env = some env') : env'.slices = env.slices := by
  obtain ⟨env1, henter, he⟩ := Option.bind_eq_some_iff.mp he
  obtain ⟨⟨s, n⟩, -, he⟩ := Option.bind_eq_some_iff.mp he
  obtain ⟨v, -, he⟩ := Option.bind_eq_some_iff.mp he
  rw [← Option.some.inj he]
  exact (entered_env_slices henter : env1.slices = env.slices)

theorem statements_spec (hID : ReadsID handleBitsliceID) : ∀ (ss : List Statement) {st env},
    ss.all Statement.plain = true → (declared ss).Nodup →
    (∀ f ∈ declared ss, env.slices f = none) → Between args st env →
    execStatements env ss = some env' →
    Wp (actStatements handleBitsliceID ss) (fun _ st' => Between args st' env') st
  | [], st, env, _, _, _, hb, he => by
    obtain rfl := Option.some.inj he
    exact Wp.pure' hb
  | .assign l e :: ss, st, env, hp, hnd, hun, hb, he => by
    simp only [List.all_cons, Bool.and_eq_true, Statement.plain] at hp
    obtain ⟨env1, h1, he⟩ := Option.bind_eq_some_iff.mp he
    refine Wp.bind' (assignStatement_spec hID hp.1.1 hp.1.2 hb h1) fun _ s1 hb1 => ?_
    exact statements_spec hID ss hp.2 hnd (by rw [assign_slices h1]; exact hun) hb1 he
  | .slice fields :: ss, st, env, hp, hnd, hun, hb, he => by
    simp only [List.all_cons, Bool.and_eq_true, Statement.plain] at hp
    rw [declared, List.nodup_append] at hnd
    obtain ⟨hnd1, hnd2, hdisj⟩ := hnd
    obtain ⟨env1, h1, he⟩ := Option.bind_eq_some_iff.mp he
    have hun1 : ∀ f ∈ fields.map Field.name, env.slices f = none :=
      fun f hf => hun f (List.mem_append_left _ hf)
    obtain ⟨hw, hkeep⟩ := sliceStatement_spec hID hp.1 hnd1 hun1 hb h1
    refine Wp.bind' hw fun _ s1 hb1 => statements_spec hID ss hp.2 hnd2 ?_ hb1 he
    intro f hf
    rw [hkeep f fun hf' => hdisj f hf' f hf rfl]
    exact hun f (List.mem_append_right _ hf)

theorem Between.init : Between args Parser.init Env.init where
  sim :=
    { runs := ⟨[], rfl⟩
      vars := fun h => nomatch h
      undefined := fun _ => rfl
      slices := fun h => nomatch h
      undeclared := fun _ => rfl }
  default := fun _ _ h => nomatch h
  ids := rfl

/-- **P1 compiler correctness.** For a program of the plain forms, and arguments on
which it has a value, the grammar actions build a function that returns the value. -/
theorem compile_correct (hID : ReadsID handleBitsliceID) (p : Program) (hp : p.plain = true)
    (args : List Word) (v : Word) (he : p.eval args = some v) :
    ∃ ret st, (p.act handleBitsliceID).run Parser.init = some (ret, st) ∧
      runFunction args st.block ret = some v := by
  simp only [Program.plain, Bool.and_eq_true, decide_eq_true_eq] at hp
  obtain ⟨env1, h1, he⟩ := Option.bind_eq_some_iff.mp he
  obtain ⟨env2, h2, he⟩ := Option.bind_eq_some_iff.mp he
  have hw : Wp (p.act handleBitsliceID)
      (fun ret st => runFunction args st.block ret = some v) Parser.init := by
    refine Wp.bind' (inputs_spec p.params 0 Between.init (by rwa [List.drop_zero])) ?_
    intro _ s1 h
    obtain ⟨hb1, hs1⟩ := h
    refine Wp.bind' (statements_spec hID p.statements hp.1.1 hp.1.2
      (fun f _ => by rw [hs1]; rfl) hb1 h2) ?_
    intro _ s2 hb2
    exact (Expr.act_spec hID p.final hp.2 hb2.sim he).mono fun _ _ h => h.2.run
  obtain ⟨ret, st, hrun, hret⟩ := hw
  exact ⟨ret, st, hrun, hret⟩

/-- The identifier action as its caller relies on it. -/
def readID (x : String) : Parse Value := fun st =>
  (st.valueSliceDict x).map fun vs =>
    (vs.value, { st with bitsliceIsID := true, bitsliceRange := getInt32 1 })

theorem readID_reads : ReadsID readID := ⟨fun st x vs h => by
  show Option.map _ (st.valueSliceDict x) = _
  rw [h]; rfl⟩

/-- `in x`, `slice hi[8]:8, lo[8]:0`, `p.hi = x.lo`, `p[0] = 1`, `final {p.hi, p0}`. -/
def packProgram : Program where
  params := ["x"]
  statements :=
    [.slice [.wide "hi" (.bitslice (.number 8)) (.bitslice (.number 8)),
      .wide "lo" (.bitslice (.number 8)) (.bitslice (.number 0))],
     .assign (.dot (.id "p") "hi") (.bitslice (.dot (.id "x") "lo")),
     .assign (.bracket (.id "p") (.bitslice (.number 0))) (.bitslice (.number 1))]
  final := .bitslice (.list (.snoc (.one (.dot (.id "p") "hi")) (.bit (.id "p") 0)))

theorem compile_correct_pack : packProgram.plain = true ∧ packProgram.eval [0xAB] = some 0x157 ∧
    ∃ ret st, (packProgram.act readID).run Parser.init = some (ret, st) ∧
      runFunction [0xAB] st.block ret = some 0x157 :=
  ⟨by decide, by decide +kernel,
    compile_correct readID_reads packProgram (by decide) [0xAB] 0x157 (by decide +kernel)⟩

end Ece566.P1
