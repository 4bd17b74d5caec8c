import Ece566.StoreElim

/- The runs of a function and of what is left of it when one instruction is erased. Here
   the instruction may touch the memory, so the two runs need not agree on it at every
   point: `R c m'` says what the memory `m'` of the second run has to do with the state
   `c` of the first. `Erasable` is what must be known of `R` and of the value that stands
   for the instruction; then whoever sees the events `obs`, and the memory at the ends of
   blocks, cannot tell the runs apart (`Refines`). -/
namespace Ece566.Llvm

open Dominance Relation

variable {V M X : Type} {obs : Event V M → Option X} {S : Sem V M} {F F' G : Func} {m m' : M}
variable {c d e : Config V M} {a b : Label} {i iz : Instr} {v : Value} {rest : List Instr}

/-- `d`, of a run of `F'`, shows what `c` shows. -/
structure Shows (obs : Event V M → Option X) (F' : Func) (c d : Config V M) : Prop where
  label : d.label = c.label
  next : d.next = c.next
  path : d.st.path = c.st.path
  log : d.st.log.filterMap obs = c.st.log.filterMap obs
  regs : ∀ {b n}, n ∈ F'.ids b → d.st.regs n = c.st.regs n
  rest : ∀ {b n}, n ∈ F'.ids b → (n ∈ d.rest.map Instr.id ↔ n ∈ c.rest.map Instr.id)
  ended : c.rest = [] → d.rest = [] ∧ d.st.mem = c.st.mem

/-- Every state of a run of either function from memory `m` is matched by one of the other, and
where one has ended a block so has the other. -/
def Refines (obs : Event V M → Option X) (S : Sem V M) (m : M) (F F' : Func) : Prop :=
  (∀ c, Reachable S F m c → ∃ d, Reachable S F' m d ∧ Shows obs F' c d) ∧
    ∀ d, Reachable S F' m d → ∃ c, Reachable S F m c ∧ Shows obs F' c d ∧ (d.rest = [] → c.rest = [])

theorem Shows.refl (c : Config V M) : Shows obs F c c :=
  ⟨rfl, rfl, rfl, rfl, fun _ => rfl, fun _ => Iff.rfl, fun h => ⟨h, rfl⟩⟩

theorem Shows.trans (hids : ∀ {b n}, n ∈ G.ids b → n ∈ F'.ids b) (h₁ : Shows obs F' c d)
    (h₂ : Shows obs G d e) : Shows obs G c e where
  label := h₂.label.trans h₁.label
  next := h₂.next.trans h₁.next
  path := h₂.path.trans h₁.path
  log := h₂.log.trans h₁.log
  regs hn := (h₂.regs hn).trans (h₁.regs (hids hn))
  rest hn := (h₂.rest hn).trans (h₁.rest (hids hn))
  ended h := by
    obtain ⟨hd, hm⟩ := h₁.ended h
    obtain ⟨he, hm'⟩ := h₂.ended hd
    exact ⟨he, hm'.trans hm⟩

theorem Refines.refl (F : Func) : Refines obs S m F F :=
  ⟨fun c h => ⟨c, h, Shows.refl c⟩, fun d h => ⟨d, h, Shows.refl d, id⟩⟩

theorem Refines.trans (hids : ∀ {b n}, n ∈ G.ids b → n ∈ F'.ids b) (h₁ : Refines obs S m F F')
    (h₂ : Refines obs S m F' G) : Refines obs S m F G := by
  refine ⟨?_, ?_⟩
  · intro c hc
    obtain ⟨d, hd, s₁⟩ := h₁.1 c hc
    obtain ⟨e, he, s₂⟩ := h₂.1 d hd
    exact ⟨e, he, s₁.trans hids s₂⟩
  · intro e he
    obtain ⟨d, hd, s₂, r₂⟩ := h₂.2 e he
    obtain ⟨c, hc, s₁, r₁⟩ := h₁.2 d hd
    exact ⟨c, hc, s₁.trans hids s₂, fun h => r₁ (r₂ h)⟩

/-! What a step leaves. -/

/-- The state after instruction `i`. -/
def Config.ran (S : Sem V M) (c : Config V M) (i : Instr) (rest : List Instr) : Config V M :=
  ⟨c.label, rest, if i.isTerminator then chosen S i c.st else c.next, execInst S i c.st⟩

/-- The state at the start of the next block. -/
def Config.entered (S : Sem V M) (F : Func) (c : Config V M) (b : Label) : Config V M :=
  ⟨b, F.insts b, none,
    { c.st with regs := enter S c.label (F.insts b) c.st.regs, path := c.st.path ++ [b] }⟩

/-- Where instruction `i` finds the arguments `args`, it does the same in either memory. -/
structure SameEffect (obs : Event V M → Option X) (S : Sem V M) (i : Instr) (args : List V)
    (mem mem' : M) : Prop where
  value : (S.effect i.op args mem').1 = (S.effect i.op args mem).1
  seen : obs ⟨i.op, args, mem', (S.effect i.op args mem').2⟩ =
    obs ⟨i.op, args, mem, (S.effect i.op args mem).2⟩
  branch : i.isTerminator = true → S.branch i.op args mem' = S.branch i.op args mem

theorem SameEffect.refl (i : Instr) (args : List V) (mem : M) : SameEffect obs S i args mem mem :=
  ⟨rfl, rfl, fun _ => rfl⟩

/-- `iz`, of block `a`, can go, and `v` can stand for it. -/
structure Erasable (obs : Event V M → Option X) (S : Sem V M) (F : Func) (m : M) (a : Label)
    (iz : Instr) (v : Value) (R : Config V M → M → Prop) : Prop where
  mem : iz ∈ F.insts a
  terminator : iz.isTerminator = false
  fresh : v.refersTo iz.id = false
  init : R (Config.init F m) m
  skip : ∀ {c rest m'}, Reachable S F m c → c.rest = iz :: rest → R c m' →
    R (c.ran S iz rest) m' ∧ (execInst S iz c.st).log.filterMap obs = c.st.log.filterMap obs
  quiet : ∀ {c i rest m'}, Reachable S F m c → c.rest = i :: rest → i.id ≠ iz.id →
    i.isQuiet = true → R c m' → R (c.ran S i rest) m'
  effect : ∀ {c i rest m'}, Reachable S F m c → c.rest = i :: rest → i.id ≠ iz.id →
    i.isQuiet = false → R c m' → SameEffect obs S i (i.args S c.st.regs) c.st.mem m' ∧
      R (c.ran S i rest) (S.effect i.op (i.args S c.st.regs) m').2
  ends : ∀ {c m'}, Reachable S F m c → c.rest = [] → R c m' → m' = c.st.mem
  enters : ∀ {c b}, Reachable S F m c → c.rest = [] → c.next = some b →
    R (c.entered S F b) c.st.mem
  holds : F.hasUses iz.id = true → ∀ {c}, Reachable S F m c → c.Past F a iz.id → ∀ ty,
    S.value c.st.regs v = S.value c.st.regs (.inst iz.id ty)

/-- An operand of an instruction is used. -/
theorem hasUses_of_mem (hF : F.SsaForm) (hi : i ∈ F.insts b) {o : Value} (ho : o ∈ i.operands) {z : Nat}
    (hz : o.refersTo z = true) : F.hasUses z = true := by
  have hall : i ∈ F.all := List.mem_flatMap.mpr ⟨b, hF.listed (List.ne_nil_of_mem hi), hi⟩
  exact List.any_eq_true.mpr ⟨i, hall, List.any_eq_true.mpr ⟨o, ho, hz⟩⟩

/-- The two runs: `d` lacks `z`, and no register but that of `z` differs. -/
structure Apart (obs : Event V M → Option X) (z : Nat) (v : Value) (R : Config V M → M → Prop)
    (c d : Config V M) : Prop where
  label : d.label = c.label
  next : d.next = c.next
  rest : d.rest = (c.rest.map fun i => i.replace z v).filter fun i => i.id != z
  log : d.st.log.filterMap obs = c.st.log.filterMap obs
  path : d.st.path = c.st.path
  regs : ∀ {n}, n ≠ z → d.st.regs n = c.st.regs n
  mem : R c d.st.mem

namespace Apart

variable {R : Config V M → M → Prop}

theorem shows (h : Apart obs iz.id v R c d) (he : Erasable obs S F m a iz v R)
    (hc : Reachable S F m c) : Shows obs (F.substitute iz.id v) c d where
  label := h.label
  next := h.next
  path := h.path
  log := h.log
  regs hn := h.regs (mem_substitute_ids.mp hn).2
  rest {b n} hn := by
    have hz := (mem_substitute_ids.mp hn).2
    simp only [h.rest, List.mem_map, List.mem_filter]
    refine ⟨?_, ?_⟩
    · intro h
      obtain ⟨_, ⟨⟨i, hi, rfl⟩, -⟩, e⟩ := h
      exact ⟨i, hi, e⟩
    · intro h
      obtain ⟨i, hi, rfl⟩ := h
      exact ⟨i.replace iz.id v, ⟨⟨i, hi, rfl⟩, by simpa using hz⟩, rfl⟩
  ended hr := ⟨by rw [h.rest, hr]; rfl, he.ends hc hr h.mem⟩

/-- An operand reads the same, `v` in the place of `iz` where the run is past `iz`. -/
theorem operand (h : Apart obs iz.id v R c d) (he : Erasable obs S F m a iz v R)
    (hc : Reachable S F m c) {o : Value}
    (ho : o.refersTo iz.id = true → F.hasUses iz.id = true ∧ c.Past F a iz.id) :
    S.value d.st.regs (o.replace iz.id v) = S.value c.st.regs o := by
  have hother : ∀ {w : Value}, w.refersTo iz.id = false →
      S.value d.st.regs w = S.value c.st.regs w := by
    intro w hw
    refine value_congr fun id ty e => h.regs ?_
    rintro rfl
    simp [e, Value.refersTo] at hw
  cases hr : o.refersTo iz.id with
  | true =>
    obtain ⟨ty, rfl⟩ := refersTo_iff.mp hr
    obtain ⟨hused, hpast⟩ := ho hr
    rw [Value.replace, hr, if_pos rfl, hother he.fresh]
    exact he.holds hused hc hpast ty
  | false => rw [replace_of_not_refersTo hr, hother hr]

theorem args (h : Apart obs iz.id v R c d) (he : Erasable obs S F m a iz v R) (hF : F.SsaForm)
    (hc : Reachable S F m c) (hr : c.rest = i :: rest) (hphi : i.isPhi = false) :
    (i.replace iz.id v).args S d.st.regs = i.args S c.st.regs := by
  rw [Instr.args, Instr.args, replace_operands, List.map_map]
  refine List.map_congr_left fun o ho => h.operand he hc fun hz => ?_
  have hval := hc.valid hF
  have hi := hval.mem_insts hr
  refine ⟨hasUses_of_mem hF hi ho hz, ?_⟩
  obtain ⟨ty, rfl⟩ := refersTo_iff.mp hz
  exact hval.past_of_before hF hr (hF.uses hi hphi ho (mem_ids.mpr ⟨iz, he.mem, rfl⟩))

/-- The run of `F` alone runs `iz`. -/
theorem skip (h : Apart obs iz.id v R c d) (he : Erasable obs S F m a iz v R)
    (hc : Reachable S F m c) (hr : c.rest = iz :: rest) : Apart obs iz.id v R (c.ran S iz rest) d := by
  obtain ⟨hmem, hlog⟩ := he.skip hc hr h.mem
  refine ⟨h.label, ?_, ?_, h.log.trans hlog.symm, ?_, ?_, hmem⟩
  · rw [Config.ran, he.terminator]
    exact h.next
  · rw [h.rest, hr, List.map_cons, List.filter_cons_of_neg (by simp)]
    rfl
  · rw [h.path]
    exact (execInst_path iz c.st).symm
  · intro n hn
    rw [h.regs hn]
    exact (execInst_regs iz c.st hn).symm

/-- Both runs run an instruction other than `iz`. -/
theorem inst (h : Apart obs iz.id v R c d) (he : Erasable obs S F m a iz v R) (hF : F.SsaForm)
    (hc : Reachable S F m c) (hr : c.rest = i :: rest) (hi : i.id ≠ iz.id) :
    ∃ d', step S (F.substitute iz.id v) d = some d' ∧ Apart obs iz.id v R (c.ran S i rest) d' := by
  have hdr : d.rest = i.replace iz.id v ::
      (rest.map fun i => i.replace iz.id v).filter fun i => i.id != iz.id := by
    rw [h.rest, hr, List.map_cons, List.filter_cons_of_pos (by simpa using hi)]
  refine ⟨_, step_inst hdr, ?_⟩
  have hregs : ∀ {x : V} {n}, n ≠ iz.id → assign d.st.regs i.id x n = assign c.st.regs i.id x n := by
    intro x n hn
    unfold assign
    rw [h.regs hn]
  cases hq : i.isQuiet with
  | true =>
    have hterm := isQuiet_not_terminator hq
    have hmem := he.quiet hc hr hi hq h.mem
    obtain ⟨-, hlog, hpath⟩ := execInst_quiet (S := S) hq c.st
    obtain ⟨hmem', hlog', hpath'⟩ := execInst_quiet (S := S) (i := i.replace iz.id v) hq d.st
    refine ⟨h.label, ?_, rfl, ?_, ?_, ?_, ?_⟩
    · simp only [Config.ran, replace_isTerminator, hterm]
      exact h.next
    · exact (congrArg _ hlog').trans (h.log.trans (congrArg _ hlog.symm))
    · exact hpath'.trans (h.path.trans hpath.symm)
    · intro n hn
      show (execInst S (i.replace iz.id v) d.st).regs n = (execInst S i c.st).regs n
      cases hphi : i.isPhi with
      | true => simpa only [execInst, replace_isPhi, hphi, if_true] using h.regs hn
      | false =>
        have hpure : i.op.opcode.isPure = true := by simpa [Instr.isQuiet, hphi] using hq
        simp only [execInst, replace_isPhi, hphi, replace_op, hpure, h.args he hF hc hr hphi, replace_id,
          Bool.false_eq_true, if_false, if_true]
        exact hregs hn
    · show R (c.ran S i rest) (execInst S (i.replace iz.id v) d.st).mem
      rw [hmem']
      exact hmem
  | false =>
    have hphi : i.isPhi = false := by
      rw [Instr.isQuiet, Bool.or_eq_false_iff] at hq
      exact hq.1
    have hpure : i.op.opcode.isPure = false := by
      rw [Instr.isQuiet, Bool.or_eq_false_iff] at hq
      exact hq.2
    obtain ⟨hsame, hmem⟩ := he.effect hc hr hi hq h.mem
    have hargs := h.args he hF hc hr hphi
    have hexec : execInst S i c.st = _ := execInst_effect hphi hpure
    have hexec' : execInst S (i.replace iz.id v) d.st = _ :=
      execInst_effect (i := i.replace iz.id v) hphi hpure
    rw [hargs, replace_op, replace_id] at hexec'
    refine ⟨h.label, ?_, rfl, ?_, ?_, ?_, ?_⟩
    · simp only [Config.ran, replace_isTerminator]
      by_cases hterm : i.isTerminator = true
      · simp only [hterm, if_true, chosen, hargs, replace_op, replace_blocks, hsame.branch hterm]
      · simp only [hterm, Bool.false_eq_true, if_false]
        exact h.next
    · show (execInst S (i.replace iz.id v) d.st).log.filterMap obs =
        (execInst S i c.st).log.filterMap obs
      rw [hexec, hexec', List.filterMap_append, List.filterMap_append, h.log]
      simp only [List.filterMap_cons, hsame.seen]
    · exact (execInst_path _ _).trans (h.path.trans (execInst_path _ _).symm)
    · intro n hn
      show (execInst S (i.replace iz.id v) d.st).regs n = (execInst S i c.st).regs n
      rw [hexec, hexec']
      show assign _ _ _ _ = assign _ _ _ _
      rw [hsame.value]
      exact hregs hn
    · show R (c.ran S i rest) (execInst S (i.replace iz.id v) d.st).mem
      rw [hexec']
      exact hmem

/-- Both runs enter the next block. -/
theorem enter (h : Apart obs iz.id v R c d) (he : Erasable obs S F m a iz v R) (hF : F.SsaForm)
    (hc : Reachable S F m c) (hr : c.rest = []) (hn : c.next = some b) :
    ∃ d', step S (F.substitute iz.id v) d = some d' ∧ Apart obs iz.id v R (c.entered S F b) d' := by
  have hdr : d.rest = [] := by rw [h.rest, hr]; rfl
  have hmem : d.st.mem = c.st.mem := he.ends hc hr h.mem
  refine ⟨_, step_enter hdr (h.next.trans hn), rfl, rfl, rfl, h.log, by rw [h.path]; rfl, ?_, ?_⟩
  · intro n hnz
    show Llvm.enter S d.label
      (((F.insts b).map fun i => i.replace iz.id v).filter fun i => i.id != iz.id) d.st.regs n = _
    rw [Llvm.enter, List.filter_map, find?_edited (f := fun i => i.replace iz.id v) (fun i => rfl) (by
      intro i _ hp
      simp only [Bool.and_eq_true, beq_iff_eq] at hp
      simpa [hp.2] using hnz)]
    simp only [Config.entered, Llvm.enter]
    cases hf : (F.insts b).find? fun i => i.isPhi && i.id == n with
    | none => exact h.regs hnz
    | some i =>
      have hi := List.mem_of_find?_eq_some hf
      have hphi : i.isPhi = true := by
        have := List.find?_some hf
        simp only [Bool.and_eq_true] at this
        exact this.1
      rw [Option.map_some, h.label]
      refine congrArg some (phiValue_map fun o ho => ?_)
      refine h.operand he hc fun hz => ⟨hasUses_of_mem hF hi (List.of_mem_zip ho).1 hz, ?_⟩
      obtain ⟨ty, rfl⟩ := refersTo_iff.mp hz
      by_cases hl : a = c.label
      · exact .inl ⟨hl, by simp [hr]⟩
      · exact .inr ⟨hl, hF.phiUses hi hphi ho (mem_ids.mpr ⟨iz, he.mem, rfl⟩)⟩
  · show R (c.entered S F b) d.st.mem
    rw [hmem]
    exact he.enters hc hr hn

end Apart

section
variable {R : Config V M → M → Prop}

/-- Of the two runs, that of `F` makes one more step where it comes to `iz`. -/
theorem Erasable.stutter (he : Erasable obs S F m a iz v R) (hF : F.SsaForm) :
    Stutter (step S F) (step S (F.substitute iz.id v))
      (fun c d => Reachable S F m c ∧ Apart obs iz.id v R c d)
      (fun c => ∃ rest, c.rest = iz :: rest) (fun c => c.rest.length) := by
  have hne : ∀ {c i rest}, Reachable S F m c → c.rest = i :: rest →
      (¬ ∃ rest, c.rest = iz :: rest) → i.id ≠ iz.id := by
    intro c i rest hc hr hlag e
    have hi := (hc.valid hF).mem_insts hr
    obtain hl := hF.unique (mem_ids.mpr ⟨i, hi, e⟩) (mem_ids.mpr ⟨iz, he.mem, rfl⟩)
    exact hlag ⟨rest, by rw [hr, hF.inst_eq (hl ▸ hi) he.mem e]⟩
  constructor
  case lags =>
    rintro c d ⟨hc, hl⟩ ⟨rest, hr⟩
    have hstep := step_inst (S := S) (F := F) hr
    refine ⟨_, hstep, ⟨hc.tail hstep, hl.skip he hc hr⟩, ?_⟩
    rw [hr]
    exact Nat.lt_succ_self _
  case goes =>
    rintro c d c' ⟨hc, hl⟩ hlag hstep
    have hc' := hc.tail hstep
    rcases step_cases hstep with ⟨i, rest, hr, rfl⟩ | ⟨b, hr, hn, rfl⟩
    · obtain ⟨d', hd', hl'⟩ := hl.inst he hF hc hr (hne hc hr hlag)
      exact ⟨d', hd', hc', hl'⟩
    · obtain ⟨d', hd', hl'⟩ := hl.enter he hF hc hr hn
      exact ⟨d', hd', hc', hl'⟩
  case stops =>
    rintro c d ⟨hc, hl⟩ _ hstep
    cases hr : c.rest with
    | cons i rest =>
      rw [step_inst hr] at hstep
      cases hstep
    | nil =>
      cases hn : c.next with
      | some b =>
        rw [step_enter hr hn] at hstep
        cases hstep
      | none =>
        have hdr : d.rest = [] := by rw [hl.rest, hr]; rfl
        rw [step, hdr, hl.next.trans hn]

/-- **Erasing one instruction.** -/
theorem Erasable.refines (he : Erasable obs S F m a iz v R) (hF : F.SsaForm) :
    Refines obs S m F (F.substitute iz.id v) := by
  have hinit : Reachable S F m (Config.init F m) ∧ Apart obs iz.id v R (Config.init F m : Config V M)
      (Config.init (F.substitute iz.id v) m) :=
    ⟨.refl, rfl, rfl, rfl, rfl, rfl, fun _ => rfl, he.init⟩
  refine ⟨?_, ?_⟩
  · intro c hc
    obtain ⟨d, hd, -, hl⟩ := (he.stutter hF).forward hinit hc
    exact ⟨d, hd, hl.shows he hc⟩
  · intro d hd
    obtain ⟨c, hc, ⟨-, hl⟩, hlag⟩ := (he.stutter hF).backward hinit hd
    refine ⟨c, hc, hl.shows he hc, fun hdr => ?_⟩
    cases hr : c.rest with
    | nil => rfl
    | cons i rest =>
      -- what `c` is about to run is not `iz`, so `d` is about to run it too
      have hi : i.id ≠ iz.id := by
        intro e
        have hib := (Reachable.valid hF hc).mem_insts hr
        obtain hlab := hF.unique (mem_ids.mpr ⟨i, hib, e⟩) (mem_ids.mpr ⟨iz, he.mem, rfl⟩)
        exact hlag ⟨rest, by rw [hr, hF.inst_eq (hlab ▸ hib) he.mem e]⟩
      rw [hl.rest, hr, List.map_cons, List.filter_cons_of_pos (by simpa using hi)] at hdr
      cases hdr

end

end Ece566.Llvm
