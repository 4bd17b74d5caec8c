import Ece566.Exec
import Ece566.Stutter

/- Two functions that run alike. Removing an instruction whose value another value
   already holds wherever the instruction dominates changes nothing a run can show:
   the path, the memory, every event with its operands, and the registers that remain
   are the same in step. -/
namespace Ece566.Llvm

open Dominance Relation

variable {V M : Type} {S : Sem V M} {F F' G : Func} {m : M} {c d c' d' : Config V M}

/-- `d`, of a run of `F'`, shows what `c` shows; only instructions that are not in `F'`
make a difference. -/
structure Same (F' : Func) (c d : Config V M) : Prop where
  label : d.label = c.label
  next : d.next = c.next
  mem : d.st.mem = c.st.mem
  log : d.st.log = c.st.log
  path : d.st.path = c.st.path
  regs : ∀ {b n}, n ∈ F'.ids b → d.st.regs n = c.st.regs n
  rest : ∀ {b n}, n ∈ F'.ids b → (n ∈ d.rest.map Instr.id ↔ n ∈ c.rest.map Instr.id)
  ended : c.rest = [] → d.rest = []

/-- Every state of a run of either function is matched by one of the other, and where one
has ended so has the other. -/
def Simulates (F F' : Func) : Prop := ∀ (V M : Type) (S : Sem V M) (m : M),
  (∀ c, Reachable S F m c → ∃ d, Reachable S F' m d ∧ Same F' c d) ∧
    ∀ d, Reachable S F' m d → ∃ c, Reachable S F m c ∧ Same F' c d ∧ (d.rest = [] → c.rest = [])

theorem Same.refl (c : Config V M) : Same F c c :=
  ⟨rfl, rfl, rfl, rfl, rfl, fun _ => rfl, fun _ => Iff.rfl, id⟩

theorem Same.trans (hids : ∀ {b n}, n ∈ G.ids b → n ∈ F'.ids b) {e : Config V M}
    (h₁ : Same F' c d) (h₂ : Same G d e) : Same G c e where
  label := h₂.label.trans h₁.label
  next := h₂.next.trans h₁.next
  mem := h₂.mem.trans h₁.mem
  log := h₂.log.trans h₁.log
  path := h₂.path.trans h₁.path
  regs hn := (h₂.regs hn).trans (h₁.regs (hids hn))
  rest hn := (h₂.rest hn).trans (h₁.rest (hids hn))
  ended h := h₂.ended (h₁.ended h)

theorem Simulates.refl (F : Func) : Simulates F F := fun _ _ _ _ =>
  ⟨fun c h => ⟨c, h, Same.refl c⟩, fun d h => ⟨d, h, Same.refl d, id⟩⟩

theorem Simulates.trans (hids : ∀ {b n}, n ∈ G.ids b → n ∈ F'.ids b) (h₁ : Simulates F F')
    (h₂ : Simulates F' G) : Simulates F G := by
  intro V M S m
  refine ⟨?_, ?_⟩
  · intro c hc
    obtain ⟨d, hd, s₁⟩ := (h₁ V M S m).1 c hc
    obtain ⟨e, he, s₂⟩ := (h₂ V M S m).1 d hd
    exact ⟨e, he, s₁.trans hids s₂⟩
  · intro e he
    obtain ⟨d, hd, s₂, r₂⟩ := (h₂ V M S m).2 e he
    obtain ⟨c, hc, s₁, r₁⟩ := (h₁ V M S m).2 d hd
    exact ⟨c, hc, s₁.trans hids s₂, fun h => r₁ (r₂ h)⟩

/-! Removing one instruction. -/

/-- `v` holds the value of instruction `z` of block `a` wherever `z` dominates. -/
def Holds (F : Func) (a : Label) (z : Nat) (v : Value) : Prop :=
  ∀ (V M : Type) (S : Sem V M) (m : M) (c : Config V M), Reachable S F m c → c.Past F a z →
    ∀ ty, S.value c.st.regs v = S.value c.st.regs (.inst z ty)

/-- The states in step: `d` lacks `z`, and no register but that of `z` differs. -/
structure Lockstep (z : Nat) (v : Value) (c d : Config V M) : Prop where
  label : d.label = c.label
  next : d.next = c.next
  rest : d.rest = (c.rest.map fun i => i.replace z v).filter fun i => i.id != z
  mem : d.st.mem = c.st.mem
  log : d.st.log = c.st.log
  path : d.st.path = c.st.path
  regs : ∀ {n}, n ≠ z → d.st.regs n = c.st.regs n

/-- An instruction that leaves the memory and the log alone. -/
def Instr.isQuiet (i : Instr) : Bool := i.isPhi || i.op.opcode.isPure

theorem isQuiet_not_terminator {i : Instr} (h : i.isQuiet = true) : i.isTerminator = false := by
  unfold Instr.isQuiet Instr.isPhi at h
  unfold Instr.isTerminator
  cases ho : i.op.opcode <;> first | rfl | (rw [ho] at h; cases h)

theorem execInst_quiet {i : Instr} (h : i.isQuiet = true) (st : State V M) :
    (execInst S i st).mem = st.mem ∧ (execInst S i st).log = st.log ∧
      (execInst S i st).path = st.path := by
  unfold execInst
  split
  · exact ⟨rfl, rfl, rfl⟩
  · split
    · exact ⟨rfl, rfl, rfl⟩
    · simp_all [Instr.isQuiet]

namespace Lockstep

variable {z : Nat} {v : Value}

theorem same (h : Lockstep z v c d) : Same (F.substitute z v) c d where
  label := h.label
  next := h.next
  mem := h.mem
  log := h.log
  path := h.path
  regs hn := h.regs (mem_substitute_ids.mp hn).2
  rest {b n} hn := by
    have hz := (mem_substitute_ids.mp hn).2
    simp only [h.rest, List.mem_map, List.mem_filter]
    refine ⟨?_, ?_⟩
    · intro h
      obtain ⟨_, ⟨⟨i, hi, rfl⟩, -⟩, e⟩ := h
      exact ⟨i, hi, e⟩
    · intro h
      obtain ⟨i, hi, rfl⟩ := h
      exact ⟨i.replace z v, ⟨⟨i, hi, rfl⟩, by simpa using hz⟩, rfl⟩
  ended hc := by rw [h.rest, hc]; rfl

/-- An operand that is `z` reads the same from `v`. -/
theorem value (h : Lockstep z v c d) {a : Label} (hv : Holds F a z v) (hz : v.refersTo z = false)
    (hc : Reachable S F m c) {o : Value} (ho : o.refersTo z = true → c.Past F a z) :
    S.value d.st.regs (o.replace z v) = S.value c.st.regs o := by
  have hregs : ∀ {w : Value}, w.refersTo z = false →
      S.value d.st.regs w = S.value c.st.regs w := by
    intro w hw
    refine value_congr fun id ty e => h.regs ?_
    intro e
    obtain rfl := e
    simp [e, Value.refersTo] at hw
  cases hr : o.refersTo z with
  | true =>
    obtain ⟨ty, rfl⟩ := refersTo_iff.mp hr
    rw [Value.replace, hr, if_pos rfl, hregs hz]
    exact hv V M S m c hc (ho hr) ty
  | false => rw [replace_of_not_refersTo hr, hregs hr]

theorem args (h : Lockstep z v c d) {a : Label} (hv : Holds F a z v) (hz : v.refersTo z = false)
    (hF : F.SsaForm) (hza : z ∈ F.ids a) (hc : Reachable S F m c) {i : Instr} {rest : List Instr}
    (hr : c.rest = i :: rest) (hphi : i.isPhi = false) :
    (i.replace z v).args S d.st.regs = i.args S c.st.regs := by
  rw [Instr.args, Instr.args, replace_operands, List.map_map]
  refine List.map_congr_left fun o ho => h.value hv hz hc fun hoz => ?_
  obtain ⟨ty, rfl⟩ := refersTo_iff.mp hoz
  have hval := Reachable.valid hF hc
  exact hval.past_of_before hF hr (hF.uses (hval.mem_insts hr) hphi ho hza)

/-- The run of `F` alone runs `z`. -/
theorem skip (h : Lockstep z v c d) {i : Instr} {rest : List Instr} (hr : c.rest = i :: rest)
    (hi : i.id = z) (hq : i.isQuiet = true) : Lockstep z v ⟨c.label, rest,
      if i.isTerminator then chosen S i c.st else c.next, execInst S i c.st⟩ d := by
  obtain ⟨hm, hl, hp⟩ := execInst_quiet (S := S) hq c.st
  refine ⟨h.label, ?_, ?_, by rw [h.mem, hm], by rw [h.log, hl], by rw [h.path, hp], ?_⟩
  · rw [isQuiet_not_terminator hq]; exact h.next
  · rw [h.rest, hr, List.map_cons, List.filter_cons_of_neg (by simpa using hi)]
  · intro n hn
    rw [h.regs hn, execInst_regs i c.st (by rw [hi]; exact hn)]

/-- Both runs run an instruction other than `z`. -/
theorem inst (h : Lockstep z v c d) {a : Label} (hv : Holds F a z v) (hz : v.refersTo z = false)
    (hF : F.SsaForm) (hza : z ∈ F.ids a) (hc : Reachable S F m c) {i : Instr} {rest : List Instr}
    (hr : c.rest = i :: rest) (hi : i.id ≠ z) :
    ∃ d', step S (F.substitute z v) d = some d' ∧ Lockstep z v ⟨c.label, rest,
      if i.isTerminator then chosen S i c.st else c.next, execInst S i c.st⟩ d' := by
  have hdr : d.rest = i.replace z v ::
      (rest.map fun i => i.replace z v).filter fun i => i.id != z := by
    rw [h.rest, hr, List.map_cons, List.filter_cons_of_pos (by simpa using hi)]
  refine ⟨_, step_inst hdr, ?_⟩
  have hregs : ∀ {x : V} {n}, n ≠ z → assign d.st.regs i.id x n = assign c.st.regs i.id x n := by
    intro x n hn
    unfold assign
    rw [h.regs hn]
  by_cases hphi : i.isPhi = true
  · have hterm : i.isTerminator = false := isQuiet_not_terminator (by simp [Instr.isQuiet, hphi])
    simp only [execInst, replace_isPhi, hphi, if_true, replace_isTerminator, hterm]
    exact ⟨h.label, h.next, rfl, h.mem, h.log, h.path, h.regs⟩
  · have hargs := h.args hv hz hF hza hc hr (by simpa using hphi)
    have hchosen : chosen S (i.replace z v) d.st = chosen S i c.st := by
      rw [chosen, chosen, hargs, replace_op, replace_blocks, h.mem]
    rw [Bool.not_eq_true] at hphi
    cases hpure : i.op.opcode.isPure with
    | true =>
      simp only [execInst, replace_isPhi, hphi, replace_op, hpure, hargs, replace_isTerminator,
        hchosen, h.next, h.label, h.mem, replace_id, Bool.false_eq_true, if_false, if_true]
      exact ⟨rfl, rfl, rfl, rfl, h.log, h.path, fun hn => hregs hn⟩
    | false =>
      simp only [execInst, replace_isPhi, hphi, replace_op, hpure, hargs, replace_isTerminator,
        hchosen, h.next, h.label, h.mem, replace_id, Bool.false_eq_true, if_false]
      exact ⟨rfl, rfl, rfl, rfl, by rw [h.log], h.path, fun hn => hregs hn⟩

/-- Both runs enter the next block. -/
theorem enter (h : Lockstep z v c d) {a : Label} (hv : Holds F a z v) (hz : v.refersTo z = false)
    (hF : F.SsaForm) (hza : z ∈ F.ids a) (hc : Reachable S F m c) {b : Label} (hr : c.rest = [])
    (hn : c.next = some b) :
    ∃ d', step S (F.substitute z v) d = some d' ∧ Lockstep z v ⟨b, F.insts b, none,
      { c.st with
        regs := enter S c.label (F.insts b) c.st.regs, path := c.st.path ++ [b] }⟩ d' := by
  have hdr : d.rest = [] := by rw [h.rest, hr]; rfl
  refine ⟨_, step_enter hdr (h.next.trans hn), rfl, rfl, rfl, h.mem, h.log, by rw [h.path], ?_⟩
  intro n hnz
  show Llvm.enter S d.label (((F.insts b).map fun i => i.replace z v).filter fun i => i.id != z)
    d.st.regs n = _
  rw [Llvm.enter, List.filter_map, find?_edited (f := fun i => i.replace z v) (fun i => rfl) (by
    intro i _ hp
    simp only [Bool.and_eq_true, beq_iff_eq] at hp
    simpa [hp.2] using hnz)]
  simp only [Llvm.enter]
  cases hf : (F.insts b).find? fun i => i.isPhi && i.id == n with
  | none => exact h.regs hnz
  | some i =>
    have hi := List.mem_of_find?_eq_some hf
    have hphi : i.isPhi = true := by
      have := List.find?_some hf
      simp only [Bool.and_eq_true] at this
      exact this.1
    rw [Option.map_some, h.label]
    refine congrArg some (phiValue_map fun o ho => ?_)
    refine h.value hv hz hc fun hoz => ?_
    obtain ⟨ty, rfl⟩ := refersTo_iff.mp hoz
    by_cases hl : a = c.label
    · exact .inl ⟨hl, by simp [hr]⟩
    · exact .inr ⟨hl, hF.phiUses hi hphi ho hza⟩

end Lockstep

/-- The two runs, of which that of `F` makes one more step where it comes to `z`. -/
theorem lockstep_stutter (hF : F.SsaForm) {a : Label} {iz : Instr} (hiz : iz ∈ F.insts a)
    (hq : iz.isQuiet = true) {v : Value} (hz : v.refersTo iz.id = false) (hv : Holds F a iz.id v) :
    Stutter (step S F) (step S (F.substitute iz.id v))
      (fun c d => Reachable S F m c ∧ Lockstep iz.id v c d)
      (fun c => ∃ i rest, c.rest = i :: rest ∧ i.id = iz.id) (fun c => c.rest.length) := by
  have hza : iz.id ∈ F.ids a := mem_ids.mpr ⟨iz, hiz, rfl⟩
  have hquiet : ∀ {b i}, i ∈ F.insts b → i.id = iz.id → i.isQuiet = true := by
    intro b i hi e
    obtain rfl := hF.unique (mem_ids.mpr ⟨i, hi, e⟩) hza
    rw [hF.inst_eq hi hiz e]
    exact hq
  constructor
  case lags =>
    intro c d h hlag
    obtain ⟨hc, hl⟩ := h
    obtain ⟨i, rest, hr, hi⟩ := hlag
    have hstep := step_inst (S := S) (F := F) hr
    refine ⟨_, hstep, ⟨hc.tail hstep, hl.skip hr hi (hquiet ((hc.valid hF).mem_insts hr) hi)⟩, ?_⟩
    rw [hr]
    exact Nat.lt_succ_self _
  case goes =>
    intro c d c' h hlag hstep
    obtain ⟨hc, hl⟩ := h
    have hc' := hc.tail hstep
    rcases step_cases hstep with ⟨i, rest, hr, rfl⟩ | ⟨b, hr, hn, rfl⟩
    · obtain ⟨d', hd', hl'⟩ := hl.inst hv hz hF hza hc hr fun hi => hlag ⟨i, rest, hr, hi⟩
      exact ⟨d', hd', hc', hl'⟩
    · obtain ⟨d', hd', hl'⟩ := hl.enter hv hz hF hza hc hr hn
      exact ⟨d', hd', hc', hl'⟩
  case stops =>
    intro c d h _ hstep
    obtain ⟨-, hl⟩ := h
    cases hr : c.rest with
    | cons i rest =>
      rw [step_inst hr] at hstep
      cases hstep
    | nil =>
      cases hn : c.next with
      | some b =>
        rw [step_enter hr hn] at hstep
        cases hstep
      | none =>
        have hdr : d.rest = [] := by rw [hl.rest, hr]; rfl
        rw [step, hdr, hl.next.trans hn]

/-- **Removing an instruction whose value is held elsewhere.** -/
theorem substitute_simulates (hF : F.SsaForm) {a : Label} {iz : Instr} (hiz : iz ∈ F.insts a)
    (hq : iz.isQuiet = true) {v : Value} (hz : v.refersTo iz.id = false)
    (hv : Holds F a iz.id v) : Simulates F (F.substitute iz.id v) := by
  intro V M S m
  have hstutter := lockstep_stutter (S := S) (m := m) hF hiz hq hz hv
  have hinit : Reachable S F m (Config.init F m) ∧ Lockstep iz.id v (Config.init F m : Config V M)
      (Config.init (F.substitute iz.id v) m) :=
    ⟨.refl, rfl, rfl, rfl, rfl, rfl, rfl, fun _ => rfl⟩
  refine ⟨?_, ?_⟩
  · intro c hc
    obtain ⟨d, hd, -, hl⟩ := hstutter.forward hinit hc
    exact ⟨d, hd, hl.same⟩
  · intro d hd
    obtain ⟨c, hc, ⟨-, hl⟩, hlag⟩ := hstutter.backward hinit hd
    refine ⟨c, hc, hl.same, fun hdr => ?_⟩
    cases hr : c.rest with
    | nil => rfl
    | cons i rest =>
      -- what `c` is about to run is not `z`, so `d` is about to run it too
      have hi : i.id ≠ iz.id := fun hi => hlag ⟨i, rest, hr, hi⟩
      rw [hl.rest, hr, List.map_cons, List.filter_cons_of_pos (by simpa using hi)] at hdr
      cases hdr

end Ece566.Llvm
