import Ece566.LicmSound
import Ece566.Paths

/- Whether a load that may leave its loop would have run anyway. Where the address is
   neither a global nor an alloca the pass asks that the block of the load dominate the
   exits of the loop, so a run that leaves the loop has run the load. A run need not leave
   the loop: a loop may have no exit, a run may go round for ever past the load, and the
   call of an `invoke` may not return. The load runs in every visit exactly when no visit
   lingers so; and the graph of the function says whether one can. -/
namespace Ece566.Llvm

open Dominance Relation Paths

variable {V M : Type} {S : Sem V M} {F : Func} {L : Loop} {A : LoopAnalyses}
variable {a b p x y : Label} {i load : Instr} {v : Value} {m : M} {c d : Config V M}

/-- The terminators that may go on to none of their successors: the call of an `invoke` or a
`callbr` may not return, and a `catchswitch` may unwind to the caller. -/
def Opcode.mayStop : Opcode → Bool
  | .invoke | .callBr | .catchSwitch => true
  | _ => false

/-- Any other terminator with successors goes on to one of them. -/
def GoesOn (S : Sem V M) (F : Func) (m : M) : Prop :=
  ∀ c, Reachable S F m c → ∀ t rest, c.rest = t :: rest → t.isTerminator = true → t.blocks ≠ [] →
    t.op.opcode.mayStop = false → (chosen S t c.st).isSome = true

/-- A step that stays in the loop. -/
def Inside (S : Sem V M) (F : Func) (L : Loop) (c d : Config V M) : Prop :=
  step S F c = some d ∧ L.contains d.label = true

/-- The run is about to enter the loop from the preheader `p`. -/
structure Enters (S : Sem V M) (F : Func) (m : M) (L : Loop) (p : Label) (c : Config V M) : Prop where
  reachable : Reachable S F m c
  label : c.label = p
  rest : c.rest = []
  next : c.next = some L.header

/-- Each time the run from `m` enters the loop from the preheader `p` the load runs, before the run
leaves the loop if it does. -/
def LoadsFirst (S : Sem V M) (F : Func) (m : M) (L : Loop) (p : Label) (load : Instr) : Prop :=
  ∀ c, Enters S F m L p c → ∃ d rest, ReflTransGen (Inside S F L) c d ∧ d.rest = load :: rest

/-- The run from `m` enters the loop and stays in it, for ever or until it stops there, and never
comes to block `b`. -/
def Lingers (S : Sem V M) (F : Func) (m : M) (L : Loop) (p b : Label) : Prop :=
  ∃ c, Enters S F m L p c ∧
    ∀ d, TransGen (fun c d => step S F c = some d) c d → L.contains d.label = true ∧ d.label ≠ b

namespace Func

/-- From every block of the loop a path in the loop leads back to its header. -/
def IsNatural (F : Func) (L : Loop) : Prop :=
  ∀ x, L.contains x = true → TransGen (fun x y => F.Edge x y ∧ L.contains y = true) x L.header

/-- An edge in the loop that does not lead to block `b`. -/
def Around (F : Func) (L : Loop) (b x y : Label) : Prop := F.Edge x y ∧ L.contains y = true ∧ y ≠ b

/-- A run that has entered the loop can come to a cycle, or to a terminator that may stop, without
having passed block `b`. -/
def CanLinger (F : Func) (L : Loop) (b : Label) : Prop :=
  L.header ≠ b ∧ ∃ x, ReflTransGen (F.Around L b) L.header x ∧
    (TransGen (F.Around L b) x x ∨
      ∃ t ∈ F.insts x, t.isTerminator = true ∧ t.op.opcode.mayStop = true)

end Func

/-! Running through a block. -/

theorem run_rest (l : List Instr) : ∀ {c : Config V M} {rest : List Instr}, c.label = a →
    c.rest = l ++ rest → ∃ d, ReflTransGen (fun c d => step S F c = some d ∧ d.label = a) c d ∧
      d.label = a ∧ d.rest = rest ∧ d.st.path = c.st.path := by
  induction l with
  | nil => exact fun hl hr => ⟨_, .refl, hl, hr, rfl⟩
  | cons i l ih =>
    intro c rest hl hr
    obtain ⟨d, hd, hlabel, hrest, hp⟩ := @ih ⟨c.label, l ++ rest, _, _⟩ rest hl rfl
    exact ⟨d, .head ⟨step_inst hr, hl⟩ hd, hlabel, hrest, hp.trans (execInst_path i c.st)⟩

theorem Inside.of_label (ha : L.contains a = true)
    (h : ReflTransGen (fun c d => step S F c = some d ∧ d.label = a) c d) :
    ReflTransGen (Inside S F L) c d :=
  h.lift id fun _ _ ⟨hs, hl⟩ => ⟨hs, hl.symm ▸ ha⟩

theorem Reachable.run (hc : Reachable S F m c) {R : Config V M → Prop}
    (h : ReflTransGen (fun c d => step S F c = some d ∧ R d) c d) : Reachable S F m d :=
  ReflTransGen.trans hc (h.lift id fun _ _ h => h.1)

/-- The terminator is the last instruction of a block. -/
theorem isTerminator_iff (hF : F.SsaForm) {pre rest : List Instr} (hb : F.insts b = pre ++ i :: rest) :
    i.isTerminator = true ↔ rest = [] := by
  obtain ⟨body, t, he, ht, hbody⟩ := hF.terminated (List.ne_nil_of_mem (by rw [hb]; simp : i ∈ F.insts b))
  rw [hb] at he
  rcases List.eq_nil_or_concat rest with rfl | ⟨l, t', rfl⟩
  · obtain ⟨-, h⟩ := List.append_inj' he rfl
    obtain ⟨rfl, -⟩ := List.cons.inj h
    simp [ht]
  · rw [List.concat_eq_append, ← List.cons_append, ← List.append_assoc] at he
    obtain ⟨rfl, -⟩ := List.append_inj' he rfl
    have := hbody i (by simp)
    simp [this]

/-- A block has one terminator. -/
theorem terminator_unique (hF : F.SsaForm) {t t' : Instr} (ht : t ∈ F.insts b) (ht' : t' ∈ F.insts b)
    (hterm : t.isTerminator = true) (hterm' : t'.isTerminator = true) : t = t' := by
  obtain ⟨pre, rest, hsplit⟩ := List.append_of_mem ht
  obtain ⟨pre', rest', hsplit'⟩ := List.append_of_mem ht'
  obtain rfl := (isTerminator_iff hF hsplit).mp hterm
  obtain rfl := (isTerminator_iff hF hsplit').mp hterm'
  obtain ⟨-, h⟩ := List.append_inj' (hsplit.symm.trans hsplit') rfl
  exact (List.cons.inj h).1

theorem loads_in (hload : load ∈ F.insts b) (hb : L.contains b = true) (hl : c.label = b)
    (hr : c.rest = F.insts b) :
    ∃ d rest, ReflTransGen (Inside S F L) c d ∧ d.rest = load :: rest := by
  obtain ⟨pre, rest, hsplit⟩ := List.append_of_mem hload
  obtain ⟨d, hd, -, hrest, -⟩ := run_rest (S := S) (F := F) pre hl (hr.trans hsplit)
  exact ⟨d, rest, Inside.of_label hb hd, hrest⟩

/-- From the start of a block of the loop the run goes on to a successor. -/
theorem to_next (hF : F.SsaForm) (hgo : GoesOn S F m) (hc : Reachable S F m c)
    (hx : L.contains x = true) (hedge : F.Edge x y) (hl : c.label = x) (hr : c.rest = F.insts x)
    (hstop : ∀ t ∈ F.insts x, t.isTerminator = true → t.op.opcode.mayStop = false) :
    ∃ d z, ReflTransGen (Inside S F L) c d ∧ Reachable S F m d ∧ d.label = x ∧ d.rest = [] ∧
      d.next = some z ∧ F.Edge x z := by
  obtain ⟨t, ht, hterm, hy⟩ := hedge
  obtain ⟨pre, rest, hsplit⟩ := List.append_of_mem ht
  obtain rfl := (isTerminator_iff hF hsplit).mp hterm
  obtain ⟨d, hd, hlabel, hrest, -⟩ := run_rest (S := S) (F := F) pre hl (hr.trans hsplit)
  have hreach := hc.run hd
  obtain ⟨z, hz⟩ := Option.isSome_iff_exists.mp
    (hgo d hreach t [] hrest hterm (List.ne_nil_of_mem hy) (hstop t ht hterm))
  have hstep : step S F d = some ⟨d.label, [], some z, execInst S t d.st⟩ := by
    rw [step_inst hrest, if_pos hterm, hz]
  refine ⟨_, z, (Inside.of_label hx hd).tail ⟨hstep, hlabel.symm ▸ hx⟩, hreach.tail hstep, hlabel, rfl,
    rfl, t, ht, hterm, List.mem_of_getElem? hz⟩

/-! The visits of one run. -/

theorem edge_of_natural (hnat : F.IsNatural L) (hx : L.contains x = true) : ∃ y, F.Edge x y := by
  obtain ⟨y, e, -⟩ := TransGen.head'_iff.mp (hnat x hx)
  exact ⟨y, e.1⟩

theorem mem_getExitBlocks (hx : L.contains x = true) (e : F.Edge x y) (hy : ¬ L.contains y = true) :
    y ∈ getExitBlocks F L := by
  obtain ⟨t, ht, hterm, ht'⟩ := e
  simp only [getExitBlocks, List.mem_flatMap, List.mem_filter]
  exact ⟨x, List.contains_iff_mem.mp hx, t, ⟨ht, hterm⟩, ht', by simpa using hy⟩

theorem around_inside (hL : F.IsLoop L) (hne : L.header ≠ b)
    (h : ReflTransGen (F.Around L b) L.header x) : L.contains x = true ∧ x ≠ b := by
  cases h with
  | refl => exact ⟨hL.header, hne⟩
  | tail _ e => exact e.2

/-- A block of the loop does not dominate the exit at the end of a path around it. -/
theorem not_dom_of_around (hL : F.IsLoop L) (hp : F.IsPreheader L p) (hreach : Reach F.Edge F.entry p)
    (hb : L.contains b = true) (hne : L.header ≠ b) (h : ReflTransGen (F.Around L b) L.header x)
    (e : F.Edge x y) (hy : ¬ L.contains y = true) : ¬ F.Dom b y := by
  intro hdom
  have hpb : F.Dom p b := hL.preheader_dom hp.entered hb
  have hbp : b ≠ p := by
    intro e
    obtain rfl := e
    exact hp.entered.outside hb
  -- the preheader can be reached without passing `b`, and so can the exit
  have hav : Avoids F.Edge F.entry b p := by
    by_contra hno
    exact hbp (Dom.antisymm hno hpb hreach)
  have hx : Avoids F.Edge F.entry b x := by
    clear e
    induction h with
    | refl => exact hav.step hp.entered.edge hne
    | tail _ e ih => exact ih.step e.1 e.2.2
  refine hdom (hx.step e ?_)
  intro e
  obtain rfl := e
  exact hy hb

/-- A load of block `b` that the pass lets leave because `b` dominates the exits. -/
structure Guarded (F : Func) (L : Loop) (p b : Label) (load : Instr) : Prop where
  ssa : F.SsaForm
  loop : F.IsLoop L
  preheader : F.IsPreheader L p
  mem : load ∈ F.insts b
  inside : L.contains b = true
  exits : ∀ y ∈ getExitBlocks F L, F.Dom b y

namespace Guarded

variable (h : Guarded F L p b load)

include h

theorem label_eq (hc : Reachable S F m c) {rest : List Instr} (hr : c.rest = load :: rest) :
    c.label = b :=
  h.ssa.unique (mem_ids.mpr ⟨load, (hc.valid h.ssa).mem_insts hr, rfl⟩)
    (mem_ids.mpr ⟨load, h.mem, rfl⟩)

/-- The run has come to the block of the load, or is still on its way around it. -/
theorem on_the_way (hc : Enters S F m L p c) (hd : TransGen (fun c d => step S F c = some d) c d) :
    (∃ e, ReflTransGen (Inside S F L) c e ∧ e.label = b ∧ e.rest = F.insts b) ∨
      (ReflTransGen (Inside S F L) c d ∧ L.header ≠ b ∧
        ReflTransGen (F.Around L b) L.header d.label) := by
  have henter := step_enter (S := S) (F := F) hc.rest hc.next
  induction hd with
  | single hs =>
    obtain rfl := Option.some.inj (henter.symm.trans hs)
    have hin : ReflTransGen (Inside S F L) c _ := .single ⟨henter, h.loop.header⟩
    by_cases hb : L.header = b
    · exact .inl ⟨_, hin, hb, by rw [hb]⟩
    · exact .inr ⟨hin, hb, .refl⟩
  | @tail e _ he hs ih =>
    rcases ih with hcome | ⟨hin, hne, hx⟩
    · exact .inl hcome
    obtain ⟨hxin, -⟩ := around_inside h.loop hne hx
    rcases step_cases hs with ⟨i, rest, hr, rfl⟩ | ⟨y, hr, hn, rfl⟩
    · exact .inr ⟨hin.tail ⟨hs, hxin⟩, hne, hx⟩
    · have hv : Valid S F e := Reachable.valid h.ssa (hc.reachable.trans he.to_reflTransGen)
      have hpreach : Reach F.Edge F.entry p := hc.label ▸ (hc.reachable.valid h.ssa).reach
      by_cases hy : L.contains y = true
      · have hin' := hin.tail ⟨hs, hy⟩
        by_cases hyb : y = b
        · exact .inl ⟨_, hin', hyb, by rw [hyb]⟩
        · exact .inr ⟨hin', hne, hx.tail ⟨hv.next hn, hy, hyb⟩⟩
      · -- it cannot leave the loop so
        exact absurd (h.exits y (mem_getExitBlocks hxin (hv.next hn) hy))
          (not_dom_of_around h.loop h.preheader hpreach h.inside hne hx (hv.next hn) hy)

/-- **The load runs in every visit that does not linger.** -/
theorem loadsFirst_iff : LoadsFirst S F m L p load ↔ ¬ Lingers S F m L p b := by
  refine ⟨?_, ?_⟩
  · intro hfirst ⟨c, hc, hstays⟩
    obtain ⟨d, rest, hd, hr⟩ := hfirst c hc
    have hsteps : ReflTransGen (fun c d => step S F c = some d) c d := hd.lift id fun _ _ h => h.1
    rcases ReflTransGen.cases_head_iff.mp hsteps with rfl | ⟨e, he, hed⟩
    · rw [hc.rest] at hr
      cases hr
    · exact (hstays d (.head' he hed)).2 (h.label_eq (hc.reachable.trans hsteps) hr)
  · intro hno c hc
    by_contra hload
    -- a visit without the load stays around its block
    refine hno ⟨c, hc, fun d hd => ?_⟩
    rcases h.on_the_way hc hd with ⟨e, he, hl, hr⟩ | ⟨-, hne, hx⟩
    · obtain ⟨f, rest, hf, hfr⟩ := loads_in h.mem h.inside hl hr
      exact absurd ⟨f, rest, he.trans hf, hfr⟩ hload
    · exact around_inside h.loop hne hx

/-- In a graph where no run can linger. -/
theorem loadsFirst_of_acyclic (hnat : F.IsNatural L) (hlinger : ¬ F.CanLinger L b)
    (hgo : GoesOn S F m) : LoadsFirst S F m L p load := by
  refine h.loadsFirst_iff.mpr fun ⟨c, hc, hstays⟩ => ?_
  have henter := step_enter (S := S) (F := F) hc.rest hc.next
  have hne : L.header ≠ b := (hstays _ (.single henter)).2
  -- by induction on what can be reached from the header around `b`
  have key : ∀ d, TransGen (fun c d => step S F c = some d) c d → d.label = L.header →
      d.rest = F.insts L.header → False := by
    refine @acyclic_induction _ (F.Around L b) L.header L.getBlocks (fun x => ∀ d,
      TransGen (fun c d => step S F c = some d) c d → d.label = x → d.rest = F.insts x → False) ?_ ?_ ?_
    · exact fun x hx => List.contains_iff_mem.mp (around_inside h.loop hne hx).1
    · exact fun x hx hcyc => hlinger ⟨hne, x, hx, .inl hcyc⟩
    · intro x hx ih d hd hdl hdr
      obtain ⟨hin, -⟩ := around_inside h.loop hne hx
      obtain ⟨y', he⟩ := edge_of_natural hnat hin
      have hstop : ∀ t ∈ F.insts x, t.isTerminator = true → t.op.opcode.mayStop = false := by
        intro t ht hterm
        rw [← Bool.not_eq_true]
        exact fun hst => hlinger ⟨hne, x, hx, .inr ⟨t, ht, hterm, hst⟩⟩
      obtain ⟨e, y, hde, -, -, her, hen, hxy⟩ :=
        to_next h.ssa hgo (hc.reachable.trans hd.to_reflTransGen) hin he hdl hdr hstop
      have hnext := (hd.trans_left (hde.lift id fun _ _ h => h.1)).tail
        (step_enter (S := S) (F := F) her hen)
      obtain ⟨hy, hyb⟩ := hstays _ hnext
      exact ih y ⟨hxy, hy, hyb⟩ _ hnext rfl rfl
  exact key _ (.single henter) rfl rfl

end Guarded

/-! Where one can. -/

/-- A semantics whose memory is the choices to come; a terminator takes the first of them. -/
def choices : Sem Unit (Nat → Nat) where
  leaf _ := ()
  undef := ()
  compute _ _ := ()
  effect op _ m := ((), if op.opcode.isTerminator then fun k => m (k + 1) else m)
  branch _ _ m := m 0

/-- A path of the function and the choices that lead along it. `onward k` is where the terminator of
the `k`th block goes on to; where that is nowhere, it may stop. -/
structure OnPath (F : Func) (w : Nat → Label) (onward : Nat → Option Label) (choice : Nat → Nat) :
    Prop where
  ssa : F.SsaForm
  start : w 0 = F.entry
  endless : Endless F.Edge w
  goes : ∀ k, onward k = none ∨ onward k = some (w (k + 1))
  stops : ∀ k, onward k = none → ∀ t ∈ F.insts (w k), t.isTerminator = true → t.op.opcode.mayStop = true
  choice : ∀ k, ∀ t ∈ F.insts (w k), t.isTerminator = true → t.blocks[choice k]? = onward k

/-- The run is on the path `w`, and has not stopped before. -/
structure Follows (w : Nat → Label) (onward : Nat → Option Label) (choice : Nat → Nat)
    (c : Config Unit (Nat → Nat)) : Prop where
  label : c.label = w c.st.path.length
  ahead : c.rest ≠ [] → c.st.mem = fun k => choice (c.st.path.length + k)
  ended : c.rest = [] → c.next = onward c.st.path.length ∧
    c.st.mem = fun k => choice (c.st.path.length + 1 + k)
  live : ∀ k < c.st.path.length, onward k ≠ none

section
variable {w : Nat → Label} {onward : Nat → Option Label} {choice : Nat → Nat}
variable {C D : Config Unit (Nat → Nat)}

theorem choices_mem (hi : i.isTerminator = false) (st : State Unit (Nat → Nat)) :
    (execInst choices i st).mem = st.mem := by
  have hi : i.op.opcode.isTerminator = false := hi
  unfold execInst
  split
  · rfl
  · split
    · rfl
    · simp [choices, hi]

theorem exists_choice (hF : F.SsaForm) (hw : Endless F.Edge w)
    (honward : ∀ k, onward k = none ∨ onward k = some (w (k + 1))) : ∃ choice : Nat → Nat,
      ∀ k, ∀ t ∈ F.insts (w k), t.isTerminator = true → t.blocks[choice k]? = onward k := by
  suffices ∀ k, ∃ j : Nat, ∀ t ∈ F.insts (w k), t.isTerminator = true → t.blocks[j]? = onward k by
    choose choice h using this
    exact ⟨choice, h⟩
  intro k
  obtain ⟨t, ht, hterm, hy⟩ := hw k
  have honly : ∀ t' ∈ F.insts (w k), t'.isTerminator = true → t' = t :=
    fun t' ht' hterm' => terminator_unique hF ht' ht hterm' hterm
  rcases honward k with h | h
  · refine ⟨t.blocks.length, fun t' ht' hterm' => ?_⟩
    rw [honly t' ht' hterm', h, List.getElem?_eq_none le_rfl]
  · obtain ⟨j, hj⟩ := List.mem_iff_getElem?.mp hy
    refine ⟨j, fun t' ht' hterm' => ?_⟩
    rw [honly t' ht' hterm', h, hj]

namespace OnPath

theorem step (h : OnPath F w onward choice) (hf : Follows w onward choice C) (hv : Valid choices F C)
    (hs : Llvm.step choices F C = some D) : Follows w onward choice D := by
  rcases step_cases hs with ⟨i, rest, hr, rfl⟩ | ⟨y, hr, hn, rfl⟩
  · obtain ⟨pre, hpre⟩ := hv.suffix
    rw [hr] at hpre
    have hterm := isTerminator_iff h.ssa hpre
    have hmem := hf.ahead (by rw [hr]; exact List.cons_ne_nil i rest)
    refine ⟨?_, fun hne => ?_, fun hnil => ?_, ?_⟩
    · rw [execInst_path]
      exact hf.label
    · have hi : i.isTerminator = false := by
        rw [← Bool.not_eq_true, hterm]
        exact hne
      rw [execInst_path, choices_mem hi, hmem]
    · have hi := hterm.mpr hnil
      have hi' : i.op.opcode.isTerminator = true := hi
      have hmi : i ∈ F.insts (w C.st.path.length) := hf.label ▸ hv.mem_insts hr
      rw [execInst_path]
      refine ⟨?_, ?_⟩
      · rw [if_pos hi, chosen, ← h.choice _ i hmi hi]
        simp [choices, hmem]
      · rw [execInst_effect (isPhi_of_isTerminator hi) (not_pure_of_isTerminator hi)]
        simp only [choices, hi', if_true, hmem]
        funext k
        congr 1
        omega
    · rw [execInst_path]
      exact hf.live
  · obtain ⟨hnext, hmem⟩ := hf.ended hr
    have hy : onward C.st.path.length = some y := hnext.symm.trans hn
    obtain rfl : w (C.st.path.length + 1) = y := by
      rcases h.goes C.st.path.length with hno | hsome
      · rw [hno] at hy
        cases hy
      · exact Option.some.inj (hsome.symm.trans hy)
    refine ⟨by simp, fun _ => by simpa using hmem, fun hnil => ?_, fun k hk => ?_⟩
    · obtain ⟨t, ht, -⟩ := h.endless (C.st.path.length + 1)
      rw [show F.insts _ = [] from hnil] at ht
      cases ht
    · rw [List.length_append, List.length_singleton, Nat.lt_succ_iff] at hk
      rcases hk.lt_or_eq with hk | rfl
      · exact hf.live k hk
      · simp [hy]

theorem ne_nil (h : OnPath F w onward choice) (k : Nat) : F.insts (w k) ≠ [] := by
  obtain ⟨t, ht, -⟩ := h.endless k
  exact List.ne_nil_of_mem ht

theorem follows (h : OnPath F w onward choice) (hc : Reachable choices F choice C) :
    Follows w onward choice C := by
  induction hc with
  | refl =>
    refine ⟨h.start.symm, fun _ => by simp [Config.init], fun hnil => ?_, fun k hk => ?_⟩
    · exact absurd (h.start ▸ hnil) (h.ne_nil 0)
    · exact absurd hk k.not_lt_zero
  | tail hc hs ih => exact h.step ih (Reachable.valid h.ssa hc) hs

theorem goesOn (h : OnPath F w onward choice) : GoesOn choices F choice := by
  intro c hc t rest hr hterm _ hstop
  have hf := h.follows hc
  have ht : t ∈ F.insts (w c.st.path.length) := hf.label ▸ (hc.valid h.ssa).mem_insts hr
  have hmem := hf.ahead (by rw [hr]; exact List.cons_ne_nil t rest)
  have hchosen : chosen choices t c.st = onward c.st.path.length := by
    rw [chosen, ← h.choice _ t ht hterm]
    simp [choices, hmem]
  rw [hchosen, Option.isSome_iff_ne_none]
  intro hno
  rw [h.stops _ hno t ht hterm] at hstop
  cases hstop

/-- The run comes to the end of every block of the path up to where it stops. -/
theorem reaches (h : OnPath F w onward choice) (n : Nat) (hlive : ∀ k < n, onward k ≠ none) :
    ∃ c, Reachable choices F choice c ∧ c.st.path.length = n ∧ c.rest = [] := by
  induction n with
  | zero =>
    obtain ⟨d, hd, -, hr, hp⟩ := @run_rest _ _ choices F F.entry (F.insts F.entry)
      (Config.init F choice) [] rfl (List.append_nil _).symm
    exact ⟨d, Reachable.run .refl hd, by rw [hp]; rfl, hr⟩
  | succ n ih =>
    obtain ⟨c, hc, hlen, hr⟩ := ih fun k hk => hlive k (hk.trans (Nat.lt_succ_self n))
    obtain ⟨y, hy⟩ := Option.ne_none_iff_exists'.mp (hlive n (Nat.lt_succ_self n))
    obtain ⟨e, hstep, hrest, hlen'⟩ : ∃ e, Llvm.step choices F c = some e ∧
        e.rest = F.insts e.label ++ [] ∧ e.st.path.length = n + 1 := by
      refine ⟨_, step_enter hr (((h.follows hc).ended hr).1.trans (hlen ▸ hy)),
        (List.append_nil _).symm, ?_⟩
      simp [hlen]
    obtain ⟨d, hd, -, hr', hp⟩ := run_rest (S := choices) (F := F) _ rfl hrest
    exact ⟨d, Reachable.run (hc.tail hstep) hd, by rw [hp, hlen'], hr'⟩

end OnPath

end

/-- A run never comes back along its path. -/
theorem path_mono (h : ReflTransGen (Inside S F L) c d) :
    c.st.path.length ≤ d.st.path.length := by
  induction h with
  | refl => exact le_rfl
  | tail _ hs ih =>
    refine ih.trans ?_
    rcases step_cases hs.1 with ⟨i, rest, hr, rfl⟩ | ⟨y, hr, hn, rfl⟩
    · rw [execInst_path]
    · simp

/-- Where a run can linger: a path from the header, around the block up to where it may stop. -/
theorem exists_lingering (hL : F.IsLoop L) (hnat : F.IsNatural L) (hc : F.CanLinger L b) :
    ∃ (w : Nat → Label) (stop : Nat → Prop), w 0 = L.header ∧ Endless F.Edge w ∧
      (∀ k, (∀ j ≤ k, ¬ stop j) → F.Around L b (w k) (w (k + 1))) ∧
      ∀ k, stop k → ∃ t ∈ F.insts (w k), t.isTerminator = true ∧ t.op.opcode.mayStop = true := by
  obtain ⟨hne, x, hx, hcyc | hstop⟩ := hc
  · obtain ⟨w, hw, hround⟩ := exists_endless hcyc hx
    exact ⟨w, fun _ => False, hw, fun k => (hround k).1, fun k _ => hround k, fun _ h => h.elim⟩
  · -- from where it may stop the path goes back to the header
    have hback : TransGen F.Edge x L.header :=
      (hnat x (around_inside hL hne hx).1).lift id fun _ _ e => e.1
    have hround : ReflTransGen F.Edge L.header x := hx.lift id fun _ _ e => e.1
    obtain ⟨w₀, hw₀, hend⟩ := exists_endless (hback.trans_left hround) .refl
    obtain ⟨w, n, hw, hwend, hn, haround⟩ := hend.extend (fun e => e.1) (hw₀ ▸ hx)
    refine ⟨w, fun k => k = n, hw, hwend, fun k hk => haround k ?_, ?_⟩
    · by_contra hno
      exact hk n (Nat.le_of_not_lt hno) rfl
    · rintro k rfl
      have hwx : w k = x := (hn 0).trans hw₀
      exact hwx ▸ hstop

/-- A path from the header, stopping where it may, is taken by some run from the preheader. -/
theorem Guarded.exists_onPath (h : Guarded F L p b load) {w₀ : Nat → Label} {stop : Nat → Prop}
    (hw₀ : w₀ 0 = L.header) (hend : Endless F.Edge w₀)
    (hstops : ∀ k, stop k → ∃ t ∈ F.insts (w₀ k), t.isTerminator = true ∧ t.op.opcode.mayStop = true) :
    ∃ w n onward choice, OnPath F w onward choice ∧ (∀ k, w (n + k) = Paths.cons p w₀ k) ∧
      ∀ k, onward k = none ↔ n < k ∧ stop (k - (n + 1)) := by
  classical
  have hreach : ReflTransGen F.Edge F.entry p := by
    obtain ⟨t, ht, -⟩ := h.preheader.entered.edge
    exact h.ssa.reachable (List.ne_nil_of_mem ht)
  -- the path from the entry to the preheader, and then into the loop
  have hcons : Endless F.Edge (Paths.cons p w₀) := hend.cons (hw₀ ▸ h.preheader.entered.edge)
  obtain ⟨w, n, hstart, hw, hn, -⟩ := hcons.extend id hreach
  let onward : Nat → Option Label :=
    fun k => if n < k ∧ stop (k - (n + 1)) then none else some (w (k + 1))
  have hnone : ∀ k, onward k = none ↔ n < k ∧ stop (k - (n + 1)) := fun k => by simp [onward]
  have hgoes : ∀ k, onward k = none ∨ onward k = some (w (k + 1)) :=
    fun k => ite_eq_or_eq _ _ _
  obtain ⟨choice, hchoice⟩ := exists_choice h.ssa hw hgoes
  refine ⟨w, n, onward, choice, ⟨h.ssa, hstart, hw, hgoes, fun k hk t ht hterm => ?_, hchoice⟩, hn, hnone⟩
  obtain ⟨hlt, hstop⟩ := (hnone k).mp hk
  obtain ⟨t', ht', hterm', hmay⟩ := hstops _ hstop
  obtain ⟨j, rfl⟩ := Nat.exists_eq_add_of_lt hlt
  have hwk : w (n + j + 1) = w₀ (n + j + 1 - (n + 1)) := by
    rw [Nat.add_assoc, hn, show n + (j + 1) - (n + 1) = j by omega]
    rfl
  rw [← hwk] at ht'
  rw [terminator_unique h.ssa ht ht' hterm hterm']
  exact hmay

/-- A run that goes round for ever past the block of the load, or stops before it. -/
theorem Guarded.exists_skipped (h : Guarded F L p b load) (hnat : F.IsNatural L)
    (hc : F.CanLinger L b) : ∃ choice, GoesOn choices F choice ∧ ¬ LoadsFirst choices F choice L p load := by
  obtain ⟨w₀, stop, hw₀, hend, haround, hstops⟩ := exists_lingering h.loop hnat hc
  obtain ⟨w, n, onward, choice, hpath, hn, hnone⟩ := h.exists_onPath hw₀ hend hstops
  have hlive : ∀ k, k ≤ n → onward k ≠ none :=
    fun k hk hno => absurd ((hnone k).mp hno).1 (Nat.not_lt.mpr hk)
  obtain ⟨c, hcr, hlen, hrest⟩ := hpath.reaches n fun k hk => hlive k hk.le
  have hf := hpath.follows hcr
  have henters : Enters choices F choice L p c := by
    refine ⟨hcr, by rw [hf.label, hlen]; exact hn 0, hrest, ?_⟩
    rw [(hf.ended hrest).1, hlen, (hpath.goes n).resolve_left (hlive n le_rfl), ← hw₀]
    exact congrArg some (hn 1)
  refine ⟨choice, hpath.goesOn, fun hfirst => ?_⟩
  obtain ⟨d, rest, hd, hdr⟩ := hfirst c henters
  have hdreach : Reachable choices F choice d := hcr.run (hd.lift id fun _ _ h => h)
  have hdf := hpath.follows hdreach
  -- the run is at the preheader or around the block, and that is not where the load is
  obtain ⟨k, hk⟩ := Nat.exists_eq_add_of_le (hlen ▸ path_mono hd)
  have hwk : Paths.cons p w₀ k = b := by
    rw [← hn, ← hk, ← hdf.label, h.label_eq hdreach hdr]
  match k, hk, hwk with
  | 0, _, e =>
    have e : p = b := e
    exact h.preheader.entered.outside (show L.contains p = true from e ▸ h.inside)
  | 1, _, e => exact hc.1 (hw₀.symm.trans e)
  | k + 2, hk, e =>
    refine (haround k fun j hj hstop => ?_).2.2 e
    refine hdf.live (n + 1 + j) (by omega) ((hnone _).mpr ⟨by omega, ?_⟩)
    rwa [Nat.add_sub_cancel_left]

/-- **When a load that leaves its loop would have run anyway.** Where the pass moves a load whose
address is neither a global nor an alloca, a run executes the load each time it enters the
loop exactly when no visit lingers; and that is so of all runs, whatever the instructions
compute, exactly when in the graph none can. -/
theorem canMoveLoadOutOfLoop_loadsFirst_iff (hF : F.SsaForm) (hA : A.Correct) (hL : F.IsLoop L)
    (hnat : F.IsNatural L) (hp : F.IsPreheader L p) (hload : load ∈ F.insts b)
    (hb : L.contains b = true) (haddr : load.getPointerOperand = some v)
    (hg : isGlobalVariable v = false) (ha : isAllocaInst F v = false)
    (hmove : canMoveLoadOutOfLoop A F L b load = true) :
    (∀ (V M : Type) (S : Sem V M) (m : M), LoadsFirst S F m L p load ↔ ¬ Lingers S F m L p b) ∧
      ((∀ (V M : Type) (S : Sem V M) (m : M), GoesOn S F m → LoadsFirst S F m L p load) ↔
        ¬ F.CanLinger L b) := by
  obtain ⟨v', hv', -, hleave⟩ := (canMoveLoadOutOfLoop_iff A).mp hmove
  obtain rfl : v = v' := Option.some.inj (haddr.symm.trans hv')
  have hexits : ∀ y ∈ getExitBlocks F L, F.Dom b y := by
    rcases (mayLeave_iff A).mp hleave with ⟨h, -⟩ | ⟨h, -⟩ | ⟨-, -, hdom⟩
    · rw [hg] at h
      cases h
    · rw [ha] at h
      cases h
    · exact fun y hy => (hA.dominates hF).mp (List.all_eq_true.mp hdom y hy)
  have hguarded : Guarded F L p b load := ⟨hF, hL, hp, hload, hb, hexits⟩
  refine ⟨fun _ _ _ _ => hguarded.loadsFirst_iff, fun hall hc => ?_, fun hc _ _ _ _ => ?_⟩
  · obtain ⟨choice, hgo, hskipped⟩ := hguarded.exists_skipped hnat hc
    exact hskipped (hall _ _ _ _ hgo)
  · exact hguarded.loadsFirst_of_acyclic hnat hc

theorem endless_canMove (A : LoopAnalyses) :
    canMoveLoadOutOfLoop A endless endlessLoop 2 endlessLoad = true := rfl

theorem endless_isNatural : endless.IsNatural endlessLoop := by
  have h₁ : TransGen (fun x y => endless.Edge x y ∧ endlessLoop.contains y = true) 1 1 :=
    .single ⟨endless_edge.mpr (by decide), by decide⟩
  have h₂ : TransGen (fun x y => endless.Edge x y ∧ endlessLoop.contains y = true) 2 1 :=
    .single ⟨endless_edge.mpr (by decide), by decide⟩
  intro x hx
  have hall : ∀ x ∈ endlessLoop.getBlocks, x = 1 ∨ x = 2 := by decide
  rcases hall x (List.contains_iff_mem.mp hx) with rfl | rfl
  · exact h₁
  · exact h₂

theorem endless_exits (y : Label) : y ∉ getExitBlocks endless endlessLoop := by
  have : getExitBlocks endless endlessLoop = [] := by decide
  rw [this]
  exact List.not_mem_nil

theorem endless_guarded : Guarded endless endlessLoop 0 2 endlessLoad :=
  ⟨endless_ssaForm, endless_isLoop, endless_isPreheader, by decide, by decide,
    fun y hy => absurd hy (endless_exits y)⟩

theorem canMoveLoadOutOfLoop_loadsFirst_iff_endless :
    (∀ (V M : Type) (S : Sem V M) (m : M),
      LoadsFirst S endless m endlessLoop 0 endlessLoad ↔ ¬ Lingers S endless m endlessLoop 0 2) ∧
      ((∀ (V M : Type) (S : Sem V M) (m : M), GoesOn S endless m →
        LoadsFirst S endless m endlessLoop 0 endlessLoad) ↔ ¬ endless.CanLinger endlessLoop 2) :=
  canMoveLoadOutOfLoop_loadsFirst_iff (v := .arg 1 0) endless_ssaForm (exactAnalyses_correct [endlessLoop])
    endless_isLoop endless_isNatural endless_isPreheader (by decide) (by decide) rfl rfl rfl
    (endless_canMove _)

/-- The load of the loop without an exit leaves it, and there is a run that never loads. -/
theorem endless_load_skipped :
    (endless.SsaForm ∧ endless.IsLoop endlessLoop ∧ endless.IsNatural endlessLoop ∧
      endless.IsPreheader endlessLoop 0 ∧ endlessLoad ∈ endless.insts 2 ∧
      endlessLoad.getPointerOperand = some (.arg 1 0) ∧ (exactAnalyses [endlessLoop]).Correct ∧
      canMoveLoadOutOfLoop (exactAnalyses [endlessLoop]) endless endlessLoop 2 endlessLoad = true) ∧
    ∃ choice, GoesOn choices endless choice ∧
      ¬ LoadsFirst choices endless choice endlessLoop 0 endlessLoad := by
  refine ⟨⟨endless_ssaForm, endless_isLoop, endless_isNatural, endless_isPreheader, by decide, rfl,
    exactAnalyses_correct _, endless_canMove _⟩, ?_⟩
  refine endless_guarded.exists_skipped endless_isNatural ⟨by decide, 1, .refl, .inl (.single ?_)⟩
  exact ⟨endless_edge.mpr (by decide), by decide, by decide⟩

end Ece566.Llvm
