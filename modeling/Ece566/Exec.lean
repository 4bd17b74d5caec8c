import Ece566.SsaForm

/- Execution of a function, one instruction at a time. What an instruction computes is a
   parameter (`Sem`): a pure opcode is any function of its operand values, every other
   opcode any function of its operand values and the memory, and a terminator picks one
   of its successors in any way. A register is empty until its instruction runs. The
   second half is what SSA form gives about every state a run can reach: an instruction
   that dominates the current point has run, and if it is pure its register holds the
   value its operands have now. -/
namespace Ece566.Llvm

open Dominance Relation

/-- An instruction that is not pure, as it ran. -/
structure Event (V M : Type) where
  op : Op
  args : List V
  before : M
  after : M

structure State (V M : Type) where
  regs : Nat → Option V
  mem : M
  log : List (Event V M)
  path : List Label

structure Sem (V M : Type) where
  leaf : Value → V
  undef : V
  compute : Op → List V → V
  effect : Op → List V → M → V × M
  branch : Op → List V → M → Nat

variable {V M : Type}

def Sem.value (S : Sem V M) (regs : Nat → Option V) : Value → V
  | .inst id _ => (regs id).getD S.undef
  | v => S.leaf v

def Instr.args (i : Instr) (S : Sem V M) (regs : Nat → Option V) : List V :=
  i.operands.map (S.value regs)

def assign (regs : Nat → Option V) (id : Nat) (v : V) : Nat → Option V :=
  fun n => if n = id then some v else regs n

/-- One instruction. A phi has its value from the entry of its block. -/
def execInst (S : Sem V M) (i : Instr) (st : State V M) : State V M :=
  if i.isPhi then st
  else if i.op.opcode.isPure then
    { st with regs := assign st.regs i.id (S.compute i.op (i.args S st.regs)) }
  else
    let r := S.effect i.op (i.args S st.regs) st.mem
    { st with
      regs := assign st.regs i.id r.1
      mem := r.2
      log := st.log ++ [⟨i.op, i.args S st.regs, st.mem, r.2⟩] }

/-- The value a phi takes on the edge from `p`. -/
def phiValue (S : Sem V M) (regs : Nat → Option V) (p : Label) (i : Instr) : V :=
  match (i.operands.zip i.blocks).find? fun o => o.2 == p with
  | some o => S.value regs o.1
  | none => S.undef

/-- The phis of a block entered from `p` take their values all at once. -/
def enter (S : Sem V M) (p : Label) (insts : List Instr) (regs : Nat → Option V) :
    Nat → Option V := fun id =>
  match insts.find? fun i => i.isPhi && i.id == id with
  | some i => some (phiValue S regs p i)
  | none => regs id

/-- A state of a run: the block, what is left of it, and the successor its terminator
has chosen. -/
structure Config (V M : Type) where
  label : Label
  rest : List Instr
  next : Option Label
  st : State V M

/-- The successor a terminator chooses (none: the function ends). -/
def chosen (S : Sem V M) (i : Instr) (st : State V M) : Option Label :=
  i.blocks[S.branch i.op (i.args S st.regs) st.mem]?

def step (S : Sem V M) (F : Func) (c : Config V M) : Option (Config V M) :=
  match c.rest, c.next with
  | i :: rest, next =>
    some ⟨c.label, rest, if i.isTerminator then chosen S i c.st else next, execInst S i c.st⟩
  | [], some b =>
    some ⟨b, F.insts b, none,
      { c.st with regs := enter S c.label (F.insts b) c.st.regs, path := c.st.path ++ [b] }⟩
  | [], none => none

def Config.init (F : Func) (m : M) : Config V M :=
  ⟨F.entry, F.insts F.entry, none, ⟨fun _ => none, m, [], []⟩⟩

/-- The states a run of `F` from memory `m` goes through. -/
def Reachable (S : Sem V M) (F : Func) (m : M) (c : Config V M) : Prop :=
  ReflTransGen (fun c d => step S F c = some d) (Config.init F m) c

/-- Instruction `d` of block `a` dominates the point the run is at. -/
def Config.Past (F : Func) (c : Config V M) (a : Label) (d : Nat) : Prop :=
  (a = c.label ∧ d ∉ c.rest.map Instr.id) ∨ (a ≠ c.label ∧ F.Dom a c.label)

variable {S : Sem V M} {F : Func} {m : M} {c d : Config V M}

/-- What a step can be: an instruction, or the entry of the next block. -/
theorem step_cases (h : step S F c = some d) :
    (∃ i rest, c.rest = i :: rest ∧ d = ⟨c.label, rest,
        if i.isTerminator then chosen S i c.st else c.next, execInst S i c.st⟩) ∨
      (∃ b, c.rest = [] ∧ c.next = some b ∧ d = ⟨b, F.insts b, none,
        { c.st with
          regs := enter S c.label (F.insts b) c.st.regs, path := c.st.path ++ [b] }⟩) := by
  cases hr : c.rest with
  | cons i rest =>
    simp only [step, hr, Option.some.injEq] at h
    exact .inl ⟨i, rest, rfl, h.symm⟩
  | nil =>
    cases hn : c.next with
    | some b =>
      simp only [step, hr, hn, Option.some.injEq] at h
      exact .inr ⟨b, rfl, rfl, h.symm⟩
    | none => simp [step, hr, hn] at h

theorem step_inst {i : Instr} {rest : List Instr} (h : c.rest = i :: rest) :
    step S F c = some ⟨c.label, rest, if i.isTerminator then chosen S i c.st else c.next,
      execInst S i c.st⟩ := by
  unfold step
  rw [h]

theorem step_enter {b : Label} (h : c.rest = []) (hn : c.next = some b) :
    step S F c = some ⟨b, F.insts b, none,
      { c.st with
        regs := enter S c.label (F.insts b) c.st.regs, path := c.st.path ++ [b] }⟩ := by
  unfold step
  rw [h, hn]

/-! Registers. -/

theorem assign_same (regs : Nat → Option V) (id : Nat) (v : V) : assign regs id v id = some v :=
  if_pos rfl

theorem assign_ne (regs : Nat → Option V) {id n : Nat} (v : V) (h : n ≠ id) :
    assign regs id v n = regs n := if_neg h

/-- An instruction writes no register but its own. -/
theorem execInst_regs (i : Instr) (st : State V M) {n : Nat} (h : n ≠ i.id) :
    (execInst S i st).regs n = st.regs n := by
  unfold execInst
  split
  · rfl
  · split
    · exact assign_ne _ _ h
    · exact assign_ne _ _ h

theorem execInst_isSome (i : Instr) (st : State V M) {n : Nat} (h : (st.regs n).isSome) :
    ((execInst S i st).regs n).isSome := by
  by_cases hn : n = i.id
  · subst hn
    unfold execInst
    split
    · exact h
    · split <;> simp [assign_same]
  · rw [execInst_regs i st hn]; exact h

/-- An instruction other than a phi leaves a value in its register. -/
theorem execInst_own (i : Instr) (st : State V M) (h : i.isPhi = false) :
    ((execInst S i st).regs i.id).isSome := by
  unfold execInst
  rw [h]
  split
  · contradiction
  · split <;> simp [assign_same]

theorem execInst_path (i : Instr) (st : State V M) : (execInst S i st).path = st.path := by
  unfold execInst
  split
  · rfl
  · split <;> rfl

theorem execInst_effect {i : Instr} {st : State V M} (hphi : i.isPhi = false)
    (hpure : i.op.opcode.isPure = false) :
    execInst S i st = { st with
      regs := assign st.regs i.id (S.effect i.op (i.args S st.regs) st.mem).1
      mem := (S.effect i.op (i.args S st.regs) st.mem).2
      log := st.log ++ [⟨i.op, i.args S st.regs, st.mem,
        (S.effect i.op (i.args S st.regs) st.mem).2⟩] } := by
  simp [execInst, hphi, hpure]

/-- Operand values depend only on the registers the operands refer to. -/
theorem value_congr {regs regs' : Nat → Option V} {v : Value}
    (h : ∀ id ty, v = .inst id ty → regs' id = regs id) : S.value regs' v = S.value regs v := by
  cases v with
  | inst id ty => simp [Sem.value, h id ty rfl]
  | _ => rfl

theorem args_congr {regs regs' : Nat → Option V} {i : Instr}
    (h : ∀ id ty, .inst id ty ∈ i.operands → regs' id = regs id) :
    i.args S regs' = i.args S regs :=
  List.map_congr_left fun _ ho => value_congr fun id ty e => h id ty (e ▸ ho)

theorem enter_other {p : Label} {insts : List Instr} {regs : Nat → Option V} {n : Nat}
    (h : ∀ i ∈ insts, i.isPhi = true → i.id ≠ n) : enter S p insts regs n = regs n := by
  unfold enter
  rw [List.find?_eq_none.mpr]
  intro i hi
  simpa using h i hi

theorem enter_isSome {p : Label} {insts : List Instr} {regs : Nat → Option V} {n : Nat}
    (h : (regs n).isSome) : (enter S p insts regs n).isSome := by
  unfold enter
  split <;> simp [h]

theorem enter_phi {p : Label} {regs : Nat → Option V} {b : Label} {i : Instr} (hF : F.SsaForm)
    (hi : i ∈ F.insts b) (hphi : i.isPhi = true) :
    enter S p (F.insts b) regs i.id = some (phiValue S regs p i) := by
  unfold enter
  cases hf : (F.insts b).find? fun j => j.isPhi && j.id == i.id with
  | none => exact absurd (List.find?_eq_none.mp hf i hi) (by simp [hphi])
  | some j =>
    have hj := List.find?_some hf
    simp only [Bool.and_eq_true, beq_iff_eq] at hj
    rw [hF.inst_eq (List.mem_of_find?_eq_some hf) hi hj.2]

theorem phiValue_congr {i : Instr} {regs regs' : Nat → Option V} {q : Label}
    (h : ∀ o, (o, q) ∈ i.operands.zip i.blocks → S.value regs' o = S.value regs o) :
    phiValue S regs' q i = phiValue S regs q i := by
  unfold phiValue
  split
  · rename_i o ho
    have hq : o.2 = q := by simpa using List.find?_some ho
    exact h o.1 (hq ▸ List.mem_of_find?_eq_some ho)
  · rfl

/-- A phi whose operands are mapped to operands with the same values. -/
theorem phiValue_map {regs regs' : Nat → Option V} {p : Label} {i : Instr} {f : Value → Value}
    (h : ∀ o, (o, p) ∈ i.operands.zip i.blocks → S.value regs' (f o) = S.value regs o) :
    phiValue S regs' p { i with operands := i.operands.map f } = phiValue S regs p i := by
  have hfind : ((i.operands.map f).zip i.blocks).find? (fun o => o.2 == p) =
      ((i.operands.zip i.blocks).find? fun o => o.2 == p).map (Prod.map f id) := by
    rw [List.zip_map_left, List.find?_map]
    rfl
  rw [phiValue, phiValue, hfind]
  cases ho : (i.operands.zip i.blocks).find? fun o => o.2 == p with
  | none => rfl
  | some o =>
    have hp : o.2 = p := by simpa using List.find?_some ho
    exact h o.1 (hp ▸ List.mem_of_find?_eq_some ho)

/-- Dropping elements that are not looked for, and changing the others. -/
theorem find?_edited {p q : Instr → Bool} {f : Instr → Instr} (hp : ∀ i, p (f i) = p i) {l : List Instr}
    (h : ∀ i ∈ l, p i = true → q i = true) : ((l.filter q).map f).find? p = (l.find? p).map f := by
  rw [List.find?_map, List.find?_filter]
  refine congrArg (Option.map f) (List.find?_congr fun i hi => ?_)
  rw [Function.comp, hp]
  cases hpi : p i with
  | true => simp [h i hi hpi]
  | false => simp

/-! What SSA form gives about a run. -/

/-- The invariant of a run. -/
structure Valid (S : Sem V M) (F : Func) (c : Config V M) : Prop where
  suffix : ∃ pre, F.insts c.label = pre ++ c.rest
  reach : Reach F.Edge F.entry c.label
  next : ∀ {b}, c.next = some b → F.Edge c.label b
  phis : ∀ i ∈ F.insts c.label, i.isPhi = true → (c.st.regs i.id).isSome
  defined : ∀ {a n}, n ∈ F.ids a → c.Past F a n → (c.st.regs n).isSome
  equation : ∀ {a i}, i ∈ F.insts a → i.op.opcode.isPure = true → c.Past F a i.id →
    c.st.regs i.id = some (S.compute i.op (i.args S c.st.regs))

theorem isPhi_of_isPure {i : Instr} (h : i.op.opcode.isPure = true) : i.isPhi = false := by
  unfold Instr.isPhi
  cases ho : i.op.opcode <;> first | rfl | (rw [ho] at h; cases h)

theorem isPhi_of_isTerminator {i : Instr} (h : i.isTerminator = true) : i.isPhi = false := by
  unfold Instr.isTerminator at h
  unfold Instr.isPhi
  cases hop : i.op.opcode <;> first | rfl | (rw [hop] at h; cases h)

theorem not_pure_of_isTerminator {i : Instr} (h : i.isTerminator = true) :
    i.op.opcode.isPure = false := by
  unfold Instr.isTerminator at h
  cases hop : i.op.opcode <;> first | rfl | (rw [hop] at h; cases h)

/-- What is still to run stands before nothing that has run. -/
theorem Valid.not_earlier (hF : F.SsaForm) (hv : Valid S F c) {x u : Nat} (hu : u ∈ F.ids c.label)
    (hran : u ∉ c.rest.map Instr.id) (hx : x ∈ c.rest.map Instr.id) : ¬ [x, u].Sublist (F.ids c.label) := by
  intro hs
  obtain ⟨pre, hpre⟩ := hv.suffix
  have hids : F.ids c.label = pre.map Instr.id ++ c.rest.map Instr.id := by
    rw [Func.ids, hpre, List.map_append]
  have hmem : u ∈ pre.map Instr.id := by
    rw [hids, List.mem_append] at hu
    exact hu.resolve_right hran
  obtain ⟨l₁, l₂, hl⟩ := List.append_of_mem hmem
  have hnd := hF.nodup c.label
  rw [hids, hl, List.append_assoc, List.cons_append] at hnd hs
  rw [pair_iff hnd] at hs
  rw [List.nodup_append] at hnd
  exact hnd.2.2 x hs x (by simp [hx]) rfl

/-- The instruction about to run is past no instruction that is. -/
theorem Valid.not_before (hF : F.SsaForm) (hv : Valid S F c) {i : Instr} {rest : List Instr}
    (hr : c.rest = i :: rest) {a : Label} {n : Nat} (hn : n ∈ F.ids a) (hp : c.Past F a n) :
    ¬ F.Before c.label i.id a n := by
  intro hb
  rcases hp with ⟨rfl, hnr⟩ | ⟨hne, hdom⟩
  · rcases hb with ⟨-, hs⟩ | ⟨hne, -⟩
    · exact hv.not_earlier hF hn hnr (by simp [hr]) hs
    · exact hne rfl
  · exact hne (hdom.antisymm (Dominance.Before.dom hb) hv.reach)

/-- Dominating the instruction about to run is dominating the point. -/
theorem Valid.past_of_before (hF : F.SsaForm) (hv : Valid S F c) {i : Instr} {rest : List Instr}
    (hr : c.rest = i :: rest) {a : Label} {n : Nat} (hb : F.Before a n c.label i.id) :
    c.Past F a n := by
  obtain ⟨pre, hpre⟩ := hv.suffix
  rcases hb with ⟨rfl, hs⟩ | hb
  · refine .inl ⟨rfl, fun hmem => ?_⟩
    have hnd := hF.nodup c.label
    have hids : F.ids c.label = pre.map Instr.id ++ i.id :: rest.map Instr.id := by
      rw [Func.ids, hpre, hr, List.map_append, List.map_cons]
    rw [hids] at hnd hs
    rw [pair_iff hnd] at hs
    rw [List.nodup_append] at hnd
    rw [hr, List.map_cons] at hmem
    exact hnd.2.2 n hs n hmem rfl
  · exact .inr hb

theorem Valid.mem_insts (hv : Valid S F c) {i : Instr} {rest : List Instr}
    (hr : c.rest = i :: rest) : i ∈ F.insts c.label := by
  obtain ⟨pre, hpre⟩ := hv.suffix
  rw [hpre, hr]
  simp

theorem Valid.init (hF : F.SsaForm) : Valid S F (Config.init F m) where
  suffix := ⟨[], rfl⟩
  reach := .refl
  next := fun h => nomatch h
  phis i hi hphi := by
    obtain ⟨hne, -, hpred⟩ := hF.incoming hi hphi
    obtain ⟨p, hp⟩ := List.exists_mem_of_ne_nil _ hne
    exact absurd ((hpred p).mp hp) (hF.entry p)
  defined {a n} hn hp := by
    rcases hp with ⟨rfl, hnr⟩ | ⟨hne, hdom⟩
    · exact absurd hn hnr
    · exact absurd hdom.eq_root hne
  equation {a i} hi _ hp := by
    rcases hp with ⟨rfl, hnr⟩ | ⟨hne, hdom⟩
    · exact absurd (List.mem_map_of_mem hi) hnr
    · exact absurd hdom.eq_root hne

/-- Past the instruction that ran are those it was past before and itself. -/
theorem past_inst {i : Instr} {rest : List Instr} (hr : c.rest = i :: rest) {next : Option Label}
    {st : State V M} {a : Label} {n : Nat}
    (hp : Config.Past F ⟨c.label, rest, next, st⟩ a n) :
    c.Past F a n ∨ (a = c.label ∧ n = i.id) := by
  rcases hp with ⟨rfl, hnr⟩ | hp
  · by_cases hn : n = i.id
    · exact .inr ⟨rfl, hn⟩
    · refine .inl (.inl ⟨rfl, ?_⟩)
      rw [hr, List.map_cons, List.mem_cons, not_or]
      exact ⟨hn, hnr⟩
  · exact .inl (.inr hp)

theorem Valid.inst (hF : F.SsaForm) (hv : Valid S F c) {i : Instr} {rest : List Instr}
    (hr : c.rest = i :: rest) : Valid S F ⟨c.label, rest,
      if i.isTerminator then chosen S i c.st else c.next, execInst S i c.st⟩ := by
  have hmem := hv.mem_insts hr
  constructor
  case suffix =>
    obtain ⟨pre, hpre⟩ := hv.suffix
    exact ⟨pre ++ [i], by rw [hpre, hr]; simp⟩
  case reach => exact hv.reach
  case next =>
    intro b hb
    simp only at hb
    split at hb
    · rename_i hterm
      exact ⟨i, hmem, hterm, List.mem_of_getElem? hb⟩
    · exact hv.next hb
  case phis => exact fun j hj hphi => execInst_isSome i c.st (hv.phis j hj hphi)
  case defined =>
    intro a n hn hp
    rcases past_inst hr hp with hp | ⟨rfl, rfl⟩
    · exact execInst_isSome i c.st (hv.defined hn hp)
    · cases hphi : i.isPhi with
      | true => exact execInst_isSome i c.st (hv.phis i hmem hphi)
      | false => exact execInst_own i c.st hphi
  case equation =>
    intro a x hx hpure hp
    have hphi := isPhi_of_isPure hpure
    rcases past_inst hr hp with hp | ⟨rfl, hxi⟩
    · have hnb := hv.not_before hF hr (mem_ids.mpr ⟨x, hx, rfl⟩) hp
      have hne : x.id ≠ i.id := by
        intro e
        rcases hp with ⟨rfl, hnr⟩ | ⟨hne, -⟩
        · exact hnr (by rw [hr, e]; simp)
        · exact hne (hF.unique (mem_ids.mpr ⟨x, hx, e⟩) (mem_ids.mpr ⟨i, hmem, rfl⟩))
      rw [execInst_regs i c.st hne, hv.equation hx hpure hp]
      congr 2
      refine (args_congr fun id ty ho => execInst_regs i c.st ?_).symm
      intro e
      obtain rfl := e
      exact hnb (hF.uses hx hphi ho (mem_ids.mpr ⟨i, hmem, rfl⟩))
    · obtain rfl := hF.inst_eq hx hmem hxi
      have hself : (execInst S x c.st).regs x.id = some (S.compute x.op (x.args S c.st.regs)) := by
        simp [execInst, hphi, hpure, assign_same]
      rw [hself]
      congr 2
      refine (args_congr fun id ty ho => execInst_regs x c.st ?_).symm
      intro e
      obtain rfl := e
      exact Dominance.Before.irrefl hF.nodup (hF.uses hx hphi ho (mem_ids.mpr ⟨x, hx, rfl⟩))

/-- What dominates the start of the next block dominates the end of the block before it. -/
theorem Valid.past_enter (hv : Valid S F c) {b : Label} (hr : c.rest = []) (hn : c.next = some b)
    {a : Label} {n : Nat} {st : State V M} (hna : n ∈ F.ids a)
    (hp : Config.Past F ⟨b, F.insts b, none, st⟩ a n) : c.Past F a n ∧ a ≠ b ∧ F.Dom a b := by
  rcases hp with ⟨rfl, hnr⟩ | ⟨hne, hdom⟩
  · exact absurd hna hnr
  · refine ⟨?_, hne, hdom⟩
    by_cases hl : a = c.label
    · exact .inl ⟨hl, by simp [hr]⟩
    · exact .inr ⟨hl, hdom.pred (hv.next hn) (Ne.symm hne)⟩

theorem Valid.enter (hF : F.SsaForm) (hv : Valid S F c) {b : Label} (hr : c.rest = [])
    (hn : c.next = some b) : Valid S F ⟨b, F.insts b, none,
      { c.st with
        regs := enter S c.label (F.insts b) c.st.regs, path := c.st.path ++ [b] }⟩ := by
  have hedge := hv.next hn
  constructor
  case suffix => exact ⟨[], rfl⟩
  case reach => exact hv.reach.tail hedge
  case next => exact fun h => nomatch h
  case phis => intro i hi hphi; simp [enter_phi hF hi hphi]
  case defined =>
    intro a n hna hp
    exact enter_isSome (hv.defined hna (hv.past_enter hr hn hna hp).1)
  case equation =>
    intro a x hx hpure hp
    have hxa : x.id ∈ F.ids a := mem_ids.mpr ⟨x, hx, rfl⟩
    obtain ⟨hp, hne, hdom⟩ := hv.past_enter hr hn hxa hp
    have hphi := isPhi_of_isPure hpure
    show Llvm.enter S c.label (F.insts b) c.st.regs x.id =
      some (S.compute x.op (x.args S (Llvm.enter S c.label (F.insts b) c.st.regs)))
    rw [enter_other, hv.equation hx hpure hp]
    · congr 2
      refine (args_congr fun id ty ho => enter_other fun y hy _ e => ?_).symm
      have hb := Dominance.Before.dom (hF.uses hx hphi ho (mem_ids.mpr ⟨y, hy, e⟩))
      exact hne (hdom.antisymm hb (hv.reach.tail hedge))
    · exact fun y hy _ e => hne (hF.unique hxa (mem_ids.mpr ⟨y, hy, e⟩))

theorem Valid.step (hF : F.SsaForm) (hv : Valid S F c) (h : step S F c = some d) :
    Valid S F d := by
  rcases step_cases h with ⟨i, rest, hr, rfl⟩ | ⟨b, hr, hn, rfl⟩
  · exact hv.inst hF hr
  · exact hv.enter hF hr hn

theorem Reachable.valid (hF : F.SsaForm) (h : Reachable S F m c) : Valid S F c := by
  induction h with
  | refl => exact Valid.init hF
  | tail _ h ih => exact ih.step hF h

end Ece566.Llvm
