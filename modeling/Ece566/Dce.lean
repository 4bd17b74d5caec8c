import Ece566.SsaForm
import Ece566.Worklist

/- `RunDeadCodeElimination` of tutorial 3 (`dce.cpp`). The worklist is a `std::set` of
   instruction addresses; an address is the place of the function in the module and the id
   of the instruction. `std::set` orders its elements by address, so which one a turn takes
   is not up to the program: here a turn may take any. A turn fails where the C++ would
   follow a pointer to an instruction that has gone.

   What the turns do to the module is what the turns of `Worklist` do to the set of the
   addresses left, so they come to an end and leave the same module in any order. -/
namespace Ece566.Dce

open Llvm Worklist Relation

abbrev Address := Nat × Nat

structure Elimination where
  module : Module
  worklist : Finset Address
  deadInst : Nat
  workList : Nat

/-- The switch of `isDead`. -/
def mayGo (I : Instr) : Bool :=
  match I.getOpcode with
  | .add | .fNeg | .fAdd | .sub | .fSub | .mul | .fMul | .uDiv | .sDiv | .fDiv | .uRem | .sRem
  | .fRem | .shl | .lShr | .aShr | .and | .or | .xor | .alloca | .getElementPtr | .trunc | .zExt
  | .sExt | .fpToUI | .fpToSI | .uiToFP | .siToFP | .fpTrunc | .fpExt | .ptrToInt | .intToPtr
  | .bitCast | .addrSpaceCast | .iCmp | .fCmp | .phi | .select | .extractElement | .insertElement
  | .shuffleVector | .extractValue | .insertValue => true
  | .load => !I.op.volatile
  | _ => false

def isDead (F : Func) (I : Instr) : Bool := !F.hasUses I.id && mayGo I

def Elimination.insert (s : Elimination) (a : Address) : Elimination :=
  { s with worklist := Insert.insert a s.worklist, workList := s.workList + 1 }

/-- The loop over the blocks and instructions of function `k`. -/
def collectFunction (k : Nat) (F : Func) (s : Elimination) : Elimination :=
  F.all.foldl (fun s i => if isDead F i then s.insert (k, i.id) else s) s

/-- The loop over the functions from place `k` on. -/
def collect : Nat → List Func → Elimination → Elimination
  | _, [], s => s
  | k, F :: rest, s => collect (k + 1) rest (collectFunction k F s)

def start (M : Module) : Elimination := collect 0 M ⟨M, ∅, 0, 0⟩

def find? (M : Module) (a : Address) : Option Instr :=
  M[a.1]?.bind fun F => F.all.find? fun i => i.id == a.2

def insertOperand (k : Nat) (s : Elimination) : Value → Elimination
  | .inst id _ => s.insert (k, id)
  | _ => s

/-- One turn of the loop, where `a` is taken off the worklist. -/
def turn (a : Address) (s : Elimination) : Option Elimination :=
  match s.module[a.1]?, find? s.module a with
  | some F, some i =>
    let s := { s with worklist := s.worklist.erase a }
    if isDead F i then
      let s := i.operands.foldl (insertOperand a.1) s
      some { s with
        module := s.module.set a.1 (F.eraseFromParent a.2)
        deadInst := s.deadInst + 1 }
    else some s
  | _, _ => none

/-- A turn that takes any element. -/
def Turn (s s' : Elimination) : Prop := ∃ a ∈ s.worklist, turn a s = some s'

/-- The states the loop can be in. -/
def Reaches (M : Module) (s : Elimination) : Prop := ReflTransGen Turn (start M) s

/-! What is to go. -/

/-- The least set of instructions that holds one of an accepted opcode when it holds all its
users. -/
inductive Doomed (F : Func) : Nat → Prop
  | intro {i : Instr} : i ∈ F.all → mayGo i = true →
      (∀ u ∈ F.all, u.operands.any (Value.refersTo i.id) = true → Doomed F u.id) → Doomed F i.id

open Classical in
/-- The function without the instructions in `D`. -/
noncomputable def without (F : Func) (D : Nat → Prop) : Func :=
  { F with insts := fun b => (F.insts b).filter fun i => decide (¬ D i.id) }

/-- Instructions are told apart by their addresses, and those used are there. -/
structure Linked (F : Func) : Prop where
  nodup : (F.all.map Instr.id).Nodup
  listed : ∀ {b}, F.insts b ≠ [] → b ∈ F.blocks
  refs : ∀ {i id ty}, i ∈ F.all → .inst id ty ∈ i.operands → ∃ d ∈ F.all, d.id = id

variable {M : Module} {F : Func} {a : Address} {k : Nat} {i u : Instr} {s s' : Elimination}

/-! The module as a graph. -/

def addresses (M : Module) : Finset Address :=
  (M.zipIdx.flatMap fun Fk => Fk.1.all.map fun i => (Fk.2, i.id)).toFinset

/-- The instructions an operand list refers to. -/
def refersTo (k : Nat) (l : List Value) : Finset Address :=
  (l.filterMap fun
    | .inst id _ => some (k, id)
    | _ => none).toFinset

def operands (M : Module) (a : Address) : Finset Address :=
  match find? M a with
  | some i => refersTo a.1 i.operands
  | none => ∅

theorem mem_refersTo {l : List Value} {d : Address} :
    d ∈ refersTo k l ↔ d.1 = k ∧ ∃ ty, .inst d.2 ty ∈ l := by
  obtain ⟨k', id⟩ := d
  simp only [refersTo, List.mem_toFinset, List.mem_filterMap]
  refine ⟨?_, ?_⟩
  · intro ⟨v, hv, e⟩
    cases v with
    | inst id' ty =>
      simp only [Option.some.injEq, Prod.mk.injEq] at e
      obtain ⟨rfl, rfl⟩ := e
      exact ⟨rfl, ty, hv⟩
    | _ => cases e
  · intro ⟨e, ty, hv⟩
    subst e
    exact ⟨_, hv, rfl⟩

theorem mem_addresses : a ∈ addresses M ↔ ∃ F, M[a.1]? = some F ∧ ∃ i ∈ F.all, i.id = a.2 := by
  simp only [addresses, List.mem_toFinset, List.mem_flatMap, List.mem_map]
  refine ⟨?_, ?_⟩
  · intro ⟨⟨F, k⟩, hF, i, hi, e⟩
    rw [← e]
    exact ⟨F, List.mem_zipIdx_iff_getElem?.mp hF, i, hi, rfl⟩
  · intro ⟨F, hF, i, hi, e⟩
    exact ⟨(F, a.1), List.mem_zipIdx_iff_getElem?.mpr hF, i, hi, by rw [e]⟩

theorem find?_some (h : find? M a = some i) : ∃ F, M[a.1]? = some F ∧ i ∈ F.all ∧ i.id = a.2 := by
  obtain ⟨F, hF, hi⟩ := Option.bind_eq_some_iff.mp h
  exact ⟨F, hF, List.mem_of_find?_eq_some hi, by simpa using List.find?_some hi⟩

theorem Linked.find? (h : Linked F) (hF : M[k]? = some F) (hi : i ∈ F.all) :
    find? M (k, i.id) = some i := by
  rw [Dce.find?, hF, Option.bind_some]
  cases hf : F.all.find? fun j => j.id == i.id with
  | none => exact absurd (List.find?_eq_none.mp hf i hi) (by simp)
  | some j =>
    have hj : j.id = i.id := by simpa using List.find?_some hf
    rw [List.inj_on_of_nodup_map h.nodup (List.mem_of_find?_eq_some hf) hi hj]

theorem find?_isSome (hM : ∀ F ∈ M, Linked F) (h : a ∈ addresses M) : ∃ i, Dce.find? M a = some i := by
  obtain ⟨F, hF, i, hi, e⟩ := mem_addresses.mp h
  have := (hM F (List.mem_of_getElem? hF)).find? hF hi
  rw [e] at this
  exact ⟨i, this⟩

theorem mem_operands (h : find? M a = some i) {d : Address} :
    d ∈ operands M a ↔ d.1 = a.1 ∧ ∃ ty, .inst d.2 ty ∈ i.operands := by
  rw [operands, h]
  exact mem_refersTo

/-- The module as the turns see it. -/
def graph (M : Module) (hM : ∀ F ∈ M, Linked F) : Graph Address where
  items := addresses M
  removable a := ∃ i, find? M a = some i ∧ mayGo i = true
  operands := operands M
  closed {u d} hu hd := by
    obtain ⟨i, hi⟩ := find?_isSome hM hu
    obtain ⟨hk, ty, ho⟩ := (mem_operands hi).mp hd
    obtain ⟨F, hF, hmem, -⟩ := find?_some hi
    obtain ⟨j, hj, e⟩ := (hM F (List.mem_of_getElem? hF)).refs hmem ho
    exact mem_addresses.mpr ⟨F, hk ▸ hF, j, hj, e⟩

/-! The module with the addresses `live` left. -/

def sieve (F : Func) (p : Nat → Bool) : Func :=
  { F with insts := fun b => (F.insts b).filter fun i => p i.id }

def keep (M : Module) (live : Finset Address) : Module :=
  M.mapIdx fun k F => sieve F fun id => decide ((k, id) ∈ live)

theorem sieve_all {p : Nat → Bool} : (sieve F p).all = F.all.filter fun i => p i.id := by
  rw [Func.all, Func.all, List.filter_flatMap]
  rfl

theorem keep_get {live : Finset Address} (h : M[k]? = some F) :
    (keep M live)[k]? = some (sieve F fun id => decide ((k, id) ∈ live)) := by
  simp [keep, h]

theorem keep_find? {live : Finset Address} :
    find? (keep M live) a = if a ∈ live then find? M a else none := by
  cases hF : M[a.1]? with
  | none => simp [find?, keep, hF]
  | some F =>
    rw [find?, find?, keep_get hF, hF, Option.bind_some, Option.bind_some, sieve_all, List.find?_filter]
    split
    · rename_i hl
      refine List.find?_congr fun i _ => ?_
      by_cases e : i.id = a.2
      · simp [e, hl]
      · simp [e]
    · rename_i hl
      apply List.find?_eq_none.mpr
      intro i _
      by_cases e : i.id = a.2
      · simp [e, hl]
      · simp [e]

/-- With everything left. -/
theorem sieve_addresses (hM : ∀ F ∈ M, Linked F) (hF : M[k]? = some F) :
    sieve F (fun id => decide ((k, id) ∈ addresses M)) = F := by
  have hkeep : ∀ b, (F.insts b).filter (fun i => decide ((k, i.id) ∈ addresses M)) = F.insts b := by
    intro b
    rw [List.filter_eq_self]
    intro i hi
    have hb := (hM F (List.mem_of_getElem? hF)).listed (List.ne_nil_of_mem hi)
    rw [decide_eq_true_eq]
    exact mem_addresses.mpr ⟨F, hF, i, List.mem_flatMap.mpr ⟨b, hb, hi⟩, rfl⟩
  unfold sieve
  simp only [hkeep]

theorem keep_addresses (hM : ∀ F ∈ M, Linked F) : keep M (addresses M) = M := by
  apply List.ext_getElem?
  intro k
  cases hF : M[k]? with
  | none => simp [keep, hF]
  | some F => rw [keep_get hF, sieve_addresses hM hF]

theorem keep_erase {live : Finset Address} (h : M[k]? = some F) {id : Nat} :
    (keep M live).set k ((sieve F fun id => decide ((k, id) ∈ live)).eraseFromParent id) =
      keep M (live.erase (k, id)) := by
  have hblock : ∀ b, ((F.insts b).filter fun i => decide ((k, i.id) ∈ live)).filter
      (fun i => i.id != id) = (F.insts b).filter fun i => decide ((k, i.id) ∈ live.erase (k, id)) := by
    intro b
    rw [List.filter_filter]
    refine List.filter_congr fun i _ => ?_
    by_cases e : i.id = id
    · simp [e]
    · simp [e, Finset.mem_erase]
  apply List.ext_getElem?
  intro j
  by_cases hj : j = k
  · subst hj
    have hlen : j < (keep M live).length := by
      obtain ⟨hlt, -⟩ := List.getElem?_eq_some_iff.mp h
      simpa [keep] using hlt
    rw [List.getElem?_set_self hlen, keep_get h]
    simp only [sieve, Func.eraseFromParent, hblock]
  · rw [List.getElem?_set_ne (Ne.symm hj)]
    cases hF : M[j]? with
    | none => simp [keep, hF]
    | some G =>
      rw [keep_get hF, keep_get hF]
      simp [Finset.mem_erase, hj]

theorem hasUses_sieve {p : Nat → Bool} {z : Nat} : (sieve F p).hasUses z = true ↔
    ∃ u ∈ F.all, p u.id = true ∧ u.operands.any (Value.refersTo z) = true := by
  rw [Func.hasUses, sieve_all]
  simp only [List.any_eq_true, List.mem_filter]
  refine ⟨?_, ?_⟩
  · intro ⟨u, ⟨hu, hp⟩, o, ho, hz⟩
    exact ⟨u, hu, hp, o, ho, hz⟩
  · intro ⟨u, hu, hp, o, ho, hz⟩
    exact ⟨u, ⟨hu, hp⟩, o, ho, hz⟩

theorem any_refersTo {z : Nat} :
    u.operands.any (Value.refersTo z) = true ↔ ∃ ty, .inst z ty ∈ u.operands := by
  simp only [List.any_eq_true, refersTo_iff]
  refine ⟨?_, ?_⟩
  · intro ⟨_, ho, ty, e⟩
    exact ⟨ty, e ▸ ho⟩
  · intro ⟨ty, ho⟩
    exact ⟨_, ho, ty, rfl⟩

section
variable {hM : ∀ F ∈ M, Linked F} {t t' : State Address}

/-- The test of the code is that no instruction left uses this one. -/
theorem isDead_iff (hlive : t.live ⊆ addresses M) (hF : M[a.1]? = some F) (hi : find? M a = some i) :
    isDead (sieve F fun id => decide ((a.1, id) ∈ t.live)) i = true ↔ Dead (graph M hM) t a := by
  obtain ⟨F', hF', hmem, hid⟩ := find?_some hi
  obtain rfl : F = F' := Option.some.inj (hF.symm.trans hF')
  simp only [isDead, Bool.and_eq_true, Bool.not_eq_true']
  refine ⟨?_, ?_⟩
  · intro ⟨huses, hgo⟩
    refine ⟨⟨i, hi, hgo⟩, fun u hu hop => ?_⟩
    obtain ⟨j, hj⟩ := find?_isSome hM (hlive hu)
    obtain ⟨G, hG, hjmem, hjid⟩ := find?_some hj
    obtain ⟨hk, ty, ho⟩ := (mem_operands hj).mp hop
    rw [← hk, hF] at hG
    obtain rfl := Option.some.inj hG
    rw [← Bool.not_eq_true, hasUses_sieve] at huses
    refine huses ⟨j, hjmem, ?_, any_refersTo.mpr ⟨ty, hid ▸ ho⟩⟩
    rw [decide_eq_true_eq, hk, hjid]
    exact hu
  · intro ⟨⟨i', hi', hgo⟩, hno⟩
    obtain rfl : i = i' := Option.some.inj (hi.symm.trans hi')
    refine ⟨?_, hgo⟩
    rw [← Bool.not_eq_true, hasUses_sieve]
    intro ⟨u, hu, hl, huse⟩
    obtain ⟨ty, ho⟩ := any_refersTo.mp huse
    rw [decide_eq_true_eq] at hl
    refine hno _ hl ((mem_operands ((hM F (List.mem_of_getElem? hF)).find? hF hu)).mpr ?_)
    exact ⟨rfl, ty, hid ▸ ho⟩

/-- `s` is what `t` stands for. -/
structure Represents (M : Module) (s : Elimination) (t : State Address) : Prop where
  module : s.module = keep M t.live
  work : s.worklist = t.work

theorem insertOperand_worklist (l : List Value) : ∀ {s : Elimination},
    (l.foldl (insertOperand k) s).worklist = s.worklist ∪ refersTo k l ∧
      (l.foldl (insertOperand k) s).module = s.module ∧
      (l.foldl (insertOperand k) s).deadInst = s.deadInst := by
  induction l with
  | nil => simp [refersTo]
  | cons v l ih =>
    intro s
    obtain ⟨h₁, h₂, h₃⟩ := @ih (insertOperand k s v)
    rw [List.foldl_cons, h₁, h₂, h₃]
    refine ⟨?_, by cases v <;> rfl, by cases v <;> rfl⟩
    cases v with
    | inst id ty =>
      simp only [insertOperand, Elimination.insert, refersTo, List.filterMap_cons, List.toFinset_cons,
        Finset.insert_union, Finset.union_insert]
    | _ => simp [insertOperand, refersTo]

/-- A turn never follows a pointer to nothing, and is a turn on the addresses. -/
theorem turn_pop (hinv : Inv (graph M hM) t) (hs : Represents M s t) (ha : a ∈ s.worklist) :
    ∃ s' t', turn a s = some s' ∧ Pop (graph M hM) t t' ∧ Represents M s' t' := by
  have hwork : a ∈ t.work := hs.work ▸ ha
  have hlive := hinv.work hwork
  obtain ⟨i, hi⟩ := find?_isSome hM (hinv.live hlive)
  obtain ⟨F, hF, hmem, hid⟩ := find?_some hi
  have hF' : s.module[a.1]? = some (sieve F fun id => decide ((a.1, id) ∈ t.live)) :=
    hs.module ▸ keep_get hF
  have hi' : find? s.module a = some i := by rw [hs.module, keep_find?, if_pos hlive, hi]
  unfold turn
  simp only [hF', hi']
  by_cases hdead : isDead (sieve F fun id => decide ((a.1, id) ∈ t.live)) i = true
  · obtain ⟨h₁, h₂, h₃⟩ := @insertOperand_worklist a.1 i.operands
      { s with worklist := s.worklist.erase a }
    rw [if_pos hdead]
    refine ⟨_, _, rfl, .remove hwork ((isDead_iff hinv.live hF hi).mp hdead), ?_, ?_⟩
    · refine (congrArg (fun m : Llvm.Module => m.set a.1 _) h₂).trans ?_
      simp only [hs.module]
      exact keep_erase hF
    · refine h₁.trans ?_
      show _ = t.work.erase a ∪ operands M a
      rw [operands, hi, ← hs.work]
  · rw [if_neg hdead]
    refine ⟨_, _, rfl, .leave hwork fun h => hdead ((isDead_iff hinv.live hF hi).mpr h), hs.module, ?_⟩
    simp only [hs.work]

/-! The start. -/

theorem mem_collectFunction : (collectFunction k F s).module = s.module ∧
    ∀ a, a ∈ (collectFunction k F s).worklist ↔
      a ∈ s.worklist ∨ (a.1 = k ∧ ∃ i ∈ F.all, i.id = a.2 ∧ isDead F i = true) := by
  unfold collectFunction
  generalize F.all = l
  induction l generalizing s with
  | nil => simp
  | cons i l ih =>
    obtain ⟨h₁, h₂⟩ := @ih (if isDead F i then s.insert (k, i.id) else s)
    rw [List.foldl_cons]
    refine ⟨h₁.trans (by split <;> rfl), fun a => ?_⟩
    rw [h₂]
    obtain ⟨k', id⟩ := a
    by_cases hd : isDead F i = true
    · rw [if_pos hd]
      simp only [Elimination.insert, Finset.mem_insert, Prod.mk.injEq, List.mem_cons]
      refine ⟨?_, ?_⟩
      · intro h
        rcases h with (⟨rfl, rfl⟩ | h) | ⟨rfl, j, hj, h⟩
        · exact .inr ⟨rfl, i, .inl rfl, rfl, hd⟩
        · exact .inl h
        · exact .inr ⟨rfl, j, .inr hj, h⟩
      · intro h
        rcases h with h | ⟨rfl, j, rfl | hj, rfl, h⟩
        · exact .inl (.inr h)
        · exact .inl (.inl ⟨rfl, rfl⟩)
        · exact .inr ⟨rfl, j, hj, rfl, h⟩
    · rw [if_neg hd]
      simp only [List.mem_cons, exists_eq_or_imp]
      refine ⟨?_, ?_⟩
      · intro h
        rcases h with h | ⟨rfl, h⟩
        · exact .inl h
        · exact .inr ⟨rfl, .inr h⟩
      · intro h
        rcases h with h | ⟨rfl, ⟨rfl, h⟩ | h⟩
        · exact .inl h
        · exact absurd h hd
        · exact .inr ⟨rfl, h⟩

theorem mem_collect : ∀ (rest : List Func) (k : Nat) (s : Elimination), (collect k rest s).module = s.module ∧
    ∀ a, a ∈ (collect k rest s).worklist ↔ a ∈ s.worklist ∨
      ∃ n F, rest[n]? = some F ∧ a.1 = k + n ∧ ∃ i ∈ F.all, i.id = a.2 ∧ isDead F i = true
  | [], k, s => by simp [collect]
  | F :: rest, k, s => by
    obtain ⟨h₁, h₂⟩ := mem_collect rest (k + 1) (collectFunction k F s)
    obtain ⟨h₃, h₄⟩ := @mem_collectFunction F k s
    rw [collect]
    refine ⟨h₁.trans h₃, fun a => ?_⟩
    rw [h₂, h₄]
    refine ⟨?_, ?_⟩
    · intro h
      rcases h with (h | ⟨ha, h⟩) | ⟨n, G, hG, ha, h⟩
      · exact .inl h
      · exact .inr ⟨0, F, rfl, ha, h⟩
      · exact .inr ⟨n + 1, G, hG, by omega, h⟩
    · intro h
      rcases h with h | ⟨n, G, hG, ha, h⟩
      · exact .inl (.inl h)
      · cases n with
        | zero =>
          obtain rfl : F = G := Option.some.inj hG
          exact .inl (.inr ⟨ha, h⟩)
        | succ n => exact .inr ⟨n, G, hG, by omega, h⟩

theorem start_represents (hM : ∀ F ∈ M, Linked F) : ∃ t, Represents M (start M) t ∧ Inv (graph M hM) t := by
  obtain ⟨h₁, h₂⟩ := mem_collect M 0 ⟨M, ∅, 0, 0⟩
  have hmodule : (start M).module = keep M (addresses M) := h₁.trans (keep_addresses hM).symm
  refine ⟨⟨addresses M, (start M).worklist⟩, ⟨hmodule, rfl⟩, ?_⟩
  apply Inv.start rfl
  intro a
  refine (h₂ a).trans ?_
  -- with everything there the test is the same
  have htest : ∀ {F i}, M[a.1]? = some F → find? M a = some i →
      (isDead F i = true ↔ Dead (graph M hM) ⟨addresses M, (start M).worklist⟩ a) := by
    intro F i hF hi
    rw [← isDead_iff (Finset.Subset.refl _) hF hi, sieve_addresses hM hF]
  refine ⟨?_, ?_⟩
  · intro h
    rcases h with h | ⟨n, F, hF, ha, i, hi, hid, hdead⟩
    · exact absurd h (Finset.notMem_empty a)
    · rw [Nat.zero_add] at ha
      subst ha
      have hfind := (hM F (List.mem_of_getElem? hF)).find? hF hi
      rw [hid] at hfind
      exact ⟨mem_addresses.mpr ⟨F, hF, i, hi, hid⟩, (htest hF hfind).mp hdead⟩
  · intro ⟨ha, hdead⟩
    obtain ⟨i, hi⟩ := find?_isSome hM ha
    obtain ⟨F, hF, hmem, hid⟩ := find?_some hi
    exact .inr ⟨a.1, F, hF, by omega, i, hmem, hid, (htest hF hi).mpr hdead⟩

/-! The runs. -/

theorem reaches_represents (hM : ∀ F ∈ M, Linked F) (h : Reaches M s) :
    ∃ t, Represents M s t ∧ Inv (graph M hM) t := by
  induction h with
  | refl => exact start_represents hM
  | tail _ hturn ih =>
    obtain ⟨t, hs, hinv⟩ := ih
    obtain ⟨a, ha, hturn⟩ := hturn
    obtain ⟨s', t', hturn', hpop, hs'⟩ := turn_pop hinv hs ha
    obtain rfl := Option.some.inj (hturn.symm.trans hturn')
    exact ⟨t', hs', hinv.pop hpop⟩

theorem terminates (hinv : Inv (graph M hM) t) (hs : Represents M s t) :
    Acc (fun s' s => Turn s s') s := by
  have hacc := hinv.terminates
  induction hacc generalizing s with
  | intro t _ ih =>
    constructor
    intro s₁ hturn
    obtain ⟨a, ha, hturn⟩ := hturn
    obtain ⟨s', t', hturn', hpop, hs'⟩ := turn_pop hinv hs ha
    obtain rfl := Option.some.inj (hturn.symm.trans hturn')
    exact ih t' hpop (hinv.pop hpop) hs'

/-- The set of a module is made of the sets of its functions. -/
theorem doomed_iff (hF : M[k]? = some F) {id : Nat} :
    Worklist.Doomed (graph M hM) (k, id) ↔ Doomed F id := by
  have hlinked := hM F (List.mem_of_getElem? hF)
  refine ⟨?_, ?_⟩
  · intro h
    generalize ha : (k, id) = a at h
    induction h generalizing id with
    | @intro a hmem hgo _ ih =>
      subst ha
      obtain ⟨i, hi, hgo⟩ := hgo
      obtain ⟨F', hF', hiF, rfl⟩ := find?_some hi
      obtain rfl : F = F' := Option.some.inj (hF.symm.trans hF')
      refine .intro hiF hgo fun u hu huse => ?_
      have hfind := hlinked.find? hF hu
      refine ih (k, u.id) (mem_addresses.mpr ⟨F, hF, u, hu, rfl⟩) ?_ rfl
      exact (mem_operands hfind).mpr ⟨rfl, any_refersTo.mp huse⟩
  · intro h
    induction h with
    | @intro i hi hgo _ ih =>
      refine .intro (mem_addresses.mpr ⟨F, hF, i, hi, rfl⟩) ⟨i, hlinked.find? hF hi, hgo⟩ fun u hu hop => ?_
      obtain ⟨j, hj⟩ := find?_isSome hM hu
      obtain ⟨G, hG, hjG, hjid⟩ := find?_some hj
      obtain ⟨hk, ty, ho⟩ := (mem_operands hj).mp hop
      obtain ⟨k', id⟩ := u
      subst hjid
      obtain rfl : k = k' := hk
      obtain rfl : F = G := Option.some.inj (hF.symm.trans hG)
      exact ih j hjG (any_refersTo.mpr ⟨ty, ho⟩)

/-- What is left at the end. -/
theorem keep_finished (hinv : Inv (graph M hM) t) (hwork : t.work = ∅) :
    keep M t.live = M.map fun F => without F (Doomed F) := by
  apply List.ext_getElem?
  intro k
  cases hF : M[k]? with
  | none => simp [keep, hF]
  | some F =>
    rw [keep_get hF, List.getElem?_map, hF, Option.map_some]
    have hlinked := hM F (List.mem_of_getElem? hF)
    have hblock : ∀ b, (F.insts b).filter (fun i => decide ((k, i.id) ∈ t.live)) =
        (without F (Doomed F)).insts b := by
      intro b
      refine List.filter_congr fun i hi => ?_
      have hmem : (k, i.id) ∈ addresses M := by
        have hb := hlinked.listed (List.ne_nil_of_mem hi)
        exact mem_addresses.mpr ⟨F, hF, i, List.mem_flatMap.mpr ⟨b, hb, hi⟩, rfl⟩
      rw [decide_eq_decide]
      exact (hinv.finished hwork hmem).trans (not_congr (doomed_iff hF))
    unfold sieve
    simp only [hblock]
    rfl

/-- No instruction is dead where the worklist is empty. -/
theorem not_isDead_of_finished (hinv : Inv (graph M hM) t) (hwork : t.work = ∅) :
    ∀ G ∈ keep M t.live, ∀ i ∈ G.all, isDead G i = false := by
  intro G hG i hi
  obtain ⟨k, hk⟩ := List.mem_iff_getElem?.mp hG
  cases hF : M[k]? with
  | none => simp [keep, hF] at hk
  | some F =>
    rw [keep_get hF, Option.some.injEq] at hk
    subst hk
    rw [sieve_all, List.mem_filter, decide_eq_true_eq] at hi
    rw [← Bool.not_eq_true]
    intro hdead
    have hfind := (hM F (List.mem_of_getElem? hF)).find? hF hi.1
    have := hinv.dead hi.2 ((isDead_iff (a := (k, i.id)) hinv.live hF hfind).mp hdead)
    rw [hwork] at this
    exact absurd this (Finset.notMem_empty _)

end

/-- **Dead-code elimination has one result.** Whatever a turn takes off the worklist, it is still
there to be looked at; the turns come to an end; and then what has gone from each function
is the least set that holds an instruction of an accepted opcode when it holds all its
users, and no instruction left is dead. -/
theorem RunDeadCodeElimination_unique (M : Module) (hM : ∀ F ∈ M, Linked F) (s : Elimination)
    (h : Reaches M s) :
    (∀ a ∈ s.worklist, (turn a s).isSome = true) ∧ Acc (fun s' s => Turn s s') s ∧
      (s.worklist = ∅ → s.module = M.map (fun F => without F (Doomed F)) ∧
        ∀ G ∈ s.module, ∀ i ∈ G.all, isDead G i = false) := by
  obtain ⟨t, hs, hinv⟩ := reaches_represents hM h
  refine ⟨fun a ha => ?_, terminates hinv hs, fun hnil => ?_⟩
  · obtain ⟨s', t', hturn, -⟩ := turn_pop hinv hs ha
    rw [hturn]
    rfl
  · have hwork : t.work = ∅ := hs.work ▸ hnil
    rw [hs.module]
    exact ⟨keep_finished hinv hwork, not_isDead_of_finished hinv hwork⟩

/-- An addition that only a dead addition uses. -/
def chain : Func := oneBlock
  [⟨0, ⟨.add, 0, [0, 0], false, 0⟩, [.const 1 0, .const 2 0], []⟩,
    ⟨1, ⟨.add, 0, [0, 0], false, 0⟩, [.inst 0 0, .const 3 0], []⟩,
    ⟨2, ⟨.ret, 0, [0], false, 0⟩, [.arg 0 0], []⟩]

theorem chain_linked : Linked chain where
  nodup := by decide
  listed {b} hb := by
    obtain ⟨i, hi⟩ := List.exists_mem_of_ne_nil _ hb
    exact List.mem_singleton.mpr (oneBlock_insts hi).1
  refs {i id ty} hi ho := by
    have hall : ∀ i ∈ chain.all, ∀ o ∈ i.operands,
        o ∈ [.const 1 0, .const 2 0, .inst 0 0, .const 3 0, .arg 0 0] := by decide
    have ho := hall i hi _ ho
    simp only [List.mem_cons, List.not_mem_nil, or_false, reduceCtorEq, false_or, Value.inst.injEq] at ho
    exact ⟨⟨0, ⟨.add, 0, [0, 0], false, 0⟩, [.const 1 0, .const 2 0], []⟩, by decide, ho.1.symm⟩

/-- Its elimination, which takes the second addition off the worklist and then the first. -/
def chainDone : Option Elimination := (turn (0, 1) (start [chain])).bind (turn (0, 0))

theorem chain_reaches {s : Elimination} (h : chainDone = some s) : Reaches [chain] s := by
  obtain ⟨s₁, h₁, h₂⟩ := Option.bind_eq_some_iff.mp h
  have hwork : ∀ s₁, turn (0, 1) (start [chain]) = some s₁ → (0, 0) ∈ s₁.worklist := by
    intro s₁ h₁
    have : ((turn (0, 1) (start [chain])).any fun s => (0, 0) ∈ s.worklist) = true := by decide
    rwa [h₁, Option.any_some, decide_eq_true_eq] at this
  exact .tail (.single ⟨(0, 1), by decide, h₁⟩) ⟨(0, 0), hwork s₁ h₁, h₂⟩

theorem RunDeadCodeElimination_unique_chain : ∃ s, chainDone = some s ∧ s.worklist = ∅ ∧
    (∀ a ∈ s.worklist, (turn a s).isSome = true) ∧ Acc (fun s' s => Turn s s') s ∧
      s.module = [chain].map (fun F => without F (Doomed F)) ∧
      ∀ G ∈ s.module, ∀ i ∈ G.all, isDead G i = false := by
  obtain ⟨s, hs⟩ := Option.isSome_iff_exists.mp (by decide : chainDone.isSome = true)
  have hnil : s.worklist = ∅ := by
    have : (chainDone.any fun s => s.worklist = ∅) = true := by decide
    rwa [hs, Option.any_some, decide_eq_true_eq] at this
  obtain ⟨hturns, hacc, hdone⟩ := RunDeadCodeElimination_unique [chain]
    (fun _ hF => List.mem_singleton.mp hF ▸ chain_linked) s (chain_reaches hs)
  exact ⟨s, hs, hnil, hturns, hacc, hdone hnil⟩

end Ece566.Dce
