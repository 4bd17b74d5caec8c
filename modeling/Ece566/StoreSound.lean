import Ece566.StoreElim

/- Store-to-load forwarding and dead-store elimination. The scan from a store goes on only
   past instructions that do not look at the memory, so whatever it does is one of the two
   steps; and the loop over the stores of a block is such scans one after another. -/
namespace Ece566.Llvm

open Dominance Relation

variable {F F' : Func} {b : Label} {I n : Nat} {i j : Instr} {p p' : Pass}

/-- The loop of the pass over the instructions of a block, with its store optimization alone. -/
def storeInst (b : Label) (instIter : Nat) : Cse (Option Nat) := do
  let i ← deref b instIter
  let moved ← onlyIf (isStore i) (some instIter) do
    eliminateRedundantStoreCall b instIter ((← get).func.idsAfter b instIter)
  if moved = some instIter then return (← get).func.next b instIter
  else return moved

def storeBlock (b : Label) : Nat → Option Nat → Cse Unit
  | _, none => pure ()
  | 0, some _ => failure
  | fuel + 1, some n => do storeBlock b fuel (← storeInst b n)

/-- What the scan from `I`, with `ns` yet to visit, has passed. -/
structure Passed (F : Func) (b : Label) (I : Nat) (ns : List Nat) : Prop where
  suffix : ∃ pre, F.ids b = pre ++ ns
  quiet : ∀ k ∈ F.insts b, [I, k.id].Sublist (F.ids b) → k.id ∉ ns → k.isTerminator = false →
    k.isQuiet = true

namespace Passed

variable {ns : List Nat}

/-- What stands before the next instruction has been passed. -/
theorem before (h : Passed F b I (n :: ns)) (hF : F.SsaForm) {m : Nat}
    (hm : [m, n].Sublist (F.ids b)) : m ∉ n :: ns := by
  obtain ⟨pre, hids⟩ := h.suffix
  have hnd := hF.nodup b
  rw [hids] at hm hnd
  rw [pair_iff hnd] at hm
  rw [List.nodup_append] at hnd
  exact fun hmem => hnd.2.2 m hm m hmem rfl

theorem quietBetween (h : Passed F b i.id (j.id :: ns)) (hF : F.SsaForm) : QuietBetween F b i j := by
  intro k hk hik hkj
  exact h.quiet k hk hik (h.before hF hkj) (not_terminator_of_pair hF hk hkj)

theorem tail (h : Passed F b I (j.id :: ns)) (hF : F.SsaForm) (hj : j ∈ F.insts b)
    (hq : j.isTerminator = false → j.isQuiet = true) : Passed F b I ns where
  suffix := by
    obtain ⟨pre, hids⟩ := h.suffix
    exact ⟨pre ++ [j.id], by simp [hids]⟩
  quiet k hk hIk hkn hterm := by
    by_cases e : k.id = j.id
    · obtain rfl := hF.inst_eq hk hj e
      exact hq hterm
    · exact h.quiet k hk hIk (by simp [e, hkn]) hterm

theorem substitute (h : Passed F b I (j.id :: ns)) (hF : F.SsaForm) (hj : j ∈ F.insts b)
    (hterm : j.isTerminator = false) (v : Value) : Passed (F.substitute j.id v) b I ns where
  suffix := by
    obtain ⟨pre, hids⟩ := h.suffix
    have hnd := hF.nodup b
    rw [hids, List.nodup_append, List.nodup_cons] at hnd
    have hpre : pre.filter (fun d => d != j.id) = pre := by
      rw [List.filter_eq_self]
      exact fun d hd => bne_iff_ne.mpr (hnd.2.2 d hd j.id List.mem_cons_self)
    have hns : ns.filter (fun d => d != j.id) = ns := by
      rw [List.filter_eq_self]
      intro d hd
      rw [bne_iff_ne]
      intro e
      obtain rfl := e
      exact hnd.2.1.1 hd
    refine ⟨pre, ?_⟩
    rw [substitute_ids, hids, List.filter_append, List.filter_cons_of_neg (by simp), hpre, hns]
  quiet k' hk' hIk hkn hterm' := by
    obtain ⟨k, hk, hne, rfl⟩ := mem_substitute.mp hk'
    have hs := (hF.substitute_shrinks hj hterm v).pair_of hIk
    exact h.quiet k hk hs (by rw [List.mem_cons, not_or]; exact ⟨hne, hkn⟩) hterm'

end Passed

/-- The scan starts right after the store. -/
theorem Passed.own (hF : F.SsaForm) (hi : i ∈ F.insts b) : Passed F b i.id (F.idsAfter b i.id) := by
  obtain ⟨pre, post, hb⟩ := List.append_of_mem hi
  have hafter : F.idsAfter b i.id = post.map Instr.id := by
    rw [Func.idsAfter, idsFrom_eq (split_ids hb) (hF.nodup b)]
    rfl
  rw [hafter]
  refine ⟨⟨pre.map Instr.id ++ [i.id], by simp [split_ids hb]⟩, fun k hk hik hkn => ?_⟩
  exact absurd (List.mem_map_of_mem ((split_after hF hb hk).mp hik)) hkn

theorem eliminateRedundantStoreCall_preserves (ns : List Nat) : ∀ {p : Pass},
    Scan (fun i => isStore i = true) p.func b I b ns → I ∉ ns → p.func.Accesses b →
    Passed p.func b I ns → Wp (eliminateRedundantStoreCall b I ns)
      (fun _ p' => Preserves p.func b p'.func ∧ Shrinks p.func p'.func) p := by
  induction ns with
  | nil =>
    intro p h _ _ _
    exact Wp.pure' ⟨Preserves.refl h.ssa, Shrinks.refl _⟩
  | cons n ns ih =>
    intro p h hI hacc hpast
    obtain ⟨i, hi, hid, hs⟩ := h.left
    obtain ⟨j, hj, rfl⟩ := mem_ids.mp (h.right n List.mem_cons_self)
    have hne : j.id ≠ I := fun e => hI (by rw [e]; exact List.mem_cons_self)
    have hI' : I ∉ ns := fun hm => hI (List.mem_cons_of_mem _ hm)
    have hpair : [i.id, j.id].Sublist (p.func.ids b) := hid ▸ h.pair hI
    refine Wp.bind' (deref_spec h.ssa hi hid) ?_
    intro _ _ h
    obtain ⟨rfl, rfl⟩ := h
    refine Wp.bind' (deref_spec h.ssa hj rfl) ?_
    intro _ _ h
    obtain ⟨rfl, rfl⟩ := h
    have hquiet : QuietBetween _ b _ _ := Passed.quietBetween (hid ▸ hpast) h.ssa
    split
    · rename_i hc
      simp only [Bool.and_eq_true] at hc
      obtain ⟨v, hv⟩ := store_value h.ssa hi hs
      rw [hv]
      have hfw : Forwarding _ b _ _ v :=
        ⟨hi, hj, hs, hc.1.1.1.2, hc.1.1.2, hc.1.2, hc.2, hv, hpair⟩
      have hterm := not_terminator_of_isLoad hfw.load
      have hshrinks := h.ssa.substitute_shrinks hj hterm v
      refine substitute_spec ?_
      refine (ih (h.substitute hne hj rfl hterm (hfw.available h.ssa)) hI' (hacc.shrink hshrinks)
        (hpast.substitute h.ssa hj hterm v)).mono ?_
      intro _ p' h
      obtain ⟨hpres, hsh⟩ := h
      exact ⟨(hfw.preserves h.ssa hquiet).trans hpres hshrinks hsh, hshrinks.trans hsh⟩
    · split
      · rename_i hc
        simp only [Bool.and_eq_true] at hc
        have how : Overwriting _ b _ _ :=
          ⟨hi, hj, hs, hc.1.1.1.2, hc.1.1.2, hc.1.2, hc.2, hpair⟩
        have hterm := not_terminator_of_isStore hs
        have herase := (h.ssa.erase hi hterm (store_unused h.ssa hi hs)).1
        refine Wp.bind' get_spec ?_
        intro _ _ h
        obtain ⟨rfl, rfl⟩ := h
        refine erase_spec (Wp.pure' ?_)
        rw [← hid]
        refine ⟨how.preserves h.ssa hquiet, ?_⟩
        show Shrinks _ (Func.eraseFromParent _ _)
        rw [herase]
        exact h.ssa.substitute_shrinks hi hterm _
      · split
        · exact Wp.pure' ⟨Preserves.refl h.ssa, Shrinks.refl _⟩
        · rename_i hc
          simp only [Bool.or_eq_true, not_or, Bool.not_eq_true] at hc
          refine ih h.tail hI' hacc (hpast.tail h.ssa hj fun hterm => ?_)
          rw [Instr.isQuiet, Bool.or_eq_true]
          rcases hacc _ hj hterm with hphi | hpure | hl | hst | hcall
          · exact .inl hphi
          · exact .inr hpure
          · rw [hc.1.1] at hl; cases hl
          · rw [hc.1.2] at hst; cases hst
          · rw [hc.2] at hcall; cases hcall

/-! The loop over a block. -/

/-- One turn of the loop. -/
theorem storeInst_spec (hF : p.func.SsaForm) (hacc : p.func.Accesses b) (hn : n ∈ p.func.ids b) :
    Wp (storeInst b n) (fun it p' => Preserves p.func b p'.func ∧
      Edits (fun _ _ _ => none) p p' ∧ Ahead p.func b n it p') p := by
  obtain ⟨i, hi, rfl⟩ := mem_ids.mp hn
  refine Wp.bind' (deref_spec hF hi rfl) ?_
  intro i p h
  obtain ⟨rfl, rfl⟩ := h
  refine Wp.bind' (P := fun moved p' => Preserves p.func b p'.func ∧ Edits (fun _ _ _ => none) p p' ∧
      ((moved = some i.id ∧ i.id ∈ p'.func.ids b) ∨
        (moved ≠ some i.id ∧ Ahead p.func b i.id moved p')))
    (onlyIf_spec (fun hs => ?_) fun _ => ⟨Preserves.refl hF, .refl, .inl ⟨rfl, hn⟩⟩) ?_
  · refine Wp.bind' get_spec ?_
    intro _ _ h
    obtain ⟨rfl, rfl⟩ := h
    have hscan := Scan.own hF isStore_congr hi hs
    have hI := not_mem_idsAfter hF hn
    refine ((eliminateRedundantStoreCall_preserves _ hscan hI hacc (Passed.own hF hi)).and'
      (@eliminateRedundantStoreCall_spec b _ (fun _ _ _ => none) _ _ hscan hI)).mono ?_
    intro it p' h
    obtain ⟨⟨hpres, -⟩, hedits, hit⟩ := h
    exact ⟨hpres, hedits, hit⟩
  · intro moved p' h
    obtain ⟨hpres, hedits, hmoved⟩ := h
    obtain ⟨hF', hs', -⟩ := Edits.ssaForm simplifies_none hF hedits
    rcases hmoved with ⟨rfl, hn'⟩ | ⟨hne, ha⟩
    · rw [if_pos rfl]
      refine Wp.bind' get_spec ?_
      intro _ _ h
      obtain ⟨rfl, rfl⟩ := h
      refine Wp.pure' ⟨hpres, hedits, fun m hm => ?_⟩
      have hp := next_pair hF' hn' hm
      exact ⟨(pair_mem hp).2, hs'.pair_of hp⟩
    · rw [if_neg hne]
      exact Wp.pure' ⟨hpres, hedits, ha⟩

theorem storeBlock_spec (fuel : Nat) : ∀ (it : Option Nat) {p : Pass}, p.func.SsaForm →
    p.func.Accesses b →
    (∀ m, it = some m → m ∈ p.func.ids b ∧ (p.func.idsFrom b m).length ≤ fuel) →
    Wp (storeBlock b fuel it)
      (fun _ p' => Preserves p.func b p'.func ∧ Shrinks p.func p'.func) p := by
  induction fuel with
  | zero =>
    intro it p hF _ hit
    cases it with
    | none => exact Wp.pure' ⟨Preserves.refl hF, Shrinks.refl _⟩
    | some n =>
      obtain ⟨hn, hlen⟩ := hit n rfl
      obtain ⟨pre, rest, hids⟩ := List.append_of_mem hn
      rw [idsFrom_eq hids (hF.nodup b)] at hlen
      cases hlen
  | succ fuel ih =>
    intro it p hF hacc hit
    cases it with
    | none => exact Wp.pure' ⟨Preserves.refl hF, Shrinks.refl _⟩
    | some n =>
      obtain ⟨hn, hlen⟩ := hit n rfl
      refine Wp.bind' (storeInst_spec hF hacc hn) ?_
      intro it p₁ h
      obtain ⟨hpres, hedits, ha⟩ := h
      obtain ⟨hF₁, hs₁, -⟩ := Edits.ssaForm simplifies_none hF hedits
      refine (ih it hF₁ (hacc.shrink hs₁) fun m hm => ⟨(ha m hm).1, ?_⟩).mono ?_
      · have := idsFrom_lt hF hs₁ (ha m hm).1 (ha m hm).2
        omega
      · intro _ p₂ h
        obtain ⟨hpres₂, hs₂⟩ := h
        exact ⟨hpres.trans hpres₂ hs₁ hs₂, hs₁.trans hs₂⟩

/-- **Forwarding and dead-store elimination preserve what a block does**, for a scan from any
of its stores and for the loop over all of them. -/
theorem storeElimination_preserves (hF : p.func.SsaForm) (hacc : p.func.Accesses b) :
    (∀ i ∈ p.func.insts b, isStore i = true → ∃ it p',
      (eliminateRedundantStoreCall b i.id (p.func.idsAfter b i.id)).run p = some (it, p') ∧
        Preserves p.func b p'.func) ∧
    ∃ p', (storeBlock b (p.func.ids b).length (p.func.ids b).head?).run p = some (⟨⟩, p') ∧
      Preserves p.func b p'.func := by
  refine ⟨?_, ?_⟩
  · intro i hi hs
    obtain ⟨it, p', hrun, hpres, -⟩ := eliminateRedundantStoreCall_preserves _
      (Scan.own hF isStore_congr hi hs) (not_mem_idsAfter hF (mem_ids.mpr ⟨i, hi, rfl⟩)) hacc
      (Passed.own hF hi)
    exact ⟨it, p', hrun, hpres⟩
  · obtain ⟨_, p', hrun, hpres, -⟩ := storeBlock_spec (b := b) (p.func.ids b).length (p.func.ids b).head?
      hF hacc fun m hm => ⟨List.mem_of_mem_head? hm, idsFrom_sublist.length_le⟩
    exact ⟨p', hrun, hpres⟩

/-- `store 1, %a`, `%2 = load %a`, `store volatile %2, %a`, `ret`. -/
def storeTwice : Func :=
  oneBlock ([⟨1, ⟨.store, 0, [32, 64], false, 0⟩, [.const 1 32, .arg 0 64], []⟩,
      ⟨2, ⟨.load, 32, [64], false, 0⟩, [.arg 0 64], []⟩,
      ⟨3, ⟨.store, 0, [32, 64], true, 0⟩, [.inst 2 32, .arg 0 64], []⟩] ++
    [⟨4, ⟨.ret, 0, [], false, 0⟩, [], []⟩])

theorem storeTwice_ssaForm : storeTwice.SsaForm :=
  oneBlock_ssaForm (by decide) (by decide) (by decide)

theorem storeTwice_accesses : storeTwice.Accesses 0 := by
  unfold Func.Accesses
  decide

theorem storeElimination_preserves_storeTwice :
    (∀ i ∈ storeTwice.insts 0, isStore i = true → ∃ it p',
      (eliminateRedundantStoreCall 0 i.id (storeTwice.idsAfter 0 i.id)).run (Pass.start storeTwice) =
        some (it, p') ∧ Preserves storeTwice 0 p'.func) ∧
    ∃ p', (storeBlock 0 4 (some 1)).run (Pass.start storeTwice) = some (⟨⟩, p') ∧
      Preserves storeTwice 0 p'.func :=
  storeElimination_preserves (p := Pass.start storeTwice) (b := 0) storeTwice_ssaForm storeTwice_accesses

/-- Calls and volatile accesses with their arguments and the memory they find. -/
def memoryFound {V M : Type} (e : Event V M) : Option (Op × List V × M) :=
  if e.op.opcode == .call || e.op.volatile then some (e.op, e.args, e.before) else none

/-- A memory of one cell. -/
def cell : Sem Nat Nat where
  leaf
    | .const c _ => c
    | _ => 0
  undef := 0
  compute _ _ := 0
  effect op args m :=
    match op.opcode with
    | .load => (m, m)
    | .store => (0, args.headD m)
    | _ => (0, m)
  branch _ _ _ := 0

theorem cell_memory : cell.Memory fun _ _ => True where
  leaf _ := trivial
  undef _ := trivial
  compute _ := trivial
  effect _ := trivial
  load_keeps h _ := by simp [cell, h]
  load_stored h h' _ _ _ := by simp [cell, h, h']
  store_overwrites h _ h' _ := by simp [cell, h, h']
  store_result h := by simp [cell, h]

/-- A volatile store that overwrites another store finds the memory without it. -/
theorem volatile_store_finds : ∃ it p',
    (eliminateRedundantStoreCall 0 1 (storeTwice.idsAfter 0 1)).run (Pass.start storeTwice) =
        some (it, p') ∧
      ¬ ∀ (V M : Type) (S : Sem V M) (HasTy : V → Ty → Prop) (st : State V M), S.Memory HasTy →
        Typed HasTy storeTwice st.regs → BlockAgrees memoryFound S storeTwice 0 p'.func st := by
  refine ⟨_, _, rfl, fun h => ?_⟩
  have hlog := (h Nat Nat cell (fun _ _ => True) ⟨fun _ => none, 0, [], []⟩ cell_memory
    fun _ _ => trivial).log
  exact absurd hlog (by decide)

end Ece566.Llvm
