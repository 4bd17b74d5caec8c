import Ece566.Licm
import Ece566.SsaForm

/- Moving an instruction to the preheader of a loop. The instruction is no phi and no
   terminator, and its operands are defined outside the loop; a definition outside a loop
   that dominates a block inside it dominates the preheader, so the operands are defined
   there, and the preheader dominates the loop, so the uses still come after. -/
namespace Ece566.Llvm

open Dominance

/-- LLVM's `isSpecialTerminator`: a terminator with side effects or a value. -/
def Opcode.isSpecialTerminator : Opcode → Bool
  | .catchSwitch | .catchRet | .cleanupRet | .invoke | .resume | .callBr => true
  | _ => false

namespace Func

def IsLoop (F : Func) (L : Loop) : Prop :=
  Dominance.IsLoop F.Edge F.entry (fun b => L.contains b = true) L.header

/-- The one block outside the loop from which its header is entered has one successor, counted as
often as its terminator names it, and instructions can be put before the terminator. -/
structure IsPreheader (F : Func) (L : Loop) (p : Label) : Prop where
  entered : Dominance.IsPreheader F.Edge (fun b => L.contains b = true) L.header p
  only : ∀ t ∈ F.insts p, t.isTerminator = true → t.blocks = [L.header]
  plain : ∀ t ∈ F.insts p, t.isTerminator = true → t.op.opcode.isSpecialTerminator = false

end Func

variable {F : Func} {L : Loop} {a b p : Label} {i j : Instr}

theorem plain_hasValue {op : Opcode} (h : op.isTerminator = true) (hs : op.isSpecialTerminator = false) :
    op.hasValue = false := by
  cases op <;> first | rfl | exact absurd h (by decide) | exact absurd hs (by decide)

/-! What the move does to the blocks. -/

theorem mem_moveBefore :
    j ∈ (F.moveBefore i p).insts a ↔ (j ∈ F.insts a ∧ j.id ≠ i.id) ∨ (a = p ∧ j = i) := by
  by_cases ha : a = p
  · subst ha
    simp only [Func.moveBefore, insertLast, if_true, true_and, List.mem_append, List.mem_cons]
    have hrest : j ∈ (F.insts a).filter (fun k => k.id != i.id) ↔ j ∈ F.insts a ∧ j.id ≠ i.id := by
      simp
    rw [← hrest]
    generalize (F.insts a).filter (fun k => k.id != i.id) = l
    cases hl : l.getLast? with
    | none => simp [List.getLast?_eq_none_iff.mp hl]
    | some t =>
      have e : l = l.dropLast ++ [t] := (List.dropLast_append_getLast? t hl).symm
      have hmem : j ∈ l ↔ j ∈ l.dropLast ∨ j = t := by
        conv_lhs => rw [e]
        simp
      rw [hmem]
      simp only [Option.toList_some, List.mem_singleton]
      tauto
  · simp [Func.moveBefore, ha]

theorem moveBefore_other (ha : a ≠ p) :
    (F.moveBefore i p).insts a = (F.insts a).filter fun j => j.id != i.id := if_neg ha

/-- The block moved to. -/
theorem moveBefore_at (hno : i.id ∉ F.ids p) {body : List Instr} {t : Instr}
    (hp : F.insts p = body ++ [t]) : (F.moveBefore i p).insts p = body ++ [i, t] := by
  have hkeep : (F.insts p).filter (fun j => j.id != i.id) = F.insts p := by
    rw [List.filter_eq_self]
    intro j hj
    rw [bne_iff_ne]
    exact fun e => hno (mem_ids.mpr ⟨j, hj, e⟩)
  have hins : (F.moveBefore i p).insts p = insertLast i ((F.insts p).filter fun j => j.id != i.id) :=
    if_pos rfl
  rw [hins, hkeep, hp, insertLast]
  simp

theorem moveBefore_pre (hF : F.SsaForm) (hi : i ∈ F.insts b) (hne : b ≠ p) {body : List Instr} {t : Instr}
    (hp : F.insts p = body ++ [t]) : (F.moveBefore i p).insts p = body ++ [i, t] :=
  moveBefore_at (fun h => hne (hF.unique (mem_ids.mpr ⟨i, hi, rfl⟩) h)) hp

/-- No id is there twice. -/
theorem nodup_moveBefore (hnd : ∀ a, (F.ids a).Nodup) (hno : i.id ∉ F.ids p) {body : List Instr}
    {t : Instr} (hp : F.insts p = body ++ [t]) (a : Label) : ((F.moveBefore i p).ids a).Nodup := by
  by_cases ha : a = p
  · subst ha
    have hperm : ((body ++ [i, t]).map Instr.id).Perm (i.id :: (body ++ [t]).map Instr.id) :=
      List.perm_middle.map Instr.id
    rw [Func.ids, moveBefore_at hno hp, hperm.nodup_iff, ← hp]
    exact List.nodup_cons.mpr ⟨hno, hnd a⟩
  · rw [Func.ids, moveBefore_other ha]
    exact (hnd a).sublist (List.filter_sublist.map _)

/-- Where the instructions are now. -/
theorem mem_moveBefore_ids {d : Nat} : d ∈ (F.moveBefore i p).ids a ↔
    (d ∈ F.ids a ∧ d ≠ i.id) ∨ (a = p ∧ d = i.id) := by
  rw [mem_ids, mem_ids]
  refine ⟨?_, ?_⟩
  · intro ⟨j, hj, e⟩
    rcases mem_moveBefore.mp hj with ⟨hj, hne⟩ | ⟨ha, rfl⟩
    · exact .inl ⟨⟨j, hj, e⟩, e ▸ hne⟩
    · exact .inr ⟨ha, e.symm⟩
  · intro h
    obtain ⟨⟨j, hj, e⟩, hne⟩ | ⟨ha, e⟩ := h
    · exact ⟨j, mem_moveBefore.mpr (.inl ⟨hj, e ▸ hne⟩), e⟩
    · exact ⟨i, mem_moveBefore.mpr (.inr ⟨ha, rfl⟩), e.symm⟩

theorem unique_moveBefore (hu : ∀ {a c d}, d ∈ F.ids a → d ∈ F.ids c → a = c) {c : Label} {d : Nat}
    (ha : d ∈ (F.moveBefore i p).ids a) (hc : d ∈ (F.moveBefore i p).ids c) : a = c := by
  rcases mem_moveBefore_ids.mp ha with ⟨ha, hd⟩ | ⟨ha, hd⟩
  · exact hu ha ((mem_moveBefore_ids.mp hc).resolve_right fun h => hd h.2).1
  · exact ha.trans ((mem_moveBefore_ids.mp hc).resolve_left fun h => h.2 hd).1.symm

section
variable (hF : F.SsaForm) (hi : i ∈ F.insts b)

include hF hi

theorem moveBefore_edge (hterm : i.isTerminator = false) : (F.moveBefore i p).Edge = F.Edge := by
  funext a c
  refine propext ⟨?_, ?_⟩
  · intro ⟨t, ht, htt, hc⟩
    rcases mem_moveBefore.mp ht with ⟨ht, -⟩ | ⟨-, rfl⟩
    · exact ⟨t, ht, htt, hc⟩
    · rw [hterm] at htt
      cases htt
  · intro ⟨t, ht, htt, hc⟩
    refine ⟨t, mem_moveBefore.mpr (.inl ⟨ht, fun e => ?_⟩), htt, hc⟩
    obtain rfl := hF.unique (mem_ids.mpr ⟨t, ht, e⟩) (mem_ids.mpr ⟨i, hi, rfl⟩)
    rw [hF.inst_eq ht hi e, hterm] at htt
    cases htt

/-- Instructions that are not moved keep their order. -/
theorem moveBefore_pair (hne : b ≠ p) {d u : Nat} (h : [d, u].Sublist (F.ids a)) (hd : d ≠ i.id)
    (hu : u ≠ i.id) : [d, u].Sublist ((F.moveBefore i p).ids a) := by
  by_cases ha : a = p
  · subst ha
    obtain ⟨j, hj, -⟩ := mem_ids.mp (pair_mem h).1
    obtain ⟨body, t, hp, -⟩ := hF.terminated (List.ne_nil_of_mem hj)
    rw [Func.ids, hp] at h
    rw [Func.ids, moveBefore_pre hF hi hne hp]
    refine h.trans (List.Sublist.map _ ?_)
    exact (List.Sublist.refl body).append (List.sublist_cons_self i [t])
  · have hids : (F.moveBefore i p).ids a = (F.ids a).filter fun n => n != i.id := by
      rw [Func.ids, moveBefore_other ha, Func.ids, List.filter_map]
      rfl
    have := h.filter fun n => n != i.id
    rw [List.filter_cons_of_pos (by simpa using hd), List.filter_cons_of_pos (by simpa using hu)] at this
    rw [hids]
    exact this

/-- The instruction moved stands after the rest of its new block, the terminator apart. -/
theorem moveBefore_after (hne : b ≠ p) {d : Nat} {t : Instr} (ht : t ∈ F.insts p)
    (hterm : t.isTerminator = true) (hd : d ∈ F.ids p) (hdt : d ≠ t.id) :
    [d, i.id].Sublist ((F.moveBefore i p).ids p) := by
  obtain ⟨body, t', hp, -, hbody⟩ := hF.terminated (List.ne_nil_of_mem ht)
  have htt : t = t' := by
    rw [hp, List.mem_append, List.mem_singleton] at ht
    rcases ht with ht | rfl
    · rw [hbody t ht] at hterm
      cases hterm
    · rfl
  subst htt
  have hdb : d ∈ body.map Instr.id := by
    rw [Func.ids, hp, List.map_append, List.mem_append] at hd
    refine hd.resolve_right fun h => hdt ?_
    simpa using h
  rw [Func.ids, moveBefore_pre hF hi hne hp, List.map_append]
  have h₁ : [d].Sublist (body.map Instr.id) := List.singleton_sublist.mpr hdb
  exact h₁.append (List.singleton_sublist.mpr (by simp))

theorem moveBefore_before (hne : b ≠ p) (hterm : i.isTerminator = false) {c : Label} {d u : Nat}
    (h : F.Before a d c u) (hd : d ≠ i.id) (hu : u ≠ i.id) : (F.moveBefore i p).Before a d c u := by
  rw [Func.Before, moveBefore_edge hF hi hterm]
  rcases h with ⟨rfl, hs⟩ | h
  · exact .inl ⟨rfl, moveBefore_pair hF hi hne hs hd hu⟩
  · exact .inr h

theorem moveBefore_nodup (hne : b ≠ p) {t : Instr} (ht : t ∈ F.insts p) (a : Label) :
    ((F.moveBefore i p).ids a).Nodup := by
  obtain ⟨body, t', e, -⟩ := hF.terminated (List.ne_nil_of_mem ht)
  exact nodup_moveBefore hF.nodup (fun h => hne (hF.unique (mem_ids.mpr ⟨i, hi, rfl⟩) h)) e a

/-- Every block still ends with its one terminator. -/
theorem moveBefore_terminated (hne : b ≠ p) (hterm : i.isTerminator = false) (ha : F.insts a ≠ []) :
    ∃ body t, (F.moveBefore i p).insts a = body ++ [t] ∧ t.isTerminator = true ∧
      ∀ k ∈ body, k.isTerminator = false := by
  obtain ⟨body, t, e, ht, hbody⟩ := hF.terminated ha
  by_cases hap : a = p
  · subst hap
    refine ⟨body ++ [i], t, by simp [moveBefore_pre hF hi hne e], ht, fun k hk => ?_⟩
    rcases List.mem_append.mp hk with hk | hk
    · exact hbody k hk
    · rw [List.mem_singleton.mp hk]
      exact hterm
  · have htz : t.id ≠ i.id := by
      intro eid
      have hta : t ∈ F.insts a := by simp [e]
      obtain rfl := hF.unique (mem_ids.mpr ⟨t, hta, eid⟩) (mem_ids.mpr ⟨i, hi, rfl⟩)
      rw [hF.inst_eq hta hi eid, hterm] at ht
      cases ht
    refine ⟨body.filter fun j => j.id != i.id, t, ?_, ht, fun k hk => hbody k (List.mem_filter.mp hk).1⟩
    rw [moveBefore_other hap, e, List.filter_append, List.filter_cons_of_pos (by simpa using htz)]
    rfl

end

/-- What is outside a loop. -/
theorem isInside_iff {id : Nat} {ty : Ty} :
    isInside F L (.inst id ty) = true ↔ ∃ a, L.contains a = true ∧ id ∈ F.ids a := by
  simp [isInside, Loop.contains]

/-- The operands of the instruction moved are defined before its new place: outside the loop, so
above the preheader or in it, and not by its terminator. -/
theorem moved_operand (hF : F.SsaForm) (hL : F.IsLoop L) (hp : F.IsPreheader L p) (hi : i ∈ F.insts b)
    (hb : L.contains b = true) (hphi : i.isPhi = false) (hterm : i.isTerminator = false)
    (hops : hasLoopInvariantOperands F L i = true) {id : Nat} {ty : Ty} (ho : .inst id ty ∈ i.operands)
    (hid : id ∈ (F.moveBefore i p).ids a) : (F.moveBefore i p).Before a id p i.id := by
  obtain ⟨t, ht, htt, -⟩ := hp.entered.edge
  have hne : b ≠ p := by
    intro e
    obtain rfl := e
    exact hp.entered.outside hb
  have hself : id ≠ i.id := by
    intro e
    obtain rfl := e
    exact Before.irrefl hF.nodup (hF.uses hi hphi ho (mem_ids.mpr ⟨i, hi, rfl⟩))
  obtain ⟨hida, -⟩ := (mem_moveBefore_ids.mp hid).resolve_right fun h => hself h.2
  have ha : ¬ L.contains a = true := by
    intro ha
    have := List.all_eq_true.mp hops _ ho
    rw [isLoopInvariant, isInside_iff.mpr ⟨a, ha, hida⟩] at this
    cases this
  have hap := hL.dom_preheader hp.entered (hF.reachable (List.ne_nil_of_mem hi)) hb ha
    (Before.dom (hF.uses hi hphi ho hida))
  by_cases hac : a = p
  · subst hac
    refine .inl ⟨rfl, moveBefore_after hF hi hne ht htt hida ?_⟩
    intro e
    obtain rfl := e
    obtain ⟨a', d, hd, e, -, hval⟩ := hF.refs hi ho
    obtain rfl := hF.unique (mem_ids.mpr ⟨d, hd, e⟩) hida
    rw [hF.inst_eq hd ht e, plain_hasValue htt (hp.plain t ht htt)] at hval
    cases hval
  · exact .inr ⟨hac, by rw [moveBefore_edge hF hi hterm]; exact hap⟩

/-- **The move keeps SSA form**, from a block of a loop to its preheader. -/
theorem moveBefore_ssaForm (hF : F.SsaForm) (hL : F.IsLoop L) (hp : F.IsPreheader L p)
    (hi : i ∈ F.insts b) (hb : L.contains b = true) (hphi : i.isPhi = false)
    (hterm : i.isTerminator = false) (hops : hasLoopInvariantOperands F L i = true) :
    (F.moveBefore i p).SsaForm := by
  have hedge := moveBefore_edge hF hi hterm (p := p)
  have hout : ¬ L.contains p = true := hp.entered.outside
  have hne : b ≠ p := by
    intro e
    obtain rfl := e
    exact hout hb
  have hib : i.id ∈ F.ids b := mem_ids.mpr ⟨i, hi, rfl⟩
  have hreach := hF.reachable (List.ne_nil_of_mem hi)
  -- the preheader is not empty: it ends with the terminator that leads to the header
  obtain ⟨t, ht, htt, -⟩ := hp.entered.edge
  have hpb : F.Dom p b := hL.preheader_dom hp.entered hb
  have hnonempty : ∀ {a}, (F.moveBefore i p).insts a ≠ [] → F.insts a ≠ [] := by
    intro a ha e
    obtain ⟨j, hj⟩ := List.exists_mem_of_ne_nil _ ha
    rcases mem_moveBefore.mp hj with ⟨hj, -⟩ | ⟨rfl, -⟩
    · rw [e] at hj
      cases hj
    · rw [e] at ht
      cases ht
  have hdom : ∀ a c, (F.moveBefore i p).Dom a c = F.Dom a c := by
    intro a c
    rw [Func.Dom, hedge]
    rfl
  have hold : ∀ {a j}, j ∈ (F.moveBefore i p).insts a → j.isPhi = true → j ∈ F.insts a := by
    intro a j hj hjphi
    refine ((mem_moveBefore.mp hj).resolve_right fun h => ?_).1
    rw [h.2, hphi] at hjphi
    cases hjphi
  -- an instruction of the function is what it was, `i` wherever it stands
  have horig : ∀ {a j}, j ∈ (F.moveBefore i p).insts a → ∃ c, j ∈ F.insts c := by
    intro a j hj
    rcases mem_moveBefore.mp hj with ⟨hj, -⟩ | ⟨-, rfl⟩
    · exact ⟨a, hj⟩
    · exact ⟨b, hi⟩
  constructor
  case nodup => exact moveBefore_nodup hF hi hne ht
  case unique => exact unique_moveBefore hF.unique
  case listed => exact fun ha => hF.listed (hnonempty ha)
  case reachable =>
    rw [hedge]
    exact fun ha => hF.reachable (hnonempty ha)
  case entry =>
    rw [hedge]
    exact hF.entry
  case terminated => exact fun ha => moveBefore_terminated hF hi hne hterm (hnonempty ha)
  case incoming =>
    rw [hedge]
    exact fun hj hjphi => hF.incoming (hold hj hjphi) hjphi
  case typed =>
    intro a j hj
    obtain ⟨c, hj⟩ := horig hj
    exact hF.typed hj
  case shape =>
    intro a j hj
    obtain ⟨c, hj⟩ := horig hj
    exact hF.shape hj
  case refs =>
    intro a j id ty hj ho
    obtain ⟨c, hj⟩ := horig hj
    obtain ⟨a', d, hd, hid, hty, hval⟩ := hF.refs hj ho
    by_cases hdi : d.id = i.id
    · obtain rfl := hF.unique (mem_ids.mpr ⟨d, hd, hdi⟩) hib
      obtain rfl := hF.inst_eq hd hi hdi
      exact ⟨p, d, mem_moveBefore.mpr (.inr ⟨rfl, rfl⟩), hid, hty, hval⟩
    · exact ⟨a', d, mem_moveBefore.mpr (.inl ⟨hd, hdi⟩), hid, hty, hval⟩
  case uses =>
    intro a c j id ty hj hjphi ho hid
    rcases mem_moveBefore.mp hj with ⟨hjc, hji⟩ | ⟨rfl, rfl⟩
    · rcases mem_moveBefore_ids.mp hid with ⟨hida, hne'⟩ | ⟨rfl, rfl⟩
      · exact moveBefore_before hF hi hne hterm (hF.uses hjc hjphi ho hida) hne' hji
      · -- a use of the instruction moved
        have hbc := Before.dom (hF.uses hjc hjphi ho hib)
        refine .inr ⟨?_, by rw [hedge]; exact hpb.trans hbc⟩
        intro e
        obtain rfl := e
        exact hne (hpb.antisymm hbc hreach).symm
    · exact moved_operand hF hL hp hi hb hphi hterm hops ho hid
  case phiUses =>
    intro a c j id ty q hj hjphi ho hid
    rw [hdom]
    rcases mem_moveBefore_ids.mp hid with ⟨hid, -⟩ | ⟨rfl, rfl⟩
    · exact hF.phiUses (hold hj hjphi) hjphi ho hid
    · exact hpb.trans (hF.phiUses (hold hj hjphi) hjphi ho hib)

/-! A loop without an exit: block 1 goes round, to itself or through block 2, and block 2 loads. -/

def endlessLoad : Instr := ⟨2, ⟨.load, 0, [0], false, 0⟩, [.arg 1 0], []⟩

def endless : Func where
  entry := 0
  blocks := [0, 1, 2]
  insts
    | 0 => [⟨0, ⟨.br, 0, [], false, 0⟩, [], [1]⟩]
    | 1 => [⟨1, ⟨.br, 0, [0], false, 0⟩, [.arg 0 0], [1, 2]⟩]
    | 2 => [endlessLoad, ⟨3, ⟨.br, 0, [], false, 0⟩, [], [1]⟩]
    | _ => []

def endlessLoop : Loop := .mk 1 [1, 2] []

theorem endless_listed (h : endless.insts b ≠ []) : b ∈ endless.blocks := by
  match b, h with
  | 0, _ | 1, _ | 2, _ => decide

theorem endless_edge : endless.Edge a b ↔ (a, b) ∈ [(0, 1), (1, 1), (1, 2), (2, 1)] :=
  edge_iff endless_listed

theorem endless_ssaForm : endless.SsaForm := by
  have h₁ : Reach endless.Edge endless.entry 1 := .single (endless_edge.mpr (by decide))
  refine local_ssaForm endless_listed (fun {b} hb => ?_) (by decide)
  simp only [endless, List.mem_cons, List.not_mem_nil, or_false] at hb
  rcases hb with rfl | rfl | rfl
  · exact .refl
  · exact h₁
  · exact h₁.tail (endless_edge.mpr (by decide))

theorem endless_isLoop : endless.IsLoop endlessLoop where
  header := by decide
  root := by decide
  entry {a b} e ha hb := by
    have hall : ∀ e ∈ [(0, 1), (1, 1), (1, 2), (2, 1)], ¬ endlessLoop.contains e.1 = true →
        endlessLoop.contains e.2 = true → e.2 = 1 := by decide
    exact hall _ (endless_edge.mp e) ha hb

theorem endless_isPreheader : endless.IsPreheader endlessLoop 0 where
  entered :=
    { outside := by decide
      edge := endless_edge.mpr (by decide)
      unique := by
        intro q e hq
        have hall : ∀ e ∈ [(0, 1), (1, 1), (1, 2), (2, 1)], ¬ endlessLoop.contains e.1 = true →
            e.1 = 0 := by decide
        exact hall _ (endless_edge.mp e) hq }
  only := by decide
  plain := by decide

end Ece566.Llvm
