import Ece566.Dce
import Ece566.Exec
import Ece566.Stutter

/- A run of a function without the dead instructions. At any time during the elimination an
   instruction left uses none that has gone, so the two runs read the same operands; and
   what has gone is a phi, a computation, an alloca or a load that is not volatile, which
   nobody can observe. What a dead alloca or load does to the memory makes no difference
   to any other instruction, but for one thing: where allocas take the next free address,
   those left are elsewhere. So the values of the two runs are the same up to the names of
   the addresses handed out (`Forgets`). -/
namespace Ece566.Dce

open Llvm Dominance Relation

variable {V Mem W : Type} [Preorder W]

/-- The instructions that leave no trace although they see the memory. -/
def traceless (op : Op) : Bool :=
  op.opcode == .alloca || (op.opcode == .load && !op.volatile)

/-- Memories that are the same to all instructions but for what allocas and loads that are not
volatile have done. `stands w x y`: after what `w` records of the addresses handed out, `y` is
to the one run what `x` is to the other. At the start every value is itself, and at any time the
names are one to one. A run may go from `w` to a later `w'`, with more addresses. -/
structure Forgets (S : Sem V Mem) (W : Type) [Preorder W] where
  stands : W → V → V → Prop
  same : W → Mem → Mem → Prop
  start : ∀ m, ∃ w, same w m m ∧ ∀ x y, stands w x y → x = y
  injective : ∀ {w x y x' y'}, stands w x y → stands w x' y' → (x = x' ↔ y = y')
  mono : ∀ {w w' x y}, w ≤ w' → stands w x y → stands w' x y
  leaf : ∀ w v, stands w (S.leaf v) (S.leaf v)
  undef : ∀ w, stands w S.undef S.undef
  compute : ∀ {w op args args'}, List.Forall₂ (stands w) args args' →
    stands w (S.compute op args) (S.compute op args')
  effect : ∀ {w op args args' m m'}, List.Forall₂ (stands w) args args' → same w m m' →
    ∃ w', w ≤ w' ∧ stands w' (S.effect op args m).1 (S.effect op args' m').1 ∧
      same w' (S.effect op args m).2 (S.effect op args' m').2
  branch : ∀ {w op args args' m m'}, List.Forall₂ (stands w) args args' → same w m m' →
    S.branch op args' m' = S.branch op args m
  drop : ∀ {w op args m m'}, traceless op = true → same w m m' → same w (S.effect op args m).2 m'

/-- What is seen of an event: stores, calls, volatile loads, returns and all else but allocas and
other loads, with their operands. -/
def observed (e : Event V Mem) : Option (Op × List V) :=
  if traceless e.op then none else some (e.op, e.args)

variable {S : Sem V Mem} {H : Forgets S W} {w w' : W} {F : Func} {p : Nat → Bool} {b y : Label}
variable {i : Instr} {v : Value} {m : Mem} {n k : Nat} {regs regs' : Nat → Option V}
variable {c d c' d' : Config V Mem}

/-- The same instruction with the same operands, by other names. -/
def Forgets.Shows (H : Forgets S W) (w : W) (e e' : Op × List V) : Prop :=
  e.1 = e'.1 ∧ List.Forall₂ (H.stands w) e.2 e'.2

/-- Those with `p` stay: what goes may go, and what stays uses what stays. -/
structure Prunes (F : Func) (p : Nat → Bool) : Prop where
  goes : ∀ {b i}, i ∈ F.insts b → p i.id = false → mayGo i = true
  stays : ∀ {b i id ty}, i ∈ F.insts b → p i.id = true → .inst id ty ∈ i.operands → p id = true

/-- `d`, of the run without, shows what `c` shows. -/
structure Pruned (H : Forgets S W) (w : W) (p : Nat → Bool) (c d : Config V Mem) : Prop where
  label : d.label = c.label
  next : d.next = c.next
  rest : d.rest = c.rest.filter fun i => p i.id
  path : d.st.path = c.st.path
  mem : H.same w c.st.mem d.st.mem
  log : List.Forall₂ (H.Shows w) (c.st.log.filterMap observed) (d.st.log.filterMap observed)
  regs : ∀ {n}, p n = true → Option.Rel (H.stands w) (c.st.regs n) (d.st.regs n)

/-! Values by other names. -/

theorem Forgets.mono_args {xs ys : List V} (H : Forgets S W) (hw : w ≤ w')
    (h : List.Forall₂ (H.stands w) xs ys) : List.Forall₂ (H.stands w') xs ys :=
  h.imp fun _ _ => H.mono hw

theorem Forgets.mono_log {l l' : List (Op × List V)} (H : Forgets S W) (hw : w ≤ w')
    (h : List.Forall₂ (H.Shows w) l l') : List.Forall₂ (H.Shows w') l l' :=
  h.imp fun _ _ ⟨hop, hargs⟩ => ⟨hop, H.mono_args hw hargs⟩

theorem Forgets.mono_reg {x y : Option V} (H : Forgets S W) (hw : w ≤ w')
    (h : Option.Rel (H.stands w) x y) : Option.Rel (H.stands w') x y := by
  cases h with
  | some h => exact .some (H.mono hw h)
  | none => exact .none

theorem Forgets.value (H : Forgets S W)
    (h : ∀ id ty, v = .inst id ty → Option.Rel (H.stands w) (regs id) (regs' id)) :
    H.stands w (S.value regs v) (S.value regs' v) := by
  cases v with
  | inst id ty =>
    have hreg := h id ty rfl
    simp only [Sem.value]
    generalize regs id = x at hreg ⊢
    generalize regs' id = y at hreg ⊢
    cases hreg with
    | some h => exact h
    | none => exact H.undef w
  | _ => exact H.leaf w _

theorem Forgets.args (H : Forgets S W)
    (h : ∀ id ty, .inst id ty ∈ i.operands → Option.Rel (H.stands w) (regs id) (regs' id)) :
    List.Forall₂ (H.stands w) (i.args S regs) (i.args S regs') := by
  rw [Instr.args, Instr.args, List.forall₂_map_left_iff, List.forall₂_map_right_iff, List.forall₂_same]
  exact fun o ho => H.value fun id ty e => h id ty (e ▸ ho)

theorem Forgets.phiValue (H : Forgets S W) {q : Label}
    (h : ∀ id ty, .inst id ty ∈ i.operands → Option.Rel (H.stands w) (regs id) (regs' id)) :
    H.stands w (phiValue S regs q i) (phiValue S regs' q i) := by
  unfold Llvm.phiValue
  split
  · rename_i o ho
    exact H.value fun id ty e => h id ty (e ▸ (List.of_mem_zip (List.mem_of_find?_eq_some ho)).1)
  · exact H.undef w

theorem Forgets.assign (H : Forgets S W) {id : Nat} {x x' : V} (hx : H.stands w x x')
    (h : Option.Rel (H.stands w) (regs n) (regs' n)) :
    Option.Rel (H.stands w) (assign regs id x n) (assign regs' id x' n) := by
  unfold Llvm.assign
  split
  · exact .some hx
  · exact h

/-! Instructions that go. -/

theorem mayGo_cases (h : mayGo i = true) :
    i.isTerminator = false ∧ (i.isPhi = true ∨ i.op.opcode.isPure = true ∨ traceless i.op = true) := by
  unfold mayGo Instr.getOpcode at h
  unfold Instr.isPhi Instr.isTerminator traceless
  cases hop : i.op.opcode <;> rw [hop] at h <;> simp_all [Opcode.isTerminator, Opcode.isPure]

/-- A run of the function alone, past an instruction that goes. -/
theorem Pruned.skip (h : Pruned H w p c d) {rest : List Instr} (hr : c.rest = i :: rest)
    (hp : p i.id = false) (hgo : mayGo i = true) :
    Pruned H w p ⟨c.label, rest, if i.isTerminator then chosen S i c.st else c.next,
      execInst S i c.st⟩ d := by
  obtain ⟨hterm, hkind⟩ := mayGo_cases hgo
  have hregs : ∀ {n}, p n = true → Option.Rel (H.stands w) ((execInst S i c.st).regs n) (d.st.regs n) := by
    intro n hn
    have hne : n ≠ i.id := by
      intro e
      rw [e, hp] at hn
      cases hn
    rw [execInst_regs i c.st hne]
    exact h.regs hn
  have hrest : d.rest = rest.filter fun i => p i.id := by
    rw [h.rest, hr, List.filter_cons_of_neg (by simp [hp])]
  have hnext : d.next = if i.isTerminator then chosen S i c.st else c.next := by
    rw [hterm]
    exact h.next
  suffices hquiet : (execInst S i c.st).path = c.st.path ∧
      H.same w (execInst S i c.st).mem d.st.mem ∧
      (execInst S i c.st).log.filterMap observed = c.st.log.filterMap observed by
    obtain ⟨hpath, hmem, hlog⟩ := hquiet
    exact ⟨h.label, hnext, hrest, h.path.trans hpath.symm, hmem, hlog ▸ h.log, hregs⟩
  unfold execInst
  split
  · exact ⟨rfl, h.mem, rfl⟩
  · rename_i hphi
    split
    · exact ⟨rfl, h.mem, rfl⟩
    · rename_i hpure
      have htl : traceless i.op = true := (hkind.resolve_left hphi).resolve_left hpure
      exact ⟨rfl, H.drop htl h.mem, by simp [List.filterMap_append, observed, htl]⟩

/-! Instructions that stay. -/

theorem Pruned.args (h : Pruned H w p c d) (hp : Prunes F p) (hi : i ∈ F.insts b) (hstay : p i.id = true) :
    List.Forall₂ (H.stands w) (i.args S c.st.regs) (i.args S d.st.regs) :=
  H.args fun _ _ ho => h.regs (hp.stays hi hstay ho)

/-- The state after an instruction that stays. -/
theorem Pruned.exec (h : Pruned H w p c d)
    (hargs : List.Forall₂ (H.stands w) (i.args S c.st.regs) (i.args S d.st.regs)) :
    ∃ w', w ≤ w' ∧ H.same w' (execInst S i c.st).mem (execInst S i d.st).mem ∧
      List.Forall₂ (H.Shows w') ((execInst S i c.st).log.filterMap observed)
        ((execInst S i d.st).log.filterMap observed) ∧
      ∀ {n}, p n = true →
        Option.Rel (H.stands w') ((execInst S i c.st).regs n) ((execInst S i d.st).regs n) := by
  cases hphi : i.isPhi with
  | true =>
    simp only [execInst, hphi, if_true]
    exact ⟨w, le_rfl, h.mem, h.log, h.regs⟩
  | false =>
    cases hpure : i.op.opcode.isPure with
    | true =>
      simp only [execInst, hphi, hpure, Bool.false_eq_true, if_false, if_true]
      exact ⟨w, le_rfl, h.mem, h.log, fun hn => H.assign (H.compute hargs) (h.regs hn)⟩
    | false =>
      rw [execInst_effect hphi hpure, execInst_effect hphi hpure]
      -- an alloca has a new address in either run
      obtain ⟨w', hw, hvalue, hmem⟩ : ∃ w', w ≤ w' ∧
          H.stands w' (S.effect i.op (i.args S c.st.regs) c.st.mem).1
            (S.effect i.op (i.args S d.st.regs) d.st.mem).1 ∧
          H.same w' (S.effect i.op (i.args S c.st.regs) c.st.mem).2
            (S.effect i.op (i.args S d.st.regs) d.st.mem).2 := H.effect hargs h.mem
      refine ⟨w', hw, hmem, ?_, fun hn => H.assign hvalue (H.mono_reg hw (h.regs hn))⟩
      rw [List.filterMap_append, List.filterMap_append]
      refine List.rel_append (H.mono_log hw h.log) ?_
      cases htl : traceless i.op with
      | true => simp [observed, htl]
      | false => simpa [observed, htl] using ⟨rfl, H.mono_args hw hargs⟩

theorem Pruned.inst (h : Pruned H w p c d) (hp : Prunes F p) {rest : List Instr}
    (hr : c.rest = i :: rest) (hi : i ∈ F.insts b) (hstay : p i.id = true) :
    ∃ d' w', step S (sieve F p) d = some d' ∧ Pruned H w' p ⟨c.label, rest,
      if i.isTerminator then chosen S i c.st else c.next, execInst S i c.st⟩ d' := by
  have hdr : d.rest = i :: rest.filter fun i => p i.id := by
    rw [h.rest, hr, List.filter_cons_of_pos (by exact hstay)]
  have hargs := h.args hp hi hstay
  have hnext : (if i.isTerminator then chosen S i d.st else d.next) =
      if i.isTerminator then chosen S i c.st else c.next := by
    rw [chosen, chosen, H.branch hargs h.mem, h.next]
  obtain ⟨w', -, hmem, hlog, hregs⟩ := h.exec hargs
  refine ⟨_, w', step_inst hdr, h.label, hnext, rfl, ?_, hmem, hlog, hregs⟩
  rw [execInst_path, execInst_path, h.path]

theorem find?_filter_phi (hp : p n = true) (l : List Instr) :
    (l.filter fun i => p i.id).find? (fun i => i.isPhi && i.id == n) =
      l.find? fun i => i.isPhi && i.id == n := by
  rw [List.find?_filter]
  refine List.find?_congr fun i _ => ?_
  by_cases e : i.id = n
  · simp [e, hp]
  · simp [e]

theorem Pruned.enter (h : Pruned H w p c d) (hp : Prunes F p) (hr : c.rest = []) (hn : c.next = some y) :
    ∃ d', step S (sieve F p) d = some d' ∧ Pruned H w p ⟨y, F.insts y, none,
      { c.st with regs := Llvm.enter S c.label (F.insts y) c.st.regs, path := c.st.path ++ [y] }⟩ d' := by
  have hdr : d.rest = [] := by rw [h.rest, hr]; rfl
  refine ⟨_, step_enter hdr (h.next.trans hn), rfl, rfl, rfl, by rw [h.path], h.mem, h.log, fun {n} hpn => ?_⟩
  show Option.Rel (H.stands w) (Llvm.enter S c.label (F.insts y) c.st.regs n)
    (Llvm.enter S d.label ((F.insts y).filter fun i => p i.id) d.st.regs n)
  unfold Llvm.enter
  rw [find?_filter_phi hpn, h.label]
  split
  · rename_i i hfind
    have hid := List.find?_some hfind
    simp only [Bool.and_eq_true, beq_iff_eq] at hid
    refine .some (H.phiValue fun id ty ho => h.regs ?_)
    exact hp.stays (List.mem_of_find?_eq_some hfind) (hid.2 ▸ hpn) ho
  · exact h.regs hpn

/-! Whole runs. -/

/-- The function without what goes, beside the function. -/
theorem prune_stutter (H : Forgets S W) (hp : Prunes F p) :
    Stutter (step S F) (step S (sieve F p)) (fun c d => (∃ pre, F.insts c.label = pre ++ c.rest) ∧
      ∃ w, Pruned H w p c d) (fun c => ∃ i rest, c.rest = i :: rest ∧ p i.id = false)
      fun c => c.rest.length where
  lags {c d} h hl := by
    obtain ⟨⟨pre, hpre⟩, w, h⟩ := h
    obtain ⟨i, rest, hr, hpi⟩ := hl
    have hi : i ∈ F.insts c.label := by rw [hpre, hr]; simp
    refine ⟨_, step_inst hr, ⟨⟨pre ++ [i], ?_⟩, w, h.skip hr hpi (hp.goes hi hpi)⟩, ?_⟩
    · rw [hpre, hr, List.append_assoc]
      rfl
    · rw [hr]
      exact Nat.lt_succ_self _
  goes {c d c'} h hl hs := by
    obtain ⟨⟨pre, hpre⟩, w, h⟩ := h
    rcases step_cases hs with ⟨i, rest, hr, rfl⟩ | ⟨y, hr, hn, rfl⟩
    · have hi : i ∈ F.insts c.label := by rw [hpre, hr]; simp
      have hstay : p i.id = true := by
        by_contra hno
        exact hl ⟨i, rest, hr, Bool.not_eq_true _ ▸ hno⟩
      obtain ⟨d', w', hd', h'⟩ := h.inst hp hr hi hstay
      refine ⟨d', hd', ⟨pre ++ [i], ?_⟩, w', h'⟩
      rw [hpre, hr, List.append_assoc]
      rfl
    · obtain ⟨d', hd', h'⟩ := h.enter hp hr hn
      exact ⟨d', hd', ⟨[], rfl⟩, w, h'⟩
  stops {c d} h hl hs := by
    obtain ⟨-, w, h⟩ := h
    cases hr : c.rest with
    | cons i rest =>
      rw [step_inst hr] at hs
      cases hs
    | nil =>
      have hdr : d.rest = [] := by rw [h.rest, hr]; rfl
      cases hn : c.next with
      | some y =>
        rw [step_enter hr hn] at hs
        cases hs
      | none => rw [step, hdr, h.next, hn]

/-- Between the turns of the elimination. -/
theorem prunes_of_inv {M : Llvm.Module} {hM : ∀ F ∈ M, Linked F} {t : Worklist.State Address} {k : Nat}
    (hinv : Worklist.Inv (graph M hM) t) (hF : M[k]? = some F) :
    Prunes F fun id => decide ((k, id) ∈ t.live) := by
  have hlinked := hM F (List.mem_of_getElem? hF)
  have hall : ∀ {b i}, i ∈ F.insts b → i ∈ F.all := fun hi =>
    List.mem_flatMap.mpr ⟨_, hlinked.listed (List.ne_nil_of_mem hi), hi⟩
  refine ⟨?_, ?_⟩
  · intro b i hi hp
    rw [decide_eq_false_iff_not] at hp
    have hgone := hinv.erased (mem_addresses.mpr ⟨F, hF, i, hall hi, rfl⟩) hp
    cases hgone with
    | intro _ hrem _ =>
      obtain ⟨j, hj, hgo⟩ := hrem
      rw [hlinked.find? hF (hall hi), Option.some.injEq] at hj
      exact hj ▸ hgo
  · intro b i id ty hi hp ho
    rw [decide_eq_true_eq] at hp ⊢
    exact hinv.kept hp ((mem_operands (hlinked.find? hF (hall hi))).mpr ⟨rfl, ty, ho⟩)

/-- **Dead-code elimination changes nothing one can observe.** At any time during the elimination,
whatever has been taken off the worklist, the runs of a function and of what it has become
meet the same states: the same path, the same events with their operands, the same values
in the registers left; an instruction the one is about to run the other is about to run with
the same operands (so it traps nowhere new), and where one has ended so has the other.
The same is up to the names of the addresses handed out. -/
theorem RunDeadCodeElimination_preserves (M : Llvm.Module) (hM : ∀ F ∈ M, Linked F) (s : Elimination)
    (h : Reaches M s) (hF : M[k]? = some F) (H : Forgets S W) (m : Mem) :
    ∃ F', s.module[k]? = some F' ∧ ∃ p : Nat → Bool, F' = sieve F p ∧
      (∀ c, Reachable S F m c → ∃ d w, Reachable S F' m d ∧ Pruned H w p c d) ∧
      ∀ d, Reachable S F' m d → ∃ c w, Reachable S F m c ∧ Pruned H w p c d ∧
        (d.rest = [] → c.rest = []) ∧ ∀ i rest, d.rest = i :: rest →
          (∃ rest', c.rest = i :: rest') ∧
          List.Forall₂ (H.stands w) (i.args S c.st.regs) (i.args S d.st.regs) := by
  obtain ⟨t, hs, hinv⟩ := reaches_represents hM h
  have hp := prunes_of_inv hinv hF
  have hstutter := prune_stutter H hp
  obtain ⟨w₀, hw₀, -⟩ := H.start m
  have hinit : Pruned H w₀ (fun id => decide ((k, id) ∈ t.live)) (Config.init F m : Config V Mem)
      (Config.init (sieve F fun id => decide ((k, id) ∈ t.live)) m) :=
    ⟨rfl, rfl, rfl, rfl, hw₀, .nil, fun _ => .none⟩
  refine ⟨_, hs.module ▸ keep_get hF, _, rfl, fun c hc => ?_, fun d hd => ?_⟩
  · obtain ⟨d, hd, -, w, h⟩ := hstutter.forward ⟨⟨[], rfl⟩, w₀, hinit⟩ hc
    exact ⟨d, w, hd, h⟩
  · obtain ⟨c, hc, ⟨⟨pre, hpre⟩, w, h⟩, hl⟩ := hstutter.backward ⟨⟨[], rfl⟩, w₀, hinit⟩ hd
    refine ⟨c, w, hc, h, ?_⟩
    cases hr : c.rest with
    | nil =>
      have hdr : d.rest = [] := by rw [h.rest, hr]; rfl
      exact ⟨fun _ => rfl, fun i rest e => absurd (hdr.symm.trans e) (by simp)⟩
    | cons j rest =>
      -- the run has been brought to an instruction that stays
      have hstay : decide ((k, j.id) ∈ t.live) = true := by
        by_contra hno
        exact hl ⟨j, rest, hr, Bool.not_eq_true _ ▸ hno⟩
      have hdr : d.rest = j :: rest.filter fun i => decide ((k, i.id) ∈ t.live) := by
        rw [h.rest, hr, List.filter_cons_of_pos (by exact hstay)]
      refine ⟨fun hnil => absurd (hdr.symm.trans hnil) (by simp), fun i rest' e => ?_⟩
      obtain ⟨rfl, -⟩ := List.cons.inj (hdr.symm.trans e)
      have hj : j ∈ F.insts c.label := by rw [hpre, hr]; simp
      exact ⟨⟨rest, rfl⟩, h.args hp hj hstay⟩

/-! A memory where an alloca takes the next free cell, and a function with two locals of which the
first is dead: in the run without it the other is one cell further down. -/

/-- A number, the address of a global, or the address of a cell of the stack. -/
inductive Word
  | num (n : Nat)
  | global (n : Nat)
  | cell (n : Nat)
  deriving DecidableEq

structure Stack where
  next : Nat
  holds : Word → Nat

def Stack.put (m : Stack) (a : Word) (n : Nat) : Stack :=
  { m with holds := fun q => if q = a then n else m.holds q }

/-- A computation sees the numbers among its operands. -/
def stack : Sem Word Stack where
  leaf
    | .const c _ => .num c
    | .global g _ => .global g
    | .arg n _ => .num n
    | .inst _ _ => .num 0
  undef := .num 0
  compute _ args := .num (args.map fun | .num n => n | _ => 0).sum
  effect op args m :=
    match op.opcode, args with
    | .alloca, _ => (.cell m.next, { m.put (.cell m.next) 0 with next := m.next + 1 })
    | .load, [a] => (.num (m.holds a), m)
    | .store, [.num n, a] => (.num 0, m.put a n)
    | _, _ => (.num 0, m)
  branch _ args _ := match args with | .num n :: _ => n | _ => 0

/-- Cells of the run without that stand for cells of the run. -/
structure Renaming where
  rel : Nat → Nat → Prop
  injective : ∀ {a b a' b'}, rel a b → rel a' b' → (a = a' ↔ b = b')

instance : Preorder Renaming where
  le r r' := ∀ a b, r.rel a b → r'.rel a b
  le_refl _ _ _ h := h
  le_trans _ _ _ h h' a b hr := h' a b (h a b hr)

inductive Renaming.Stands (r : Renaming) : Word → Word → Prop
  | num (n : Nat) : r.Stands (.num n) (.num n)
  | global (n : Nat) : r.Stands (.global n) (.global n)
  | cell {a b : Nat} : r.rel a b → r.Stands (.cell a) (.cell b)

namespace Renaming

variable {r r' : Renaming} {x y x' y' : Word} {st st' : Stack} {op : Op} {args args' : List Word}

theorem Stands.mono (hr : r ≤ r') (h : r.Stands x y) : r'.Stands x y := by
  cases h with
  | num n => exact .num n
  | global n => exact .global n
  | cell h => exact .cell (hr _ _ h)

theorem Stands.injective (h : r.Stands x y) (h' : r.Stands x' y') : x = x' ↔ y = y' := by
  cases h with
  | num => cases h' <;> simp
  | global => cases h' <;> simp
  | cell h =>
    cases h' with
    | cell h' => simpa using r.injective h h'
    | _ => simp

/-- The cells that stand for each other are in use, and hold the same. -/
structure Alike (r : Renaming) (st st' : Stack) : Prop where
  used : ∀ {a b}, r.rel a b → a < st.next ∧ b < st'.next
  holds : ∀ {x y}, r.Stands x y → st.holds x = st'.holds y

theorem Alike.put (h : r.Alike st st') (hx : r.Stands x y) (n : Nat) :
    r.Alike (st.put x n) (st'.put y n) where
  used := h.used
  holds {x' y'} hx' := by
    simp only [Stack.put, hx'.injective hx, h.holds hx']

/-- With the next free cells besides. -/
def fresh (r : Renaming) (st st' : Stack) (h : r.Alike st st') : Renaming where
  rel a b := r.rel a b ∨ (a = st.next ∧ b = st'.next)
  injective {a b a' b'} h₁ h₂ := by
    rcases h₁ with h₁ | ⟨rfl, rfl⟩ <;> rcases h₂ with h₂ | ⟨rfl, rfl⟩
    · exact r.injective h₁ h₂
    · have := h.used h₁
      omega
    · have := h.used h₂
      omega
    · simp

theorem Stands.of_fresh {h : r.Alike st st'} (hx : (r.fresh st st' h).Stands x y) :
    r.Stands x y ∨ (x = .cell st.next ∧ y = .cell st'.next) := by
  cases hx with
  | num n => exact .inl (.num n)
  | global n => exact .inl (.global n)
  | cell hab =>
    rcases hab with hab | ⟨rfl, rfl⟩
    · exact .inl (.cell hab)
    · exact .inr ⟨rfl, rfl⟩

theorem Alike.alloca (h : r.Alike st st') : (r.fresh st st' h).Alike
    { st.put (.cell st.next) 0 with next := st.next + 1 }
    { st'.put (.cell st'.next) 0 with next := st'.next + 1 } where
  used {a b} hab := by
    rcases hab with hab | ⟨rfl, rfl⟩
    · have := h.used hab
      simp only
      omega
    · simp
  holds {x y} hx := by
    rcases hx.of_fresh with hx | ⟨rfl, rfl⟩
    · have hne : x ≠ .cell st.next ∧ y ≠ .cell st'.next := by
        cases hx with
        | cell hab =>
          have := h.used hab
          simp only [ne_eq, Word.cell.injEq]
          omega
        | _ => simp
      simp [Stack.put, hne, h.holds hx]
    · simp [Stack.put]

/-- An alloca that has gone. -/
theorem Alike.skip (h : r.Alike st st') :
    r.Alike { st.put (.cell st.next) 0 with next := st.next + 1 } st' where
  used hab := ⟨(h.used hab).1.trans (Nat.lt_succ_self _), (h.used hab).2⟩
  holds {x y} hx := by
    have hne : x ≠ .cell st.next := by
      intro e
      subst e
      cases hx with
      | cell hab => exact absurd (h.used hab).1 (lt_irrefl _)
    simp [Stack.put, hne, h.holds hx]

theorem Alike.effect (hargs : List.Forall₂ r.Stands args args') (h : r.Alike st st') :
    ∃ r', r ≤ r' ∧ r'.Stands (stack.effect op args st).1 (stack.effect op args' st').1 ∧
      r'.Alike (stack.effect op args st).2 (stack.effect op args' st').2 := by
  by_cases ha : op.opcode = .alloca
  · refine ⟨r.fresh st st' h, fun _ _ => .inl, ?_, ?_⟩
    · simp only [stack, ha]
      exact .cell (.inr ⟨rfl, rfl⟩)
    · simpa only [stack, ha] using h.alloca
  refine ⟨r, le_rfl, ?_⟩
  have hrest : (r.Stands (.num 0) (.num 0) ∧ r.Alike st st') := ⟨.num 0, h⟩
  by_cases hl : op.opcode = .load
  · rcases hargs with _ | ⟨hx, _ | ⟨-, -⟩⟩
    · simpa only [stack, hl] using hrest
    · simp only [stack, hl, h.holds hx]
      exact ⟨.num _, h⟩
    · simpa only [stack, hl] using hrest
  by_cases hs : op.opcode = .store
  · rcases hargs with _ | ⟨hv, _ | ⟨hx, _ | ⟨-, -⟩⟩⟩
    · simpa only [stack, hs] using hrest
    · cases hv <;> simpa only [stack, hs] using hrest
    · cases hv with
      | num n =>
        simp only [stack, hs]
        exact ⟨.num 0, h.put hx n⟩
      | _ => simpa only [stack, hs] using hrest
    · cases hv <;> simpa only [stack, hs] using hrest
  · have hall : ∀ args st, stack.effect op args st = (.num 0, st) := by
      intro args st
      simp only [stack]
      split <;> first | rfl | contradiction
    rw [hall, hall]
    exact hrest

theorem start (m : Stack) : ∃ r : Renaming, r.Alike m m ∧ ∀ x y, r.Stands x y → x = y := by
  let r : Renaming := ⟨fun a b => a = b ∧ a < m.next, by omega⟩
  have hself : ∀ x y, r.Stands x y → x = y := by
    intro x y h
    cases h with
    | cell h => rw [h.1]
    | _ => rfl
  refine ⟨r, ⟨fun {a b} h => ⟨h.2, h.1 ▸ h.2⟩, fun {x y} h => by rw [hself x y h]⟩, hself⟩

end Renaming

def stackForgets : Forgets stack Renaming where
  stands := Renaming.Stands
  same := Renaming.Alike
  start := Renaming.start
  injective := Renaming.Stands.injective
  mono := Renaming.Stands.mono
  leaf r v := by
    cases v with
    | global g => exact .global g
    | _ => exact .num _
  undef r := .num 0
  compute {r op args args'} h := by
    have hmap : args.map (fun | .num n => n | _ => 0) = args'.map fun | Word.num n => n | _ => 0 := by
      induction h with
      | nil => rfl
      | cons hx _ ih =>
        rw [List.map_cons, List.map_cons, ih]
        cases hx <;> rfl
    simp only [stack, hmap]
    exact .num _
  effect := Renaming.Alike.effect
  branch {r op args args' m m'} h _ := by
    cases h with
    | nil => rfl
    | cons hx _ => cases hx <;> rfl
  drop {r op args m m'} h hm := by
    simp only [traceless, Bool.or_eq_true, Bool.and_eq_true, beq_iff_eq] at h
    rcases h with h | ⟨h, -⟩
    · simpa only [stack, h] using hm.skip
    · have hload : (stack.effect op args m).2 = m := by
        simp only [stack, h]
        split <;> first | rfl | contradiction
      rwa [hload]

def locals : Func := oneBlock
  [⟨0, ⟨.alloca, 1, [], false, 0⟩, [], []⟩,
    ⟨1, ⟨.alloca, 1, [], false, 0⟩, [], []⟩,
    ⟨2, ⟨.store, 0, [0, 1], false, 0⟩, [.const 7 0, .inst 1 1], []⟩,
    ⟨3, ⟨.load, 0, [1], false, 0⟩, [.inst 1 1], []⟩,
    ⟨4, ⟨.ret, 0, [0], false, 0⟩, [.inst 3 0], []⟩]

theorem locals_linked : Linked locals where
  nodup := by decide
  listed {b} hb := by
    obtain ⟨i, hi⟩ := List.exists_mem_of_ne_nil _ hb
    exact List.mem_singleton.mpr (oneBlock_insts hi).1
  refs {i id ty} hi ho := by
    have hall : ∀ i ∈ locals.all, ∀ o ∈ i.operands, o ∈ [.const 7 0, .inst 1 1, .inst 3 0] := by decide
    have hid : ∀ id ∈ [1, 3], ∃ d ∈ locals.all, d.id = id := by decide
    have ho := hall i hi _ ho
    simp only [List.mem_cons, List.not_mem_nil, or_false, reduceCtorEq, false_or, Value.inst.injEq] at ho
    rcases ho with ⟨rfl, -⟩ | ⟨rfl, -⟩
    · exact hid 1 (by decide)
    · exact hid 3 (by decide)

/-- The dead local goes. -/
theorem RunDeadCodeElimination_preserves_locals : ∃ s, turn (0, 0) (start [locals]) = some s ∧
    s.worklist = ∅ ∧ ∃ F', s.module[0]? = some F' ∧ ∃ p : Nat → Bool, F' = sieve locals p ∧
      (∀ c, Reachable stack locals ⟨0, fun _ => 0⟩ c → ∃ d w, Reachable stack F' ⟨0, fun _ => 0⟩ d ∧
        Pruned stackForgets w p c d) ∧
      ∀ d, Reachable stack F' ⟨0, fun _ => 0⟩ d → ∃ c w, Reachable stack locals ⟨0, fun _ => 0⟩ c ∧
        Pruned stackForgets w p c d ∧ (d.rest = [] → c.rest = []) ∧ ∀ i rest, d.rest = i :: rest →
          (∃ rest', c.rest = i :: rest') ∧
          List.Forall₂ (stackForgets.stands w) (i.args stack c.st.regs) (i.args stack d.st.regs) := by
  obtain ⟨s, hs⟩ := Option.isSome_iff_exists.mp
    (by decide : (turn (0, 0) (start [locals])).isSome = true)
  have hnil : s.worklist = ∅ := by
    have : ((turn (0, 0) (start [locals])).any fun s => s.worklist = ∅) = true := by decide
    rwa [hs, Option.any_some, decide_eq_true_eq] at this
  exact ⟨s, hs, hnil, RunDeadCodeElimination_preserves [locals]
    (fun _ hF => List.mem_singleton.mp hF ▸ locals_linked) s (.single ⟨(0, 0), by decide, hs⟩) rfl
    stackForgets _⟩

end Ece566.Dce
