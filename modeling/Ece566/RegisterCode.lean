import Mathlib

/- The code generator of tutorial 1 (`expr.y`). The actions of the grammar print the
   instructions of `Rd = expr ;` in one pass: each takes the next register of a counter
   for its result, and a register named by the program is its own result. What has been
   printed is run as it stands, so the machine at any time of the parse is
   `Gen.machine`. A result lies below the counter, and what is printed later writes
   at the counter or above (`Compiled`): it is still there when its parent reads it. -/
namespace Ece566.RegisterCode

/-- A derivation of `expr`, one constructor for each production; `REG` is one of R0 to R7. -/
inductive Expr where
  | immediate (n : Int)
  | reg (r : Fin 8)
  | plus (a b : Expr)
  | minus (a b : Expr)
  | paren (a : Expr)
  | neg (a : Expr)
  | load (a : Expr)

inductive Inst where
  | andImm (d s : Nat) (imm : Int)
  | addImm (d s : Nat) (imm : Int)
  | add (d a b : Nat)
  | sub (d a b : Nat)
  | not (d s : Nat)
  | ldr (d s : Nat) (offset : Int)
  deriving DecidableEq, Repr

inductive Line where
  | comment (text : String)
  | inst (i : Inst)
  deriving DecidableEq, Repr

/-! The actions. -/

/-- The global `regCnt`, and what was printed. -/
structure Gen where
  regCnt : Nat
  output : List Line

def Gen.init : Gen := ⟨8, []⟩

/-- `regCnt++`. -/
def nextReg : StateM Gen Nat := modifyGet fun g => (g.regCnt, { g with regCnt := g.regCnt + 1 })

def printf (l : Line) : StateM Gen Unit := modify fun g => { g with output := g.output ++ [l] }

def Expr.act : Expr → StateM Gen Nat
  | .immediate n => do
    let r ← nextReg
    printf (.comment "# Output of expr: IMMEDIATE")
    printf (.inst (.andImm r r 0))
    printf (.inst (.addImm r r n))
    return r
  | .reg r => return r
  | .plus a b => do
    let x ← a.act
    let y ← b.act
    let r ← nextReg
    printf (.comment "# Output of expr: expr PLUS expr")
    printf (.inst (.add r x y))
    return r
  | .minus a b => do
    let x ← a.act
    let y ← b.act
    let r ← nextReg
    printf (.comment "# Output of expr: expr MINUS expr")
    printf (.inst (.sub r x y))
    return r
  | .paren a => a.act
  | .neg a => do
    let x ← a.act
    let r ← nextReg
    printf (.comment "# Output of expr: MINUS expr")
    printf (.inst (.not r x))
    printf (.inst (.addImm r r 1))
    return r
  | .load a => do
    let x ← a.act
    let r ← nextReg
    printf (.comment "# Output of expr: [ expr ]")
    printf (.inst (.ldr r x 0))
    return r

/-- `program: REG ASSIGN expr SEMI`. -/
def program (d : Fin 8) (e : Expr) : StateM Gen Unit := do
  let x ← e.act
  printf (.comment "# Output of program: REG ASSIGN expr SEMI")
  printf (.inst (.addImm d x 0))
  printf (.comment "# End of program")

/-- What is printed for `Rd = e ;`. -/
def printed (d : Fin 8) (e : Expr) : List Line := ((program d e).run Gen.init).2.output

/-! The machine. -/

structure Machine (w : Nat) where
  regs : Nat → BitVec w
  mem : BitVec w → BitVec w

variable {w : Nat}

def Machine.set (m : Machine w) (d : Nat) (x : BitVec w) : Machine w :=
  { m with regs := fun k => if k = d then x else m.regs k }

@[simp] theorem Machine.set_mem (m : Machine w) (d : Nat) (x : BitVec w) : (m.set d x).mem = m.mem := rfl

@[simp] theorem Machine.set_regs (m : Machine w) (d k : Nat) (x : BitVec w) :
    (m.set d x).regs k = if k = d then x else m.regs k := rfl

def Inst.exec (m : Machine w) : Inst → Machine w
  | .andImm d s imm => m.set d (m.regs s &&& BitVec.ofInt w imm)
  | .addImm d s imm => m.set d (m.regs s + BitVec.ofInt w imm)
  | .add d a b => m.set d (m.regs a + m.regs b)
  | .sub d a b => m.set d (m.regs a - m.regs b)
  | .not d s => m.set d (~~~ m.regs s)
  | .ldr d s offset => m.set d (m.mem (m.regs s + BitVec.ofInt w offset))

def Line.exec (m : Machine w) : Line → Machine w
  | .comment _ => m
  | .inst i => i.exec m

def run (ls : List Line) (m : Machine w) : Machine w := ls.foldl Line.exec m

/-- The value of an expression, words being taken modulo `2 ^ w`. -/
def Expr.eval (m : Machine w) : Expr → BitVec w
  | .immediate n => BitVec.ofInt w n
  | .reg r => m.regs r
  | .plus a b => a.eval m + b.eval m
  | .minus a b => a.eval m - b.eval m
  | .paren a => a.eval m
  | .neg a => - a.eval m
  | .load a => m.mem (a.eval m)

/-- What has been printed so far, run from `m`. -/
def Gen.machine (m : Machine w) (g : Gen) : Machine w := run g.output m

/-- `i` is among what is printed, and when its turn comes the registers hold these values. -/
def Reads (out : List Line) (m : Machine w) (i : Inst) (held : List (Nat × BitVec w)) : Prop :=
  ∃ pre post, out = pre ++ .inst i :: post ∧ ∀ p ∈ held, (run pre m).regs p.1 = p.2

/-- The instructions in `out` of the actions of an expression, begun at `g`, read the values of its
subexpressions. -/
def Expr.Held (out : List Line) (m : Machine w) : Expr → Gen → Prop
  | .immediate _, _ | .reg _, _ => True
  | .plus a b, g =>
    let p := a.act.run g
    let q := b.act.run p.2
    a.Held out m g ∧ b.Held out m p.2 ∧
      Reads out m (.add q.2.regCnt p.1 q.1) [(p.1, a.eval m), (q.1, b.eval m)]
  | .minus a b, g =>
    let p := a.act.run g
    let q := b.act.run p.2
    a.Held out m g ∧ b.Held out m p.2 ∧
      Reads out m (.sub q.2.regCnt p.1 q.1) [(p.1, a.eval m), (q.1, b.eval m)]
  | .paren a, g => a.Held out m g
  | .neg a, g =>
    let p := a.act.run g
    a.Held out m g ∧ Reads out m (.not p.2.regCnt p.1) [(p.1, a.eval m)]
  | .load a, g =>
    let p := a.act.run g
    a.Held out m g ∧ Reads out m (.ldr p.2.regCnt p.1 0) [(p.1, a.eval m)]

/-! What the actions leave. -/

/-- Nothing below R8 has been written, nor memory. -/
structure Clean (m : Machine w) (g : Gen) : Prop where
  counter : 8 ≤ g.regCnt
  regs : ∀ k < 8, (g.machine m).regs k = m.regs k
  mem : (g.machine m).mem = m.mem

/-- From `g` to `g'` more has been printed, and nothing below the counter written. -/
structure Later (m : Machine w) (g g' : Gen) : Prop where
  grows : g.output <+: g'.output
  counter : g.regCnt ≤ g'.regCnt
  below : ∀ k < g.regCnt, (g'.machine m).regs k = (g.machine m).regs k
  mem : (g'.machine m).mem = (g.machine m).mem

/-- From `g` to `g'` the code for a value `v` has been printed; `r` holds the result. -/
structure Compiled (m : Machine w) (v : BitVec w) (g : Gen) (r : Nat) (g' : Gen) : Prop
    extends Later m g g' where
  result : r < g'.regCnt
  value : (g'.machine m).regs r = v

variable {m : Machine w} {u v : BitVec w} {g g' g'' : Gen} {x y r : Nat} {out : List Line} {i : Inst}

theorem Clean.init (m : Machine w) : Clean m Gen.init := ⟨Nat.le_refl 8, fun _ _ => rfl, rfl⟩

theorem Clean.later (h : Clean m g) (h' : Later m g g') : Clean m g' where
  counter := h.counter.trans h'.counter
  regs k hk := (h'.below k (hk.trans_le h.counter)).trans (h.regs k hk)
  mem := h'.mem.trans h.mem

namespace Later

theorem refl (m : Machine w) (g : Gen) : Later m g g :=
  ⟨List.prefix_refl _, Nat.le_refl _, fun _ _ => rfl, rfl⟩

theorem trans (h : Later m g g') (h' : Later m g' g'') : Later m g g'' where
  grows := h.grows.trans h'.grows
  counter := h.counter.trans h'.counter
  below k hk := (h'.below k (hk.trans_le h.counter)).trans (h.below k hk)
  mem := h'.mem.trans h.mem

/-- The next register is taken, and `v` written to it. -/
theorem write (h : Later m g g') (hout : g'.output <+: g''.output) (hcnt : g''.regCnt = g'.regCnt + 1)
    (hm : g''.machine m = (g'.machine m).set g'.regCnt v) : Compiled m v g g'.regCnt g'' where
  grows := h.grows.trans hout
  counter := hcnt ▸ Nat.le_succ_of_le h.counter
  below k hk := by
    rw [hm, Machine.set_regs, if_neg (Nat.ne_of_lt (hk.trans_le h.counter)), h.below k hk]
  mem := by rw [hm, Machine.set_mem, h.mem]
  result := hcnt ▸ Nat.lt_succ_self _
  value := by rw [hm, Machine.set_regs, if_pos rfl]

end Later

/-- A result is still there after more code. -/
theorem Compiled.kept (h : Compiled m v g r g') (h' : Later m g' g'') : (g''.machine m).regs r = v :=
  (h'.below r h.result).trans h.value

@[simp] theorem Machine.set_set {d : Nat} : (m.set d u).set d v = m.set d v := by
  unfold Machine.set
  congr 1
  funext k
  by_cases hk : k = d
  · rw [if_pos hk, if_pos hk]
  · rw [if_neg hk, if_neg hk]
    exact if_neg hk

/-- The state after an action that takes a register and prints a comment and `is`. -/
def Gen.emit (g : Gen) (text : String) (is : List Inst) : Gen :=
  (.comment text :: is.map .inst).foldl (fun g l => { g with output := g.output ++ [l] })
    { g with regCnt := g.regCnt + 1 }

theorem emit_eq {text : String} {is : List Inst} :
    g.emit text is = ⟨g.regCnt + 1, g.output ++ Line.comment text :: is.map .inst⟩ := by
  have h : ∀ (ls : List Line) (g : Gen), ls.foldl (fun g l => { g with output := g.output ++ [l] }) g =
      ⟨g.regCnt, g.output ++ ls⟩ := by
    intro ls
    induction ls with
    | nil => intro g; rw [List.append_nil]; rfl
    | cons l ls ih => intro g; rw [List.foldl_cons, ih, List.append_assoc]; rfl
  exact h _ _

theorem emit_machine {text : String} {is : List Inst} :
    (g.emit text is).machine m = is.foldl Inst.exec (g.machine m) := by
  rw [emit_eq, Gen.machine, run, List.foldl_append, List.foldl_cons, List.foldl_map]
  rfl

theorem emit_output {text : String} {is : List Inst} : g.output <+: (g.emit text is).output := by
  rw [emit_eq]
  exact List.prefix_append _ _

/-- The instructions write the register taken. -/
theorem Later.emit (h : Later m g g') {text : String} {is : List Inst}
    (hm : is.foldl Inst.exec (g'.machine m) = (g'.machine m).set g'.regCnt v) :
    Compiled m v g g'.regCnt (g'.emit text is) :=
  h.write emit_output (by rw [emit_eq]) (emit_machine.trans hm)

/-! The actions, run. -/

namespace Expr

variable (a b : Expr) (g : Gen)

theorem run_immediate (n : Int) : (immediate n).act.run g = (g.regCnt,
    g.emit "# Output of expr: IMMEDIATE" [.andImm g.regCnt g.regCnt 0, .addImm g.regCnt g.regCnt n]) :=
  rfl

theorem run_plus : (plus a b).act.run g =
    let p := a.act.run g
    let q := b.act.run p.2
    (q.2.regCnt, q.2.emit "# Output of expr: expr PLUS expr" [.add q.2.regCnt p.1 q.1]) := rfl

theorem run_minus : (minus a b).act.run g =
    let p := a.act.run g
    let q := b.act.run p.2
    (q.2.regCnt, q.2.emit "# Output of expr: expr MINUS expr" [.sub q.2.regCnt p.1 q.1]) := rfl

theorem run_neg : (neg a).act.run g =
    let p := a.act.run g
    (p.2.regCnt, p.2.emit "# Output of expr: MINUS expr"
      [.not p.2.regCnt p.1, .addImm p.2.regCnt p.2.regCnt 1]) := rfl

theorem run_load : (load a).act.run g =
    let p := a.act.run g
    (p.2.regCnt, p.2.emit "# Output of expr: [ expr ]" [.ldr p.2.regCnt p.1 0]) := rfl

end Expr

/-- **The code of an expression** leaves the value the expression has in the state before the
program. -/
theorem Expr.act_compiled (e : Expr) : ∀ {g : Gen}, Clean m g →
    Compiled m (e.eval m) g (e.act.run g).1 (e.act.run g).2 := by
  induction e with
  | immediate n =>
    intro g _
    rw [run_immediate]
    refine (Later.refl m g).emit ?_
    simp [Inst.exec, Expr.eval]
  | reg r =>
    intro g h
    exact ⟨.refl m g, r.isLt.trans_le h.counter, h.regs r r.isLt⟩
  | plus a b iha ihb =>
    intro g h
    have ha := iha h
    have hb := ihb (h.later ha.toLater)
    rw [run_plus]
    -- the result of `a` lies below the counter where `b` begins
    refine (ha.trans hb.toLater).emit ?_
    simp only [List.foldl_cons, List.foldl_nil, Inst.exec, ha.kept hb.toLater, hb.value, Expr.eval]
  | minus a b iha ihb =>
    intro g h
    have ha := iha h
    have hb := ihb (h.later ha.toLater)
    rw [run_minus]
    refine (ha.trans hb.toLater).emit ?_
    simp only [List.foldl_cons, List.foldl_nil, Inst.exec, ha.kept hb.toLater, hb.value, Expr.eval]
  | paren a ih => exact ih
  | neg a ih =>
    intro g h
    have ha := ih h
    rw [run_neg]
    refine ha.toLater.emit ?_
    simp [Inst.exec, ha.value, Expr.eval, BitVec.neg_eq_not_add]
  | load a ih =>
    intro g h
    have ha := ih h
    rw [run_load]
    refine ha.toLater.emit ?_
    simp [Inst.exec, ha.value, ha.mem, h.mem, Expr.eval]

theorem Reads.emitted {text : String} {is : List Inst} {held : List (Nat × BitVec w)}
    (hout : (g.emit text (i :: is)).output <+: out)
    (hheld : ∀ p ∈ held, (g.machine m).regs p.1 = p.2) : Reads out m i held := by
  obtain ⟨post, rfl⟩ := hout
  refine ⟨g.output ++ [.comment text], is.map .inst ++ post, ?_, fun p hp => ?_⟩
  · rw [emit_eq]
    simp
  · rw [run, List.foldl_append]
    exact hheld p hp

/-- **Each subexpression's result is still there** when its parent's instruction reads it. -/
theorem Expr.held (e : Expr) : ∀ {g : Gen}, Clean m g → (e.act.run g).2.output <+: out →
    e.Held out m g := by
  induction e with
  | immediate n => exact fun _ _ => trivial
  | reg r => exact fun _ _ => trivial
  | plus a b iha ihb =>
    intro g h hout
    have ha := a.act_compiled h
    have hb := b.act_compiled (h.later ha.toLater)
    rw [run_plus] at hout
    have hq := emit_output.trans hout
    refine ⟨iha h (hb.grows.trans hq), ihb (h.later ha.toLater) hq, .emitted hout ?_⟩
    simp [ha.kept hb.toLater, hb.value]
  | minus a b iha ihb =>
    intro g h hout
    have ha := a.act_compiled h
    have hb := b.act_compiled (h.later ha.toLater)
    rw [run_minus] at hout
    have hq := emit_output.trans hout
    refine ⟨iha h (hb.grows.trans hq), ihb (h.later ha.toLater) hq, .emitted hout ?_⟩
    simp [ha.kept hb.toLater, hb.value]
  | paren a ih => exact ih
  | neg a ih =>
    intro g h hout
    rw [run_neg] at hout
    refine ⟨ih h (emit_output.trans hout), .emitted hout ?_⟩
    simp [(a.act_compiled h).value]
  | load a ih =>
    intro g h hout
    rw [run_load] at hout
    refine ⟨ih h (emit_output.trans hout), .emitted hout ?_⟩
    simp [(a.act_compiled h).value]

/-- The code of the expression, and the instruction that moves its result to `Rd`. -/
theorem printed_eq (d : Fin 8) (e : Expr) : printed d e = (e.act.run Gen.init).2.output ++
    [Line.comment "# Output of program: REG ASSIGN expr SEMI"] ++
    [Line.inst (.addImm d (e.act.run Gen.init).1 0)] ++ [Line.comment "# End of program"] := rfl

/-- **The one-pass code generator is correct**: what is printed for `Rd = e ;` leaves the value of
`e` in `Rd` and the other registers below R8 as they were, and each instruction reads the
values of the subexpressions it is for. -/
theorem program_correct (d : Fin 8) (e : Expr) (m : Machine w) :
    (run (printed d e) m).regs d = e.eval m ∧
      (∀ k : Fin 8, k ≠ d → (run (printed d e) m).regs k = m.regs k) ∧
      e.Held (printed d e) m Gen.init ∧
      Reads (printed d e) m (.addImm d (e.act.run Gen.init).1 0)
        [((e.act.run Gen.init).1, e.eval m)] := by
  have h := e.act_compiled (Clean.init m)
  have hclean := (Clean.init m).later h.toLater
  have hrun : run (printed d e) m = ((e.act.run Gen.init).2.machine m).set d (e.eval m) := by
    rw [printed_eq, ← h.value]
    simp [run, Gen.machine, Line.exec, Inst.exec]
  refine ⟨?_, fun k hk => ?_, e.held (Clean.init m) ?_, ?_⟩
  · rw [hrun, Machine.set_regs, if_pos rfl]
  -- registers below R8 are written by the last instruction only
  · rw [hrun, Machine.set_regs, if_neg (fun e => hk (Fin.ext e)), hclean.regs k k.isLt]
  · rw [printed_eq]
    simp only [List.append_assoc]
    exact List.prefix_append _ _
  · refine ⟨_, _, (printed_eq d e).trans (List.append_assoc _ _ _), ?_⟩
    simp only [List.mem_singleton, forall_eq]
    rw [run, List.foldl_append]
    exact h.value

/-- `R1 = -[R2 + 1] - (R1 + R1) ;`. -/
example : (run (printed 1 (.minus (.neg (.load (.plus (.reg 2) (.immediate 1))))
    (.paren (.plus (.reg 1) (.reg 1))))) (w := 16)
      ⟨fun k => BitVec.ofNat 16 k, fun a => a + a⟩).regs 1 = -8 := by decide

end Ece566.RegisterCode
