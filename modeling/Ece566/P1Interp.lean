import Ece566.BitField
import Ece566.P1Grammar

/- What a P1 program means, said directly: variables hold words, a slice names a
   field (a start and a width), a selection reads a field of a value, and an
   assignment overwrites the field its left-hand side denotes. An evaluation has no
   result where the program has no meaning: an undefined name, a division that traps,
   a bit or a field outside its word, a list wider than a word. -/
namespace Ece566.P1

structure Env where
  vars : String → Option Word
  slices : String → Option (Word × Word)

def Env.init : Env := ⟨fun _ => none, fun _ => none⟩

def Env.setVar (env : Env) (x : String) (v : Word) : Env := { env with vars := setKey env.vars x v }

def Env.setSlice (env : Env) (f : String) (start width : Word) : Env :=
  { env with slices := setKey env.slices f (start, width) }

/-- The exclusive or of all bits. -/
def parity (v : Word) : Bool := (List.range 32).foldl (fun acc i => acc ^^ v.getLsbD i) false

def ofBool (b : Bool) : Word := if b then 1 else 0

/-- A field of at least one bit that lies inside `outer` bits. -/
def inside (start width outer : Nat) : Prop := 1 ≤ width ∧ start + width ≤ outer

instance (start width outer : Nat) : Decidable (inside start width outer) :=
  inferInstanceAs (Decidable (_ ∧ _))

mutual
def Expr.eval (env : Env) : Expr → Option Word
  | .bitslice b => (b.eval env).map (·.1)
  | .plus a b => do return (← a.eval env) + (← b.eval env)
  | .minus a b => do return (← a.eval env) - (← b.eval env)
  | .xor a b => do return (← a.eval env) ^^^ (← b.eval env)
  | .and a b => do return (← a.eval env) &&& (← b.eval env)
  | .or a b => do return (← a.eval env) ||| (← b.eval env)
  | .inv a => do return ~~~ (← a.eval env)
  | .binv a => do return (← a.eval env) ^^^ 1
  | .mul a b => do return (← a.eval env) * (← b.eval env)
  | .div a b => do
    let x ← a.eval env
    let y ← b.eval env
    if divTraps x y then none else return x.sdiv y
  | .mod a b => do
    let x ← a.eval env
    let y ← b.eval env
    if divTraps x y then none else return x.srem y
  | .reduceAnd a => do return ofBool ((← a.eval env) = BitVec.allOnes 32)
  | .reduceOr a => do return ofBool ((← a.eval env) ≠ 0)
  | .reduceXor a => do return ofBool (parity (← a.eval env))
  | .reducePlus a => do return (← a.eval env).cpop
  | .expand a => do return if (← a.eval env).getLsbD 0 then BitVec.allOnes 32 else 0

/-- The value of a selection, and how many bits it takes as an element of a list. -/
def Bitslice.eval (env : Env) : Bitslice → Option (Word × Nat)
  | .id x => do return (← env.vars x, 1)
  | .number n => some (BitVec.ofNat 32 n, 1)
  | .list l => l.eval env
  | .paren e => do return (← e.eval env, 1)
  | .bit b n => do
    let (v, _) ← b.eval env
    if n < 32 then some (BitField.get v n 1, 1) else none
  | .dot b f => do
    let (v, _) ← b.eval env
    let (start, width) ← env.slices f
    if inside start.toNat width.toNat 32 then
      some (BitField.get v start.toNat width.toNat, width.toNat)
    else none
  | .bracket b e => do
    let (v, _) ← b.eval env
    let i ← e.eval env
    if i.toNat < 32 then some (BitField.get v i.toNat 1, 1) else none
  | .range b hi lo => do
    let (v, _) ← b.eval env
    let h ← hi.eval env
    let l ← lo.eval env
    let width := h.toNat - l.toNat + 1
    if l.toNat ≤ h.toNat ∧ h.toNat < 32 then some (BitField.get v l.toNat width, width) else none

/-- The elements side by side, the last one lowest, and their total width. -/
def BitsliceList.eval (env : Env) : BitsliceList → Option (Word × Nat)
  | .one b => do
    let (v, n) ← b.eval env
    some (BitField.get v 0 n, n)
  | .snoc l b => do
    let (acc, m) ← l.eval env
    let (v, n) ← b.eval env
    if m + n ≤ 32 then some (BitField.cat acc n v, m + n) else none
end

/-- The field of its variable that a left-hand side denotes. -/
def BitsliceLhs.field (env : Env) : BitsliceLhs → Option (Nat × Nat)
  | .id _ => some (0, 32)
  | .bit l k => do
    let (s, n) ← l.field env
    if inside k 1 n then some (s + k, 1) else none
  | .dot l f => do
    let (s, n) ← l.field env
    let (start, width) ← env.slices f
    if inside start.toNat width.toNat n then some (s + start.toNat, width.toNat) else none
  | .bracket l e => do
    let (s, n) ← l.field env
    let i ← e.eval env
    if inside i.toNat 1 n then some (s + i.toNat, 1) else none
  | .range l hi lo => do
    let (s, n) ← l.field env
    let h ← hi.eval env
    let l ← lo.eval env
    if l.toNat ≤ h.toNat ∧ h.toNat < n then some (s + l.toNat, h.toNat - l.toNat + 1) else none

/-- A variable followed by one or more named slices. -/
def BitsliceLhs.named : BitsliceLhs → Bool
  | .dot (.id _) _ => true
  | .dot l _ => l.named
  | _ => false

/-- The variables an assignment starts from: a variable that only named slices select
from counts as 0 when it has no value, any other selected variable must have one. -/
def BitsliceLhs.enter (l : BitsliceLhs) (env : Env) : Option Env :=
  match l, env.vars l.var with
  | .id _, _ => some env
  | _, some _ => some env
  | l, none => if l.named then some (env.setVar l.var 0) else none

/-- The fields a slice statement declares; the bare ones are numbered at its end. -/
def execFields (env : Env) : List Field → Option Env
  | [] => some env
  | .bit f e :: rest => do execFields (env.setSlice f (← e.eval env) 1) rest
  | .wide f n e :: rest => do execFields (env.setSlice f (← e.eval env) (← n.eval env)) rest
  | .bare _ :: rest => execFields env rest

def bareNames : List Field → List String
  | [] => []
  | .bare f :: rest => f :: bareNames rest
  | _ :: rest => bareNames rest

/-- Bare fields are single bits, the last one bit 0. -/
def numberBare (env : Env) : List String → Env
  | [] => env
  | f :: fs => numberBare (env.setSlice f (BitVec.ofNat 32 fs.length) 1) fs

def Statement.exec (env : Env) : Statement → Option Env
  | .assign l e => do
    let env ← l.enter env
    let (start, width) ← l.field env
    let v ← e.eval env
    return env.setVar l.var (BitField.put ((env.vars l.var).getD 0) start width v)
  | .slice fields => do
    let env ← execFields env fields
    return numberBare env (bareNames fields)

def execStatements (env : Env) : List Statement → Option Env
  | [] => some env
  | s :: ss => do execStatements (← s.exec env) ss

/-- Each parameter holds its argument. -/
def bindParams (env : Env) : List String → List Word → Option Env
  | [], [] => some env
  | p :: ps, a :: as => bindParams (env.setVar p a) ps as
  | _, _ => none

def Program.eval (p : Program) (args : List Word) : Option Word := do
  let env ← bindParams .init p.params args
  let env ← execStatements env p.statements
  p.final.eval env

/-! The part of the language the compiler is proved correct for. -/

/-- What may stand in a list: an identifier, a number, one bit, or a named slice. -/
def Bitslice.element : Bitslice → Bool
  | .id _ | .number _ | .bit _ _ | .dot _ _ | .bracket _ _ => true
  | .list _ | .paren _ | .range _ _ _ => false

mutual
/-- No `b[hi:lo]`, and lists of elements only. -/
def Expr.plain : Expr → Bool
  | .bitslice b => b.plain
  | .plus a b | .minus a b | .xor a b | .and a b | .or a b | .mul a b | .div a b | .mod a b =>
    a.plain && b.plain
  | .inv a | .binv a | .reduceAnd a | .reduceOr a | .reduceXor a | .reducePlus a | .expand a =>
    a.plain

def Bitslice.plain : Bitslice → Bool
  | .id _ | .number _ => true
  | .list l => l.plain
  | .paren e => e.plain
  | .bit b _ | .dot b _ => b.plain
  | .bracket b e => b.plain && e.plain
  | .range _ _ _ => false

def BitsliceList.plain : BitsliceList → Bool
  | .one b => b.element && b.plain
  | .snoc l b => l.plain && b.element && b.plain
end

/-- `x`, `x[i]` or `x.f1...fk`. -/
def BitsliceLhs.plain : BitsliceLhs → Bool
  | .id _ => true
  | .bracket (.id _) e => e.plain
  | l => l.named

def Field.plain : Field → Bool
  | .bit _ e => e.plain
  | .wide _ n e => n.plain && e.plain
  | .bare _ => false

def Statement.plain : Statement → Bool
  | .assign l e => l.plain && e.plain
  | .slice fields => fields.all Field.plain

def Field.name : Field → String
  | .bit f _ | .wide f _ _ | .bare f => f

/-- The slice names a program declares, in order. -/
def declared : List Statement → List String
  | [] => []
  | .slice fields :: ss => fields.map Field.name ++ declared ss
  | .assign _ _ :: ss => declared ss

def Program.plain (p : Program) : Bool :=
  p.statements.all Statement.plain && decide (declared p.statements).Nodup && p.final.plain

end Ece566.P1
