import Ece566.P1Ir

/- The grammar of P1 (`p1.y`) and its semantic actions. A derivation of the
   grammar is a tree with one constructor per production; a bottom-up parse runs the
   action of a production after those of its parts, from left to right, so the
   actions of a tree are one recursive function on it. The globals of `p1.y` are the
   state `Parser`, and an action that aborts the parse (`YYERROR`) fails.

   `handleBitsliceID`, the action of `bitslice: ID`, is called by `p1.y` but
   defined nowhere in the repository: it is a parameter. -/
namespace Ece566.P1

/-! Derivations. -/

mutual
inductive Expr where
  | bitslice (b : Bitslice)
  | plus (a b : Expr)
  | minus (a b : Expr)
  | xor (a b : Expr)
  | and (a b : Expr)
  | or (a b : Expr)
  | inv (a : Expr)
  | binv (a : Expr)
  | mul (a b : Expr)
  | div (a b : Expr)
  | mod (a b : Expr)
  | reduceAnd (a : Expr)
  | reduceOr (a : Expr)
  | reduceXor (a : Expr)
  | reducePlus (a : Expr)
  | expand (a : Expr)

inductive Bitslice where
  | id (x : String)
  | number (n : Nat)
  | list (l : BitsliceList)
  | paren (e : Expr)
  | bit (b : Bitslice) (n : Nat)
  | dot (b : Bitslice) (f : String)
  | bracket (b : Bitslice) (e : Expr)
  | range (b : Bitslice) (hi lo : Expr)

/-- `bitslice_list_helper`: the inside of `{...}`. -/
inductive BitsliceList where
  | one (b : Bitslice)
  | snoc (l : BitsliceList) (b : Bitslice)
end

inductive BitsliceLhs where
  | id (x : String)
  | bit (l : BitsliceLhs) (n : Nat)
  | dot (l : BitsliceLhs) (f : String)
  | bracket (l : BitsliceLhs) (e : Expr)
  | range (l : BitsliceLhs) (hi lo : Expr)

inductive Field where
  | bit (f : String) (e : Expr)
  | wide (f : String) (n e : Expr)
  | bare (f : String)

inductive Statement where
  | assign (l : BitsliceLhs) (e : Expr)
  | slice (fields : List Field)

/-- `in` parameters (none for `in none`), statements, `final`. -/
structure Program where
  params : List String
  statements : List Statement
  final : Expr

/-- The variable a left-hand side is about (`$$ = $1` all the way down). -/
def BitsliceLhs.var : BitsliceLhs → String
  | .id x => x
  | .bit l _ | .dot l _ | .bracket l _ | .range l _ _ => l.var

/-! The globals, and the IR builder. -/

structure Slice where
  start : Value
  range : Value
  deriving DecidableEq, Repr

structure ValueSlice where
  value : Value
  slice : Slice
  deriving DecidableEq, Repr

/-- The globals of `p1.y`, the block under construction and what was printed. -/
structure Parser where
  valueSliceDict : String → Option ValueSlice
  slicesDict : String → Option Slice
  bitsliceFieldIds : List String
  bitsliceIsID : Bool
  bitsliceRange : Value
  block : List Inst
  output : List String

abbrev Parse := StateT Parser Option

def getInt32 (n : Nat) : Value := .const (BitVec.ofNat 32 n)

def Parser.init : Parser where
  valueSliceDict := fun _ => none
  slicesDict := fun _ => none
  bitsliceFieldIds := []
  bitsliceIsID := false
  bitsliceRange := getInt32 1
  block := []
  output := []

def setKey {α : Type} (dict : String → Option α) (key : String) (v : α) : String → Option α :=
  fun k => if k = key then some v else dict k

/-- `valueSliceDict[x] = vs`. -/
def Parser.setValue (st : Parser) (x : String) (vs : ValueSlice) : Parser :=
  { st with valueSliceDict := setKey st.valueSliceDict x vs }

/-- `slicesDict[f] = slice`. -/
def Parser.setSlice (st : Parser) (f : String) (slice : Slice) : Parser :=
  { st with slicesDict := setKey st.slicesDict f slice }

/-- `Builder` inserts at the end of the block. -/
def insert (i : Inst) : Parse Value := fun st =>
  some (.inst st.block.length, { st with block := st.block ++ [i] })

def create (op : BinOp) (a b : Value) : Parse Value := insert (.bin op a b)

def createNot (a : Value) : Parse Value := create .xor a (.const (BitVec.allOnes 32))

def yyerror (msg : String) : Parse Unit :=
  modify fun st => { st with output := st.output ++ [msg] }

def defaultSlice : Slice := ⟨getInt32 0, getInt32 32⟩

/-- `map::insert`: a key already there keeps its value. -/
def addSlice (key : String) (slice : Slice) : Parse Unit :=
  modify fun st => match st.slicesDict key with
    | some _ => st
    | none => st.setSlice key slice

def setValueSlice (name : String) (vs : ValueSlice) : Parse Unit :=
  modify fun st => st.setValue name vs

def addNewValue (name : String) (value : Value) : Parse Unit :=
  setValueSlice name ⟨value, defaultSlice⟩

def setBitslice (isID : Bool) (range : Value) : Parse Unit :=
  modify fun st => { st with bitsliceIsID := isID, bitsliceRange := range }

def setBitsliceIsID (isID : Bool) : Parse Unit :=
  modify fun st => { st with bitsliceIsID := isID }

/-! Bit manipulation. -/

def getBit (value position : Value) : Parse Value := do
  create .and (← create .lshr value position) (getInt32 1)

def getLowestBit (value : Value) : Parse Value := create .and value (getInt32 1)

/-- `bitsliceIsID ? getLowestBit(value) : value`. -/
def cutElement (value : Value) : Parse Value := do
  if (← get).bitsliceIsID then getLowestBit value else pure value

def doLeftshiftbynAdd (value shift add : Value) : Parse Value := do
  create .add (← create .shl value shift) add

def createMask (start range : Value) : Parse Value := do
  let stepOne := Value.const (BitVec.allOnes 32)
  let stepTwo ← create .lshr stepOne (← create .sub (getInt32 32) range)
  create .shl stepTwo start

def getMaskedValue (value : Value) (slice : Slice) : Parse Value := do
  let mask ← createMask slice.start slice.range
  let valueAndMask ← create .and mask value
  create .lshr valueAndMask slice.start

/-- The 32 steps of `reduce ^`: bit `i` of the value is xored in, lowest first. -/
def xorBits (value : Value) : List Nat → Value → Parse Value
  | [], acc => pure acc
  | i :: is, acc => do
    let bit ← getBit value (getInt32 i)
    xorBits value is (← create .xor acc bit)

/-! The actions. -/

section
variable (handleBitsliceID : String → Parse Value)

mutual
def Expr.act : Expr → Parse Value
  | .bitslice b => b.act
  | .plus a b => do create .add (← a.act) (← b.act)
  | .minus a b => do create .sub (← a.act) (← b.act)
  | .xor a b => do create .xor (← a.act) (← b.act)
  | .and a b => do create .and (← a.act) (← b.act)
  | .or a b => do create .or (← a.act) (← b.act)
  | .inv a => do createNot (← a.act)
  | .binv a => do create .xor (← a.act) (getInt32 1)
  | .mul a b => do create .mul (← a.act) (← b.act)
  | .div a b => do create .sdiv (← a.act) (← b.act)
  | .mod a b => do create .srem (← a.act) (← b.act)
  | .reduceAnd a => do create .udiv (← a.act) (getInt32 0xFFFFFFFF)
  | .reduceOr a => do
    let boolean ← create .icmpUgt (← a.act) (getInt32 0)
    insert (.zext boolean)
  | .reduceXor a => do xorBits (← a.act) (List.range 32) (getInt32 0)
  | .reducePlus a => do insert (.ctpop (← a.act))
  | .expand a => do
    let lowestBit ← getLowestBit (← a.act)
    create .mul lowestBit (getInt32 0xFFFFFFFF)

def Bitslice.act : Bitslice → Parse Value
  | .id x => handleBitsliceID x
  | .number n => do
    setBitslice true (getInt32 1)
    return getInt32 n
  | .list l => l.act
  | .paren e => do
    let v ← e.act
    setBitslice false (getInt32 1)
    return v
  | .bit b n => do
    let v ← b.act
    setBitslice false (getInt32 1)
    getBit v (getInt32 n)
  | .dot b f => do
    let v ← b.act
    setBitsliceIsID false
    match (← get).slicesDict f with
    | some slice => do
      setBitslice false slice.range
      getMaskedValue v slice
    | none => do
      yyerror s!"Key {f} not found in slicesDict"
      yyerror "Slice not found in slicesDict"
      return v
  | .bracket b e => do
    let v ← b.act
    let i ← e.act
    setBitslice false (getInt32 1)
    getBit v i
  | .range b hi lo => do
    let v ← b.act
    let h ← hi.act
    let l ← lo.act
    setBitsliceIsID false
    let range ← create .add (← create .sub h l) (getInt32 1)
    setBitslice false (getInt32 1)
    getMaskedValue v ⟨h, range⟩

def BitsliceList.act : BitsliceList → Parse Value
  | .one b => do
    let v ← b.act
    let v' ← cutElement v
    setBitsliceIsID false
    return v'
  | .snoc l b => do
    let acc ← l.act
    let v ← b.act
    let bslice ← cutElement v
    setBitsliceIsID false
    let r ← doLeftshiftbynAdd acc (← get).bitsliceRange bslice
    setBitslice false (getInt32 1)
    return r
end

/-- `bitslice_lhs DOT ID`: the pending slice is sliced further, and a variable that has
no entry gets one holding 0. -/
def sliceFurther (x : String) (slice : Slice) : Parse Unit := do
  match (← get).valueSliceDict x with
  | some valueSlice => do
    let start ← create .add valueSlice.slice.start slice.start
    setValueSlice x { valueSlice with slice := ⟨start, slice.range⟩ }
  | none => setValueSlice x ⟨getInt32 0, slice⟩

/-- `bitslice_lhs LBRACKET ... RBRACKET`: the pending slice is replaced. -/
def replaceSlice (x : String) (slice : Slice) : Parse Unit := do
  match (← get).valueSliceDict x with
  | some valueSlice => setValueSlice x { valueSlice with slice := slice }
  | none => yyerror "Slice not found for bitslice_lhs"

/-- The pending slice of a left-hand side is kept in `valueSliceDict`, under the
name of its variable. -/
def BitsliceLhs.act : BitsliceLhs → Parse String
  | .id x => return x
  | .bit l _ => do
    let x ← l.act
    match (← get).valueSliceDict x with
    -- the slice is set in a local copy, which is not stored back
    | some _ => return x
    | none => do
      yyerror "Slice not found for bitslice_lhs"
      return x
  | .dot l f => do
    let x ← l.act
    match (← get).slicesDict f with
    | some slice => do
      sliceFurther x slice
      return x
    | none => failure
  | .bracket l e => do
    let x ← l.act
    let i ← e.act handleBitsliceID
    replaceSlice x ⟨i, getInt32 1⟩
    return x
  | .range l hi lo => do
    let x ← l.act
    let h ← hi.act handleBitsliceID
    let l ← lo.act handleBitsliceID
    let range ← create .add (← create .sub h l) (getInt32 1)
    replaceSlice x ⟨h, range⟩
    return x

/-- The action of `statement: bitslice_lhs ASSIGN expr ENDLINE`. -/
def actAssign (x : String) (e : Value) : Parse Unit := do
  match (← get).valueSliceDict x with
  | some ⟨value, slice⟩ => do
    let mask ← createMask slice.start slice.range
    let expr ← create .shl e slice.start
    let maskedExpr ← create .and mask expr
    let invertedMask ← createNot mask
    let safeValue ← create .and value invertedMask
    let computedValue ← create .or maskedExpr safeValue
    setValueSlice x ⟨computedValue, defaultSlice⟩
  | none => addNewValue x e

def Field.act : Field → Parse Unit
  | .bit f e => do
    let start ← e.act handleBitsliceID
    addSlice f ⟨start, getInt32 1⟩
  | .wide f n e => do
    let range ← n.act handleBitsliceID
    let start ← e.act handleBitsliceID
    addSlice f ⟨start, range⟩
  | .bare f => modify fun st => { st with bitsliceFieldIds := f :: st.bitsliceFieldIds }

/-- The loop of `statement: SLICE field_list ENDLINE` over the bare fields. -/
def numberFields : List String → Nat → Parse Unit
  | [], _ => pure ()
  | f :: fs, argNo => do
    modify fun st => st.setSlice f { defaultSlice with start := getInt32 argNo }
    numberFields fs (argNo + 1)

def actFields : List Field → Parse Unit
  | [] => pure ()
  | f :: fs => do
    f.act handleBitsliceID
    actFields fs

def Statement.act : Statement → Parse Unit
  | .assign l e => do
    let x ← l.act handleBitsliceID
    let v ← e.act handleBitsliceID
    actAssign x v
  | .slice fields => do
    actFields handleBitsliceID fields
    numberFields (← get).bitsliceFieldIds 0
    modify fun st => { st with bitsliceFieldIds := [] }

def actStatements : List Statement → Parse Unit
  | [] => pure ()
  | s :: ss => do
    s.act handleBitsliceID
    actStatements ss

/-- `inputs`: each parameter is a variable holding its argument. -/
def actInputs : List String → Nat → Parse Unit
  | [], _ => pure ()
  | p :: ps, argNo => do
    addNewValue p (.arg argNo)
    actInputs ps (argNo + 1)

/-- The whole parse: the value given to `ret`. -/
def Program.act (p : Program) : Parse Value := do
  actInputs p.params 0
  actStatements handleBitsliceID p.statements
  p.final.act handleBitsliceID

end

end Ece566.P1
