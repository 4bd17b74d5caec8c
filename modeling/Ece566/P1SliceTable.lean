import Ece566.P1Frame

/- What a program's slice statements leave in `slicesDict`. A field `f:e` or `f[n]:e`
   is inserted by its action, which keeps an entry already there; the bare fields of a
   statement are stored at its end, from the right, over what is there. So the entry of
   a name is its first declaration, unless some statement declares it bare: then it is
   the leftmost bare one of the last such statement (`inForce`). This is proved of the
   parse by running it with its declarations recorded (`declareStatements`), and
   compared with the last declaration of the name (`latest`). What is compared is not the
   values of the IR but the words they hold, whatever the arguments of the function are. -/
namespace Ece566.P1

/-- A field of a slice statement, its expressions evaluated. -/
inductive Decl where
  | colon (f : String) (slice : Slice)
  | bare (f : String)
  deriving DecidableEq, Repr

def Decl.name : Decl → String
  | .colon f _ | .bare f => f

/-! The parse, with the declarations it makes. -/

def Decl.record : Decl → Parse Unit
  | .colon f slice => addSlice f slice
  | .bare f => modify fun st => { st with bitsliceFieldIds := f :: st.bitsliceFieldIds }

section
variable (handleBitsliceID : String → Parse Value)

def Field.decl : Field → Parse Decl
  | .bit f e => do
    let start ← e.act handleBitsliceID
    return .colon f ⟨start, getInt32 1⟩
  | .wide f n e => do
    let range ← n.act handleBitsliceID
    let start ← e.act handleBitsliceID
    return .colon f ⟨start, range⟩
  | .bare f => return .bare f

def declareFields : List Field → Parse (List Decl)
  | [] => return []
  | f :: fs => do
    let d ← f.decl handleBitsliceID
    d.record
    let ds ← declareFields fs
    return d :: ds

/-- The end of a slice statement. -/
def storeBare : Parse Unit := do
  numberFields (← get).bitsliceFieldIds 0
  modify fun st => { st with bitsliceFieldIds := [] }

def Statement.declare : Statement → Parse (List Decl)
  | .assign l e => do
    (Statement.assign l e).act handleBitsliceID
    return []
  | .slice fields => do
    let ds ← declareFields handleBitsliceID fields
    storeBare
    return ds

def declareStatements : List Statement → Parse (List (List Decl))
  | [] => return []
  | s :: ss => do
    let ds ← s.declare handleBitsliceID
    let dss ← declareStatements ss
    return ds :: dss

variable {handleBitsliceID}

theorem Field.act_eq (f : Field) :
    f.act handleBitsliceID = f.decl handleBitsliceID >>= Decl.record := by
  cases f <;> simp only [Field.act, Field.decl, bind_assoc, pure_bind] <;> rfl

/-- Recording the declarations changes nothing of the parse. -/
theorem actFields_eq : ∀ (fields : List Field), actFields handleBitsliceID fields =
    (do let _ ← declareFields handleBitsliceID fields; pure ())
  | [] => by simp only [actFields, declareFields, pure_bind]
  | f :: fs => by
    simp only [actFields, declareFields, Field.act_eq, actFields_eq fs, bind_assoc, pure_bind]

theorem Statement.act_eq (s : Statement) : s.act handleBitsliceID =
    (do let _ ← s.declare handleBitsliceID; pure ()) := by
  cases s with
  | assign l e => simp only [Statement.declare, bind_assoc, pure_bind, bind_pure_unit]
  | slice fields =>
    simp only [Statement.act, Statement.declare, storeBare, actFields_eq, bind_assoc, pure_bind]
    rfl

theorem actStatements_eq : ∀ (ss : List Statement), actStatements handleBitsliceID ss =
    (do let _ ← declareStatements handleBitsliceID ss; pure ())
  | [] => by simp only [actStatements, declareStatements, pure_bind]
  | s :: ss => by
    simp only [actStatements, declareStatements, Statement.act_eq, actStatements_eq ss, bind_assoc,
      pure_bind]

/-- A sequence that throws its result away succeeds when the first part does. -/
theorem run_discard {α : Type} {x : Parse α} {st st' : Parser} :
    (do let _ ← x; pure ()).run st = some (⟨⟩, st') ↔ ∃ a, x.run st = some (a, st') := by
  rw [Wp.run_bind]
  refine ⟨?_, ?_⟩
  · intro h
    obtain ⟨a, s1, hx, hrun⟩ := h
    obtain ⟨-, rfl⟩ := Prod.mk.inj (Option.some.inj hrun)
    exact ⟨a, hx⟩
  · intro h
    obtain ⟨a, hx⟩ := h
    exact ⟨a, st', hx, rfl⟩

theorem Statement.act_run {s : Statement} {st st' : Parser} :
    (s.act handleBitsliceID).run st = some (⟨⟩, st') ↔
      ∃ ds, (s.declare handleBitsliceID).run st = some (ds, st') := by
  rw [Statement.act_eq, run_discard]

theorem actStatements_run {ss : List Statement} {st st' : Parser} :
    (actStatements handleBitsliceID ss).run st = some (⟨⟩, st') ↔
      ∃ dss, (declareStatements handleBitsliceID ss).run st = some (dss, st') := by
  rw [actStatements_eq, run_discard]

end

/-! The slices that declarations give. -/

/-- The slice of a bare field: its number, on top of the default slice. -/
def bareSlice (argNo : Nat) : Slice := { defaultSlice with start := getInt32 argNo }

/-- The bare fields of a statement. -/
def bares : List Decl → List String
  | [] => []
  | .colon _ _ :: ds => bares ds
  | .bare f :: ds => f :: bares ds

/-- The fields with a colon. -/
def colons : List Decl → List (String × Slice)
  | [] => []
  | .colon f slice :: ds => (f, slice) :: colons ds
  | .bare _ :: ds => colons ds

/-- The bare fields, each with its number: how many bare ones stand to its right. -/
def bareSlices : List Decl → List (String × Slice)
  | [] => []
  | .colon _ _ :: ds => bareSlices ds
  | .bare f :: ds => (f, bareSlice (bares ds).length) :: bareSlices ds

/-- All fields of a statement, in order. -/
def statementSlices : List Decl → List (String × Slice)
  | [] => []
  | .colon f slice :: ds => (f, slice) :: statementSlices ds
  | .bare f :: ds => (f, bareSlice (bares ds).length) :: statementSlices ds

/-- The slice of the last declaration of `f`. -/
def latest (dss : List (List Decl)) (f : String) : Option Slice :=
  (dss.flatMap statementSlices).reverse.lookup f

/-- The slice of the leftmost bare `f` in the last statement with a bare `f`; without one,
of the first declaration of `f`. -/
def inForce (dss : List (List Decl)) (f : String) : Option Slice :=
  (dss.reverse.findSome? fun ds => (bareSlices ds).lookup f).or ((dss.flatMap colons).lookup f)

/-- What `numberFields` stores. -/
def numbered : List String → Nat → List (String × Slice)
  | [], _ => []
  | f :: fs, argNo => (f, bareSlice argNo) :: numbered fs (argNo + 1)

theorem numbered_append : ∀ (fs gs : List String) (argNo : Nat),
    numbered (fs ++ gs) argNo = numbered fs argNo ++ numbered gs (argNo + fs.length)
  | [], gs, argNo => by simp [numbered]
  | f :: fs, gs, argNo => by
    simp only [List.cons_append, numbered, numbered_append fs gs, List.length_cons]
    rw [Nat.add_right_comm, Nat.add_assoc]

/-- The bare fields are collected in reverse and numbered from 0. -/
theorem bareSlices_eq : ∀ (ds : List Decl),
    bareSlices ds = (numbered (bares ds).reverse 0).reverse
  | [] => rfl
  | .colon _ _ :: ds => bareSlices_eq ds
  | .bare f :: ds => by
    simp only [bareSlices, bares, List.reverse_cons, numbered_append, numbered, List.reverse_append,
      bareSlices_eq ds, List.length_reverse, Nat.zero_add, List.reverse_nil, List.nil_append,
      List.singleton_append]

theorem lookup_none_iff {l : List (String × Slice)} {f : String} :
    l.lookup f = none ↔ ∀ slice, (f, slice) ∉ l := by
  rw [List.lookup_eq_none_iff]
  refine ⟨?_, ?_⟩
  · intro h slice hmem
    simpa using h (f, slice) hmem
  · intro h p hp
    obtain ⟨g, slice⟩ := p
    have hne : f ≠ g := fun e => h slice (e ▸ hp)
    simpa using hne

/-- A name is declared by a field with a colon or by a bare one. -/
theorem mem_names {f : String} : ∀ (ds : List Decl), f ∈ ds.map Decl.name ↔
    (∃ slice, (f, slice) ∈ colons ds) ∨ ∃ slice, (f, slice) ∈ bareSlices ds
  | [] => by simp [colons, bareSlices]
  | .colon g slice :: ds => by
    simp only [List.map_cons, List.mem_cons, mem_names ds, Decl.name, colons, bareSlices,
      Prod.mk.injEq, exists_or, exists_and_left, exists_eq, and_true, or_assoc]
  | .bare g :: ds => by
    simp only [List.map_cons, List.mem_cons, mem_names ds, Decl.name, colons, bareSlices,
      Prod.mk.injEq, exists_or, exists_and_left, exists_eq, and_true]
    exact or_left_comm

/-! The table. -/

theorem lookup_single (f g : String) (slice : Slice) :
    [(f, slice)].lookup g = if g = f then some slice else none := by
  by_cases hg : g = f
  · subst hg; simp
  · simp [List.lookup_cons, beq_eq_false_iff_ne.mpr hg, hg]

theorem addSlice_table (f : String) (slice : Slice) (st : Parser) :
    Wp (addSlice f slice) (fun _ st' => st'.bitsliceFieldIds = st.bitsliceFieldIds ∧
      ∀ g, st'.slicesDict g = (st.slicesDict g).or ([(f, slice)].lookup g)) st := by
  refine Wp.modify' ?_
  cases hf : st.slicesDict f with
  | some old =>
    refine ⟨rfl, fun g => ?_⟩
    rw [lookup_single]
    by_cases hg : g = f
    · subst hg; simp [hf]
    · simp [hg]
  | none =>
    refine ⟨rfl, fun g => ?_⟩
    rw [lookup_single]
    by_cases hg : g = f
    · subst hg; simp [hf, setSlice_same]
    · simp [hg, setSlice_ne]

theorem numberFields_table : ∀ (fs : List String) (argNo : Nat) (st : Parser),
    Wp (numberFields fs argNo) (fun _ st' => ∀ g,
      st'.slicesDict g = ((numbered fs argNo).reverse.lookup g).or (st.slicesDict g)) st
  | [], argNo, st => Wp.pure' fun g => rfl
  | f :: fs, argNo, st => by
    refine Wp.bind' (Wp.modify' (Q := fun _ s => s = st.setSlice f (bareSlice argNo)) rfl) ?_
    intro _ s1 h1
    subst h1
    refine (numberFields_table fs (argNo + 1) _).mono fun _ s2 h2 g => ?_
    rw [h2 g, numbered, List.reverse_cons, List.lookup_append, Option.or_assoc, lookup_single]
    by_cases hg : g = f
    · subst hg; simp [setSlice_same]
    · simp [hg, setSlice_ne]

section
variable {handleBitsliceID : String → Parse Value}

theorem bares_cons (d : Decl) (ds : List Decl) : bares (d :: ds) = bares [d] ++ bares ds := by
  cases d <;> rfl

theorem colons_cons (d : Decl) (ds : List Decl) : colons (d :: ds) = colons [d] ++ colons ds := by
  cases d <;> rfl

theorem Field.decl_spec (hq : QuietID handleBitsliceID) (f : Field) (st : Parser) :
    Wp (f.decl handleBitsliceID) (fun d st' => d.name = f.name ∧ Keeps st st') st := by
  cases f with
  | bit f e =>
    exact Wp.bind' (Expr.act_quiet hq e st) fun _ _ k => Wp.pure' ⟨rfl, k⟩
  | wide f n e =>
    refine Wp.bind' (Expr.act_quiet hq n st) fun _ s1 k1 => ?_
    exact Wp.bind' (Expr.act_quiet hq e s1) fun _ _ k2 =>
      Wp.pure' ⟨rfl, IsTrans.trans _ _ _ k1 k2⟩
  | bare f => exact Wp.pure' ⟨rfl, Std.Refl.refl st⟩

theorem Decl.record_table (d : Decl) (st : Parser) : Wp d.record (fun _ st' =>
    st'.bitsliceFieldIds = (bares [d]).reverse ++ st.bitsliceFieldIds ∧
    ∀ g, st'.slicesDict g = (st.slicesDict g).or ((colons [d]).lookup g)) st := by
  cases d with
  | colon f slice => exact addSlice_table f slice st
  | bare f => exact Wp.modify' ⟨rfl, fun g => by simp [colons]⟩

/-- A statement's fields with a colon are inserted, its bare ones collected in reverse. -/
theorem declareFields_table (hq : QuietID handleBitsliceID) : ∀ (fields : List Field) (st : Parser),
    Wp (declareFields handleBitsliceID fields) (fun ds st' =>
      ds.map Decl.name = fields.map Field.name ∧
      st'.bitsliceFieldIds = (bares ds).reverse ++ st.bitsliceFieldIds ∧
      ∀ g, st'.slicesDict g = (st.slicesDict g).or ((colons ds).lookup g)) st
  | [], st => Wp.pure' ⟨rfl, rfl, fun g => by simp [colons]⟩
  | f :: fs, st => by
    refine Wp.bind' (f.decl_spec hq st) ?_
    intro d s1 h1
    obtain ⟨hname, k1⟩ := h1
    refine Wp.bind' (d.record_table s1) ?_
    intro _ s2 h2
    obtain ⟨hids, htable⟩ := h2
    refine Wp.bind' (declareFields_table hq fs s2) ?_
    intro ds s3 h3
    obtain ⟨hnames, hids', htable'⟩ := h3
    refine Wp.pure' ⟨by simp only [List.map_cons, hname, hnames], ?_, fun g => ?_⟩
    · rw [hids', hids, k1.ids, bares_cons d ds, List.reverse_append, List.append_assoc]
    · rw [htable' g, htable g, k1.slices, colons_cons d ds, List.lookup_append, Option.or_assoc]

theorem storeBare_table {ds : List Decl} {st : Parser}
    (h : st.bitsliceFieldIds = (bares ds).reverse) : Wp storeBare (fun _ st' =>
      st'.bitsliceFieldIds = [] ∧
      ∀ g, st'.slicesDict g = ((bareSlices ds).lookup g).or (st.slicesDict g)) st := by
  refine Wp.get_bind ?_
  rw [h]
  refine Wp.bind' (numberFields_table _ 0 st) ?_
  intro _ s1 h1
  refine Wp.modify' ⟨rfl, fun g => ?_⟩
  rw [bareSlices_eq]
  exact h1 g

/-- What a statement does to the table, between statements. -/
structure Declares (ds : List Decl) (st st' : Parser) : Prop where
  ids : st'.bitsliceFieldIds = []
  table : ∀ g, st'.slicesDict g =
    ((bareSlices ds).lookup g).or ((st.slicesDict g).or ((colons ds).lookup g))

/-- After a statement the names without a slice are those it does not declare, of those
without one before. -/
theorem Declares.undeclared {ds : List Decl} {st st' : Parser} (h : Declares ds st st')
    (f : String) :
    st'.slicesDict f = none ↔ f ∉ ds.map Decl.name ∧ st.slicesDict f = none := by
  rw [h.table f, Option.or_eq_none_iff, Option.or_eq_none_iff, lookup_none_iff, lookup_none_iff,
    mem_names]
  refine ⟨?_, ?_⟩
  · intro h
    exact ⟨fun hm => hm.elim (fun hc => h.2.2 _ hc.choose_spec) fun hb => h.1 _ hb.choose_spec,
      h.2.1⟩
  · intro h
    exact ⟨fun slice hb => h.1 (.inr ⟨slice, hb⟩), h.2, fun slice hc => h.1 (.inl ⟨slice, hc⟩)⟩

/-- A slice statement goes through, and declares its fields. -/
theorem slice_declares (hq : QuietID handleBitsliceID) (fields : List Field) {st : Parser}
    (h : st.bitsliceFieldIds = []) :
    Wp ((Statement.slice fields).declare handleBitsliceID) (fun ds st' =>
      ds.map Decl.name = fields.map Field.name ∧ Declares ds st st') st := by
  refine Wp.bind' (declareFields_table hq fields st) ?_
  intro ds s1 h1
  obtain ⟨hnames, hids, htable⟩ := h1
  rw [h, List.append_nil] at hids
  refine Wp.bind' (storeBare_table hids) ?_
  intro _ s2 h2
  refine Wp.pure' ⟨hnames, h2.1, fun g => ?_⟩
  rw [h2.2 g, htable g]

/-- Every statement that goes through declares what it says. -/
theorem statement_declares (hq : QuietID handleBitsliceID) {s : Statement} {st st' : Parser}
    {ds : List Decl} (h : st.bitsliceFieldIds = [])
    (hrun : (s.declare handleBitsliceID).run st = some (ds, st')) :
    ds.map Decl.name = declared [s] ∧ Declares ds st st' := by
  cases s with
  | slice fields =>
    obtain ⟨ds', s1, hrun', hd⟩ := slice_declares hq fields h
    rw [hrun, Option.some.injEq, Prod.mk.injEq] at hrun'
    obtain ⟨rfl, rfl⟩ := hrun'
    simpa [declared] using hd
  | assign l e =>
    obtain ⟨_, s1, hact, hrun⟩ := Wp.run_bind.mp hrun
    obtain ⟨rfl, rfl⟩ := Prod.mk.inj (Option.some.inj hrun)
    by_cases hl : ∃ f ∈ l.names, st.slicesDict f = none
    · rw [assign_aborts hq hl] at hact
      cases hact
    · obtain ⟨_, s2, hact', k⟩ := assign_keeps (e := e) hq fun f hf e => hl ⟨f, hf, e⟩
      rw [hact, Option.some.injEq, Prod.mk.injEq] at hact'
      obtain ⟨-, rfl⟩ := hact'
      refine ⟨rfl, k.ids.trans h, fun g => ?_⟩
      simp [k.slices, bareSlices, colons]

/-- The table after any statements. -/
theorem statements_declare (hq : QuietID handleBitsliceID) : ∀ (ss : List Statement)
    {st st' : Parser} {dss : List (List Decl)}, st.bitsliceFieldIds = [] →
    (declareStatements handleBitsliceID ss).run st = some (dss, st') →
    dss.flatMap (List.map Decl.name) = declared ss ∧ st'.bitsliceFieldIds = [] ∧
    ∀ g, st'.slicesDict g = (dss.reverse.findSome? fun ds => (bareSlices ds).lookup g).or
      ((st.slicesDict g).or ((dss.flatMap colons).lookup g))
  | [], st, st', dss, h, hrun => by
    obtain ⟨rfl, rfl⟩ := Prod.mk.inj (Option.some.inj hrun)
    exact ⟨rfl, h, fun g => by simp⟩
  | s :: ss, st, st', dss, h, hrun => by
    obtain ⟨ds, s1, h1, hrun⟩ := Wp.run_bind.mp hrun
    obtain ⟨dss', s2, h2, hrun⟩ := Wp.run_bind.mp hrun
    obtain ⟨rfl, rfl⟩ := Prod.mk.inj (Option.some.inj hrun)
    obtain ⟨hnames, hd⟩ := statement_declares hq h h1
    obtain ⟨hnames', hids, htable⟩ := statements_declare hq ss hd.ids h2
    refine ⟨?_, hids, fun g => ?_⟩
    · rw [List.flatMap_cons, hnames, hnames']
      cases s <;> simp [declared]
    · rw [htable g, hd.table g, List.reverse_cons, List.findSome?_append, List.flatMap_cons,
        List.lookup_append]
      simp [Option.or_assoc]

theorem inputs_keep : ∀ (ps : List String) (argNo : Nat), Always KeepsSlices (actInputs ps argNo)
  | [], _ => Always.pure' _
  | p :: ps, argNo => (setValueSlice_keeps p _).bind' fun _ => inputs_keep ps (argNo + 1)

end

/-! The words that slices hold. -/

/-- The result of an instruction, from those of its operands. -/
def Inst.word (operand : Value → Option Word) : Inst → Option Word
  | .bin op a b => do
    let x ← operand a
    let y ← operand b
    evalBin op x y
  | .zext a => operand a
  | .ctpop a => (operand a).map BitVec.cpop

def operandWord (args : List Word) (words : List (Option Word)) : Value → Option Word
  | .const c => some c
  | .arg n => args[n]?
  | .inst n => words[n]?.join

/-- The results of the instructions of a block, none for one without a result. -/
def blockWords (args : List Word) (block : List Inst) : List (Option Word) :=
  block.foldl (fun words i => words ++ [i.word (operandWord args words)]) []

/-- The word a value of a block holds. -/
def wordOf (args : List Word) (block : List Inst) (v : Value) : Option Word :=
  operandWord args (blockWords args block) v

theorem operandWord_some {args results : List Word} {v : Value} :
    operandWord args (results.map some) v = evalValue args results v := by
  cases v with
  | inst n => cases h : results[n]? <;> simp [operandWord, evalValue, h]
  | _ => rfl

theorem word_eq {args results : List Word} (i : Inst) :
    i.word (operandWord args (results.map some)) = evalInst args results i := by
  cases i <;> simp [Inst.word, evalInst, operandWord_some]

theorem blockWords_run {args : List Word} : ∀ {block : List Inst} {results : List Word},
    runBlock args block = some results → blockWords args block = results.map some := by
  intro block
  induction block using List.reverseRecOn with
  | nil =>
    intro results h
    obtain rfl : [] = results := Option.some.inj h
    rfl
  | append_singleton block i ih =>
    intro results h
    rw [runBlock_snoc] at h
    obtain ⟨r, hr, h⟩ := Option.bind_eq_some_iff.mp h
    obtain ⟨v, hv, rfl⟩ := Option.map_eq_some_iff.mp h
    have hwords := ih hr
    rw [blockWords] at hwords
    rw [blockWords, List.foldl_append, hwords, List.foldl_cons, List.foldl_nil, word_eq, hv,
      List.map_append]
    rfl

/-- Where the block runs, the word a value means. -/
theorem wordOf_means {args : List Word} {block : List Inst} {v : Value} {x : Word}
    (h : Means args block v x) : wordOf args block v = some x := by
  obtain ⟨results, hr, hv⟩ := h
  rw [wordOf, blockWords_run hr, operandWord_some, hv]

/-- The start and the width of a slice. -/
def Slice.words (args : List Word) (block : List Inst) (slice : Slice) : Option Word × Option Word :=
  (wordOf args block slice.start, wordOf args block slice.range)

/-- Entries with the same start and width, whatever the arguments are. -/
def SameEntry (params : List String) (block : List Inst) (a b : Option Slice) : Prop :=
  ∀ args : List Word, args.length = params.length →
    a.map (Slice.words args block) = b.map (Slice.words args block)

section
variable {handleBitsliceID : String → Parse Value}

/-- **Redeclaration.** After the inputs and any statements of a program, the entry of a name in
`slicesDict` is the declaration in force; so it has the start and the width of the last
declaration exactly when the declaration in force does. -/
theorem slicesDict_latest_iff (hq : QuietID handleBitsliceID) {params : List String}
    {ss : List Statement} {st : Parser} {dss : List (List Decl)}
    (h : (do actInputs params 0; declareStatements handleBitsliceID ss).run Parser.init =
      some (dss, st)) :
    (do actInputs params 0; actStatements handleBitsliceID ss).run Parser.init = some (⟨⟩, st) ∧
    ∀ f, st.slicesDict f = inForce dss f ∧
      (SameEntry params st.block (st.slicesDict f) (latest dss f) ↔
        SameEntry params st.block (inForce dss f) (latest dss f)) := by
  obtain ⟨_, s1, h1, h2⟩ := Wp.run_bind.mp h
  have k1 := (inputs_keep params 0).run h1
  have hids : s1.bitsliceFieldIds = [] := k1.ids
  obtain ⟨-, -, htable⟩ := statements_declare hq ss hids h2
  refine ⟨?_, fun f => ?_⟩
  · exact Wp.run_bind.mpr ⟨_, s1, h1, actStatements_run.mpr ⟨dss, h2⟩⟩
  · have hnone : s1.slicesDict f = none := by rw [k1.slices]; rfl
    have hforce : st.slicesDict f = inForce dss f := by
      rw [htable f, hnone, Option.none_or, inForce]
    exact ⟨hforce, by rw [hforce]⟩

end

/-- `slice a, f`, then `slice f`: bare fields replace each other. -/
def renumbered : List Statement :=
  [.slice [.bare "a", .bare "f"], .slice [.bare "f", .bare "a"]]

theorem slicesDict_latest_iff_renumbered : ∃ dss st,
    (do actInputs ["x"] 0; declareStatements findID renumbered).run Parser.init = some (dss, st) ∧
    latest dss "f" = some (bareSlice 1) ∧
    SameEntry ["x"] st.block (st.slicesDict "f") (latest dss "f") :=
  ⟨_, _, rfl, by decide,
    ((@slicesDict_latest_iff findID findID_quiet ["x"] renumbered _ _ rfl).2 "f").2.mpr
      fun _ _ => rfl⟩

-- `slice f:2`, then `slice f:1+1`: another value that holds the same word
example : ∃ dss st, (declareStatements findID [.slice [.bit "f" (.bitslice (.number 2))],
      .slice [.bit "f" (.plus (.bitslice (.number 1)) (.bitslice (.number 1)))]]).run Parser.init =
        some (dss, st) ∧
    st.slicesDict "f" ≠ latest dss "f" ∧ SameEntry [] st.block (st.slicesDict "f") (latest dss "f") :=
  ⟨_, _, rfl, by decide, fun _ _ => rfl⟩

/-- `slice f:1`, then `slice f:2`. -/
def redeclared : List Statement :=
  [.slice [.bit "f" (.bitslice (.number 1))], .slice [.bit "f" (.bitslice (.number 2))]]

/-- After `slice f:1` and `slice f:2` the entry of `f` still starts at bit 1. -/
theorem redeclared_keeps_first : ∃ dss st,
    (do actInputs ["x"] 0; declareStatements findID redeclared).run Parser.init = some (dss, st) ∧
    latest dss "f" = some ⟨getInt32 2, getInt32 1⟩ ∧
    st.slicesDict "f" = some ⟨getInt32 1, getInt32 1⟩ ∧
    ¬ SameEntry ["x"] st.block (st.slicesDict "f") (latest dss "f") :=
  ⟨_, _, rfl, by decide, by decide, fun h => absurd (h [0] rfl) (by decide)⟩

end Ece566.P1
