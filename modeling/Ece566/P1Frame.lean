import Ece566.P1Correct

/- What the actions do to the dictionaries whatever the program is, well defined or
   not. An expression only adds code, prints, and sets the two globals about list
   elements: it never aborts the parse, and it leaves the variables, the slices and the
   bare fields waiting to be numbered as they are (`Quiet`). A slice statement leaves
   no bare field waiting, so between statements there never is one. -/
namespace Ece566.P1

/-- The dictionaries are as they were. -/
structure Keeps (st st' : Parser) : Prop where
  vals : st'.valueSliceDict = st.valueSliceDict
  slices : st'.slicesDict = st.slicesDict
  ids : st'.bitsliceFieldIds = st.bitsliceFieldIds

/-- Of the dictionaries, only the values of variables may have changed. -/
structure KeepsSlices (st st' : Parser) : Prop where
  slices : st'.slicesDict = st.slicesDict
  ids : st'.bitsliceFieldIds = st.bitsliceFieldIds

/-- `x` never aborts the parse and leaves the dictionaries alone. -/
def Quiet {α : Type} (x : Parse α) : Prop := Always Keeps x

/-- A helper called by an action cannot abort the parse, only an action can; and the
identifier helper only reads the dictionaries. -/
def QuietID (handleBitsliceID : String → Parse Value) : Prop := ∀ x, Quiet (handleBitsliceID x)

instance : Std.Refl Keeps := ⟨fun _ => ⟨rfl, rfl, rfl⟩⟩

instance : IsTrans Parser Keeps := ⟨fun _ _ _ h h' =>
  ⟨h'.vals.trans h.vals, h'.slices.trans h.slices, h'.ids.trans h.ids⟩⟩

instance : Std.Refl KeepsSlices := ⟨fun _ => ⟨rfl, rfl⟩⟩

instance : IsTrans Parser KeepsSlices := ⟨fun _ _ _ h h' =>
  ⟨h'.slices.trans h.slices, h'.ids.trans h.ids⟩⟩

theorem Keeps.keepsSlices {st st' : Parser} (h : Keeps st st') : KeepsSlices st st' :=
  ⟨h.slices, h.ids⟩

theorem Quiet.keepsSlices {α : Type} {x : Parse α} (h : Quiet x) : Always KeepsSlices x :=
  h.mono fun _ _ => Keeps.keepsSlices

/-! The builder. -/

theorem insert_quiet (i : Inst) : Quiet (insert i) := fun _ => ⟨_, _, rfl, rfl, rfl, rfl⟩

theorem create_quiet (op : BinOp) (a b : Value) : Quiet (create op a b) := insert_quiet _

theorem yyerror_quiet (msg : String) : Quiet (yyerror msg) := fun _ =>
  Wp.modify' ⟨rfl, rfl, rfl⟩

theorem setBitslice_quiet (isID : Bool) (range : Value) : Quiet (setBitslice isID range) :=
  fun _ => Wp.modify' ⟨rfl, rfl, rfl⟩

theorem setBitsliceIsID_quiet (isID : Bool) : Quiet (setBitsliceIsID isID) := fun _ =>
  Wp.modify' ⟨rfl, rfl, rfl⟩

theorem getBit_quiet (a p : Value) : Quiet (getBit a p) :=
  (create_quiet _ _ _).bind' fun _ => create_quiet _ _ _

theorem getLowestBit_quiet (a : Value) : Quiet (getLowestBit a) := create_quiet _ _ _

theorem createMask_quiet (p r : Value) : Quiet (createMask p r) :=
  (create_quiet _ _ _).bind' fun _ => (create_quiet _ _ _).bind' fun _ => create_quiet _ _ _

theorem getMaskedValue_quiet (a : Value) (sl : Slice) : Quiet (getMaskedValue a sl) :=
  (createMask_quiet _ _).bind' fun _ => (create_quiet _ _ _).bind' fun _ => create_quiet _ _ _

theorem doLeftshiftbynAdd_quiet (a p b : Value) : Quiet (doLeftshiftbynAdd a p b) :=
  (create_quiet _ _ _).bind' fun _ => create_quiet _ _ _

theorem cutElement_quiet (a : Value) : Quiet (cutElement a) := by
  refine Always.get'.bind' fun s => ?_
  cases s.bitsliceIsID with
  | true => exact getLowestBit_quiet a
  | false => exact Always.pure' a

theorem xorBits_quiet (a : Value) : ∀ (is : List Nat) (acc : Value), Quiet (xorBits a is acc)
  | [], acc => Always.pure' acc
  | _ :: is, _ => (getBit_quiet _ _).bind' fun _ => (create_quiet _ _ _).bind' fun _ =>
      xorBits_quiet a is _

/-! Expressions. -/

section
variable {handleBitsliceID : String → Parse Value}

/-- The range of `b[hi:lo]`. -/
theorem range_quiet (h l : Value) {α : Type} {f : Value → Parse α} (hf : ∀ r, Quiet (f r)) :
    Quiet (do f (← create .add (← create .sub h l) (getInt32 1))) :=
  (create_quiet _ _ _).bind' fun _ => (create_quiet _ _ _).bind' hf

mutual
theorem Expr.act_quiet (hq : QuietID handleBitsliceID) : ∀ (e : Expr),
    Quiet (e.act handleBitsliceID)
  | .bitslice b => Bitslice.act_quiet hq b
  | .plus a b | .minus a b | .xor a b | .and a b | .or a b | .mul a b | .div a b | .mod a b =>
    (Expr.act_quiet hq a).bind' fun _ => (Expr.act_quiet hq b).bind' fun _ => create_quiet _ _ _
  | .inv a | .binv a | .reduceAnd a => (Expr.act_quiet hq a).bind' fun _ => create_quiet _ _ _
  | .reduceOr a => (Expr.act_quiet hq a).bind' fun _ => (create_quiet _ _ _).bind' fun _ =>
      insert_quiet _
  | .reduceXor a => (Expr.act_quiet hq a).bind' fun _ => xorBits_quiet _ _ _
  | .reducePlus a => (Expr.act_quiet hq a).bind' fun _ => insert_quiet _
  | .expand a => (Expr.act_quiet hq a).bind' fun _ => (getLowestBit_quiet _).bind' fun _ =>
      create_quiet _ _ _

theorem Bitslice.act_quiet (hq : QuietID handleBitsliceID) : ∀ (b : Bitslice),
    Quiet (b.act handleBitsliceID)
  | .id x => hq x
  | .number _ => (setBitslice_quiet _ _).bind' fun _ => Always.pure' _
  | .list l => BitsliceList.act_quiet hq l
  | .paren e => (Expr.act_quiet hq e).bind' fun _ => (setBitslice_quiet _ _).bind' fun _ =>
      Always.pure' _
  | .bit b _ => (Bitslice.act_quiet hq b).bind' fun _ => (setBitslice_quiet _ _).bind' fun _ =>
      getBit_quiet _ _
  | .dot b f => by
    refine (Bitslice.act_quiet hq b).bind' fun v => (setBitsliceIsID_quiet _).bind' fun _ =>
      Always.get'.bind' fun s => ?_
    cases s.slicesDict f with
    | some slice => exact (setBitslice_quiet _ _).bind' fun _ => getMaskedValue_quiet _ _
    | none =>
      exact (yyerror_quiet _).bind' fun _ => (yyerror_quiet _).bind' fun _ => Always.pure' v
  | .bracket b e => (Bitslice.act_quiet hq b).bind' fun _ => (Expr.act_quiet hq e).bind' fun _ =>
      (setBitslice_quiet _ _).bind' fun _ => getBit_quiet _ _
  | .range b hi lo => (Bitslice.act_quiet hq b).bind' fun _ => (Expr.act_quiet hq hi).bind' fun _ =>
      (Expr.act_quiet hq lo).bind' fun _ => (setBitsliceIsID_quiet _).bind' fun _ =>
        range_quiet _ _ fun _ => (setBitslice_quiet _ _).bind' fun _ => getMaskedValue_quiet _ _

theorem BitsliceList.act_quiet (hq : QuietID handleBitsliceID) : ∀ (l : BitsliceList),
    Quiet (l.act handleBitsliceID)
  | .one b => (Bitslice.act_quiet hq b).bind' fun _ => (cutElement_quiet _).bind' fun _ =>
      (setBitsliceIsID_quiet _).bind' fun _ => Always.pure' _
  | .snoc l b => (BitsliceList.act_quiet hq l).bind' fun _ => (Bitslice.act_quiet hq b).bind' fun _ =>
      (cutElement_quiet _).bind' fun _ => (setBitsliceIsID_quiet _).bind' fun _ =>
        Always.get'.bind' fun _ => (doLeftshiftbynAdd_quiet _ _ _).bind' fun _ =>
          (setBitslice_quiet _ _).bind' fun _ => Always.pure' _
end

/-! Assignments. -/

theorem setValueSlice_keeps (x : String) (vs : ValueSlice) :
    Always KeepsSlices (setValueSlice x vs) := fun _ => Wp.modify' ⟨rfl, rfl⟩

theorem sliceFurther_keeps (x : String) (sl : Slice) : Always KeepsSlices (sliceFurther x sl) := by
  refine Always.get'.bind' fun s => ?_
  cases s.valueSliceDict x with
  | some vs => exact (create_quiet _ _ _).keepsSlices.bind' fun _ => setValueSlice_keeps _ _
  | none => exact setValueSlice_keeps _ _

theorem replaceSlice_keeps (x : String) (sl : Slice) : Always KeepsSlices (replaceSlice x sl) := by
  refine Always.get'.bind' fun s => ?_
  cases s.valueSliceDict x with
  | some vs => exact setValueSlice_keeps _ _
  | none => exact (yyerror_quiet _).keepsSlices

theorem actAssign_keeps (x : String) (e : Value) : Always KeepsSlices (actAssign x e) := by
  refine Always.get'.bind' fun s => ?_
  cases s.valueSliceDict x with
  | some vs =>
    refine (createMask_quiet _ _).keepsSlices.bind' fun mask => ?_
    refine (create_quiet _ _ _).keepsSlices.bind' fun expr => ?_
    refine (create_quiet _ _ _).keepsSlices.bind' fun maskedExpr => ?_
    refine (create_quiet _ _ _).keepsSlices.bind' fun invertedMask => ?_
    refine (create_quiet _ _ _).keepsSlices.bind' fun safeValue => ?_
    exact (create_quiet _ _ _).keepsSlices.bind' fun computedValue => setValueSlice_keeps _ _
  | none => exact setValueSlice_keeps _ _

/-- The slice names a left-hand side selects by. -/
def BitsliceLhs.names : BitsliceLhs → List String
  | .id _ => []
  | .bit l _ | .bracket l _ | .range l _ _ => l.names
  | .dot l f => l.names ++ [f]

/-- The action goes through, for its variable, and only values may change. -/
def Picks (st : Parser) (a : Parse String) (x : String) : Prop :=
  Wp a (fun y st' => y = x ∧ KeepsSlices st st') st

theorem Picks.bind' {st : Parser} {a : Parse String} {x : String} {f : String → Parse String}
    (ha : Picks st a x) (hf : ∀ s, KeepsSlices st s → Picks s (f x) x) : Picks st (a >>= f) x := by
  refine Wp.bind' ha ?_
  intro y s1 h1
  obtain ⟨rfl, k1⟩ := h1
  refine (hf s1 k1).mono ?_
  intro y s2 h2
  exact ⟨h2.1, h2.2.slices.trans k1.slices, h2.2.ids.trans k1.ids⟩

/-- A left-hand side whose slice names are all declared goes through. -/
theorem lhs_picks (hq : QuietID handleBitsliceID) : ∀ (l : BitsliceLhs) (st : Parser),
    (∀ f ∈ l.names, st.slicesDict f ≠ none) → Picks st (l.act handleBitsliceID) l.var
  | .id x, st, _ => Wp.pure' ⟨rfl, rfl, rfl⟩
  | .bit l k, st, h => by
    refine (lhs_picks hq l st h).bind' fun s1 k1 => Wp.get_bind ?_
    cases s1.valueSliceDict l.var with
    | some vs => exact Wp.pure' ⟨rfl, rfl, rfl⟩
    | none => exact (yyerror_quiet _).keepsSlices.then_pure _ s1
  | .dot l f, st, h => by
    have hl : ∀ g ∈ l.names, st.slicesDict g ≠ none := fun g hg => h g (List.mem_append_left _ hg)
    refine (lhs_picks hq l st hl).bind' fun s1 k1 => Wp.get_bind ?_
    obtain ⟨slice, hs⟩ := Option.ne_none_iff_exists'.mp (h f (by simp [BitsliceLhs.names]))
    rw [k1.slices, hs]
    exact (sliceFurther_keeps _ _).then_pure _ s1
  | .bracket l e, st, h =>
    (lhs_picks hq l st h).bind' fun s1 _ => Wp.bind' ((Expr.act_quiet hq e).keepsSlices s1)
      fun i s2 k2 => ((replaceSlice_keeps _ _).then_pure _ s2).mono fun _ _ h3 =>
        ⟨h3.1, h3.2.slices.trans k2.slices, h3.2.ids.trans k2.ids⟩
  | .range l hi lo, st, h => by
    refine (lhs_picks hq l st h).bind' fun s1 _ => ?_
    have hr : Always KeepsSlices (do
        let h ← hi.act handleBitsliceID
        let l' ← lo.act handleBitsliceID
        let range ← create .add (← create .sub h l') (getInt32 1)
        replaceSlice l.var ⟨h, range⟩) := by
      refine (Expr.act_quiet hq hi).keepsSlices.bind' fun vh => ?_
      refine (Expr.act_quiet hq lo).keepsSlices.bind' fun vl => ?_
      refine (create_quiet _ _ _).keepsSlices.bind' fun d => ?_
      exact (create_quiet _ _ _).keepsSlices.bind' fun range => replaceSlice_keeps _ _
    have hw := hr.then_pure l.var s1
    simp only [bind_assoc] at hw
    exact hw

/-- A left-hand side with a slice name that is not declared aborts the parse. -/
theorem lhs_aborts (hq : QuietID handleBitsliceID) : ∀ (l : BitsliceLhs) (st : Parser),
    (∃ f ∈ l.names, st.slicesDict f = none) → (l.act handleBitsliceID).run st = none
  | .id _, _, h => by simp [BitsliceLhs.names] at h
  | .bit l _, st, h | .bracket l _, st, h | .range l _ _, st, h =>
    Wp.run_bind_none (lhs_aborts hq l st h)
  | .dot l f, st, h => by
    by_cases hl : ∃ g ∈ l.names, st.slicesDict g = none
    · exact Wp.run_bind_none (lhs_aborts hq l st hl)
    · -- the names before `f` are declared, so `f` is the one that is not
      have hl' : ∀ g ∈ l.names, st.slicesDict g ≠ none := fun g hg e => hl ⟨g, hg, e⟩
      have hf : st.slicesDict f = none := by
        obtain ⟨g, hg, e⟩ := h
        simp only [BitsliceLhs.names, List.mem_append, List.mem_singleton] at hg
        obtain hg | rfl := hg
        · exact absurd e (hl' g hg)
        · exact e
      obtain ⟨x, s1, hrun, -, k1⟩ := lhs_picks hq l st hl'
      have hf1 : s1.slicesDict f = none := by rw [k1.slices, hf]
      rw [BitsliceLhs.act, Wp.run_bind_some hrun, Wp.run_get_bind, hf1]
      rfl

/-- An assignment whose slice names are all declared goes through. -/
theorem assign_keeps (hq : QuietID handleBitsliceID) {l : BitsliceLhs} {e : Expr} {st : Parser}
    (h : ∀ f ∈ l.names, st.slicesDict f ≠ none) :
    Wp ((Statement.assign l e).act handleBitsliceID) (fun _ st' => KeepsSlices st st') st := by
  refine Wp.bind' (lhs_picks hq l st h) ?_
  intro x s1 h1
  refine (((Expr.act_quiet hq e).keepsSlices.bind' fun v => actAssign_keeps x v) s1).mono ?_
  intro _ s2 k2
  exact ⟨k2.slices.trans h1.2.slices, k2.ids.trans h1.2.ids⟩

/-- Any other one aborts the parse. -/
theorem assign_aborts (hq : QuietID handleBitsliceID) {l : BitsliceLhs} {e : Expr} {st : Parser}
    (h : ∃ f ∈ l.names, st.slicesDict f = none) :
    ((Statement.assign l e).act handleBitsliceID).run st = none :=
  Wp.run_bind_none (lhs_aborts hq l st h)

end

/-- An identifier action that its callers can rely on: an undefined name is reported. -/
def findID (x : String) : Parse Value := do
  match (← get).valueSliceDict x with
  | some vs => do
    setBitslice true (getInt32 1)
    return vs.value
  | none => do
    yyerror s!"Key {x} not found in valueSliceDict"
    return getInt32 0

theorem findID_quiet : QuietID findID := by
  intro x
  refine Always.get'.bind' fun s => ?_
  cases s.valueSliceDict x with
  | some vs => exact (setBitslice_quiet _ _).bind' fun _ => Always.pure' _
  | none => exact (yyerror_quiet _).bind' fun _ => Always.pure' _

theorem findID_reads : ReadsID findID := by
  refine ⟨fun st x vs h => ?_⟩
  show (match st.valueSliceDict x with
    | some vs => do setBitslice true (getInt32 1); return vs.value
    | none => do yyerror _; return getInt32 0 : Parse Value).run st = _
  rw [h]
  rfl

end Ece566.P1
