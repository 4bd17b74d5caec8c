import Ece566.P1Ranges
import Ece566.P1SliceTable

/- Bare slice fields. After `slice f1,...,fn` the entry of `fi` starts at bit `n - i`,
   as it should, but it has the width of the default slice, 32, where a single bit is
   meant: `x.fi` is all of `x` from that bit up, and an assignment to it overwrites all
   of that. So it is the bit only where nothing lies above it. -/
namespace Ece566.P1

/-- `b.f` is bit `k` of `b`, for every value of `b`. -/
def ReadsBit (handleBitsliceID : String → Parse Value) (args : List Word) (st : Parser)
    (f : String) (k : Nat) : Prop :=
  ∀ b v, Yields args st (Bitslice.act handleBitsliceID b) v →
    ∃ r, Yields args st (Bitslice.act handleBitsliceID (.dot b f)) r ∧ r.toNat = v.toNat / 2 ^ k % 2

/-- `x.f = e` replaces bit `k` of a defined variable by the lowest bit of `e`, for every
value of both, and changes nothing else. -/
def WritesBit (handleBitsliceID : String → Parse Value) (args : List Word) (st : Parser)
    (f : String) (k : Nat) : Prop :=
  ∀ env x xv e ev, Between args st env → env.vars x = some xv →
    Gives args env (Expr.act handleBitsliceID e) ev →
    Wp ((Statement.assign (.dot (.id x) f) e).act handleBitsliceID) (fun _ st' =>
      Between args st' (env.setVar x (BitField.put xv k 1 ev))) st

variable {args : List Word} {st st' : Parser} {handleBitsliceID : String → Parse Value}

/-! The entry of a bare field. -/

theorem actStatements_append : ∀ (ss ss' : List Statement),
    actStatements handleBitsliceID (ss ++ ss') =
      (do actStatements handleBitsliceID ss; actStatements handleBitsliceID ss')
  | [], ss' => by simp only [List.nil_append, actStatements, pure_bind]
  | s :: ss, ss' => by
    simp only [List.cons_append, actStatements, actStatements_append ss ss', bind_assoc]

theorem declareFields_bare : ∀ (fs : List String) (st : Parser),
    Wp (declareFields handleBitsliceID (fs.map Field.bare)) (fun ds _ => ds = fs.map Decl.bare) st
  | [], st => Wp.pure' rfl
  | f :: fs, st => by
    refine Wp.bind' (Wp.pure' (Q := fun d s => d = Decl.bare f ∧ s = st) ⟨rfl, rfl⟩) ?_
    intro d s h
    obtain ⟨rfl, rfl⟩ := h
    refine Wp.bind' (Decl.record_table _ s) ?_
    intro _ s1 _
    refine Wp.bind' (declareFields_bare fs s1) ?_
    intro ds s2 h2
    subst h2
    exact Wp.pure' rfl

theorem bares_map : ∀ (fs : List String), bares (fs.map Decl.bare) = fs
  | [] => rfl
  | f :: fs => congrArg (f :: ·) (bares_map fs)

/-- The `i`-th of `n` bare fields, from 0, is stored with number `n - 1 - i`. -/
theorem lookup_bareSlices : ∀ {fs : List String} {i : Nat} {f : String}, fs.Nodup →
    fs[i]? = some f →
    (bareSlices (fs.map Decl.bare)).lookup f = some (bareSlice (fs.length - 1 - i))
  | [], i, f, _, hi => by simp at hi
  | g :: fs, 0, f, _, hi => by
    obtain rfl : g = f := by simpa using hi
    simp [bareSlices, bares_map]
  | g :: fs, i + 1, f, hnd, hi => by
    rw [List.getElem?_cons_succ] at hi
    have hne : f ≠ g := fun e => (List.nodup_cons.mp hnd).1 (e ▸ List.mem_of_getElem? hi)
    rw [List.map_cons, bareSlices, List.lookup_cons, beq_eq_false_iff_ne.mpr hne]
    simp only
    rw [lookup_bareSlices (List.nodup_cons.mp hnd).2 hi, List.length_cons]
    congr 2
    omega

/-- A declaration stays through statements that do not declare the name. -/
theorem entry_stays (hq : QuietID handleBitsliceID) {f : String} :
    ∀ {ss : List Statement} {st st' : Parser}, st.bitsliceFieldIds = [] → f ∉ declared ss →
    (actStatements handleBitsliceID ss).run st = some (⟨⟩, st') →
    st'.slicesDict f = st.slicesDict f := by
  intro ss st st' hids hf hrun
  obtain ⟨dss, hdecl⟩ := actStatements_run.mp hrun
  obtain ⟨hnames, -, htable⟩ := statements_declare hq ss hids hdecl
  have hnone : ∀ ds ∈ dss, f ∉ ds.map Decl.name := by
    intro ds hds hmem
    exact hf (by rw [← hnames]; exact List.mem_flatMap.mpr ⟨ds, hds, hmem⟩)
  have hbare : (dss.reverse.findSome? fun ds => (bareSlices ds).lookup f) = none := by
    rw [List.findSome?_eq_none_iff]
    intro ds hds
    refine lookup_none_iff.mpr fun slice hb => ?_
    exact hnone ds (List.mem_reverse.mp hds) ((mem_names ds).mpr (.inr ⟨slice, hb⟩))
  have hcolon : (dss.flatMap colons).lookup f = none := by
    refine lookup_none_iff.mpr fun slice hc => ?_
    obtain ⟨ds, hds, hc⟩ := List.mem_flatMap.mp hc
    exact hnone ds hds ((mem_names ds).mpr (.inl ⟨slice, hc⟩))
  rw [htable f, hbare, hcolon, Option.none_or, Option.or_none]

/-- The entry of a bare field, until it is declared again. -/
theorem bare_entry (hq : QuietID handleBitsliceID) {params : List String}
    {ss later : List Statement} {fs : List String}
    (h : (do
        actInputs params 0
        actStatements handleBitsliceID (ss ++ Statement.slice (fs.map Field.bare) :: later)).run
      Parser.init = some (⟨⟩, st))
    (hnd : fs.Nodup) {i : Nat} {f : String} (hi : fs[i]? = some f) (hlater : f ∉ declared later) :
    st.slicesDict f = some (bareSlice (fs.length - 1 - i)) := by
  obtain ⟨_, s1, h1, h2⟩ := Wp.run_bind.mp h
  have hids1 : s1.bitsliceFieldIds = [] := ((inputs_keep params 0).run h1).ids
  rw [actStatements_append] at h2
  obtain ⟨_, s2, h2, h3⟩ := Wp.run_bind.mp h2
  obtain ⟨_, s3, h3, h4⟩ := Wp.run_bind.mp h3
  obtain ⟨dss, h2⟩ := actStatements_run.mp h2
  obtain ⟨-, hids2, -⟩ := statements_declare hq ss hids1 h2
  obtain ⟨ds, h3⟩ := Statement.act_run.mp h3
  obtain ⟨-, hd⟩ := statement_declares hq hids2 h3
  -- the statement's declarations are its bare fields
  obtain ⟨ds', s2a, hfields, h3⟩ := Wp.run_bind.mp h3
  obtain ⟨_, s2b, -, hrun⟩ := Wp.run_bind.mp h3
  obtain ⟨rfl, -⟩ := Prod.mk.inj (Option.some.inj hrun)
  obtain ⟨_, s2c, hfields', rfl⟩ := @declareFields_bare handleBitsliceID fs s2
  rw [hfields, Option.some.injEq, Prod.mk.injEq] at hfields'
  obtain ⟨rfl, -⟩ := hfields'
  rw [entry_stays hq hd.ids hlater h4, hd.table f, lookup_bareSlices hnd hi, Option.some_or]

/-! Reading and writing it. -/

theorem toNat_number {k : Nat} (h : k < 32) : (BitVec.ofNat 32 k).toNat = k := by
  rw [BitVec.toNat_ofNat]; omega

theorem bare_maskable {k : Nat} (h : k < 32) :
    maskable (BitVec.ofNat 32 k).toNat (BitVec.ofNat 32 32).toNat := by
  rw [toNat_number h]
  exact ⟨h, by decide, by decide⟩

/-- `b.f` is all of `b` from the bit up. -/
theorem bare_read {f : String} {k : Nat} (hk : k < 32) (hf : st.slicesDict f = some (bareSlice k))
    (hr : Runs args st.block) {b : Bitslice} {v : Word}
    (hb : Yields args st (b.act handleBitsliceID) v) :
    Yields args st ((Bitslice.dot b f).act handleBitsliceID) (BitField.get v k 32) := by
  refine (dot_spec hb hf (Means.getInt32 hr k) (Means.getInt32 hr 32) (bare_maskable hk)).mono ?_
  intro r s1 h1
  rw [toNat_number hk] at h1
  exact ⟨h1.1, h1.2.1⟩

/-- `x.f = e` overwrites all of `x` from the bit up. -/
theorem bare_write {f x : String} {k : Nat} {env : Env} {xv ev : Word} {e : Expr} (hk : k < 32)
    (hf : st.slicesDict f = some (bareSlice k)) (hb : Between args st env)
    (hx : env.vars x = some xv) (he : Gives args env (e.act handleBitsliceID) ev) :
    Wp ((Statement.assign (.dot (.id x) f) e).act handleBitsliceID) (fun _ st' =>
      Between args st' (env.setVar x (BitField.put xv k 32 ev))) st := by
  have hlhs : Wp ((BitsliceLhs.dot (.id x) f).act handleBitsliceID) (fun y st' => y = x ∧
      Pending args st' env x k 32) st := by
    refine Wp.bind' (Wp.pure' (Q := fun y s => y = x ∧ s = st) ⟨rfl, rfl⟩) ?_
    intro y s h0
    obtain ⟨rfl, rfl⟩ := h0
    refine Wp.get_bind ?_
    rw [hf]
    refine Wp.bind' (sliceFurther_spec (hb.pending y) hx (Means.getInt32 hb.sim.runs k)
      (Means.getInt32 hb.sim.runs 32)) ?_
    intro _ s1 h1
    rw [toNat_number hk, Nat.zero_add] at h1
    exact Wp.pure' ⟨rfl, h1⟩
  exact assign_gives hlhs hx ⟨hk, by decide, by decide⟩ he

/-! When that is the bit. -/

theorem readsBit_iff {f : String} {k : Nat} (hk : k < 32)
    (hf : st.slicesDict f = some (bareSlice k)) (hr : Runs args st.block) :
    ReadsBit handleBitsliceID args st f k ↔ k = 31 := by
  refine ⟨?_, ?_⟩
  · -- of the word with bit `k + 1` only, bit `k` is 0 and the code reads 2
    intro h
    by_contra hne
    have hb : Yields args st (Bitslice.act handleBitsliceID (.number (2 ^ (k + 1)))) _ :=
      ⟨_, _, rfl, ⟨rfl, rfl, rfl, fun _ _ h => h⟩, Means.const hr _⟩
    obtain ⟨r, hyields, hval⟩ := h _ _ hb
    rw [hyields.unique (bare_read hk hf hr hb), BitField.toNat_get] at hval
    have h2 : 2 ^ (k + 1) < 2 ^ 32 := Nat.pow_lt_pow_right (by decide) (by omega)
    rw [BitVec.toNat_ofNat, Nat.mod_eq_of_lt h2, Nat.pow_succ,
      Nat.mul_div_cancel_left _ (Nat.two_pow_pos k)] at hval
    cases hval
  · intro h b v hb
    subst h
    refine ⟨_, bare_read hk hf hr hb, ?_⟩
    rw [BitField.toNat_get]
    have := v.isLt
    omega

theorem writesBit_top {f : String} (hf : st.slicesDict f = some (bareSlice 31)) :
    WritesBit handleBitsliceID args st f 31 := by
  intro env x xv e ev hb hx he
  have hput : BitField.put xv 31 1 ev = BitField.put xv 31 32 ev := by
    apply BitVec.eq_of_getLsbD_eq
    intro i hi
    simp only [BitField.getLsbD_put]
    by_cases h31 : 31 ≤ i
    · rw [if_pos (by omega), if_pos (by omega)]
    · rw [if_neg (by omega), if_neg (by omega)]
  rw [hput]
  exact bare_write (by decide) hf hb hx he

/-- **Bare fields.** After a statement `slice f1,...,fn` anywhere in a program, until `fi`
is declared again, `x.fi` reads and writes bit `n - i` of `x` exactly when that is bit 31
(below, `i` counts from 0). -/
theorem bareField_iff (hq : QuietID handleBitsliceID) {params : List String}
    {ss later : List Statement} {fs : List String}
    (h : (do
        actInputs params 0
        actStatements handleBitsliceID (ss ++ Statement.slice (fs.map Field.bare) :: later)).run
      Parser.init = some (⟨⟩, st))
    (hnd : fs.Nodup) (hn : fs.length ≤ 32) {i : Nat} {f : String} (hi : fs[i]? = some f)
    (hlater : f ∉ declared later) (hr : Runs args st.block) :
    (ReadsBit handleBitsliceID args st f (fs.length - 1 - i) ∧
      WritesBit handleBitsliceID args st f (fs.length - 1 - i)) ↔ fs.length - 1 - i = 31 := by
  have hf := bare_entry hq h hnd hi hlater
  have hk : fs.length - 1 - i < 32 := by omega
  refine ⟨?_, ?_⟩
  · intro hbit
    exact (readsBit_iff hk hf hr).mp hbit.1
  · intro h31
    refine ⟨(readsBit_iff hk hf hr).mpr h31, ?_⟩
    rw [h31] at hf ⊢
    exact writesBit_top hf

/-- `slice a, f`. -/
def twoFields : Statement := .slice (["a", "f"].map Field.bare)

theorem bareField_iff_two : ∃ st,
    (do actInputs ["x"] 0; actStatements findID [twoFields]).run Parser.init = some (⟨⟩, st) ∧
    ((ReadsBit findID [2] st "f" 0 ∧ WritesBit findID [2] st "f" 0) ↔ 0 = 31) :=
  ⟨_, rfl, @bareField_iff [2] _ findID findID_quiet ["x"] [] [] ["a", "f"] rfl (by decide) (by decide)
    1 "f" rfl (by decide) ⟨[], rfl⟩⟩

/-- `in x`, `slice a, f`, `final x.f`. -/
def lowField : Program := ⟨["x"], [twoFields], .bitslice (.dot (.id "x") "f")⟩

/-- The function built for `x.f`, the lowest bit, returns 2 on 2. -/
theorem lowField_reads_higher :
    ((lowField.act findID).run Parser.init).bind (fun r => runFunction [2] r.2.block r.1) = some 2 ∧
    ∃ st, (do actInputs ["x"] 0; actStatements findID [twoFields]).run Parser.init = some (⟨⟩, st) ∧
      ¬ ReadsBit findID [2] st "f" 0 := by
  refine ⟨by decide +kernel, _, rfl, fun h => ?_⟩
  exact absurd ((readsBit_iff (by decide) rfl ⟨[], rfl⟩).mp h) (by decide)

end Ece566.P1
