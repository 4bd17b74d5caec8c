import Mathlib

/- Going through a list with nothing in hand but the element one is at. The next one is
   looked for: it is the one after the first occurrence of that element. While no element
   has come twice the walk is at the place its number says; from an element that has come
   before it goes back, and then it stays among the elements before that one for ever. So it
   ends if and only if no element occurs twice, and then it has met them all. -/
namespace Ece566.Walk

variable {α : Type} {first : Option α} {next : α → Option α} {l pre suf : List α} {x y : α} {n : Nat}

/-- What is met, one after the other, until there is nothing. -/
def walk (first : Option α) (next : α → Option α) : Nat → Option α
  | 0 => first
  | n + 1 => (walk first next n).bind next

/-- The walk ends, and has met all of `l`. -/
structure Covers (first : Option α) (next : α → Option α) (l : List α) : Prop where
  ends : ∃ n, walk first next n = none
  meets : ∀ x ∈ l, ∃ n, walk first next n = some x

variable [DecidableEq α]

def afterFirst (x : α) : List α → Option α
  | [] => none
  | y :: l => if y = x then l.head? else afterFirst x l

theorem afterFirst_eq (h : x ∉ pre) : afterFirst x (pre ++ x :: suf) = suf.head? := by
  induction pre with
  | nil => exact if_pos rfl
  | cons y pre ih =>
    rw [List.mem_cons, not_or] at h
    rw [List.cons_append, afterFirst, if_neg (Ne.symm h.1), ih h.2]

/-- Where nothing has come twice. -/
theorem walk_eq_getElem? (h : l.Nodup) (n : Nat) :
    walk l.head? (fun x => afterFirst x l) n = l[n]? := by
  induction n with
  | zero => exact List.head?_eq_getElem?
  | succ n ih =>
    rw [walk, ih]
    cases hx : l[n]? with
    | none =>
      rw [List.getElem?_eq_none_iff] at hx
      exact (List.getElem?_eq_none (Nat.le_succ_of_le hx)).symm
    | some x =>
      obtain ⟨hn, rfl⟩ := List.getElem?_eq_some_iff.mp hx
      have hsplit : l = l.take n ++ l[n] :: l.drop (n + 1) := by simp
      have hnot : l[n] ∉ l.take n := by
        rw [hsplit] at h
        exact fun hmem => (List.nodup_append.mp h).2.2 _ hmem _ List.mem_cons_self rfl
      calc afterFirst l[n] l = afterFirst l[n] (l.take n ++ l[n] :: l.drop (n + 1)) := by rw [← hsplit]
        _ = (l.drop (n + 1)).head? := afterFirst_eq hnot
        _ = l[n + 1]? := List.head?_drop

/-- An element that has come before leads back. -/
theorem afterFirst_back (hy : y ∈ pre) (hx : x ∈ pre) :
    ∃ z ∈ pre, afterFirst x (pre ++ y :: suf) = some z := by
  obtain ⟨before, rest, rfl, hfirst⟩ := List.eq_append_cons_of_mem hx
  rw [List.append_assoc, List.cons_append, afterFirst_eq hfirst]
  cases rest with
  | nil => exact ⟨y, hy, rfl⟩
  | cons z rest => exact ⟨z, by simp, rfl⟩

theorem walk_back (hy : y ∈ pre) (n : Nat) : ∃ z ∈ pre,
    walk (pre ++ y :: suf).head? (fun x => afterFirst x (pre ++ y :: suf)) n = some z := by
  induction n with
  | zero =>
    cases pre with
    | nil => cases hy
    | cons z pre => exact ⟨z, List.mem_cons_self, rfl⟩
  | succ n ih =>
    obtain ⟨x, hx, hwalk⟩ := ih
    rw [walk, hwalk]
    exact afterFirst_back hy hx

theorem exists_repeated (h : ¬ l.Nodup) : ∃ pre y suf, l = pre ++ y :: suf ∧ y ∈ pre := by
  induction l with
  | nil => exact absurd List.nodup_nil h
  | cons x l ih =>
    by_cases hx : x ∈ l
    · obtain ⟨pre, suf, rfl⟩ := List.append_of_mem hx
      exact ⟨x :: pre, x, suf, rfl, List.mem_cons_self⟩
    · obtain ⟨pre, y, suf, rfl, hy⟩ := ih fun hnd => h (List.nodup_cons.mpr ⟨hx, hnd⟩)
      exact ⟨x :: pre, y, suf, rfl, List.mem_cons_of_mem x hy⟩

/-- **The walk ends if and only if nothing comes twice**, and then it has met everything. -/
theorem covers_iff : Covers l.head? (fun x => afterFirst x l) l ↔ l.Nodup := by
  refine ⟨?_, ?_⟩
  · intro h
    by_contra hnd
    obtain ⟨pre, y, suf, rfl, hy⟩ := exists_repeated hnd
    -- the walk never leaves what comes before the second `y`
    obtain ⟨n, hn⟩ := h.ends
    obtain ⟨z, -, hz⟩ := @walk_back _ pre suf y _ hy n
    rw [hn] at hz
    cases hz
  · intro h
    constructor
    case ends => exact ⟨l.length, (walk_eq_getElem? h _).trans (List.getElem?_eq_none (Nat.le_refl _))⟩
    case meets =>
      intro x hx
      obtain ⟨n, hn⟩ := List.mem_iff_getElem?.mp hx
      exact ⟨n, (walk_eq_getElem? h n).trans hn⟩

end Ece566.Walk
