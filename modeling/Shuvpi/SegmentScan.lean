import Mathlib.Data.List.Basic
import Mathlib.Data.List.Nodup
import Mathlib.Order.Basic
import Mathlib.Tactic

/-!
# Scans over segments

A scan over a list that is stored in pieces: it copies what it keeps, ends after the first
element that stops it, and copies no more than a limit. Scanning piece by piece gives what
a scan over the whole list gives. A piece that is read from an unordered table is the list
that the order of its keys determines.
-/
namespace Shuvpi.SegmentScan

open List

variable {α : Type}

/-- The elements up to the first that stops, which is the last one taken. -/
def takeThrough (stop : α → Bool) : List α → List α
  | [] => []
  | a :: l => if stop a then [a] else a :: takeThrough stop l

def limited : Option Nat → List α → List α
  | none, l => l
  | some n, l => l.take n

/-- The scan over the pieces of a list. -/
def scanChunks (stop keep : α → Bool) : Option Nat → List (List α) → List α
  | _, [] => []
  | remaining, chunk :: chunks =>
    if remaining = some 0 then []
    else
      let rows := limited remaining ((takeThrough stop chunk).filter keep)
      if chunk.any stop then rows else rows ++ scanChunks stop keep (remaining.map (· - rows.length)) chunks

variable {stop : α → Bool}

variable {a : List α}

theorem takeThrough_append_of_any (h : a.any stop = true) (b : List α) :
    takeThrough stop (a ++ b) = takeThrough stop a := by
  induction a with
  | nil => cases h
  | cons x a ih =>
    rw [cons_append, takeThrough, takeThrough]
    by_cases hx : stop x = true
    · rw [if_pos hx, if_pos hx]
    · rw [if_neg hx, if_neg hx]
      rw [any_cons, Bool.or_eq_true] at h
      rw [ih (h.resolve_left hx)]

theorem takeThrough_append_of_not_any (h : a.any stop = false) (b : List α) :
    takeThrough stop (a ++ b) = a ++ takeThrough stop b := by
  induction a with
  | nil => rfl
  | cons x a ih =>
    rw [any_cons, Bool.or_eq_false_iff] at h
    rw [cons_append, takeThrough, if_neg (by rw [h.1]; exact Bool.false_ne_true), ih h.2, cons_append]

theorem takeThrough_of_not_any (h : a.any stop = false) : takeThrough stop a = a := by
  have happ := takeThrough_append_of_not_any h []
  rwa [takeThrough, append_nil] at happ

theorem limited_append (n : Option Nat) (a b : List α) :
    limited n (a ++ b) = limited n a ++ limited (n.map (· - (limited n a).length)) b := by
  cases n with
  | none => rfl
  | some n =>
    simp only [limited, Option.map_some, take_append, length_take]
    congr 2
    omega

theorem mem_of_mem_takeThrough {a : α} {l : List α} (h : a ∈ takeThrough stop l) : a ∈ l := by
  induction l with
  | nil => exact h
  | cons x l ih =>
    rw [takeThrough] at h
    split at h
    · rw [mem_singleton.mp h]
      exact mem_cons_self
    · rcases mem_cons.mp h with rfl | h
      · exact mem_cons_self
      · exact mem_cons_of_mem _ (ih h)

theorem mem_of_mem_limited {n : Option Nat} {a : α} {l : List α} (h : a ∈ limited n l) : a ∈ l := by
  cases n with
  | none => exact h
  | some n => exact mem_of_mem_take h

/-- Scanning the pieces is scanning the list. -/
theorem scanChunks_eq (stop keep : α → Bool) (remaining : Option Nat) (chunks : List (List α)) :
    scanChunks stop keep remaining chunks = limited remaining ((takeThrough stop chunks.flatten).filter keep) := by
  induction chunks generalizing remaining with
  | nil => cases remaining <;> simp [scanChunks, takeThrough, limited]
  | cons chunk chunks ih =>
    rw [scanChunks, flatten_cons]
    by_cases hzero : remaining = some 0
    · rw [if_pos hzero, hzero]
      simp [limited]
    · rw [if_neg hzero]
      cases hany : chunk.any stop with
      | true =>
        rw [takeThrough_append_of_any hany]
        rfl
      | false =>
        rw [takeThrough_append_of_not_any hany, filter_append, limited_append, takeThrough_of_not_any hany]
        rw [if_neg Bool.false_ne_true, ih]

/-! ## Order

Rows are read in ascending or in descending order of a number. -/

def le (ascending : Bool) (a b : Nat) : Bool := if ascending then a ≤ b else b ≤ a

def lt (ascending : Bool) (a b : Nat) : Bool := if ascending then a < b else b < a

/-- `MIN` and `MAX` -/
def first (ascending : Bool) (l : List Nat) : Option Nat := if ascending then l.min? else l.max?

theorem lt_irrefl (ascending : Bool) (a : Nat) : lt ascending a a = false := by
  cases ascending <;> simp [lt]

variable {ascending : Bool} {a b : Nat}

theorem le_of_lt (h : lt ascending a b = true) : le ascending a b = true := by
  cases ascending <;> simp [lt, le] at h ⊢ <;> omega

theorem le_iff_not_lt : le ascending a b = true ↔ lt ascending b a = false := by
  cases ascending <;> simp [lt, le]

theorem le_antisymm (h : le ascending a b = true) (h' : le ascending b a = true) : a = b := by
  cases ascending <;> simp [le] at h h' <;> omega

theorem le_trans {c : Nat} (h : le ascending a b = true) (h' : le ascending b c = true) :
    le ascending a c = true := by
  cases ascending <;> simp [le] at h h' ⊢ <;> omega

theorem le_total (ascending : Bool) (a b : Nat) : (le ascending a b || le ascending b a) = true := by
  cases ascending <;> simp [le] <;> omega

theorem first_eq_none {l : List Nat} : first ascending l = none ↔ l = [] := by
  cases ascending <;> simp [first]

theorem first_eq_some {l : List Nat} {m : Nat} :
    first ascending l = some m ↔ m ∈ l ∧ ∀ a ∈ l, le ascending m a = true := by
  cases ascending <;> simp [first, le, min?_eq_some_iff, max?_eq_some_iff]

variable {ascending : Bool} {key : α → Nat}

variable {list : List α}

variable (hlist : list.Pairwise fun a b => lt ascending (key a) (key b) = true)
include hlist

theorem key_injective {a b : α} (ha : a ∈ list)
    (hb : b ∈ list) (hkey : key a = key b) : a = b := by
  induction list with
  | nil => cases ha
  | cons x list ih =>
    rw [pairwise_cons] at hlist
    rcases mem_cons.mp ha with hax | ha'
    · rcases mem_cons.mp hb with hbx | hb'
      · rw [hax, hbx]
      · have hlt := hlist.1 b hb'
        rw [← hax, hkey, lt_irrefl] at hlt
        cases hlt
    · rcases mem_cons.mp hb with hbx | hb'
      · have hlt := hlist.1 a ha'
        rw [← hbx, hkey, lt_irrefl] at hlt
        cases hlt
      · exact ih hlist.2 ha' hb'

theorem nodup_of_pairwise :
    list.Nodup := by
  refine hlist.imp ?_
  intro a b hab heq
  rw [heq, lt_irrefl] at hab
  cases hab

omit hlist

/-- What a table holds, sorted by its key, is the list with these elements in the order of their keys. -/
theorem mergeSort_eq (ascending : Bool) (key : α → Nat) {rows : List α} (hrows : rows.Nodup)
    (hlist : list.Pairwise fun a b => lt ascending (key a) (key b) = true) (hmem : ∀ a, a ∈ rows ↔ a ∈ list) :
    rows.mergeSort (fun a b => le ascending (key a) (key b)) = list := by
  have hperm : (rows.mergeSort fun a b => le ascending (key a) (key b)).Perm list :=
    (mergeSort_perm rows _).trans ((perm_ext_iff_of_nodup hrows (nodup_of_pairwise hlist)).mpr hmem)
  have hsort : (rows.mergeSort fun a b => le ascending (key a) (key b)).Pairwise
      fun a b => le ascending (key a) (key b) = true := by
    refine pairwise_mergeSort ?_ ?_ rows
    · exact fun a b c hab hbc => le_trans hab hbc
    · exact fun a b => le_total ascending (key a) (key b)
  refine hperm.eq_of_pairwise ?_ hsort (hlist.imp le_of_lt)
  intro a b ha hb hab hba
  exact key_injective hlist (hperm.mem_iff.mp ha) hb (le_antisymm hab hba)

/-- Where nothing stops, everything is taken; else everything up to the first key that stops. -/
theorem takeThrough_eq_filter (hlist : list.Pairwise fun a b => lt ascending (key a) (key b) = true) {m : Nat}
    (hm : first ascending ((list.filter stop).map key) = some m) :
    takeThrough stop list = list.filter fun a => le ascending (key a) m := by
  induction list with
  | nil => cases ascending <;> cases hm
  | cons x list ih =>
    rw [pairwise_cons] at hlist
    obtain ⟨hmem, hleast⟩ := first_eq_some.mp hm
    rw [takeThrough]
    by_cases hx : stop x = true
    · -- the head is the first to stop
      rw [if_pos hx]
      have hle : le ascending m (key x) = true := by
        refine hleast (key x) (mem_map_of_mem ?_)
        exact mem_filter.mpr ⟨mem_cons_self, hx⟩
      have heq : m = key x := by
        obtain ⟨y, hy, rfl⟩ := mem_map.mp hmem
        rcases mem_cons.mp (mem_filter.mp hy).1 with rfl | hy
        · rfl
        · exact le_antisymm hle (le_of_lt (hlist.1 y hy))
      have hself : le ascending (key x) m = true := by
        rw [heq]
        cases ascending <;> simp [le]
      have hrest : list.filter (fun a => le ascending (key a) m) = [] := by
        rw [filter_eq_nil_iff]
        intro a ha hle'
        rw [heq, le_iff_not_lt, hlist.1 a ha] at hle'
        cases hle'
      rw [filter_cons, if_pos hself, hrest]
    · rw [if_neg hx]
      rw [filter_cons_of_neg hx] at hm
      have hself : le ascending (key x) m = true := by
        obtain ⟨y, hy, rfl⟩ := mem_map.mp (first_eq_some.mp hm).1
        exact le_of_lt (hlist.1 y (mem_filter.mp hy).1)
      rw [filter_cons, if_pos hself, ih hlist.2 hm]

end Shuvpi.SegmentScan
