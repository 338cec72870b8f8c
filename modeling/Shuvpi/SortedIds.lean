import Mathlib.Data.List.Sort
import Mathlib.Tactic

/-!
# Sorted lists by bisection

The helpers with which a list of identifiers is kept strictly ascending: the two bounds
by bisection, insertion and removal. On such a list each is the obvious thing.
-/
namespace Shuvpi.SortedIds

open List

variable {α : Type}

/-- The loop of both bounds, for at most `fuel` rounds. -/
def bisect (below : α → Bool) (ids : List α) : Nat → Nat → Nat → Nat
  | 0, low, _ => low
  | fuel + 1, low, high =>
    if low < high then
      let middle := (low + high) / 2
      if ids[middle]?.any below then bisect below ids fuel (middle + 1) high
      else bisect below ids fuel low middle
    else low

section Order
variable [LinearOrder α]

def lowerBound (ids : List α) (target : α) : Nat := bisect (· < target) ids ids.length 0 ids.length

def upperBound (ids : List α) (target : α) : Nat := bisect (· ≤ target) ids ids.length 0 ids.length

def insertSorted (ids : List α) (id : α) : List α :=
  if ids.getLast?.all (· < id) then ids ++ [id]
  else ids.take (lowerBound ids id) ++ id :: ids.drop (lowerBound ids id)

def removeSorted (ids : List α) (id : α) : List α :=
  if ids[lowerBound ids id]? = some id then ids.eraseIdx (lowerBound ids id) else ids

end Order

/-! ## The bounds -/

section Bisect
variable {below : α → Bool} {ids : List α}

variable (h : ids.Pairwise fun a b => below b = true → below a = true)
include h

/-- In a list that is cut in two by `below`, an index says on which side its element is. -/
theorem below_getElem (i : Nat)
    (hi : i < ids.length) : below ids[i] = true ↔ i < (ids.takeWhile below).length := by
  induction ids generalizing i with
  | nil => simp at hi
  | cons a ids ih =>
    obtain ⟨ha, hrest⟩ := pairwise_cons.mp h
    cases hb : below a with
    | true =>
      rw [takeWhile_cons_of_pos hb, length_cons]
      cases i with
      | zero => simp [hb]
      | succ i =>
        rw [getElem_cons_succ, ih hrest i (by simpa using hi)]
        omega
    | false =>
      rw [takeWhile_cons_of_neg (by simp [hb])]
      have hnone : below (a :: ids)[i] ≠ true := fun hi' => by
        rcases mem_cons.mp (getElem_mem hi) with heq | hmem
        · rw [heq, hb] at hi'
          cases hi'
        · rw [ha _ hmem hi'] at hb
          cases hb
      simpa using hnone

theorem bisect_eq (fuel low high : Nat)
    (hlow : low ≤ (ids.takeWhile below).length) (hhigh : (ids.takeWhile below).length ≤ high)
    (hlen : high ≤ ids.length) (hfuel : high - low ≤ fuel) :
    bisect below ids fuel low high = (ids.takeWhile below).length := by
  induction fuel generalizing low high with
  | zero =>
    rw [bisect]
    omega
  | succ fuel ih =>
    rw [bisect]
    split
    · rename_i hlt
      have hmiddle : (low + high) / 2 < ids.length := by omega
      have hside := below_getElem h ((low + high) / 2) hmiddle
      dsimp only
      rw [getElem?_eq_getElem hmiddle, Option.any_some]
      split
      · rename_i hb
        have := hside.mp hb
        exact ih _ _ (by omega) hhigh hlen (by omega)
      · rename_i hb
        have := mt hside.mpr hb
        exact ih _ _ hlow (by omega) (by omega) (by omega)
    · omega

end Bisect

section Order
variable [LinearOrder α]

variable {ids : List α} (h : ids.Pairwise (· < ·))
include h

variable (target : α)

theorem lt_below : ids.Pairwise fun a b => decide (b < target) = true → decide (a < target) = true :=
  h.imp fun hab hb => decide_eq_true (hab.trans (of_decide_eq_true hb))

theorem le_below : ids.Pairwise fun a b => decide (b ≤ target) = true → decide (a ≤ target) = true :=
  h.imp fun hab hb => decide_eq_true (hab.le.trans (of_decide_eq_true hb))

theorem lowerBound_eq :
    lowerBound ids target = (ids.takeWhile (· < target)).length := by
  exact bisect_eq (lt_below h target) _ _ _ (Nat.zero_le _)
    (takeWhile_sublist _).length_le le_rfl (by simp)

theorem upperBound_eq :
    upperBound ids target = (ids.takeWhile (· ≤ target)).length := by
  exact bisect_eq (le_below h target) _ _ _ (Nat.zero_le _)
    (takeWhile_sublist _).length_le le_rfl (by simp)

omit h

omit [LinearOrder α] in
/-- A list that is cut in two by `below`, up to the cut and from it on. -/
theorem takeWhile_eq_filter {below : α → Bool} (h : ids.Pairwise fun a b => below b = true → below a = true) :
    ids.takeWhile below = ids.filter below ∧ ids.dropWhile below = ids.filter (!below ·) := by
  induction ids with
  | nil => exact ⟨rfl, rfl⟩
  | cons a ids ih =>
    obtain ⟨ha, hrest⟩ := pairwise_cons.mp h
    obtain ⟨htake, hdrop⟩ := ih hrest
    cases hb : below a with
    | true =>
      rw [takeWhile_cons_of_pos hb, dropWhile_cons_of_pos hb, filter_cons_of_pos hb,
        filter_cons_of_neg (by simp [hb]), htake, hdrop]
      exact ⟨rfl, rfl⟩
    | false =>
      have hall : ∀ b ∈ ids, below b = false := fun b hmem => by
        cases hb' : below b with
        | false => rfl
        | true => rw [ha b hmem hb'] at hb; cases hb
      rw [takeWhile_cons_of_neg (by simp [hb]), dropWhile_cons_of_neg (by simp [hb]),
        filter_cons_of_neg (by simp [hb]), filter_cons_of_pos (by simp [hb]),
        filter_eq_nil_iff.mpr (by simpa using hall),
        filter_eq_self.mpr (by simpa using hall)]
      exact ⟨rfl, rfl⟩

omit [LinearOrder α] in
theorem take_length_takeWhile (ids : List α) (below : α → Bool) :
    ids.take (ids.takeWhile below).length = ids.takeWhile below :=
  (prefix_iff_eq_take.mp (List.takeWhile_prefix below)).symm

omit [LinearOrder α] in
theorem drop_length_takeWhile (ids : List α) (below : α → Bool) :
    ids.drop (ids.takeWhile below).length = ids.dropWhile below := by
  have hcut := take_append_drop (ids.takeWhile below).length ids
  rw [take_length_takeWhile] at hcut
  exact append_cancel_left (hcut.trans takeWhile_append_dropWhile.symm)

theorem take_upperBound (h : ids.Pairwise (· < ·)) (target : α) :
    ids.take (upperBound ids target) = ids.filter (· ≤ target) := by
  rw [upperBound_eq h, take_length_takeWhile, (takeWhile_eq_filter (le_below h target)).1]

/-! ## Insertion and removal -/

variable {id : α} (h : ids.Pairwise (· < ·))
include h

theorem insertSorted_eq (hnew : id ∉ ids) :
    insertSorted ids id = ids.filter (· < id) ++ id :: ids.filter (id < ·) := by
  have hdrop : ids.dropWhile (· < id) = ids.filter (id < ·) := by
    rw [(takeWhile_eq_filter (lt_below h id)).2]
    refine filter_congr fun a ha => ?_
    have hne : a ≠ id := fun heq => hnew (heq ▸ ha)
    by_cases hlt : id < a
    · simp [hlt, hlt.le]
    · simp [hlt, lt_of_le_of_ne (not_lt.mp hlt) hne]
  unfold insertSorted
  split
  · rename_i hlast
    have hall : ∀ a ∈ ids, a < id := fun a ha => by
      obtain ⟨front, hfront⟩ := getLast?_eq_some_iff.mp
        (getLast?_eq_getLast_of_ne_nil (ne_nil_of_mem ha))
      rw [getLast?_eq_getLast_of_ne_nil (ne_nil_of_mem ha)] at hlast
      have hlt : ids.getLast (ne_nil_of_mem ha) < id := of_decide_eq_true hlast
      rw [hfront] at h ha
      rcases mem_append.mp ha with ha | ha
      · exact ((pairwise_append.mp h).2.2 a ha _ (mem_singleton.mpr rfl)).trans hlt
      · exact (mem_singleton.mp ha) ▸ hlt
    rw [filter_eq_self.mpr (by simpa using hall), filter_eq_nil_iff.mpr (by simpa using fun a ha => (hall a ha).le)]
  · rw [lowerBound_eq h, take_length_takeWhile, drop_length_takeWhile, hdrop, (takeWhile_eq_filter (lt_below h id)).1]

theorem mem_insertSorted (hnew : id ∉ ids) (a : α) :
    a ∈ insertSorted ids id ↔ a = id ∨ a ∈ ids := by
  rw [insertSorted_eq h hnew]
  simp only [mem_append, mem_cons, mem_filter, decide_eq_true_eq]
  constructor
  · rintro (⟨ha, -⟩ | rfl | ⟨ha, -⟩)
    · exact .inr ha
    · exact .inl rfl
    · exact .inr ha
  · rintro (rfl | ha)
    · exact .inr (.inl rfl)
    · rcases lt_trichotomy a id with hlt | rfl | hlt
      · exact .inl ⟨ha, hlt⟩
      · exact .inr (.inl rfl)
      · exact .inr (.inr ⟨ha, hlt⟩)

theorem insertSorted_sorted (hnew : id ∉ ids) :
    (insertSorted ids id).Pairwise (· < ·) := by
  rw [insertSorted_eq h hnew]
  refine pairwise_append.mpr ⟨h.filter _, pairwise_cons.mpr ⟨?_, h.filter _⟩, ?_⟩
  · intro a ha
    exact of_decide_eq_true (mem_filter.mp ha).2
  · intro a ha b hb
    have hlt : a < id := of_decide_eq_true (mem_filter.mp ha).2
    rcases mem_cons.mp hb with rfl | hb
    · exact hlt
    · exact hlt.trans (of_decide_eq_true (mem_filter.mp hb).2)

theorem removeSorted_eq (id : α) : removeSorted ids id = ids.filter (· ≠ id) := by
  have htake := (takeWhile_eq_filter (lt_below h id)).1
  have hdrop := (takeWhile_eq_filter (lt_below h id)).2
  have hsplit : ids = ids.takeWhile (· < id) ++ ids.dropWhile (· < id) := takeWhile_append_dropWhile.symm
  have hat : ids[lowerBound ids id]? = (ids.dropWhile (· < id)).head? := by
    rw [lowerBound_eq h, ← drop_length_takeWhile, head?_drop]
  have hbef : (ids.takeWhile (· < id)).filter (· ≠ id) = ids.takeWhile (· < id) := by
    refine filter_eq_self.mpr fun a ha => ?_
    rw [htake] at ha
    have hlt : a < id := of_decide_eq_true (mem_filter.mp ha).2
    simpa using hlt.ne
  have hsort : (ids.dropWhile (· < id)).Pairwise (· < ·) := h.sublist (dropWhile_sublist _)
  unfold removeSorted
  rw [hat, lowerBound_eq h]
  cases hd : ids.dropWhile (· < id) with
  | nil =>
    rw [hd, append_nil] at hsplit
    rw [head?_nil, if_neg (by simp)]
    rw [← hsplit] at hbef
    exact hbef.symm
  | cons a rest =>
    have hge : id ≤ a := by
      have hmem : a ∈ ids.dropWhile (· < id) := hd ▸ .head _
      rw [hdrop] at hmem
      simpa using (mem_filter.mp hmem).2
    have hafter : rest.filter (· ≠ id) = rest := by
      refine filter_eq_self.mpr fun b hb => ?_
      rw [hd] at hsort
      have hlt : a < b := (pairwise_cons.mp hsort).1 b hb
      simpa using (hge.trans_lt hlt).ne'
    rw [head?_cons]
    rw [hd] at hsplit
    have hrhs : ids.filter (· ≠ id) =
        ids.takeWhile (· < id) ++ (a :: rest).filter (· ≠ id) := by
      conv_lhs => rw [hsplit]
      rw [filter_append, hbef]
    rw [hrhs]
    split
    · rename_i heq
      obtain rfl := Option.some.inj heq
      rw [filter_cons_of_neg (by simp), hafter, eraseIdx_eq_take_drop_succ,
        take_length_takeWhile, ← drop_drop, drop_length_takeWhile, hd]
      rfl
    · rename_i hne
      have hne' : a ≠ id := fun heq => hne (congrArg some heq)
      rw [filter_cons_of_pos (by simpa using hne'), hafter]
      exact hsplit

/-! ## Lists that hold just the ids of a kind -/

omit h

/-- The ids that satisfy `p`, in ascending order. -/
structure Lists (ids : List α) (p : α → Prop) : Prop where
  sorted : ids.Pairwise (· < ·)
  mem : ∀ a, a ∈ ids ↔ p a

variable {p : α → Prop}

theorem Lists.nil (h : ∀ a, ¬p a) : Lists [] p := ⟨.nil, fun a => by simpa using h a⟩

theorem Lists.congr {q : α → Prop} (h : Lists ids p) (hpq : ∀ a, p a ↔ q a) : Lists ids q :=
  ⟨h.sorted, fun a => (h.mem a).trans (hpq a)⟩

theorem Lists.insert (h : Lists ids p) (hnew : ¬p id) :
    Lists (insertSorted ids id) fun a => a = id ∨ p a := by
  have hout : id ∉ ids := fun hmem => hnew ((h.mem id).mp hmem)
  refine ⟨insertSorted_sorted h.sorted hout, fun a => ?_⟩
  rw [mem_insertSorted h.sorted hout, h.mem]

theorem Lists.remove (h : Lists ids p) (id : α) : Lists (removeSorted ids id) fun a => a ≠ id ∧ p a := by
  rw [removeSorted_eq h.sorted]
  refine ⟨h.sorted.filter _, fun a => ?_⟩
  rw [mem_filter, h.mem, decide_eq_true_eq]
  exact and_comm

end Order

end Shuvpi.SortedIds
