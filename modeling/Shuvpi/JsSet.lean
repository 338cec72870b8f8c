import Mathlib.Data.List.Basic
import Mathlib.Tactic

/-!
# Sets in insertion order, iterated while they change

A JavaScript `Set` lists its members in the order of insertion, and a `for … of` loop
over it is live: it skips members removed before it reaches them and goes on to
members added meanwhile. Every member carries the stamp of its insertion; a running
loop is the least stamp that it has not passed yet.
-/
namespace Shuvpi

structure JsSet (α : Type) where
  entries : List (Nat × α)
  next : Nat
  sorted : entries.Pairwise fun p q => p.1 < q.1
  bounded : ∀ p ∈ entries, p.1 < next
  nodup : (entries.map Prod.snd).Nodup

namespace JsSet

variable {α : Type}

def empty : JsSet α := ⟨[], 0, List.Pairwise.nil, by simp, by simp⟩

def members (set : JsSet α) : List α := set.entries.map Prod.snd

/-- The entry that a loop standing at `cursor` goes on to. -/
def nextFrom (set : JsSet α) (cursor : Nat) : Option (Nat × α) := set.entries.find? fun p => cursor ≤ p.1

variable [DecidableEq α]

def add (set : JsSet α) (a : α) : JsSet α :=
  if h : a ∈ set.members then set
  else
    { entries := set.entries ++ [(set.next, a)]
      next := set.next + 1
      sorted := by
        rw [List.pairwise_append]
        refine ⟨set.sorted, List.pairwise_singleton _ _, ?_⟩
        intro p hp q hq
        rw [List.mem_singleton] at hq
        rw [hq]
        exact set.bounded p hp
      bounded := by
        intro p hp
        rcases List.mem_append.mp hp with hp | hp
        · exact Nat.lt_succ_of_lt (set.bounded p hp)
        · rw [List.mem_singleton] at hp
          rw [hp]
          exact Nat.lt_succ_self _
      nodup := by
        rw [List.map_append, List.map_singleton]
        exact List.nodup_append.mpr ⟨set.nodup, List.nodup_singleton _, by
          intro x hx y hy he
          rw [List.mem_singleton] at hy
          subst hy he
          exact h hx⟩ }

def delete (set : JsSet α) (a : α) : JsSet α where
  entries := set.entries.filter fun p => p.2 ≠ a
  next := set.next
  sorted := set.sorted.filter _
  bounded := fun p hp => set.bounded p (List.mem_of_mem_filter hp)
  nodup := set.nodup.sublist (List.Sublist.map _ List.filter_sublist)

variable {set : JsSet α}

omit [DecidableEq α] in
theorem nextFrom_none {cursor : Nat} :
    set.nextFrom cursor = none ↔ ∀ p ∈ set.entries, p.1 < cursor := by
  simp [nextFrom, List.find?_eq_none]

variable {p : Nat × α}

omit [DecidableEq α] in
theorem nextFrom_some {cursor : Nat} (h : set.nextFrom cursor = some p) :
    p ∈ set.entries ∧ cursor ≤ p.1 ∧ ∀ q ∈ set.entries, cursor ≤ q.1 → p.1 ≤ q.1 := by
  rw [nextFrom, List.find?_eq_some_iff_append] at h
  obtain ⟨hp, before, after, he, hbef⟩ := h
  refine ⟨by rw [he]; simp, by simpa using hp, ?_⟩
  intro q hq hc
  rw [he] at hq
  rcases List.mem_append.mp hq with hq | hq
  · have := hbef q hq
    simp at this
    omega
  · rcases List.mem_cons.mp hq with rfl | hq
    · exact Nat.le_refl _
    · have hs := set.sorted
      rw [he, List.pairwise_append] at hs
      exact Nat.le_of_lt ((List.pairwise_cons.mp hs.2.1).1 q hq)

omit [DecidableEq α] in
/-- A member has one entry. -/
theorem entry_unique {p q : Nat × α} (hp : p ∈ set.entries) (hq : q ∈ set.entries)
    (h : p.2 = q.2) : p = q :=
  List.inj_on_of_nodup_map set.nodup hp hq h

omit [DecidableEq α] in
/-- Stamps are given out once. -/
theorem stamp_unique {p q : Nat × α} (hp : p ∈ set.entries) (hq : q ∈ set.entries)
    (h : p.1 = q.1) : p = q := by
  obtain ⟨i, hi, rfl⟩ := List.mem_iff_getElem.mp hp
  obtain ⟨j, hj, rfl⟩ := List.mem_iff_getElem.mp hq
  have hs := List.pairwise_iff_getElem.mp set.sorted
  rcases Nat.lt_trichotomy i j with hij | rfl | hij
  · have := hs i j hi hj hij
    omega
  · rfl
  · have := hs j i hj hi hij
    omega

theorem mem_add {a : α} (h : p ∈ (set.add a).entries) :
    p ∈ set.entries ∨ p = (set.next, a) := by
  rw [add] at h
  split at h
  · exact .inl h
  · simpa using h

theorem mem_delete {a : α} :
    p ∈ (set.delete a).entries ↔ p ∈ set.entries ∧ p.2 ≠ a := by
  simp [delete]

theorem add_mem (set : JsSet α) (a : α) : ∃ stamp, (stamp, a) ∈ (set.add a).entries := by
  rw [add]
  split
  · rename_i h
    obtain ⟨p, hp, rfl⟩ := List.mem_map.mp h
    exact ⟨p.1, hp⟩
  · exact ⟨set.next, by simp⟩

theorem subset_add (set : JsSet α) (a : α) : ∀ p ∈ set.entries, p ∈ (set.add a).entries := by
  intro p hp
  rw [add]
  split
  · exact hp
  · simp [hp]

end JsSet
end Shuvpi
