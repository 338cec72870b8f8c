import Mathlib.Data.List.Nodup

/-!
# Maps in the order of insertion

A `Map` of JavaScript as the list of its entries. Setting a key that is there keeps its
place; a key that was deleted comes back at the end.
-/
open List

namespace Shuvpi

abbrev JsMap (κ α : Type) := List (κ × α)

namespace JsMap

variable {κ α : Type} [DecidableEq κ]

def get (m : JsMap κ α) (key : κ) : Option α := (m.find? fun p => p.1 = key).map Prod.snd

def has (m : JsMap κ α) (key : κ) : Bool := (get m key).isSome

def set : JsMap κ α → κ → α → JsMap κ α
  | [], key, value => [(key, value)]
  | p :: m, key, value => if p.1 = key then (key, value) :: m else p :: set m key value

def delete (m : JsMap κ α) (key : κ) : JsMap κ α := m.filter fun p => p.1 ≠ key

@[simp] theorem get_nil (key : κ) : get ([] : JsMap κ α) key = none := rfl

theorem get_cons (p : κ × α) (m : JsMap κ α) (key : κ) :
    get (p :: m) key = if p.1 = key then some p.2 else get m key := by
  by_cases h : p.1 = key
  · simp [get, h]
  · simp [get, h]

theorem get_set (m : JsMap κ α) (key : κ) (value : α) (k : κ) :
    get (set m key value) k = if key = k then some value else get m k := by
  induction m with
  | nil => simp [set, get_cons]
  | cons p m ih =>
    rw [set]
    split
    · rename_i hp
      rw [get_cons, get_cons, hp]
      by_cases hk : key = k
      · rw [if_pos hk, if_pos hk]
      · rw [if_neg hk, if_neg hk, if_neg hk]
    · rename_i hp
      rw [get_cons, get_cons, ih]
      by_cases hk : key = k
      · rw [if_pos hk, if_neg (fun he => hp (he.trans hk.symm)), if_pos hk]
      · rw [if_neg hk, if_neg hk]

theorem get_delete (m : JsMap κ α) (key k : κ) : get (delete m key) k = if key = k then none else get m k := by
  induction m with
  | nil => simp [delete]
  | cons p m ih =>
    by_cases hp : p.1 = key
    · have hd : delete (p :: m) key = delete m key := by simp [delete, hp]
      rw [hd, ih, get_cons, hp]
      by_cases hk : key = k
      · rw [if_pos hk, if_pos hk]
      · rw [if_neg hk, if_neg hk, if_neg hk]
    · have hd : delete (p :: m) key = p :: delete m key := by simp [delete, hp]
      rw [hd, get_cons, ih, get_cons]
      by_cases hk : key = k
      · rw [if_pos hk, if_neg (fun he => hp (he.trans hk.symm)), if_pos hk]
      · rw [if_neg hk, if_neg hk]

variable {m : JsMap κ α} {key : κ}

theorem get_eq_none : get m key = none ↔ key ∉ m.map Prod.fst := by
  induction m with
  | nil => simp
  | cons p m ih =>
    rw [get_cons, map_cons, mem_cons, not_or, ← ih]
    by_cases h : p.1 = key
    · simp [h]
    · simp [h, Ne.symm h]

theorem has_iff : has m key = true ↔ key ∈ m.map Prod.fst := by
  rw [has, Option.isSome_iff_ne_none, ne_eq, get_eq_none, not_not]

theorem set_of_not_mem (h : key ∉ m.map Prod.fst) (value : α) :
    set m key value = m ++ [(key, value)] := by
  induction m with
  | nil => rfl
  | cons p m ih =>
    rw [map_cons, mem_cons, not_or] at h
    rw [set, if_neg (Ne.symm h.1), ih h.2, cons_append]

variable {value : α}

theorem mem_of_get (h : get m key = some value) : (key, value) ∈ m := by
  induction m with
  | nil => cases h
  | cons p m ih =>
    rw [get_cons] at h
    split at h
    · rename_i hp
      cases h
      exact hp ▸ mem_cons_self
    · exact mem_cons_of_mem _ (ih h)

theorem get_of_mem (hm : (m.map Prod.fst).Nodup) (h : (key, value) ∈ m) :
    get m key = some value := by
  induction m with
  | nil => cases h
  | cons p m ih =>
    rw [map_cons, nodup_cons] at hm
    rw [get_cons]
    rcases mem_cons.mp h with rfl | h
    · exact if_pos rfl
    · have hne : p.1 ≠ key := fun he => hm.1 (he ▸ mem_map_of_mem h)
      rw [if_neg hne]
      exact ih hm.2 h

theorem mem_set {p : κ × α} (h : p ∈ set m key value) :
    p = (key, value) ∨ p ∈ m := by
  induction m with
  | nil => exact .inl (mem_singleton.mp h)
  | cons q m ih =>
    rw [set] at h
    split at h
    · rcases mem_cons.mp h with rfl | h
      · exact .inl rfl
      · exact .inr (.tail _ h)
    · rcases mem_cons.mp h with rfl | h
      · exact .inr (.head _)
      · exact (ih h).imp_right (.tail _)

theorem nodup_set (hm : (m.map Prod.fst).Nodup) (key : κ) (value : α) :
    ((set m key value).map Prod.fst).Nodup := by
  induction m with
  | nil => exact nodup_singleton key
  | cons p m ih =>
    obtain ⟨hnew, hnodup⟩ := nodup_cons.mp hm
    rw [set]
    split
    · rename_i hp
      exact nodup_cons.mpr ⟨hp ▸ hnew, hnodup⟩
    · rename_i hp
      refine nodup_cons.mpr ⟨fun h => ?_, ih hnodup⟩
      obtain ⟨q, hq, hqp⟩ := mem_map.mp h
      rcases mem_set hq with rfl | hq
      · exact hp hqp.symm
      · exact hnew (hqp ▸ mem_map_of_mem hq)

theorem nodup_delete (hm : (m.map Prod.fst).Nodup) (key : κ) : ((delete m key).map Prod.fst).Nodup :=
  hm.sublist (filter_sublist.map Prod.fst)

end JsMap

end Shuvpi
