import Mathlib.Data.List.Nodup

/-!
# Maps of rows

A map from ids to rows that carry their own id, as the list of its values in the order of
insertion. Setting a row that is there keeps its place.
-/
namespace Shuvpi.RowMap

open List

variable {α : Type} (key : α → Nat)

def get (rows : List α) (id : Nat) : Option α := rows.find? fun r => key r = id

def set : List α → α → List α
  | [], row => [row]
  | r :: rows, row => if key r = key row then row :: rows else r :: set rows row

def delete (rows : List α) (id : Nat) : List α := rows.filter fun r => key r ≠ id

/-- No two rows have the same id. -/
def Distinct (rows : List α) : Prop := (rows.map key).Nodup

theorem get_key {rows : List α} {id : Nat} {row : α} (h : get key rows id = some row) : key row = id := by
  simpa using find?_some h

variable (rows : List α)

theorem get_set (row : α) (id : Nat) :
    get key (set key rows row) id = if id = key row then some row else get key rows id := by
  induction rows with
  | nil =>
    by_cases h : id = key row
    · simp [get, set, h]
    · simp [get, set, h, Ne.symm h]
  | cons r rows ih =>
    unfold set
    split
    · rename_i hr
      by_cases h : id = key row
      · simp [get, h]
      · simp [get, h, hr, Ne.symm h]
    · rename_i hr
      by_cases h : key r = id
      · subst h
        simp [get, hr]
      · simp only [get, find?_cons, h, decide_false] at ih ⊢
        exact ih

theorem get_delete (d id : Nat) :
    get key (delete key rows d) id = if id = d then none else get key rows id := by
  unfold get delete
  rw [find?_filter]
  by_cases h : id = d
  · subst h
    simp
  · rw [if_neg h]
    congr 1
    funext r
    by_cases hr : key r = id
    · simp [hr, h]
    · simp [hr]

theorem set_keys (row : α) :
    (set key rows row).map key = if key row ∈ rows.map key then rows.map key else rows.map key ++ [key row] := by
  induction rows with
  | nil => simp [set]
  | cons r rows ih =>
    unfold set
    split
    · rename_i hr
      simp [hr]
    · rename_i hr
      rw [map_cons, ih, map_cons]
      by_cases h : key row ∈ rows.map key
      · rw [if_pos h, if_pos (mem_cons_of_mem _ h)]
      · have hnot : key row ∉ key r :: rows.map key := by
          rw [mem_cons, not_or]
          exact ⟨Ne.symm hr, h⟩
        rw [if_neg h, if_neg hnot, cons_append]

theorem Distinct.set {rows : List α} (h : Distinct key rows) (row : α) : Distinct key (set key rows row) := by
  unfold Distinct at *
  rw [set_keys]
  split
  · exact h
  · rename_i hnot
    refine nodup_append.mpr ⟨h, nodup_singleton _, fun a ha b hb => ?_⟩
    rw [mem_singleton.mp hb]
    exact fun heq => hnot (heq ▸ ha)

theorem mem_iff_get {rows : List α} (h : Distinct key rows) {row : α} : row ∈ rows ↔ get key rows (key row) = some row := by
  constructor
  · intro hmem
    cases hget : get key rows (key row) with
    | none => simpa using find?_eq_none.mp hget row hmem
    | some other =>
      exact congrArg some (inj_on_of_nodup_map h (mem_of_find?_eq_some hget) hmem (get_key key hget))
  · exact fun hget => mem_of_find?_eq_some hget

end Shuvpi.RowMap
