import Mathlib.Data.List.Basic
import Mathlib.Data.List.Infix

/-!
# First occurrences

Where a list occurs in another one for the first time, as `indexOf` of strings finds it.
-/
namespace Shuvpi.Occurrence

variable {α : Type} [DecidableEq α]

/-- The least position at which the needle starts. -/
def indexOf? (needle : List α) : List α → Option Nat
  | [] => if needle = [] then some 0 else none
  | a :: l => if needle.isPrefixOf (a :: l) then some 0 else (indexOf? needle l).map (· + 1)

variable {needle : List α}

variable {l : List α}

theorem indexOf?_here (h : needle <+: l) : indexOf? needle l = some 0 := by
  cases l with
  | nil => rw [indexOf?, if_pos (List.prefix_nil.mp h)]
  | cons a l => rw [indexOf?, if_pos (List.isPrefixOf_iff_prefix.mpr h)]

theorem indexOf?_later {a : α} (h : ¬ needle <+: a :: l) :
    indexOf? needle (a :: l) = (indexOf? needle l).map (· + 1) := by
  rw [indexOf?, if_neg (fun hp => h (List.isPrefixOf_iff_prefix.mp hp))]

/-- Text in which the needle does not start only shifts the position. -/
theorem indexOf?_append {before rest : List α}
    (h : ∀ k, k < before.length → ¬ needle <+: (before ++ rest).drop k) :
    indexOf? needle (before ++ rest) = (indexOf? needle rest).map (· + before.length) := by
  induction before with
  | nil => simp
  | cons a before ih =>
    have h0 : ¬ needle <+: a :: (before ++ rest) := h 0 (by simp)
    have hrest := ih fun k hk => h (k + 1) (by simpa using hk)
    rw [List.cons_append, indexOf?_later h0, hrest, Option.map_map]
    rfl

/-- The needle stands where it is found, and the text before it is what is skipped. -/
theorem indexOf?_some {i : Nat} (h : indexOf? needle l = some i) :
    l = l.take i ++ (needle ++ l.drop (i + needle.length)) ∧ (l.take i).length = i := by
  induction l generalizing i with
  | nil =>
    rw [indexOf?] at h
    split at h
    · rename_i hn
      cases h
      simp [hn]
    · cases h
  | cons a l ih =>
    by_cases hp : needle <+: a :: l
    · rw [indexOf?_here hp, Option.some.injEq] at h
      subst h
      obtain ⟨rest, hrest⟩ := hp
      rw [← hrest]
      simp
    · rw [indexOf?_later hp, Option.map_eq_some_iff] at h
      obtain ⟨j, hj, rfl⟩ := h
      obtain ⟨hl, hlen⟩ := ih hj
      refine ⟨?_, by simp [hlen]⟩
      calc a :: l = a :: (l.take j ++ (needle ++ l.drop (j + needle.length))) := by rw [← hl]
        _ = _ := by simp [Nat.add_right_comm]

/-- A needle that starts nowhere is not found. -/
theorem indexOf?_none (hn : needle ≠ []) (h : ∀ k, k < l.length → ¬ needle <+: l.drop k) :
    indexOf? needle l = none := by
  induction l with
  | nil => rw [indexOf?, if_neg hn]
  | cons a l ih =>
    have hrest := ih fun k hk => h (k + 1) (by simpa using hk)
    rw [indexOf?_later (h 0 (by simp)), hrest]
    rfl

/-- A needle whose first element does not recur never straddles the beginning of a copy of
itself. -/
theorem prefix_of_straddle {a : α} {tail d rest : List α} (hrecur : a ∉ tail) (hd : d ≠ [])
    (h : a :: tail <+: d ++ a :: rest) : a :: tail <+: d := by
  by_contra hnot
  have hlt : d.length < tail.length + 1 := by
    by_contra hle
    exact hnot (List.prefix_of_prefix_length_le h (List.prefix_append d _) (by simpa using hle))
  have hat := h.getElem (i := d.length) (by simpa using hlt)
  rw [List.getElem_append_right le_rfl] at hat
  obtain ⟨m, hm⟩ : ∃ m, d.length = m + 1 := ⟨d.length - 1, by have := List.length_pos_of_ne_nil hd; omega⟩
  simp only [hm, List.getElem_cons_succ, Nat.sub_self, List.getElem_cons_zero] at hat
  exact hrecur (hat ▸ List.getElem_mem _)

end Shuvpi.Occurrence
