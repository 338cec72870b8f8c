import Mathlib.Data.List.Basic
import Mathlib.Data.List.Infix

/-!
# Longest suffixes

The longest suffix of a list that satisfies a condition which passes to every part of a list.
What is left out of it does not matter to a longer list, so that it can be computed piece by
piece.
-/
namespace Shuvpi.LongestSuffix

open List

variable {α : Type}

/-- The longest suffix that fits. -/
def longestSuffix (fits : List α → Bool) : List α → List α
  | [] => []
  | a :: l => if fits (a :: l) then a :: l else longestSuffix fits l

/-- Parts of what fits fit, and nothing fits. -/
structure Hereditary (fits : List α → Bool) : Prop where
  nil : fits [] = true
  part : ∀ s l, s <:+: l → fits l = true → fits s = true

variable {fits : List α → Bool}

theorem longestSuffix_suffix (fits : List α → Bool) (l : List α) : longestSuffix fits l <:+ l := by
  induction l with
  | nil => exact suffix_rfl
  | cons a l ih =>
    rw [longestSuffix]
    split
    · exact suffix_rfl
    · exact ih.trans (suffix_cons a l)

theorem longestSuffix_fits (h : Hereditary fits) (l : List α) : fits (longestSuffix fits l) = true := by
  induction l with
  | nil => exact h.nil
  | cons a l ih =>
    rw [longestSuffix]
    split
    · assumption
    · exact ih

theorem longestSuffix_of_fits {l : List α} (hl : fits l = true) : longestSuffix fits l = l := by
  cases l with
  | nil => rfl
  | cons a l => rw [longestSuffix, if_pos hl]

/-- Every suffix that fits is a suffix of the longest one. -/
theorem suffix_longestSuffix {s l : List α} (hs : s <:+ l) (hfits : fits s = true) :
    s <:+ longestSuffix fits l := by
  induction l with
  | nil => exact hs
  | cons a l ih =>
    rw [longestSuffix]
    split
    · exact hs
    · rename_i hnot
      obtain rfl | hs := suffix_cons_iff.mp hs
      · exact absurd hfits hnot
      · exact ih hs

variable (h : Hereditary fits)
include h

/-- A suffix that fits is the longest one when one more element is too much. -/
theorem longestSuffix_eq {front s : List α} (hfits : fits s = true)
    (hmore : ∀ a ∈ front.getLast?, fits (a :: s) = false) : longestSuffix fits (front ++ s) = s := by
  induction front with
  | nil => exact longestSuffix_of_fits hfits
  | cons b front ih =>
    have hnot : ¬fits (b :: (front ++ s)) = true := by
      intro hlong
      rcases eq_nil_or_concat front with rfl | ⟨front, a, rfl⟩
      · rw [nil_append, hmore b rfl] at hlong
        cases hlong
      · rw [concat_eq_append] at hlong hmore
        have hpart : a :: s <:+: b :: ((front ++ [a]) ++ s) := ⟨b :: front, [], by simp⟩
        have hlast : (b :: (front ++ [a])).getLast? = some a := by
          rw [← cons_append, getLast?_concat]
        have hone := h.part _ _ hpart hlong
        rw [hmore a hlast] at hone
        cases hone
    rw [cons_append, longestSuffix, if_neg hnot]
    refine ih fun a ha => hmore a ?_
    cases front with
    | nil => cases ha
    | cons c front => exact ha

/-- What the longest suffix leaves out does not matter to a longer list. -/
theorem longestSuffix_append (l c : List α) :
    longestSuffix fits (longestSuffix fits l ++ c) = longestSuffix fits (l ++ c) := by
  induction l with
  | nil => rfl
  | cons a l ih =>
    rw [longestSuffix]
    split
    · rfl
    · rename_i hnot
      have hwhole : ¬fits (a :: (l ++ c)) = true := fun hlong => hnot (h.part _ _ ⟨[], c, rfl⟩ hlong)
      rw [ih, cons_append, longestSuffix, if_neg hwhole]

/-- Where the later piece does not fit, the earlier one does not matter. -/
theorem longestSuffix_append_right (l : List α) {c : List α}
    (hc : fits c = false) : longestSuffix fits (l ++ c) = longestSuffix fits c := by
  induction l with
  | nil => rfl
  | cons a l ih =>
    have hwhole : ¬fits (a :: (l ++ c)) = true := fun hlong => by
      rw [h.part c _ ⟨a :: l, [], by simp⟩ hlong] at hc
      cases hc
    rw [cons_append, longestSuffix, if_neg hwhole, ih]

end Shuvpi.LongestSuffix
