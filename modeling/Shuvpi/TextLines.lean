import Mathlib.Data.List.Infix
import Mathlib.Tactic.Common

/-!
# Lines

The lines of a text over any alphabet, the last of which need not be ended by the separator.
-/
namespace Shuvpi.TextLines

open List

variable {α : Type} [DecidableEq α]

def lines (sep : α) : List α → List (List α)
  | [] => []
  | a :: l =>
    if a = sep then [] :: lines sep l
    else match lines sep l with
      | [] => [[a]]
      | line :: rest => (a :: line) :: rest

/-- The text without the separator that ends its last line. -/
def body (sep : α) (l : List α) : List α := if l.getLast? = some sep then l.dropLast else l

variable {sep : α}

@[simp] theorem lines_nil : lines sep [] = [] := rfl

@[simp] theorem lines_sep (l : List α) : lines sep (sep :: l) = [] :: lines sep l := by
  rw [lines, if_pos rfl]

theorem lines_cons {l line : List α} {rest : List (List α)} {a : α} (ha : a ≠ sep) (h : lines sep l = line :: rest) :
    lines sep (a :: l) = (a :: line) :: rest := by
  rw [lines, if_neg ha, h]

theorem lines_last {l : List α} {a : α} (ha : a ≠ sep) (h : lines sep l = []) : lines sep (a :: l) = [[a]] := by
  rw [lines, if_neg ha, h]

@[simp] theorem lines_eq_nil {l : List α} : lines sep l = [] ↔ l = [] := by
  cases l with
  | nil => simp
  | cons a l =>
    rw [lines]
    split
    · simp
    · split <;> simp

theorem not_mem_line {l line : List α} (h : line ∈ lines sep l) : sep ∉ line := by
  induction l generalizing line with
  | nil => cases h
  | cons a l ih =>
    by_cases ha : a = sep
    · subst ha
      rw [lines_sep, mem_cons] at h
      rcases h with rfl | h
      · exact not_mem_nil
      · exact ih h
    · cases hl : lines sep l with
      | nil =>
        rw [lines_last ha hl, mem_singleton] at h
        rw [h, mem_singleton]
        exact Ne.symm ha
      | cons first rest =>
        rw [lines_cons ha hl, mem_cons] at h
        rw [hl] at ih
        rcases h with rfl | h
        · rw [mem_cons, not_or]
          exact ⟨Ne.symm ha, ih mem_cons_self⟩
        · exact ih (mem_cons_of_mem _ h)

/-- A text cut just after a separator. -/
theorem lines_append_sep (x y : List α) : lines sep (x ++ sep :: y) = lines sep (x ++ [sep]) ++ lines sep y := by
  induction x with
  | nil => simp
  | cons a x ih =>
    by_cases ha : a = sep
    · subst ha
      rw [cons_append, lines_sep, ih, cons_append, lines_sep, cons_append]
    · cases hl : lines sep (x ++ [sep]) with
      | nil => simp at hl
      | cons first rest =>
        rw [cons_append, cons_append, lines_cons ha hl]
        rw [hl, cons_append] at ih
        rw [lines_cons ha ih, cons_append]

theorem lines_of_not_mem {x : List α} (hne : x ≠ []) (h : sep ∉ x) : lines sep x = [x] := by
  induction x with
  | nil => exact absurd rfl hne
  | cons a x ih =>
    rw [mem_cons, not_or] at h
    obtain ⟨ha, hx⟩ := h
    cases x with
    | nil => exact lines_last (Ne.symm ha) rfl
    | cons b x => exact lines_cons (Ne.symm ha) (ih (by simp) hx)

theorem lines_line {x : List α} (h : sep ∉ x) : lines sep (x ++ [sep]) = [x] := by
  induction x with
  | nil => simp
  | cons a x ih =>
    rw [mem_cons, not_or] at h
    obtain ⟨ha, hx⟩ := h
    exact lines_cons (Ne.symm ha) (ih hx)

/-- The separators of a text that is ended cut it into its lines. -/
theorem lines_concat_sep (x : List α) : lines sep (x ++ [sep]) = x.splitOn sep := by
  induction x with
  | nil => simp
  | cons a x ih =>
    rw [splitOn_cons_eq_if_modifyHead, ← ih]
    by_cases ha : a = sep
    · rw [if_pos (by simpa using ha), ha, cons_append, lines_sep]
    · rw [if_neg (by simpa using ha)]
      cases hl : lines sep (x ++ [sep]) with
      | nil => simp at hl
      | cons line rest => exact lines_cons ha hl

theorem lines_eq_splitOn {l : List α} (hne : l ≠ []) (hlast : l.getLast? ≠ some sep) :
    lines sep l = l.splitOn sep := by
  induction l with
  | nil => exact absurd rfl hne
  | cons a l ih =>
    rw [splitOn_cons_eq_if_modifyHead]
    cases l with
    | nil =>
      have ha : a ≠ sep := fun h => hlast (by rw [h]; rfl)
      rw [lines_last ha rfl, if_neg (by simpa using ha)]
      rfl
    | cons b l =>
      rw [← ih (by simp) hlast]
      by_cases ha : a = sep
      · rw [if_pos (by simpa using ha), ha, lines_sep]
      · rw [if_neg (by simpa using ha)]
        cases hl : lines sep (b :: l) with
        | nil => simp at hl
        | cons line rest => exact lines_cons ha hl

theorem body_cons {l : List α} (a : α) (h : l ≠ []) : body sep (a :: l) = a :: body sep l := by
  obtain ⟨b, l, rfl⟩ := exists_cons_of_ne_nil h
  rw [body, body, getLast?_cons_cons, dropLast_cons_cons]
  split <;> rfl

/-- The lines, joined. -/
theorem intercalate_lines {l : List α} : [sep].intercalate (lines sep l) = body sep l := by
  induction l with
  | nil => simp [body]
  | cons a l ih =>
    rcases eq_or_ne l [] with rfl | hl
    · by_cases ha : a = sep
      · simp [ha, body]
      · rw [lines_last ha rfl, intercalate_singleton, body, if_neg (by simpa using ha)]
    · rw [body_cons a hl]
      cases hlines : lines sep l with
      | nil => exact absurd (lines_eq_nil.mp hlines) hl
      | cons line rest =>
        rw [hlines] at ih
        by_cases ha : a = sep
        · subst ha
          rw [lines_sep, hlines, intercalate_cons_cons, ih]
          rfl
        · rw [lines_cons ha hlines, intercalate_cons_cons_left, ih]

/-- The number of lines. -/
theorem length_lines {l : List α} :
    (lines sep l).length = l.count sep + if l = [] ∨ l.getLast? = some sep then 0 else 1 := by
  induction l with
  | nil => simp
  | cons a l ih =>
    by_cases ha : a = sep
    · subst ha
      rw [lines_sep, length_cons, ih, count_cons_self]
      cases l with
      | nil => simp
      | cons b l =>
        rw [getLast?_cons_cons]
        simp only [reduceCtorEq, false_or]
        omega
    · rw [count_cons_of_ne ha]
      cases l with
      | nil =>
        rw [lines_last ha rfl]
        simp [ha]
      | cons b l =>
        cases hl : lines sep (b :: l) with
        | nil => simp at hl
        | cons line rest =>
          rw [hl] at ih
          rw [lines_cons ha hl, getLast?_cons_cons]
          simpa using ih

/-- There is one separator between any two lines. -/
theorem count_intercalate {ls : List (List α)} (h : ∀ line ∈ ls, sep ∉ line) :
    ([sep].intercalate ls).count sep = ls.length - 1 := by
  induction ls with
  | nil => rfl
  | cons line ls ih =>
    have hline := count_eq_zero.mpr (h line mem_cons_self)
    cases ls with
    | nil =>
      rw [intercalate_singleton]
      exact hline
    | cons line' ls =>
      have hrest := ih fun l hl => h l (mem_cons_of_mem _ hl)
      rw [intercalate_cons_cons, count_append, count_append, hline, hrest]
      simp
      omega

/-- Text without a separator joins the first line. -/
theorem lines_prepend {x l line : List α} {rest : List (List α)} (hx : sep ∉ x)
    (h : lines sep l = line :: rest) : lines sep (x ++ l) = (x ++ line) :: rest := by
  induction x with
  | nil => exact h
  | cons a x ih =>
    rw [mem_cons, not_or] at hx
    exact lines_cons (Ne.symm hx.1) (ih hx.2)

/-- A text is its ended lines and the beginning of one more. -/
theorem ended_lines (sep : α) (a : List α) : ∃ ended cut, a = ended ++ cut ∧
    (ended = [] ∨ ended.getLast? = some sep) ∧ sep ∉ cut := by
  induction a with
  | nil => exact ⟨[], [], rfl, .inl rfl, not_mem_nil⟩
  | cons c a ih =>
    obtain ⟨ended, cut, rfl, hended, hcut⟩ := ih
    rcases hended with rfl | hended
    · by_cases hc : c = sep
      · exact ⟨[c], cut, rfl, .inr (by rw [hc]; rfl), hcut⟩
      · refine ⟨[], c :: cut, rfl, .inl rfl, ?_⟩
        rw [mem_cons, not_or]
        exact ⟨Ne.symm hc, hcut⟩
    · refine ⟨c :: ended, cut, rfl, .inr ?_, hcut⟩
      rw [getLast?_cons, hended]
      rfl

theorem lines_ended {x : List α} (h : x = [] ∨ x.getLast? = some sep) (y : List α) :
    lines sep (x ++ y) = lines sep x ++ lines sep y := by
  rcases h with rfl | h
  · rfl
  · rw [← dropLast_append_getLast? sep h, append_assoc]
    exact lines_append_sep _ y

/-- The lines of a last part of a text: all but its first line are lines of the text. -/
theorem lines_window (sep : α) (a : List α) {b : List α} (hb : b ≠ []) : ∃ ended cut first rest, a = ended ++ cut ∧
    (ended = [] ∨ ended.getLast? = some sep) ∧ lines sep (a ++ b) = lines sep ended ++ (cut ++ first) :: rest ∧
      lines sep b = first :: rest := by
  obtain ⟨ended, cut, rfl, hended, hcut⟩ := ended_lines sep a
  obtain ⟨first, rest, hlines⟩ := exists_cons_of_ne_nil (fun h => hb (lines_eq_nil.mp h))
  refine ⟨ended, cut, first, rest, rfl, hended, ?_, hlines⟩
  rw [append_assoc, lines_ended hended, lines_prepend hcut hlines]

end Shuvpi.TextLines
