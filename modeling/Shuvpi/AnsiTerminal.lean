import Mathlib.Logic.Function.Basic
import Mathlib.Tactic

/-!
# Terminals as windows on a list of lines

A terminal is a grid of rows with a cursor. `On` reads it as a window on lines without end: the
line its first row shows, the line the cursor stands on and what the lines hold. Each output has
one rule that says how this reading changes.
-/
open List hiding cons erase max nil
open Function

namespace Shuvpi

/-- Settings of a terminal, which change neither its rows nor the place of the cursor. -/
inductive TerminalMode where
  | beginSynchronized | endSynchronized | clearScrollback | showCursor | hideCursor
  deriving DecidableEq, Repr

/-- What is sent to a terminal. -/
inductive TerminalOutput (τ : Type) where
  | text (s : τ)
  | carriageReturn
  | lineFeed
  | up (n : Nat)
  | down (n : Nat)
  | column (n : Nat)
  | eraseLine
  | clearScreen
  | home
  | mode (m : TerminalMode)
  deriving DecidableEq, Repr

structure Terminal (τ : Type) where
  columns : Nat
  rows : Nat
  row : Nat → Option τ
  cursorRow : Nat
  cursorCol : Nat

/-- How wide texts are, and what a row shows when one is drawn over what it shows already. -/
structure Display (τ : Type) where
  width : τ → Nat
  overlay : Option τ → Nat → τ → τ

variable {τ : Type} (d : Display τ)

def Display.draw : Option τ → Nat → τ → Option τ
  | none, 0, s => some s
  | row, col, s => some (d.overlay row col s)

namespace Terminal

/-- Moves stop at the edges, and a move by nothing is one by one. A text is not wider than what
is left of its row. -/
def apply (t : Terminal τ) : TerminalOutput τ → Terminal τ
  | .text s =>
    { t with
      row := Function.update t.row t.cursorRow (d.draw (t.row t.cursorRow) t.cursorCol s)
      cursorCol := min (t.columns - 1) (t.cursorCol + d.width s) }
  | .carriageReturn => { t with cursorCol := 0 }
  | .lineFeed =>
    if t.cursorRow + 1 < t.rows then { t with cursorRow := t.cursorRow + 1 }
    else { t with row := fun r => if r + 1 < t.rows then t.row (r + 1) else none }
  | .up n => { t with cursorRow := t.cursorRow - max n 1 }
  | .down n => { t with cursorRow := min (t.rows - 1) (t.cursorRow + max n 1) }
  | .column n => { t with cursorCol := min (t.columns - 1) (n - 1) }
  | .eraseLine => { t with row := Function.update t.row t.cursorRow none }
  | .clearScreen => { t with row := fun _ => none }
  | .home => { t with cursorRow := 0, cursorCol := 0 }
  | .mode _ => t

def run (t : Terminal τ) (outputs : List (TerminalOutput τ)) : Terminal τ := outputs.foldl (apply d) t

def cleared (columns rows : Nat) : Terminal τ := ⟨columns, rows, fun _ => none, 0, 0⟩

variable {d} {t : Terminal τ}

@[simp] theorem run_nil : t.run d [] = t := rfl

variable (o : TerminalOutput τ) (outputs : List (TerminalOutput τ))

@[simp] theorem run_cons : t.run d (o :: outputs) = (t.apply d o).run d outputs := rfl

@[simp] theorem run_append (xs ys : List (TerminalOutput τ)) : t.run d (xs ++ ys) = (t.run d xs).run d ys :=
  foldl_append

@[simp] theorem apply_rows : (t.apply d o).rows = t.rows := by
  cases o with
  | lineFeed => rw [apply]; split <;> rfl
  | _ => rfl

@[simp] theorem apply_columns : (t.apply d o).columns = t.columns := by
  cases o with
  | lineFeed => rw [apply]; split <;> rfl
  | _ => rfl

@[simp] theorem run_rows : (t.run d outputs).rows = t.rows := by
  induction outputs generalizing t with
  | nil => rfl
  | cons o outputs ih => rw [run_cons, ih, apply_rows]

@[simp] theorem run_columns : (t.run d outputs).columns = t.columns := by
  induction outputs generalizing t with
  | nil => rfl
  | cons o outputs ih => rw [run_cons, ih, apply_columns]

end Terminal

/-- Outputs that leave a cursor in the first column there. -/
def TerminalOutput.staysLeft : TerminalOutput τ → Bool
  | .text _ => false
  | .column _ => false
  | _ => true

theorem Terminal.run_left {d : Display τ} {t : Terminal τ} (ht : t.cursorCol = 0) {outputs : List (TerminalOutput τ)}
    (h : ∀ o ∈ outputs, o.staysLeft = true) : (t.run d outputs).cursorCol = 0 := by
  induction outputs generalizing t with
  | nil => exact ht
  | cons o outputs ih =>
    refine ih ?_ fun o ho => h o (mem_cons_of_mem _ ho)
    have ho := h o mem_cons_self
    cases o with
    | text | column => cases ho
    | lineFeed =>
      rw [apply]
      split <;> exact ht
    | carriageReturn | home => rfl
    | _ => exact ht

/-! ## Sequences of outputs -/

namespace TerminalOutput

/-- A move by a number of rows, down if it is positive. -/
def moveRows (delta : Int) : List (TerminalOutput τ) :=
  if 0 < delta then [.down delta.toNat] else if delta < 0 then [.up (-delta).toNat] else []

def line (erase : Bool) (s : τ) : List (TerminalOutput τ) := (if erase then [.eraseLine] else []) ++ [.text s]

def nextLines (erase : Bool) (lines : List τ) : List (TerminalOutput τ) :=
  lines.flatMap fun s => [.carriageReturn, .lineFeed] ++ line erase s

/-- Lines one under the other, each erased first if wanted. -/
def lines (erase : Bool) : List τ → List (TerminalOutput τ)
  | [] => []
  | s :: rest => line erase s ++ nextLines erase rest

/-- The next `n` lines are erased. -/
def eraseNext (n : Nat) : List (TerminalOutput τ) :=
  (List.replicate n [.carriageReturn, .lineFeed, .eraseLine]).flatten

/-- `n` lines are erased from the one of the cursor on, without scrolling. -/
def eraseDown : Nat → List (TerminalOutput τ)
  | 0 => []
  | n + 1 => [.carriageReturn, .eraseLine] ++ (if 0 < n then [.down 1] else []) ++ eraseDown n

end TerminalOutput

theorem TerminalOutput.eraseDown_staysLeft (n : Nat) : ∀ o ∈ (eraseDown n : List (TerminalOutput τ)), o.staysLeft = true := by
  induction n with
  | zero => exact fun o ho => (by cases ho)
  | succ n ih =>
    intro o ho
    rw [eraseDown, mem_append, mem_append] at ho
    obtain (ho | ho) | ho := ho
    · obtain rfl | rfl : o = .carriageReturn ∨ o = .eraseLine := by simpa using ho
      · rfl
      · rfl
    · split at ho
      · rw [mem_singleton.mp ho]
        rfl
      · cases ho
    · exact ih o ho

/-! ## Windows -/

namespace Terminal

/-- Lines with new ones in the place of those from `start` on. -/
def written (content : Nat → Option τ) (start : Nat) (lines : List τ) (i : Nat) : Option τ :=
  if start ≤ i ∧ i < start + lines.length then lines[i - start]? else content i

/-- Lines with `n` of them blank from `start` on. -/
def erased (content : Nat → Option τ) (start n : Nat) (i : Nat) : Option τ :=
  if start ≤ i ∧ i < start + n then none else content i

/-- The terminal shows the lines from `top` on, its cursor on `line`; below it all is blank. -/
structure On (t : Terminal τ) (top line : Nat) (content : Nat → Option τ) : Prop where
  shown : ∀ r, r < t.rows → t.row r = content (top + r)
  below : ∀ i, top + t.rows ≤ i → content i = none
  line_eq : line = top + t.cursorRow
  inside : t.cursorRow < t.rows

variable {d : Display τ} {t : Terminal τ} {top line : Nat} {content : Nat → Option τ} (h : t.On top line content)
include h

theorem On.carriageReturn : (t.apply d .carriageReturn).On top line content := ⟨h.shown, h.below, h.line_eq, h.inside⟩

theorem On.column (n : Nat) : (t.apply d (.column n)).On top line content := ⟨h.shown, h.below, h.line_eq, h.inside⟩

/-- A line feed on the last row moves the window by one line, which is blank. -/
theorem On.lineFeed :
    (t.apply d .lineFeed).On (max top (line + 2 - t.rows)) (line + 1) content := by
  have hline := h.line_eq
  have hin := h.inside
  rw [apply]
  split
  · rename_i hlt
    rw [show max top (line + 2 - t.rows) = top by omega]
    exact ⟨h.shown, h.below, by rw [hline]; rfl, hlt⟩
  · rename_i hlast
    rw [show max top (line + 2 - t.rows) = top + 1 by omega]
    refine ⟨fun r hr => ?_, fun i hi => h.below i ?_, ?_, hin⟩
    · dsimp only
      split
      · rename_i hnext
        rw [h.shown _ hnext, show top + 1 + r = top + (r + 1) by omega]
      · exact (h.below _ (by omega)).symm
    · dsimp only at hi
      omega
    · dsimp only
      omega

theorem On.update (shown : Option τ) {col : Nat} :
    { t with row := update t.row t.cursorRow shown, cursorCol := col }.On top line
      (update content line shown) := by
  have hline := h.line_eq
  have hin := h.inside
  refine ⟨fun r hr => ?_, fun i hi => ?_, hline, hin⟩
  · dsimp only
    by_cases hrow : r = t.cursorRow
    · rw [hrow, ← hline, update_self, update_self]
    · rw [update_of_ne hrow, update_of_ne (by omega), h.shown r hr]
  · dsimp only at hi
    rw [update_of_ne (by omega), h.below i hi]

theorem On.eraseLine : (t.apply d .eraseLine).On top line (Function.update content line none) := h.update none

theorem On.text (hcol : t.cursorCol = 0) (hblank : content line = none) (s : τ) :
    (t.apply d (.text s)).On top line (Function.update content line (some s)) := by
  have hrow : t.row t.cursorRow = none := by rw [h.shown _ h.inside, ← h.line_eq, hblank]
  have hdraw : d.draw (t.row t.cursorRow) t.cursorCol s = some s := by rw [hrow, hcol]; rfl
  rw [apply, hdraw]
  exact h.update _

omit h

variable {erase : Bool} (h : t.On top line content)
include h

theorem On.drawLine (hcol : t.cursorCol = 0)
    (hblank : erase = true ∨ content line = none) (s : τ) :
    (t.run d (TerminalOutput.line erase s)).On top line (Function.update content line (some s)) := by
  cases erase with
  | false => exact h.text hcol (hblank.resolve_left Bool.false_ne_true) s
  | true =>
    have herased := (h.eraseLine (d := d)).text (d := d) hcol (update_self ..) s
    rwa [update_idem] at herased

/-- Lines written under the cursor's, by induction on them. -/
theorem On.nextLines
    (hblank : erase = true ∨ ∀ i, line < i → content i = none) (lines : List τ) :
    (t.run d (TerminalOutput.nextLines erase lines)).On (max top (line + lines.length + 1 - t.rows))
      (line + lines.length) (written content (line + 1) lines) := by
  induction lines generalizing t top line content with
  | nil =>
    have hline := h.line_eq
    have hin := h.inside
    have hsame : written content (line + 1) [] = content := by
      funext i
      rw [written, List.length_nil, if_neg (by omega)]
    rw [hsame, List.length_nil, Nat.add_zero, show max top (line + 1 - t.rows) = top by omega]
    exact h
  | cons s rest ih =>
    have hfeed := (h.carriageReturn (d := d)).lineFeed (d := d)
    have hcol : ((t.apply d .carriageReturn).run d [.lineFeed]).cursorCol = 0 := run_left rfl (by simp [TerminalOutput.staysLeft])
    have hfirst := hfeed.drawLine (d := d) hcol
      (hblank.imp_right fun h => h (line + 1) (by omega)) s
    have hrest := ih hfirst (hblank.imp_right fun h i hi => by
      rw [Function.update_of_ne (by omega), h i (by omega)])
    have hcont : written (Function.update content (line + 1) (some s)) (line + 1 + 1) rest =
        written content (line + 1) (s :: rest) := by
      funext i
      rw [written, written, List.length_cons]
      by_cases hi : i = line + 1
      · subst hi
        rw [if_neg (by omega), if_pos (by omega), Function.update_self, Nat.sub_self, List.getElem?_cons_zero]
      · rw [Function.update_of_ne hi]
        by_cases hin : line + 1 + 1 ≤ i ∧ i < line + 1 + 1 + rest.length
        · rw [if_pos hin, if_pos (by omega), show i - (line + 1) = i - (line + 1 + 1) + 1 by omega,
            List.getElem?_cons_succ]
        · rw [if_neg hin, if_neg (by omega)]
    rw [hcont, run_rows, apply_rows, apply_rows, apply_rows] at hrest
    rw [TerminalOutput.nextLines, List.flatMap_cons, List.append_assoc, run_append, run_append, List.length_cons,
      show max top (line + (rest.length + 1) + 1 - t.rows) =
      max (max top (line + 2 - t.rows)) (line + 1 + rest.length + 1 - t.rows) by omega,
      show line + (rest.length + 1) = line + 1 + rest.length by omega]
    exact hrest

/-- Lines written from the cursor's on. -/
theorem On.lines (hcol : t.cursorCol = 0)
    (hblank : erase = true ∨ ∀ i, line ≤ i → content i = none) {lines : List τ} (hne : lines ≠ []) :
    (t.run d (TerminalOutput.lines erase lines)).On (max top (line + lines.length - t.rows))
      (line + (lines.length - 1)) (written content line lines) := by
  cases lines with
  | nil => exact absurd rfl hne
  | cons s rest =>
    have hfirst := h.drawLine (d := d) hcol (hblank.imp_right fun h => h line le_rfl) s
    have hrest := hfirst.nextLines (d := d) (show erase = true ∨ _ from hblank.imp_right fun h i hi => by
      rw [Function.update_of_ne (by omega), h i (by omega)]) rest
    have hcont : written (Function.update content line (some s)) (line + 1) rest =
        written content line (s :: rest) := by
      funext i
      rw [written, written, List.length_cons]
      by_cases hi : i = line
      · subst hi
        rw [if_neg (by omega), if_pos (by omega), Function.update_self, Nat.sub_self, List.getElem?_cons_zero]
      · rw [Function.update_of_ne hi]
        by_cases hin : line + 1 ≤ i ∧ i < line + 1 + rest.length
        · rw [if_pos hin, if_pos (by omega), show i - line = i - (line + 1) + 1 by omega, List.getElem?_cons_succ]
        · rw [if_neg hin, if_neg (by omega)]
    rw [hcont, run_rows] at hrest
    rw [TerminalOutput.lines, run_append, List.length_cons]
    exact hrest

omit h

variable {n : Nat} (h : t.On top line content)
include h

theorem On.up (hn : 0 < n) (hlo : top + n ≤ line) :
    (t.apply d (.up n)).On top (line - n) content := by
  have hline := h.line_eq
  have hin := h.inside
  refine ⟨h.shown, h.below, ?_, ?_⟩
  · dsimp only [apply]
    omega
  · dsimp only [apply]
    omega

theorem On.down (hn : 0 < n) (hhi : line + n < top + t.rows) :
    (t.apply d (.down n)).On top (line + n) content := by
  have hline := h.line_eq
  refine ⟨h.shown, h.below, ?_, ?_⟩
  · dsimp only [apply]
    omega
  · dsimp only [apply]
    omega

/-- A relative move arrives at a line of the window. -/
theorem On.moveRows {target : Nat} (hlo : top ≤ target) (hhi : target < top + t.rows) :
    (t.run d (TerminalOutput.moveRows (target - line : Int))).On top target content := by
  rw [TerminalOutput.moveRows]
  split
  · have hdown := h.down (d := d) (n := (target - line : Int).toNat) (by omega) (by omega)
    rwa [show line + (target - line : Int).toNat = target by omega] at hdown
  · split
    · have hup := h.up (d := d) (n := (-(target - line : Int)).toNat) (by omega) (by omega)
      rwa [show line - (-(target - line : Int)).toNat = target by omega] at hup
    · rw [show target = line by omega]
      exact h

omit h

theorem erased_zero (start : Nat) : erased content start 0 = content := by
  funext i
  rw [erased, if_neg (by omega)]

theorem erased_succ (start n : Nat) :
    erased (update content start none) (start + 1) n = erased content start (n + 1) := by
  funext i
  rw [erased, erased]
  by_cases hi : i = start
  · subst hi
    rw [if_neg (by omega), if_pos (by omega), update_self]
  · rw [update_of_ne hi]
    by_cases hin : start + 1 ≤ i ∧ i < start + 1 + n
    · rw [if_pos hin, if_pos (by omega)]
    · rw [if_neg hin, if_neg (by omega)]

/-- Lines erased under the cursor's, all of them in the window. -/
theorem On.eraseNext (h : t.On top line content) (hn : line + n < top + t.rows) :
    (t.run d (TerminalOutput.eraseNext n)).On top (line + n) (erased content (line + 1) n) := by
  induction n generalizing t line content with
  | zero =>
    rw [erased_zero]
    exact h
  | succ n ih =>
    have hfeed := (h.carriageReturn (d := d)).lineFeed (d := d)
    rw [show max top (line + 2 - (t.apply d .carriageReturn).rows) = top by rw [apply_rows]; omega] at hfeed
    have hrest := ih (hfeed.eraseLine (d := d)) (by rw [apply_rows, apply_rows, apply_rows]; omega)
    rw [erased_succ, show line + 1 + n = line + (n + 1) by omega] at hrest
    exact hrest

/-- Lines erased from the cursor's on, all of them in the window. -/
theorem On.eraseDown (h : t.On top line content) (hn : line + n < top + t.rows) :
    (t.run d (TerminalOutput.eraseDown (n + 1))).On top (line + n) (erased content line (n + 1)) := by
  induction n generalizing t line content with
  | zero =>
    have herased := (h.carriageReturn (d := d)).eraseLine (d := d)
    rw [← erased_succ, erased_zero]
    exact herased
  | succ n ih =>
    have herased := (h.carriageReturn (d := d)).eraseLine (d := d)
    have hdown := herased.down (d := d) Nat.one_pos (by rw [apply_rows, apply_rows]; omega)
    have hrest := ih hdown (by rw [apply_rows, apply_rows, apply_rows]; omega)
    rw [erased_succ, show line + 1 + n = line + (n + 1) by omega] at hrest
    exact hrest

theorem On.cleared (columns : Nat) {rows : Nat} (h : 0 < rows) :
    (Terminal.cleared columns rows : Terminal τ).On 0 0 fun _ => none :=
  ⟨fun _ _ => rfl, fun _ _ => rfl, rfl, h⟩

end Terminal

end Shuvpi
