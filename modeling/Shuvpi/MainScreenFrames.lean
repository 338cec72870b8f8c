import Shuvpi.MainScreen

/-!
# Differential frames show what full ones would

A run of frames on a terminal that starts cleared and may change its size between them. What the
renderer remembers reads the terminal: the window starts at `previousViewportTop`, the cursor is
on `hardwareCursorRow`, and the lines are those of the frame. Every path of `doRender` keeps this
as long as no cursor is put above the window or beyond the last column.
-/
namespace Shuvpi.TuiMainScreen

open Terminal (On)
open List Option

/-! ## Lines of a frame -/

variable {lines : List JsString} {i : Nat}

theorem lineAt_getElem? : lineAt lines i = lines[i]?.getD [] := by
  rw [lineAt, getD_eq_getElem?_getD]

theorem lineAt_beyond (h : lines.length ≤ i) : lineAt lines i = [] := by
  rw [lineAt_getElem?, getElem?_eq_none h, getD_none]

/-- No line is the empty text. -/
def Drawn (lines : List JsString) : Prop := ∀ line ∈ lines, line ≠ []

theorem Drawn.lineAt_ne (h : Drawn lines) (hi : i < lines.length) :
    lineAt lines i ≠ [] := by
  rw [lineAt_getElem?, getElem?_eq_getElem hi, getD_some]
  exact h _ (getElem_mem hi)

/-- Lines that are not empty are told apart by their texts. -/
theorem getElem?_of_lineAt {xs ys : List JsString} (hx : Drawn xs) (hy : Drawn ys)
    (h : lineAt xs i = lineAt ys i) : xs[i]? = ys[i]? := by
  by_cases hxi : i < xs.length
  · have hyi : i < ys.length := by
      by_contra hle
      exact hx.lineAt_ne hxi (h.trans (lineAt_beyond (by omega)))
    rw [lineAt_getElem?, lineAt_getElem?, getElem?_eq_getElem hxi, getElem?_eq_getElem hyi] at h
    rw [getElem?_eq_getElem hxi, getElem?_eq_getElem hyi]
    exact congrArg some h
  · have hyi : ¬ i < ys.length := by
      intro hlt
      exact hy.lineAt_ne hlt (h.symm.trans (lineAt_beyond (by omega)))
    rw [getElem?_eq_none (by omega), getElem?_eq_none (by omega)]

theorem newLines_drawn (u : TextUtils) (f : Frame) : Drawn (f.newLines u) := by
  intro line hline
  obtain ⟨raw, -, rfl⟩ := mem_map.mp hline
  exact append_ne_nil_of_right_ne_nil _ (cons_ne_nil _ _)

variable {pos : CursorPosition}

theorem findMarker_some {u : TextUtils} {lines stripped : List JsString} {viewportTop row : Nat}
    (h : findMarker u lines viewportTop row = some (pos, stripped)) :
    viewportTop ≤ pos.row ∧ pos.row < row ∧ stripped.length = lines.length := by
  induction row with
  | zero => cases h
  | succ row ih =>
    rw [findMarker] at h
    split at h
    · cases h
    · dsimp only at h
      split at h
      · obtain ⟨hlo, hhi, hlen⟩ := ih h
        exact ⟨hlo, by omega, hlen⟩
      · rw [some.injEq, Prod.mk.injEq] at h
        obtain ⟨rfl, rfl⟩ := h
        exact ⟨by dsimp only; omega, Nat.lt_succ_self _, length_set⟩

theorem length_newLines (u : TextUtils) (f : Frame) : (f.newLines u).length = f.lines.length := by
  rw [Frame.newLines, applyLineResets, length_map, extractCursorPosition]
  split
  · rfl
  · rename_i h
    exact (findMarker_some h).2.2

/-- The cursor is on one of the last lines that fit the terminal. -/
theorem cursorPos_row {u : TextUtils} {f : Frame} (h : f.cursorPos u = some pos) :
    (f.newLines u).length - f.rows ≤ pos.row ∧ pos.row < (f.newLines u).length := by
  rw [length_newLines]
  rw [Frame.cursorPos, extractCursorPosition] at h
  split at h
  · cases h
  · rename_i hfound
    cases h
    exact ⟨(findMarker_some hfound).1, (findMarker_some hfound).2.1⟩

/-! ## Changed lines -/

theorem scanChanges_succ (oldLines newLines : List JsString) (n : Nat) : scanChanges oldLines newLines (n + 1) =
      if lineAt oldLines n = lineAt newLines n then scanChanges oldLines newLines n
      else some (((scanChanges oldLines newLines n).map Prod.fst).getD n, n) := by
  rw [scanChanges, range_succ, foldl_append]
  rfl

variable {oldLines newLines : List JsString}

theorem scanChanges_none {n : Nat} (h : scanChanges oldLines newLines n = none) :
    ∀ i, i < n → lineAt oldLines i = lineAt newLines i := by
  induction n with
  | zero => exact fun i hi => absurd hi (Nat.not_lt_zero i)
  | succ n ih =>
    rw [scanChanges_succ] at h
    split at h
    · rename_i hsame
      intro i hi
      obtain hlt | rfl := Nat.lt_succ_iff_lt_or_eq.mp hi
      · exact ih h i hlt
      · exact hsame
    · cases h

theorem scanChanges_some {n first last : Nat}
    (h : scanChanges oldLines newLines n = some (first, last)) :
    first ≤ last ∧ last < n ∧ lineAt oldLines first ≠ lineAt newLines first ∧
      ∀ i, i < n → i < first ∨ last < i → lineAt oldLines i = lineAt newLines i := by
  induction n generalizing first last with
  | zero => cases h
  | succ n ih =>
    rw [scanChanges_succ] at h
    split at h
    · rename_i hsame
      obtain ⟨hle, hlt, hdiffer, hrest⟩ := ih h
      refine ⟨hle, by omega, hdiffer, fun i hi hout => ?_⟩
      obtain hlt | rfl := Nat.lt_succ_iff_lt_or_eq.mp hi
      · exact hrest i hlt hout
      · exact hsame
    · rename_i hdiffer
      cases hscan : scanChanges oldLines newLines n with
      | none =>
        rw [hscan, some.injEq, Prod.mk.injEq] at h
        obtain ⟨rfl, rfl⟩ := h
        exact ⟨le_rfl, Nat.lt_succ_self _, hdiffer, fun i hi hout => scanChanges_none hscan i (by
          rw [map_none, getD_none] at hout
          omega)⟩
      | some range =>
        obtain ⟨start, stop⟩ := range
        rw [hscan, some.injEq, Prod.mk.injEq] at h
        obtain ⟨rfl, rfl⟩ := h
        obtain ⟨hle, hlt, hfirst, hrest⟩ := ih hscan
        refine ⟨by rw [map_some, getD_some]; omega, Nat.lt_succ_self _, hfirst, fun i hi hout => ?_⟩
        rw [map_some, getD_some] at hout
        exact hrest i (by omega) (by omega)

section Changes

variable {oldLines newLines : List JsString} (hold : Drawn oldLines) (hnew : Drawn newLines)

include hold hnew

theorem changedRange_none (h : changedRange oldLines newLines = none) : newLines = oldLines := by
  rw [changedRange] at h
  split at h
  · cases h
  · refine ext_getElem? fun i => (getElem?_of_lineAt hold hnew ?_).symm
    by_cases hi : i < max newLines.length oldLines.length
    · exact scanChanges_none h i hi
    · rw [lineAt_beyond (by omega), lineAt_beyond (by omega)]

/-- Lines outside the range are the same, and lines added or dropped at the end are inside. -/
theorem changedRange_some {first last : Nat} (h : changedRange oldLines newLines = some (first, last)) :
    first ≤ last ∧ first ≤ oldLines.length ∧ first ≤ newLines.length ∧
      (oldLines.length < newLines.length → last = newLines.length - 1) ∧
      (newLines.length < oldLines.length → last = oldLines.length - 1) ∧
      (oldLines.length = newLines.length → first < newLines.length ∧ last < newLines.length) ∧
      ∀ i, i < first ∨ last < i → oldLines[i]? = newLines[i]? := by
  have hends {k : Nat} (hlo : min newLines.length oldLines.length ≤ k) (hhi : k < max newLines.length oldLines.length) :
      lineAt oldLines k ≠ lineAt newLines k := by
    obtain hlt | hge := Nat.lt_or_ge k oldLines.length
    · rw [show lineAt newLines k = [] from lineAt_beyond (by omega)]
      exact hold.lineAt_ne hlt
    · rw [show lineAt oldLines k = [] from lineAt_beyond hge]
      exact (hnew.lineAt_ne (by omega)).symm
  rw [changedRange] at h
  cases hscan : scanChanges oldLines newLines (max newLines.length oldLines.length) with
  | none =>
    have hsame := scanChanges_none hscan
    rw [hscan] at h
    split at h
    · exact absurd (hsame oldLines.length (by omega)) (hends (by omega) (by omega))
    · cases h
  | some range =>
    obtain ⟨start, stop⟩ := range
    obtain ⟨hle, hlt, hdiffer, hrest⟩ := scanChanges_some hscan
    have hlast : max newLines.length oldLines.length - 1 ≤ stop ∨ newLines.length = oldLines.length := by
      by_contra hcon
      exact hends (k := max newLines.length oldLines.length - 1) (by omega) (by omega)
        (hrest _ (by omega) (.inr (by omega)))
    have hfirst : start ≤ min newLines.length oldLines.length := by
      by_contra hcon
      by_cases heq : newLines.length = oldLines.length
      · omega
      · exact hends (k := min newLines.length oldLines.length) le_rfl (by omega) (hrest _ (by omega) (.inl (by omega)))
    have hout : ∀ i, i < start ∨ stop < i → oldLines[i]? = newLines[i]? := by
      intro i hi
      refine getElem?_of_lineAt hold hnew ?_
      by_cases hin : i < max newLines.length oldLines.length
      · exact hrest i hin hi
      · rw [lineAt_beyond (by omega), lineAt_beyond (by omega)]
    rw [hscan] at h
    split at h
    · rw [map_some, getD_some, some.injEq, Prod.mk.injEq] at h
      obtain ⟨rfl, rfl⟩ := h
      exact ⟨by omega, by omega, by omega, fun _ => rfl, fun _ => by omega, fun _ => by omega,
        fun i hi => hout i (hi.imp_right fun _ => by omega)⟩
    · cases h
      exact ⟨hle, by omega, by omega, fun _ => by omega, fun _ => by omega, fun _ => by omega, hout⟩

end Changes

/-! ## What the renderer remembers -/

variable {u : TextUtils} {d : Display JsString} {s : Screen} {f : Frame} {t : Terminal JsString}
  {pos : Option CursorPosition} {newLines : List JsString}

/-- The memory of the renderer reads the terminal. -/
structure Kept (s : Screen) (t : Terminal JsString) : Prop where
  on : t.On s.previousViewportTop s.hardwareCursorRow fun i => s.previousLines[i]?
  top_le : s.previousViewportTop ≤ s.previousLines.length - 1
  drawn : Drawn s.previousLines
  empty : s.previousLines = [] → t.cursorCol = 0 ∧ s.hardwareCursorRow = 0
  size : s.previousWidth = 0 ∧ s.previousHeight = 0 ∧ s.previousLines = [] ∨
    s.previousWidth = t.columns ∧ s.previousHeight = t.rows

/-- The cursor is where the frame has it, if it has it anywhere. -/
def Stands (pos : Option CursorPosition) (s : Screen) (t : Terminal JsString) : Prop :=
  ∀ p, pos = some p → s.hardwareCursorRow = p.row ∧ t.cursorCol = p.col

/-- The cursor has a place in a window from `top` on. -/
def Placeable (pos : Option CursorPosition) (top totalLines columns : Nat) : Prop :=
  ∀ p, pos = some p → top ≤ p.row ∧ p.row < totalLines ∧ p.col < columns

structure Rendered (pos : Option CursorPosition) (newLines : List JsString) (s : Screen) (t : Terminal JsString) :
    Prop where
  kept : Kept s t
  lines_eq : s.previousLines = newLines
  stands : Stands pos s t
  size : s.previousWidth = t.columns ∧ s.previousHeight = t.rows

theorem length_le {top line : Nat} (h : t.On top line fun i => lines[i]?) :
    lines.length ≤ top + t.rows := getElem?_eq_none_iff.mp (h.below _ le_rfl)

theorem position_eq (s : Screen) (f : Frame) (pos : Option CursorPosition) (totalLines : Nat) :
    ∃ row, (positionHardwareCursor s f pos totalLines).1 = { s with hardwareCursorRow := row } := by
  cases pos with
  | none => exact ⟨s.hardwareCursorRow, rfl⟩
  | some p =>
    rw [positionHardwareCursor]
    split
    · exact ⟨s.hardwareCursorRow, rfl⟩
    · exact ⟨_, rfl⟩

theorem position_empty (s : Screen) (f : Frame) (pos : Option CursorPosition) :
    positionHardwareCursor s f pos 0 = (s, [.mode .hideCursor]) := by
  cases pos <;> rfl

theorem run_synchronized (output : List Output) : t.run d (synchronized output) = t.run d output := by
  rw [synchronized, cons_append, Terminal.run_cons, Terminal.run_append]
  rfl

theorem position_on {content : Nat → Option JsString} {totalLines : Nat}
    (hon : t.On s.previousViewportTop s.hardwareCursorRow content)
    (htotal : totalLines ≤ s.previousViewportTop + t.rows)
    (hpos : Placeable pos s.previousViewportTop totalLines t.columns) :
    (t.run d (positionHardwareCursor s f pos totalLines).2).On s.previousViewportTop
        (positionHardwareCursor s f pos totalLines).1.hardwareCursorRow content ∧
      Stands pos (positionHardwareCursor s f pos totalLines).1
        (t.run d (positionHardwareCursor s f pos totalLines).2) := by
  cases pos with
  | none => exact ⟨hon, fun p hp => (by cases hp)⟩
  | some p =>
    obtain ⟨hlo, hhi, hcol⟩ := hpos p rfl
    rw [positionHardwareCursor]
    rw [if_neg (by omega), show min p.row (totalLines - 1) = p.row by omega]
    rw [Terminal.run_append]
    refine ⟨(hon.moveRows (d := d) hlo (by omega)).column (d := d) (p.col + 1), ?_⟩
    rintro q ⟨⟩
    refine ⟨rfl, ?_⟩
    simp only [Terminal.run_cons, Terminal.run_nil, Terminal.apply, Terminal.run_columns]
    omega

/-- A frame whose lines are on the terminal is kept. -/
theorem keepFrame_rendered (hrows : t.rows = f.rows) (hcolumns : t.columns = f.columns) (hdrawn : Drawn newLines)
    {output : List Output}
    (hon : (t.run d output).On s.previousViewportTop s.hardwareCursorRow fun i => newLines[i]?)
    (htop : s.previousViewportTop ≤ newLines.length - 1)
    (hempty : newLines = [] → (t.run d output).cursorCol = 0 ∧ s.hardwareCursorRow = 0)
    (hpos : Placeable pos s.previousViewportTop newLines.length f.columns) :
    Rendered pos newLines (keepFrame s f pos newLines output).1 (t.run d (keepFrame s f pos newLines output).2) := by
  obtain ⟨hplaced, hstands⟩ := position_on (d := d) (f := f) hon (length_le hon)
    (by rwa [Terminal.run_columns, hcolumns])
  obtain ⟨row, hrow⟩ := position_eq s f pos newLines.length
  rw [keepFrame]
  rw [Terminal.run_append]
  rw [hrow] at hplaced hstands ⊢
  have hsize : f.columns = ((t.run d output).run d (positionHardwareCursor s f pos newLines.length).2).columns ∧
      f.rows = ((t.run d output).run d (positionHardwareCursor s f pos newLines.length).2).rows := by
    rw [Terminal.run_columns, Terminal.run_columns, hcolumns, Terminal.run_rows, Terminal.run_rows, hrows]
    exact ⟨rfl, rfl⟩
  refine ⟨⟨hplaced, htop, hdrawn, fun (hnil : newLines = []) => ?_, .inr hsize⟩, rfl, hstands, hsize⟩
  · obtain ⟨hcol, hhome⟩ := hempty hnil
    rw [hnil, length_nil, position_empty] at hrow
    rw [hnil, length_nil, position_empty]
    exact ⟨hcol, (congrArg Screen.hardwareCursorRow hrow.symm).trans hhome⟩

/-- All lines are drawn on a blank screen. -/
theorem fullRender_rendered (hrows : t.rows = f.rows) (hcolumns : t.columns = f.columns) (hheight : 0 < f.rows)
    (hdrawn : Drawn newLines) {clear : Bool}
    (hstart : clear = true ∨ (t.On 0 0 fun _ => none) ∧ t.cursorCol = 0)
    (hpos : Placeable pos (newLines.length - f.rows) newLines.length f.columns) :
    Rendered pos newLines (fullRender s f pos newLines clear).1 (t.run d (fullRender s f pos newLines clear).2) := by
  have htop : max f.rows newLines.length - f.rows = newLines.length - f.rows := by omega
  obtain ⟨hblank, hleft⟩ : (t.run d (if clear then [.clearScreen, .home, .mode .clearScrollback] else [])).On 0 0
      (fun _ => none) ∧
      (t.run d (if clear then [.clearScreen, .home, .mode .clearScrollback] else [])).cursorCol = 0 := by
    cases clear with
    | false => exact hstart.resolve_left Bool.false_ne_true
    | true =>
      exact ⟨⟨fun _ _ => rfl, fun _ _ => rfl, rfl, by rw [Terminal.run_rows, hrows]; exact hheight⟩, rfl⟩
  have hwrit : Terminal.written (fun _ => none) 0 newLines = fun i => newLines[i]? := by
    funext i
    rw [Terminal.written, Nat.zero_add, Nat.sub_zero]
    split
    · rfl
    · exact (getElem?_eq_none (by omega)).symm
  refine keepFrame_rendered hrows hcolumns hdrawn ?_ (by dsimp only; omega) ?_ (by dsimp only; rwa [htop])
  · dsimp only
    rw [htop, run_synchronized, Terminal.run_append]
    by_cases hne : newLines = []
    · subst hne
      rw [length_nil, Nat.zero_sub]
      exact hblank
    · have hlines := hblank.lines (d := d) hleft (Or.inr fun _ _ => rfl : false = true ∨ _) hne
      rw [hwrit, Terminal.run_rows, hrows, Nat.zero_max, Nat.zero_add, Nat.zero_add] at hlines
      exact hlines
  · rintro rfl
    refine ⟨?_, rfl⟩
    rw [run_synchronized, Terminal.run_append]
    exact hleft

/-! ## The paths of a frame -/

/-! The lines from the first changed one to `renderEnd`, drawn over the old ones. -/

section Drawing

variable {oldLines newLines : List JsString} {first last renderEnd : Nat}

theorem length_changed (h : renderEnd < newLines.length) :
    ((newLines.take (renderEnd + 1)).drop first).length = renderEnd + 1 - first := by
  rw [length_drop, length_take, Nat.min_eq_left h]

theorem written_changed (hsome : 0 < newLines.length) (hend : min last (newLines.length - 1) = renderEnd)
    (hsame : ∀ i, i < first ∨ last < i → oldLines[i]? = newLines[i]?) {i : Nat}
    (hi : i ≤ renderEnd ∨ oldLines.length ≤ newLines.length) :
    Terminal.written (fun i => oldLines[i]?) first ((newLines.take (renderEnd + 1)).drop first) i = newLines[i]? := by
  rw [Terminal.written, length_changed (by omega)]
  by_cases hin : first ≤ i ∧ i < first + (renderEnd + 1 - first)
  · rw [if_pos hin, getElem?_drop, getElem?_take, if_pos (by omega), Nat.add_sub_cancel' hin.1]
  · rw [if_neg hin]
    by_cases hout : i < first ∨ last < i
    · exact hsame i hout
    · have hlen : newLines.length ≤ i := by omega
      rw [getElem?_eq_none hlen, getElem?_eq_none (by omega)]

theorem erased_changed (hsome : 0 < newLines.length) (hend : min last (newLines.length - 1) = renderEnd)
    (hsame : ∀ i, i < first ∨ last < i → oldLines[i]? = newLines[i]?) (hfirst : first < newLines.length)
    (hshort : newLines.length < oldLines.length) (hlast : renderEnd + 1 = newLines.length) :
    Terminal.erased (Terminal.written (fun i => oldLines[i]?) first ((newLines.take (renderEnd + 1)).drop first))
      (renderEnd + 1) (oldLines.length - newLines.length) = fun i => newLines[i]? := by
  funext i
  rw [Terminal.erased]
  by_cases hi : i ≤ renderEnd
  · rw [if_neg (by omega)]
    exact written_changed hsome hend hsame (.inl hi)
  · have hlen : newLines.length ≤ i := by omega
    rw [getElem?_eq_none hlen]
    split
    · rfl
    · rw [Terminal.written, length_changed (by omega), if_neg (by omega), getElem?_eq_none (by omega)]

end Drawing

section Paths

variable (hkept : Kept s t) (hrows : t.rows = f.rows) (hcolumns : t.columns = f.columns) (hheight : 0 < f.rows)
  (hdrawn : Drawn newLines)

include hkept hrows hcolumns

/-- Nothing changed: only the cursor moves. -/
theorem unchanged_rendered (hsame : newLines = s.previousLines) (hfresh : s.previousLines ≠ [])
    (hpos : Placeable pos s.previousViewportTop newLines.length f.columns) :
    Rendered pos newLines
      { (positionHardwareCursor s f pos newLines.length).1 with
        previousViewportTop := s.previousViewportTop, previousHeight := f.rows }
      (t.run d (positionHardwareCursor s f pos newLines.length).2) := by
  subst hsame
  obtain ⟨hplaced, hstands⟩ := position_on (d := d) (f := f) hkept.on (length_le hkept.on) (by rwa [hcolumns])
  obtain ⟨row, hrow⟩ := position_eq s f pos s.previousLines.length
  rw [hrow] at hplaced hstands ⊢
  have hwidth : s.previousWidth = t.columns := by
    obtain ⟨-, -, hempty⟩ | ⟨hwidth, -⟩ := hkept.size
    · exact absurd hempty hfresh
    · exact hwidth
  have hsize : s.previousWidth = (t.run d (positionHardwareCursor s f pos s.previousLines.length).2).columns ∧
      f.rows = (t.run d (positionHardwareCursor s f pos s.previousLines.length).2).rows := by
    rw [Terminal.run_columns, Terminal.run_rows]
    exact ⟨hwidth, hrows.symm⟩
  exact ⟨⟨hplaced, hkept.top_le, hkept.drawn, fun h => absurd h hfresh, .inr hsize⟩, rfl, hstands, hsize⟩

include hdrawn

/-- The lines that are not there any more are cleared, and the window stays. -/
theorem clearDeleted_rendered (hheight : 0 < f.rows) (hshrunk : newLines.length < s.previousLines.length)
    (hsame : ∀ i, i < newLines.length → s.previousLines[i]? = newLines[i]?)
    (hpos : Placeable pos (newLines.length - f.rows) newLines.length f.columns)
    (hview : s.previousViewportTop ≤ newLines.length - 1 → Placeable pos s.previousViewportTop newLines.length f.columns) :
    Rendered pos newLines (clearDeleted s f pos newLines s.previousViewportTop).1
      (t.run d (clearDeleted s f pos newLines s.previousViewportTop).2) := by
  have hlen := length_le hkept.on
  rw [clearDeleted, if_pos hshrunk]
  by_cases habove : newLines.length - 1 < s.previousViewportTop
  · rw [if_pos habove]
    exact fullRender_rendered hrows hcolumns hheight hdrawn (.inl rfl) hpos
  · rw [if_neg habove, if_neg (by have := hkept.top_le; omega)]
    have htgt := hkept.on.moveRows (d := d) (show s.previousViewportTop ≤ newLines.length - 1 by omega) (by omega)
    rw [show ((newLines.length - 1 : Nat) - s.hardwareCursorRow : Int) =
      ((newLines.length - 1 : Nat) - s.previousViewportTop) - (s.hardwareCursorRow - s.previousViewportTop) by omega] at htgt
    have hcont : Terminal.erased (fun i => s.previousLines[i]?) newLines.length
        (s.previousLines.length - newLines.length) = fun i => newLines[i]? := by
      funext i
      rw [Terminal.erased]
      split
      · exact (getElem?_eq_none (by omega)).symm
      · by_cases hi : i < newLines.length
        · exact hsame i hi
        · rw [getElem?_eq_none (by omega), getElem?_eq_none (by omega)]
    refine keepFrame_rendered hrows hcolumns hdrawn ?_ (by dsimp only; omega) ?_ (hview (by omega))
    · rw [run_synchronized]
      simp only [Terminal.run_append]
      obtain ⟨extra, hextra⟩ : ∃ extra, s.previousLines.length - newLines.length = extra + 1 :=
        ⟨s.previousLines.length - newLines.length - 1, by omega⟩
      rw [hextra] at hcont ⊢
      by_cases hn : newLines.length = 0
      · rw [hn] at hcont htgt ⊢
        have herased := (htgt.carriageReturn (d := d)).eraseDown (d := d) (n := extra)
          (by rw [Terminal.apply_rows, Terminal.run_rows]; omega)
        rw [show (0 - 1 : Nat) = 0 from rfl, Nat.zero_add, hcont] at herased
        rw [if_neg (by simp), if_pos rfl, show extra + 1 - 1 + 0 = extra by omega]
        split
        · rename_i hback
          have hup := herased.up (d := d) hback (by omega)
          rwa [Nat.sub_self] at hup
        · obtain rfl : extra = 0 := by omega
          exact herased
      · have hdown := (htgt.carriageReturn (d := d)).down (d := d) Nat.one_pos
          (by rw [Terminal.apply_rows, Terminal.run_rows]; omega)
        rw [show newLines.length - 1 + 1 = newLines.length by omega] at hdown
        have herased := hdown.eraseDown (d := d) (n := extra)
          (by rw [Terminal.apply_rows, Terminal.apply_rows, Terminal.run_rows]; omega)
        rw [hcont] at herased
        have hup := herased.up (d := d) (n := extra + 1) (Nat.succ_pos _) (by omega)
        rw [show newLines.length + extra - (extra + 1) = newLines.length - 1 by omega] at hup
        rw [if_neg hn, if_pos ⟨Nat.succ_pos _, Nat.one_pos⟩, Nat.add_sub_cancel, if_pos (Nat.succ_pos _)]
        exact hup
    · rintro rfl
      refine ⟨?_, rfl⟩
      rw [run_synchronized]
      simp only [Terminal.run_append, length_nil, Nat.lt_irrefl, and_false, if_true, if_false]
      refine Terminal.run_left (Terminal.run_left rfl (TerminalOutput.eraseDown_staysLeft _)) fun o ho => ?_
      split at ho
      · rw [mem_singleton.mp ho]
        rfl
      · cases ho

omit hkept hrows hcolumns hdrawn in
/-- The cursor gets to the start of the first line to draw, which may be a new one. -/
theorem firstLine_on {top target first : Nat} {content : Nat → Option JsString} {appendStart : Bool}
    (hon : t.On top target content) (hone : appendStart = true → target + 1 = first)
    (hzero : appendStart = false → target = first) :
    ∃ top', (∀ n, first < n → max top' (n - t.rows) = max top (n - t.rows)) ∧
      (t.run d (if appendStart then [.carriageReturn, .lineFeed] else [.carriageReturn])).On top' first content ∧
      (t.run d (if appendStart then [.carriageReturn, .lineFeed] else [.carriageReturn])).cursorCol = 0 := by
  cases appendStart with
  | false =>
    rw [← hzero rfl]
    exact ⟨top, fun _ _ => rfl, hon.carriageReturn (d := d), rfl⟩
  | true =>
    have hnext := (hon.carriageReturn (d := d)).lineFeed (d := d)
    have hleft : ((t.apply d .carriageReturn).run d [.lineFeed]).cursorCol = 0 :=
      Terminal.run_left rfl (by simp [TerminalOutput.staysLeft])
    rw [hone rfl, Terminal.apply_rows] at hnext
    have := hone rfl
    exact ⟨_, fun n hn => by omega, hnext, hleft⟩

/-- Changed lines are drawn over the ones before, from inside the window on. -/
theorem drawChanged_rendered (hheight : 0 < f.rows) (hwide : ∀ line ∈ newLines, u.visibleWidth line ≤ f.columns)
    (hfresh : s.previousLines ≠ []) {first last : Nat}
    (hrange : changedRange s.previousLines newLines = some (first, last)) (hfirst : first < newLines.length)
    (hin : s.previousViewportTop ≤ first)
    (hpos : Placeable pos (newLines.length - f.rows) newLines.length f.columns)
    (hview : Placeable pos s.previousViewportTop newLines.length f.columns) :
    ∃ s' output, drawChanged u s f pos newLines s.previousViewportTop first last = some (s', output) ∧
      Rendered pos newLines s' (t.run d output) := by
  obtain ⟨hle, hfirstOld, -, hgrown, hshrunk, heven, hsame⟩ := changedRange_some hkept.drawn hdrawn hrange
  have hlen := length_le hkept.on
  have htop := hkept.top_le
  have hsome := length_pos_of_ne_nil hfresh
  -- the first line to draw, or the one before it, is in the window
  generalize happend : (decide (s.previousLines.length < newLines.length) && decide (first = s.previousLines.length) &&
    decide (0 < first)) = appendStart
  have happend' : appendStart = true ↔ s.previousLines.length < newLines.length ∧ first = s.previousLines.length := by
    rw [← happend]
    simp only [Bool.and_eq_true, decide_eq_true_eq]
    omega
  generalize htgt : (if appendStart then first - 1 else first) = target
  have hwin : s.previousViewportTop ≤ target ∧ target < s.previousViewportTop + t.rows ∧
      (appendStart = true → target + 1 = first) ∧ (appendStart = false → target = first) := by
    cases appendStart with
    | false =>
      rw [if_neg Bool.false_ne_true] at htgt
      have hnot : ¬ (s.previousLines.length < newLines.length ∧ first = s.previousLines.length) :=
        fun h => Bool.false_ne_true (happend'.mpr h)
      exact ⟨by omega, by omega, fun h => (by cases h), fun _ => htgt.symm⟩
    | true =>
      rw [if_pos rfl] at htgt
      obtain ⟨hgrows, hat⟩ := happend'.mp rfl
      exact ⟨by omega, by omega, fun _ => by omega, fun h => (by cases h)⟩
  obtain ⟨hlo, hhi, hone, hzero⟩ := hwin
  generalize hend : min last (newLines.length - 1) = renderEnd
  have hchg : ((newLines.take (renderEnd + 1)).drop first).length = renderEnd + 1 - first := length_changed (by omega)
  have hfits : ((newLines.take (renderEnd + 1)).drop first).any
      (fun line => decide (f.columns < u.visibleWidth line)) = false := by
    rw [List.any_eq_false]
    intro line hline
    have := hwide line (mem_of_mem_take (mem_of_mem_drop hline))
    simpa using this
  rw [drawChanged]
  have hscroll : target + 1 - (s.previousViewportTop + f.rows) = 0 := by omega
  simp only [happend, htgt, hend, hfits, hscroll, Nat.lt_irrefl, Nat.add_zero, Bool.false_eq_true, if_false,
    nil_append]
  have hfinal : ¬ (newLines.length < s.previousLines.length ∧ renderEnd < newLines.length - 1) := fun h => by
    have := hshrunk h.1
    omega
  rw [if_neg hfinal]
  have hreach := hkept.on.moveRows (d := d) hlo hhi
  rw [show ((target : Nat) - s.hardwareCursorRow : Int) =
    (target - s.previousViewportTop) - (s.hardwareCursorRow - s.previousViewportTop) by omega] at hreach
  obtain ⟨top, hsameTop, hat, hcol⟩ := firstLine_on (d := d) hreach hone hzero
  simp only [Terminal.run_rows] at hsameTop
  have hsomeChanged : (newLines.take (renderEnd + 1)).drop first ≠ [] := by
    rw [← length_pos_iff, hchg]
    omega
  have hdraw := hat.lines (d := d) hcol (Or.inl rfl : true = true ∨ _) hsomeChanged
  rw [hchg, Terminal.run_rows, show first + (renderEnd + 1 - first) = renderEnd + 1 by omega,
    show first + (renderEnd + 1 - first - 1) = renderEnd by omega, Terminal.run_rows, hsameTop _ (by omega)] at hdraw
  refine ⟨_, _, rfl, keepFrame_rendered hrows hcolumns hdrawn ?_ ?_ ?_ ?_⟩
  · rw [run_synchronized]
    simp only [Terminal.run_append]
    rw [← hrows]
    by_cases hshort : newLines.length < s.previousLines.length
    · have hlast : renderEnd = newLines.length - 1 := by
        have := hshrunk hshort
        omega
      have hwin : max s.previousViewportTop (renderEnd + 1 - t.rows) = s.previousViewportTop := by omega
      rw [if_pos hshort, if_neg (show ¬ renderEnd < newLines.length - 1 by omega), nil_append,
        Terminal.run_append, hwin]
      rw [hwin] at hdraw
      have herased := hdraw.eraseNext (d := d) (n := s.previousLines.length - newLines.length)
        (by simp only [Terminal.run_rows]; omega)
      have hup := herased.up (d := d) (n := s.previousLines.length - newLines.length) (by omega) (by omega)
      have hcont := erased_changed (by omega) hend hsame hfirst hshort (by omega)
      rw [Nat.add_sub_cancel, hcont] at hup
      exact hup
    · rw [if_neg hshort]
      have hcont := funext fun i => @written_changed _ _ _ _ _ (by omega) hend hsame i (.inr (by omega))
      rw [hcont] at hdraw
      exact hdraw
  · dsimp only
    omega
  · rintro rfl
    exact absurd hfirst (Nat.not_lt_zero _)
  · intro p hp
    obtain ⟨hbottom, hrow, hcolumn⟩ := hpos p hp
    have := (hview p hp).1
    exact ⟨by dsimp only; omega, hrow, hcolumn⟩

end Paths

/-! ## Frames -/

/-- What every frame is taken to be: drawn outside Termux on a terminal that has room, its lines
not wider than that. -/
structure Frame.Fits (f : Frame) (u : TextUtils) : Prop where
  columns : 0 < f.columns
  rows : 0 < f.rows
  notTermux : f.isTermuxSession = false
  narrow : ∀ line ∈ f.newLines u, u.visibleWidth line ≤ f.columns

/-- The frame is drawn on a cleared screen: the size changed, the setting asks for it, or a line
above the window did. -/
def Redraws (u : TextUtils) (s : Screen) (f : Frame) : Prop :=
  widthChanged s f = true ∨ heightChanged s f = true ∨ clearsShrunk s f (f.newLines u) = true ∨
    (f.newLines u).length ≤ s.previousViewportTop ∨
    ∃ i, i < s.previousViewportTop ∧ lineAt s.previousLines i ≠ lineAt (f.newLines u) i

/-- The cursor of a frame has a column, and it is not above the window unless all is redrawn. -/
def CursorInView (u : TextUtils) (s : Screen) (f : Frame) : Prop :=
  ∀ p, f.cursorPos u = some p → p.col < f.columns ∧ (s.previousViewportTop ≤ p.row ∨ Redraws u s f)

theorem placeable_bottom (hview : CursorInView u s f) :
    Placeable (f.cursorPos u) ((f.newLines u).length - f.rows) (f.newLines u).length f.columns :=
  fun p hp => ⟨(cursorPos_row hp).1, (cursorPos_row hp).2, (hview p hp).1⟩

theorem placeable_window (hview : CursorInView u s f) (hwidth : widthChanged s f = false)
    (hheight : heightChanged s f = false) (hclear : clearsShrunk s f (f.newLines u) = false)
    (htop : s.previousViewportTop ≤ (f.newLines u).length - 1)
    (habove : ∀ i, i < s.previousViewportTop → s.previousLines[i]? = (f.newLines u)[i]?) :
    Placeable (f.cursorPos u) s.previousViewportTop (f.newLines u).length f.columns := by
  intro p hp
  have hrow := (cursorPos_row hp).2
  obtain ⟨hcol, hin | hwidth' | hheight' | hclear' | hshort | ⟨i, hi, hdiffer⟩⟩ := hview p hp
  · exact ⟨hin, hrow, hcol⟩
  · exact absurd (hwidth.symm.trans hwidth') Bool.false_ne_true
  · exact absurd (hheight.symm.trans hheight') Bool.false_ne_true
  · exact absurd (hclear.symm.trans hclear') Bool.false_ne_true
  · omega
  · exact absurd (by rw [lineAt_getElem?, lineAt_getElem?, habove i hi]) hdiffer

/-- A frame on a terminal whose size is new, or which the renderer remembers, is rendered. -/
theorem doRender_rendered (hkept : Kept s t ∨ widthChanged s f = true ∨ heightChanged s f = true)
    (hrows : t.rows = f.rows) (hcolumns : t.columns = f.columns) (hfits : f.Fits u) (hview : CursorInView u s f) :
    ∃ s' output, doRender u s f = some (s', output) ∧
      Rendered (f.cursorPos u) (f.newLines u) s' (t.run d output) := by
  have hdrawn := newLines_drawn u f
  have hbottom := placeable_bottom hview
  have hfull := fullRender_rendered (d := d) (s := s) hrows hcolumns hfits.rows hdrawn (Or.inl rfl : true = true ∨ _)
    hbottom
  rw [doRender]
  cases hwidth : widthChanged s f with
  | true =>
    rw [Bool.not_true, Bool.and_false, Bool.false_and, if_neg Bool.false_ne_true, if_pos rfl]
    exact ⟨_, _, rfl, hfull⟩
  | false =>
  cases hheight : heightChanged s f with
  | true =>
    rw [Bool.not_true, Bool.and_false, hfits.notTermux, if_neg Bool.false_ne_true, if_neg Bool.false_ne_true,
      if_pos rfl]
    exact ⟨_, _, rfl, hfull⟩
  | false =>
  have hkept := hkept.resolve_right (by rw [hwidth, hheight]; simp)
  by_cases hempty : s.previousLines = []
  · obtain ⟨hcol, hhome⟩ := hkept.empty hempty
    have htop := hkept.top_le
    have hon := hkept.on
    rw [hempty, length_nil] at htop
    rw [hempty, hhome, show s.previousViewportTop = 0 by omega] at hon
    rw [if_pos (by rw [hempty]; rfl)]
    exact ⟨_, _, rfl, fullRender_rendered hrows hcolumns hfits.rows hdrawn (.inr ⟨hon, hcol⟩) hbottom⟩
  · rw [if_neg (by rw [isEmpty_eq_false_iff.mpr hempty]; exact Bool.false_ne_true), if_neg Bool.false_ne_true,
      if_neg (by rw [Bool.false_and]; exact Bool.false_ne_true), if_neg Bool.false_ne_true]
    cases hclear : clearsShrunk s f (f.newLines u) with
    | true =>
      rw [if_pos rfl]
      exact ⟨_, _, rfl, hfull⟩
    | false =>
      rw [if_neg Bool.false_ne_true]
      have hwin := placeable_window hview hwidth hheight hclear
      have htop := hkept.top_le
      cases hrange : changedRange s.previousLines (f.newLines u) with
      | none =>
        have hsame := changedRange_none hkept.drawn hdrawn hrange
        exact ⟨_, _, rfl, unchanged_rendered hkept hrows hcolumns hsame hempty
          (hwin (by rwa [hsame]) fun i _ => by rw [hsame])⟩
      | some range =>
        obtain ⟨first, last⟩ := range
        obtain ⟨hle, hold, hnew, hgrown, -, heven, hsame⟩ := changedRange_some hkept.drawn hdrawn hrange
        dsimp only
        by_cases hdeleted : (f.newLines u).length ≤ first
        · rw [if_pos hdeleted]
          exact ⟨_, _, rfl, clearDeleted_rendered hkept hrows hcolumns hdrawn hfits.rows (by omega)
            (fun i hi => hsame i (.inl (by omega))) hbottom fun htop =>
              hwin htop fun i hi => hsame i (.inl (by omega))⟩
        · rw [if_neg hdeleted]
          by_cases habove : first < s.previousViewportTop
          · rw [if_pos habove]
            exact ⟨_, _, rfl, hfull⟩
          · rw [if_neg habove]
            exact drawChanged_rendered hkept hrows hcolumns hdrawn hfits.rows hfits.narrow hempty hrange (by omega)
              (by omega) hbottom (hwin (by omega) fun i hi => hsame i (.inl (by omega)))

/-! ## Runs -/

/-- The renderer and its terminal. -/
structure World where
  screen : Screen
  terminal : Terminal JsString

/-- A terminal of another size shows anything, its cursor anywhere, when a frame comes. -/
def Frame.sized (f : Frame) (t resized : Terminal JsString) : Terminal JsString :=
  if t.columns = f.columns ∧ t.rows = f.rows then t else { resized with columns := f.columns, rows := f.rows }

def World.step (u : TextUtils) (d : Display JsString) (w : World) (frame : Frame × Terminal JsString) : Option World :=
  (doRender u w.screen frame.1).map fun drawn => ⟨drawn.1, (frame.1.sized w.terminal frame.2).run d drawn.2⟩

/-- Frames one after the other, each with what a resized terminal would show. -/
def World.run (u : TextUtils) (d : Display JsString) (w : World) (frames : List (Frame × Terminal JsString)) :
    Option World := frames.foldlM (World.step u d) w

/-- A new renderer on a cleared terminal. -/
def World.start (columns rows : Nat) : World := ⟨{}, Terminal.cleared columns rows⟩

/-- Every cursor of the run is in view when its frame comes. -/
def CursorsInView (u : TextUtils) (d : Display JsString) : World → List (Frame × Terminal JsString) → Prop
  | _, [] => True
  | w, frame :: rest =>
    CursorInView u w.screen frame.1 ∧ ∀ w', w.step u d frame = some w' → CursorsInView u d w' rest

/-- The screen shows the frame from `previousViewportTop` on, `hardwareCursorRow` is the line of
the cursor, and a cursor that the frame has stands where the frame has it. -/
structure World.Shows (w : World) (u : TextUtils) (f : Frame) : Prop where
  rows : ∀ r, r < f.rows → w.terminal.row r = (f.newLines u)[w.screen.previousViewportTop + r]?
  cursor : w.screen.hardwareCursorRow = w.screen.previousViewportTop + w.terminal.cursorRow ∧
    w.terminal.cursorRow < f.rows
  stands : ∀ p, f.cursorPos u = some p →
    w.screen.previousViewportTop + w.terminal.cursorRow = p.row ∧ w.terminal.cursorCol = p.col

theorem sized_rows (f : Frame) (t resized : Terminal JsString) : (f.sized t resized).rows = f.rows := by
  rw [Frame.sized]
  split
  · rename_i h
    exact h.2
  · rfl

theorem sized_columns (f : Frame) (t resized : Terminal JsString) : (f.sized t resized).columns = f.columns := by
  rw [Frame.sized]
  split
  · rename_i h
    exact h.1
  · rfl

/-- What holds of the world before each frame: the renderer remembers the terminal, or is new. -/
structure Ready (w : World) (frame : Frame × Terminal JsString) : Prop where
  kept : Kept w.screen w.terminal
  size : w.screen.previousWidth = 0 → w.terminal.columns = frame.1.columns ∧ w.terminal.rows = frame.1.rows
  columns : 0 < w.terminal.columns
  rows : 0 < w.terminal.rows

variable {frame : Frame × Terminal JsString}

/-- A step keeps the memory of the renderer, and the screen shows the frame. -/
theorem step_shows {w : World} (hready : Ready w frame) (hfits : frame.1.Fits u)
    (hview : CursorInView u w.screen frame.1) :
    ∃ w', w.step u d frame = some w' ∧ w'.Shows u frame.1 ∧ ∀ next, Ready w' next := by
  obtain ⟨f, resized⟩ := frame
  have hrows := sized_rows f w.terminal resized
  have hcolumns := sized_columns f w.terminal resized
  have hkept : Kept w.screen (f.sized w.terminal resized) ∨ widthChanged w.screen f = true ∨
      heightChanged w.screen f = true := by
    by_cases hsame : w.terminal.columns = f.columns ∧ w.terminal.rows = f.rows
    · rw [Frame.sized, if_pos hsame]
      exact .inl hready.kept
    · have hcolumns := hready.columns
      have hrows := hready.rows
      obtain ⟨hwidth, -⟩ | ⟨hwidth, hheight⟩ := hready.kept.size
      · exact absurd (hready.size hwidth) hsame
      · rw [not_and_or] at hsame
        refine .inr (hsame.imp (fun h => ?_) fun h => ?_)
        · rw [widthChanged, Bool.and_eq_true, bne_iff_ne, bne_iff_ne, hwidth]
          exact ⟨by omega, h⟩
        · rw [heightChanged, Bool.and_eq_true, bne_iff_ne, bne_iff_ne, hheight]
          exact ⟨by omega, h⟩
  obtain ⟨s', output, hdraw, hrend⟩ := doRender_rendered (d := d) hkept hrows hcolumns hfits hview
  have hrows' : ((f.sized w.terminal resized).run d output).rows = f.rows := by rw [Terminal.run_rows, hrows]
  have hcolumns' : ((f.sized w.terminal resized).run d output).columns = f.columns := by
    rw [Terminal.run_columns, hcolumns]
  have hon := hrend.kept.on
  rw [hrend.lines_eq] at hon
  refine ⟨⟨s', (f.sized w.terminal resized).run d output⟩, by rw [World.step, hdraw]; rfl, ⟨?_, ?_, ?_⟩, ?_⟩
  · intro r hr
    exact hon.shown r (by rwa [hrows'])
  · exact ⟨hon.line_eq, hrows' ▸ hon.inside⟩
  · intro p hp
    obtain ⟨hrow, hcol⟩ := hrend.stands p hp
    exact ⟨hon.line_eq.symm.trans hrow, hcol⟩
  · intro next
    refine ⟨hrend.kept, fun hzero => ?_, by rw [hcolumns']; exact hfits.columns, by rw [hrows']; exact hfits.rows⟩
    have hwidth := hrend.size.1
    have hpos : 0 < f.columns := hfits.columns
    rw [hcolumns'] at hwidth
    dsimp only at hzero
    omega

theorem run_shows {w : World} {frames : List (Frame × Terminal JsString)} (hready : ∀ frame ∈ frames.head?, Ready w frame)
    (hfits : ∀ frame ∈ frames, frame.1.Fits u) (hview : CursorsInView u d w frames)
    {front rest : List (Frame × Terminal JsString)}
    (hsplit : frames = front ++ frame :: rest) :
    ∃ w', w.run u d (front ++ [frame]) = some w' ∧ w'.Shows u frame.1 := by
  induction front generalizing w frames with
  | nil =>
    subst hsplit
    obtain ⟨w', hstep, hshows, -⟩ := step_shows (d := d) (hready frame rfl) (hfits _ mem_cons_self) hview.1
    exact ⟨w', by rw [World.run, nil_append, foldlM_cons, hstep]; rfl, hshows⟩
  | cons first front ih =>
    subst hsplit
    obtain ⟨w₁, hstep, -, hready'⟩ := step_shows (d := d) (hready first rfl) (hfits _ mem_cons_self) hview.1
    obtain ⟨w', hrun, hshows⟩ := ih (fun next _ => hready' next) (fun f hf => hfits f (mem_cons_of_mem _ hf))
      (hview.2 w₁ hstep) rfl
    exact ⟨w', by rw [World.run, cons_append, foldlM_cons, hstep]; exact hrun, hshows⟩

/-- Differential rendering equals full rendering: after every frame of a run whose cursors are in
view, the screen shows that frame. -/
theorem frames_shown (u : TextUtils) (d : Display JsString) (columns rows : Nat)
    (frames : List (Frame × Terminal JsString))
    (hstart : ∀ frame ∈ frames.head?, frame.1.columns = columns ∧ frame.1.rows = rows)
    (hfits : ∀ frame ∈ frames, frame.1.Fits u) (hview : CursorsInView u d (.start columns rows) frames)
    (front rest : List (Frame × Terminal JsString)) (frame : Frame × Terminal JsString)
    (hsplit : frames = front ++ frame :: rest) :
    ∃ w, (World.start columns rows).run u d (front ++ [frame]) = some w ∧ w.Shows u frame.1 := by
  refine run_shows (fun first hfirst => ?_) hfits hview hsplit
  obtain ⟨hcolumns, hrows⟩ := hstart first hfirst
  have hfirst' := hfits first (List.mem_of_mem_head? hfirst)
  have hpos : 0 < rows := hrows ▸ hfirst'.rows
  refine ⟨⟨?_, Nat.zero_le _, fun line h => (by cases h), fun _ => ⟨rfl, rfl⟩, .inl ⟨rfl, rfl, rfl⟩⟩,
    fun _ => ⟨hcolumns.symm, hrows.symm⟩, hcolumns ▸ hfirst'.columns, hpos⟩
  exact Terminal.On.cleared columns hpos

/-- Texts of one column a unit, escape sequences apart. -/
def plainText : TextUtils where
  visibleWidth line := if SEGMENT_RESET.isSuffixOf line then line.length - SEGMENT_RESET.length else line.length
  normalizeTerminalOutput line := line

def plainDisplay : Display JsString := ⟨plainText.visibleWidth, fun _ _ s => s⟩

/-- Five lines on three rows. -/
def tallFrame : Frame := { columns := 10, rows := 3, lines := [[97], [98], [99], [100], [101]] }

/-- The same frame without its last line, the cursor on the line `row`. -/
def shrunkFrame (row : Nat) : Frame :=
  { tallFrame with lines := [[97], [98], [99], [100]].modify row fun line => CURSOR_MARKER ++ line }

theorem shrunkFrame_fits (row : Nat) (h : row < 4) : (shrunkFrame row).Fits plainText := by
  refine ⟨Nat.succ_pos _, Nat.succ_pos _, rfl, ?_⟩
  interval_cases row <;> decide

theorem tallFrame_fits : tallFrame.Fits plainText := ⟨by decide, by decide, rfl, by decide⟩

/-- The cursor is on the last line of the frame that shrank. -/
theorem frames_shown_shrunk : ∃ w, (World.start 10 3).run plainText plainDisplay
      [(tallFrame, .cleared 10 3), (shrunkFrame 3, .cleared 10 3)] = some w ∧ w.Shows plainText (shrunkFrame 3) := by
  refine frames_shown plainText plainDisplay 10 3 [(tallFrame, .cleared 10 3), (shrunkFrame 3, .cleared 10 3)] ?_ ?_ ?_
    [(tallFrame, .cleared 10 3)] [] (shrunkFrame 3, .cleared 10 3) rfl
  · rintro frame ⟨⟩
    exact ⟨rfl, rfl⟩
  · intro frame hframe
    obtain rfl | rfl : frame = _ ∨ frame = _ := by simpa using hframe
    · exact tallFrame_fits
    · exact shrunkFrame_fits 3 (by decide)
  · refine ⟨fun p hp => ?_, fun w hw => ⟨fun p hp => ?_, fun _ _ => trivial⟩⟩
    · have hnone : tallFrame.cursorPos plainText = none := by decide
      rw [hnone] at hp
      cases hp
    · have hplace : (shrunkFrame 3).cursorPos plainText = some ⟨3, 0⟩ := by decide
      have htop : ((World.start 10 3).step plainText plainDisplay (tallFrame, .cleared 10 3)).map
          (fun w => w.screen.previousViewportTop) = some 2 := by decide
      rw [hw, Option.map_some, Option.some.injEq] at htop
      rw [hplace, Option.some.injEq] at hp
      rw [← hp, htop]
      exact ⟨Nat.succ_pos _, .inl (by decide)⟩

/-- With the cursor on the second line, which the window does not show, the renderer takes the
cursor to be where it is not. -/
theorem frames_not_shown_above : (tallFrame.Fits plainText ∧ (shrunkFrame 1).Fits plainText) ∧
      ¬ ∃ w, (World.start 10 3).run plainText plainDisplay
        [(tallFrame, .cleared 10 3), (shrunkFrame 1, .cleared 10 3)] = some w ∧ w.Shows plainText (shrunkFrame 1) := by
  refine ⟨⟨tallFrame_fits, shrunkFrame_fits 1 (by decide)⟩, ?_⟩
  rintro ⟨w, hrun, hshows⟩
  have hplaces : ((World.start 10 3).run plainText plainDisplay
      [(tallFrame, .cleared 10 3), (shrunkFrame 1, .cleared 10 3)]).map (fun w =>
        (w.screen.hardwareCursorRow, w.screen.previousViewportTop + w.terminal.cursorRow)) = some (1, 2) := by
    decide
  rw [hrun, Option.map_some, hshows.cursor.1, Option.some.injEq, Prod.mk.injEq] at hplaces
  exact absurd (hplaces.1.symm.trans hplaces.2) (by decide)

end Shuvpi.TuiMainScreen
