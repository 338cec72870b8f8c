import Shuvpi.JsText
import Shuvpi.Occurrence
import Shuvpi.AnsiTerminal

/-!
# The main-screen renderer

`TuiMainScreen.doRender` (`tui-main-screen.ts`): a frame is drawn into the main screen of a
terminal by sending what differs from the frame before. Lines hold no images, so what the source
does for images is left out. Output is a list of what is sent, not text in bounded chunks.
-/
namespace Shuvpi.TuiMainScreen

open Occurrence (indexOf?)

abbrev Output := TerminalOutput JsString

def CURSOR_MARKER : JsString := [27, 95, 112, 105, 58, 99, 7]

def SEGMENT_RESET : JsString := [27, 91, 48, 109, 27, 93, 56, 59, 59, 7]

/-- The functions of `utils.ts` that lines go through. -/
structure TextUtils where
  visibleWidth : JsString → Nat
  normalizeTerminalOutput : JsString → JsString

/-- What `doRender` reads besides its own state: the terminal's size, the lines that the
components and the overlays give, settings and environment. -/
structure Frame where
  columns : Nat
  rows : Nat
  lines : List JsString
  hasOverlayEntries : Bool := false
  clearOnShrink : Bool := false
  showHardwareCursor : Bool := false
  isTermuxSession : Bool := false

structure CursorPosition where
  row : Nat
  col : Nat
  deriving DecidableEq, Repr

/-- The state of the renderer; a size of 0 is one not known yet. -/
structure Screen where
  previousLines : List JsString := []
  previousWidth : Nat := 0
  previousHeight : Nat := 0
  cursorRow : Nat := 0
  hardwareCursorRow : Nat := 0
  maxLinesRendered : Nat := 0
  previousViewportTop : Nat := 0

/-! ## Lines -/

def applyLineResets (u : TextUtils) (lines : List JsString) : List JsString :=
  lines.map fun line => u.normalizeTerminalOutput line ++ SEGMENT_RESET

/-- The scan of `extractCursorPosition`, down from the row before `row`. -/
def findMarker (u : TextUtils) (lines : List JsString) (viewportTop : Nat) :
    Nat → Option (CursorPosition × List JsString)
  | 0 => none
  | row + 1 =>
    if row < viewportTop then none
    else
      let line := lines.getD row []
      match indexOf? CURSOR_MARKER line with
      | none => findMarker u lines viewportTop row
      | some markerIndex =>
        some (⟨row, u.visibleWidth (line.take markerIndex)⟩,
          lines.set row (line.take markerIndex ++ line.drop (markerIndex + CURSOR_MARKER.length)))

/-- The place of the cursor marker and the lines without it. Only the bottom `height` lines are
searched. -/
def extractCursorPosition (u : TextUtils) (lines : List JsString) (height : Nat) :
    Option CursorPosition × List JsString :=
  match findMarker u lines (lines.length - height) lines.length with
  | none => (none, lines)
  | some (cursorPos, stripped) => (some cursorPos, stripped)

def Frame.cursorPos (f : Frame) (u : TextUtils) : Option CursorPosition := (extractCursorPosition u f.lines f.rows).1

/-- The lines that are drawn. -/
def Frame.newLines (f : Frame) (u : TextUtils) : List JsString :=
  applyLineResets u (extractCursorPosition u f.lines f.rows).2

/-! ## Output -/

def positionHardwareCursor (s : Screen) (f : Frame) (cursorPos : Option CursorPosition) (totalLines : Nat) :
    Screen × List Output :=
  match cursorPos with
  | none => (s, [.mode .hideCursor])
  | some pos =>
    if totalLines = 0 then (s, [.mode .hideCursor])
    else
      let targetRow := min pos.row (totalLines - 1)
      ({ s with hardwareCursorRow := targetRow }, TerminalOutput.moveRows (targetRow - s.hardwareCursorRow : Int) ++
          [.column (pos.col + 1), .mode (if f.showHardwareCursor then .showCursor else .hideCursor)])

/-- The end of every path that has drawn lines: the cursor is placed and the frame is kept. -/
def keepFrame (s : Screen) (f : Frame) (cursorPos : Option CursorPosition) (newLines : List JsString)
    (output : List Output) : Screen × List Output :=
  let placed := positionHardwareCursor s f cursorPos newLines.length
  ({ placed.1 with previousLines := newLines, previousWidth := f.columns, previousHeight := f.rows },
    output ++ placed.2)

/-- `synchronized` output. -/
def synchronized (output : List Output) : List Output := .mode .beginSynchronized :: output ++ [.mode .endSynchronized]

def fullRender (s : Screen) (f : Frame) (cursorPos : Option CursorPosition) (newLines : List JsString) (clear : Bool) :
    Screen × List Output :=
  keepFrame
    { s with
      cursorRow := newLines.length - 1
      hardwareCursorRow := newLines.length - 1
      maxLinesRendered := if clear then newLines.length else max s.maxLinesRendered newLines.length
      previousViewportTop := max f.rows newLines.length - f.rows }
    f cursorPos newLines
    (synchronized ((if clear then [.clearScreen, .home, .mode .clearScrollback] else []) ++
      TerminalOutput.lines false newLines))

/-- The line at an index, empty beyond the end. -/
def lineAt (lines : List JsString) (i : Nat) : JsString := lines.getD i []

/-- The first and the last of the first `maxLines` lines that differ. -/
def scanChanges (oldLines newLines : List JsString) (maxLines : Nat) : Option (Nat × Nat) :=
  (List.range maxLines).foldl
    (fun range i =>
      if lineAt oldLines i = lineAt newLines i then range else some ((range.map Prod.fst).getD i, i)) none

/-- The range of lines that changed; lines that are new at the end are all in it. -/
def changedRange (oldLines newLines : List JsString) : Option (Nat × Nat) :=
  let range := scanChanges oldLines newLines (max newLines.length oldLines.length)
  if oldLines.length < newLines.length then
    some ((range.map Prod.fst).getD oldLines.length, newLines.length - 1)
  else range

/-- All changes are in deleted lines: these are cleared. -/
def clearDeleted (s : Screen) (f : Frame) (cursorPos : Option CursorPosition) (newLines : List JsString)
    (prevViewportTop : Nat) : Screen × List Output :=
  if newLines.length < s.previousLines.length then
    let targetRow := newLines.length - 1
    let extraLines := s.previousLines.length - newLines.length
    if targetRow < prevViewportTop then fullRender s f cursorPos newLines true
    else if f.rows < extraLines then fullRender s f cursorPos newLines true
    else
      let lineDiff : Int := (targetRow - prevViewportTop) - (s.hardwareCursorRow - prevViewportTop)
      let clearStartOffset := if newLines.length = 0 then 0 else 1
      let moveBack := extraLines - 1 + clearStartOffset
      keepFrame
        { s with cursorRow := targetRow, hardwareCursorRow := targetRow, previousViewportTop := prevViewportTop }
        f cursorPos newLines
        (synchronized (TerminalOutput.moveRows lineDiff ++ [.carriageReturn] ++
          (if 0 < extraLines ∧ 0 < clearStartOffset then [.down clearStartOffset] else []) ++
          TerminalOutput.eraseDown extraLines ++ (if 0 < moveBack then [.up moveBack] else [])))
  else
    keepFrame { s with previousViewportTop := prevViewportTop } f cursorPos newLines []

/-- Lines from the first to the last changed one are drawn again; the screen is scrolled first
when they start below it. A line wider than the terminal stops the program. -/
def drawChanged (u : TextUtils) (s : Screen) (f : Frame) (cursorPos : Option CursorPosition) (newLines : List JsString)
    (prevViewportTop firstChanged lastChanged : Nat) : Option (Screen × List Output) :=
  let appendStart : Bool := decide (s.previousLines.length < newLines.length) &&
    decide (firstChanged = s.previousLines.length) && decide (0 < firstChanged)
  let moveTargetRow := if appendStart then firstChanged - 1 else firstChanged
  let scroll := moveTargetRow + 1 - (prevViewportTop + f.rows)
  let moveToBottom := f.rows - 1 - min (f.rows - 1) (s.hardwareCursorRow - prevViewportTop)
  let scrolled : List Output :=
    if 0 < scroll then
      (if 0 < moveToBottom then [.down moveToBottom] else []) ++
        (List.replicate scroll [.carriageReturn, .lineFeed]).flatten
    else []
  let viewportTop := prevViewportTop + scroll
  let hardwareCursorRow := if 0 < scroll then moveTargetRow else s.hardwareCursorRow
  let lineDiff : Int := (moveTargetRow - viewportTop) - (hardwareCursorRow - viewportTop)
  let renderEnd := min lastChanged (newLines.length - 1)
  let changed := (newLines.take (renderEnd + 1)).drop firstChanged
  if changed.any fun line => decide (f.columns < u.visibleWidth line) then none
  else
    let shrunk := newLines.length < s.previousLines.length
    let finalCursorRow := if shrunk ∧ renderEnd < newLines.length - 1 then newLines.length - 1 else renderEnd
    let extraLines := s.previousLines.length - newLines.length
    let cleared : List Output :=
      if shrunk then
        (if renderEnd < newLines.length - 1 then [.down (newLines.length - 1 - renderEnd)] else []) ++
          TerminalOutput.eraseNext extraLines ++ [.up extraLines]
      else []
    some (keepFrame
      { s with
        cursorRow := newLines.length - 1
        hardwareCursorRow := finalCursorRow
        maxLinesRendered := max s.maxLinesRendered newLines.length
        previousViewportTop := max viewportTop (finalCursorRow + 1 - f.rows) }
      f cursorPos newLines
      (synchronized (scrolled ++ TerminalOutput.moveRows lineDiff ++
        (if appendStart then [.carriageReturn, .lineFeed] else [.carriageReturn]) ++
        TerminalOutput.lines true changed ++ cleared)))

def widthChanged (s : Screen) (f : Frame) : Bool := s.previousWidth != 0 && s.previousWidth != f.columns

def heightChanged (s : Screen) (f : Frame) : Bool := s.previousHeight != 0 && s.previousHeight != f.rows

/-- The content shrank below the working area, and the setting asks for a redraw. -/
def clearsShrunk (s : Screen) (f : Frame) (newLines : List JsString) : Bool :=
  f.clearOnShrink && decide (newLines.length < s.maxLinesRendered) && !f.hasOverlayEntries

/-- One frame of a renderer that is not stopped; `none` when a line is too wide. -/
def doRender (u : TextUtils) (s : Screen) (f : Frame) : Option (Screen × List Output) :=
  let previousBufferLength := if 0 < s.previousHeight then s.previousViewportTop + s.previousHeight else f.rows
  let prevViewportTop := if heightChanged s f then previousBufferLength - f.rows else s.previousViewportTop
  let cursorPos := f.cursorPos u
  let newLines := f.newLines u
  if s.previousLines.isEmpty && !widthChanged s f && !heightChanged s f then
    some (fullRender s f cursorPos newLines false)
  else if widthChanged s f then some (fullRender s f cursorPos newLines true)
  else if heightChanged s f && !f.isTermuxSession then some (fullRender s f cursorPos newLines true)
  else if clearsShrunk s f newLines then some (fullRender s f cursorPos newLines true)
  else
    match changedRange s.previousLines newLines with
    | none =>
      let placed := positionHardwareCursor s f cursorPos newLines.length
      some ({ placed.1 with previousViewportTop := prevViewportTop, previousHeight := f.rows }, placed.2)
    | some (firstChanged, lastChanged) =>
      if newLines.length ≤ firstChanged then some (clearDeleted s f cursorPos newLines prevViewportTop)
      else if firstChanged < prevViewportTop then some (fullRender s f cursorPos newLines true)
      else drawChanged u s f cursorPos newLines prevViewportTop firstChanged lastChanged

end Shuvpi.TuiMainScreen
