import Shuvpi.AdaptivePublisher
import Shuvpi.Truncate

/-!
# Captured shell output

`harness/utils/output-capture.ts`: one bounded view of the output of a command, and the updates by
which it is published.
-/
open List Option

namespace Shuvpi.ShellOutput

open JsText TextFile TextDecoder TextLines Truncate AdaptivePublisher

inductive Retain where
  | head | tail
  deriving DecidableEq, Repr

structure ShellOutputTruncation where
  truncated : Bool
  truncatedBy : Option TruncatedBy
  totalLines : Nat
  totalBytes : Nat
  outputLines : Nat
  outputBytes : Nat
  lastLinePartial : Bool
  firstLineExceedsLimit : Bool
  maxLines : Nat
  maxBytes : Nat
  deriving DecidableEq, Repr

structure ShellOutputMetadata where
  truncation : ShellOutputTruncation
  spillPath : Option JsString
  lastLineBytes : Option Nat
  deriving DecidableEq, Repr

structure ShellOutputView extends ShellOutputMetadata where
  text : JsString
  deriving DecidableEq, Repr

inductive ShellOutputUpdate where
  | replace (output : ShellOutputView)
  | append (text : JsString) (metadata : ShellOutputMetadata)
  | slide (drop : Nat) (text : JsString) (metadata : ShellOutputMetadata)
  | metadata (metadata : ShellOutputMetadata)
  deriving DecidableEq, Repr

/-! ## The capture -/

structure OutputCapture where
  maxBytes : Nat
  maxLines : Nat
  retain : Retain
  decoder : Decoder
  buffer : JsString
  bufferBytes : Nat
  totalBytes : Nat
  newlines : Nat
  endsWithNewline : Bool
  currentLineBytes : Nat
  spillPath : Option JsString

inductive Chunk where
  | text (chunk : JsString)
  | bytes (chunk : Bytes)

/-- The control characters other than tab and newline, and the interlinear annotation marks. -/
def isInvalid (u : UInt16) : Bool :=
  u.toNat ≤ 0x08 || (0x0b ≤ u.toNat && u.toNat ≤ 0x1f) || (0xfff9 ≤ u.toNat && u.toNat ≤ 0xfffb)

def sanitizeShellOutput (text : JsString) : JsString := text.filter fun u => !isInvalid u

def trimToLastUtf8Bytes (text : JsString) (maxBytes : Nat) : JsString :=
  let bytes := textEncode text
  if bytes.length ≤ maxBytes then text else ofScalars (decodeText (lastBytes maxBytes bytes))

def trimToFirstUtf8Bytes (text : JsString) (maxBytes : Nat) : JsString :=
  let bytes := textEncode text
  if bytes.length ≤ maxBytes then text else ofScalars (decodeText (firstBytes maxBytes bytes))

namespace OutputCapture

def new (maxBytes maxLines : Nat) (retain : Retain) : OutputCapture :=
  ⟨maxBytes, maxLines, retain, .new, [], 0, 0, 0, true, 0, none⟩

def totalLines (c : OutputCapture) : Nat := c.newlines + if c.endsWithNewline || c.totalBytes == 0 then 0 else 1

def truncated (c : OutputCapture) : Bool := c.totalBytes > c.maxBytes || c.totalLines > c.maxLines

def retained (c : OutputCapture) : TruncationResult :=
  match c.retain with
  | .head => truncateHead c.buffer c.maxLines c.maxBytes
  | .tail => truncateTail c.buffer c.maxLines c.maxBytes

def snapshot (c : OutputCapture) : ShellOutputView where
  text := sanitizeShellOutput c.retained.content
  truncation :=
    { truncated := c.truncated
      truncatedBy := if c.truncated then some (if c.totalLines > c.maxLines then .lines else .bytes) else none
      totalLines := c.totalLines
      totalBytes := c.totalBytes
      outputLines := c.retained.outputLines
      outputBytes := c.retained.outputBytes
      lastLinePartial := c.retained.lastLinePartial
      firstLineExceedsLimit := c.retained.firstLineExceedsLimit
      maxLines := c.retained.maxLines
      maxBytes := c.retained.maxBytes }
  spillPath := c.spillPath
  lastLineBytes := if c.retained.lastLinePartial then some c.currentLineBytes else none

def countText (c : OutputCapture) (text : JsString) : OutputCapture :=
  let textBytes := utf8ByteLength text
  { c with
    totalBytes := c.totalBytes + textBytes
    newlines := c.newlines + text.count 10
    endsWithNewline := text.getLast? = some 10
    currentLineBytes :=
      if 10 ∈ text then utf8ByteLength (text.rtakeWhile (· ≠ 10)) else c.currentLineBytes + textBytes
    buffer := c.buffer ++ text
    bufferBytes := c.bufferBytes + textBytes }

def trimBuffer (c : OutputCapture) : OutputCapture :=
  let guard := c.maxBytes * 2
  if c.bufferBytes > guard * 2 then
    let buffer :=
      match c.retain with
      | .tail => trimToLastUtf8Bytes c.buffer guard
      | .head => trimToFirstUtf8Bytes c.buffer guard
    { c with buffer := buffer, bufferBytes := utf8ByteLength buffer }
  else c

/-- `appendText`, up to where it marks the publisher dirty, and whether it does. -/
def appendText (c : OutputCapture) (text : JsString) : OutputCapture × Bool :=
  if text = [] then (c, false) else ((c.countText text).trimBuffer, true)

def appendBytes (c : OutputCapture) (chunk : Bytes) : OutputCapture × Bool :=
  let text := c.decoder.decode chunk
  { c with decoder := text.2 }.appendText (ofScalars text.1)

def appendEnd (c : OutputCapture) : OutputCapture × Bool :=
  let text := c.decoder.flush
  { c with decoder := text.2 }.appendText (ofScalars text.1)

/-! ## The methods, as their publications cut them -/

def push (chunk : Chunk) (_ : OutputCapture) : List (Piece OutputCapture) :=
  match chunk with
  | .text chunk => [.change appendEnd, .change (·.appendText chunk)]
  | .bytes chunk => [.change (·.appendBytes chunk)]

def finish (_ : OutputCapture) : List (Piece OutputCapture) := [.change appendEnd]

def setSpillPath (path : JsString) (c : OutputCapture) : List (Piece OutputCapture) :=
  if c.spillPath = some path then [] else [.change fun c => ({ c with spillPath := some path }, true), .flush true]

def flush (_ : OutputCapture) : List (Piece OutputCapture) := [.flush true]

end OutputCapture

/-! ## Updates -/

def applyShellOutputUpdate (current : Option ShellOutputView) : ShellOutputUpdate → ShellOutputView
  | .replace output => output
  | .append text metadata => ⟨metadata, (current.elim [] (·.text)) ++ text⟩
  | .slide drop text metadata => ⟨metadata, (current.elim [] (·.text.drop drop)) ++ text⟩
  | .metadata metadata => ⟨metadata, current.elim [] (·.text)⟩

/-- The loop over the occurrences of the probe from here on: the length of the first that is a
beginning of the text. -/
def probeFrom (probe after : JsString) : JsString → Nat → Option Nat
  | [], _ => none
  | u :: rest, candidates =>
    if probe.isPrefixOf (u :: rest) then
      if candidates + 1 > 8 then none
      else if (u :: rest).length ≤ after.length ∧ u :: rest = after.take (u :: rest).length then some (u :: rest).length
      else probeFrom probe after rest (candidates + 1)
    else probeFrom probe after rest candidates

def suffixPrefixOverlap (before after : JsString) (scan : Nat) : Nat :=
  if before.length = 0 ∨ after.length = 0 ∨ scan = 0 then 0
  else
    let tail := if before.length > scan then before.drop (before.length - scan) else before
    let probeLength := min 64 after.length
    match probeFrom (after.take probeLength) after tail 0 with
    | some overlap => overlap
    | none => if probeLength = 1 then 0 else (probeFrom (after.take 1) after tail 0).getD 0

def updateFrom (previous : Option ShellOutputView) (current : ShellOutputView) : ShellOutputUpdate :=
  match previous with
  | none => .replace current
  | some previous =>
    let metadata := current.toShellOutputMetadata
    if current.text = previous.text then .metadata metadata
    else if current.text.length > previous.text.length ∧ current.text.take previous.text.length = previous.text then
      .append (current.text.drop previous.text.length) metadata
    else
      let shared := suffixPrefixOverlap previous.text current.text
        (min previous.text.length (min current.text.length (current.truncation.maxBytes * 2)))
      if shared > 0 then .slide (previous.text.length - shared) (current.text.drop shared) metadata
      else .replace current

theorem probeFrom_some {probe after tail : JsString} {candidates n : Nat}
    (h : probeFrom probe after tail candidates = some n) : n ≤ tail.length ∧ tail.drop (tail.length - n) = after.take n := by
  induction tail generalizing candidates with
  | nil => cases h
  | cons u rest ih =>
    have hrest : ∀ k, probeFrom probe after rest k = some n →
        n ≤ (u :: rest).length ∧ (u :: rest).drop ((u :: rest).length - n) = after.take n := fun k hk => by
      obtain ⟨hle, hdrop⟩ := ih hk
      refine ⟨hle.trans (Nat.le_succ _), ?_⟩
      rw [length_cons, Nat.succ_sub hle, drop_succ_cons]
      exact hdrop
    rw [probeFrom] at h
    split at h
    · split at h
      · cases h
      · split at h
        · rename_i hmatch
          obtain rfl := some.inj h
          exact ⟨le_rfl, by rw [Nat.sub_self]; exact hmatch.2⟩
        · exact hrest _ h
    · exact hrest _ h

/-- The overlap is an end of the one text and a beginning of the other. -/
theorem suffixPrefixOverlap_spec (before after : JsString) (scan : Nat) :
    before.drop (before.length - suffixPrefixOverlap before after scan) =
      after.take (suffixPrefixOverlap before after scan) := by
  have hzero : before.drop (before.length - 0) = after.take 0 := by simp
  rw [suffixPrefixOverlap]
  split
  · exact hzero
  · dsimp only
    generalize htail : (if before.length > scan then before.drop (before.length - scan) else before) = tail
    have hfound : ∀ probe n, probeFrom probe after tail 0 = some n → before.drop (before.length - n) = after.take n :=
      fun probe n hn => by
        obtain ⟨hle, hdrop⟩ := probeFrom_some hn
        rw [← hdrop, ← htail]
        split at htail
        · rename_i hlong
          subst htail
          rw [length_drop] at hle
          rw [if_pos hlong, drop_drop, length_drop]
          congr 1
          omega
        · rename_i hshort
          rw [if_neg hshort]
    split
    · rename_i overlap hprobe
      exact hfound _ _ hprobe
    · split
      · exact hzero
      · cases hone : probeFrom (after.take 1) after tail 0 with
        | none => exact hzero
        | some n => exact hfound _ _ hone

/-- An update leads from the view before it to the view it was made for. -/
theorem apply_updateFrom (previous : Option ShellOutputView) (current : ShellOutputView) :
    applyShellOutputUpdate previous (updateFrom previous current) = current := by
  cases previous with
  | none => rfl
  | some previous =>
    rw [updateFrom]
    dsimp only
    split
    · rename_i hsame
      rw [applyShellOutputUpdate, elim_some, ← hsame]
    · split
      · rename_i happend
        have htext := take_append_drop previous.text.length current.text
        rw [happend.2] at htext
        rw [applyShellOutputUpdate, elim_some, htext]
      · split
        · rw [applyShellOutputUpdate, elim_some, suffixPrefixOverlap_spec, take_append_drop]
        · rfl

/-! ## Publication -/

/-- `measure` is the length of an encoded update. -/
def options (measure : ShellOutputUpdate → Nat) : Options OutputCapture ShellOutputView ShellOutputUpdate where
  snapshot := OutputCapture.snapshot
  update previous current := some (updateFrom previous current)
  measure := measure
  minIntervalMs := 100
  targetBytesPerSecond := 100 * 1024

/-- What happens to a capture and its listener. -/
inductive Call where
  | push (chunk : Chunk)
  | finish
  | setSpillPath (path : JsString)
  | flush
  | listenerReturns
  | listenerThrows
  | timer

def Call.event : Call → Event OutputCapture
  | .push chunk => .call (OutputCapture.push chunk)
  | .finish => .call OutputCapture.finish
  | .setSpillPath path => .call (OutputCapture.setSpillPath path)
  | .flush => .call OutputCapture.flush
  | .listenerReturns => .listenerReturns
  | .listenerThrows => .listenerThrows
  | .timer => .timer

abbrev Captured := World OutputCapture ShellOutputView ShellOutputUpdate

def capturing (measure : ShellOutputUpdate → Nat) (clock : Nat → ℚ) (maxBytes maxLines : Nat) (retain : Retain)
    (calls : List Call) : Captured :=
  run (options measure) clock (.start (.new maxBytes maxLines retain)) (calls.map Call.event)

variable (measure : ShellOutputUpdate → Nat)

theorem updates : Updates (options measure) applyShellOutputUpdate :=
  ⟨fun previous current update h => by rw [← some.inj h, apply_updateFrom], fun _ _ h => by cases h⟩

theorem appendText_marks {c : OutputCapture} {text : JsString} (h : (c.appendText text).2 = false) :
    (c.appendText text).1 = c := by
  rw [OutputCapture.appendText] at h ⊢
  split
  · rfl
  · rename_i hsome
    rw [if_neg hsome] at h
    cases h

theorem event_marks (call : Call) : call.event.Marks (options measure) := by
  have hend : Piece.Marks (options measure) (.change OutputCapture.appendEnd) := fun c h => by
    rw [OutputCapture.appendEnd] at h ⊢
    rw [appendText_marks h]
    rfl
  cases call with
  | push chunk =>
    rintro c piece hpiece
    cases chunk with
    | text chunk =>
      rcases mem_pair.mp hpiece with rfl | rfl
      · exact hend
      · exact fun c h => congrArg (options measure).snapshot (appendText_marks h)
    | bytes chunk =>
      rw [mem_singleton.mp hpiece]
      intro c h
      dsimp only at h ⊢
      rw [OutputCapture.appendBytes] at h ⊢
      rw [appendText_marks h]
      rfl
  | finish =>
    rintro c piece hpiece
    rw [mem_singleton.mp hpiece]
    exact hend
  | setSpillPath path =>
    rintro c piece hpiece
    rw [OutputCapture.setSpillPath] at hpiece
    split at hpiece
    · cases hpiece
    · rcases mem_pair.mp hpiece with rfl | rfl
      · exact fun c h => by cases h
      · trivial
  | flush =>
    rintro c piece hpiece
    rw [mem_singleton.mp hpiece]
    trivial
  | listenerReturns | listenerThrows | timer => trivial

/-- All published updates fold to the view of the latest publication, and a flush publishes what
there is, unless nothing has ever been pushed; after it this stays so until the listener or anyone
else pushes again. -/
theorem updates_fold (measure : ShellOutputUpdate → Nat) (clock : Nat → ℚ) (maxBytes maxLines : Nat) (retain : Retain)
    (calls : List Call) :
    let w := capturing measure clock maxBytes maxLines retain calls
    let flushed := runPieces (options measure) clock w [.flush true]
    (∀ before entry after, w.log = before ++ entry :: after →
      view applyShellOutputUpdate (before ++ [entry]) = some entry.2) ∧
    (w.log ≠ [] ∨ w.publisher.dirty = true → view applyShellOutputUpdate flushed.log = some flushed.owner.snapshot) ∧
    (w.log ≠ [] → w.publisher.dirty = false → view applyShellOutputUpdate w.log = some w.owner.snapshot) ∧
    ∀ previous current, applyShellOutputUpdate previous (updateFrom previous current) = current := by
  intro w flushed
  have hinv : Inv (options measure) applyShellOutputUpdate w := by
    refine run_inv (updates measure) (.start _) fun event hevent => ?_
    obtain ⟨call, -, rfl⟩ := List.mem_map.mp hevent
    exact event_marks measure call
  exact ⟨hinv.folds, flush_current (updates measure) hinv, view_clean hinv, apply_updateFrom⟩

/-- A listener that pushes again while it is flushed to: `c` is not published when the flush returns. -/
theorem flush_pushed_again :
    let w := capturing (fun _ => 0) (fun n => n) 100 10 .tail [.push (.text [97]), .listenerReturns,
      .push (.text [98]), .flush, .push (.text [99]), .listenerReturns]
    w.stack.isEmpty = true ∧ (view applyShellOutputUpdate w.log).map (·.text) = some [97, 98] ∧
      w.owner.snapshot.text = [97, 98, 99] ∧
      view applyShellOutputUpdate w.log ≠ some w.owner.snapshot := by
  decide +kernel

end Shuvpi.ShellOutput
