import Shuvpi.Truncate

/-!
# Rolling tool output

`coding-agent/src/core/tools/output-accumulator.ts`: the output of a tool is decoded as it comes,
only a rolling last part of it is kept for display, and all bytes go to a temporary file once a
limit is exceeded.
-/
open Option hiding join some
open List

namespace Shuvpi.ToolOutput

open JsText TextFile TextDecoder TextLines Truncate

/-- `truncateStringToBytesFromEnd` of `tools/truncate.ts`, which cuts the encoded line. -/
def truncateBufferFromEnd (str : JsString) (maxBytes : Nat) : JsString :=
  let buf := textEncode str
  if buf.length ≤ maxBytes then str else ofScalars (decodeLossy (lastBytes maxBytes buf))

structure OutputAccumulator where
  maxLines : Nat
  maxBytes : Nat
  maxRollingBytes : Nat
  decoder : Decoder
  rawChunks : List Bytes
  tailText : JsString
  tailBytes : Nat
  tailStartsAtLineBoundary : Bool
  totalRawBytes : Nat
  totalDecodedBytes : Nat
  completedLines : Nat
  totalLines : Nat
  currentLineBytes : Nat
  hasOpenLine : Bool
  finished : Bool
  /-- What has been written to the temporary file, once there is one. -/
  tempFile : Option Bytes

namespace OutputAccumulator

def new (maxLines maxBytes : Nat) : OutputAccumulator where
  maxLines := maxLines
  maxBytes := maxBytes
  maxRollingBytes := max (maxBytes * 2) 1
  decoder := .new
  rawChunks := []
  tailText := []
  tailBytes := 0
  tailStartsAtLineBoundary := true
  totalRawBytes := 0
  totalDecodedBytes := 0
  completedLines := 0
  totalLines := 0
  currentLineBytes := 0
  hasOpenLine := false
  finished := false
  tempFile := none

def trimTail (a : OutputAccumulator) : OutputAccumulator :=
  let buffer := textEncode a.tailText
  if buffer.length ≤ a.maxRollingBytes then { a with tailBytes := buffer.length }
  else
    let kept := lastBytes a.maxRollingBytes buffer
    let start := buffer.length - kept.length
    let tailText := ofScalars (decodeLossy kept)
    { a with
      tailStartsAtLineBoundary :=
        if start = 0 then a.tailStartsAtLineBoundary else buffer.getD (start - 1) 0 == 0x0a
      tailText := tailText
      tailBytes := utf8ByteLength tailText }

def addTail (a : OutputAccumulator) (text : JsString) : OutputAccumulator :=
  { a with
    totalDecodedBytes := a.totalDecodedBytes + utf8ByteLength text
    tailText := a.tailText ++ text
    tailBytes := a.tailBytes + utf8ByteLength text }

def countLines (a : OutputAccumulator) (text : JsString) : OutputAccumulator :=
  let newlines := text.count 10
  let a :=
    if newlines = 0 then
      { a with currentLineBytes := a.currentLineBytes + utf8ByteLength text, hasOpenLine := true }
    else
      let tail := text.rtakeWhile (· ≠ 10)
      { a with
        completedLines := a.completedLines + newlines
        currentLineBytes := utf8ByteLength tail
        hasOpenLine := tail.length > 0 }
  { a with totalLines := a.completedLines + if a.hasOpenLine then 1 else 0 }

def appendDecodedText (a : OutputAccumulator) (text : JsString) : OutputAccumulator :=
  if text.length = 0 then a
  else
    let a := a.addTail text
    let a := if a.tailBytes > a.maxRollingBytes * 2 then a.trimTail else a
    a.countLines text

def shouldUseTempFile (a : OutputAccumulator) : Bool :=
  a.totalRawBytes > a.maxBytes || a.totalDecodedBytes > a.maxBytes || a.totalLines > a.maxLines

def ensureTempFile (a : OutputAccumulator) : OutputAccumulator :=
  match a.tempFile with
  | some _ => a
  | none => { a with tempFile := some a.rawChunks.flatten, rawChunks := [] }

def readChunk (a : OutputAccumulator) (data : Bytes) : OutputAccumulator :=
  let text := a.decoder.decode data
  { a with totalRawBytes := a.totalRawBytes + data.length, decoder := text.2 }.appendDecodedText (ofScalars text.1)

/-- Nothing where it throws. -/
def append (a : OutputAccumulator) (data : Bytes) : Option OutputAccumulator :=
  if a.finished then none
  else
    let a := a.readChunk data
    if a.tempFile.isSome || a.shouldUseTempFile then
      let a := a.ensureTempFile
      some { a with tempFile := a.tempFile.map (· ++ data) }
    else if data.length > 0 then some { a with rawChunks := a.rawChunks ++ [data] }
    else some a

def readEnd (a : OutputAccumulator) : OutputAccumulator :=
  let text := a.decoder.flush
  { a with finished := true, decoder := text.2 }.appendDecodedText (ofScalars text.1)

def finish (a : OutputAccumulator) : OutputAccumulator :=
  if a.finished then a
  else
    let a := a.readEnd
    if a.shouldUseTempFile then a.ensureTempFile else a

def getSnapshotText (a : OutputAccumulator) : JsString :=
  if a.tailStartsAtLineBoundary then a.tailText
  else if 10 ∈ a.tailText then (a.tailText.dropWhile (· ≠ 10)).tail
  else a.tailText

structure OutputSnapshot where
  content : JsString
  truncation : TruncationResult

def truncated (a : OutputAccumulator) : Bool := a.totalLines > a.maxLines || a.totalDecodedBytes > a.maxBytes

def takeSnapshot (a : OutputAccumulator) : OutputSnapshot :=
  let tailTruncation := truncateTailWith truncateBufferFromEnd a.maxLines a.maxBytes a.getSnapshotText
  let truncatedBy :=
    if a.truncated then
      some (tailTruncation.truncatedBy.getD (if a.totalDecodedBytes > a.maxBytes then .bytes else .lines))
    else none
  let truncation := { tailTruncation with
    truncated := a.truncated
    truncatedBy := truncatedBy
    totalLines := a.totalLines
    totalBytes := a.totalDecodedBytes
    maxLines := a.maxLines
    maxBytes := a.maxBytes }
  ⟨truncation.content, truncation⟩

/-- `snapshot(options)`, and what it leaves behind. -/
def snapshot (a : OutputAccumulator) (persistIfTruncated : Bool) : OutputSnapshot × OutputAccumulator :=
  (a.takeSnapshot, if persistIfTruncated && a.truncated then a.ensureTempFile else a)

end OutputAccumulator

/-- What is called before the output is finished. -/
inductive Call where
  | append (data : Bytes)
  | snapshot (persistIfTruncated : Bool)

def Call.data : Call → Bytes
  | .append data => data
  | .snapshot _ => []

def step (a : OutputAccumulator) : Call → Option OutputAccumulator
  | .append data => a.append data
  | .snapshot persistIfTruncated => some (a.snapshot persistIfTruncated).2

/-! ## What is kept of the output -/

/-- The last part of the output that is kept, and whether it begins a line. -/
structure Tail (maxBytes : Nat) (out : List Char) (text : JsString) (bytes : Nat) (boundary : Bool)
    (front last : List Char) : Prop where
  split : out = front ++ last
  text : text = ofScalars last
  bytes : bytes = charBytes last
  start : front = [] → boundary = true
  boundary : ∀ c ∈ front.getLast?, (boundary = true ↔ c = lineFeed) ∧ 2 * maxBytes < c.utf8Size + charBytes last
  long : front ≠ [] → 4 * maxBytes < charBytes out

variable {maxBytes bytes : Nat} {out front last cs : List Char} {text : JsString} {boundary : Bool}

theorem Tail.append (h : Tail maxBytes out text bytes boundary front last) (cs : List Char) :
    Tail maxBytes (out ++ cs) (text ++ ofScalars cs) (bytes + charBytes cs) boundary front (last ++ cs) := by
  refine ⟨by rw [h.split, append_assoc], by rw [h.text, ofScalars_append], by rw [h.bytes, charBytes_append],
    h.start, fun c hc => ⟨(h.boundary c hc).1, ?_⟩, fun hne => ?_⟩
  · have := (h.boundary c hc).2
    rw [charBytes_append]
    omega
  · have := h.long hne
    rw [charBytes_append]
    omega

/-- The last byte is that of a line feed where the last character is one. -/
theorem last_byte (cs : List Char) (c : Char) :
    ((encode (cs ++ [c])).getD ((encode (cs ++ [c])).length - 1) 0 == 0x0a) = true ↔ c = lineFeed := by
  obtain ⟨b, tail, hb, -, htail⟩ := encodeChar_cases c
  have hne : encode (cs ++ [c]) ≠ [] := by simp [encode, hb]
  rw [getD_eq_getElem?_getD, ← getLast?_eq_getElem?, beq_iff_eq]
  have hlast : (encode (cs ++ [c])).getLast? = (String.utf8EncodeChar c).getLast? := by
    rw [encode_append, getLast?_append_of_ne_nil _ (by simp [encode, hb])]
    simp [encode]
  rw [hlast]
  constructor
  · intro h
    have hmem : (10 : UInt8) ∈ String.utf8EncodeChar c := by
      cases hget : (String.utf8EncodeChar c).getLast? with
      | none =>
        rw [hget] at h
        cases h
      | some x =>
        rw [hget, getD_some] at h
        rw [← h]
        exact mem_of_getLast? hget
    have hten : (10 : UInt8).toNat = 10 := rfl
    rcases utf8_byte hmem with he | hge
    · exact Char.toNat_inj.mp (he.symm.trans hten)
    · omega
  · rintro rfl
    rfl

theorem Tail.trim {a : OutputAccumulator} (h : Tail maxBytes out a.tailText a.tailBytes a.tailStartsAtLineBoundary front last)
    (hroll : a.maxRollingBytes = 2 * maxBytes) (hlong : a.maxRollingBytes * 2 < a.tailBytes) :
    ∃ front last, Tail maxBytes out a.trimTail.tailText a.trimTail.tailBytes a.trimTail.tailStartsAtLineBoundary
      front last := by
  obtain ⟨dropped, hlast, hmore⟩ := lastChars_spec (2 * maxBytes) last
  have hbytes := lastChars_bytes (2 * maxBytes) last
  have hall := h.bytes
  have hbuf : ¬(textEncode a.tailText).length ≤ a.maxRollingBytes := by
    rw [h.text, textEncode_ofScalars, length_encode]
    omega
  rw [OutputAccumulator.trimTail]
  dsimp only
  rw [if_neg hbuf, h.text, textEncode_ofScalars, hroll, lastBytes_encode, decodeLossy_encode, length_encode,
    length_encode]
  generalize lastChars (2 * maxBytes) last = kept at hlast hmore hbytes
  obtain ⟨dropped, c, rfl⟩ := (eq_nil_or_concat dropped).resolve_left fun hnil => by
    rw [hnil, nil_append] at hlast
    rw [hlast] at hall
    omega
  rw [concat_eq_append] at hlast hmore
  have hstart : charBytes last - charBytes kept = (encode (dropped ++ [c])).length := by
    rw [hlast, charBytes_append, Nat.add_sub_cancel, length_encode]
  have hpos : (encode (dropped ++ [c])).length ≠ 0 := by
    have := c.utf8Size_pos
    rw [length_encode, charBytes_append, charBytes_cons]
    omega
  have hget : (encode last).getD ((encode (dropped ++ [c])).length - 1) 0 =
      (encode (dropped ++ [c])).getD ((encode (dropped ++ [c])).length - 1) 0 := by
    rw [hlast, encode_append, getD_eq_getElem?_getD, getElem?_append_left (by omega), ← getD_eq_getElem?_getD]
  refine ⟨front ++ (dropped ++ [c]), kept, by rw [h.split, hlast, append_assoc, append_assoc, append_assoc], rfl,
    utf8ByteLength_ofScalars kept, fun hnil => by simp at hnil, fun d hd => ?_, fun _ => ?_⟩
  · obtain rfl : c = d := by simpa using hd
    refine ⟨?_, hmore c (by simp)⟩
    rw [hstart, if_neg hpos, hget]
    exact last_byte dropped c
  · have hle : charBytes last ≤ charBytes out := by
      rw [h.split, charBytes_append]
      omega
    omega

/-! ## Counts -/

/-- What has been counted of the output, and kept of it. -/
structure Holds (lineLimit byteLimit : Nat) (a : OutputAccumulator) (out : List Char) : Prop where
  maxLines : a.maxLines = lineLimit
  maxBytes : a.maxBytes = byteLimit
  rolling : a.maxRollingBytes = 2 * byteLimit
  tail : ∃ front last, Tail byteLimit out a.tailText a.tailBytes a.tailStartsAtLineBoundary front last
  decoded : a.totalDecodedBytes = charBytes out
  completed : a.completedLines = out.count lineFeed
  openLine : a.hasOpenLine = true ↔ out ≠ [] ∧ out.getLast? ≠ some lineFeed
  totalLines : a.totalLines = (lines lineFeed out).length

section Counts
variable {maxLines : Nat} {a : OutputAccumulator}

theorem trimTail_eq (a : OutputAccumulator) : a.trimTail = { a with
    tailText := a.trimTail.tailText
    tailBytes := a.trimTail.tailBytes
    tailStartsAtLineBoundary := a.trimTail.tailStartsAtLineBoundary } := by
  rw [OutputAccumulator.trimTail]
  split <;> rfl

theorem rtakeWhile_ofScalars (cs : List Char) (hcs : cs ≠ []) :
    0 < ((ofScalars cs).rtakeWhile (· ≠ 10)).length ↔ cs.getLast? ≠ some lineFeed := by
  have hne := ofScalars_ne_nil hcs
  have hlast := getLast?_ofScalars cs
  rw [length_pos_iff, ne_eq, rtakeWhile_eq_nil_iff, not_iff_not, ← hlast]
  constructor
  · intro hall
    rw [getLast?_eq_some_getLast hne, Option.some.injEq]
    simpa using hall hne
  · intro h hl
    rw [getLast?_eq_some_getLast hl, Option.some.injEq] at h
    simp [h]

variable (h : Holds maxLines maxBytes a out)
include h

theorem Holds.countLines {b : OutputAccumulator} (hcs : cs ≠ [])
    (htail : ∃ front last, Tail maxBytes (out ++ cs) b.tailText b.tailBytes b.tailStartsAtLineBoundary front last)
    (hb : b = { a with
      totalDecodedBytes := a.totalDecodedBytes + charBytes cs
      tailText := b.tailText
      tailBytes := b.tailBytes
      tailStartsAtLineBoundary := b.tailStartsAtLineBoundary }) :
    Holds maxLines maxBytes (b.countLines (ofScalars cs)) (out ++ cs) := by
  have hne : out ++ cs ≠ [] := by simp [hcs]
  have hlast : (out ++ cs).getLast? = cs.getLast? := getLast?_append_of_ne_nil _ hcs
  have hdecoded : b.totalDecodedBytes = charBytes (out ++ cs) := by
    rw [hb, charBytes_append, ← h.decoded]
  have hcomp : b.completedLines + cs.count lineFeed = (out ++ cs).count lineFeed := by
    rw [hb, count_append, ← h.completed]
  have hmaxLines : b.maxLines = maxLines := by rw [hb]; exact h.maxLines
  have hmaxBytes : b.maxBytes = maxBytes := by rw [hb]; exact h.maxBytes
  have hroll : b.maxRollingBytes = 2 * maxBytes := by rw [hb]; exact h.rolling
  have htotal : (lines lineFeed (out ++ cs)).length =
      (out ++ cs).count lineFeed + if cs.getLast? ≠ some lineFeed then 1 else 0 := by
    rw [length_lines, hlast]
    simp only [hne, false_or, ite_not]
  rw [OutputAccumulator.countLines, count_ofScalars]
  split
  · rename_i hzero
    have hno : cs.getLast? ≠ some lineFeed := fun he =>
      count_eq_zero.mp hzero (mem_of_getLast? he)
    refine ⟨hmaxLines, hmaxBytes, hroll, htail, hdecoded, ?_, ?_, ?_⟩
    · rw [← hcomp, hzero]
      rfl
    · simp only [true_iff]
      exact ⟨hne, by rwa [hlast]⟩
    · rw [htotal, if_pos hno, ← hcomp, hzero]
      rfl
  · have hopen := rtakeWhile_ofScalars cs hcs
    refine ⟨hmaxLines, hmaxBytes, hroll, htail, hdecoded, hcomp, ?_, ?_⟩
    · rw [decide_eq_true_eq, gt_iff_lt, hopen, hlast]
      exact ⟨fun h => ⟨hne, h⟩, fun h => h.2⟩
    · rw [htotal, ← hcomp]
      simp only [gt_iff_lt, decide_eq_true_eq, hopen]

theorem Holds.appendDecodedText (cs : List Char) :
    Holds maxLines maxBytes (a.appendDecodedText (ofScalars cs)) (out ++ cs) := by
  rw [OutputAccumulator.appendDecodedText]
  split
  · rename_i hnil
    have hcs : cs = [] := by
      by_contra hne
      exact ofScalars_ne_nil hne (length_eq_zero_iff.mp hnil)
    rw [hcs, append_nil]
    exact h
  · rename_i hsome
    have hcs : cs ≠ [] := fun hnil => hsome (by rw [hnil]; rfl)
    obtain ⟨front, last, htail⟩ := h.tail
    have hmore := htail.append cs
    rw [← utf8ByteLength_ofScalars] at hmore
    dsimp only
    split
    · rename_i hlong
      refine h.countLines hcs (Tail.trim (a := a.addTail (ofScalars cs)) hmore h.rolling hlong) ?_
      rw [trimTail_eq, OutputAccumulator.addTail, utf8ByteLength_ofScalars]
    · refine h.countLines hcs ⟨_, _, hmore⟩ ?_
      rw [OutputAccumulator.addTail, utf8ByteLength_ofScalars]

end Counts

/-! ## Runs -/

/-- What the temporary file holds, or would be given first. -/
def OutputAccumulator.written (a : OutputAccumulator) : Bytes := a.tempFile.getD a.rawChunks.flatten

section Runs
variable {maxLines : Nat} {a : OutputAccumulator} {raw : Bytes}

/-- What does not change where text is appended. -/
theorem appendDecodedText_frame (a : OutputAccumulator) (text : JsString) :
    (a.appendDecodedText text).decoder = a.decoder ∧ (a.appendDecodedText text).rawChunks = a.rawChunks ∧
      (a.appendDecodedText text).totalRawBytes = a.totalRawBytes ∧
      (a.appendDecodedText text).finished = a.finished ∧ (a.appendDecodedText text).tempFile = a.tempFile := by
  rw [OutputAccumulator.appendDecodedText]
  split
  · exact ⟨rfl, rfl, rfl, rfl, rfl⟩
  · have hcount : ∀ b : OutputAccumulator, (b.countLines text).decoder = b.decoder ∧
        (b.countLines text).rawChunks = b.rawChunks ∧ (b.countLines text).totalRawBytes = b.totalRawBytes ∧
        (b.countLines text).finished = b.finished ∧ (b.countLines text).tempFile = b.tempFile := fun b => by
      rw [OutputAccumulator.countLines]
      split <;> exact ⟨rfl, rfl, rfl, rfl, rfl⟩
    dsimp only
    split
    · rw [trimTail_eq]
      exact hcount _
    · exact hcount _

@[simp] theorem ensureTempFile_written (a : OutputAccumulator) : a.ensureTempFile.written = a.written := by
  rw [OutputAccumulator.ensureTempFile]
  split
  · rfl
  · rename_i h
    rw [OutputAccumulator.written, OutputAccumulator.written, h]
    rfl

theorem ensureTempFile_some (a : OutputAccumulator) : a.ensureTempFile.tempFile = some a.written := by
  rw [OutputAccumulator.ensureTempFile]
  split
  · rename_i h
    rw [OutputAccumulator.written, h]
    rfl
  · rename_i h
    rw [OutputAccumulator.written, h]
    rfl

theorem Holds.congr {b : OutputAccumulator} (h : Holds maxLines maxBytes a out)
    (hb : b = { a with
      decoder := b.decoder
      rawChunks := b.rawChunks
      totalRawBytes := b.totalRawBytes
      finished := b.finished
      tempFile := b.tempFile }) : Holds maxLines maxBytes b out := by
  rw [hb]
  exact ⟨h.maxLines, h.maxBytes, h.rolling, h.tail, h.decoded, h.completed, h.openLine, h.totalLines⟩

theorem Holds.ensureTempFile (h : Holds maxLines maxBytes a out) : Holds maxLines maxBytes a.ensureTempFile out := by
  rw [OutputAccumulator.ensureTempFile]
  split
  · exact h
  · exact h.congr rfl

/-- Before the output is finished. -/
structure Live (maxLines maxBytes : Nat) (a : OutputAccumulator) (raw : Bytes) : Prop where
  finished : a.finished = false
  read : ∃ out, Reads a.decoder raw out ∧ Holds maxLines maxBytes a out
  written : a.written = raw

theorem new_live (maxLines maxBytes : Nat) (h : 4 ≤ maxBytes) : Live maxLines maxBytes (.new maxLines maxBytes) [] := by
  have hroll : max (maxBytes * 2) 1 = 2 * maxBytes := by omega
  refine ⟨rfl, ⟨[], reads_new, rfl, rfl, hroll, ⟨[], [], rfl, rfl, rfl, fun _ => rfl, fun _ h => (by cases h),
    fun h => absurd rfl h⟩, rfl, rfl, ?_, rfl⟩, rfl⟩
  simp [OutputAccumulator.new]

theorem Live.readChunk (h : Live maxLines maxBytes a raw) (data : Bytes) :
    (a.readChunk data).finished = false ∧ (a.readChunk data).written = raw ∧
      ∃ out, Reads (a.readChunk data).decoder (raw ++ data) out ∧ Holds maxLines maxBytes (a.readChunk data) out := by
  obtain ⟨out, hreads, hholds⟩ := h.read
  have hstart : Holds maxLines maxBytes { a with
      totalRawBytes := a.totalRawBytes + data.length
      decoder := (a.decoder.decode data).2 } out := hholds.congr rfl
  obtain ⟨hdecoder, hchunks, -, hfin, htemp⟩ := appendDecodedText_frame { a with
      totalRawBytes := a.totalRawBytes + data.length
      decoder := (a.decoder.decode data).2 } (ofScalars (a.decoder.decode data).1)
  refine ⟨hfin.trans h.finished, ?_, _, ?_, hstart.appendDecodedText (a.decoder.decode data).1⟩
  · rw [OutputAccumulator.written, OutputAccumulator.readChunk, htemp, hchunks]
    exact h.written
  · rw [OutputAccumulator.readChunk, hdecoder]
    exact hreads.decode data

/-- What does not change where the file is opened. -/
theorem ensureTempFile_frame (a : OutputAccumulator) :
    a.ensureTempFile.decoder = a.decoder ∧ a.ensureTempFile.finished = a.finished := by
  rw [OutputAccumulator.ensureTempFile]
  split <;> exact ⟨rfl, rfl⟩

theorem Live.append (h : Live maxLines maxBytes a raw) (data : Bytes) :
    ∃ b, a.append data = some b ∧ Live maxLines maxBytes b (raw ++ data) := by
  obtain ⟨hfin, hwrit, out, hreads, hholds⟩ := h.readChunk data
  rw [OutputAccumulator.append, h.finished, if_neg Bool.false_ne_true]
  dsimp only
  generalize a.readChunk data = b at *
  split
  · refine ⟨_, rfl, (ensureTempFile_frame b).2.trans hfin, ⟨out, ?_, hholds.ensureTempFile.congr rfl⟩, ?_⟩
    · change Reads b.ensureTempFile.decoder _ _
      rw [(ensureTempFile_frame b).1]
      exact hreads
    · rw [OutputAccumulator.written, ensureTempFile_some, hwrit]
      rfl
  · rename_i hno
    have hnone : b.tempFile = none := by
      cases hb : b.tempFile with
      | none => rfl
      | some _ => simp [hb] at hno
    rw [OutputAccumulator.written, hnone, getD_none] at hwrit
    split
    · refine ⟨_, rfl, hfin, ⟨out, hreads, hholds.congr rfl⟩, ?_⟩
      rw [OutputAccumulator.written, hnone, getD_none, flatten_append, hwrit]
      simp
    · rename_i hempty
      have hdata : data = [] := length_eq_zero_iff.mp (by omega)
      refine ⟨_, rfl, hfin, ⟨out, hreads, hholds⟩, ?_⟩
      rw [OutputAccumulator.written, hnone, getD_none, hwrit, hdata, append_nil]

theorem Live.step (h : Live maxLines maxBytes a raw) (call : Call) :
    ∃ b, step a call = some b ∧ Live maxLines maxBytes b (raw ++ call.data) := by
  cases call with
  | append data => exact h.append data
  | snapshot persist =>
    rw [Call.data, append_nil]
    refine ⟨_, rfl, ?_⟩
    rw [OutputAccumulator.snapshot]
    split
    · obtain ⟨out, hreads, hholds⟩ := h.read
      have hstay := ensureTempFile_frame a
      exact ⟨hstay.2.trans h.finished, ⟨out, by rw [hstay.1]; exact hreads, hholds.ensureTempFile⟩,
        (ensureTempFile_written a).trans h.written⟩
    · exact h

/-- The calls before the output is finished. -/
def run (maxLines maxBytes : Nat) (calls : List Call) : Option OutputAccumulator :=
  calls.foldlM step (.new maxLines maxBytes)

theorem Live.run (h : Live maxLines maxBytes a raw) (calls : List Call) :
    ∃ b, calls.foldlM ToolOutput.step a = some b ∧ Live maxLines maxBytes b (raw ++ calls.flatMap Call.data) := by
  induction calls generalizing a raw with
  | nil => exact ⟨a, rfl, by simpa using h⟩
  | cons call calls ih =>
    obtain ⟨b, hb, hlive⟩ := h.step call
    obtain ⟨c, hc, hlast⟩ := ih hlive
    refine ⟨c, ?_, by simpa using hlast⟩
    rw [foldlM_cons, hb]
    exact hc

theorem Live.finish (h : Live maxLines maxBytes a raw) : Holds maxLines maxBytes a.finish (decodeText raw) ∧
    a.finish.written = raw ∧ (a.finish.truncated = true → a.finish.tempFile = some raw) := by
  obtain ⟨out, hreads, hholds⟩ := h.read
  have hstart : Holds maxLines maxBytes { a with finished := true, decoder := a.decoder.flush.2 } out :=
    hholds.congr rfl
  have hnext := hstart.appendDecodedText a.decoder.flush.1
  have hframe := appendDecodedText_frame { a with finished := true, decoder := a.decoder.flush.2 }
    (ofScalars a.decoder.flush.1)
  rw [hreads.flush] at hnext
  change Holds maxLines maxBytes a.readEnd _ at hnext
  have hwrit : a.readEnd.written = raw := by
    rw [OutputAccumulator.written, OutputAccumulator.readEnd, hframe.2.2.2.2, hframe.2.1]
    exact h.written
  rw [OutputAccumulator.finish, h.finished, if_neg Bool.false_ne_true]
  dsimp only
  generalize a.readEnd = b at *
  split
  · exact ⟨hnext.ensureTempFile, (ensureTempFile_written b).trans hwrit,
      fun _ => (ensureTempFile_some b).trans (congrArg some hwrit)⟩
  · rename_i hno
    refine ⟨hnext, hwrit, fun htrunc => absurd ?_ hno⟩
    rw [OutputAccumulator.truncated] at htrunc
    rw [OutputAccumulator.shouldUseTempFile]
    simp only [Bool.or_eq_true] at htrunc ⊢
    tauto

end Runs

/-! ## Snapshots -/

theorem truncateBufferFromEnd_cuts : CutsChars truncateBufferFromEnd := by
  intro cs maxBytes
  rw [truncateBufferFromEnd, textEncode_ofScalars, length_encode]
  split
  · rename_i h
    rw [lastChars, LongestSuffix.longestSuffix_of_fits (decide_eq_true h)]
  · rw [lastBytes_encode, decodeLossy_encode]

/-- `truncateTail` of the whole output. -/
def whole (maxLines maxBytes : Nat) (output : Bytes) : TruncationResult :=
  truncateTailWith truncateBufferFromEnd maxLines maxBytes (ofScalars (decodeText output))

/-- A snapshot agrees with the truncation of the whole output. -/
structure Agrees (maxLines maxBytes : Nat) (output : Bytes) (a : OutputAccumulator) : Prop where
  content : a.takeSnapshot.content = (whole maxLines maxBytes output).content
  outputLines : a.takeSnapshot.truncation.outputLines = (whole maxLines maxBytes output).outputLines
  outputBytes : a.takeSnapshot.truncation.outputBytes = (whole maxLines maxBytes output).outputBytes
  totalLines : a.takeSnapshot.truncation.totalLines = (whole maxLines maxBytes output).totalLines
  totalBytes : a.takeSnapshot.truncation.totalBytes = (whole maxLines maxBytes output).totalBytes
  truncated : a.takeSnapshot.truncation.truncated = true ↔
    maxLines < (whole maxLines maxBytes output).totalLines ∨ maxBytes < (whole maxLines maxBytes output).totalBytes
  tempFile : a.takeSnapshot.truncation.truncated = true → a.tempFile = some output

/-- The first line of what is kept is only a part of one, and the rest is within the limits
with the newline at its end, or empty. -/
def Hidden (a : OutputAccumulator) : Prop :=
  a.tailStartsAtLineBoundary = false ∧ ∃ first rest, a.tailText = first ++ 10 :: rest ∧ (10 : UInt16) ∉ first ∧
    (rest = [] ∨ rest.getLast? = some 10) ∧ Fits a.maxLines a.maxBytes rest

section Snapshot
variable {maxLines : Nat} {a : OutputAccumulator}

theorem getSnapshotText_boundary (h : a.tailStartsAtLineBoundary = true) : a.getSnapshotText = a.tailText := by
  rw [OutputAccumulator.getSnapshotText, if_pos h]

theorem getSnapshotText_line (h : a.tailStartsAtLineBoundary = false) (hline : (10 : UInt16) ∉ a.tailText) :
    a.getSnapshotText = a.tailText := by
  rw [OutputAccumulator.getSnapshotText, h, if_neg Bool.false_ne_true, if_neg hline]

theorem getSnapshotText_rest (h : a.tailStartsAtLineBoundary = false) {first rest : JsString}
    (htext : a.tailText = first ++ 10 :: rest) (hfirst : (10 : UInt16) ∉ first) : a.getSnapshotText = rest := by
  have hkeep : ∀ u ∈ first, decide (u ≠ (10 : UInt16)) = true := fun u hu =>
    decide_eq_true fun he => hfirst (he ▸ hu)
  rw [OutputAccumulator.getSnapshotText, h, if_neg Bool.false_ne_true, htext, if_pos (by simp),
    dropWhile_append_of_pos hkeep]
  rfl

/-- The lines after a first one that cannot be shown with them show what the output shows, unless
they are within the limits with the newline at their end, or there are none. -/
theorem shows_rest {fromEnd : JsString → Nat → JsString} (hcuts : CutsChars fromEnd) (hlines : 1 ≤ maxLines)
    (hbytes : 4 ≤ maxBytes) {before : List JsString} {line : List Char} {s t : JsString}
    (ht : lines 10 t = before ++ ofScalars line :: lines 10 s)
    (hlong : maxBytes + 1 < charBytes line + 1 + utf8ByteLength s) (hfits : ¬Fits maxLines maxBytes t) :
    (¬((s = [] ∨ s.getLast? = some 10) ∧ Fits maxLines maxBytes s) →
      Shows (truncateTailWith fromEnd maxLines maxBytes s) (truncateTailWith fromEnd maxLines maxBytes t)) ∧
    ((s = [] ∨ s.getLast? = some 10) ∧ Fits maxLines maxBytes s →
      (truncateTailWith fromEnd maxLines maxBytes s).content ≠ (truncateTailWith fromEnd maxLines maxBytes t).content) := by
  have hbody := utf8ByteLength_body s
  have hmore : s ≠ [] → fitsLines maxLines maxBytes (ofScalars line :: lines 10 s) = false := fun hs => by
    rw [Bool.eq_false_iff, ne_eq, fitsLines_iff, linesBytes_cons _ (fun h => hs (lines_eq_nil.mp h)),
      utf8ByteLength_ofScalars]
    split at hbody <;> omega
  have hbef : s ≠ [] → Alike (tailCollected fromEnd maxLines maxBytes (lines 10 t))
      (tailCollected fromEnd maxLines maxBytes (lines 10 s)) := fun hs => by
    rw [ht]
    exact tailCollected_before before _ (fun h => hs (lines_eq_nil.mp h)) (hmore hs)
  constructor
  · intro hnot
    have hs : s ≠ [] := by
      rintro rfl
      exact hnot ⟨.inl rfl, Nat.zero_le _, Nat.zero_le _⟩
    by_cases hshort : Fits maxLines maxBytes s
    · have hend : s.getLast? ≠ some 10 := fun h => hnot ⟨.inr h, hshort⟩
      have hall := tailCollected_of_fits fromEnd (fitsLines_of_fits hshort)
      have hjoin : join (lines 10 s) = s := by
        rw [join, intercalate_lines, body, if_neg hend]
      rw [if_neg hend, Nat.add_zero] at hbody
      rw [truncateTailWith_fits hshort, truncateTailWith_cut hlines hfits]
      dsimp only
      rw [(hbef hs).outputLinesArr, (hbef hs).lastLinePartial, hall.1, hall.2, hjoin]
      exact ⟨rfl, rfl, hbody, rfl⟩
    · exact shows_of_alike hlines hshort hfits (hbef hs).symm
  · rintro ⟨hend, hshort⟩ hcont
    rw [truncateTailWith_fits hshort, truncateTailWith_cut hlines hfits] at hcont
    dsimp only at hcont
    rcases eq_or_ne s [] with rfl | hs
    · rw [show utf8ByteLength [] = 0 from rfl] at hlong
      have hone : maxBytes < charBytes line := by omega
      have hlast := tailCollected_last maxLines hcuts before [] line hone
      have hcut : (tailCollected fromEnd maxLines maxBytes [ofScalars line]).outputLinesArr =
          [ofScalars (lastChars maxBytes line)] := by
        have hrun : tailRun maxLines maxBytes [ofScalars line] = [] := by
          rw [tailRun, LongestSuffix.longestSuffix, if_neg]
          · rfl
          · rw [fitsLines_iff, linesBytes_singleton, utf8ByteLength_ofScalars]
            omega
        rw [tailCollected, hrun, if_pos ⟨rfl, List.cons_ne_nil _ _⟩]
        exact congrArg (fun l => [l]) (hcuts line maxBytes)
      rw [List.nil_append] at hlast
      rw [lines_nil] at ht
      rw [ht, hlast.outputLinesArr, hcut, join, List.intercalate_singleton] at hcont
      have hne : line ≠ [] := by
        rintro rfl
        exact Nat.not_lt_zero _ hone
      exact ofScalars_ne_nil (lastChars_ne_nil hbytes hne) hcont.symm
    · have hend := hend.resolve_left hs
      rw [(hbef hs).outputLinesArr, (tailCollected_of_fits fromEnd (fitsLines_of_fits hshort)).1, join, intercalate_lines,
        body, if_pos hend] at hcont
      have hlen := congrArg List.length hcont
      rw [List.length_dropLast] at hlen
      have := List.length_pos_of_ne_nil hs
      omega

/-- A snapshot shows what the whole output shows, unless the rest of the output is hidden. -/
theorem getSnapshotText_shows (h : Holds maxLines maxBytes a out) (hlines : 1 ≤ maxLines) (hbytes : 4 ≤ maxBytes) :
    (¬Hidden a → Shows (truncateTailWith truncateBufferFromEnd maxLines maxBytes a.getSnapshotText)
      (truncateTailWith truncateBufferFromEnd maxLines maxBytes (ofScalars out))) ∧
    (Hidden a → (truncateTailWith truncateBufferFromEnd maxLines maxBytes a.getSnapshotText).content ≠
      (truncateTailWith truncateBufferFromEnd maxLines maxBytes (ofScalars out)).content) := by
  obtain ⟨front, last, htail⟩ := h.tail
  rcases eq_nil_or_concat front with rfl | ⟨front, c, rfl⟩
  · have hstart := htail.start rfl
    have hout : a.getSnapshotText = ofScalars out := by
      rw [getSnapshotText_boundary hstart, htail.text, htail.split, nil_append]
    rw [hout]
    refine ⟨fun _ => ⟨rfl, rfl, rfl, rfl⟩, fun hhidden => ?_⟩
    rw [hhidden.1] at hstart
    cases hstart
  · rw [concat_eq_append] at htail
    obtain ⟨hbound, hlong⟩ := htail.boundary c (by simp)
    have hsize := c.utf8Size_le_four
    have hout := htail.long (by simp)
    have hwhole : ¬Fits maxLines maxBytes (ofScalars out) := fun hfits => by
      have := hfits.2
      rw [utf8ByteLength_ofScalars] at this
      omega
    have hlast : last ≠ [] := by
      rintro rfl
      rw [charBytes_nil] at hlong
      omega
    obtain ⟨ended, cut, first, rest, hsplit, hended, hlinesOut, hlinesLast⟩ :=
      lines_window lineFeed (front ++ [c]) hlast
    have hall : lines 10 (ofScalars out) = (lines lineFeed ended).map ofScalars ++
        ofScalars (cut ++ first) :: rest.map ofScalars := by
      rw [lines_ofScalars, htail.split, hlinesOut, map_append, map_cons]
    have hlines' : lines 10 (ofScalars last) = ofScalars first :: rest.map ofScalars := by
      rw [lines_ofScalars, hlinesLast, map_cons]
    have hbody := utf8ByteLength_body (ofScalars last)
    rw [utf8ByteLength_ofScalars] at hbody
    -- as long as the lines are not all shown, the last part shows what the output shows
    have hwin : maxBytes < linesBytes (lines 10 (ofScalars last)) → a.getSnapshotText = ofScalars last →
        ¬Hidden a → (¬Hidden a → Shows (truncateTailWith truncateBufferFromEnd maxLines maxBytes a.getSnapshotText)
          (truncateTailWith truncateBufferFromEnd maxLines maxBytes (ofScalars out))) ∧
        (Hidden a → (truncateTailWith truncateBufferFromEnd maxLines maxBytes a.getSnapshotText).content ≠
          (truncateTailWith truncateBufferFromEnd maxLines maxBytes (ofScalars out)).content) := fun hmore htext hnot => by
      refine ⟨fun _ => ?_, fun h => absurd h hnot⟩
      rw [htext]
      have hnofit : fitsLines maxLines maxBytes (lines 10 (ofScalars last)) = false := by
        rw [Bool.eq_false_iff, ne_eq, fitsLines_iff]
        omega
      refine shows_window truncateBufferFromEnd_cuts hlines hall hlines' hnofit (fun hfits => ?_) hwhole
      rw [fitsLines_of_fits hfits] at hnofit
      cases hnofit
    cases hb : a.tailStartsAtLineBoundary with
    | true =>
      have hc : c.utf8Size = 1 := by rw [hbound.mp hb]; rfl
      refine hwin (by split at hbody <;> omega) ((getSnapshotText_boundary hb).trans htail.text) fun hhidden => ?_
      rw [hhidden.1] at hb
      cases hb
    | false =>
      by_cases hline : (10 : UInt16) ∈ a.tailText
      · have hmem : lineFeed ∈ last := by
          by_contra hnot
          rw [htail.text] at hline
          exact ofScalars_lineFeed hnot hline
        obtain ⟨first', rest', hlast', hfirst'⟩ := eq_append_cons_of_mem hmem
        have hunit : ofScalars [lineFeed] = [10] := by decide
        have htext : a.tailText = ofScalars first' ++ 10 :: ofScalars rest' := by
          rw [htail.text, hlast', append_cons, ofScalars_append, ofScalars_append, hunit, append_assoc]
          rfl
        have hfirst10 : (10 : UInt16) ∉ ofScalars first' := ofScalars_lineFeed hfirst'
        have hsnap := getSnapshotText_rest hb htext hfirst10
        have hhidden : Hidden a ↔ (a.getSnapshotText = [] ∨ a.getSnapshotText.getLast? = some 10) ∧
            Fits maxLines maxBytes a.getSnapshotText := by
          rw [Hidden, h.maxLines, h.maxBytes]
          constructor
          · rintro ⟨-, first, rest, htext', hno, hend, hfits⟩
            rw [getSnapshotText_rest hb htext' hno]
            exact ⟨hend, hfits⟩
          · rintro ⟨hend, hfits⟩
            rw [hsnap] at hend hfits
            exact ⟨hb, _, _, htext, hfirst10, hend, hfits⟩
        have hcut : c.utf8Size ≤ charBytes cut := by
          rcases eq_nil_or_concat cut with rfl | ⟨cut, d, rfl⟩
          · rw [append_nil] at hsplit
            rw [← hsplit, getLast?_concat] at hended
            rcases hended with hnil | hlf
            · simp at hnil
            · rw [hbound.mpr (Option.some.inj hlf)] at hb
              cases hb
          · rw [concat_eq_append, ← append_assoc] at hsplit
            obtain ⟨-, hd⟩ := append_inj' hsplit rfl
            rw [concat_eq_append, ← hd, charBytes_append, charBytes_cons]
            omega
        have hlinesRest : lines lineFeed last = first' :: lines lineFeed rest' := by
          rw [hlast', lines_append_sep, lines_line hfirst', singleton_append]
        rw [hlinesRest, cons.injEq] at hlinesLast
        obtain ⟨rfl, rfl⟩ := hlinesLast
        rw [← lines_ofScalars rest', ← hsnap] at hall
        have hsum : charBytes last = charBytes first' + 1 + utf8ByteLength a.getSnapshotText := by
          have hone : lineFeed.utf8Size = 1 := rfl
          rw [hlast', hsnap, utf8ByteLength_ofScalars, charBytes_append, charBytes_cons, hone]
          omega
        have hrest := shows_rest truncateBufferFromEnd_cuts hlines hbytes hall
          (by rw [charBytes_append]; omega) hwhole
        rw [hhidden]
        exact hrest
      · have hno : (ofScalars last).getLast? ≠ some 10 := fun he => by
          rw [htail.text] at hline
          exact hline (mem_of_getLast? he)
        rw [if_neg hno] at hbody
        refine hwin (by omega) ((getSnapshotText_line hb hline).trans htail.text) ?_
        rintro ⟨-, first, rest, htext, -⟩
        rw [htext] at hline
        exact hline (by simp)

/-- After the output is finished, a snapshot agrees with the truncation of the whole output, unless
what is kept hides it. -/
theorem snapshot_agrees (maxLines maxBytes : Nat) (hlines : 1 ≤ maxLines) (hbytes : 4 ≤ maxBytes) (calls : List Call) :
    ∃ a, run maxLines maxBytes calls = some a ∧
      (Agrees maxLines maxBytes (calls.flatMap Call.data) a.finish ↔ ¬Hidden a.finish) := by
  obtain ⟨a, hrun, hlive⟩ := (new_live maxLines maxBytes hbytes).run calls
  obtain ⟨hholds, -, hfile⟩ := hlive.finish
  rw [List.nil_append] at hholds hfile
  have hshows := getSnapshotText_shows hholds hlines hbytes
  refine ⟨a, hrun, fun h hhidden => ?_, fun hnot => ?_⟩
  · refine hshows.2 hhidden ?_
    have hcontent := h.content
    rw [OutputAccumulator.takeSnapshot, hholds.maxLines, hholds.maxBytes] at hcontent
    exact hcontent
  · have hshown := hshows.1 hnot
    have htotals : (whole maxLines maxBytes (calls.flatMap Call.data)).totalLines =
          (lines lineFeed (decodeText (calls.flatMap Call.data))).length ∧
        (whole maxLines maxBytes (calls.flatMap Call.data)).totalBytes =
          charBytes (decodeText (calls.flatMap Call.data)) := by
      rw [whole, truncateTailWith, splitLinesForCounting_eq, utf8ByteLength_ofScalars, lines_ofScalars, List.length_map]
      split <;> exact ⟨rfl, rfl⟩
    rw [← hholds.maxLines, ← hholds.maxBytes] at hshown
    refine ⟨?_, ?_, ?_, ?_, ?_, ?_, hfile⟩
    · rw [← hholds.maxLines, ← hholds.maxBytes]
      exact hshown.content
    · rw [← hholds.maxLines, ← hholds.maxBytes]
      exact hshown.outputLines
    · rw [← hholds.maxLines, ← hholds.maxBytes]
      exact hshown.outputBytes
    · rw [htotals.1]
      exact hholds.totalLines
    · rw [htotals.2]
      exact hholds.decoded
    · rw [htotals.1, htotals.2, ← hholds.totalLines, ← hholds.decoded]
      change a.finish.truncated = true ↔ _
      rw [OutputAccumulator.truncated, Bool.or_eq_true, decide_eq_true_eq, decide_eq_true_eq, hholds.maxLines,
        hholds.maxBytes]

/-- Two short lines in two buffers, of which one may be shown. -/
theorem snapshot_agrees_short : ∃ a, run 1 4 [.append [97, 10], .append [98, 10]] = some a ∧
    Agrees 1 4 [97, 10, 98, 10] a.finish := by
  obtain ⟨a, hrun, hagrees⟩ := snapshot_agrees 1 4 le_rfl le_rfl [.append [97, 10], .append [98, 10]]
  have hstart : (run 1 4 [.append [97, 10], .append [98, 10]]).map (·.finish.tailStartsAtLineBoundary) = some true := by
    decide
  rw [hrun, Option.map_some, Option.some.injEq] at hstart
  refine ⟨a, hrun, hagrees.mpr fun h => ?_⟩
  rw [h.1] at hstart
  cases hstart

/-- A line of twenty characters and a short one, within four bytes: the short one is shown with its
newline. -/
theorem snapshot_newline : ∃ a, run 10 4 [.append (List.replicate 20 97 ++ [10, 98, 10])] = some a ∧
    ¬Agrees 10 4 (List.replicate 20 97 ++ [10, 98, 10]) a.finish := by
  have hshown : (run 10 4 [.append (List.replicate 20 97 ++ [10, 98, 10])]).map (·.finish.takeSnapshot.content) =
      some [98, 10] := by decide
  have hwhole : (whole 10 4 (List.replicate 20 97 ++ [10, 98, 10])).content = [98] := by decide
  obtain ⟨a, hrun, hcontent⟩ := Option.map_eq_some_iff.mp hshown
  refine ⟨a, hrun, fun h => ?_⟩
  have hsame := h.content
  rw [hcontent, hwhole] at hsame
  cases hsame

end Snapshot

end Shuvpi.ToolOutput
