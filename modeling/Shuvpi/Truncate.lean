import Shuvpi.TextDecoder
import Shuvpi.TextLines

/-!
# Truncation of tool output

`harness/utils/truncate.ts`: the first or the last lines of a text, within a number of lines
and a number of bytes. Options are given; the code units are those of a JavaScript string.
-/
namespace Shuvpi.Truncate

open JsText TextFile TextDecoder TextLines
open LongestSuffix (longestSuffix Hereditary)
open List Option

inductive TruncatedBy where
  | lines | bytes
  deriving DecidableEq, Repr

structure TruncationResult where
  content : JsString
  truncated : Bool
  truncatedBy : Option TruncatedBy
  totalLines : Nat
  totalBytes : Nat
  outputLines : Nat
  outputBytes : Nat
  lastLinePartial : Bool
  firstLineExceedsLimit : Bool
  maxLines : Nat
  maxBytes : Nat
  deriving DecidableEq, Repr

/-- The bytes of a code unit that is no half of a pair. -/
def unitBytes (u : UInt16) : Nat := if u.toNat ≤ 0x7f then 1 else if u.toNat ≤ 0x7ff then 2 else 3

def utf8ByteLength : JsString → Nat
  | [] => 0
  | [u] => unitBytes u
  | u :: v :: rest =>
    if isHighSurrogate u && isLowSurrogate v then 4 + utf8ByteLength rest
    else unitBytes u + utf8ByteLength (v :: rest)

def splitLinesForCounting (content : JsString) : List JsString :=
  if content.length = 0 then []
  else if content.getLast? = some 10 then (content.splitOn 10).dropLast
  else content.splitOn 10

def replaceUnpairedSurrogates : JsString → JsString
  | [] => []
  | [u] => if isHighSurrogate u || isLowSurrogate u then [0xfffd] else [u]
  | u :: v :: rest =>
    if isHighSurrogate u && isLowSurrogate v then u :: v :: replaceUnpairedSurrogates rest
    else if isHighSurrogate u || isLowSurrogate u then 0xfffd :: replaceUnpairedSurrogates (v :: rest)
    else u :: replaceUnpairedSurrogates (v :: rest)

/-- The loop over the units before those that are kept, the last one first. -/
def takeFromEnd (maxBytes : Nat) : JsString → Nat → JsString → Bool → JsString × Bool
  | [], _, kept, needsReplacement => (kept, needsReplacement)
  | [u], outputBytes, kept, needsReplacement =>
    if outputBytes + unitBytes u > maxBytes then (kept, needsReplacement)
    else (u :: kept, needsReplacement || (isHighSurrogate u || isLowSurrogate u))
  | u :: v :: before, outputBytes, kept, needsReplacement =>
    if isLowSurrogate u && isHighSurrogate v then
      if outputBytes + 4 > maxBytes then (kept, needsReplacement)
      else takeFromEnd maxBytes before (outputBytes + 4) (v :: u :: kept) needsReplacement
    else if outputBytes + unitBytes u > maxBytes then (kept, needsReplacement)
    else takeFromEnd maxBytes (v :: before) (outputBytes + unitBytes u) (u :: kept)
      (needsReplacement || (isHighSurrogate u || isLowSurrogate u))

def truncateStringToBytesFromEnd (str : JsString) (maxBytes : Nat) : JsString :=
  if maxBytes = 0 then []
  else
    let output := takeFromEnd maxBytes str.reverse 0 [] false
    if output.2 then replaceUnpairedSurrogates output.1 else output.1

/-- The lines that a loop has collected. -/
structure Collected where
  outputLinesArr : List JsString
  outputBytesCount : Nat
  truncatedBy : TruncatedBy
  lastLinePartial : Bool
  deriving DecidableEq, Repr

def join (lines : List JsString) : JsString := [10].intercalate lines

/-- The loop of `truncateHead` from the `i`-th line on. -/
def collectHead (maxBytes : Nat) : List JsString → Nat → Collected → Collected
  | [], _, c => c
  | line :: lines, i, c =>
    let lineBytes := utf8ByteLength line + if i > 0 then 1 else 0
    if c.outputBytesCount + lineBytes > maxBytes then { c with truncatedBy := .bytes }
    else collectHead maxBytes lines (i + 1)
      { c with outputLinesArr := c.outputLinesArr ++ [line], outputBytesCount := c.outputBytesCount + lineBytes }

def truncateHead (content : JsString) (maxLines maxBytes : Nat) : TruncationResult :=
  let totalBytes := utf8ByteLength content
  let lines := splitLinesForCounting content
  let totalLines := lines.length
  if totalLines ≤ maxLines ∧ totalBytes ≤ maxBytes then
    ⟨content, false, none, totalLines, totalBytes, totalLines, totalBytes, false, false, maxLines, maxBytes⟩
  else if utf8ByteLength (lines.headD []) > maxBytes then
    ⟨[], true, some .bytes, totalLines, totalBytes, 0, 0, false, true, maxLines, maxBytes⟩
  else
    let c := collectHead maxBytes (lines.take maxLines) 0 ⟨[], 0, .lines, false⟩
    let truncatedBy :=
      if c.outputLinesArr.length ≥ maxLines ∧ c.outputBytesCount ≤ maxBytes then .lines else c.truncatedBy
    let outputContent := join c.outputLinesArr
    ⟨outputContent, true, some truncatedBy, totalLines, totalBytes, c.outputLinesArr.length,
      utf8ByteLength outputContent, false, false, maxLines, maxBytes⟩

section Tail
variable (fromEnd : JsString → Nat → JsString) (maxLines maxBytes : Nat)

/-- The loop of `truncateTail` over the lines before those that are collected, the last one first. -/
def collectTail : List JsString → Collected → Collected
  | [], c => c
  | line :: lines, c =>
    if c.outputLinesArr.length < maxLines then
      let lineBytes := utf8ByteLength line + if c.outputLinesArr.length > 0 then 1 else 0
      if c.outputBytesCount + lineBytes > maxBytes then
        if c.outputLinesArr.length = 0 then
          let truncatedLine := fromEnd line maxBytes
          ⟨[truncatedLine], utf8ByteLength truncatedLine, .bytes, true⟩
        else { c with truncatedBy := .bytes }
      else collectTail lines
        { c with outputLinesArr := line :: c.outputLinesArr, outputBytesCount := c.outputBytesCount + lineBytes }
    else c

/-- `truncateTail`, for a way to cut a line that is too long. -/
def truncateTailWith (content : JsString) : TruncationResult :=
  let totalBytes := utf8ByteLength content
  let lines := splitLinesForCounting content
  let totalLines := lines.length
  if totalLines ≤ maxLines ∧ totalBytes ≤ maxBytes then
    ⟨content, false, none, totalLines, totalBytes, totalLines, totalBytes, false, false, maxLines, maxBytes⟩
  else
    let c := collectTail fromEnd maxLines maxBytes lines.reverse ⟨[], 0, .lines, false⟩
    let truncatedBy :=
      if c.outputLinesArr.length ≥ maxLines ∧ c.outputBytesCount ≤ maxBytes then .lines else c.truncatedBy
    let outputContent := join c.outputLinesArr
    ⟨outputContent, true, some truncatedBy, totalLines, totalBytes, c.outputLinesArr.length,
      utf8ByteLength outputContent, c.lastLinePartial, false, maxLines, maxBytes⟩

end Tail

def truncateTail (content : JsString) (maxLines maxBytes : Nat) : TruncationResult :=
  truncateTailWith truncateStringToBytesFromEnd maxLines maxBytes content

/-! ## Bytes -/

theorem utf8Size_eq (c : Char) : c.utf8Size =
    if c.toNat ≤ 0x7f then 1 else if c.toNat ≤ 0x7ff then 2 else if c.toNat ≤ 0xffff then 3 else 4 := by
  rw [Char.utf8Size]
  simp only [UInt32.le_iff_toNat_le]
  rfl

/-- The size of a unit by itself. -/
theorem size_unit (u : UInt16) : unitBytes u =
    (if isHighSurrogate u || isLowSurrogate u then replacement else Char.ofNat u.toNat).utf8Size := by
  have hu := u.toNat_lt
  rw [unitBytes]
  split
  · rename_i h
    simp only [isHighSurrogate, isLowSurrogate, Bool.or_eq_true, Bool.and_eq_true, decide_eq_true_eq]
    rw [if_neg (by omega), utf8Size_eq, toNat_ofNat (.inl (by omega)), if_pos h]
  · rename_i h
    split
    · rename_i h'
      simp only [isHighSurrogate, isLowSurrogate, Bool.or_eq_true, Bool.and_eq_true, decide_eq_true_eq]
      rw [if_neg (by omega), utf8Size_eq, toNat_ofNat (.inl (by omega)), if_neg h, if_pos h']
    · rename_i h'
      split
      · decide
      · rename_i hplain
        simp only [isHighSurrogate, isLowSurrogate, Bool.or_eq_true, Bool.and_eq_true, decide_eq_true_eq] at hplain
        have hval : u.toNat.isValidChar := by
          rw [Nat.isValidChar]
          omega
        rw [utf8Size_eq, toNat_ofNat hval, if_neg h, if_neg h', if_pos (by omega)]

variable {u v : UInt16}

theorem size_pair (hu : isHighSurrogate u = true) (hv : isLowSurrogate v = true) :
    (Char.ofNat (pairValue u v)).utf8Size = 4 := by
  simp only [isHighSurrogate, isLowSurrogate, Bool.and_eq_true, decide_eq_true_eq] at hu hv
  obtain ⟨a, ha⟩ : ∃ a, u.toNat = 0xd800 + a := ⟨u.toNat - 0xd800, by omega⟩
  obtain ⟨b, hb⟩ : ∃ b, v.toNat = 0xdc00 + b := ⟨v.toNat - 0xdc00, by omega⟩
  have hval : (0x10000 + 0x400 * a + b).isValidChar := .inr ⟨by omega, by omega⟩
  rw [pairValue_eq ha hb, utf8Size_eq, toNat_ofNat hval, if_neg (by omega), if_neg (by omega), if_neg (by omega)]

variable (s : JsString)

theorem length_textEncode : (textEncode s).length = charBytes (toScalars s) := by
  rw [textEncode, length_flatMap, charBytes]
  simp

/-- The loop counts the bytes of the encoded string. -/
theorem utf8ByteLength_eq : utf8ByteLength s = (textEncode s).length := by
  rw [length_textEncode]
  induction s using utf8ByteLength.induct with
  | case1 => rfl
  | case2 u =>
    rw [utf8ByteLength, size_unit, toScalars]
    split <;> simp [charBytes]
  | case3 u v rest hpair ih =>
    rw [utf8ByteLength, toScalars, if_pos hpair, if_pos hpair, ih]
    rw [Bool.and_eq_true] at hpair
    rw [charBytes, charBytes, map_cons, sum_cons, size_pair hpair.1 hpair.2]
  | case4 u v rest hpair ih =>
    rw [utf8ByteLength, toScalars, if_neg hpair, if_neg hpair, ih, size_unit]
    split <;> simp [charBytes]

variable (cs : List Char)

@[simp] theorem utf8ByteLength_ofScalars : utf8ByteLength (ofScalars cs) = charBytes cs := by
  rw [utf8ByteLength_eq, length_textEncode, toScalars_ofScalars]

theorem utf8ByteLength_append {s t : JsString} (hs : IsText s) (ht : IsText t) :
    utf8ByteLength (s ++ t) = utf8ByteLength s + utf8ByteLength t := by
  rw [utf8ByteLength_eq, utf8ByteLength_eq, utf8ByteLength_eq, textEncode_append hs ht, length_append]

theorem utf8ByteLength_newline : utf8ByteLength (10 :: s) = 1 + utf8ByteLength s := by
  cases s <;> rfl

/-- A line and the newline after it. -/
theorem utf8ByteLength_line (s t : JsString) :
    utf8ByteLength (s ++ 10 :: t) = utf8ByteLength s + 1 + utf8ByteLength t := by
  induction s using utf8ByteLength.induct with
  | case1 =>
    rw [nil_append, utf8ByteLength_newline, utf8ByteLength]
  | case2 u =>
    have hlow : isLowSurrogate 10 = false := rfl
    have hnext : utf8ByteLength (u :: 10 :: t) = unitBytes u + utf8ByteLength (10 :: t) := by
      rw [utf8ByteLength, hlow, Bool.and_false, if_neg Bool.false_ne_true]
    rw [singleton_append, hnext, utf8ByteLength_newline, utf8ByteLength, Nat.add_assoc]
  | case3 u v rest hpair ih =>
    rw [cons_append, cons_append, utf8ByteLength, utf8ByteLength, if_pos hpair, if_pos hpair, ih]
    omega
  | case4 u v rest hpair ih =>
    rw [cons_append] at ih
    rw [cons_append, cons_append, utf8ByteLength, utf8ByteLength, if_neg hpair, if_neg hpair, ih]
    omega

/-! ## Lines -/

theorem splitLinesForCounting_eq (content : JsString) : splitLinesForCounting content = lines 10 content := by
  rw [splitLinesForCounting]
  split
  · rename_i h
    rw [length_eq_zero_iff.mp h]
    rfl
  · rename_i h
    split
    · rename_i hlast
      obtain ⟨x, rfl⟩ : ∃ x, content = x ++ [10] := ⟨_, (dropLast_append_getLast? 10 hlast).symm⟩
      rw [lines_concat_sep, splitOn_append_cons_self, splitOn_nil, dropLast_concat]
    · rename_i hlast
      rw [lines_eq_splitOn (fun hnil => h (by rw [hnil]; rfl)) hlast]

/-- The bytes of lines and of the newlines between them. -/
def linesBytes (ls : List JsString) : Nat := (ls.map utf8ByteLength).sum + (ls.length - 1)

variable {ls : List JsString}

theorem linesBytes_cons (line : JsString) (h : ls ≠ []) :
    linesBytes (line :: ls) = utf8ByteLength line + 1 + linesBytes ls := by
  have hlen := length_pos_of_ne_nil h
  rw [linesBytes, linesBytes, map_cons, sum_cons, length_cons]
  omega

@[simp] theorem linesBytes_singleton (line : JsString) : linesBytes [line] = utf8ByteLength line := by
  simp [linesBytes]

theorem linesBytes_concat (h : ls ≠ []) (line : JsString) :
    linesBytes (ls ++ [line]) = linesBytes ls + 1 + utf8ByteLength line := by
  have hlen := length_pos_of_ne_nil h
  rw [linesBytes, linesBytes, map_append, sum_append, length_append]
  simp only [map_cons, map_nil, sum_cons, sum_nil, length_cons, length_nil]
  omega

theorem utf8ByteLength_join (ls : List JsString) : utf8ByteLength (join ls) = linesBytes ls := by
  induction ls with
  | nil => rfl
  | cons line ls ih =>
    cases ls with
    | nil => rw [join, intercalate_singleton, linesBytes_singleton]
    | cons line' ls =>
      rw [linesBytes_cons _ (cons_ne_nil _ _), ← ih, join, intercalate_cons_cons, append_assoc,
        singleton_append, utf8ByteLength_line]
      rfl

/-- What lines may have. -/
def fitsLines (maxLines maxBytes : Nat) (ls : List JsString) : Bool :=
  ls.length ≤ maxLines && linesBytes ls ≤ maxBytes

theorem fitsLines_iff {maxLines maxBytes : Nat} :
    fitsLines maxLines maxBytes ls = true ↔ ls.length ≤ maxLines ∧ linesBytes ls ≤ maxBytes := by
  rw [fitsLines, Bool.and_eq_true, decide_eq_true_eq, decide_eq_true_eq]

theorem linesBytes_sublist {s l : List JsString} (h : s.Sublist l) : linesBytes s ≤ linesBytes l := by
  have hsum : (s.map utf8ByteLength).sum ≤ (l.map utf8ByteLength).sum :=
    (h.map utf8ByteLength).sum_le_sum fun _ _ => Nat.zero_le _
  have hlen := h.length_le
  rw [linesBytes, linesBytes]
  omega

theorem fitsLines_hereditary (maxLines maxBytes : Nat) : Hereditary (fitsLines maxLines maxBytes) := by
  constructor
  · simp [fitsLines, linesBytes]
  · intro s l hs hl
    rw [fitsLines_iff] at hl ⊢
    have hbytes := linesBytes_sublist hs.sublist
    have hlen := hs.length_le
    omega

/-! ## Characters from the end -/

theorem takeFromEnd_unit (hhigh : isHighSurrogate u = false) (hlow : isLowSurrogate u = false)
    (maxBytes : Nat) (before : JsString) (n : Nat) (kept : JsString) (b : Bool) :
    takeFromEnd maxBytes (u :: before) n kept b =
      if n + unitBytes u > maxBytes then (kept, b)
      else takeFromEnd maxBytes before (n + unitBytes u) (u :: kept) b := by
  cases before <;> simp [takeFromEnd, hhigh, hlow]

theorem takeFromEnd_pair (hhigh : isHighSurrogate u = true) (hlow : isLowSurrogate v = true)
    (maxBytes : Nat) (before : JsString) (n : Nat) (kept : JsString) (b : Bool) :
    takeFromEnd maxBytes (v :: u :: before) n kept b =
      if n + 4 > maxBytes then (kept, b) else takeFromEnd maxBytes before (n + 4) (u :: v :: kept) b := by
  simp [takeFromEnd, hhigh, hlow]

/-- The units of a character: one that is no surrogate, or a pair. -/
theorem codeUnits_cases (c : Char) :
    (∃ u, codeUnits c = [u] ∧ isHighSurrogate u = false ∧ isLowSurrogate u = false ∧ unitBytes u = c.utf8Size) ∨
    ∃ u v, codeUnits c = [u, v] ∧ isHighSurrogate u = true ∧ isLowSurrogate v = true ∧ c.utf8Size = 4 := by
  have hr := char_range c
  rw [codeUnits]
  split
  · rename_i h
    have hu := unit_toNat c.toNat h
    have hhigh : isHighSurrogate (UInt16.ofNat c.toNat) = false := by
      simp [isHighSurrogate, hu]; omega
    have hlow : isLowSurrogate (UInt16.ofNat c.toNat) = false := by
      simp [isLowSurrogate, hu]; omega
    refine .inl ⟨_, rfl, hhigh, hlow, ?_⟩
    rw [size_unit, hhigh, hlow, hu, Char.ofNat_toNat]
    rfl
  · rename_i h
    have hu := unit_toNat (0xd800 + (c.toNat - 0x10000) / 0x400) (by omega)
    have hv := unit_toNat (0xdc00 + (c.toNat - 0x10000) % 0x400) (by omega)
    refine .inr ⟨_, _, rfl, ?_, ?_, ?_⟩
    · simp only [isHighSurrogate, hu]; simp; omega
    · simp only [isLowSurrogate, hv]; simp; omega
    · rw [utf8Size_eq, if_neg (by omega), if_neg (by omega), if_neg (by omega)]

variable (maxBytes : Nat)

/-- One character from the end. -/
theorem takeFromEnd_char (c : Char) (before : JsString) (n : Nat) (kept : JsString) (b : Bool) :
    takeFromEnd maxBytes ((codeUnits c).reverse ++ before) n kept b =
      if n + c.utf8Size > maxBytes then (kept, b)
      else takeFromEnd maxBytes before (n + c.utf8Size) (codeUnits c ++ kept) b := by
  rcases codeUnits_cases c with ⟨u, hunits, hhigh, hlow, hsize⟩ | ⟨u, v, hunits, hhigh, hlow, hsize⟩
  · rw [hunits, ← hsize]
    exact takeFromEnd_unit hhigh hlow maxBytes before n kept b
  · rw [hunits, hsize]
    exact takeFromEnd_pair hhigh hlow maxBytes before n kept b

/-- The loop keeps characters as long as they fit. -/
theorem takeFromEnd_spec (cs : List Char) (ds : List Char) (hds : charBytes ds ≤ maxBytes) :
    takeFromEnd maxBytes (ofScalars cs).reverse (charBytes ds) (ofScalars ds) false =
      (ofScalars (longestSuffix (fun ds => charBytes ds ≤ maxBytes) (cs ++ ds)), false) := by
  induction cs using reverseRecOn generalizing ds with
  | nil =>
    rw [nil_append, LongestSuffix.longestSuffix_of_fits (by simpa using hds)]
    rfl
  | append_singleton cs c ih =>
    have hunits : (ofScalars (cs ++ [c])).reverse = (codeUnits c).reverse ++ (ofScalars cs).reverse := by
      simp [ofScalars]
    have hkept : codeUnits c ++ ofScalars ds = ofScalars (c :: ds) := rfl
    rw [hunits, takeFromEnd_char, append_assoc, singleton_append]
    split
    · rename_i hmore
      rw [append_cons, LongestSuffix.longestSuffix_eq (chars_hereditary maxBytes) (by simpa using hds)]
      intro a ha
      obtain rfl : c = a := by simpa using ha
      rw [decide_eq_false_iff_not, charBytes_cons]
      omega
    · rename_i hfits
      have hbytes : charBytes (c :: ds) = charBytes ds + c.utf8Size := by
        rw [charBytes_cons, Nat.add_comm]
      rw [hkept, ← hbytes, ih (c :: ds) (by omega)]

/-- A line that is too long is cut between characters. -/
theorem truncateStringToBytesFromEnd_eq :
    truncateStringToBytesFromEnd (ofScalars cs) maxBytes = ofScalars (lastChars maxBytes cs) := by
  have hloop := takeFromEnd_spec maxBytes cs [] (Nat.zero_le _)
  rw [append_nil] at hloop
  rw [truncateStringToBytesFromEnd]
  split
  · rename_i hzero
    have hbytes := lastChars_bytes maxBytes cs
    cases hlast : lastChars maxBytes cs with
    | nil => rfl
    | cons c ds =>
      rw [hlast, charBytes_cons, hzero] at hbytes
      have := c.utf8Size_pos
      omega
  · change (let output := takeFromEnd maxBytes (ofScalars cs).reverse (charBytes []) (ofScalars []) false
      if output.2 = true then _ else output.1) = _
    rw [hloop]
    rfl

/-! ## The loops -/

/-- The lines that the loop of `truncateHead` adds, and why it ends. -/
theorem collectHead_spec (rest ls : List JsString) (by' : TruncatedBy) (part : Bool)
    (hls : linesBytes ls ≤ maxBytes) : ∃ more after, rest = more ++ after ∧ linesBytes (ls ++ more) ≤ maxBytes ∧
      (∀ line ∈ after.head?, maxBytes < linesBytes (ls ++ more ++ [line])) ∧
      collectHead maxBytes rest ls.length ⟨ls, linesBytes ls, by', part⟩ =
        ⟨ls ++ more, linesBytes (ls ++ more), if after = [] then by' else .bytes, part⟩ := by
  induction rest generalizing ls with
  | nil =>
    exact ⟨[], [], rfl, by simpa using hls, fun _ h => (not_mem_none _ h).elim, by simp [collectHead]⟩
  | cons line rest ih =>
    have hnext : linesBytes (ls ++ [line]) = linesBytes ls + (utf8ByteLength line + if ls.length > 0 then 1 else 0) := by
      cases ls with
      | nil => simp [linesBytes]
      | cons first ls =>
        rw [linesBytes_concat (cons_ne_nil _ _), if_pos (by simp)]
        omega
    rw [collectHead]
    rw [← hnext]
    split
    · rename_i hmore
      refine ⟨[], line :: rest, rfl, by simpa using hls, fun l hl => ?_, by simp⟩
      obtain rfl : line = l := some.inj hl
      simpa using hmore
    · rename_i hfits
      obtain ⟨more, after, rfl, hbytes, hafter, hloop⟩ := ih (ls ++ [line]) (by omega)
      rw [length_append, length_singleton] at hloop
      refine ⟨line :: more, after, rfl, ?_, ?_, ?_⟩
      · simpa using hbytes
      · simpa using hafter
      · rw [hloop]
        simp

/-- The longest run of whole trailing lines. -/
def tailRun (maxLines maxBytes : Nat) (ls : List JsString) : List JsString :=
  longestSuffix (fitsLines maxLines maxBytes) ls

/-- What the loop of `truncateTail` collects: the run, or the end of the last line. -/
def tailCollected (fromEnd : JsString → Nat → JsString) (maxLines maxBytes : Nat) (ls : List JsString) : Collected :=
  let run := tailRun maxLines maxBytes ls
  if run = [] ∧ ls ≠ [] then
    ⟨[fromEnd (ls.getLastD []) maxBytes], utf8ByteLength (fromEnd (ls.getLastD []) maxBytes), .bytes, true⟩
  else ⟨run, linesBytes run, if maxLines ≤ run.length ∨ run = ls then .lines else .bytes, false⟩

theorem collectTail_spec (fromEnd : JsString → Nat → JsString) {maxLines maxBytes : Nat} (hlines : 1 ≤ maxLines)
    (front ls : List JsString) (hls : fitsLines maxLines maxBytes ls = true) :
    collectTail fromEnd maxLines maxBytes front.reverse ⟨ls, linesBytes ls, .lines, false⟩ =
      tailCollected fromEnd maxLines maxBytes (front ++ ls) := by
  have hhered := fitsLines_hereditary maxLines maxBytes
  induction front using reverseRecOn generalizing ls with
  | nil =>
    have hrun : tailRun maxLines maxBytes ls = ls := LongestSuffix.longestSuffix_of_fits hls
    rw [nil_append, tailCollected, hrun, if_neg (by tauto), if_pos (.inr rfl)]
    rfl
  | append_singleton front line ih =>
    have hbytes : linesBytes (line :: ls) = linesBytes ls + (utf8ByteLength line + if ls.length > 0 then 1 else 0) := by
      cases ls with
      | nil => simp [linesBytes]
      | cons first ls =>
        rw [linesBytes_cons _ (cons_ne_nil _ _), if_pos (by simp)]
        omega
    rw [fitsLines_iff] at hls
    -- where one more line is too much, the run is what has been collected
    have hstop : ¬(ls.length + 1 ≤ maxLines ∧ linesBytes (line :: ls) ≤ maxBytes) →
        tailRun maxLines maxBytes (front ++ [line] ++ ls) = ls := fun hmore => by
      refine LongestSuffix.longestSuffix_eq hhered (fitsLines_iff.mpr hls) fun a ha => ?_
      obtain rfl : line = a := by simpa using ha
      rw [Bool.eq_false_iff, ne_eq, fitsLines_iff, length_cons]
      exact hmore
    rw [reverse_append, reverse_singleton, singleton_append, collectTail]
    dsimp only
    rw [← hbytes]
    split
    · rename_i hroom
      split
      · rename_i hmore
        rw [tailCollected, hstop (by omega)]
        split
        · rename_i hempty
          obtain rfl := length_eq_zero_iff.mp hempty
          rw [if_pos ⟨rfl, by simp⟩]
          simp
        · rename_i hsome
          have hne : ls ≠ [] := fun h => hsome (by rw [h]; rfl)
          rw [if_neg (fun h => hne h.1), if_neg]
          rintro (h | h)
          · omega
          · have := congrArg length h
            simp only [length_append, length_singleton] at this
            omega
      · rename_i hfits
        have hnext : fitsLines maxLines maxBytes (line :: ls) = true := by
          rw [fitsLines_iff, length_cons]
          omega
        rw [ih (line :: ls) hnext, append_assoc, singleton_append]
    · rename_i hfull
      have hne : ls ≠ [] := fun h => hfull (by rw [h]; exact hlines)
      rw [tailCollected, hstop (by omega), if_neg (fun h => hne h.1), if_pos (.inl (by omega))]

section
variable {fromEnd : JsString → Nat → JsString} {maxLines maxBytes : Nat} {content : JsString}

/-- A text is within the limits. -/
def Fits (maxLines maxBytes : Nat) (content : JsString) : Prop :=
  (lines 10 content).length ≤ maxLines ∧ utf8ByteLength content ≤ maxBytes

theorem truncateTailWith_fits (h : Fits maxLines maxBytes content) :
    truncateTailWith fromEnd maxLines maxBytes content =
      ⟨content, false, none, (lines 10 content).length, utf8ByteLength content, (lines 10 content).length,
        utf8ByteLength content, false, false, maxLines, maxBytes⟩ := by
  rw [truncateTailWith, splitLinesForCounting_eq]
  exact if_pos h

theorem truncateTailWith_cut (hlines : 1 ≤ maxLines) (h : ¬Fits maxLines maxBytes content) :
    truncateTailWith fromEnd maxLines maxBytes content =
      let c := tailCollected fromEnd maxLines maxBytes (lines 10 content)
      ⟨join c.outputLinesArr, true,
        some (if c.outputLinesArr.length ≥ maxLines ∧ c.outputBytesCount ≤ maxBytes then .lines else c.truncatedBy),
        (lines 10 content).length, utf8ByteLength content, c.outputLinesArr.length, linesBytes c.outputLinesArr,
        c.lastLinePartial, false, maxLines, maxBytes⟩ := by
  have hloop := collectTail_spec fromEnd hlines (lines 10 content) [] (fitsLines_hereditary _ maxBytes).nil
  rw [append_nil] at hloop
  have hempty : linesBytes [] = 0 := rfl
  rw [hempty] at hloop
  rw [Fits] at h
  rw [truncateTailWith, splitLinesForCounting_eq]
  dsimp only
  rw [if_neg h, hloop, utf8ByteLength_join]

theorem truncateHead_fits (h : Fits maxLines maxBytes content) : truncateHead content maxLines maxBytes =
    ⟨content, false, none, (lines 10 content).length, utf8ByteLength content, (lines 10 content).length,
      utf8ByteLength content, false, false, maxLines, maxBytes⟩ := by
  rw [truncateHead, splitLinesForCounting_eq]
  exact if_pos h

/-- The lines that `truncateHead` shows, and why it shows no more. -/
theorem truncateHead_cut (hlines : 1 ≤ maxLines) (h : ¬Fits maxLines maxBytes content) :
    ∃ run after, lines 10 content = run ++ after ∧ fitsLines maxLines maxBytes run = true ∧
      (∀ line ∈ after.head?, fitsLines maxLines maxBytes (run ++ [line]) = false) ∧
      truncateHead content maxLines maxBytes =
        ⟨join run, true, some (if maxLines ≤ run.length ∨ after = [] then .lines else .bytes),
          (lines 10 content).length, utf8ByteLength content, run.length, linesBytes run, false,
          decide (run = []), maxLines, maxBytes⟩ := by
  have hcont : content ≠ [] := by
    rintro rfl
    exact h ⟨Nat.zero_le _, Nat.zero_le _⟩
  obtain ⟨first, rest, hfirst⟩ := exists_cons_of_ne_nil (fun hnil => hcont (lines_eq_nil.mp hnil))
  rw [Fits] at h
  rw [truncateHead, splitLinesForCounting_eq]
  dsimp only
  rw [if_neg h]
  split
  · rename_i hlong
    rw [hfirst, headD_cons] at hlong
    refine ⟨[], lines 10 content, rfl, (fitsLines_hereditary _ _).nil, fun line hline => ?_, ?_⟩
    · rw [hfirst] at hline
      obtain rfl : first = line := some.inj hline
      rw [Bool.eq_false_iff, ne_eq, fitsLines_iff, nil_append, linesBytes_singleton]
      omega
    · rw [if_neg (by simp [hfirst]; omega)]
      rfl
  · obtain ⟨more, after, htake, hbytes, hafter, hloop⟩ :=
      collectHead_spec maxBytes ((lines 10 content).take maxLines) [] .lines false (Nat.zero_le _)
    rw [nil_append] at hbytes hafter hloop
    have hlen := congrArg length htake
    rw [length_take, length_append] at hlen
    have hwhole : lines 10 content = more ++ (after ++ (lines 10 content).drop maxLines) := by
      rw [← append_assoc, ← htake, take_append_drop]
    have hdrop : ((lines 10 content).drop maxLines).length = (lines 10 content).length - maxLines := length_drop
    have hfits : fitsLines maxLines maxBytes more = true := fitsLines_iff.mpr ⟨by omega, hbytes⟩
    have hsome : more ≠ [] := by
      rintro rfl
      rename_i hshort
      obtain ⟨n, rfl⟩ : ∃ n, maxLines = n + 1 := ⟨maxLines - 1, by omega⟩
      rw [hfirst, take_succ_cons, nil_append] at htake
      rw [hfirst, headD_cons] at hshort
      have := hafter first (by rw [← htake]; rfl)
      rw [nil_append, linesBytes_singleton] at this
      omega
    refine ⟨more, after ++ (lines 10 content).drop maxLines, hwhole, hfits, fun line hline => ?_, ?_⟩
    · rw [Bool.eq_false_iff, ne_eq, fitsLines_iff, length_append, length_singleton]
      cases after with
      | nil =>
        rw [nil_append] at hline
        have := length_pos_of_mem (mem_of_mem_head? hline)
        rw [length_nil] at hlen
        omega
      | cons l after =>
        have := hafter line hline
        omega
    · have hzero : linesBytes [] = 0 := rfl
      rw [hzero, length_nil] at hloop
      rw [hloop, utf8ByteLength_join]
      have hnone : decide (more = []) = false := decide_eq_false hsome
      rw [hnone]
      congr 2
      dsimp only
      cases after with
      | nil =>
        rw [length_nil] at hlen
        rw [if_pos rfl, ite_self, if_pos]
        rw [nil_append, ← length_eq_zero_iff, hdrop]
        omega
      | cons l after =>
        rw [length_cons] at hlen
        rw [if_neg (by omega), if_neg (by simp), if_neg (by simp; omega)]

theorem utf8ByteLength_body (content : JsString) : utf8ByteLength content =
    linesBytes (lines 10 content) + if content.getLast? = some 10 then 1 else 0 := by
  rw [← utf8ByteLength_join, join, intercalate_lines, body]
  split
  · rename_i hlast
    have hsplit := dropLast_append_getLast? 10 hlast
    have hline := utf8ByteLength_line content.dropLast []
    rw [hsplit] at hline
    exact hline
  · rfl

/-- Leading lines that fit are among those that are shown. -/
theorem prefix_run {ls run after other : List JsString} (hls : ls = run ++ after)
    (hafter : ∀ line ∈ after.head?, fitsLines maxLines maxBytes (run ++ [line]) = false)
    (hother : other <+: ls) (hfits : fitsLines maxLines maxBytes other = true) : other <+: run := by
  have hrun : run <+: ls := ⟨after, hls.symm⟩
  rcases Nat.le_total other.length run.length with hle | hle
  · exact prefix_of_prefix_length_le hother hrun hle
  · obtain ⟨more, rfl⟩ := prefix_of_prefix_length_le hrun hother hle
    cases more with
    | nil => rw [append_nil]
    | cons line more =>
      have hline : line ∈ after.head? := by
        obtain ⟨rest, hrest⟩ := hother
        rw [hls, append_assoc, append_cancel_left_eq] at hrest
        rw [← hrest]
        rfl
      have hpart : run ++ [line] <:+: run ++ line :: more := ⟨[], more, by simp⟩
      have hone := (fitsLines_hereditary maxLines maxBytes).part _ _ hpart hfits
      rw [hafter line hline] at hone
      cases hone

end

/-! ## Last parts of a text -/

/-- The lines of a text are the texts of its lines. -/
theorem lines_ofScalars : lines 10 (ofScalars cs) = (lines lineFeed cs).map ofScalars := by
  induction cs with
  | nil => rfl
  | cons c cs ih =>
    have hcons : ofScalars (c :: cs) = codeUnits c ++ ofScalars cs := rfl
    rw [hcons]
    by_cases hc : c = lineFeed
    · subst hc
      have hunits : codeUnits lineFeed = [10] := by decide
      rw [hunits, singleton_append, lines_sep, lines_sep, ih]
      rfl
    · have hunits : (10 : UInt16) ∉ codeUnits c := fun h => hc (codeUnits_lineFeed h)
      cases hlines : lines lineFeed cs with
      | nil =>
        obtain rfl := lines_eq_nil.mp hlines
        have hne : codeUnits c ≠ [] := fun h =>
          ofScalars_ne_nil (cons_ne_nil c []) (by simpa [ofScalars] using h)
        rw [lines_last hc rfl, ofScalars, flatMap_nil, append_nil, lines_of_not_mem hne hunits]
        simp [ofScalars]
      | cons line rest =>
        rw [hlines, map_cons] at ih
        rw [lines_cons hc hlines, lines_prepend hunits ih, map_cons]
        rfl

theorem line_isText {content : JsString} (hcont : IsText content) {line : JsString} (h : line ∈ lines 10 content) : IsText line := by
  obtain ⟨cs, rfl⟩ := hcont
  rw [lines_ofScalars] at h
  obtain ⟨ds, -, rfl⟩ := mem_map.mp h
  exact ⟨ds, rfl⟩

theorem ofScalars_append (cs ds : List Char) : ofScalars (cs ++ ds) = ofScalars cs ++ ofScalars ds := flatMap_append

theorem getLast?_ofScalars : (ofScalars cs).getLast? = some 10 ↔ cs.getLast? = some lineFeed := by
  rcases eq_nil_or_concat cs with rfl | ⟨cs, c, rfl⟩
  · simp [ofScalars]
  · rw [concat_eq_append, ofScalars_append, getLast?_concat, some.injEq]
    have hunits : ofScalars [c] = codeUnits c := by simp [ofScalars]
    have hne : ofScalars [c] ≠ [] := ofScalars_ne_nil (cons_ne_nil c [])
    rw [getLast?_append_of_ne_nil _ hne, hunits]
    constructor
    · intro h
      exact codeUnits_lineFeed (mem_of_getLast? h)
    · rintro rfl
      decide

theorem textEncode_ofScalars : textEncode (ofScalars cs) = encode cs := by
  rw [textEncode, toScalars_ofScalars, encode]

theorem count_ofScalars : (ofScalars cs).count 10 = cs.count lineFeed := by
  induction cs with
  | nil => rfl
  | cons c cs ih =>
    have hcons : ofScalars (c :: cs) = codeUnits c ++ ofScalars cs := rfl
    rw [hcons, count_append, ih]
    by_cases hc : c = lineFeed
    · subst hc
      rw [count_cons_self, Nat.add_comm]
      rfl
    · rw [count_cons_of_ne hc, count_eq_zero.mpr (fun h => hc (codeUnits_lineFeed h)), Nat.zero_add]

/-- A way to cut a line that is too long keeps the last characters. -/
def CutsChars (fromEnd : JsString → Nat → JsString) : Prop :=
  ∀ cs maxBytes, fromEnd (ofScalars cs) maxBytes = ofScalars (lastChars maxBytes cs)

section Window
variable {fromEnd : JsString → Nat → JsString} {maxLines maxBytes : Nat}

/-- What two loops of `truncateTail` show alike. -/
structure Alike (c d : Collected) : Prop where
  outputLinesArr : c.outputLinesArr = d.outputLinesArr
  lastLinePartial : c.lastLinePartial = d.lastLinePartial

theorem Alike.symm {c d : Collected} (h : Alike c d) : Alike d c := ⟨h.1.symm, h.2.symm⟩

theorem Alike.trans {c d e : Collected} (h : Alike c d) (h' : Alike d e) : Alike c e :=
  ⟨h.1.trans h'.1, h.2.trans h'.2⟩

variable {rest : List JsString}

/-- Lines before a line that does not fit do not matter. -/
theorem tailCollected_before (before : List JsString) (line : JsString) (hrest : rest ≠ [])
    (h : fitsLines maxLines maxBytes (line :: rest) = false) :
    Alike (tailCollected fromEnd maxLines maxBytes (before ++ line :: rest))
      (tailCollected fromEnd maxLines maxBytes rest) := by
  have hrun : tailRun maxLines maxBytes (before ++ line :: rest) = tailRun maxLines maxBytes rest := by
    rw [tailRun, LongestSuffix.longestSuffix_append_right (fitsLines_hereditary _ _) before h, longestSuffix, h]
    rfl
  have hlast : (before ++ line :: rest).getLastD [] = rest.getLastD [] := by
    rw [getLastD_eq_getLast?, getLastD_eq_getLast?, getLast?_append_of_ne_nil _ (by simp),
      getLast?_cons_of_ne_nil hrest]
  have hall : before ++ line :: rest ≠ [] := by simp
  rw [tailCollected, tailCollected, hrun, hlast]
  by_cases hnil : tailRun maxLines maxBytes rest = []
  · simp only [hnil, hall, hrest, ne_eq, not_false_iff, and_self, if_true]
    exact ⟨rfl, rfl⟩
  · simp only [hnil, false_and, if_false]
    exact ⟨rfl, rfl⟩

/-- A last line that is too long is cut alike, whatever comes before it. -/
theorem tailCollected_last (maxLines : Nat) (hcuts : CutsChars fromEnd) (before : List JsString) (cut last : List Char)
    (h : maxBytes < charBytes last) :
    Alike (tailCollected fromEnd maxLines maxBytes (before ++ [ofScalars (cut ++ last)]))
      (tailCollected fromEnd maxLines maxBytes [ofScalars last]) := by
  have hnot : ∀ line, maxBytes < utf8ByteLength line → fitsLines maxLines maxBytes [line] = false := fun line hline => by
    rw [Bool.eq_false_iff, ne_eq, fitsLines_iff, linesBytes_singleton]
    omega
  have hlong : maxBytes < utf8ByteLength (ofScalars (cut ++ last)) := by
    rw [utf8ByteLength_ofScalars, charBytes_append]
    omega
  have hrun : ∀ before line, maxBytes < utf8ByteLength line → tailRun maxLines maxBytes (before ++ [line]) = [] :=
    fun before line hline => by
      rw [tailRun, LongestSuffix.longestSuffix_append_right (fitsLines_hereditary _ _) before (hnot line hline),
        longestSuffix, hnot line hline]
      rfl
  have hone := hrun [] (ofScalars last) (by rwa [utf8ByteLength_ofScalars])
  rw [nil_append] at hone
  have hall : before ++ [ofScalars (cut ++ last)] ≠ [] := by simp
  have hchars : lastChars maxBytes (cut ++ last) = lastChars maxBytes last :=
    LongestSuffix.longestSuffix_append_right (chars_hereditary maxBytes) cut
      (decide_eq_false_iff_not.mpr (Nat.not_le.mpr h))
  rw [tailCollected, tailCollected, hrun before _ hlong, hone, getLastD_concat]
  have hends : fromEnd (ofScalars (cut ++ last)) maxBytes = fromEnd (ofScalars last) maxBytes := by
    rw [hcuts, hcuts, hchars]
  simp only [hall, ne_eq, not_false_iff, and_self, if_true, cons_ne_nil, getLastD_cons, getLastD_nil, hends]
  exact ⟨rfl, rfl⟩

/-- Two results show the same. -/
structure Shows (r r' : TruncationResult) : Prop where
  content : r.content = r'.content
  outputLines : r.outputLines = r'.outputLines
  outputBytes : r.outputBytes = r'.outputBytes
  lastLinePartial : r.lastLinePartial = r'.lastLinePartial

theorem shows_of_alike {s t : JsString} (hlines : 1 ≤ maxLines) (hs : ¬Fits maxLines maxBytes s)
    (ht : ¬Fits maxLines maxBytes t)
    (h : Alike (tailCollected fromEnd maxLines maxBytes (lines 10 s))
      (tailCollected fromEnd maxLines maxBytes (lines 10 t))) :
    Shows (truncateTailWith fromEnd maxLines maxBytes s) (truncateTailWith fromEnd maxLines maxBytes t) := by
  rw [truncateTailWith_cut hlines hs, truncateTailWith_cut hlines ht]
  exact ⟨congrArg join h.1, congrArg length h.1, congrArg linesBytes h.1, h.2⟩

/-- A last part whose lines are not all shown shows what the whole text shows. -/
theorem shows_window (hcuts : CutsChars fromEnd) (hlines : 1 ≤ maxLines) {before : List JsString}
    {cut first : List Char} {s t : JsString}
    (ht : lines 10 t = before ++ ofScalars (cut ++ first) :: rest) (hs : lines 10 s = ofScalars first :: rest)
    (hlong : fitsLines maxLines maxBytes (lines 10 s) = false) (hfitsS : ¬Fits maxLines maxBytes s)
    (hfitsT : ¬Fits maxLines maxBytes t) :
    Shows (truncateTailWith fromEnd maxLines maxBytes s) (truncateTailWith fromEnd maxLines maxBytes t) := by
  refine shows_of_alike hlines hfitsS hfitsT ?_
  rw [hs] at hlong
  rw [hs, ht]
  have hbytes : linesBytes (ofScalars first :: rest) ≤ linesBytes (ofScalars (cut ++ first) :: rest) := by
    rw [linesBytes, linesBytes]
    simp only [map_cons, sum_cons, length_cons, utf8ByteLength_ofScalars, charBytes_append]
    omega
  have hmore : fitsLines maxLines maxBytes (ofScalars (cut ++ first) :: rest) = false := by
    rw [Bool.eq_false_iff, ne_eq, fitsLines_iff] at hlong ⊢
    rw [length_cons] at hlong ⊢
    omega
  rcases eq_or_ne rest [] with rfl | hrest
  · refine (tailCollected_last maxLines hcuts before cut first ?_).symm
    rw [Bool.eq_false_iff, ne_eq, fitsLines_iff, linesBytes_singleton, utf8ByteLength_ofScalars,
      length_singleton] at hlong
    omega
  · exact (tailCollected_before [] _ hrest hlong).trans (tailCollected_before before _ hrest hmore).symm

theorem fitsLines_of_fits {s : JsString} (h : Fits maxLines maxBytes s) :
    fitsLines maxLines maxBytes (lines 10 s) = true := by
  have hbody := utf8ByteLength_body s
  rw [Fits] at h
  rw [fitsLines_iff]
  omega

/-- All lines are shown where they fit. -/
theorem tailCollected_of_fits (fromEnd : JsString → Nat → JsString) (h : fitsLines maxLines maxBytes ls = true) :
    (tailCollected fromEnd maxLines maxBytes ls).outputLinesArr = ls ∧
      (tailCollected fromEnd maxLines maxBytes ls).lastLinePartial = false := by
  have hrun : tailRun maxLines maxBytes ls = ls := LongestSuffix.longestSuffix_of_fits h
  rw [tailCollected, hrun, if_neg (fun h => h.2 h.1)]
  exact ⟨rfl, rfl⟩

/-- The last line alone is too long. -/
theorem tailRun_eq_nil (maxBytes : Nat) (hlines : 1 ≤ maxLines) (ls : List JsString) : tailRun maxLines maxBytes ls = [] ↔
    ∀ line ∈ ls.getLast?, maxBytes < utf8ByteLength line := by
  have hhered := fitsLines_hereditary maxLines maxBytes
  rcases eq_nil_or_concat ls with rfl | ⟨front, last, rfl⟩
  · exact ⟨fun _ _ h => (not_mem_none _ h).elim, fun _ => rfl⟩
  · rw [concat_eq_append]
    have hlast : (front ++ [last]).getLast? = some last := getLast?_concat
    have hone : fitsLines maxLines maxBytes [last] = true ↔ utf8ByteLength last ≤ maxBytes := by
      rw [fitsLines_iff, linesBytes_singleton, length_singleton]
      omega
    constructor
    · rintro hrun line hline
      obtain rfl : last = line := some.inj (hlast.symm.trans hline)
      by_contra hshort
      have := LongestSuffix.suffix_longestSuffix (suffix_append front [last]) (hone.mpr (by omega))
      rw [tailRun] at hrun
      rw [hrun] at this
      exact cons_ne_nil _ _ (suffix_nil.mp this)
    · intro hlong
      have hnot : fitsLines maxLines maxBytes [last] = false := by
        rw [Bool.eq_false_iff, ne_eq, hone, Nat.not_le]
        exact hlong last hlast
      rw [tailRun, LongestSuffix.longestSuffix_append_right hhered front hnot, longestSuffix, hnot]
      rfl

theorem lastChars_ne_nil (hbytes : 4 ≤ maxBytes) {cs : List Char} (hcs : cs ≠ []) : lastChars maxBytes cs ≠ [] := by
  intro hnil
  obtain ⟨front, hfront, hmore⟩ := lastChars_spec maxBytes cs
  rw [hnil, append_nil] at hfront
  have hc := hmore (cs.getLast hcs) (by rw [← hfront]; exact getLast?_eq_some_getLast hcs)
  have := (cs.getLast hcs).utf8Size_le_four
  rw [hnil, charBytes_nil] at hc
  omega

end Window

end Shuvpi.Truncate
