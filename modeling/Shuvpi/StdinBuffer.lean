import Shuvpi.JsonText
import Shuvpi.Occurrence

/-!
# Splitting terminal input

`StdinBuffer` cuts the text that a terminal sends into key presses, escape sequences and
bracketed pastes. A text arrives in chunks: what may still grow into a sequence is kept until
more text or a timeout comes.
-/
open List

namespace Shuvpi

open Occurrence (indexOf?)

structure StdinBuffer where
  buffer : JsString := []
  /-- A timeout is running. -/
  timeout : Bool := false
  pasteMode : Bool := false
  pasteBuffer : JsString := []
  pendingKittyPrintableCodepoint : Option Nat := none
  deriving Repr, DecidableEq

namespace StdinBuffer

def ESC : UInt16 := 0x1b

/-- `ESC[200~` -/
def BRACKETED_PASTE_START : JsString := [ESC, 91, 50, 48, 48, 126]

/-- `ESC[201~` -/
def BRACKETED_PASTE_END : JsString := [ESC, 91, 50, 48, 49, 126]

/-- `ESC\` -/
def ST : JsString := [ESC, 92]

/-! ## Complete sequences -/

inductive Status where
  | complete
  | incomplete
  | notEscape
  deriving Repr, DecidableEq

def isDigits (text : JsString) : Bool := !text.isEmpty && text.all JsonText.isDigit

/-- A byte in the range `@` to `~`. -/
def isFinalByte (u : UInt16) : Bool := 0x40 ≤ u.toNat && u.toNat ≤ 0x7e

/-- `M` or `m` -/
def endsMouse (payload : JsString) : Bool := payload.getLast? == some 77 || payload.getLast? == some 109

/-- `payload.slice(1, -1).split(";")` consists of three numbers. -/
def mouseParts (payload : JsString) : Bool :=
  let parts := (payload.tail.dropLast).splitOn 59
  parts.length == 3 && parts.all isDigits

/-- `/^<\d+;\d+;\d+[Mm]$/` -/
def mouseMatch (payload : JsString) : Bool := payload.head? == some 60 && endsMouse payload && mouseParts payload

def isCompleteCsiSequence (data : JsString) : Status :=
  if ¬ [ESC, 91] <+: data then .complete
  else if data.length < 3 then .incomplete
  else
    let payload := data.drop 2
    if (payload.getLast?.map isFinalByte).getD false then
      if [60] <+: payload then
        if mouseMatch payload then .complete
        else if endsMouse payload && mouseParts payload then .complete
        else .incomplete
      else .complete
    else .incomplete

def isCompleteOscSequence (data : JsString) : Status :=
  if ¬ [ESC, 93] <+: data then .complete
  else if ST <:+ data ∨ [7] <:+ data then .complete
  else .incomplete

def isCompleteDcsSequence (data : JsString) : Status :=
  if ¬ [ESC, 80] <+: data then .complete else if ST <:+ data then .complete else .incomplete

def isCompleteApcSequence (data : JsString) : Status :=
  if ¬ [ESC, 95] <+: data then .complete else if ST <:+ data then .complete else .incomplete

def isCompleteSequence (data : JsString) : Status :=
  if ¬ [ESC] <+: data then .notEscape
  else if data.length = 1 then .incomplete
  else
    let afterEsc := data.drop 1
    if [91] <+: afterEsc then
      if [91, 77] <+: afterEsc then
        if 6 ≤ data.length then .complete else .incomplete
      else isCompleteCsiSequence data
    else if [93] <+: afterEsc then isCompleteOscSequence data
    else if [80] <+: afterEsc then isCompleteDcsSequence data
    else if [95] <+: afterEsc then isCompleteApcSequence data
    else if [79] <+: afterEsc then
      if 2 ≤ afterEsc.length then .complete else .incomplete
    else .complete

/-- `/^\x1b\[(\d+)(?::\d*)?(?::\d+)?u$/`, and its first number from 32 on. -/
def parseUnmodifiedKittyPrintableCodepoint (sequence : JsString) : Option Nat :=
  if [ESC, 91] <+: sequence ∧ sequence.getLast? = some 117 then
    let codepoint (digits : JsString) :=
      if 32 ≤ JsProps.digitsValue digits then some (JsProps.digitsValue digits) else none
    match ((sequence.drop 2).dropLast).splitOn 58 with
    | [digits] => if isDigits digits then codepoint digits else none
    | [digits, shifted] =>
      if isDigits digits ∧ shifted.all JsonText.isDigit then codepoint digits else none
    | [digits, shifted, base] =>
      if isDigits digits ∧ shifted.all JsonText.isDigit ∧ isDigits base then codepoint digits
      else none
    | _ => none
  else none

/-! ## Extraction -/

/-- The loop over `seqEnd`: the least length from 1 on whose candidate is not incomplete. -/
def sequenceEnd (remaining : JsString) : Option Nat :=
  (List.range' 1 remaining.length).find? fun seqEnd =>
    isCompleteSequence (remaining.take seqEnd) ≠ .incomplete

/-- CSI, OSC, SS3, DCS or APC begins here. -/
def opensSequence (nextChar : Option UInt16) : Bool :=
  nextChar == some 91 || nextChar == some 93 || nextChar == some 79 || nextChar == some 80 ||
    nextChar == some 95

/-- The outer loop; `fuel` bounds its turns. -/
def extractLoop : Nat → JsString → List JsString × JsString
  | 0, remaining => ([], remaining)
  | _ + 1, [] => ([], [])
  | fuel + 1, u :: rest =>
    if u = ESC then
      match sequenceEnd (u :: rest) with
      | none => ([], u :: rest)
      | some seqEnd =>
        let candidate := (u :: rest).take seqEnd
        -- WezTerm sends a lone escape directly before the sequence of its release
        if candidate = [ESC, ESC] ∧ opensSequence (u :: rest)[seqEnd]? then
          let result := extractLoop fuel rest
          ([ESC] :: result.1, result.2)
        else
          let result := extractLoop fuel ((u :: rest).drop seqEnd)
          (candidate :: result.1, result.2)
    else
      let result := extractLoop fuel rest
      ([u] :: result.1, result.2)

/-- The complete sequences of a text, and what is left of it. -/
def extractCompleteSequences (buffer : JsString) : List JsString × JsString := extractLoop buffer.length buffer

/-! ## Processing -/

inductive Event where
  | data (sequence : JsString)
  | paste (content : JsString)
  deriving Repr, DecidableEq

def rawCodepoint (sequence : JsString) : Option Nat :=
  match sequence with
  | [u] => some u.toNat
  | _ => none

def emitDataSequence (b : StdinBuffer) (sequence : JsString) : StdinBuffer × List Event :=
  if rawCodepoint sequence ≠ none ∧ rawCodepoint sequence = b.pendingKittyPrintableCodepoint then
    ({ b with pendingKittyPrintableCodepoint := none }, [])
  else
    ({ b with pendingKittyPrintableCodepoint := parseUnmodifiedKittyPrintableCodepoint sequence }, [.data sequence])

def emitSequences (b : StdinBuffer) : List JsString → StdinBuffer × List Event
  | [] => (b, [])
  | sequence :: rest =>
    let emitted := b.emitDataSequence sequence
    let others := emitted.1.emitSequences rest
    (others.1, emitted.2 ++ others.2)

/-- In paste mode: the paste ends where its end marker is found. The third part is the text
that is processed again. -/
def closePaste (b : StdinBuffer) : StdinBuffer × List Event × JsString :=
  match indexOf? BRACKETED_PASTE_END b.pasteBuffer with
  | some endIndex =>
    ({ b with pasteMode := false, pasteBuffer := [], pendingKittyPrintableCodepoint := none },
      [.paste (b.pasteBuffer.take endIndex)],
      b.pasteBuffer.drop (endIndex + BRACKETED_PASTE_END.length))
  | none => (b, [], [])

/-- The body of `process` up to its call of itself on what follows a paste. -/
def pass (b : StdinBuffer) (str : JsString) : StdinBuffer × List Event × JsString :=
  if str = [] ∧ b.buffer = [] then
    let emitted := { b with timeout := false }.emitDataSequence []
    (emitted.1, emitted.2, [])
  else if b.pasteMode then
    closePaste { b with timeout := false, buffer := [], pasteBuffer := b.pasteBuffer ++ (b.buffer ++ str) }
  else
    let buffer := b.buffer ++ str
    match indexOf? BRACKETED_PASTE_START buffer with
    | some startIndex =>
      let result := extractCompleteSequences (buffer.take startIndex)
      let emitted := { b with timeout := false, buffer := buffer }.emitSequences result.1
      let closed := closePaste
        { emitted.1 with pendingKittyPrintableCodepoint := none, pasteMode := true, buffer := [],
                         pasteBuffer := buffer.drop (startIndex + BRACKETED_PASTE_START.length) }
      (closed.1, emitted.2 ++ closed.2.1, closed.2.2)
    | none =>
      let result := extractCompleteSequences buffer
      let emitted := { b with timeout := false, buffer := result.2 }.emitSequences result.1
      ({ emitted.1 with timeout := !result.2.isEmpty }, emitted.2, [])

/-- `fuel` bounds the calls that `process` makes of itself. -/
def processLoop : Nat → StdinBuffer → JsString → StdinBuffer × List Event
  | 0, b, _ => (b, [])
  | fuel + 1, b, str =>
    let passed := b.pass str
    if passed.2.2 = [] then (passed.1, passed.2.1)
    else
      let rest := processLoop fuel passed.1 passed.2.2
      (rest.1, passed.2.1 ++ rest.2)

/-- The text that has not been handed on. -/
def retained (b : StdinBuffer) : JsString := b.pasteBuffer ++ b.buffer

def process (b : StdinBuffer) (data : JsString) : StdinBuffer × List Event :=
  processLoop ((b.retained ++ data).length + 1) b data

def flush (b : StdinBuffer) : StdinBuffer × List JsString :=
  let b := { b with timeout := false }
  if b.buffer = [] then (b, [])
  else ({ b with buffer := [], pendingKittyPrintableCodepoint := none }, [b.buffer])

/-- The callback of the timeout, where one is running. -/
def fireTimeout (b : StdinBuffer) : StdinBuffer × List Event :=
  if b.timeout then
    let flushed := b.flush
    flushed.1.emitSequences flushed.2
  else (b, [])

/-- What can happen to the buffer. -/
inductive Op where
  | chunk (data : JsString)
  | timeout
  deriving Repr, DecidableEq

def step (b : StdinBuffer) : Op → StdinBuffer × List Event
  | .chunk data => b.process data
  | .timeout => b.fireTimeout

def run (b : StdinBuffer) : List Op → StdinBuffer × List Event
  | [] => (b, [])
  | op :: ops =>
    let stepped := b.step op
    let others := stepped.1.run ops
    (others.1, stepped.2 ++ others.2)

/-- The chunks of a run, one after the other. -/
def inputOf : List Op → JsString
  | [] => []
  | .chunk data :: ops => data ++ inputOf ops
  | .timeout :: ops => inputOf ops

/-! ## Facts about the parts -/

section Extraction

theorem extractLoop_text (fuel : Nat) (text : JsString) :
    (extractLoop fuel text).1.flatten ++ (extractLoop fuel text).2 = text := by
  induction fuel generalizing text with
  | zero => rfl
  | succ fuel ih =>
    cases text with
    | nil => rfl
    | cons u rest =>
      by_cases hu : u = ESC
      · cases hend : sequenceEnd (u :: rest) with
        | none => simp [extractLoop, hu, hu ▸ hend]
        | some n =>
          by_cases hlone : (u :: rest).take n = [ESC, ESC] ∧ opensSequence (u :: rest)[n]?
          · simp only [extractLoop, if_pos hu, hend, if_pos hlone]
            simpa [hu] using ih rest
          · simp only [extractLoop, if_pos hu, hend, if_neg hlone, flatten_cons, append_assoc]
            rw [ih, take_append_drop]
      · simpa [extractLoop, hu] using ih rest

/-- Extraction loses nothing. -/
theorem extractCompleteSequences_text (text : JsString) :
    (extractCompleteSequences text).1.flatten ++ (extractCompleteSequences text).2 = text :=
  extractLoop_text _ text

variable {text : JsString} {n : Nat}

theorem sequenceEnd_pos (h : sequenceEnd text = some n) :
    1 ≤ n ∧ n ≤ text.length := by
  have hmem := mem_of_find?_eq_some h
  rw [mem_range'_1] at hmem
  omega

/-- The end of a sequence is the least length that is not incomplete. -/
theorem sequenceEnd_eq (hn : 1 ≤ n) (hlen : n ≤ text.length)
    (hends : isCompleteSequence (text.take n) ≠ .incomplete)
    (hleast : ∀ k, 1 ≤ k → k < n → isCompleteSequence (text.take k) = .incomplete) :
    sequenceEnd text = some n := by
  rw [sequenceEnd, find?_range'_eq_some]
  refine ⟨by simpa using hends, by rw [mem_range'_1]; omega, ?_⟩
  intro k hk hkn
  simpa using hleast k hk hkn

theorem sequenceEnd_none
    (h : ∀ k, 1 ≤ k → k ≤ text.length → isCompleteSequence (text.take k) = .incomplete) :
    sequenceEnd text = none := by
  rw [sequenceEnd, find?_eq_none]
  intro k hk
  rw [mem_range'_1] at hk
  simpa using h k hk.1 (by omega)

/-- An escape sequence that is complete only as a whole. -/
structure Minimal (sequence : JsString) : Prop where
  opens : [ESC] <+: sequence
  whole : isCompleteSequence sequence = .complete
  parts : ∀ k, 1 ≤ k → k < sequence.length → isCompleteSequence (sequence.take k) = .incomplete

theorem isCompleteSequence_notEscape (h : [ESC] <+: text) :
    isCompleteSequence text ≠ .notEscape := by
  intro hnot
  grind [isCompleteSequence, isCompleteCsiSequence, isCompleteOscSequence, isCompleteDcsSequence,
    isCompleteApcSequence]

variable {sequence : JsString}

theorem Minimal.length_pos (h : Minimal sequence) : 1 ≤ sequence.length := by
  obtain ⟨rest, rfl⟩ := h.opens
  simp

theorem Minimal.sequenceEnd (h : Minimal sequence) (rest : JsString) :
    sequenceEnd (sequence ++ rest) = some sequence.length := by
  refine sequenceEnd_eq h.length_pos (by simp) ?_ ?_
  · rw [take_left, h.whole]
    exact fun hs => (by cases hs)
  · intro k hk hlt
    rw [take_append_of_le_length hlt.le]
    exact h.parts k hk hlt

variable {rest : JsString}

/-- What the loop over `seqEnd` finds is minimal. -/
theorem minimal_take (h : sequenceEnd (ESC :: rest) = some n) :
    Minimal ((ESC :: rest).take n) := by
  obtain ⟨hpos, hlen⟩ := sequenceEnd_pos h
  obtain ⟨m, rfl⟩ : ∃ m, n = m + 1 := ⟨n - 1, by omega⟩
  rw [sequenceEnd, find?_range'_eq_some] at h
  obtain ⟨hends, -, hleast⟩ := h
  have hopens : [ESC] <+: (ESC :: rest).take (m + 1) := ⟨rest.take m, by simp⟩
  refine ⟨hopens, ?_, ?_⟩
  · cases hstat : isCompleteSequence ((ESC :: rest).take (m + 1)) with
    | complete => rfl
    | incomplete => exact absurd hstat (of_decide_eq_true hends)
    | notEscape => exact absurd hstat (isCompleteSequence_notEscape hopens)
  · intro k hk hlt
    rw [length_take] at hlt
    rw [take_take, Nat.min_eq_left (by omega)]
    simpa using hleast k hk (by omega)

/-- More fuel than the length changes nothing. -/
theorem extractLoop_succ {fuel : Nat} (h : text.length ≤ fuel) :
    extractLoop (fuel + 1) text = extractLoop fuel text := by
  induction fuel generalizing text with
  | zero =>
    cases text with
    | nil => rfl
    | cons u rest => simp at h
  | succ fuel ih =>
    cases text with
    | nil => rfl
    | cons u rest =>
      rw [length_cons] at h
      have hrest := ih (by omega : rest.length ≤ fuel)
      by_cases hu : u = ESC
      · cases hend : sequenceEnd (u :: rest) with
        | none => simp only [extractLoop, hend, if_pos hu]
        | some n =>
          have hpos := (sequenceEnd_pos hend).1
          have hdrop := @ih ((u :: rest).drop n) (by rw [length_drop, length_cons]; omega)
          rw [extractLoop, extractLoop, if_pos hu, if_pos hu, hend]
          dsimp only
          rw [hdrop, hrest]
      · rw [extractLoop, extractLoop, if_neg hu, if_neg hu, hrest]

theorem extractLoop_fuel {fuel : Nat} (h : text.length ≤ fuel) :
    extractLoop fuel text = extractCompleteSequences text := by
  induction fuel, h using Nat.le_induction with
  | base => rfl
  | succ fuel h ih => rw [extractLoop_succ h, ih]

@[simp] theorem extractCompleteSequences_nil : extractCompleteSequences [] = ([], []) := rfl

theorem extract_plain {u : UInt16} (hu : u ≠ ESC) (rest : JsString) : extractCompleteSequences (u :: rest) =
      ([u] :: (extractCompleteSequences rest).1, (extractCompleteSequences rest).2) := by
  rw [extractCompleteSequences, length_cons, extractLoop, if_neg hu]
  rfl

theorem extract_sequence {sequence : JsString} (h : Minimal sequence)
    (hlone : ¬ (sequence = [ESC, ESC] ∧ opensSequence rest.head?)) :
    extractCompleteSequences (sequence ++ rest) =
      (sequence :: (extractCompleteSequences rest).1, (extractCompleteSequences rest).2) := by
  have hend := h.sequenceEnd rest
  obtain ⟨tail, rfl⟩ := h.opens
  have hnext : (ESC :: (tail ++ rest))[(ESC :: tail).length]? = rest.head? := by
    rw [length_cons, getElem?_cons_succ, getElem?_append_right le_rfl, Nat.sub_self, head?_eq_getElem?]
  have hfuel : extractLoop (tail ++ rest).length rest = extractCompleteSequences rest := extractLoop_fuel (by simp)
  rw [cons_append, nil_append, cons_append] at hend ⊢
  rw [cons_append, nil_append] at hlone
  rw [extractCompleteSequences, length_cons, extractLoop, if_pos rfl, hend]
  dsimp only
  rw [hnext, show (ESC :: (tail ++ rest)).take (ESC :: tail).length = ESC :: tail by simp,
    show (ESC :: (tail ++ rest)).drop (ESC :: tail).length = rest by simp, if_neg hlone, hfuel]

theorem extract_escape {next : UInt16} (hnext : opensSequence (some next)) (rest : JsString) :
    extractCompleteSequences (ESC :: ESC :: next :: rest) =
      ([ESC] :: (extractCompleteSequences (ESC :: next :: rest)).1,
        (extractCompleteSequences (ESC :: next :: rest)).2) := by
  have hend : sequenceEnd (ESC :: ESC :: next :: rest) = some 2 := by
    refine sequenceEnd_eq (by omega) (by simp) (by simp [take, isCompleteSequence, ESC]) ?_
    intro k hk hlt
    obtain rfl : k = 1 := by omega
    rfl
  rw [extractCompleteSequences, length_cons, extractLoop, if_pos rfl, hend]
  dsimp only
  rw [if_pos ⟨rfl, hnext⟩]
  rfl

theorem extract_unfinished (h : sequenceEnd (ESC :: rest) = none) :
    extractCompleteSequences (ESC :: rest) = ([], ESC :: rest) := by
  rw [extractCompleteSequences, length_cons, extractLoop, if_pos rfl, h]

end Extraction

theorem closePaste_shorter (b : StdinBuffer) :
    (closePaste b).2.2 = [] ∨ (closePaste b).2.2.length < b.pasteBuffer.length := by
  cases hend : indexOf? BRACKETED_PASTE_END b.pasteBuffer with
  | none => exact .inl (by rw [closePaste, hend])
  | some endIndex =>
    have hlen := congrArg length (Occurrence.indexOf?_some hend).1
    simp only [length_append] at hlen
    refine .inr ?_
    rw [closePaste, hend]
    simp only [BRACKETED_PASTE_END, length_cons, length_nil, length_drop] at hlen ⊢
    omega

theorem pass_shorter (b : StdinBuffer) (str : JsString) :
    (b.pass str).2.2 = [] ∨ (b.pass str).2.2.length < (b.retained ++ str).length := by
  rw [pass]
  split
  · exact .inl rfl
  · split
    · refine (closePaste_shorter _).imp id fun h => h.trans_le ?_
      simp [retained]
    · dsimp only
      split
      · refine (closePaste_shorter _).imp id fun h => h.trans_le ?_
        simp only [retained, length_drop, length_append]
        omega
      · exact .inl rfl

end StdinBuffer

end Shuvpi
