import Shuvpi.StdinBuffer

/-!
# What becomes of the input

Every piece of the terminal's input is emitted, suppressed after the key report it repeats, or
dropped. What a run drops is exactly what `process` leaves of the text before a paste start
marker, where that text does not end with a complete sequence.
-/
namespace Shuvpi.StdinBuffer

open Occurrence
open List

/-! ## Whole text -/

/-- Text that divides into characters and complete sequences. -/
inductive Whole : JsString → Prop where
  | nil : Whole []
  | plain {u : UInt16} {rest : JsString} : u ≠ ESC → Whole rest → Whole (u :: rest)
  | escape {next : UInt16} {rest : JsString} :
      opensSequence (some next) → Whole (ESC :: next :: rest) → Whole (ESC :: ESC :: next :: rest)
  | sequence {sequence rest : JsString} :
      Minimal sequence → ¬ (sequence = [ESC, ESC] ∧ opensSequence rest.head?) → Whole rest → Whole (sequence ++ rest)

theorem Whole.extract {text : JsString} (h : Whole text) : (extractCompleteSequences text).2 = [] := by
  induction h with
  | nil => rfl
  | plain hu _ ih => rw [extract_plain hu]; exact ih
  | escape hnext _ ih => rw [extract_escape hnext]; exact ih
  | sequence hmin hlone _ ih => rw [extract_sequence hmin hlone]; exact ih

/-- What is left over begins with an escape, and the text is whole where nothing is left. -/
theorem whole_or_left (text : JsString) : Whole text ∨ [ESC] <+: (extractCompleteSequences text).2 := by
  induction hlen : text.length using Nat.strong_induction_on generalizing text with
  | _ n ih =>
    have ih' (rest : JsString) (h : rest.length < text.length) := ih rest.length (hlen ▸ h) rest rfl
    cases text with
    | nil => exact .inl .nil
    | cons u rest =>
      by_cases hu : u = ESC
      · subst hu
        cases hend : sequenceEnd (ESC :: rest) with
        | none =>
          rw [extract_unfinished hend]
          exact .inr ⟨rest, rfl⟩
        | some n =>
          have hmin := minimal_take hend
          have hsplit := take_append_drop n (ESC :: rest)
          generalize (ESC :: rest).take n = sequence at hmin hsplit
          generalize (ESC :: rest).drop n = after at hsplit
          have hshort : after.length < (ESC :: rest).length := by
            have hpos := hmin.length_pos
            rw [← hsplit, length_append]
            omega
          by_cases hlone : sequence = [ESC, ESC] ∧ opensSequence after.head?
          · obtain ⟨rfl, hopens⟩ := hlone
            cases after with
            | nil => simp [opensSequence] at hopens
            | cons next after =>
              rw [← hsplit] at ih' ⊢
              rw [cons_append, cons_append, nil_append, extract_escape hopens]
              exact (ih' (ESC :: next :: after) (by simp)).imp (Whole.escape hopens) id
          · rw [← hsplit, extract_sequence hmin hlone]
            exact (ih' after hshort).imp (Whole.sequence hmin hlone) id
      · rw [extract_plain hu]
        exact (ih' rest (by simp)).imp (Whole.plain hu) id

theorem whole_iff (text : JsString) : Whole text ↔ (extractCompleteSequences text).2 = [] := by
  refine ⟨Whole.extract, fun h => (whole_or_left text).resolve_right ?_⟩
  intro hleft
  simp [h] at hleft

/-! ## Fates -/

/-- What becomes of a piece of the input. -/
inductive Fate where
  | emitted (event : Event)
  | suppressed (u : UInt16)
  | dropped (text : JsString)

def Event.text : Event → JsString
  | .data sequence => sequence
  | .paste content => BRACKETED_PASTE_START ++ content ++ BRACKETED_PASTE_END

def Fate.text : Fate → JsString
  | .emitted event => event.text
  | .suppressed u => [u]
  | .dropped text => text

def Fate.event? : Fate → Option Event
  | .emitted event => some event
  | _ => none

def eventsOf (fates : List Fate) : List Event := fates.filterMap Fate.event?

def textOf (fates : List Fate) : JsString := fates.flatMap Fate.text

variable (fates others : List Fate)

@[simp] theorem eventsOf_append : eventsOf (fates ++ others) = eventsOf fates ++ eventsOf others := filterMap_append

@[simp] theorem textOf_append : textOf (fates ++ others) = textOf fates ++ textOf others := flatMap_append

/-- A suppressed character directly follows the report of its own key. -/
def OnlyReported (fates : List Fate) : Prop := ∀ front u back, fates = front ++ .suppressed u :: back →
    ∃ before sequence, front = before ++ [.emitted (.data sequence)] ∧
      parseUnmodifiedKittyPrintableCodepoint sequence = some u.toNat

def Drops (fates : List Fate) : Prop := ∃ text, .dropped text ∈ fates

/-- What is buffered or partially pasted, with the start marker. -/
def remainder (b : StdinBuffer) : JsString :=
  if b.pasteMode then BRACKETED_PASTE_START ++ b.retained else b.retained

/-- The run hands on its whole input, apart from suppressed characters. -/
def Restored (ops : List Op) : Prop := ∃ fates, ¬ Drops fates ∧ OnlyReported fates ∧ eventsOf fates = (run {} ops).2 ∧
    textOf fates ++ (run {} ops).1.remainder = inputOf ops

/-! ## The condition -/

/-- Some paste start marker of the text cuts an escape sequence off. The flag tells whether the
text begins inside a paste. -/
inductive CutByPaste : Bool → JsString → Prop where
  | here {text : JsString} {startIndex : Nat} :
      indexOf? BRACKETED_PASTE_START text = some startIndex → ¬ Whole (text.take startIndex) → CutByPaste false text
  | inside {text : JsString} {startIndex : Nat} : indexOf? BRACKETED_PASTE_START text = some startIndex →
        CutByPaste true (text.drop (startIndex + BRACKETED_PASTE_START.length)) → CutByPaste false text
  | after {text : JsString} {endIndex : Nat} : indexOf? BRACKETED_PASTE_END text = some endIndex →
        CutByPaste false (text.drop (endIndex + BRACKETED_PASTE_END.length)) → CutByPaste true text

theorem cutByPaste_true {text : JsString} {endIndex : Nat}
    (h : indexOf? BRACKETED_PASTE_END text = some endIndex) :
    CutByPaste true text ↔ CutByPaste false (text.drop (endIndex + BRACKETED_PASTE_END.length)) := by
  refine ⟨fun hcut => ?_, .after h⟩
  cases hcut with
  | after hat hcut =>
    rw [h, Option.some.injEq] at hat
    rwa [hat]

theorem not_cutByPaste_true {text : JsString} (h : indexOf? BRACKETED_PASTE_END text = none) :
    ¬ CutByPaste true text := by
  intro hcut
  cases hcut with
  | after hat => rw [h] at hat; cases hat

theorem cutByPaste_false {text : JsString} {startIndex : Nat}
    (h : indexOf? BRACKETED_PASTE_START text = some startIndex) :
    CutByPaste false text ↔ ¬ Whole (text.take startIndex) ∨
      CutByPaste true (text.drop (startIndex + BRACKETED_PASTE_START.length)) := by
  constructor
  · intro hcut
    cases hcut with
    | here hat hwhole =>
      rw [h, Option.some.injEq] at hat
      exact .inl (hat ▸ hwhole)
    | inside hat hcut =>
      rw [h, Option.some.injEq] at hat
      exact .inr (hat ▸ hcut)
  · rintro (hwhole | hcut)
    · exact .here h hwhole
    · exact .inside h hcut

theorem not_cutByPaste_false {text : JsString} (h : indexOf? BRACKETED_PASTE_START text = none) :
    ¬ CutByPaste false text := by
  intro hcut
  cases hcut with
  | here hat => rw [h] at hat; cases hat
  | inside hat => rw [h] at hat; cases hat

theorem not_cutByPaste_nil : ¬ CutByPaste false [] := not_cutByPaste_false rfl

/-- No call of `process` in the run meets a paste start marker that cuts a sequence off. -/
def Uncut (b : StdinBuffer) : List Op → Prop
  | [] => True
  | .chunk data :: ops => ¬ CutByPaste b.pasteMode (b.retained ++ data) ∧ Uncut (b.process data).1 ops
  | .timeout :: ops => Uncut b.fireTimeout.1 ops

/-! ## One step after the other -/

/-- A pending code point is the one of the report emitted last. -/
def Reports (fates : List Fate) (b : StdinBuffer) : Prop := ∀ n, b.pendingKittyPrintableCodepoint = some n →
    ∃ before sequence, fates = before ++ [.emitted (.data sequence)] ∧
      parseUnmodifiedKittyPrintableCodepoint sequence = some n

/-- From `b` to `b'` the text is disposed of with these events; `cut` tells whether a part of it
that holds an escape is dropped. -/
def Takes (b b' : StdinBuffer) (events : List Event) (text : JsString) (cut : Prop) : Prop :=
  ∀ fates, OnlyReported fates → Reports fates b →
    ∃ added, OnlyReported (fates ++ added) ∧ Reports (fates ++ added) b' ∧ eventsOf added = events ∧
      textOf added = text ∧ (Drops added ↔ cut) ∧ ∀ lost, .dropped lost ∈ added → ESC ∈ lost

theorem OnlyReported.nil : OnlyReported [] := by
  intro front u back h
  cases front <;> cases h

/-- Anything but a suppressed character can be added. -/
theorem OnlyReported.concat {fates : List Fate} (h : OnlyReported fates) {fate : Fate}
    (hfate : ∀ u, fate = .suppressed u → ∃ before sequence, fates = before ++ [.emitted (.data sequence)] ∧
      parseUnmodifiedKittyPrintableCodepoint sequence = some u.toNat) :
    OnlyReported (fates ++ [fate]) := by
  intro front u back hsplit
  obtain rfl | ⟨back, last, rfl⟩ := eq_nil_or_concat back
  · obtain ⟨rfl, hlast⟩ := append_inj' hsplit rfl
    exact hfate u (by simpa using hlast)
  · rw [concat_eq_append, ← cons_append, ← append_assoc] at hsplit
    obtain ⟨rfl, -⟩ := append_inj' hsplit rfl
    exact h front u back rfl

section Takes

variable {b b' b'' : StdinBuffer} {events events' : List Event} {text text' : JsString} {cut cut' : Prop}

theorem Takes.of_pending (h : ∀ n, b'.pendingKittyPrintableCodepoint = some n →
    b.pendingKittyPrintableCodepoint = some n) : Takes b b' [] [] False := by
  intro fates honly hreps
  refine ⟨[], by simpa using honly, ?_, rfl, rfl, by simp [Drops], by simp⟩
  intro n hn
  simpa using hreps n (h n hn)

theorem Takes.trans (h : Takes b b' events text cut) (h' : Takes b' b'' events' text' cut') :
    Takes b b'' (events ++ events') (text ++ text') (cut ∨ cut') := by
  intro fates honly hreps
  obtain ⟨added, honly, hreps, rfl, rfl, hdrops, hlost⟩ := h fates honly hreps
  obtain ⟨more, honly', hreps', rfl, rfl, hdrops', hlost'⟩ := h' _ honly hreps
  refine ⟨added ++ more, by rwa [← append_assoc], by rwa [← append_assoc],
    eventsOf_append _ _, textOf_append _ _, ?_, ?_⟩
  · rw [← hdrops, ← hdrops']
    simp only [Drops, mem_append, exists_or]
  · intro lost hmem
    exact (mem_append.mp hmem).elim (hlost lost) (hlost' lost)

/-- An event that sets no report. -/
theorem Takes.emit (event : Event) (h : ∀ n, b'.pendingKittyPrintableCodepoint = some n →
    ∃ sequence, event = .data sequence ∧ parseUnmodifiedKittyPrintableCodepoint sequence = some n) :
    Takes b b' [event] event.text False := by
  intro fates honly _
  refine ⟨[.emitted event], honly.concat (fun u hu => (by cases hu)), ?_, rfl, by simp [textOf, Fate.text],
    by simp [Drops], by simp⟩
  intro n hn
  obtain ⟨sequence, rfl, hparse⟩ := h n hn
  exact ⟨fates, sequence, rfl, hparse⟩

theorem Takes.drop (hnone : b'.pendingKittyPrintableCodepoint = none) (hesc : ESC ∈ text) :
    Takes b b' [] text True := by
  intro fates honly _
  refine ⟨[.dropped text], honly.concat (fun u hu => (by cases hu)), ?_, rfl, by simp [textOf, Fate.text],
    by simp [Drops], ?_⟩
  · intro n hn
    rw [hnone] at hn
    cases hn
  · intro lost hmem
    rw [mem_singleton, Fate.dropped.injEq] at hmem
    rwa [hmem]

end Takes

/-! ## Emission -/

variable (b : StdinBuffer)
include b

variable (sequence : JsString)

theorem emitDataSequence_takes :
    Takes b (b.emitDataSequence sequence).1 (b.emitDataSequence sequence).2 sequence False := by
  rw [emitDataSequence]
  split
  · rename_i hsuppressed
    obtain ⟨hraw, hpending⟩ := hsuppressed
    obtain ⟨u, rfl⟩ : ∃ u, sequence = [u] := by
      match sequence, hraw with
      | [], hraw => exact absurd rfl hraw
      | [u], _ => exact ⟨u, rfl⟩
      | _ :: _ :: _, hraw => exact absurd rfl hraw
    intro fates honly hreps
    refine ⟨[.suppressed u], honly.concat ?_, fun n hn => (by cases hn), rfl, rfl, by simp [Drops], by simp⟩
    rintro u' ⟨⟩
    exact hreps u.toNat hpending.symm
  · exact Takes.emit (.data sequence) fun n hn => ⟨sequence, rfl, hn⟩

variable (sequences : List JsString)

theorem emitSequences_takes :
    Takes b (b.emitSequences sequences).1 (b.emitSequences sequences).2 sequences.flatten False := by
  induction sequences generalizing b with
  | nil => exact Takes.of_pending fun n hn => hn
  | cons sequence rest ih =>
    have h := (emitDataSequence_takes b sequence).trans (ih (b.emitDataSequence sequence).1)
    rwa [or_self] at h

/-- Emission only moves the pending code point. -/
theorem emitDataSequence_frame :
    ∃ pending, (b.emitDataSequence sequence).1 = { b with pendingKittyPrintableCodepoint := pending } := by
  rw [emitDataSequence]
  split
  · exact ⟨_, rfl⟩
  · exact ⟨_, rfl⟩

theorem emitSequences_frame :
    ∃ pending, (b.emitSequences sequences).1 = { b with pendingKittyPrintableCodepoint := pending } := by
  induction sequences generalizing b with
  | nil => exact ⟨_, rfl⟩
  | cons sequence rest ih =>
    obtain ⟨first, hfirst⟩ := emitDataSequence_frame b sequence
    obtain ⟨pending, hpending⟩ := ih (b.emitDataSequence sequence).1
    refine ⟨pending, ?_⟩
    rw [emitSequences, hpending, hfirst]

/-! ## Passes -/

omit b

/-- A paste has nothing in the buffer, and the paste buffer is empty outside of one. -/
def WellFormed (b : StdinBuffer) : Prop := if b.pasteMode then b.buffer = [] else b.pasteBuffer = []

/-- What a part of `process` does with the text that it has to deal with, up to the rest that is
processed again. -/
structure Deals (b b' : StdinBuffer) (events : List Event) (input rest : JsString) (cut : Prop) : Prop where
  takes : ∃ text, Takes b b' events text cut ∧ text ++ b'.remainder ++ rest = input
  wellFormed : b'.WellFormed
  again : rest ≠ [] → b'.pasteMode = false ∧ b'.retained = []

variable {b : StdinBuffer}

/-- What a call before it has disposed of. -/
theorem Deals.after {b' b'' : StdinBuffer} {events events' : List Event} {text input rest : JsString}
    {cut cut' : Prop} (h : Takes b b' events text cut) (h' : Deals b' b'' events' input rest cut') :
    Deals b b'' (events ++ events') (text ++ input) rest (cut ∨ cut') := by
  obtain ⟨text', htakes, rfl⟩ := h'.takes
  exact ⟨⟨text ++ text', h.trans htakes, by simp only [append_assoc]⟩, h'.wellFormed, h'.again⟩

theorem closePaste_deals (hmode : b.pasteMode = true) (hbuf : b.buffer = []) :
    Deals b (closePaste b).1 (closePaste b).2.1 (BRACKETED_PASTE_START ++ b.pasteBuffer)
      (closePaste b).2.2 False := by
  cases hend : indexOf? BRACKETED_PASTE_END b.pasteBuffer with
  | none =>
    rw [closePaste, hend]
    refine ⟨⟨[], Takes.of_pending fun n hn => hn, ?_⟩, ?_, fun h => absurd rfl h⟩
    · simp [remainder, retained, hmode, hbuf]
    · simp [WellFormed, hmode, hbuf]
  | some endIndex =>
    have hsplit := (indexOf?_some hend).1
    rw [closePaste, hend]
    refine ⟨⟨_, Takes.emit _ fun n hn => (by cases hn), ?_⟩, ?_, fun _ => ⟨rfl, ?_⟩⟩
    · simp only [Event.text, remainder, retained, hbuf, Bool.false_eq_true, if_false, append_nil, append_assoc]
      rw [← hsplit]
    · simp [WellFormed]
    · simp [retained, hbuf]

theorem closePaste_cut (b : StdinBuffer) :
    CutByPaste true b.pasteBuffer ↔ CutByPaste false (closePaste b).2.2 := by
  cases hend : indexOf? BRACKETED_PASTE_END b.pasteBuffer with
  | none =>
    rw [closePaste, hend]
    exact iff_of_false (not_cutByPaste_true hend) not_cutByPaste_nil
  | some endIndex =>
    rw [closePaste, hend]
    exact cutByPaste_true hend

/-- What is left before a paste is dropped, unless it is empty. -/
theorem left_takes {b' : StdinBuffer} (hnone : b'.pendingKittyPrintableCodepoint = none) (text : JsString) :
    Takes b b' [] (extractCompleteSequences text).2 (¬ Whole text) := by
  obtain hwhole | hleft := whole_or_left text
  · rw [(whole_iff text).mp hwhole, not_iff_false_intro hwhole]
    exact Takes.of_pending fun n hn => by rw [hnone] at hn; cases hn
  · have hcut : ¬ Whole text := fun hwhole => by simp [hwhole.extract] at hleft
    rw [eq_true hcut]
    exact Takes.drop hnone (hleft.subset (mem_singleton_self _))

variable (hwf : b.WellFormed)
include hwf

theorem pass_deals {str : JsString} (hstr : str ≠ []) :
    ∃ cut, Deals b (b.pass str).1 (b.pass str).2.1 (b.remainder ++ str) (b.pass str).2.2 cut ∧
      (CutByPaste b.pasteMode (b.retained ++ str) ↔ cut ∨ CutByPaste false (b.pass str).2.2) := by
  cases hmode : b.pasteMode with
  | true =>
    have hbuf : b.buffer = [] := by simpa [WellFormed, hmode] using hwf
    have hpass : b.pass str =
        closePaste { b with timeout := false, buffer := [], pasteBuffer := b.pasteBuffer ++ str } := by
      rw [pass, if_neg (fun h => hstr h.1), if_pos hmode, hbuf, nil_append]
    have hdeals := (closePaste_deals (b := { b with
      timeout := false, buffer := [], pasteBuffer := b.pasteBuffer ++ str }) hmode rfl).after
        (Takes.of_pending (b := b) (by exact fun n hn => hn))
    have hcut := closePaste_cut { b with timeout := false, buffer := [], pasteBuffer := b.pasteBuffer ++ str }
    rw [← hpass] at hdeals hcut
    refine ⟨False, ?_, ?_⟩
    · simpa [remainder, retained, hmode, hbuf] using hdeals
    · simpa [retained, hbuf] using hcut
  | false =>
    have hpasted : b.pasteBuffer = [] := by simpa [WellFormed, hmode] using hwf
    have hret : b.retained = b.buffer := by rw [retained, hpasted, nil_append]
    have hremainder : b.remainder = b.buffer := by rw [remainder, hmode, if_neg Bool.false_ne_true, hret]
    rw [hret, hremainder]
    cases hstart : indexOf? BRACKETED_PASTE_START (b.buffer ++ str) with
    | none =>
      obtain ⟨pending, hframe⟩ := emitSequences_frame
        { b with timeout := false, buffer := (extractCompleteSequences (b.buffer ++ str)).2 }
        (extractCompleteSequences (b.buffer ++ str)).1
      have htakes := emitSequences_takes
        { b with timeout := false, buffer := (extractCompleteSequences (b.buffer ++ str)).2 }
        (extractCompleteSequences (b.buffer ++ str)).1
      have htext := extractCompleteSequences_text (b.buffer ++ str)
      rw [pass, if_neg (fun h => hstr h.1), if_neg (by simp [hmode])]
      dsimp only
      rw [hstart]
      refine ⟨False, ⟨⟨_, fun fates => htakes fates, ?_⟩, ?_, fun h => absurd rfl h⟩, ?_⟩
      · rw [hframe]
        simpa [remainder, retained, hmode, hpasted] using htext
      · rw [hframe]
        simp [WellFormed, hmode, hpasted]
      · exact iff_of_false (not_cutByPaste_false hstart) (by simpa using not_cutByPaste_nil)
    | some startIndex =>
      have hsplit := (indexOf?_some hstart).1
      have htext := extractCompleteSequences_text ((b.buffer ++ str).take startIndex)
      have hemits := emitSequences_takes { b with timeout := false, buffer := b.buffer ++ str }
        (extractCompleteSequences ((b.buffer ++ str).take startIndex)).1
      rw [pass, if_neg (fun h => hstr h.1), if_neg (by simp [hmode])]
      dsimp only
      rw [hstart]
      dsimp only
      generalize hopen : ({ (emitSequences { b with timeout := false, buffer := b.buffer ++ str }
        (extractCompleteSequences ((b.buffer ++ str).take startIndex)).1).1 with
          pendingKittyPrintableCodepoint := none, pasteMode := true, buffer := [],
          pasteBuffer := (b.buffer ++ str).drop (startIndex + BRACKETED_PASTE_START.length) } : StdinBuffer) = pasting
      have hclosed := closePaste_deals (b := pasting) (by rw [← hopen]) (by rw [← hopen])
      have hcut := closePaste_cut pasting
      have hpasteBuffer : pasting.pasteBuffer =
          (b.buffer ++ str).drop (startIndex + BRACKETED_PASTE_START.length) := by rw [← hopen]
      have hbef : Takes b pasting _ _ _ := Takes.trans (fun fates => hemits fates)
        (left_takes (by rw [← hopen]) ((b.buffer ++ str).take startIndex))
      refine ⟨¬ Whole ((b.buffer ++ str).take startIndex), ?_, ?_⟩
      · have hdeals := hclosed.after hbef
        rwa [append_nil, htext, hpasteBuffer, ← hsplit, false_or, or_false] at hdeals
      · rw [cutByPaste_false hstart, ← hcut, hpasteBuffer]

/-! ## Runs -/

theorem processLoop_deals {fuel : Nat} {str : JsString} (hstr : str ≠ [])
    (hfuel : (b.retained ++ str).length < fuel) :
    Deals b (processLoop fuel b str).1 (processLoop fuel b str).2 (b.remainder ++ str) []
      (CutByPaste b.pasteMode (b.retained ++ str)) := by
  induction fuel generalizing b str with
  | zero => omega
  | succ fuel ih =>
    obtain ⟨cut, hdeals, hcut⟩ := pass_deals hwf hstr
    obtain ⟨text, htakes, htext⟩ := hdeals.takes
    rw [processLoop]
    by_cases hrest : (b.pass str).2.2 = []
    · rw [hrest, or_iff_left not_cutByPaste_nil] at hcut
      rw [if_pos hrest, hcut]
      rw [hrest] at htext
      exact ⟨⟨text, htakes, htext⟩, hdeals.wellFormed, fun h => absurd rfl h⟩
    · obtain ⟨hmode, hret⟩ := hdeals.again hrest
      have hshort := (pass_shorter b str).resolve_left hrest
      have h := ih hdeals.wellFormed hrest (by rw [hret, nil_append]; omega)
      rw [remainder, hmode, hret, if_neg Bool.false_ne_true, nil_append] at h
      rw [remainder, hmode, hret, if_neg Bool.false_ne_true, append_nil] at htext
      rw [if_neg hrest, hcut]
      have hafter := h.after htakes
      rwa [htext] at hafter

theorem process_deals {data : JsString} (hdata : data ≠ []) :
    Deals b (b.process data).1 (b.process data).2 (b.remainder ++ data) []
      (CutByPaste b.pasteMode (b.retained ++ data)) :=
  processLoop_deals hwf hdata (Nat.lt_succ_self _)

/-- A timeout hands the buffer on. -/
theorem fireTimeout_deals :
    Deals b b.fireTimeout.1 b.fireTimeout.2 b.remainder [] False := by
  rw [fireTimeout]
  split
  · rw [flush]
    by_cases hbuf : b.buffer = []
    · refine ⟨⟨[], ?_, ?_⟩, ?_, fun h => absurd rfl h⟩
      · simp only [hbuf, if_true]
        exact Takes.of_pending fun n hn => hn
      · simp [hbuf, emitSequences, remainder, retained]
      · simpa [hbuf, emitSequences, WellFormed] using hwf
    · have hmode : b.pasteMode = false := by
        by_contra hmode
        rw [Bool.not_eq_false] at hmode
        exact hbuf (by simpa [WellFormed, hmode] using hwf)
      have hpasted : b.pasteBuffer = [] := by simpa [WellFormed, hmode] using hwf
      have hemits := emitSequences_takes
        { b with timeout := false, buffer := [], pendingKittyPrintableCodepoint := none } [b.buffer]
      obtain ⟨pending, hframe⟩ := emitSequences_frame
        { b with timeout := false, buffer := [], pendingKittyPrintableCodepoint := none } [b.buffer]
      have htakes := Takes.trans (b := b) (Takes.of_pending fun n hn => (by cases hn)) hemits
      rw [nil_append, nil_append, or_self] at htakes
      simp only [hbuf, if_false]
      refine ⟨⟨_, fun fates => htakes fates, ?_⟩, ?_, fun h => absurd rfl h⟩
      · rw [hframe]
        simp [remainder, retained, hmode, hpasted]
      · rw [hframe]
        simp [WellFormed, hmode, hpasted]
  · exact ⟨⟨[], Takes.of_pending fun n hn => hn, by simp⟩, hwf, fun h => absurd rfl h⟩

/-- A run disposes of what is retained and of its chunks, and drops something exactly when it is
cut by a paste. -/
theorem run_deals {ops : List Op} (hops : ∀ data, .chunk data ∈ ops → data ≠ []) :
    Deals b (b.run ops).1 (b.run ops).2 (b.remainder ++ inputOf ops) [] (¬ Uncut b ops) := by
  induction ops generalizing b with
  | nil =>
    refine ⟨⟨[], ?_, by simp [run, inputOf]⟩, hwf, fun h => absurd rfl h⟩
    rw [Uncut, not_true]
    exact Takes.of_pending fun n hn => hn
  | cons op ops ih =>
    have hrest := fun data hmem => hops data (mem_cons_of_mem op hmem)
    cases op with
    | chunk data =>
      have hstep := process_deals hwf (hops data mem_cons_self)
      obtain ⟨text, htakes, htext⟩ := hstep.takes
      have h := (ih hstep.wellFormed hrest).after htakes
      rw [append_nil] at htext
      rw [← append_assoc, htext, append_assoc] at h
      rw [Uncut, not_and_or, not_not]
      exact h
    | timeout =>
      have hstep := fireTimeout_deals hwf
      obtain ⟨text, htakes, htext⟩ := hstep.takes
      have h := (ih hstep.wellFormed hrest).after htakes
      rw [append_nil] at htext
      rw [← append_assoc, htext, false_or] at h
      exact h

/-! ## Input is restored unless a paste cuts it -/

omit hwf

/-- The escapes of the events. -/
def escapesOf (events : List Event) : Nat := (events.flatMap Event.text).count ESC

theorem OnlyReported.ne_escape {fates : List Fate} (h : OnlyReported fates) {u : UInt16} (hu : .suppressed u ∈ fates) :
    u ≠ ESC := by
  obtain ⟨front, back, rfl⟩ := append_of_mem hu
  obtain ⟨before, sequence, -, hparse⟩ := h front u back rfl
  rintro rfl
  have hsmall : ¬ 32 ≤ ESC.toNat := by decide
  grind [parseUnmodifiedKittyPrintableCodepoint]

/-- Suppressed characters are no escapes, so that escapes are missing where text is dropped. -/
theorem count_textOf {fates : List Fate} (h : ∀ u, .suppressed u ∈ fates → u ≠ ESC)
    (hlost : ∀ lost, .dropped lost ∈ fates → ESC ∈ lost) :
    escapesOf (eventsOf fates) ≤ (textOf fates).count ESC ∧
      (escapesOf (eventsOf fates) = (textOf fates).count ESC ↔ ¬ Drops fates) := by
  induction fates with
  | nil => simp [escapesOf, eventsOf, textOf, Drops]
  | cons fate fates ih =>
    obtain ⟨hle, heq⟩ := ih (fun u hu => h u (mem_cons_of_mem _ hu))
      (fun lost hmem => hlost lost (mem_cons_of_mem _ hmem))
    have htext : (textOf (fate :: fates)).count ESC = fate.text.count ESC + (textOf fates).count ESC := by
      rw [textOf, flatMap_cons, count_append, textOf]
    cases fate with
    | emitted event =>
      have hevents : escapesOf (eventsOf (.emitted event :: fates)) =
          event.text.count ESC + escapesOf (eventsOf fates) := by
        simp [escapesOf, eventsOf, Fate.event?]
      have hdrops : Drops (.emitted event :: fates) ↔ Drops fates := by simp [Drops]
      rw [htext, hevents, hdrops, ← heq, Fate.text]
      omega
    | suppressed u =>
      have hevents : eventsOf (.suppressed u :: fates) = eventsOf fates := rfl
      have hdrops : Drops (.suppressed u :: fates) ↔ Drops fates := by simp [Drops]
      have hcount : (Fate.suppressed u).text.count ESC = 0 :=
        count_eq_zero.mpr fun hmem => h u mem_cons_self (mem_singleton.mp hmem).symm
      rw [htext, hevents, hdrops, ← heq, hcount]
      omega
    | dropped lost =>
      have hevents : eventsOf (.dropped lost :: fates) = eventsOf fates := rfl
      have hdrops : Drops (.dropped lost :: fates) := ⟨lost, mem_cons_self⟩
      have hcount : 0 < (Fate.dropped lost).text.count ESC := count_pos_iff.mpr (hlost lost mem_cons_self)
      rw [htext, hevents]
      refine ⟨by omega, iff_of_false (by omega) (not_not.mpr hdrops)⟩

/-- The input of a run is handed on as a whole exactly when no paste start marker cuts an escape
sequence off. -/
theorem restored_iff (ops : List Op) (hops : ∀ data, .chunk data ∈ ops → data ≠ []) :
    Restored ops ↔ Uncut {} ops := by
  have hdeals := run_deals (b := {}) (by simp [WellFormed]) hops
  obtain ⟨text, htakes, htext⟩ := hdeals.takes
  obtain ⟨fates, honly, -, hevents, rfl, hdrops, hlost⟩ := htakes [] OnlyReported.nil (fun n hn => (by cases hn))
  rw [List.nil_append] at honly
  have hinput : textOf fates ++ (run {} ops).1.remainder = inputOf ops := by
    simpa [remainder, retained] using htext
  constructor
  · rintro ⟨others, hnone, honly', hevents', hinput'⟩
    by_contra hcut
    have hwith := count_textOf (fun u hu => honly.ne_escape hu) hlost
    have hwithout := count_textOf (fun u hu => honly'.ne_escape hu)
      (fun lost hmem => absurd ⟨lost, hmem⟩ hnone)
    have hsame := congrArg (List.count ESC) (hinput.trans hinput'.symm)
    rw [List.count_append, List.count_append] at hsame
    refine (hwith.2.mp ?_) (hdrops.mpr hcut)
    have := hwithout.2.mpr hnone
    rw [hevents] at hwith ⊢
    rw [hevents'] at this
    omega
  · intro huncut
    exact ⟨fates, fun hdrop => hdrops.mp hdrop huncut, honly, hevents, hinput⟩

/-- A text, a paste in two chunks and a timeout. -/
theorem restored_paste : Restored [.chunk [97, ESC], .timeout, .chunk (BRACKETED_PASTE_START ++ [98]),
    .chunk (99 :: BRACKETED_PASTE_END)] := by
  refine (restored_iff _ ?_).mpr ⟨?_, ?_, ?_, trivial⟩
  · intro data hmem
    simp only [List.mem_cons, Op.chunk.injEq, reduceCtorEq, List.not_mem_nil, or_false, false_or] at hmem
    obtain rfl | rfl | rfl := hmem <;> simp
  · exact not_cutByPaste_false (by decide)
  · intro hcut
    have hstart : indexOf? BRACKETED_PASTE_START (BRACKETED_PASTE_START ++ [98]) = some 0 := by decide
    obtain hwhole | hinside := (cutByPaste_false hstart).mp hcut
    · exact hwhole .nil
    · exact not_cutByPaste_true (by decide) hinside
  · intro hcut
    have hend : indexOf? BRACKETED_PASTE_END (98 :: 99 :: BRACKETED_PASTE_END) = some 2 := by decide
    exact not_cutByPaste_nil ((cutByPaste_true hend).mp hcut)

/-- The beginning of a sequence directly before a paste is lost. -/
theorem not_restored_cut :
    ¬ Restored [.chunk ([ESC, 91] ++ BRACKETED_PASTE_START ++ [97] ++ BRACKETED_PASTE_END)] := by
  have hrun : run {} [.chunk ([ESC, 91] ++ BRACKETED_PASTE_START ++ [97] ++ BRACKETED_PASTE_END)] =
      ({}, [.paste [97]]) := by decide
  rintro ⟨fates, hnone, honly, hevents, htext⟩
  have hcount := (count_textOf (fun u hu => honly.ne_escape hu)
    (fun lost hmem => absurd ⟨lost, hmem⟩ hnone)).2.mpr hnone
  rw [hrun] at hevents htext
  have hlength := congrArg (List.count ESC) htext
  rw [List.count_append, ← hcount, hevents] at hlength
  revert hlength
  decide

end Shuvpi.StdinBuffer
