import Mathlib.Data.List.Sort
import Shuvpi.AssistantFrames
import Shuvpi.Occurrence

/-!
# Edits of a text

`harness/tools/edit-diff.ts`: texts to find in the content of a file, once each, and what to put
in their places. A text that is not there as it is may be there once both are normalised.
`nfkc` is `String.prototype.normalize("NFKC")`.
-/
namespace Shuvpi.EditDiff

open Occurrence (indexOf?)
open Frames (isBlank)

def normalizeToLF : JsString → JsString
  | [] => []
  | [u] => if u = 13 then [10] else [u]
  | u :: v :: rest =>
    if u = 13 then if v = 10 then 10 :: normalizeToLF rest else 10 :: normalizeToLF (v :: rest)
    else u :: normalizeToLF (v :: rest)

def trimEnd (line : JsString) : JsString := line.rdropWhile isBlank

def replaceUnits (units : List Nat) (unit : UInt16) (text : JsString) : JsString :=
  text.map fun u => if u.toNat ∈ units then unit else u

def normalizeForFuzzyMatch (nfkc : JsString → JsString) (text : JsString) : JsString :=
  let text := [10].intercalate (((nfkc text).splitOn 10).map trimEnd)
  let text := replaceUnits [0x2018, 0x2019, 0x201a, 0x201b] 39 text
  let text := replaceUnits [0x201c, 0x201d, 0x201e, 0x201f] 34 text
  let text := replaceUnits [0x2010, 0x2011, 0x2012, 0x2013, 0x2014, 0x2015, 0x2212] 45 text
  replaceUnits [0xa0, 0x2002, 0x2003, 0x2004, 0x2005, 0x2006, 0x2007, 0x2008, 0x2009, 0x200a, 0x202f, 0x205f, 0x3000] 32 text

/-- `/[^\n]*\n|[^\n]+/g` -/
def splitLinesWithEndings : JsString → List JsString
  | [] => []
  | u :: rest =>
    if u = 10 then [10] :: splitLinesWithEndings rest
    else match splitLinesWithEndings rest with
      | [] => [[u]]
      | line :: lines => (u :: line) :: lines

structure LineSpan where
  start : Nat
  stop : Nat
  deriving DecidableEq, Repr

structure TextReplacement where
  matchIndex : Nat
  matchLength : Nat
  newText : JsString
  deriving DecidableEq, Repr

structure MatchedEdit extends TextReplacement where
  editIndex : Nat
  deriving DecidableEq, Repr

def lineSpansFrom : Nat → List JsString → List LineSpan
  | _, [] => []
  | offset, line :: lines => ⟨offset, offset + line.length⟩ :: lineSpansFrom (offset + line.length) lines

def getLineSpans (content : JsString) : List LineSpan := lineSpansFrom 0 (splitLinesWithEndings content)

def outsideError : String := "Replacement range is outside the base content."

/-- The loop that moves the end of the range on. -/
def endLineFrom (stop : Nat) : Nat → List LineSpan → Option Nat
  | _, [] => none
  | i, line :: lines => if line.stop < stop then endLineFrom stop (i + 1) lines else some i

/-- The first line of a replacement and the line after its last one. -/
def getReplacementLineRange (lines : List LineSpan) (replacement : TextReplacement) : Except String (Nat × Nat) :=
  match lines.findIdx? fun line => line.start ≤ replacement.matchIndex && replacement.matchIndex < line.stop with
  | none => .error outsideError
  | some startLine =>
    match endLineFrom (replacement.matchIndex + replacement.matchLength) startLine (lines.drop startLine) with
    | none => .error outsideError
    | some endLine => .ok (startLine, endLine + 1)

/-- The loop over the replacements, the last one first. -/
def applyReplacements (content : JsString) (replacements : List TextReplacement) (offset : Nat) : JsString :=
  replacements.foldr (fun replacement result =>
    result.take (replacement.matchIndex - offset) ++ replacement.newText ++
      result.drop (replacement.matchIndex - offset + replacement.matchLength)) content

structure Group where
  startLine : Nat
  endLine : Nat
  replacements : List TextReplacement
  deriving DecidableEq, Repr

/-- The loop that makes the groups; `current` is the last of those so far. -/
def groupsFrom (lines : List LineSpan) : Option Group → List TextReplacement → Except String (List Group)
  | current, [] => .ok current.toList
  | current, replacement :: replacements => do
    let range ← getReplacementLineRange lines replacement
    match current with
    | none => groupsFrom lines (some ⟨range.1, range.2, [replacement]⟩) replacements
    | some group =>
      if range.1 < group.endLine then
        groupsFrom lines (some ⟨group.startLine, max group.endLine range.2, group.replacements ++ [replacement]⟩) replacements
      else
        let groups ← groupsFrom lines (some ⟨range.1, range.2, [replacement]⟩) replacements
        .ok (group :: groups)

/-- The loop over the groups, from a line of the original on. -/
def resultFrom (originalLines : List JsString) (baseContent : JsString) (baseLines : List LineSpan) :
    Nat → List Group → JsString
  | line, [] => (originalLines.drop line).flatten
  | line, group :: groups =>
    let groupStartOffset := (baseLines.getD group.startLine ⟨0, 0⟩).start
    let groupEndOffset := (baseLines.getD (group.endLine - 1) ⟨0, 0⟩).stop
    ((originalLines.take group.startLine).drop line).flatten ++
      applyReplacements ((baseContent.take groupEndOffset).drop groupStartOffset) group.replacements groupStartOffset ++
      resultFrom originalLines baseContent baseLines group.endLine groups

def byMatchIndex (a b : TextReplacement) : Prop := a.matchIndex ≤ b.matchIndex

instance : DecidableRel byMatchIndex := fun a b => inferInstanceAs (Decidable (a.matchIndex ≤ b.matchIndex))

def applyReplacementsPreservingUnchangedLines (originalContent baseContent : JsString)
    (replacements : List TextReplacement) : Except String JsString := do
  let originalLines := splitLinesWithEndings originalContent
  let baseLines := getLineSpans baseContent
  if originalLines.length ≠ baseLines.length then
    .error "Cannot preserve unchanged lines because the base content has a different line count."
  else
    let groups ← groupsFrom baseLines none (replacements.insertionSort byMatchIndex)
    .ok (resultFrom originalLines baseContent baseLines 0 groups)

structure FuzzyMatchResult where
  index : Nat
  matchLength : Nat
  usedFuzzyMatch : Bool
  contentForReplacement : JsString
  deriving DecidableEq, Repr

structure Edit where
  oldText : JsString
  newText : JsString
  deriving DecidableEq, Repr

structure AppliedEditsResult where
  baseContent : JsString
  newContent : JsString
  deriving DecidableEq, Repr

section Edits
variable (nfkc : JsString → JsString)

/-- Nothing where `found` is false. -/
def fuzzyFindText (content oldText : JsString) : Option FuzzyMatchResult :=
  match indexOf? oldText content with
  | some exactIndex => some ⟨exactIndex, oldText.length, false, content⟩
  | none =>
    let fuzzyContent := normalizeForFuzzyMatch nfkc content
    let fuzzyOldText := normalizeForFuzzyMatch nfkc oldText
    (indexOf? fuzzyOldText fuzzyContent).map fun fuzzyIndex => ⟨fuzzyIndex, fuzzyOldText.length, true, fuzzyContent⟩

/-- The parts between the occurrences of a text that is not empty, of which there are at most so many. -/
def partsFrom (separator : JsString) : Nat → JsString → List JsString
  | 0, content => [content]
  | n + 1, content =>
    match indexOf? separator content with
    | none => [content]
    | some i => content.take i :: partsFrom separator n (content.drop (i + separator.length))

/-- `content.split(separator)` -/
def split (content separator : JsString) : List JsString :=
  if separator = [] then content.map fun u => [u] else partsFrom separator content.length content

def countOccurrences (content oldText : JsString) : Int :=
  (split (normalizeForFuzzyMatch nfkc content) (normalizeForFuzzyMatch nfkc oldText)).length - 1

def getNotFoundError (path : String) (editIndex totalEdits : Nat) : String :=
  if totalEdits = 1 then
    "Could not find the exact text in " ++ path ++
      ". The old text must match exactly including all whitespace and newlines."
  else
    "Could not find edits[" ++ toString editIndex ++ "] in " ++ path ++
      ". The oldText must match exactly including all whitespace and newlines."

def getDuplicateError (path : String) (editIndex totalEdits : Nat) (occurrences : Int) : String :=
  if totalEdits = 1 then
    "Found " ++ toString occurrences ++ " occurrences of the text in " ++ path ++
      ". The text must be unique. Please provide more context to make it unique."
  else
    "Found " ++ toString occurrences ++ " occurrences of edits[" ++ toString editIndex ++ "] in " ++ path ++
      ". Each oldText must be unique. Please provide more context to make it unique."

def getEmptyOldTextError (path : String) (editIndex totalEdits : Nat) : String :=
  if totalEdits = 1 then "oldText must not be empty in " ++ path ++ "."
  else "edits[" ++ toString editIndex ++ "].oldText must not be empty in " ++ path ++ "."

def getNoChangeError (path : String) (totalEdits : Nat) : String :=
  if totalEdits = 1 then
    "No changes made to " ++ path ++ ". The replacement produced identical content. This might indicate an issue " ++
      "with special characters or the text not existing as expected."
  else "No changes made to " ++ path ++ ". The replacements produced identical content."

def overlapError (path : String) (previous current : MatchedEdit) : String :=
  "edits[" ++ toString previous.editIndex ++ "] and edits[" ++ toString current.editIndex ++ "] overlap in " ++ path ++
    ". Merge them into one edit or target disjoint regions."

def normalizeEdit (edit : Edit) : Edit := ⟨normalizeToLF edit.oldText, normalizeToLF edit.newText⟩

/-- The loop over the edits, from the `i`-th on, with those matched so far. -/
def matchEdits (content : JsString) (path : String) (totalEdits : Nat) : Nat → List Edit → Except String (List MatchedEdit)
  | _, [] => .ok []
  | i, edit :: edits =>
    match fuzzyFindText nfkc content edit.oldText with
    | none => .error (getNotFoundError path i totalEdits)
    | some found =>
      let occurrences := countOccurrences nfkc content edit.oldText
      if occurrences > 1 then .error (getDuplicateError path i totalEdits occurrences)
      else do
        let matched ← matchEdits content path totalEdits (i + 1) edits
        .ok (⟨⟨found.index, found.matchLength, edit.newText⟩, i⟩ :: matched)

/-- The loop over the neighbours. -/
def checkOverlaps (path : String) : List MatchedEdit → Except String Unit
  | previous :: current :: rest =>
    if previous.matchIndex + previous.matchLength > current.matchIndex then .error (overlapError path previous current)
    else checkOverlaps path (current :: rest)
  | _ => .ok ()

def applyEditsToNormalizedContent (normalizedContent : JsString) (edits : List Edit) (path : String) :
    Except String AppliedEditsResult :=
  let normalizedEdits := edits.map normalizeEdit
  match normalizedEdits.findIdx? fun edit => edit.oldText.length = 0 with
  | some i => .error (getEmptyOldTextError path i normalizedEdits.length)
  | none =>
    let initialMatches := normalizedEdits.map fun edit => fuzzyFindText nfkc normalizedContent edit.oldText
    let usedFuzzyMatch := initialMatches.any fun found => found.any (·.usedFuzzyMatch)
    let replacementBaseContent :=
      if usedFuzzyMatch then normalizeForFuzzyMatch nfkc normalizedContent else normalizedContent
    do
      let matchedEdits ← matchEdits nfkc replacementBaseContent path normalizedEdits.length 0 normalizedEdits
      let sorted := matchedEdits.insertionSort fun a b => byMatchIndex a.toTextReplacement b.toTextReplacement
      checkOverlaps path sorted
      let newContent ←
        if usedFuzzyMatch then
          applyReplacementsPreservingUnchangedLines normalizedContent replacementBaseContent (sorted.map (·.toTextReplacement))
        else .ok (applyReplacements replacementBaseContent (sorted.map (·.toTextReplacement)) 0)
      if normalizedContent = newContent then .error (getNoChangeError path normalizedEdits.length)
      else .ok ⟨normalizedContent, newContent⟩

end Edits

end Shuvpi.EditDiff
