import Shuvpi.Truncate

/-!
# Exact and maximal truncation

What `truncateHead` and `truncateTail` show is the longest run of whole lines, or the end of the
last line; only the reason that they give is wrong where all lines are shown.
-/
namespace Shuvpi.Truncate

open JsText TextFile TextDecoder TextLines
open LongestSuffix (longestSuffix)
open List

/-- The longest of some runs of lines, within the limits. -/
structure LongestRun (IsRun : List JsString → Prop) (maxLines maxBytes : Nat) (run : List JsString) : Prop where
  is : IsRun run
  lines : run.length ≤ maxLines
  bytes : (textEncode (join run)).length ≤ maxBytes
  longest : ∀ other, IsRun other → other.length ≤ maxLines → (textEncode (join other)).length ≤ maxBytes →
    other.length ≤ run.length

/-- The longest last part of whole characters, within a number of bytes. -/
structure LongestEnd (maxBytes : Nat) (line part : JsString) : Prop where
  whole : IsText part ∧ ∃ front, IsText front ∧ line = front ++ part
  bytes : (textEncode part).length ≤ maxBytes
  longest : ∀ front other, IsText front → IsText other → line = front ++ other →
    (textEncode other).length ≤ maxBytes → other.length ≤ part.length

/-- What both ways to truncate have in common. -/
structure Exact (content : JsString) (maxLines maxBytes : Nat) (r : TruncationResult) : Prop where
  totalLines : r.totalLines = (splitLinesForCounting content).length
  totalBytes : r.totalBytes = (textEncode content).length
  outputBytes : r.outputBytes = (textEncode r.content).length
  truncated : r.truncated = false ↔ r.totalLines ≤ maxLines ∧ r.totalBytes ≤ maxBytes
  whole : r.truncated = false → r.content = content ∧ r.outputLines = r.totalLines ∧ r.lastLinePartial = false
  truncatedBy : r.truncatedBy = some .lines → maxLines < r.totalLines

/-- The longest run of leading lines is shown. -/
structure HeadExact (content : JsString) (maxLines maxBytes : Nat) (r : TruncationResult) : Prop
    extends Exact content maxLines maxBytes r where
  cut : r.truncated = true → r.lastLinePartial = false ∧
    ∃ run, LongestRun (· <+: splitLinesForCounting content) maxLines maxBytes run ∧
      r.content = join run ∧ r.outputLines = run.length

/-- The longest run of trailing lines is shown, or the end of the last one. -/
structure TailExact (content : JsString) (maxLines maxBytes : Nat) (r : TruncationResult) : Prop
    extends Exact content maxLines maxBytes r where
  cut : r.truncated = true → r.lastLinePartial = false →
    ∃ run, LongestRun (· <:+ splitLinesForCounting content) maxLines maxBytes run ∧
      r.content = join run ∧ r.outputLines = run.length
  partLine : r.truncated = true → (r.lastLinePartial = true ↔
    ∀ line ∈ (splitLinesForCounting content).getLast?, maxBytes < (textEncode line).length)
  cutLine : r.lastLinePartial = true → r.outputLines = 1 ∧
    ∀ line ∈ (splitLinesForCounting content).getLast?, LongestEnd maxBytes line r.content

section
variable {content : JsString} {maxLines maxBytes : Nat}

/-- Lines that fit but for the newline at the end. -/
def NewlineExceeds (content : JsString) (maxLines maxBytes : Nat) : Prop :=
  (splitLinesForCounting content).length ≤ maxLines ∧ content.getLast? = some 10 ∧
    utf8ByteLength content = maxBytes + 1

/-- All lines are shown, and yet the text is too long. -/
theorem newlineExceeds_iff (h : ¬Fits maxLines maxBytes content) :
    NewlineExceeds content maxLines maxBytes ↔ fitsLines maxLines maxBytes (lines 10 content) = true := by
  have hbody := utf8ByteLength_body content
  rw [Fits] at h
  rw [NewlineExceeds, splitLinesForCounting_eq, fitsLines_iff]
  split at hbody
  · rename_i hlast
    simp only [hlast, true_and]
    omega
  · rename_i hlast
    simp only [hlast, false_and, and_false, false_iff]
    omega

theorem longestRun_prefix {ls run after : List JsString} (hls : ls = run ++ after)
    (hfits : fitsLines maxLines maxBytes run = true)
    (hafter : ∀ line ∈ after.head?, fitsLines maxLines maxBytes (run ++ [line]) = false) :
    LongestRun (· <+: ls) maxLines maxBytes run := by
  have hruns := fitsLines_iff.mp hfits
  refine ⟨⟨after, hls.symm⟩, hruns.1, by rw [← utf8ByteLength_eq, utf8ByteLength_join]; exact hruns.2, ?_⟩
  intro other hother hlines hbytes
  rw [← utf8ByteLength_eq, utf8ByteLength_join] at hbytes
  exact (prefix_run hls hafter hother (fitsLines_iff.mpr ⟨hlines, hbytes⟩)).length_le

theorem longestRun_suffix (maxLines maxBytes : Nat) (ls : List JsString) :
    LongestRun (· <:+ ls) maxLines maxBytes (tailRun maxLines maxBytes ls) := by
  have hhered := fitsLines_hereditary maxLines maxBytes
  have hruns := fitsLines_iff.mp (LongestSuffix.longestSuffix_fits hhered ls)
  refine ⟨LongestSuffix.longestSuffix_suffix _ ls, hruns.1,
    by rw [← utf8ByteLength_eq, utf8ByteLength_join]; exact hruns.2, fun other hother hlines hbytes => ?_⟩
  rw [← utf8ByteLength_eq, utf8ByteLength_join] at hbytes
  exact (LongestSuffix.suffix_longestSuffix hother (fitsLines_iff.mpr ⟨hlines, hbytes⟩)).length_le

/-- `truncateHead` is exact and maximal, but for the reason it gives where only the last newline is
too much. -/
theorem truncateHead_exact (hlines : 1 ≤ maxLines) :
    HeadExact content maxLines maxBytes (truncateHead content maxLines maxBytes) ↔
      ¬NewlineExceeds content maxLines maxBytes := by
  by_cases hfits : Fits maxLines maxBytes content
  · have hnot : ¬NewlineExceeds content maxLines maxBytes := fun h => by
      have := hfits.2
      have := h.2.2
      omega
    rw [truncateHead_fits hfits]
    simp only [hnot, not_false_iff, iff_true]
    refine ⟨⟨by rw [splitLinesForCounting_eq], utf8ByteLength_eq _, utf8ByteLength_eq _, ?_, fun _ => ⟨rfl, rfl, rfl⟩,
      fun h => by cases h⟩, fun h => by cases h⟩
    exact ⟨fun _ => hfits, fun _ => rfl⟩
  · obtain ⟨run, after, hls, hrun, hafter, heq⟩ := truncateHead_cut hlines hfits
    rw [newlineExceeds_iff hfits, heq]
    have hlast : fitsLines maxLines maxBytes (lines 10 content) = true ↔ after = [] := by
      constructor
      · intro hall
        cases after with
        | nil => rfl
        | cons line after =>
          have hpart : run ++ [line] <:+: lines 10 content := ⟨[], after, by simp [hls]⟩
          have hone := (fitsLines_hereditary maxLines maxBytes).part _ _ hpart hall
          rw [hafter line rfl] at hone
          cases hone
      · rintro rfl
        rw [hls, append_nil]
        exact hrun
    have hlen := congrArg length hls
    rw [length_append] at hlen
    have hmost := (fitsLines_iff.mp hrun).1
    constructor
    · intro h hall
      have hby := h.truncatedBy (by dsimp only; rw [if_pos (.inr (hlast.mp hall))])
      have := (fitsLines_iff.mp hall).1
      dsimp only at hby
      omega
    · intro hnot
      rw [hlast] at hnot
      refine ⟨⟨by rw [splitLinesForCounting_eq], utf8ByteLength_eq _, ?_, ?_, fun h => (by cases h), fun hby => ?_⟩,
        fun _ => ⟨rfl, run, ?_, rfl, rfl⟩⟩
      · rw [← utf8ByteLength_eq, utf8ByteLength_join]
      · exact ⟨fun h => (by cases h), fun h => absurd h hfits⟩
      · dsimp only at hby ⊢
        have hpos := length_pos_of_ne_nil hnot
        split at hby
        · rename_i hwhy
          rcases hwhy with h | h
          · omega
          · exact absurd h hnot
        · cases hby
      · rw [splitLinesForCounting_eq]
        exact longestRun_prefix hls hrun hafter

theorem longestEnd (maxBytes : Nat) {line : JsString} (hline : IsText line) :
    LongestEnd maxBytes line (truncateStringToBytesFromEnd line maxBytes) := by
  obtain ⟨cs, rfl⟩ := hline
  obtain ⟨front, hfront⟩ := LongestSuffix.longestSuffix_suffix (fun ds => decide (charBytes ds ≤ maxBytes)) cs
  rw [truncateStringToBytesFromEnd_eq]
  refine ⟨⟨⟨_, rfl⟩, ofScalars front, ⟨_, rfl⟩, ?_⟩, ?_, ?_⟩
  · rw [← ofScalars_append]
    exact congrArg ofScalars hfront.symm
  · rw [← utf8ByteLength_eq, utf8ByteLength_ofScalars]
    exact lastChars_bytes maxBytes cs
  · rintro _ _ ⟨fs, rfl⟩ ⟨ds, rfl⟩ hsplit hbytes
    rw [← ofScalars_append] at hsplit
    have hcs := congrArg toScalars hsplit
    rw [toScalars_ofScalars, toScalars_ofScalars] at hcs
    rw [← utf8ByteLength_eq, utf8ByteLength_ofScalars] at hbytes
    obtain ⟨more, hmore⟩ := @LongestSuffix.suffix_longestSuffix _ (fun ds => decide (charBytes ds ≤ maxBytes)) _ _
      ⟨fs, hcs.symm⟩ (by simpa using hbytes)
    rw [lastChars, ← hmore, ofScalars_append, length_append]
    omega

/-- One line that is too long, where one line may be shown. -/
def LineExceeds (content : JsString) (maxLines maxBytes : Nat) : Prop :=
  maxLines = 1 ∧ (splitLinesForCounting content).length = 1 ∧
    ∀ line ∈ (splitLinesForCounting content).getLast?, maxBytes < utf8ByteLength line

/-- `truncateTail` is exact and maximal, but for the reason it gives where only the last newline is
too much, or where part of the only line is shown as the only line there may be. -/
theorem truncateTail_exact (hcont : IsText content) (hlines : 1 ≤ maxLines) :
    TailExact content maxLines maxBytes (truncateTail content maxLines maxBytes) ↔
      ¬NewlineExceeds content maxLines maxBytes ∧ ¬LineExceeds content maxLines maxBytes := by
  have hsplit := splitLinesForCounting_eq content
  by_cases hfits : Fits maxLines maxBytes content
  · have hbody := utf8ByteLength_body content
    have hnewline : ¬NewlineExceeds content maxLines maxBytes := fun h => by
      have := hfits.2
      have := h.2.2
      omega
    have hline : ¬LineExceeds content maxLines maxBytes := fun ⟨_, hone, hlong⟩ => by
      rw [hsplit] at hone hlong
      obtain ⟨line, hall⟩ := length_eq_one_iff.mp hone
      have := hlong line (by rw [hall]; rfl)
      have := hfits.2
      rw [hbody, hall, linesBytes_singleton] at this
      omega
    rw [truncateTail, truncateTailWith_fits hfits]
    simp only [hnewline, hline, not_false_iff, and_true, iff_true]
    refine ⟨⟨by rw [hsplit], utf8ByteLength_eq _, utf8ByteLength_eq _, ?_, fun _ => ⟨rfl, rfl, rfl⟩,
      fun h => (by cases h)⟩, fun h => (by cases h), fun h => (by cases h), fun h => (by cases h)⟩
    exact ⟨fun _ => hfits, fun _ => rfl⟩
  · have hne : lines 10 content ≠ [] := fun hnil => by
      rw [lines_eq_nil.mp hnil] at hfits
      exact hfits ⟨Nat.zero_le _, Nat.zero_le _⟩
    obtain ⟨front, last, hlast⟩ := eq_nil_or_concat (lines 10 content) |>.resolve_left hne
    rw [concat_eq_append] at hlast
    have hget : (lines 10 content).getLast? = some last := by rw [hlast, getLast?_concat]
    have hrun := longestRun_suffix maxLines maxBytes (lines 10 content)
    have hpart := tailRun_eq_nil maxBytes hlines (lines 10 content)
    rw [truncateTail, truncateTailWith_cut hlines hfits, tailCollected]
    by_cases hnil : tailRun maxLines maxBytes (lines 10 content) = []
    · have hlong := hpart.mp hnil
      have hend := longestEnd maxBytes (line_isText hcont (mem_of_getLast? hget))
      have hnewline : ¬NewlineExceeds content maxLines maxBytes := fun h => by
        have hall := LongestSuffix.longestSuffix_of_fits ((newlineExceeds_iff hfits).mp h)
        exact hne (hall.symm.trans hnil)
      have hlast : (lines 10 content).getLastD [] = last := by
        rw [getLastD_eq_getLast?, hget]
        rfl
      have hbytes := hend.bytes
      rw [← utf8ByteLength_eq] at hbytes
      rw [if_pos ⟨hnil, hne⟩, hlast]
      simp only [hnewline, not_false_iff, true_and]
      constructor
      · rintro h ⟨hone, hlen, -⟩
        have hby := h.truncatedBy
        dsimp only at hby
        rw [if_pos ⟨by rw [hone]; exact le_rfl, hbytes⟩] at hby
        have := hby rfl
        rw [hsplit] at hlen
        omega
      · intro hline
        refine ⟨⟨by rw [hsplit], utf8ByteLength_eq _, ?_, ?_, fun h => (by cases h), fun hby => ?_⟩,
          fun _ h => (by cases h), fun _ => ?_, fun _ => ⟨rfl, fun line hmem => ?_⟩⟩
        · rw [← utf8ByteLength_eq, utf8ByteLength_join]
        · exact ⟨fun h => (by cases h), fun h => absurd h hfits⟩
        · dsimp only at hby ⊢
          split at hby
          · rename_i hwhy
            have hone : maxLines = 1 := Nat.le_antisymm hwhy.1 hlines
            by_contra hfew
            have hpos := length_pos_of_ne_nil hne
            refine hline ⟨hone, by rw [hsplit]; omega, ?_⟩
            rw [hsplit]
            exact hlong
          · cases hby
        · rw [hsplit]
          simp only [true_iff]
          simpa only [utf8ByteLength_eq] using hlong
        · rw [hsplit] at hmem
          obtain rfl : last = line := Option.some.inj (hget.symm.trans hmem)
          rw [join, intercalate_singleton]
          exact hend
    · have hshort : ¬LineExceeds content maxLines maxBytes := fun ⟨_, _, hlong⟩ => by
        rw [hsplit] at hlong
        exact hnil (hpart.mpr hlong)
      have hruns := fitsLines_iff.mp (LongestSuffix.longestSuffix_fits (fitsLines_hereditary maxLines maxBytes)
        (lines 10 content))
      have hall : fitsLines maxLines maxBytes (lines 10 content) = true ↔
          tailRun maxLines maxBytes (lines 10 content) = lines 10 content := by
        refine ⟨LongestSuffix.longestSuffix_of_fits, fun h => ?_⟩
        rw [← h]
        exact LongestSuffix.longestSuffix_fits (fitsLines_hereditary maxLines maxBytes) _
      rw [if_neg (fun h => hnil h.1)]
      simp only [hshort, not_false_iff, and_true]
      rw [newlineExceeds_iff hfits]
      constructor
      · intro h hwhole
        have hby := h.truncatedBy
        simp only [hall.mp hwhole, or_true, if_true, ite_self, forall_const] at hby
        have := (fitsLines_iff.mp hwhole).1
        omega
      · intro hnot
        have hsuffix := LongestSuffix.longestSuffix_suffix (fitsLines maxLines maxBytes) (lines 10 content)
        rw [hall] at hnot
        refine ⟨⟨by rw [hsplit], utf8ByteLength_eq _, ?_, ?_, fun h => (by cases h), fun hby => ?_⟩,
          fun _ _ => ⟨_, ?_, rfl, rfl⟩, fun _ => ?_, fun h => (by cases h)⟩
        · rw [← utf8ByteLength_eq, utf8ByteLength_join]
        · exact ⟨fun h => (by cases h), fun h => absurd h hfits⟩
        · dsimp only at hby ⊢
          have hmost : maxLines ≤ (tailRun maxLines maxBytes (lines 10 content)).length := by
            by_contra hless
            rw [if_neg (fun h => hless h.1), if_neg (by tauto)] at hby
            cases hby
          have hlen := hsuffix.length_le
          refine lt_of_le_of_ne (hmost.trans hlen) fun heq => hnot ?_
          exact hsuffix.eq_of_length (Nat.le_antisymm hlen (heq ▸ hmost))
        · rw [hsplit]
          exact hrun
        · rw [hsplit]
          simp only [Bool.false_eq_true, false_iff]
          simp only [← utf8ByteLength_eq]
          exact fun h => hnil (hpart.mpr h)

/-- Both are exact and maximal, unless they name the lines where only the last newline, or only the
length of the one line, is too much. -/
theorem truncate_exact (hcontent : IsText content) (hlines : 1 ≤ maxLines) :
    HeadExact content maxLines maxBytes (truncateHead content maxLines maxBytes) ∧
        TailExact content maxLines maxBytes (truncateTail content maxLines maxBytes) ↔
      ¬NewlineExceeds content maxLines maxBytes ∧ ¬LineExceeds content maxLines maxBytes := by
  rw [truncateHead_exact hlines, truncateTail_exact hcontent hlines]
  tauto

/-- Two lines, of which one may be shown. -/
theorem truncate_exact_lines : HeadExact [97, 10, 98] 1 2 (truncateHead [97, 10, 98] 1 2) ∧
    TailExact [97, 10, 98] 1 2 (truncateTail [97, 10, 98] 1 2) := by
  have hlength : (splitLinesForCounting [97, 10, 98]).length = 2 := by
    rw [splitLinesForCounting_eq]
    rfl
  refine (truncate_exact (.units (by decide)) le_rfl).mpr ⟨fun h => ?_, fun h => ?_⟩
  · have := h.1
    omega
  · have := h.2.1
    omega

/-- One line of two bytes and its newline, where five lines and two bytes may be shown. -/
theorem truncate_named_lines : (truncateHead [97, 98, 10] 5 2).truncatedBy = some .lines ∧
    (truncateTail [97, 98, 10] 5 2).truncatedBy = some .lines ∧
    ¬HeadExact [97, 98, 10] 5 2 (truncateHead [97, 98, 10] 5 2) ∧
    ¬TailExact [97, 98, 10] 5 2 (truncateTail [97, 98, 10] 5 2) := by
  have hhead : (truncateHead [97, 98, 10] 5 2).truncatedBy = some .lines ∧
      (truncateHead [97, 98, 10] 5 2).totalLines = 1 := by
    decide
  have htail : (truncateTail [97, 98, 10] 5 2).truncatedBy = some .lines ∧
      (truncateTail [97, 98, 10] 5 2).totalLines = 1 := by
    decide
  refine ⟨hhead.1, htail.1, fun h => ?_, fun h => ?_⟩
  · have := h.truncatedBy hhead.1
    omega
  · have := h.truncatedBy htail.1
    omega

end

end Shuvpi.Truncate
