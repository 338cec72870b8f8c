import Shuvpi.ShellOutput

/-!
# What a capture shows of the whole output

The window that a capture keeps, beside the whole output: where it shows the same as the
truncation of the whole, and where it does not.
-/
namespace Shuvpi.ShellOutput

open JsText TextFile TextDecoder TextLines Truncate AdaptivePublisher
open Option hiding join some
open List

theorem truncateString_cuts : CutsChars truncateStringToBytesFromEnd := truncateStringToBytesFromEnd_eq

theorem count_sanitize (text : JsString) : (sanitizeShellOutput text).count 10 = text.count 10 := by
  rw [sanitizeShellOutput, count_filter (by decide)]

section Tail
variable {maxLines maxBytes : Nat} {before kept : List Char} (hlines : 1 ≤ maxLines)
include hlines

/-- A window that does not show all its lines shows what the whole output shows. -/
theorem tail_shows
    (hwhole : before ≠ [] → ¬Fits maxLines maxBytes (ofScalars (before ++ kept)))
    (h : before = [] ∨ fitsLines maxLines maxBytes (lines 10 (ofScalars kept)) = false) :
    Shows (truncateTail (ofScalars kept) maxLines maxBytes) (truncateTail (ofScalars (before ++ kept)) maxLines maxBytes) := by
  rcases eq_or_ne before [] with rfl | hne
  · exact ⟨rfl, rfl, rfl, rfl⟩
  · have hlong := h.resolve_left hne
    have hkept : kept ≠ [] := by
      rintro rfl
      rw [show lines 10 (ofScalars []) = [] from rfl, (fitsLines_hereditary maxLines maxBytes).nil] at hlong
      cases hlong
    obtain ⟨ended, cut, first, rest, -, -, hall, hlast⟩ := lines_window lineFeed before hkept
    have hall' : lines 10 (ofScalars (before ++ kept)) = (lines lineFeed ended).map ofScalars ++
        ofScalars (cut ++ first) :: rest.map ofScalars := by
      rw [lines_ofScalars, hall, map_append, map_cons]
    have hlast' : lines 10 (ofScalars kept) = ofScalars first :: rest.map ofScalars := by
      rw [lines_ofScalars, hlast, map_cons]
    refine shows_window truncateString_cuts hlines hall' hlast' hlong (fun hfits => ?_) (hwhole hne)
    rw [fitsLines_of_fits hfits] at hlong
    cases hlong

/-- What `truncateTail` shows of a text whose lines it can show. -/
theorem tail_all {s : JsString} (h : fitsLines maxLines maxBytes (lines 10 s) = true) :
    (truncateTail s maxLines maxBytes).outputLines = (lines 10 s).length ∧
      (truncateTail s maxLines maxBytes).lastLinePartial = false ∧
      ((truncateTail s maxLines maxBytes).outputBytes = linesBytes (lines 10 s) ∨
        (truncateTail s maxLines maxBytes).content = s ∧ s.getLast? = some 10) := by
  by_cases hfits : Fits maxLines maxBytes s
  · rw [truncateTail, truncateTailWith_fits hfits]
    refine ⟨rfl, rfl, ?_⟩
    have hbody := utf8ByteLength_body s
    by_cases hend : s.getLast? = some 10
    · exact .inr ⟨rfl, hend⟩
    · rw [if_neg hend] at hbody
      exact .inl hbody
  · have hall := tailCollected_of_fits truncateStringToBytesFromEnd h
    rw [truncateTail, truncateTailWith_cut hlines hfits]
    dsimp only
    rw [hall.1, hall.2]
    exact ⟨rfl, rfl, .inl rfl⟩

/-- A window that shows all its lines does not show what the whole output shows. -/
theorem tail_differs (hbytes : 2 ≤ maxBytes) (hne : before ≠ [])
    (hwhole : ¬Fits maxLines maxBytes (ofScalars (before ++ kept)))
    (hline : before.getLast? = some lineFeed → 2 * maxBytes ≤ charBytes kept)
    (hall : fitsLines maxLines maxBytes (lines 10 (ofScalars kept)) = true)
    (htext : sanitizeShellOutput (truncateTail (ofScalars kept) maxLines maxBytes).content =
      sanitizeShellOutput (truncateTail (ofScalars (before ++ kept)) maxLines maxBytes).content)
    (h : (truncateTail (ofScalars kept) maxLines maxBytes).outputLines =
        (truncateTail (ofScalars (before ++ kept)) maxLines maxBytes).outputLines ∧
      (truncateTail (ofScalars kept) maxLines maxBytes).outputBytes =
        (truncateTail (ofScalars (before ++ kept)) maxLines maxBytes).outputBytes ∧
      (truncateTail (ofScalars kept) maxLines maxBytes).lastLinePartial =
        (truncateTail (ofScalars (before ++ kept)) maxLines maxBytes).lastLinePartial) : False := by
  obtain ⟨houtl, hpart, hshown⟩ := tail_all hlines hall
  have hnonempty : lines 10 (ofScalars (before ++ kept)) ≠ [] := fun hnil => by
    rw [lines_eq_nil.mp hnil] at hwhole
    exact hwhole ⟨Nat.zero_le _, Nat.zero_le _⟩
  rw [houtl, hpart, truncateTail, truncateTail, truncateTailWith_cut hlines hwhole] at h
  rw [truncateTail, truncateTail, truncateTailWith_cut hlines hwhole] at htext
  dsimp only at h htext
  -- the whole output shows whole lines, as many as the window has
  have hrun : tailRun maxLines maxBytes (lines 10 (ofScalars (before ++ kept))) ≠ [] := fun hnil => by
    have hlast := h.2.2
    rw [tailCollected, if_pos ⟨hnil, hnonempty⟩] at hlast
    cases hlast
  have hcollected : (tailCollected truncateStringToBytesFromEnd maxLines maxBytes
      (lines 10 (ofScalars (before ++ kept)))).outputLinesArr =
      tailRun maxLines maxBytes (lines 10 (ofScalars (before ++ kept))) := by
    rw [tailCollected, if_neg fun h => hrun h.1]
  rw [hcollected] at h htext
  have hkept : kept ≠ [] := by
    rintro rfl
    exact hrun (List.length_eq_zero_iff.mp h.1.symm)
  obtain ⟨ended, cut, first, rest, hsplit, hended, hlinesAll, hlinesKept⟩ := lines_window lineFeed before hkept
  have hlines' : lines 10 (ofScalars kept) = ofScalars first :: rest.map ofScalars := by
    rw [lines_ofScalars, hlinesKept, List.map_cons]
  have hwin : ofScalars (cut ++ first) :: rest.map ofScalars <:+ lines 10 (ofScalars (before ++ kept)) :=
    ⟨(lines lineFeed ended).map ofScalars, by rw [lines_ofScalars, hlinesAll, List.map_append, List.map_cons]⟩
  have hsuffix := LongestSuffix.longestSuffix_suffix (fitsLines maxLines maxBytes)
    (lines 10 (ofScalars (before ++ kept)))
  have hsame : tailRun maxLines maxBytes (lines 10 (ofScalars (before ++ kept))) =
      ofScalars (cut ++ first) :: rest.map ofScalars := by
    have hlen := h.1.symm
    rw [hlines', List.length_cons] at hlen
    exact (List.suffix_of_suffix_length_le hsuffix hwin hlen.le).eq_of_length hlen
  have hcut : 0 < charBytes cut := by
    rcases List.eq_nil_or_concat cut with rfl | ⟨cut, c, rfl⟩
    · rw [List.append_nil] at hsplit
      subst hsplit
      have hlong := hline (hended.resolve_left hne)
      have hbody := utf8ByteLength_body (ofScalars kept)
      have hshort := (fitsLines_iff.mp hall).2
      rw [utf8ByteLength_ofScalars] at hbody
      split at hbody <;> omega
    · have := c.utf8Size_pos
      rw [List.concat_eq_append, charBytes_append, charBytes_cons]
      omega
  rcases hshown with hbytesShown | ⟨hcont, hend⟩
  · have houtb := h.2.1
    rw [truncateTail] at hbytesShown
    rw [hbytesShown, hsame, hlines', linesBytes, linesBytes] at houtb
    simp only [List.map_cons, List.sum_cons, List.length_cons, utf8ByteLength_ofScalars, charBytes_append] at houtb
    omega
  · have hno : ∀ line ∈ tailRun maxLines maxBytes (lines 10 (ofScalars (before ++ kept))), (10 : UInt16) ∉ line :=
      fun line hmem => not_mem_line (hsuffix.subset hmem)
    have hcount := congrArg (List.count 10) htext
    rw [truncateTail] at hcont
    rw [hcont, count_sanitize, count_sanitize, join, count_intercalate hno, hsame, List.length_cons, Nat.add_sub_cancel] at hcount
    have hlen := @length_lines _ _ 10 (ofScalars kept)
    rw [if_pos (.inr hend), hlines', List.length_cons, hcount] at hlen
    omega

end Tail

section Head
variable {maxLines maxBytes : Nat}

theorem fits_cons {first : JsString} {ls : List JsString} (h : fitsLines maxLines maxBytes (first :: ls) = true) :
    utf8ByteLength first ≤ maxBytes := by
  have hone := (fitsLines_hereditary maxLines maxBytes).part _ _ (infix_append [] [first] ls) h
  rw [fitsLines_iff, linesBytes_singleton] at hone
  exact hone.2

/-- Lines that take less than a first part of the text lie in it, whatever comes after that. -/
theorem lines_within {p r : List Char} (r' : List Char) {run : List JsString} (hp : maxBytes < charBytes p)
    (hrun : run <+: lines 10 (ofScalars (p ++ r))) (hfits : fitsLines maxLines maxBytes run = true) :
    run <+: lines 10 (ofScalars (p ++ r')) := by
  obtain ⟨ended, cut, rfl, hended, hcut⟩ := ended_lines lineFeed p
  have hends : ofScalars ended = [] ∨ (ofScalars ended).getLast? = some 10 :=
    hended.imp (fun h => by rw [h]; rfl) (getLast?_ofScalars ended).mpr
  have hall : ∀ t, lines 10 (ofScalars (ended ++ cut ++ t)) =
      lines 10 (ofScalars ended) ++ lines 10 (ofScalars (cut ++ t)) := fun t => by
    rw [append_assoc, ofScalars_append, lines_ended hends]
  rw [hall] at hrun ⊢
  have hpart : lines 10 (ofScalars ended) <+: lines 10 (ofScalars ended) ++ lines 10 (ofScalars (cut ++ r)) :=
    prefix_append _ _
  rcases Nat.lt_or_ge (lines 10 (ofScalars ended)).length run.length with hlong | hshort
  · -- then the beginning of the next line is among them
    obtain ⟨more, rfl⟩ := prefix_of_prefix_length_le hpart hrun hlong.le
    rw [prefix_append_right_inj] at hrun
    obtain ⟨line, more, rfl⟩ : ∃ line more', more = line :: more' :=
      exists_cons_of_ne_nil fun hnil => by
        rw [hnil, append_nil] at hlong
        exact absurd hlong (Nat.lt_irrefl _)
    have hr : cut ++ r ≠ [] := by
      intro hnil
      rw [hnil] at hrun
      exact absurd (prefix_nil.mp hrun) (cons_ne_nil _ _)
    have hline : charBytes cut ≤ utf8ByteLength line := by
      rcases eq_or_ne r [] with rfl | hne
      · rw [append_nil] at hr hrun
        rw [lines_of_not_mem (ofScalars_ne_nil hr) (ofScalars_lineFeed hcut), cons_prefix_cons] at hrun
        rw [hrun.1, utf8ByteLength_ofScalars]
      · obtain ⟨first, rest, hlines⟩ := exists_cons_of_ne_nil (fun hnil => hne ((@lines_eq_nil _ _ lineFeed r).mp hnil))
        rw [lines_ofScalars, lines_prepend hcut hlines, map_cons, cons_prefix_cons] at hrun
        rw [hrun.1, utf8ByteLength_ofScalars, charBytes_append]
        exact Nat.le_add_right _ _
    have hone := (fitsLines_hereditary maxLines maxBytes).part (lines 10 (ofScalars ended) ++ [line]) _
      ⟨[], more, by simp⟩ hfits
    rw [fitsLines_iff] at hone
    have hbody := utf8ByteLength_body (ofScalars ended)
    rw [utf8ByteLength_ofScalars] at hbody
    rw [charBytes_append] at hp
    rcases eq_or_ne ended [] with rfl | hne
    · have hnil : lines 10 (ofScalars []) = [] := rfl
      rw [hnil, nil_append, linesBytes_singleton] at hone
      rw [charBytes_nil] at hp
      omega
    · rw [linesBytes_concat (fun hnil => ofScalars_ne_nil hne (lines_eq_nil.mp hnil))] at hone
      split at hbody <;> omega
  · exact (prefix_of_prefix_length_le hrun hpart hshort).trans (prefix_append _ _)

/-- A window that begins with the text shows what the whole text shows. -/
theorem head_shows {first rest later : List Char} (hlines : 1 ≤ maxLines) (hfirst : maxBytes < charBytes first) :
    Shows (truncateHead (ofScalars (first ++ later)) maxLines maxBytes)
      (truncateHead (ofScalars (first ++ rest)) maxLines maxBytes) := by
  have hlong : ∀ t, ¬Fits maxLines maxBytes (ofScalars (first ++ t)) := fun t h => by
    have hbytes := h.2
    rw [utf8ByteLength_ofScalars, charBytes_append] at hbytes
    omega
  obtain ⟨run, after, hrun, hfits, hafter, hshown⟩ := truncateHead_cut hlines (hlong later)
  obtain ⟨run', after', hrun', hfits', hafter', hshown'⟩ := truncateHead_cut hlines (hlong rest)
  have hle : run <+: run' := prefix_run hrun' hafter' (lines_within rest hfirst ⟨after, hrun.symm⟩ hfits) hfits
  have hge : run' <+: run := prefix_run hrun hafter (lines_within later hfirst ⟨after', hrun'.symm⟩ hfits') hfits'
  obtain rfl : run = run' := hle.eq_of_length (hle.length_le.antisymm hge.length_le)
  rw [hshown, hshown']
  exact ⟨rfl, rfl, rfl, rfl⟩

/-- Where the first line is too long nothing is shown. -/
theorem head_nothing {first s : JsString} {rest : List JsString} (hlines : 1 ≤ maxLines) (hs : lines 10 s = first :: rest)
    (hfirst : maxBytes < utf8ByteLength first) :
    (truncateHead s maxLines maxBytes).content = [] ∧ (truncateHead s maxLines maxBytes).outputLines = 0 ∧
      (truncateHead s maxLines maxBytes).outputBytes = 0 := by
  have hlong : ¬Fits maxLines maxBytes s := fun h => by
    have hall := fitsLines_of_fits h
    rw [hs] at hall
    exact absurd (fits_cons hall) (Nat.not_le.mpr hfirst)
  obtain ⟨run, after, hrun, hfits, -, hshown⟩ := truncateHead_cut hlines hlong
  obtain rfl : run = [] := by
    cases run with
    | nil => rfl
    | cons line run =>
      rw [hs, cons_append, cons_eq_cons] at hrun
      rw [hrun.1] at hfirst
      exact absurd (fits_cons hfits) (Nat.not_le.mpr hfirst)
  rw [hshown]
  exact ⟨rfl, rfl, rfl⟩

/-- Where the first line fits, at least this line is shown, and with the lines their bytes. -/
theorem head_something {first s : JsString} {rest : List JsString} (hlines : 1 ≤ maxLines) (hs : lines 10 s = first :: rest)
    (hfirst : utf8ByteLength first ≤ maxBytes) :
    ∃ shown, first :: shown <+: lines 10 s ∧ (truncateHead s maxLines maxBytes).outputLines = shown.length + 1 ∧
      (truncateHead s maxLines maxBytes).outputBytes ≤ linesBytes (first :: shown) + 1 := by
  by_cases hfits : Fits maxLines maxBytes s
  · have hbody := utf8ByteLength_body s
    rw [truncateHead_fits hfits, hs]
    refine ⟨rest, prefix_rfl, rfl, ?_⟩
    rw [hs] at hbody
    dsimp only
    split at hbody <;> omega
  · obtain ⟨run, after, hrun, -, hafter, hshown⟩ := truncateHead_cut hlines hfits
    have hone : [first] <+: run := by
      refine prefix_run hrun hafter ⟨rest, hs.symm⟩ (fitsLines_iff.mpr ⟨hlines, ?_⟩)
      rwa [linesBytes_singleton]
    obtain ⟨shown, rfl⟩ := hone
    rw [hshown]
    exact ⟨shown, ⟨after, hrun.symm⟩, rfl, Nat.le_succ _⟩

/-- A window without the mark that the text begins with does not show what the whole text shows,
if it shows anything. -/
theorem head_differs {marks first rest later : List Char} {line : JsString} {ls : List JsString} (hlines : 1 ≤ maxLines)
    (hmarks : 2 ≤ charBytes marks) (hmark : lineFeed ∉ marks) (hfirst : maxBytes < charBytes (marks ++ first))
    (hs : lines 10 (ofScalars (first ++ later)) = line :: ls) (hline : utf8ByteLength line ≤ maxBytes)
    (houtl : (truncateHead (ofScalars (first ++ later)) maxLines maxBytes).outputLines =
      (truncateHead (ofScalars (marks ++ first ++ rest)) maxLines maxBytes).outputLines)
    (houtb : (truncateHead (ofScalars (first ++ later)) maxLines maxBytes).outputBytes =
      (truncateHead (ofScalars (marks ++ first ++ rest)) maxLines maxBytes).outputBytes) : False := by
  have hlong : ¬Fits maxLines maxBytes (ofScalars (marks ++ first ++ rest)) := fun h => by
    have hbytes := h.2
    rw [utf8ByteLength_ofScalars, charBytes_append] at hbytes
    omega
  obtain ⟨shown, hshown, hcount, hbytes⟩ := head_something hlines hs hline
  obtain ⟨run, after, hrun, hfits, -, hwhole⟩ := truncateHead_cut hlines hlong
  rw [hwhole] at houtl houtb
  dsimp only at houtl houtb
  -- the lines shown of the whole text are those of the window, the mark before the first of them
  have hwithin := lines_within later hfirst ⟨after, hrun.symm⟩ hfits
  rw [append_assoc, ofScalars_append, lines_prepend (ofScalars_lineFeed hmark) hs] at hwithin
  cases run with
  | nil =>
    rw [length_nil] at houtl
    omega
  | cons line' run =>
    obtain ⟨rfl, hls⟩ := cons_prefix_cons.mp hwithin
    rw [hs] at hshown
    have hls' := (cons_prefix_cons.mp hshown).2
    rw [length_cons] at houtl
    obtain rfl : run = shown := by
      have hlen : run.length = shown.length := by omega
      exact (prefix_of_prefix_length_le hls hls' hlen.le).eq_of_length hlen
    have hjoined : utf8ByteLength (ofScalars marks ++ line) = charBytes marks + utf8ByteLength line := by
      have htext : IsText line := line_isText ⟨_, rfl⟩ (by rw [hs]; exact mem_cons_self)
      rw [utf8ByteLength_append ⟨marks, rfl⟩ htext, utf8ByteLength_ofScalars]
    simp only [linesBytes, map_cons, sum_cons, length_cons, hjoined] at hbytes houtb
    omega

end Head

/-! ## What is kept -/

/-- The last part of a text that is kept. -/
structure TailKept (maxBytes : Nat) (text before kept : List Char) : Prop where
  split : text = before ++ kept
  long : before ≠ [] → 4 * maxBytes < charBytes text
  line : before.getLast? = some lineFeed → 2 * maxBytes ≤ charBytes kept

/-- The text that is kept when the first part is: `first` and what came after the cuts, where
`marks` went when the cuts were decoded. -/
structure HeadCut (maxBytes : Nat) (text kept marks first rest later : List Char) : Prop where
  split : text = marks ++ first ++ rest
  keeps : kept = first ++ later
  allMarks : ∀ c ∈ marks, c = byteOrderMark
  marked : marks = [] → text.head? ≠ some byteOrderMark
  long : 4 * maxBytes < charBytes text
  short : charBytes first ≤ 2 * maxBytes
  size : 2 * maxBytes ≤ charBytes marks + charBytes first + 3
  nonempty : kept ≠ []

def Kept : Retain → Nat → List Char → List Char → Prop
  | .tail, maxBytes, text, kept => ∃ before, TailKept maxBytes text before kept
  | .head, maxBytes, text, kept => kept = text ∨ ∃ marks first rest later, HeadCut maxBytes text kept marks first rest later

theorem mark_size : byteOrderMark.utf8Size = 3 := by decide

theorem stripMark_cases (cs : List Char) :
    (∃ rest, cs = byteOrderMark :: rest ∧ stripMark cs = rest) ∨ (cs.head? ≠ some byteOrderMark ∧ stripMark cs = cs) := by
  cases cs with
  | nil => exact .inr ⟨by simp, rfl⟩
  | cons c cs =>
    rw [stripMark]
    split
    · rename_i hc
      exact .inl ⟨cs, by rw [hc], rfl⟩
    · rename_i hc
      exact .inr ⟨by simpa using hc, rfl⟩

theorem decodeText_encode (cs : List Char) : decodeText (encode cs) = stripMark cs := by
  rw [decodeText, decodeLossy_encode]

theorem trimToLast_eq (cs : List Char) {maxBytes : Nat} (h : maxBytes < charBytes cs) :
    trimToLastUtf8Bytes (ofScalars cs) maxBytes = ofScalars (stripMark (lastChars maxBytes cs)) := by
  rw [trimToLastUtf8Bytes, textEncode_ofScalars, length_encode, lastBytes_encode, decodeText_encode]
  exact if_neg (Nat.not_le.mpr h)

theorem trimToFirst_eq {cs : List Char} {maxBytes : Nat} (h : maxBytes < charBytes cs) : ∃ first c rest,
    cs = first ++ c :: rest ∧ charBytes first ≤ maxBytes ∧ maxBytes < charBytes first + c.utf8Size ∧
      trimToFirstUtf8Bytes (ofScalars cs) maxBytes = ofScalars (stripMark first) := by
  obtain ⟨first, c, rest, hcs, hle, hlt, hbytes⟩ := firstBytes_encode h
  refine ⟨first, c, rest, hcs, hle, hlt, ?_⟩
  rw [trimToFirstUtf8Bytes, textEncode_ofScalars, length_encode, hbytes, decodeText_encode]
  exact if_neg (Nat.not_le.mpr h)

theorem TailKept.append {text kept before : List Char} {maxBytes : Nat} (h : TailKept maxBytes text before kept)
    (more : List Char) : TailKept maxBytes (text ++ more) before (kept ++ more) := by
  refine ⟨by rw [h.split, append_assoc], fun hne => ?_, fun hlast => ?_⟩
  · have := h.long hne
    rw [charBytes_append]
    omega
  · have := h.line hlast
    rw [charBytes_append]
    omega

theorem TailKept.trim {text kept before : List Char} {maxBytes : Nat} (h : TailKept maxBytes text before kept)
    (hlong : 4 * maxBytes < charBytes kept) :
    ∃ before', TailKept maxBytes text before' (stripMark (lastChars (2 * maxBytes) kept)) := by
  obtain ⟨front, hfront, hmore⟩ := lastChars_spec (2 * maxBytes) kept
  have hbytes := lastChars_bytes (2 * maxBytes) kept
  have htext : 4 * maxBytes < charBytes text := by
    rw [h.split, charBytes_append]
    omega
  have hsplit : text = before ++ front ++ lastChars (2 * maxBytes) kept := by
    rw [h.split, append_assoc, ← hfront]
  rcases stripMark_cases (lastChars (2 * maxBytes) kept) with ⟨rest, hlast, hstrip⟩ | ⟨-, hstrip⟩
  · rw [hstrip]
    refine ⟨before ++ front ++ [byteOrderMark], by rw [hsplit, hlast]; simp, fun _ => htext, fun hl => ?_⟩
    rw [getLast?_concat] at hl
    exact absurd hl (by decide)
  · rw [hstrip]
    refine ⟨before ++ front, hsplit, fun _ => htext, fun hl => ?_⟩
    rcases eq_or_ne front [] with rfl | hne
    · have := congrArg charBytes hfront
      rw [nil_append] at this
      omega
    · rw [getLast?_append_of_ne_nil _ hne] at hl
      have := hmore lineFeed hl
      have hsize : lineFeed.utf8Size = 1 := by decide
      omega

theorem HeadCut.append {text kept marks first rest later : List Char} {maxBytes : Nat}
    (h : HeadCut maxBytes text kept marks first rest later) (more : List Char) :
    HeadCut maxBytes (text ++ more) (kept ++ more) marks first (rest ++ more) (later ++ more) where
  split := by rw [h.split, append_assoc]
  keeps := by rw [h.keeps, append_assoc]
  allMarks := h.allMarks
  marked hnil := by
    have hhead := h.marked hnil
    cases text with
    | nil => exact absurd h.long (Nat.not_lt_zero _)
    | cons c text => exact hhead
  long := by
    have := h.long
    rw [charBytes_append]
    omega
  short := h.short
  size := h.size
  nonempty := by simp [h.nonempty]

/-- The first cut of a text. -/
theorem HeadCut.start {text first rest : List Char} {maxBytes : Nat} {c : Char} (hbytes : 4 ≤ maxBytes)
    (hlong : 4 * maxBytes < charBytes text)
    (htext : text = first ++ c :: rest) (hle : charBytes first ≤ 2 * maxBytes)
    (hlt : 2 * maxBytes < charBytes first + c.utf8Size) :
    ∃ marks first' rest' later, HeadCut maxBytes text (stripMark first) marks first' rest' later := by
  have hc := c.utf8Size_le_four
  rcases stripMark_cases first with ⟨after, hfirst, hstrip⟩ | ⟨hhead, hstrip⟩
  · have hsize : charBytes first = 3 + charBytes after := by rw [hfirst, charBytes_cons, mark_size]
    have hmark : charBytes [byteOrderMark] = 3 := by rw [charBytes_cons, mark_size, charBytes_nil]
    refine ⟨[byteOrderMark], after, c :: rest, [], by rw [htext, hfirst]; simp, by rw [hstrip, append_nil],
      fun c hc => mem_singleton.mp hc, nofun, hlong, by omega, by omega, fun hnil => ?_⟩
    rw [← hstrip, hnil, charBytes_nil] at hsize
    omega
  · have hne : first ≠ [] := by
      rintro rfl
      rw [charBytes_nil] at hlt
      omega
    refine ⟨[], first, c :: rest, [], htext, by rw [hstrip, append_nil], nofun, fun _ => ?_, hlong,
      hle, (by rw [charBytes_nil]; omega), (by rwa [hstrip])⟩
    obtain ⟨d, ds, rfl⟩ := exists_cons_of_ne_nil hne
    rw [htext]
    exact hhead

theorem HeadCut.trim {text kept marks first rest later cut after : List Char} {maxBytes : Nat} {c : Char}
    (hbytes : 4 ≤ maxBytes)
    (h : HeadCut maxBytes text kept marks first rest later) (hkept : kept = cut ++ c :: after)
    (hle : charBytes cut ≤ 2 * maxBytes) (hlt : 2 * maxBytes < charBytes cut + c.utf8Size) :
    ∃ marks' first' rest' later', HeadCut maxBytes text (stripMark cut) marks' first' rest' later' := by
  have hc := c.utf8Size_le_four
  -- what was kept before the later text is kept again
  obtain ⟨more, rfl⟩ : first <+: cut := by
    rcases prefix_or_prefix_of_prefix (⟨later, h.keeps.symm⟩ : first <+: kept) ⟨c :: after, hkept.symm⟩ with hin | hin
    · exact hin
    · obtain ⟨left, rfl⟩ := hin
      cases left with
      | nil => rw [append_nil]
      | cons d left =>
        have hd : d = c := by
          have hboth := h.keeps.symm.trans hkept
          rw [append_assoc, append_cancel_left_eq, cons_append, cons_eq_cons] at hboth
          exact hboth.1
        have hfirst := h.short
        rw [hd, charBytes_append, charBytes_cons] at hfirst
        omega
  have hsome : stripMark (first ++ more) ≠ [] := by
    intro hnil
    rcases stripMark_cases (first ++ more) with ⟨rest, heq, hstrip⟩ | ⟨-, hstrip⟩
    · rw [heq, ← hstrip, hnil, charBytes_cons, charBytes_nil, mark_size] at hlt
      omega
    · rw [← hstrip, hnil, charBytes_nil] at hlt
      omega
  rcases stripMark_cases (first ++ more) with ⟨left, heq, hstrip⟩ | ⟨-, hstrip⟩
  · cases first with
    | nil =>
      rw [nil_append] at heq hsome hstrip ⊢
      exact ⟨marks, [], rest, stripMark more, h.split, rfl, h.allMarks, h.marked, h.long, h.short, h.size, hsome⟩
    | cons d first =>
      rw [cons_append, cons_eq_cons] at heq
      obtain ⟨rfl, rfl⟩ := heq
      have hmark : charBytes (marks ++ [byteOrderMark]) + charBytes first = charBytes marks + charBytes (byteOrderMark :: first) := by
        rw [charBytes_append, charBytes_cons, charBytes_cons, charBytes_nil]
        omega
      have hfirst := h.short
      rw [charBytes_cons] at hfirst
      refine ⟨marks ++ [byteOrderMark], first, rest, more, by rw [h.split]; simp, hstrip, fun c hc => ?_,
        fun hnil => by simp at hnil, h.long, by omega, by rw [hmark]; exact h.size, hsome⟩
      rcases mem_append.mp hc with hc | hc
      · exact h.allMarks c hc
      · exact mem_singleton.mp hc
  · exact ⟨marks, first, rest, more, h.split, hstrip, h.allMarks, h.marked, h.long, h.short, h.size, hsome⟩

/-- What a capture has counted of its text, and kept of it. -/
structure Captures (retain : Retain) (maxLines maxBytes : Nat) (c : OutputCapture) (text kept : List Char) : Prop where
  retains : c.retain = retain
  lineLimit : c.maxLines = maxLines
  byteLimit : c.maxBytes = maxBytes
  totalBytes : c.totalBytes = charBytes text
  newlines : c.newlines = text.count lineFeed
  endsWithNewline : c.endsWithNewline = true ↔ text = [] ∨ text.getLast? = some lineFeed
  currentLine : ∃ ended cut, text = ended ++ cut ∧ (ended = [] ∨ ended.getLast? = some lineFeed) ∧ lineFeed ∉ cut ∧
    c.currentLineBytes = charBytes cut
  buffer : c.buffer = ofScalars kept
  bufferBytes : c.bufferBytes = charBytes kept
  window : Kept retain maxBytes text kept
  short : charBytes kept ≤ 4 * maxBytes

theorem captures_new (maxBytes maxLines : Nat) (retain : Retain) :
    Captures retain maxLines maxBytes (.new maxBytes maxLines retain) [] [] where
  retains := rfl
  lineLimit := rfl
  byteLimit := rfl
  totalBytes := rfl
  newlines := rfl
  endsWithNewline := by simp [OutputCapture.new]
  currentLine := ⟨[], [], rfl, .inl rfl, not_mem_nil, rfl⟩
  buffer := rfl
  bufferBytes := rfl
  window := by
    cases retain with
    | tail => exact ⟨[], rfl, fun h => absurd rfl h, fun h => by cases h⟩
    | head => exact .inl rfl
  short := Nat.zero_le _

theorem rtakeWhile_ended {α : Type} [DecidableEq α] {sep : α} (x : List α) {y : List α} (h : sep ∉ y) :
    (x ++ sep :: y).rtakeWhile (· ≠ sep) = y := by
  have hy : ∀ a ∈ y.reverse, decide (a ≠ sep) = true := fun a ha =>
    decide_eq_true fun he => h (by rw [← he]; exact mem_reverse.mp ha)
  rw [rtakeWhile, reverse_append, reverse_cons, append_assoc, takeWhile_append_of_pos hy,
    singleton_append, takeWhile_cons_of_neg (by simp), append_nil, reverse_reverse]

section Steps
variable {retain : Retain} {maxLines maxBytes : Nat} {c : OutputCapture} {text kept : List Char}

theorem Captures.countText (h : Captures retain maxLines maxBytes c text kept) {cs : List Char} (hcs : cs ≠ []) :
    ∃ ended cut, text ++ cs = ended ++ cut ∧ (ended = [] ∨ ended.getLast? = some lineFeed) ∧ lineFeed ∉ cut ∧
      (c.countText (ofScalars cs)).currentLineBytes = charBytes cut := by
  obtain ⟨ended, cut, rfl, hended, hcut, hbytes⟩ := h.currentLine
  obtain ⟨ended', cut', rfl, hended', hcut'⟩ := ended_lines lineFeed cs
  rw [OutputCapture.countText]
  rcases hended' with rfl | hended'
  · have hno : lineFeed ∉ cut ++ cut' := by
      rw [mem_append, not_or]
      exact ⟨hcut, hcut'⟩
    refine ⟨ended, cut ++ cut', by simp, hended, hno, ?_⟩
    rw [nil_append, if_neg (ofScalars_lineFeed hcut'), hbytes, utf8ByteLength_ofScalars, charBytes_append]
  · refine ⟨ended ++ cut ++ ended', cut', by simp, .inr ?_, hcut', ?_⟩
    · rw [getLast?_append, hended']
      rfl
    · have hsplit := dropLast_append_getLast? lineFeed hended'
      have hunits : ofScalars (ended' ++ cut') = ofScalars ended'.dropLast ++ 10 :: ofScalars cut' := by
        rw [← hsplit, ofScalars_append, ofScalars_append, append_assoc, dropLast_concat]
        rfl
      rw [hunits, rtakeWhile_ended _ (ofScalars_lineFeed hcut'), if_pos (by simp), utf8ByteLength_ofScalars]

theorem Kept.append (h : Kept retain maxBytes text kept) (more : List Char) : Kept retain maxBytes (text ++ more) (kept ++ more) := by
  cases retain with
  | tail =>
    obtain ⟨before, h⟩ := h
    exact ⟨before, h.append more⟩
  | head =>
    rcases h with rfl | ⟨marks, first, rest, later, h⟩
    · exact .inl rfl
    · exact .inr ⟨marks, first, rest ++ more, later ++ more, h.append more⟩

theorem charBytes_stripMark (cs : List Char) : charBytes (stripMark cs) ≤ charBytes cs := by
  rcases stripMark_cases cs with ⟨rest, rfl, hstrip⟩ | ⟨-, hstrip⟩
  · rw [hstrip, charBytes_cons]
    exact Nat.le_add_left _ _
  · rw [hstrip]

/-- What is kept of a buffer that is trimmed when it is too long. -/
theorem trimBuffer_kept (hbytes : 4 ≤ maxBytes) (hret : c.retain = retain) (hmax : c.maxBytes = maxBytes)
    (hbuf : c.buffer = ofScalars kept) (hcount : c.bufferBytes = charBytes kept) (h : Kept retain maxBytes text kept) :
    ∃ kept', c.trimBuffer.buffer = ofScalars kept' ∧ c.trimBuffer.bufferBytes = charBytes kept' ∧
      Kept retain maxBytes text kept' ∧ charBytes kept' ≤ 4 * maxBytes := by
  rw [OutputCapture.trimBuffer, hret, hmax, hbuf, hcount]
  dsimp only
  split
  · rename_i hlong
    cases retain with
    | tail =>
      obtain ⟨before, h⟩ := h
      obtain ⟨before', htrim⟩ := h.trim (by omega)
      have hlast := lastChars_bytes (2 * maxBytes) kept
      have hstrip := charBytes_stripMark (lastChars (2 * maxBytes) kept)
      rw [trimToLast_eq kept (by omega), utf8ByteLength_ofScalars, Nat.mul_comm maxBytes 2]
      exact ⟨_, rfl, rfl, ⟨before', htrim⟩, by omega⟩
    | head =>
      obtain ⟨first, d, rest, hkept, hle, hlt, htrim⟩ := @trimToFirst_eq kept (maxBytes * 2) (by omega)
      have hstrip := charBytes_stripMark first
      rw [htrim, utf8ByteLength_ofScalars]
      rw [Nat.mul_comm] at hle hlt
      refine ⟨_, rfl, rfl, .inr ?_, by omega⟩
      rcases h with rfl | ⟨marks, first', rest', later, h⟩
      · exact HeadCut.start hbytes (by omega) hkept hle hlt
      · exact h.trim hbytes hkept hle hlt
  · exact ⟨kept, hbuf, hcount, h, by omega⟩

theorem trimBuffer_eq (c : OutputCapture) :
    c.trimBuffer = { c with buffer := c.trimBuffer.buffer, bufferBytes := c.trimBuffer.bufferBytes } := by
  rw [OutputCapture.trimBuffer]
  split <;> rfl

/-- What a capture has of its text after more text. -/
theorem Captures.appendText (hbytes : 4 ≤ maxBytes) (h : Captures retain maxLines maxBytes c text kept) (cs : List Char) :
    ∃ kept', Captures retain maxLines maxBytes (c.appendText (ofScalars cs)).1 (text ++ cs) kept' := by
  rcases eq_or_ne cs [] with rfl | hcs
  · rw [append_nil]
    exact ⟨kept, h⟩
  · have hbuf : (c.countText (ofScalars cs)).buffer = ofScalars (kept ++ cs) := by
      rw [ofScalars_append, ← h.buffer]
      rfl
    have hcount : (c.countText (ofScalars cs)).bufferBytes = charBytes (kept ++ cs) := by
      rw [charBytes_append, ← h.bufferBytes, ← utf8ByteLength_ofScalars cs]
      rfl
    have hret : (c.countText (ofScalars cs)).retain = retain := h.retains
    obtain ⟨kept', hbuf', hcount', hkept', hshort⟩ :=
      trimBuffer_kept hbytes hret h.byteLimit hbuf hcount (h.window.append cs)
    rw [OutputCapture.appendText, if_neg (ofScalars_ne_nil hcs), trimBuffer_eq (c.countText (ofScalars cs))]
    refine ⟨kept', h.retains, h.lineLimit, h.byteLimit, ?_, ?_, ?_, h.countText hcs, hbuf', hcount', hkept', hshort⟩
    · rw [charBytes_append, ← h.totalBytes, ← utf8ByteLength_ofScalars cs]
      rfl
    · rw [count_append, ← h.newlines, ← count_ofScalars cs]
      rfl
    · rw [getLast?_append_of_ne_nil _ hcs, ← getLast?_ofScalars]
      simp [OutputCapture.countText, hcs]

theorem Captures.read (hbytes : 4 ≤ maxBytes) (h : Captures retain maxLines maxBytes c text kept) (d : Decoder) (cs : List Char) :
    ∃ kept', Captures retain maxLines maxBytes ({ c with decoder := d }.appendText (ofScalars cs)).1 (text ++ cs) kept' :=
  @Captures.appendText retain maxLines maxBytes { c with decoder := d } text kept hbytes ⟨h.retains, h.lineLimit,
    h.byteLimit, h.totalBytes, h.newlines, h.endsWithNewline, h.currentLine, h.buffer, h.bufferBytes, h.window, h.short⟩ cs

theorem appendText_decoder (c : OutputCapture) (text : JsString) : (c.appendText text).1.decoder = c.decoder := by
  rw [OutputCapture.appendText]
  split
  · rfl
  · rw [trimBuffer_eq]
    rfl

end Steps

/-! ## The whole output -/

/-- A capture that is given its chunks and then finished. -/
def captured (maxBytes maxLines : Nat) (retain : Retain) (chunks : List Bytes) : OutputCapture :=
  (chunks.foldl (fun c chunk => (OutputCapture.appendBytes c chunk).1) (OutputCapture.new maxBytes maxLines retain)).appendEnd.1

/-- A finished capture has counted the decoded output. -/
theorem captured_captures {maxBytes : Nat} (hbytes : 4 ≤ maxBytes) (maxLines : Nat) (retain : Retain) (chunks : List Bytes) :
    ∃ kept, Captures retain maxLines maxBytes (captured maxBytes maxLines retain chunks) (decodeText chunks.flatten) kept := by
  have hrun : ∀ (chunks : List Bytes) (c : OutputCapture) (bytes : Bytes) (text kept : List Char),
      Reads c.decoder bytes text → Captures retain maxLines maxBytes c text kept →
      ∃ kept', Captures retain maxLines maxBytes (chunks.foldl (fun c chunk => (OutputCapture.appendBytes c chunk).1) c).appendEnd.1
        (decodeText (bytes ++ chunks.flatten)) kept' := by
    intro chunks
    induction chunks with
    | nil =>
      intro c bytes text kept hreads h
      rw [flatten_nil, append_nil, ← hreads.flush]
      exact h.read hbytes _ _
    | cons chunk chunks ih =>
      intro c bytes text kept hreads h
      obtain ⟨kept', h'⟩ := h.read hbytes (c.decoder.decode chunk).2 (c.decoder.decode chunk).1
      rw [flatten_cons, ← append_assoc]
      refine ih _ _ _ kept' ?_ h'
      dsimp only
      rw [OutputCapture.appendBytes, appendText_decoder]
      exact hreads.decode chunk
  exact hrun chunks _ [] [] [] reads_new (captures_new maxBytes maxLines retain)

/-- The truncation that a capture retains. -/
def truncate (retain : Retain) (content : JsString) (maxLines maxBytes : Nat) : TruncationResult :=
  match retain with
  | .head => truncateHead content maxLines maxBytes
  | .tail => truncateTail content maxLines maxBytes

def lastLine (content : JsString) : JsString := (splitLinesForCounting content).getLastD []

/-- A view shows what the truncation of the whole output shows. -/
structure Agrees (view : ShellOutputView) (whole : TruncationResult) (content : JsString) : Prop where
  text : view.text = sanitizeShellOutput whole.content
  outputLines : view.truncation.outputLines = whole.outputLines
  outputBytes : view.truncation.outputBytes = whole.outputBytes
  totalLines : view.truncation.totalLines = whole.totalLines
  totalBytes : view.truncation.totalBytes = whole.totalBytes
  truncated : view.truncation.truncated = whole.truncated
  lastLinePartial : view.truncation.lastLinePartial = whole.lastLinePartial
  lastLineBytes : whole.lastLinePartial = true → view.lastLineBytes = some (utf8ByteLength (lastLine content))

/-- The lines of a text are not all shown. -/
def Exceeds (maxLines maxBytes : Nat) (content : JsString) : Prop :=
  maxLines < (splitLinesForCounting content).length ∨ maxBytes < utf8ByteLength (join (splitLinesForCounting content))

/-- Where a capture that has this buffer shows what the whole output shows. -/
def Shown (retain : Retain) (maxLines maxBytes : Nat) (buffer content : JsString) : Prop :=
  match retain with
  | .tail => ¬(content.getLast? = some 10 ∧ maxBytes < utf8ByteLength (lastLine content)) ∧
      (buffer = content ∨ Exceeds maxLines maxBytes buffer)
  | .head => ¬(content.head? = some 0xfeff ∧ 4 * maxBytes < utf8ByteLength content ∧
      utf8ByteLength ((splitLinesForCounting buffer).headD []) ≤ maxBytes)

section Whole
variable {retain : Retain} {maxLines maxBytes : Nat} {c : OutputCapture} {text kept : List Char}

theorem exceeds_iff (buffer : JsString) :
    Exceeds maxLines maxBytes buffer ↔ fitsLines maxLines maxBytes (lines 10 buffer) = false := by
  rw [Exceeds, splitLinesForCounting_eq, utf8ByteLength_join, Bool.eq_false_iff, ne_eq, fitsLines_iff]
  omega

theorem Captures.totalLines (h : Captures retain maxLines maxBytes c text kept) :
    c.totalLines = (lines 10 (ofScalars text)).length := by
  have hends : (c.endsWithNewline || c.totalBytes == 0) = true ↔ ofScalars text = [] ∨ (ofScalars text).getLast? = some 10 := by
    rw [Bool.or_eq_true, h.endsWithNewline, h.totalBytes, getLast?_ofScalars, beq_iff_eq]
    cases text with
    | nil => simp [ofScalars]
    | cons d text =>
      have hd := d.utf8Size_pos
      have hne : ofScalars (d :: text) ≠ [] := ofScalars_ne_nil (cons_ne_nil _ _)
      rw [charBytes_cons]
      have hpos : d.utf8Size + charBytes text ≠ 0 := by omega
      simp only [reduceCtorEq, false_or, hne, hpos, or_false]
  rw [OutputCapture.totalLines, h.newlines, length_lines, count_ofScalars]
  simp only [hends]

/-- The totals of a truncation. -/
theorem truncate_totals (hlines : 1 ≤ maxLines) (retain : Retain) (content : JsString) :
    (truncate retain content maxLines maxBytes).totalLines = (lines 10 content).length ∧
      (truncate retain content maxLines maxBytes).totalBytes = utf8ByteLength content ∧
      ((truncate retain content maxLines maxBytes).truncated = true ↔ ¬Fits maxLines maxBytes content) := by
  by_cases hfits : Fits maxLines maxBytes content
  · cases retain with
    | tail =>
      rw [truncate, truncateTail, truncateTailWith_fits hfits]
      exact ⟨rfl, rfl, by simp [hfits]⟩
    | head =>
      rw [truncate, truncateHead_fits hfits]
      exact ⟨rfl, rfl, by simp [hfits]⟩
  · cases retain with
    | tail =>
      rw [truncate, truncateTail, truncateTailWith_cut hlines hfits]
      exact ⟨rfl, rfl, by simp [hfits]⟩
    | head =>
      obtain ⟨run, after, -, -, -, hshown⟩ := truncateHead_cut hlines hfits
      rw [truncate, hshown]
      exact ⟨rfl, rfl, by simp [hfits]⟩

/-- What is left to agree once the totals do. -/
theorem Captures.agrees_iff (h : Captures retain maxLines maxBytes c text kept) (hlines : 1 ≤ maxLines) :
    Agrees c.snapshot (truncate retain (ofScalars text) maxLines maxBytes) (ofScalars text) ↔
      sanitizeShellOutput (truncate retain (ofScalars kept) maxLines maxBytes).content =
          sanitizeShellOutput (truncate retain (ofScalars text) maxLines maxBytes).content ∧
        (truncate retain (ofScalars kept) maxLines maxBytes).outputLines =
          (truncate retain (ofScalars text) maxLines maxBytes).outputLines ∧
        (truncate retain (ofScalars kept) maxLines maxBytes).outputBytes =
          (truncate retain (ofScalars text) maxLines maxBytes).outputBytes ∧
        (truncate retain (ofScalars kept) maxLines maxBytes).lastLinePartial =
          (truncate retain (ofScalars text) maxLines maxBytes).lastLinePartial ∧
        ((truncate retain (ofScalars text) maxLines maxBytes).lastLinePartial = true →
          c.currentLineBytes = utf8ByteLength (lastLine (ofScalars text))) := by
  have hret : c.retained = truncate retain (ofScalars kept) maxLines maxBytes := by
    rw [OutputCapture.retained, h.retains, h.lineLimit, h.byteLimit, h.buffer]
    cases retain <;> rfl
  obtain ⟨htotalLines, htotalBytes, htrunc⟩ := @truncate_totals maxLines maxBytes hlines retain (ofScalars text)
  have hbytes : c.totalBytes = utf8ByteLength (ofScalars text) := by rw [h.totalBytes, utf8ByteLength_ofScalars]
  have hcut : c.truncated = (truncate retain (ofScalars text) maxLines maxBytes).truncated := by
    rw [Bool.eq_iff_iff, htrunc, OutputCapture.truncated, Bool.or_eq_true, decide_eq_true_eq, decide_eq_true_eq,
      h.lineLimit, h.byteLimit, h.totalLines, hbytes, Fits]
    omega
  rw [← hret]
  constructor
  · intro h
    refine ⟨h.text, h.outputLines, h.outputBytes, h.lastLinePartial, fun hpart => ?_⟩
    have hview := h.lastLineBytes hpart
    have hsame : c.retained.lastLinePartial = _ := h.lastLinePartial
    rw [OutputCapture.snapshot, hsame, if_pos hpart] at hview
    exact Option.some.inj hview
  · rintro ⟨htext, houtl, houtb, hpart, hline⟩
    refine ⟨htext, houtl, houtb, by rw [htotalLines, ← h.totalLines]; rfl, by rw [htotalBytes, ← hbytes]; rfl,
      hcut, hpart, fun hwhole => ?_⟩
    rw [OutputCapture.snapshot, hpart, if_pos hwhole, hline hwhole]

theorem tail_cutLine (hlines : 1 ≤ maxLines) (s : JsString) : (truncateTail s maxLines maxBytes).lastLinePartial = true ↔
    s ≠ [] ∧ maxBytes < utf8ByteLength (lastLine s) := by
  rcases eq_or_ne s [] with rfl | hne
  · rw [truncateTail, truncateTailWith_fits ⟨Nat.zero_le _, Nat.zero_le _⟩]
    simp
  · have hsome : lines 10 s ≠ [] := fun hnil => hne (lines_eq_nil.mp hnil)
    have hlast := getLast?_eq_some_getLast hsome
    have hrun : tailRun maxLines maxBytes (lines 10 s) = [] ↔ maxBytes < utf8ByteLength (lastLine s) := by
      rw [tailRun_eq_nil maxBytes hlines, lastLine, splitLinesForCounting_eq, getLastD_eq_getLast?, hlast]
      simp
    rw [← hrun, and_iff_right hne]
    by_cases hfits : Fits maxLines maxBytes s
    · have hall : tailRun maxLines maxBytes (lines 10 s) = lines 10 s :=
        LongestSuffix.longestSuffix_of_fits (fitsLines_of_fits hfits)
      rw [truncateTail, truncateTailWith_fits hfits, hall]
      simp [hne]
    · rw [truncateTail, truncateTailWith_cut hlines hfits, tailCollected]
      split
      · rename_i h
        exact ⟨fun _ => h.1, fun _ => rfl⟩
      · rename_i h
        exact ⟨fun h => (by cases h), fun hnil => absurd ⟨hnil, hsome⟩ h⟩

/-- The bytes counted since the last newline are those of the last line, unless it is ended. -/
theorem Captures.currentLine_eq (h : Captures retain maxLines maxBytes c text kept) :
    c.currentLineBytes = if (ofScalars text).getLast? = some 10 then 0 else utf8ByteLength (lastLine (ofScalars text)) := by
  obtain ⟨ended, cut, rfl, hended, hcut, hbytes⟩ := h.currentLine
  have hends := getLast?_ofScalars (ended ++ cut)
  rw [hbytes, lastLine, splitLinesForCounting_eq]
  rcases eq_or_ne cut [] with rfl | hne
  · rw [append_nil] at hends ⊢
    rcases hended with rfl | hended
    · rfl
    · rw [if_pos (hends.mpr hended)]
      rfl
  · have hlast : (ended ++ cut).getLast? ≠ some lineFeed := by
      rw [getLast?_append_of_ne_nil _ hne]
      exact fun h => hcut (mem_of_getLast? h)
    rw [if_neg fun h => hlast (hends.mp h), lines_ofScalars, lines_ended hended, lines_of_not_mem hne hcut, map_append,
      map_singleton, getLastD_concat, utf8ByteLength_ofScalars]

theorem tail_agrees_iff (hbytes : 4 ≤ maxBytes) (hlines : 1 ≤ maxLines) (h : Captures .tail maxLines maxBytes c text kept) :
    Agrees c.snapshot (truncate .tail (ofScalars text) maxLines maxBytes) (ofScalars text) ↔
      Shown .tail maxLines maxBytes c.buffer (ofScalars text) := by
  obtain ⟨before, hkept⟩ := h.window
  have hsplit := hkept.split
  subst hsplit
  have hwhole : before ≠ [] → ¬Fits maxLines maxBytes (ofScalars (before ++ kept)) := fun hne hfits => by
    have hlong := hkept.long hne
    have hle := hfits.2
    rw [utf8ByteLength_ofScalars] at hle
    omega
  have hcur := h.currentLine_eq
  have hcutLine := @tail_cutLine maxLines maxBytes hlines (ofScalars (before ++ kept))
  have hbuf : c.buffer = ofScalars (before ++ kept) ↔ before = [] := by
    rw [h.buffer, ofScalars_append]
    constructor
    · intro heq
      by_contra hne
      exact ofScalars_ne_nil hne (append_left_eq_self.mp heq.symm)
    · rintro rfl
      rfl
  rw [h.agrees_iff hlines, Shown, hbuf, exceeds_iff, h.buffer]
  constructor
  · rintro ⟨htext, houtl, houtb, hpart, hline⟩
    refine ⟨?_, ?_⟩
    · rintro ⟨hend, hlong⟩
      have hne : ofScalars (before ++ kept) ≠ [] := by
        rintro hnil
        rw [hnil] at hend
        cases hend
      have := hline (hcutLine.mpr ⟨hne, hlong⟩)
      rw [hcur, if_pos hend] at this
      omega
    · by_contra hnot
      rw [not_or, Bool.not_eq_false] at hnot
      exact tail_differs hlines (by omega) hnot.1 (hwhole hnot.1) hkept.line hnot.2 htext ⟨houtl, houtb, hpart⟩
  · rintro ⟨hend, hshown⟩
    have hshows := tail_shows hlines hwhole hshown
    refine ⟨congrArg sanitizeShellOutput hshows.content, hshows.outputLines, hshows.outputBytes, hshows.lastLinePartial,
      fun hpart => ?_⟩
    rw [hcur, if_neg fun hlast => hend ⟨hlast, (hcutLine.mp hpart).2⟩]

theorem head_cutLine (hlines : 1 ≤ maxLines) (s : JsString) : (truncateHead s maxLines maxBytes).lastLinePartial = false := by
  by_cases hfits : Fits maxLines maxBytes s
  · rw [truncateHead_fits hfits]
  · obtain ⟨run, after, -, -, -, hshown⟩ := truncateHead_cut hlines hfits
    rw [hshown]

theorem head?_mark (cs : List Char) : (ofScalars cs).head? = some 0xfeff ↔ cs.head? = some byteOrderMark := by
  cases cs with
  | nil => exact ⟨nofun, nofun⟩
  | cons c cs =>
    have hr := char_range c
    have hcons : ofScalars (c :: cs) = codeUnits c ++ ofScalars cs := rfl
    have hmark : byteOrderMark.toNat = 0xfeff := by decide
    rw [hcons, codeUnits, head?_cons, Option.some.injEq, ← Char.toNat_inj, hmark]
    split
    · rename_i hlt
      rw [singleton_append, head?_cons, Option.some.injEq, ← UInt16.toNat_inj, unit_toNat c.toNat hlt]
      rfl
    · rename_i hlt
      rw [cons_append, head?_cons, Option.some.injEq, ← UInt16.toNat_inj, unit_toNat _ (by omega)]
      have hunit : (0xfeff : UInt16).toNat = 0xfeff := rfl
      omega

theorem head_agrees_iff (hbytes : 4 ≤ maxBytes) (hlines : 1 ≤ maxLines) (h : Captures .head maxLines maxBytes c text kept) :
    Agrees c.snapshot (truncate .head (ofScalars text) maxLines maxBytes) (ofScalars text) ↔
      Shown .head maxLines maxBytes c.buffer (ofScalars text) := by
  have hpart := @head_cutLine maxLines maxBytes hlines
  rw [h.agrees_iff hlines, Shown, head?_mark, utf8ByteLength_ofScalars, h.buffer]
  dsimp only [truncate]
  rw [hpart, hpart]
  rcases h.window with rfl | ⟨marks, first, rest, later, hkept⟩
  · have hshort := h.short
    refine ⟨fun _ ⟨_, hlong, _⟩ => ?_, fun _ => ⟨rfl, rfl, rfl, rfl, fun h => (by cases h)⟩⟩
    omega
  · obtain rfl := hkept.keeps
    have hsize := hkept.size
    rcases eq_or_ne marks [] with rfl | hne
    · have hsplit := hkept.split
      rw [nil_append] at hsplit
      subst hsplit
      rw [charBytes_nil] at hsize
      have hshows := @head_shows maxLines maxBytes first rest later hlines (by omega)
      exact ⟨fun _ hmark => hkept.marked rfl hmark.1, fun _ => ⟨congrArg sanitizeShellOutput hshows.content,
        hshows.outputLines, hshows.outputBytes, rfl, fun h => (by cases h)⟩⟩
    · obtain ⟨line, ls, hlinesKept⟩ :=
        exists_cons_of_ne_nil fun hnil => ofScalars_ne_nil hkept.nonempty ((@lines_eq_nil _ _ 10 _).mp hnil)
      obtain ⟨m, ms, rfl⟩ := exists_cons_of_ne_nil hne
      have hm := hkept.allMarks m mem_cons_self
      have hhead : text.head? = some byteOrderMark := by
        rw [hkept.split, ← hm]
        rfl
      have hlarge : 3 ≤ charBytes (m :: ms) := by
        rw [charBytes_cons, hm, mark_size]
        exact Nat.le_add_right _ _
      have hfeed : lineFeed ∉ m :: ms := fun hmem => absurd (hkept.allMarks _ hmem) (by decide)
      have hlong := hkept.long
      have hfirst := hkept.short
      have hfront : maxBytes < charBytes (m :: ms ++ first) := by
        rw [charBytes_append]
        omega
      rw [splitLinesForCounting_eq, hlinesKept, headD_cons]
      constructor
      · rintro ⟨-, houtl, houtb, -⟩ ⟨-, -, hline⟩
        rw [hkept.split] at houtl houtb
        exact head_differs hlines (by omega) hfeed hfront hlinesKept hline houtl houtb
      · intro hshown
        have hline : maxBytes < utf8ByteLength line := by
          by_contra hle
          exact hshown ⟨hhead, hlong, Nat.not_lt.mp hle⟩
        have hsome : ofScalars (m :: ms ++ first ++ rest) ≠ [] := ofScalars_ne_nil (by simp)
        obtain ⟨line', ls', hlinesText⟩ := exists_cons_of_ne_nil fun hnil => hsome ((@lines_eq_nil _ _ 10 _).mp hnil)
        -- the first line of the whole is too long as well
        have hline' : maxBytes < utf8ByteLength line' := by
          by_contra hle
          have hone : fitsLines maxLines maxBytes [line'] = true := by
            rw [fitsLines_iff, linesBytes_singleton]
            exact ⟨hlines, Nat.not_lt.mp hle⟩
          have hwithin := lines_within later hfront ⟨ls', hlinesText.symm⟩ hone
          rw [append_assoc, ofScalars_append, lines_prepend (ofScalars_lineFeed hfeed) hlinesKept,
            cons_prefix_cons] at hwithin
          have htext : IsText line := line_isText ⟨_, rfl⟩ (by rw [hlinesKept]; exact mem_cons_self)
          rw [hwithin.1, utf8ByteLength_append ⟨_, rfl⟩ htext] at hle
          omega
        have hkeptNone := head_nothing hlines hlinesKept hline
        have htextNone := head_nothing hlines hlinesText hline'
        rw [hkept.split, hkeptNone.1, hkeptNone.2.1, hkeptNone.2.2, htextNone.1, htextNone.2.1, htextNone.2.2]
        exact ⟨rfl, rfl, rfl, rfl, fun h => (by cases h)⟩

end Whole

/-- A finished capture shows what the truncation of the whole output shows, however the output was
cut into chunks, but for the length of a partial last line that is ended, a window whose lines are
all shown though the output has more, and a byte order mark that is lost when the head is cut. -/
theorem snapshot_whole {maxBytes maxLines : Nat} (hbytes : 4 ≤ maxBytes) (hlines : 1 ≤ maxLines) (retain : Retain)
    (chunks : List Bytes) :
    let c := captured maxBytes maxLines retain chunks
    let content := ofScalars (decodeText chunks.flatten)
    Agrees c.snapshot (truncate retain content maxLines maxBytes) content ↔
      Shown retain maxLines maxBytes c.buffer content := by
  intro c content
  obtain ⟨kept, h⟩ := captured_captures hbytes maxLines retain chunks
  cases retain with
  | tail => exact tail_agrees_iff hbytes hlines h
  | head => exact head_agrees_iff hbytes hlines h

/-- More than the buffer retains, and more of it than is shown. -/
theorem snapshot_whole_truncated : let chunks : List Bytes := [List.replicate 40 97 ++ [10, 0xc3], [0xa9, 10, 98]]
    let c := captured 4 10 .tail chunks
    let content := ofScalars (decodeText chunks.flatten)
    c.buffer ≠ content ∧ (truncate .tail content 10 4).truncated = true ∧
      Agrees c.snapshot (truncate .tail content 10 4) content := by
  intro chunks c content
  refine ⟨by decide, by decide, (snapshot_whole (by decide) (by decide) .tail chunks).mpr ⟨by decide, .inr ?_⟩⟩
  exact .inr (by decide)

/-- A last line that is shown partially, and ended. -/
theorem snapshot_ended_line : let chunks : List Bytes := [[97, 98, 99, 100, 101, 102, 10]]
    let c := captured 4 10 .tail chunks
    let content := ofScalars (decodeText chunks.flatten)
    c.snapshot.truncation.lastLinePartial = true ∧ c.snapshot.lastLineBytes = some 0 ∧
      utf8ByteLength (lastLine content) = 6 ∧ ¬Agrees c.snapshot (truncate .tail content 10 4) content := by
  intro chunks c content
  have hbytes : c.snapshot.lastLineBytes = some 0 := by decide
  have hline : utf8ByteLength (lastLine content) = 6 := by decide
  refine ⟨by decide, hbytes, hline, fun h => ?_⟩
  have hsame := h.lastLineBytes (by decide)
  rw [hbytes, hline] at hsame
  cases hsame

end Shuvpi.ShellOutput
