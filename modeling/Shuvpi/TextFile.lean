import Mathlib
import Shuvpi.JsText

/-!
# Text files of lines

A file is a list of bytes. `readTextFile` decodes it the way the platform does when it
is asked for text: a machine that replaces each malformed sequence by U+FFFD, so no file
fails to be read. A file that was cut inside a character therefore still has all the
lines before the cut, and what follows the last line feed has none.
-/
namespace Shuvpi.TextFile

open JsText
open List

/-! ## The decoder -/

/-- Between characters, or inside one: so many bytes are missing, this has been read, and
the next byte lies between the two bounds. -/
inductive State where
  | idle
  | inside (needed value lower upper : Nat)
  deriving DecidableEq, Repr

/-- The first byte of a character. -/
def lead (b : Nat) : List Char × State :=
  if b ≤ 0x7f then ([Char.ofNat b], .idle)
  else if b < 0xc2 then ([replacement], .idle)
  else if b ≤ 0xdf then ([], .inside 1 (b % 32) 0x80 0xbf)
  else if b ≤ 0xef then
    ([], .inside 2 (b % 16) (if b = 0xe0 then 0xa0 else 0x80) (if b = 0xed then 0x9f else 0xbf))
  else if b ≤ 0xf4 then
    ([], .inside 3 (b % 8) (if b = 0xf0 then 0x90 else 0x80) (if b = 0xf4 then 0x8f else 0xbf))
  else ([replacement], .idle)

/-- A byte that cannot continue a character ends it and is read again. -/
def feed : State → Nat → List Char × State
  | .idle, b => lead b
  | .inside needed value lower upper, b =>
    if lower ≤ b ∧ b ≤ upper then
      if needed ≤ 1 then ([Char.ofNat (value * 64 + b % 64)], .idle)
      else ([], .inside (needed - 1) (value * 64 + b % 64) 0x80 0xbf)
    else (replacement :: (lead b).1, (lead b).2)

def decodeFrom : State → Bytes → List Char
  | .idle, [] => []
  | .inside _ _ _ _, [] => [replacement]
  | state, b :: bytes => (feed state b.toNat).1 ++ decodeFrom (feed state b.toNat).2 bytes

/-- `decode` of a text decoder that replaces. -/
def decodeLossy (bytes : Bytes) : List Char := decodeFrom .idle bytes

theorem decodeFrom_cons (state : State) (b : UInt8) (bytes : Bytes) :
    decodeFrom state (b :: bytes) = (feed state b.toNat).1 ++ decodeFrom (feed state b.toNat).2 bytes := by
  cases state <;> rfl

theorem byte_toNat (n : Nat) (h : n < 256) : (UInt8.ofNat n).toNat = n := by
  simp only [UInt8.toNat_ofNat']
  omega

variable {n : Nat} {c : Char}

theorem ofNat_eq (h : n = c.toNat) : Char.ofNat n = c := by
  rw [h, Char.ofNat_toNat]

variable {b : UInt8} (rest : Bytes)

/-- Bytes that complete a character. -/
theorem decode_last {value lower upper : Nat} (hb : b.toNat = n) (hl : lower ≤ n) (hu : n ≤ upper)
    (hc : value * 64 + n % 64 = c.toNat) :
    decodeFrom (.inside 1 value lower upper) (b :: rest) = c :: decodeFrom .idle rest := by
  rw [decodeFrom_cons, hb, feed, if_pos ⟨hl, hu⟩, if_pos (Nat.le_refl _), ofNat_eq hc]
  rfl

theorem decode_inside {needed value lower upper : Nat} (hb : b.toNat = n) (hl : lower ≤ n)
    (hu : n ≤ upper) :
    decodeFrom (.inside (needed + 2) value lower upper) (b :: rest) =
      decodeFrom (.inside (needed + 1) (value * 64 + n % 64) 0x80 0xbf) rest := by
  rw [decodeFrom_cons, hb, feed, if_pos ⟨hl, hu⟩, if_neg (by omega)]
  rfl

variable {state : State}

theorem decode_lead (hb : b.toNat = n) (hlead : lead n = ([], state)) :
    decodeFrom .idle (b :: rest) = decodeFrom state rest := by
  rw [decodeFrom_cons, hb, feed, hlead]
  rfl

/-- A character is read back, whatever follows it. -/
theorem decode_char (c : Char) (rest : Bytes) :
    decodeFrom .idle (String.utf8EncodeChar c ++ rest) = c :: decodeFrom .idle rest := by
  have hr := char_range c
  fun_cases String.utf8EncodeChar c with
  | case1 v h =>
    have hv : v = c.toNat := rfl
    have hb := byte_toNat v (by omega)
    simp only [cons_append, nil_append, decodeFrom_cons, feed, lead, hb, if_pos h]
    rw [ofNat_eq hv]
  | case2 v h₁ h₂ =>
    have hv : v = c.toNat := rfl
    have hb := byte_toNat (v / 64 % 0x20 + 0xc0) (by omega)
    have hb' := byte_toNat (v % 0x40 + 0x80) (by omega)
    have hlead : lead (v / 64 % 0x20 + 0xc0) = ([], .inside 1 ((v / 64 % 0x20 + 0xc0) % 32) 0x80 0xbf) := by
      rw [lead, if_neg (by omega), if_neg (by omega), if_pos (by omega)]
    rw [cons_append, decode_lead _ hb hlead]
    exact decode_last rest hb' (by omega) (by omega) (by omega)
  | case3 v h₁ h₂ h₃ =>
    have hv : v = c.toNat := rfl
    have hb := byte_toNat (v / 4096 % 0x10 + 0xe0) (by omega)
    have hb' := byte_toNat (v / 64 % 0x40 + 0x80) (by omega)
    have hb'' := byte_toNat (v % 0x40 + 0x80) (by omega)
    have hlead : lead (v / 4096 % 0x10 + 0xe0) = ([], .inside 2 ((v / 4096 % 0x10 + 0xe0) % 16)
        (if v / 4096 % 0x10 + 0xe0 = 0xe0 then 0xa0 else 0x80) (if v / 4096 % 0x10 + 0xe0 = 0xed then 0x9f else 0xbf)) := by
      rw [lead, if_neg (by omega), if_neg (by omega), if_neg (by omega), if_pos (by omega)]
    rw [cons_append, decode_lead _ hb hlead, cons_append,
      decode_inside _ hb' (by split <;> omega) (by split <;> omega)]
    exact decode_last rest hb'' (by omega) (by omega) (by omega)
  | case4 v h₁ h₂ h₃ =>
    have hv : v = c.toNat := rfl
    have hb := byte_toNat (v / 262144 % 0x08 + 0xf0) (by omega)
    have hb' := byte_toNat (v / 4096 % 0x40 + 0x80) (by omega)
    have hb'' := byte_toNat (v / 64 % 0x40 + 0x80) (by omega)
    have hb''' := byte_toNat (v % 0x40 + 0x80) (by omega)
    have hlead : lead (v / 262144 % 0x08 + 0xf0) = ([], .inside 3 ((v / 262144 % 0x08 + 0xf0) % 8)
        (if v / 262144 % 0x08 + 0xf0 = 0xf0 then 0x90 else 0x80)
        (if v / 262144 % 0x08 + 0xf0 = 0xf4 then 0x8f else 0xbf)) := by
      rw [lead, if_neg (by omega), if_neg (by omega), if_neg (by omega), if_neg (by omega), if_pos (by omega)]
    rw [cons_append, decode_lead _ hb hlead, cons_append,
      decode_inside _ hb' (by split <;> omega) (by split <;> omega), cons_append,
      decode_inside _ hb'' (by omega) (by omega)]
    exact decode_last rest hb''' (by omega) (by omega) (by omega)

theorem decode_chars (cs : List Char) (rest : Bytes) :
    decodeFrom .idle (cs.flatMap String.utf8EncodeChar ++ rest) = cs ++ decodeFrom .idle rest := by
  induction cs with
  | nil => rfl
  | cons c cs ih => rw [flatMap_cons, append_assoc, decode_char, ih, cons_append]

/-! ## Line feeds -/

def lineFeed : Char := Char.ofNat 10

/-- A character of more than one byte is no line feed, however it goes on. -/
def State.Above : State → Prop
  | .idle => True
  | .inside _ value lower upper => 11 ≤ value * 64 + (lower - 128) ∧ 128 ≤ lower ∧ upper ≤ 191

theorem ofNat_ne_lineFeed (h : n ≠ 10) : Char.ofNat n ≠ lineFeed := by
  intro he
  have hn := congrArg Char.toNat he
  rw [Char.ofNat] at hn
  split at hn
  · exact h hn
  · revert hn
    decide

theorem lead_above {b : Nat} (h : b ≠ 10) : lineFeed ∉ (lead b).1 ∧ (lead b).2.Above := by
  rw [lead]
  split
  · refine ⟨?_, trivial⟩
    simpa using (ofNat_ne_lineFeed h).symm
  · split
    · exact ⟨by decide, trivial⟩
    · split
      · refine ⟨not_mem_nil, ?_⟩
        simp only [State.Above]
        omega
      · split
        · refine ⟨not_mem_nil, ?_⟩
          simp only [State.Above]
          split <;> split <;> omega
        · split
          · refine ⟨not_mem_nil, ?_⟩
            simp only [State.Above]
            split <;> split <;> omega
          · exact ⟨by decide, trivial⟩

theorem feed_above (hs : state.Above) {b : Nat} (h : b ≠ 10) :
    lineFeed ∉ (feed state b).1 ∧ (feed state b).2.Above := by
  cases state with
  | idle => exact lead_above h
  | inside needed value lower upper =>
    obtain ⟨hvalue, hlower, hupper⟩ := hs
    rw [feed]
    split
    · split
      · refine ⟨?_, trivial⟩
        simpa using (ofNat_ne_lineFeed (n := value * 64 + b % 64) (by omega)).symm
      · refine ⟨not_mem_nil, ?_⟩
        simp only [State.Above]
        omega
    · obtain ⟨hout, hnext⟩ := lead_above h
      refine ⟨?_, hnext⟩
      intro hmem
      rcases mem_cons.mp hmem with he | hmem
      · exact absurd he (by decide)
      · exact hout hmem

/-- Only the byte of a line feed is decoded to one. -/
theorem decodeFrom_lineFeed (hs : state.Above) {bytes : Bytes} (h : (10 : UInt8) ∉ bytes) :
    lineFeed ∉ decodeFrom state bytes := by
  induction bytes generalizing state with
  | nil =>
    cases state with
    | idle => exact not_mem_nil
    | inside needed value lower upper =>
      rw [decodeFrom]
      decide
  | cons b bytes ih =>
    obtain ⟨hb, hbytes⟩ := not_or.mp (mt mem_cons.mpr h)
    have hne : b.toNat ≠ 10 := by
      intro he
      exact hb (UInt8.toNat_inj.mp he.symm)
    obtain ⟨hout, hnext⟩ := feed_above hs hne
    rw [decodeFrom_cons, mem_append]
    rintro (hmem | hmem)
    · exact hout hmem
    · exact ih hnext hbytes hmem

/-! ## Texts -/

/-- A string without lone surrogates. -/
def IsText (s : JsString) : Prop := ∃ cs, s = ofScalars cs

theorem IsText.nil : IsText [] := ⟨[], rfl⟩

variable {s : JsString}

theorem IsText.append {t : JsString} (hs : IsText s) (ht : IsText t) : IsText (s ++ t) := by
  obtain ⟨cs, rfl⟩ := hs
  obtain ⟨ds, rfl⟩ := ht
  exact ⟨cs ++ ds, by simp [ofScalars]⟩

theorem toNat_ofNat (h : n.isValidChar) : (Char.ofNat n).toNat = n := by
  rw [Char.ofNat, dif_pos h]
  rfl

/-- A unit that is no surrogate. -/
theorem IsText.unit {u : UInt16} (h : u.toNat < 0xd800 ∨ 0xdfff < u.toNat) : IsText [u] := by
  have hu := u.toNat_lt
  have hval : u.toNat.isValidChar := by
    rw [Nat.isValidChar]
    omega
  refine ⟨[Char.ofNat u.toNat], ?_⟩
  rw [ofScalars, flatMap_cons, codeUnits, toNat_ofNat hval, if_pos (by omega)]
  simp

theorem IsText.pair {u v : UInt16} (hu : isHighSurrogate u = true) (hv : isLowSurrogate v = true) : IsText [u, v] := by
  simp only [isHighSurrogate, isLowSurrogate, Bool.and_eq_true, decide_eq_true_eq] at hu hv
  obtain ⟨a, ha⟩ : ∃ a, u.toNat = 0xd800 + a := ⟨u.toNat - 0xd800, by omega⟩
  obtain ⟨b, hb⟩ : ∃ b, v.toNat = 0xdc00 + b := ⟨v.toNat - 0xdc00, by omega⟩
  have hval : (0x10000 + 0x400 * a + b).isValidChar := .inr ⟨by omega, by omega⟩
  refine ⟨[Char.ofNat (0x10000 + 0x400 * a + b)], ?_⟩
  have hhigh : 0xd800 + (0x10000 + 0x400 * a + b - 0x10000) / 0x400 = u.toNat := by omega
  have hlow : 0xdc00 + (0x10000 + 0x400 * a + b - 0x10000) % 0x400 = v.toNat := by omega
  rw [ofScalars, flatMap_cons, codeUnits, toNat_ofNat hval, if_neg (by omega), hhigh, hlow]
  simp

theorem IsText.units (h : ∀ u ∈ s, u.toNat < 0xd800) : IsText s := by
  induction s with
  | nil => exact .nil
  | cons u s ih =>
    exact (IsText.unit (.inl (h u mem_cons_self))).append (ih fun v hv => h v (mem_cons_of_mem _ hv))

/-- The bytes of a text are read back, whatever follows them. -/
theorem decodeLossy_text (hs : IsText s) (rest : Bytes) :
    ofScalars (decodeLossy (textEncode s ++ rest)) = s ++ ofScalars (decodeLossy rest) := by
  obtain ⟨cs, rfl⟩ := hs
  rw [textEncode, toScalars_ofScalars, decodeLossy, decode_chars]
  simp [ofScalars, decodeLossy]

theorem textEncode_append {t : JsString} (hs : IsText s) (ht : IsText t) :
    textEncode (s ++ t) = textEncode s ++ textEncode t := by
  obtain ⟨cs, rfl⟩ := hs
  obtain ⟨ds, rfl⟩ := ht
  have happend : ofScalars cs ++ ofScalars ds = ofScalars (cs ++ ds) := by simp [ofScalars]
  rw [happend, textEncode, textEncode, textEncode]
  simp

theorem codeUnits_lineFeed (h : (10 : UInt16) ∈ codeUnits c) : c = lineFeed := by
  have hr := char_range c
  rw [codeUnits] at h
  split at h
  · rename_i hlt
    have hn := congrArg UInt16.toNat (mem_singleton.mp h)
    rw [unit_toNat c.toNat hlt] at hn
    exact Char.toNat_inj.mp hn.symm
  · rcases mem_pair.mp h with he | he
    · have hn := congrArg UInt16.toNat he
      rw [unit_toNat _ (by omega)] at hn
      have hten : (10 : UInt16).toNat = 10 := rfl
      omega
    · have hn := congrArg UInt16.toNat he
      rw [unit_toNat _ (by omega)] at hn
      have hten : (10 : UInt16).toNat = 10 := rfl
      omega

theorem ofScalars_lineFeed {cs : List Char} (h : lineFeed ∉ cs) : (10 : UInt16) ∉ ofScalars cs := by
  intro hmem
  obtain ⟨c, hc, hu⟩ := mem_flatMap.mp hmem
  rw [codeUnits_lineFeed hu] at hc
  exact h hc

theorem utf8_byte (h : b ∈ String.utf8EncodeChar c) : b.toNat = c.toNat ∨ 128 ≤ b.toNat := by
  have hr := char_range c
  have hv : c.val.toNat = c.toNat := rfl
  unfold String.utf8EncodeChar at h
  dsimp only at h
  rw [hv] at h
  split at h
  · rw [mem_singleton.mp h, byte_toNat _ (by omega)]
    exact .inl rfl
  · right
    split at h
    · rcases mem_pair.mp h with rfl | rfl
      · rw [byte_toNat _ (by omega)]
        omega
      · rw [byte_toNat _ (by omega)]
        omega
    · split at h
      · simp only [mem_cons, not_mem_nil, or_false] at h
        rcases h with rfl | rfl | rfl
        all_goals
          rw [byte_toNat _ (by omega)]
          omega
      · simp only [mem_cons, not_mem_nil, or_false] at h
        rcases h with rfl | rfl | rfl | rfl
        all_goals
          rw [byte_toNat _ (by omega)]
          omega

/-- The byte of a line feed stands for nothing else. -/
theorem textEncode_lineFeed (hs : IsText s) (h : (10 : UInt16) ∉ s) : (10 : UInt8) ∉ textEncode s := by
  obtain ⟨cs, rfl⟩ := hs
  rw [textEncode, toScalars_ofScalars]
  intro hmem
  obtain ⟨c, hc, hb⟩ := mem_flatMap.mp hmem
  have hten : (10 : UInt8).toNat = 10 := rfl
  rcases utf8_byte hb with he | hge
  · apply h
    apply mem_flatMap.mpr
    refine ⟨c, hc, ?_⟩
    rw [codeUnits, ← he, if_pos (by omega), hten]
    exact mem_singleton.mpr rfl
  · omega

/-! ## Lines -/

/-- `content.split("\n")` of all before the last line feed, and whether something follows it. -/
def splitCompleteLines (content : JsString) : List JsString × Bool :=
  if content.getLast? = some 10 then (content.dropLast.splitOn 10, false)
  else if 10 ∈ content then ((content.rdropWhile (· ≠ 10)).dropLast.splitOn 10, true)
  else ([], true)

/-- Lines, each with its line feed. -/
def joinLines (lines : List JsString) : JsString := lines.flatMap (· ++ [10])

variable {lines : List JsString}

theorem joinLines_eq (h : lines ≠ []) : joinLines lines = [10].intercalate lines ++ [10] := by
  induction lines with
  | nil => exact absurd rfl h
  | cons line lines ih =>
    cases lines with
    | nil => simp [joinLines]
    | cons line' lines =>
      have hrest := ih (by simp)
      rw [joinLines, flatMap_cons]
      rw [joinLines] at hrest
      rw [hrest, intercalate_cons_cons]
      simp

theorem joinLines_isText (h : ∀ line ∈ lines, IsText line) : IsText (joinLines lines) := by
  induction lines with
  | nil => exact .nil
  | cons line lines ih =>
    rw [joinLines, flatMap_cons]
    exact ((h line mem_cons_self).append (.unit (.inl (by decide)))).append
      (ih fun l hl => h l (mem_cons_of_mem _ hl))

/-- Complete lines are found again, and what follows them is torn. -/
theorem splitCompleteLines_join (hne : lines ≠ []) (hlines : ∀ line ∈ lines, (10 : UInt16) ∉ line) {tail : JsString}
    (htail : (10 : UInt16) ∉ tail) :
    splitCompleteLines (joinLines lines ++ tail) = (lines, !tail.isEmpty) := by
  have hsplit := splitOn_intercalate (10 : UInt16) hlines hne
  rw [joinLines_eq hne, splitCompleteLines]
  cases tail with
  | nil =>
    rw [append_nil, if_pos getLast?_concat, dropLast_concat, hsplit]
    rfl
  | cons u tail =>
    have hlast : ([10].intercalate lines ++ [10] ++ u :: tail).getLast? ≠ some 10 := by
      rw [getLast?_append_of_ne_nil _ (by simp)]
      intro he
      exact htail (mem_of_getLast? he)
    have hdrop : rdropWhile (· ≠ (10 : UInt16)) ([10].intercalate lines ++ [10] ++ u :: tail) =
        [10].intercalate lines ++ [10] := by
      rw [rdropWhile, reverse_append, dropWhile_append_of_pos, ← rdropWhile, rdropWhile_concat_neg _ _ _ (by simp)]
      intro v hv
      rw [mem_reverse] at hv
      have hne : v ≠ 10 := fun he => htail (he ▸ hv)
      simpa using hne
    rw [if_neg hlast, if_pos (by simp), hdrop, dropLast_concat, hsplit]
    rfl

/-- Something is decoded to something. -/
theorem decodeFrom_inside (needed value lower upper : Nat) (bytes : Bytes) :
    decodeFrom (.inside needed value lower upper) bytes ≠ [] := by
  induction bytes generalizing needed value lower upper with
  | nil => simp [decodeFrom]
  | cons b bytes ih =>
    rw [decodeFrom_cons, feed]
    split
    · split
      · simp
      · exact ih _ _ _ _
    · simp

theorem decodeLossy_ne_nil {bytes : Bytes} (h : bytes ≠ []) : decodeLossy bytes ≠ [] := by
  cases bytes with
  | nil => exact absurd rfl h
  | cons b bytes =>
    rw [decodeLossy, decodeFrom_cons, feed, lead]
    split
    · simp
    · split
      · simp
      · split
        · exact decodeFrom_inside _ _ _ _ bytes
        · split
          · exact decodeFrom_inside _ _ _ _ bytes
          · split
            · exact decodeFrom_inside _ _ _ _ bytes
            · simp

theorem ofScalars_ne_nil {cs : List Char} (h : cs ≠ []) : ofScalars cs ≠ [] := by
  cases cs with
  | nil => exact absurd rfl h
  | cons c cs =>
    rw [ofScalars, flatMap_cons, codeUnits]
    split <;> simp

def readTextFile (bytes : Bytes) : JsString := ofScalars (decodeLossy bytes)

/-- The lines of a file that was cut after its last line feed. -/
theorem readTextFile_lines (hne : lines ≠ []) (hlines : ∀ line ∈ lines, IsText line ∧ (10 : UInt16) ∉ line)
    {torn : Bytes} (htorn : (10 : UInt8) ∉ torn) :
    splitCompleteLines (readTextFile (textEncode (joinLines lines) ++ torn)) = (lines, !torn.isEmpty) := by
  have htail : (10 : UInt16) ∉ ofScalars (decodeLossy torn) :=
    ofScalars_lineFeed (@decodeFrom_lineFeed .idle trivial _ htorn)
  rw [readTextFile, decodeLossy_text (joinLines_isText fun line hl => (hlines line hl).1),
    splitCompleteLines_join hne (fun line hl => (hlines line hl).2) htail]
  cases torn with
  | nil => rfl
  | cons b torn =>
    have hsome := ofScalars_ne_nil (decodeLossy_ne_nil (cons_ne_nil b torn))
    simp [isEmpty_eq_false_iff.mpr hsome]

end Shuvpi.TextFile
