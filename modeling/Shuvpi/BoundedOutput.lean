import Mathlib.Tactic.Common
import Shuvpi.LongestSuffix

/-!
# Bounded output

`harness/pico3/bounded.ts`: a collector of bytes that keeps a first or a last part of a
stream, within a number of bytes and of newlines, and counts what it drops.
-/
open List

namespace Shuvpi.BoundedOutput

open LongestSuffix (longestSuffix Hereditary)

abbrev Bytes := List UInt8

inductive Retain where
  | head | tail
  deriving DecidableEq, Repr

structure Bounded where
  maxBytes : Nat
  maxLines : Nat
  retain : Retain
  bytes : Bytes
  droppedBytes : Nat
  droppedLines : Nat
  total : Nat
  deriving DecidableEq, Repr

def countNewlines (bytes : Bytes) : Nat := bytes.count 0x0a

/-- The loop of `tailStart` over the bytes from `start` on. -/
def skipLines : Bytes → Nat → Nat → Nat
  | [], start, _ => start
  | byte :: bytes, start, excessLines =>
    if excessLines = 0 then start
    else skipLines bytes (start + 1) (if byte = 0x0a then excessLines - 1 else excessLines)

def tailStart (bytes : Bytes) (maxBytes maxLines : Nat) : Nat :=
  let start := bytes.length - maxBytes
  skipLines (bytes.drop start) start (countNewlines (bytes.drop start) - maxLines)

/-- The loop of `pushHead` over the first `take` bytes of the chunk: those from `i` on. -/
def takeLines (remainingLines take : Nat) : Bytes → Nat → Nat → Nat
  | [], _, _ => take
  | byte :: bytes, i, lines =>
    if byte ≠ 0x0a then takeLines remainingLines take bytes (i + 1) lines
    else if lines + 1 = remainingLines then i + 1
    else takeLines remainingLines take bytes (i + 1) (lines + 1)

namespace Bounded

def new (maxBytes maxLines : Int) (retain : Retain) : Bounded := ⟨maxBytes.toNat, maxLines.toNat, retain, [], 0, 0, 0⟩

def drop (b : Bounded) (bytes : Bytes) : Bounded :=
  { b with
    droppedBytes := b.droppedBytes + bytes.length
    droppedLines := b.droppedLines + countNewlines bytes }

def pushHead (b : Bounded) (chunk : Bytes) : Bounded :=
  let remainingBytes := b.maxBytes - b.bytes.length
  let remainingLines := b.maxLines - countNewlines b.bytes
  if remainingBytes = 0 ∨ remainingLines = 0 then b.drop chunk
  else
    let most := min chunk.length remainingBytes
    let take := takeLines remainingLines most (chunk.take most) 0 0
    { b with bytes := b.bytes ++ chunk.take take }.drop (chunk.drop take)

def pushTail (b : Bounded) (chunk : Bytes) : Bounded :=
  let incomingStart := tailStart chunk b.maxBytes b.maxLines
  let combined := b.bytes ++ chunk.drop incomingStart
  let start := tailStart combined b.maxBytes b.maxLines
  { (b.drop (chunk.take incomingStart)).drop (combined.take start) with bytes := combined.drop start }

def push (b : Bounded) (chunk : Bytes) : Bounded :=
  let b := { b with total := b.total + chunk.length }
  if chunk = [] then b
  else if b.maxBytes = 0 ∨ b.maxLines = 0 then b.drop chunk
  else match b.retain with
    | .head => b.pushHead chunk
    | .tail => b.pushTail chunk

def pushAll (b : Bounded) (chunks : List Bytes) : Bounded := chunks.foldl push b

end Bounded

/-! ## The parts of a stream -/

/-- What a part of the stream may have. -/
def fits (maxBytes maxLines : Nat) (bytes : Bytes) : Bool := bytes.length ≤ maxBytes && countNewlines bytes ≤ maxLines

variable {maxBytes maxLines : Nat}

theorem fits_iff {bytes : Bytes} :
    fits maxBytes maxLines bytes = true ↔ bytes.length ≤ maxBytes ∧ countNewlines bytes ≤ maxLines := by
  rw [fits, Bool.and_eq_true, decide_eq_true_eq, decide_eq_true_eq]

theorem fits_hereditary (maxBytes maxLines : Nat) : Hereditary (fits maxBytes maxLines) := by
  constructor
  · simp [fits, countNewlines]
  · intro s l hs hl
    rw [fits_iff] at hl ⊢
    have hlen := hs.length_le
    have hcount : countNewlines s ≤ countNewlines l := hs.sublist.count_le _
    omega

/-- The longest last part of a stream. -/
def lastPart (maxBytes maxLines : Nat) (stream : Bytes) : Bytes := longestSuffix (fits maxBytes maxLines) stream

/-- A first part has at most so many bytes and ends no later than the last newline it may have. -/
structure FirstPart (maxBytes maxLines : Nat) (stream part : Bytes) : Prop where
  opening : part <+: stream
  size : part.length ≤ maxBytes
  lines : countNewlines part.dropLast < maxLines ∨ part = []

/-- The longest first part of a stream. -/
structure LongestFirstPart (maxBytes maxLines : Nat) (stream part : Bytes) : Prop
    extends FirstPart maxBytes maxLines stream part where
  longest : ∀ other, FirstPart maxBytes maxLines stream other → other <+: part

@[simp] theorem countNewlines_nil : countNewlines [] = 0 := rfl

@[simp] theorem countNewlines_append (a b : Bytes) :
    countNewlines (a ++ b) = countNewlines a + countNewlines b := count_append

theorem countNewlines_cons (byte : UInt8) (bytes : Bytes) :
    countNewlines (byte :: bytes) = countNewlines bytes + if byte = 0x0a then 1 else 0 := by
  rw [countNewlines, count_cons]
  simp [countNewlines]

/-! ## The last part -/

variable (bytes : Bytes)

/-- The loop goes on to just after the newlines that are too many. -/
theorem skipLines_spec (start excess : Nat) (h : excess ≤ countNewlines bytes) :
    ∃ front back, bytes = front ++ back ∧ skipLines bytes start excess = start + front.length ∧
      countNewlines front = excess ∧ ∀ byte ∈ front.getLast?, byte = 0x0a := by
  induction bytes generalizing start excess with
  | nil => exact ⟨[], [], rfl, rfl, (Nat.le_zero.mp h).symm, fun _ h => by cases h⟩
  | cons byte bytes ih =>
    rw [countNewlines_cons] at h
    rw [skipLines]
    split
    · rename_i hzero
      exact ⟨[], byte :: bytes, rfl, rfl, hzero.symm, fun _ h => by cases h⟩
    · rename_i hpos
      by_cases hline : byte = 0x0a
      · rw [if_pos hline] at h ⊢
        obtain ⟨front, back, rfl, hskip, hcount, hlast⟩ := ih (start + 1) (excess - 1) (by omega)
        refine ⟨byte :: front, back, rfl, by rw [hskip, length_cons]; omega, ?_, fun b hb => ?_⟩
        · rw [countNewlines_cons, if_pos hline, hcount]
          omega
        · cases front with
          | nil =>
            obtain rfl : byte = b := Option.some.inj hb
            exact hline
          | cons c front => exact hlast b hb
      · rw [if_neg hline] at h ⊢
        obtain ⟨front, back, rfl, hskip, hcount, hlast⟩ := ih (start + 1) excess h
        refine ⟨byte :: front, back, rfl, by rw [hskip, length_cons]; omega, ?_, fun b hb => ?_⟩
        · rw [countNewlines_cons, if_neg hline, hcount, Nat.add_zero]
        · cases front with
          | nil => exact absurd hcount.symm hpos
          | cons c front => exact hlast b hb

/-- The last bytes of a list, without those up to the last newline that is too many. -/
theorem tailStart_split (maxBytes maxLines : Nat) : ∃ front, bytes.drop (bytes.length - maxBytes) =
        front ++ bytes.drop (tailStart bytes maxBytes maxLines) ∧
      tailStart bytes maxBytes maxLines = bytes.length - maxBytes + front.length ∧
      countNewlines front = countNewlines (bytes.drop (bytes.length - maxBytes)) - maxLines ∧
      ∀ byte ∈ front.getLast?, byte = 0x0a := by
  obtain ⟨front, back, hsplit, hskip, hcount, hlast⟩ := skipLines_spec
    (bytes.drop (bytes.length - maxBytes)) (bytes.length - maxBytes)
    (countNewlines (bytes.drop (bytes.length - maxBytes)) - maxLines) (Nat.sub_le _ _)
  have hback : bytes.drop (tailStart bytes maxBytes maxLines) = back := by
    rw [tailStart, hskip, ← drop_drop, hsplit, drop_left]
  exact ⟨front, by rw [hback, hsplit], hskip, hcount, hlast⟩

/-- `tailStart` is where the longest last part begins. -/
theorem drop_tailStart (maxBytes maxLines : Nat) :
    bytes.drop (tailStart bytes maxBytes maxLines) = lastPart maxBytes maxLines bytes := by
  obtain ⟨front, hsplit, -, hcount, hlast⟩ := tailStart_split bytes maxBytes maxLines
  generalize hback : bytes.drop (tailStart bytes maxBytes maxLines) = back at hsplit
  have hlines := congrArg countNewlines hsplit
  have hlen := congrArg length hsplit
  rw [length_drop, length_append] at hlen
  rw [countNewlines_append] at hlines
  have hwhole : bytes = (bytes.take (bytes.length - maxBytes) ++ front) ++ back := by
    rw [append_assoc, ← hsplit, take_append_drop]
  have hfits : fits maxBytes maxLines back = true := fits_iff.mpr (by omega)
  rw [lastPart, hwhole, LongestSuffix.longestSuffix_eq (fits_hereditary _ _) hfits]
  intro byte hbyte
  rw [Bool.eq_false_iff, ne_eq, fits_iff, countNewlines_cons, length_cons]
  rcases eq_nil_or_concat front with rfl | ⟨front, a, rfl⟩
  · rw [append_nil] at hbyte
    have hlong : 0 < bytes.length - maxBytes := by
      by_contra hnot
      rw [Nat.eq_zero_of_not_pos hnot] at hbyte
      cases hbyte
    rw [length_nil] at hlen
    omega
  · rw [concat_eq_append] at hbyte hlast hcount hlines
    have hline : byte = 0x0a := hlast byte (by simpa using hbyte)
    have hpos : 0 < countNewlines (front ++ [a]) := by
      have ha : a = 0x0a := hlast a (by simp)
      rw [countNewlines_append, countNewlines_cons, if_pos ha]
      omega
    rw [if_pos hline]
    omega

/-- The newlines of a chunk, among its last bytes, are too many. -/
def LineTrimmed (maxBytes maxLines : Nat) (chunk : Bytes) : Prop :=
  maxLines < countNewlines (chunk.drop (chunk.length - maxBytes))

/-- Such a chunk is cut just after a newline. -/
theorem LineTrimmed.cut {chunk : Bytes} (h : LineTrimmed maxBytes maxLines chunk) :
    ∃ front, chunk = front ++ 0x0a :: lastPart maxBytes maxLines chunk ∧
      (lastPart maxBytes maxLines chunk).length < maxBytes ∧
      countNewlines (lastPart maxBytes maxLines chunk) = maxLines := by
  obtain ⟨front, hsplit, -, hcount, hlast⟩ := tailStart_split chunk maxBytes maxLines
  rw [drop_tailStart] at hsplit
  have hlines := congrArg countNewlines hsplit
  have hlen := congrArg length hsplit
  rw [length_drop, length_append] at hlen
  rw [countNewlines_append] at hlines
  rw [LineTrimmed] at h
  rcases eq_nil_or_concat front with rfl | ⟨front, a, rfl⟩
  · rw [countNewlines_nil] at hcount
    omega
  · rw [concat_eq_append] at *
    obtain rfl : a = 0x0a := hlast a (by simp)
    rw [length_append, length_singleton] at hlen
    refine ⟨chunk.take (chunk.length - maxBytes) ++ front, ?_, by omega, by omega⟩
    have hwhole := take_append_drop (chunk.length - maxBytes) chunk
    rw [hsplit] at hwhole
    simpa using hwhole.symm

theorem lastPart_not_trimmed {chunk : Bytes}
    (h : ¬LineTrimmed maxBytes maxLines chunk) :
    lastPart maxBytes maxLines chunk = chunk.drop (chunk.length - maxBytes) := by
  obtain ⟨front, hsplit, hstart, hcount, hlast⟩ := tailStart_split chunk maxBytes maxLines
  rw [drop_tailStart] at hsplit
  rw [LineTrimmed] at h
  rcases eq_nil_or_concat front with rfl | ⟨front, a, rfl⟩
  · exact hsplit.symm
  · rw [concat_eq_append] at hlast hcount
    obtain rfl : a = 0x0a := hlast a (by simp)
    rw [countNewlines_append, countNewlines_cons, if_pos rfl] at hcount
    omega

/-! ## One push -/

namespace Bounded

/-- A chunk whose newlines are too many is pushed to a collector that holds nothing, or whole
lines. -/
def Joins (b : Bounded) (chunk : Bytes) : Prop :=
  ¬LineTrimmed b.maxBytes b.maxLines chunk ∨ b.bytes = [] ∨ b.bytes.getLast? = some 0x0a

theorem lastPart_push {b : Bounded} {stream chunk : Bytes}
    (h : b.bytes = lastPart b.maxBytes b.maxLines stream) (hjoins : b.Joins chunk) :
    lastPart b.maxBytes b.maxLines (b.bytes ++ lastPart b.maxBytes b.maxLines chunk) =
      lastPart b.maxBytes b.maxLines (stream ++ chunk) := by
  have hhered := fits_hereditary b.maxBytes b.maxLines
  cases hfits : fits b.maxBytes b.maxLines chunk with
  | true =>
    rw [lastPart, lastPart, lastPart, LongestSuffix.longestSuffix_of_fits hfits, h]
    exact LongestSuffix.longestSuffix_append hhered stream chunk
  | false =>
    have hright : lastPart b.maxBytes b.maxLines (stream ++ chunk) = lastPart b.maxBytes b.maxLines chunk :=
      LongestSuffix.longestSuffix_append_right hhered stream hfits
    rw [hright]
    refine LongestSuffix.longestSuffix_eq hhered (LongestSuffix.longestSuffix_fits hhered chunk)
      fun byte hbyte => ?_
    rw [Bool.eq_false_iff, ne_eq, fits_iff, length_cons, countNewlines_cons]
    by_cases htrim : LineTrimmed b.maxBytes b.maxLines chunk
    · obtain ⟨front, -, -, hcount⟩ := htrim.cut
      rcases hjoins with hnot | hnil | hline
      · exact absurd htrim hnot
      · rw [hnil] at hbyte
        cases hbyte
      · obtain rfl : (0x0a : UInt8) = byte := Option.some.inj (hline.symm.trans hbyte)
        rw [if_pos rfl]
        omega
    · have hwin := lastPart_not_trimmed htrim
      rw [Bool.eq_false_iff, ne_eq, fits_iff] at hfits
      rw [LineTrimmed] at htrim
      have hlen : (lastPart b.maxBytes b.maxLines chunk).length = b.maxBytes := by
        rw [hwin, length_drop]
        by_contra hne
        have hall : chunk.length - b.maxBytes = 0 := by omega
        rw [hall, drop_zero] at htrim
        omega
      omega

/-- Otherwise the byte before the cut is lost, and another one stands in its place. -/
theorem not_suffix_push {b : Bounded} {stream chunk : Bytes} (hjoins : ¬b.Joins chunk) :
    ¬lastPart b.maxBytes b.maxLines (b.bytes ++ lastPart b.maxBytes b.maxLines chunk) <:+ stream ++ chunk := by
  intro hsuffix
  rw [Joins, not_or, not_or, not_not] at hjoins
  obtain ⟨htrim, hne, hline⟩ := hjoins
  obtain ⟨front, hchunk, hsize, hcount⟩ := htrim.cut
  rcases eq_nil_or_concat b.bytes with hnil | ⟨bytes, a, hbytes⟩
  · exact hne hnil
  · rw [concat_eq_append] at hbytes
    have ha : a ≠ 0x0a := fun he => hline (by rw [hbytes, he, getLast?_concat])
    have hfits : fits b.maxBytes b.maxLines (a :: lastPart b.maxBytes b.maxLines chunk) = true := by
      rw [fits_iff, length_cons, countNewlines_cons, if_neg ha]
      omega
    have hpart : a :: lastPart b.maxBytes b.maxLines chunk <:+
        b.bytes ++ lastPart b.maxBytes b.maxLines chunk := ⟨bytes, by simp [hbytes]⟩
    have hlong := (LongestSuffix.suffix_longestSuffix hpart hfits).trans hsuffix
    have hcut : 0x0a :: lastPart b.maxBytes b.maxLines chunk <:+ stream ++ chunk :=
      ⟨stream ++ front, by rw [append_assoc, ← hchunk]⟩
    have hsame := suffix_of_suffix_length_le hlong hcut (by simp)
    have heq := hsame.eq_of_length (by simp)
    exact ha (cons.inj heq).1

/-- What a collector keeps and counts of a stream. -/
structure Retains (b : Bounded) (stream : Bytes) : Prop where
  head : b.retain = .head → LongestFirstPart b.maxBytes b.maxLines stream b.bytes
  tail : b.retain = .tail → b.bytes <:+ stream ∧ b.bytes.length ≤ b.maxBytes ∧ countNewlines b.bytes ≤ b.maxLines
  droppedBytes : b.droppedBytes + b.bytes.length = stream.length
  droppedLines : b.droppedLines + countNewlines b.bytes = countNewlines stream

/-- In head mode a first part is kept, and it is all or can take no more; in tail mode the
longest last part is kept. -/
structure Kept (b : Bounded) (stream : Bytes) : Prop where
  part : b.retain = .head → FirstPart b.maxBytes b.maxLines stream b.bytes
  full : b.retain = .head → b.bytes = stream ∨ b.maxBytes ≤ b.bytes.length ∨ b.maxLines ≤ countNewlines b.bytes
  last : b.retain = .tail → b.bytes = lastPart b.maxBytes b.maxLines stream
  droppedBytes : b.droppedBytes + b.bytes.length = stream.length
  droppedLines : b.droppedLines + countNewlines b.bytes = countNewlines stream

theorem Kept.retains {b : Bounded} {stream : Bytes} (h : b.Kept stream) : b.Retains stream := by
  refine ⟨fun hhead => ⟨h.part hhead, fun other hother => ?_⟩, fun htail => ?_, h.droppedBytes, h.droppedLines⟩
  · rcases prefix_or_prefix_of_prefix hother.opening (h.part hhead).opening with hle | hle
    · exact hle
    · obtain ⟨rest, rfl⟩ := hle
      cases rest with
      | nil => rw [append_nil]
      | cons byte rest =>
        have hsize := hother.size
        rw [length_append, length_cons] at hsize
        rcases h.full hhead with hall | hbytes | hlines
        · have hlen := hother.opening.length_le
          rw [length_append, length_cons, hall] at hlen
          omega
        · omega
        · have hcount := hother.lines
          simp at hcount
          omega
  · rw [h.last htail]
    have hfits := fits_iff.mp (LongestSuffix.longestSuffix_fits (fits_hereditary b.maxBytes b.maxLines) stream)
    exact ⟨LongestSuffix.longestSuffix_suffix _ stream, hfits⟩

/-- The loop of `pushHead` stops after the last newline that there is room for. -/
theorem takeLines_spec (remainingLines : Nat) (bytes : Bytes) (i lines : Nat) (h : lines < remainingLines) :
    ∃ front back, bytes = front ++ back ∧
      takeLines remainingLines (i + bytes.length) bytes i lines = i + front.length ∧
      (lines + countNewlines front.dropLast < remainingLines) ∧
      (back = [] ∨ lines + countNewlines front = remainingLines) ∧ (front = [] → bytes = []) := by
  induction bytes generalizing i lines with
  | nil => exact ⟨[], [], rfl, rfl, h, .inl rfl, fun _ => rfl⟩
  | cons byte bytes ih =>
    have htake : i + (byte :: bytes).length = (i + 1) + bytes.length := by
      rw [length_cons]
      omega
    have hdrop : ∀ front : Bytes, (byte :: front).dropLast = byte :: front.dropLast ∨
        front = [] ∧ (byte :: front).dropLast = [] := fun front => by
      cases front with
      | nil => exact .inr ⟨rfl, rfl⟩
      | cons c front => exact .inl rfl
    rw [takeLines, htake]
    by_cases hline : byte = 0x0a
    · rw [if_neg (not_not.mpr hline)]
      split
      · rename_i hlast
        refine ⟨[byte], bytes, rfl, rfl, by simpa using h, .inr ?_, fun h => by cases h⟩
        rw [countNewlines_cons, if_pos hline, countNewlines_nil]
        omega
      · obtain ⟨front, back, rfl, htakes, hbef, hafter, -⟩ := ih (i + 1) (lines + 1) (by omega)
        refine ⟨byte :: front, back, rfl, by rw [htakes, length_cons]; omega, ?_, ?_, fun h => by cases h⟩
        · rcases hdrop front with hd | ⟨-, hd⟩
          · rw [hd, countNewlines_cons, if_pos hline]
            omega
          · rw [hd, countNewlines_nil]
            omega
        · rw [countNewlines_cons, if_pos hline]
          exact hafter.imp_right fun h => by omega
    · rw [if_pos hline]
      obtain ⟨front, back, rfl, htakes, hbef, hafter, -⟩ := ih (i + 1) lines h
      refine ⟨byte :: front, back, rfl, by rw [htakes, length_cons]; omega, ?_, ?_, fun h => by cases h⟩
      · rcases hdrop front with hd | ⟨-, hd⟩
        · rw [hd, countNewlines_cons, if_neg hline]
          omega
        · rw [hd, countNewlines_nil]
          omega
      · rw [countNewlines_cons, if_neg hline]
        exact hafter

theorem Kept.pushHead {b : Bounded} {stream chunk : Bytes} (h : b.Kept stream) (hhead : b.retain = .head)
    (hchunk : chunk ≠ []) : (b.pushHead chunk).Kept (stream ++ chunk) := by
  have hpart := h.part hhead
  have hbytes := h.droppedBytes
  have hlines := h.droppedLines
  rw [Bounded.pushHead]
  dsimp only
  split
  · rename_i hfull
    refine ⟨fun _ => ⟨hpart.opening.trans (prefix_append _ _), hpart.size, hpart.lines⟩,
      fun _ => .inr (by simp only [drop]; omega), fun htail => ?_, ?_, ?_⟩
    · have htail : b.retain = .tail := htail
      rw [hhead] at htail
      cases htail
    · simp only [drop, length_append]
      omega
    · simp only [drop, countNewlines_append]
      omega
  · rename_i hroom
    have hall : b.bytes = stream := by
      rcases h.full hhead with hall | hsize | hcount
      · exact hall
      · omega
      · omega
    obtain ⟨front, back, hsplit, htake, hbef, hafter, hnil⟩ := takeLines_spec
      (b.maxLines - countNewlines b.bytes) (chunk.take (min chunk.length (b.maxBytes - b.bytes.length))) 0 0
      (by omega)
    have hmost : 0 + (chunk.take (min chunk.length (b.maxBytes - b.bytes.length))).length =
        min chunk.length (b.maxBytes - b.bytes.length) := by
      rw [length_take]
      omega
    rw [hmost, Nat.zero_add] at htake
    rw [htake]
    have hlen := congrArg length hsplit
    rw [length_take, length_append] at hlen
    have hfront : chunk.take front.length = front := by
      have htaken := congrArg (take front.length) hsplit
      rw [take_take, take_left] at htaken
      rwa [min_eq_left (by omega)] at htaken
    have hne : front ≠ [] := fun he => by
      have hempty := hnil he
      have := congrArg length hempty
      rw [length_take, length_nil] at this
      have hpos := length_pos_of_ne_nil hchunk
      omega
    have hlast : (b.bytes ++ front).dropLast = b.bytes ++ front.dropLast := dropLast_append_of_ne_nil hne
    rw [hfront]
    have hwhole := take_append_drop front.length chunk
    rw [hfront] at hwhole
    refine ⟨fun _ => ⟨?_, ?_, .inl ?_⟩, fun _ => ?_, fun htail => ?_, ?_, ?_⟩
    · rw [drop, hall]
      exact (prefix_append_right_inj stream).mpr ⟨_, hwhole⟩
    · simp only [drop, length_append]
      omega
    · simp only [drop, hlast, countNewlines_append]
      omega
    · simp only [drop, length_append, countNewlines_append]
      rcases hafter with rfl | hcount
      · rw [append_nil] at hsplit
        rcases Nat.lt_or_ge (b.maxBytes - b.bytes.length) chunk.length with hlt | hge
        · rw [length_nil] at hlen
          omega
        · rw [take_of_length_le (by omega)] at hsplit
          exact .inl (by rw [hall, hsplit])
      · exact .inr (.inr (by omega))
    · have htail : b.retain = .tail := htail
      rw [hhead] at htail
      cases htail
    · have := congrArg length hwhole
      rw [length_append] at this
      simp only [drop, length_append]
      omega
    · have := congrArg countNewlines hwhole
      rw [countNewlines_append] at this
      simp only [drop, countNewlines_append]
      omega

variable (b : Bounded)

variable (chunk : Bytes)

theorem pushTail_bytes : (b.pushTail chunk).bytes =
    lastPart b.maxBytes b.maxLines (b.bytes ++ lastPart b.maxBytes b.maxLines chunk) := by
  rw [pushTail]
  rw [drop_tailStart, drop_tailStart]

theorem Kept.pushTail {b : Bounded} {stream chunk : Bytes} (h : b.Kept stream) (htail : b.retain = .tail)
    (hjoins : b.Joins chunk) : (b.pushTail chunk).Kept (stream ++ chunk) := by
  have hbytes := h.droppedBytes
  have hlines := h.droppedLines
  have hchunk := take_append_drop (tailStart chunk b.maxBytes b.maxLines) chunk
  have hcombined := take_append_drop (tailStart (b.bytes ++ chunk.drop (tailStart chunk b.maxBytes
    b.maxLines)) b.maxBytes b.maxLines) (b.bytes ++ chunk.drop (tailStart chunk b.maxBytes b.maxLines))
  refine ⟨fun hhead => ?_, fun hhead => ?_, fun _ => ?_, ?_, ?_⟩
  · have hhead : b.retain = .head := hhead
    rw [htail] at hhead
    cases hhead
  · have hhead : b.retain = .head := hhead
    rw [htail] at hhead
    cases hhead
  · rw [pushTail_bytes]
    exact lastPart_push (h.last htail) hjoins
  · have h₁ := congrArg length hchunk
    have h₂ := congrArg length hcombined
    simp only [length_append] at h₁ h₂
    simp only [Bounded.pushTail, drop, length_append]
    omega
  · have h₁ := congrArg countNewlines hchunk
    have h₂ := congrArg countNewlines hcombined
    simp only [countNewlines_append] at h₁ h₂
    simp only [Bounded.pushTail, drop, countNewlines_append]
    omega

section Push
variable {b : Bounded} {stream chunk : Bytes}

theorem push_head (hret : b.retain = .head) (hbytes : 0 < b.maxBytes) (hlines : 0 < b.maxLines)
    (hchunk : chunk ≠ []) :
    b.push chunk = Bounded.pushHead { b with total := b.total + chunk.length } chunk := by
  rw [push]
  dsimp only
  rw [if_neg hchunk, if_neg (by omega), hret]

theorem push_tail (hret : b.retain = .tail) (hbytes : 0 < b.maxBytes) (hlines : 0 < b.maxLines)
    (hchunk : chunk ≠ []) :
    b.push chunk = Bounded.pushTail { b with total := b.total + chunk.length } chunk := by
  rw [push]
  dsimp only
  rw [if_neg hchunk, if_neg (by omega), hret]

theorem Kept.push (h : b.Kept stream) (hbytes : 0 < b.maxBytes) (hlines : 0 < b.maxLines)
    (hjoins : b.retain = .tail → b.Joins chunk) : (b.push chunk).Kept (stream ++ chunk) := by
  have hcounted : Kept { b with total := b.total + chunk.length } stream :=
    ⟨h.part, h.full, h.last, h.droppedBytes, h.droppedLines⟩
  by_cases hchunk : chunk = []
  · subst hchunk
    rw [append_nil]
    exact hcounted
  · cases hret : b.retain with
    | head =>
      rw [push_head hret hbytes hlines hchunk]
      exact hcounted.pushHead hret hchunk
    | tail =>
      rw [push_tail hret hbytes hlines hchunk]
      exact hcounted.pushTail hret (hjoins hret)

theorem push_joins (hret : b.retain = .tail) (hbytes : 0 < b.maxBytes) (hlines : 0 < b.maxLines)
    (h : (b.push chunk).bytes <:+ stream ++ chunk) : b.Joins chunk := by
  by_contra hjoins
  have hchunk : chunk ≠ [] := by
    rintro rfl
    exact hjoins (.inl (by rw [LineTrimmed, drop_nil, countNewlines_nil]; omega))
  rw [push_tail hret hbytes hlines hchunk, pushTail_bytes] at h
  exact not_suffix_push hjoins h

end Push

/-! ## Runs -/

@[simp] theorem push_limits : (b.push chunk).maxBytes = b.maxBytes ∧
    (b.push chunk).maxLines = b.maxLines ∧ (b.push chunk).retain = b.retain := by
  rw [push]
  split
  · exact ⟨rfl, rfl, rfl⟩
  · split
    · exact ⟨rfl, rfl, rfl⟩
    · split
      · rw [Bounded.pushHead]
        split
        · exact ⟨rfl, rfl, rfl⟩
        · exact ⟨rfl, rfl, rfl⟩
      · exact ⟨rfl, rfl, rfl⟩

variable (chunks : List Bytes)

theorem pushAll_limits : (b.pushAll chunks).maxBytes = b.maxBytes ∧
    (b.pushAll chunks).maxLines = b.maxLines ∧ (b.pushAll chunks).retain = b.retain := by
  induction chunks generalizing b with
  | nil => exact ⟨rfl, rfl, rfl⟩
  | cons chunk chunks ih =>
    obtain ⟨h₁, h₂, h₃⟩ := ih (b.push chunk)
    obtain ⟨h₄, h₅, h₆⟩ := push_limits b chunk
    exact ⟨h₁.trans h₄, h₂.trans h₅, h₃.trans h₆⟩

theorem pushAll_concat :
    b.pushAll (chunks ++ [chunk]) = (b.pushAll chunks).push chunk := by
  rw [pushAll, foldl_append]
  rfl

theorem new_kept (maxBytes maxLines : Int) (retain : Retain) : (new maxBytes maxLines retain).Kept [] :=
  ⟨fun _ => ⟨prefix_rfl, Nat.zero_le _, .inr rfl⟩, fun _ => .inl rfl, fun _ => rfl, rfl, rfl⟩

/-- The collector after the first `k` chunks. -/
def after (maxBytes maxLines : Int) (retain : Retain) (chunks : List Bytes) (k : Nat) : Bounded :=
  (new maxBytes maxLines retain).pushAll (chunks.take k)

/-- After every push the collector retains what it should, if and only if, in tail mode, every
chunk whose newlines are too many came when it held nothing or whole lines; and then what it
holds depends on the stream only. -/
theorem pushAll_retains (maxBytes maxLines : Int) (hbytes : 1 ≤ maxBytes) (hlines : 1 ≤ maxLines)
    (retain : Retain) (chunks : List Bytes) :
    ((∀ k ≤ chunks.length, (after maxBytes maxLines retain chunks k).Retains (chunks.take k).flatten) ↔
      (retain = .tail → ∀ k chunk, chunks[k]? = some chunk → (after maxBytes maxLines retain chunks k).Joins chunk)) ∧
    ((retain = .tail → ∀ k chunk, chunks[k]? = some chunk →
        (after maxBytes maxLines retain chunks k).Joins chunk) → retain = .tail →
      ∀ k ≤ chunks.length, (after maxBytes maxLines retain chunks k).bytes =
        lastPart maxBytes.toNat maxLines.toNat (chunks.take k).flatten) := by
  have hlimits := fun k => pushAll_limits (new maxBytes maxLines retain) (chunks.take k)
  have hnext : ∀ k (hk : k < chunks.length), after maxBytes maxLines retain chunks (k + 1) =
      (after maxBytes maxLines retain chunks k).push chunks[k] ∧
      (chunks.take (k + 1)).flatten = (chunks.take k).flatten ++ chunks[k] := fun k hk => by
    have htake : chunks.take (k + 1) = chunks.take k ++ [chunks[k]] := (List.take_append_getElem hk).symm
    exact ⟨by rw [after, htake, pushAll_concat]; rfl, by rw [htake, List.flatten_append]; simp⟩
  have hpos : ∀ k, 0 < (after maxBytes maxLines retain chunks k).maxBytes ∧
      0 < (after maxBytes maxLines retain chunks k).maxLines := fun k => by
    rw [after, (hlimits k).1, (hlimits k).2.1, new]
    dsimp only
    omega
  have hkept : (retain = .tail → ∀ k chunk, chunks[k]? = some chunk →
      (after maxBytes maxLines retain chunks k).Joins chunk) → ∀ k ≤ chunks.length,
        (after maxBytes maxLines retain chunks k).Kept (chunks.take k).flatten := by
    intro hjoins k
    induction k with
    | zero => exact fun _ => new_kept maxBytes maxLines retain
    | succ k ih =>
      intro hk
      obtain ⟨hafter, hstream⟩ := hnext k hk
      rw [hafter, hstream]
      refine (ih (by omega)).push (hpos k).1 (hpos k).2 fun htail => ?_
      rw [after, (hlimits k).2.2] at htail
      exact hjoins htail k _ (List.getElem?_eq_getElem hk)
  refine ⟨⟨fun hretains htail k chunk hchunk => ?_, fun hjoins k hk => (hkept hjoins k hk).retains⟩,
    fun hjoins htail k hk => ?_⟩
  · obtain ⟨hk, rfl⟩ := List.getElem?_eq_some_iff.mp hchunk
    have hmode : (after maxBytes maxLines retain chunks k).retain = .tail := (hlimits k).2.2.trans htail
    obtain ⟨hafter, hstream⟩ := hnext k hk
    have hretained := hretains (k + 1) hk
    rw [hafter, hstream] at hretained
    have hmode' : ((after maxBytes maxLines retain chunks k).push chunks[k]).retain = .tail :=
      (push_limits _ _).2.2.trans hmode
    exact push_joins hmode (hpos k).1 (hpos k).2 (hretained.tail hmode').1
  · have hmode : (after maxBytes maxLines retain chunks k).retain = .tail := (hlimits k).2.2.trans htail
    rw [(hkept hjoins k hk).last hmode]
    have h₁ : (after maxBytes maxLines retain chunks k).maxBytes = maxBytes.toNat := (hlimits k).1
    have h₂ : (after maxBytes maxLines retain chunks k).maxLines = maxLines.toNat := (hlimits k).2.1
    rw [h₁, h₂]

/-- Two lines in one chunk, after a whole line. -/
theorem pushAll_retains_lines : (after 100 1 .tail [[97, 0x0a], [120, 0x0a, 121, 0x0a]] 2).bytes = [121, 0x0a] := by
  have hjoins : Retain.tail = .tail → ∀ k chunk,
      ([[97, 0x0a], [120, 0x0a, 121, 0x0a]] : List Bytes)[k]? = some chunk →
        (after 100 1 .tail [[97, 0x0a], [120, 0x0a, 121, 0x0a]] k).Joins chunk := by
    intro _ k chunk hchunk
    match k, hchunk with
    | 0, h => exact .inr (.inl rfl)
    | 1, h => exact .inr (.inr rfl)
  exact ((pushAll_retains 100 1 (by decide) (by decide) .tail _).2 hjoins rfl 2 (by decide)).trans rfl

/-- The bytes `ab` and then two lines, of which one may stay: what is kept is `aby` and the
newline, which the stream `abx`, newline, `y`, newline does not end with. -/
theorem pushTail_gap : (after 100 1 .tail [[97, 98], [120, 0x0a, 121, 0x0a]] 2).bytes = [97, 98, 121, 0x0a] ∧
    ¬(after 100 1 .tail [[97, 98], [120, 0x0a, 121, 0x0a]] 2).bytes <:+
      ([[97, 98], [120, 0x0a, 121, 0x0a]] : List Bytes).flatten := by
  refine ⟨by decide, ?_⟩
  decide

end Bounded

end Shuvpi.BoundedOutput
