import Shuvpi.LongestSuffix
import Shuvpi.TextFile

/-!
# Text read in pieces

A text decoder that is given its bytes in chunks, also inside characters, and the cuts of
encoded text that move to the next or the last boundary of characters.
-/
namespace Shuvpi.TextDecoder

open JsText TextFile
open LongestSuffix (longestSuffix Hereditary)
open List

/-- The bytes of a text that is given as its characters. -/
def encode (cs : List Char) : Bytes := cs.flatMap String.utf8EncodeChar

/-! ## The decoder -/

def byteOrderMark : Char := Char.ofNat 0xfeff

structure Decoder where
  state : State
  bomSeen : Bool
  deriving DecidableEq, Repr

def Decoder.new : Decoder := ⟨.idle, false⟩

def feedAll : State → Bytes → List Char × State
  | state, [] => ([], state)
  | state, b :: bytes =>
    let next := feed state b.toNat
    let rest := feedAll next.2 bytes
    (next.1 ++ rest.1, rest.2)

/-- What an unfinished character becomes at the end. -/
def finish : State → List Char
  | .idle => []
  | .inside _ _ _ _ => [replacement]

/-- The first character of all is left out when it is a byte order mark. -/
def stripMark : List Char → List Char
  | [] => []
  | c :: cs => if c = byteOrderMark then cs else c :: cs

def Decoder.output (d : Decoder) (cs : List Char) : List Char := if d.bomSeen then cs else stripMark cs

/-- `decoder.decode(bytes, { stream: true })`. -/
def Decoder.decode (d : Decoder) (bytes : Bytes) : List Char × Decoder :=
  let next := feedAll d.state bytes
  (d.output next.1, ⟨next.2, d.bomSeen || !next.1.isEmpty⟩)

/-- `decoder.decode()`. -/
def Decoder.flush (d : Decoder) : List Char × Decoder := (d.output (finish d.state), .new)

/-- `new TextDecoder().decode(bytes)`. -/
def decodeText (bytes : Bytes) : List Char := stripMark (decodeLossy bytes)

theorem feedAll_append (state : State) (a b : Bytes) : feedAll state (a ++ b) =
    ((feedAll state a).1 ++ (feedAll (feedAll state a).2 b).1, (feedAll (feedAll state a).2 b).2) := by
  induction a generalizing state with
  | nil => rfl
  | cons byte a ih =>
    simp only [cons_append, feedAll, ih, append_assoc]

theorem decodeFrom_eq (state : State) (bytes : Bytes) :
    decodeFrom state bytes = (feedAll state bytes).1 ++ finish (feedAll state bytes).2 := by
  induction bytes generalizing state with
  | nil => cases state <;> rfl
  | cons b bytes ih => rw [decodeFrom_cons, ih, feedAll, append_assoc]

/-- What a decoder has read and given out. -/
structure Reads (d : Decoder) (bytes : Bytes) (out : List Char) : Prop where
  state : d.state = (feedAll .idle bytes).2
  bomSeen : d.bomSeen = !(feedAll .idle bytes).1.isEmpty
  out : out = stripMark (feedAll .idle bytes).1

theorem reads_new : Reads .new [] [] := ⟨rfl, rfl, rfl⟩

variable {d : Decoder} {bytes : Bytes} {out : List Char} (h : Reads d bytes out)
include h

theorem Reads.output (cs : List Char) :
    out ++ d.output cs = stripMark ((feedAll .idle bytes).1 ++ cs) := by
  rw [h.out, Decoder.output, h.bomSeen]
  cases (feedAll .idle bytes).1 with
  | nil => rfl
  | cons c ds =>
    rw [cons_append, stripMark, stripMark]
    split <;> simp

theorem Reads.decode (chunk : Bytes) :
    Reads (d.decode chunk).2 (bytes ++ chunk) (out ++ (d.decode chunk).1) := by
  have hall := feedAll_append .idle bytes chunk
  rw [← h.state] at hall
  refine ⟨by rw [hall]; rfl, ?_, ?_⟩
  · rw [hall, Decoder.decode, h.bomSeen]
    cases (feedAll .idle bytes).1 <;> simp
  · rw [hall, Decoder.decode, h.output]

theorem Reads.flush :
    out ++ d.flush.1 = decodeText bytes := by
  rw [Decoder.flush, h.output, h.state, decodeText, decodeLossy, decodeFrom_eq]

omit h

theorem decodeLossy_encode (cs : List Char) : decodeLossy (encode cs) = cs := by
  have h := decode_chars cs []
  rw [append_nil] at h
  rw [decodeLossy, encode, h]
  simp [decodeFrom]

/-! ## Cuts -/

def isContinuation (b : UInt8) : Bool := b &&& 0xc0 == 0x80

/-- The last bytes from the first that begins a character on. -/
def lastBytes (maxBytes : Nat) (bytes : Bytes) : Bytes :=
  (bytes.drop (bytes.length - maxBytes)).dropWhile isContinuation

/-- The loop that moves the end of the first bytes back to where a character begins. -/
def endOf (bytes : Bytes) : Nat → Nat
  | 0 => 0
  | n + 1 => if isContinuation (bytes.getD (n + 1) 0) then endOf bytes n else n + 1

def firstBytes (maxBytes : Nat) (bytes : Bytes) : Bytes := bytes.take (endOf bytes maxBytes)

theorem isContinuation_ofBitVec : ∀ v : BitVec 8,
    isContinuation (UInt8.ofBitVec v) = true ↔ 0x80 ≤ v.toNat ∧ v.toNat < 0xc0 := by decide

theorem isContinuation_iff (b : UInt8) : isContinuation b = true ↔ 0x80 ≤ b.toNat ∧ b.toNat < 0xc0 :=
  isContinuation_ofBitVec b.toBitVec

variable {b : UInt8}

theorem isContinuation_of {n : Nat} (hb : b.toNat = n) (h : 0x80 ≤ n ∧ n < 0xc0) :
    isContinuation b = true := by
  rw [isContinuation_iff, hb]
  exact h

theorem not_isContinuation_of {n : Nat} (hb : b.toNat = n) (h : n < 0x80 ∨ 0xc0 ≤ n) :
    isContinuation b = false := by
  rw [Bool.eq_false_iff, ne_eq, isContinuation_iff, hb]
  omega

/-- A character begins with its only byte that continues none. -/
theorem encodeChar_cases (c : Char) : ∃ b tail, String.utf8EncodeChar c = b :: tail ∧ isContinuation b = false ∧
    ∀ b ∈ tail, isContinuation b = true := by
  have hr := char_range c
  fun_cases String.utf8EncodeChar c with
  | case1 v h =>
    have hv : v = c.toNat := rfl
    exact ⟨_, _, rfl, not_isContinuation_of (byte_toNat v (by omega)) (by omega), fun _ h => by cases h⟩
  | case2 v h₁ h₂ =>
    have hv : v = c.toNat := rfl
    refine ⟨_, _, rfl, not_isContinuation_of (byte_toNat _ (by omega)) (by omega), fun b hb => ?_⟩
    obtain rfl := mem_singleton.mp hb
    exact isContinuation_of (byte_toNat _ (by omega)) (by omega)
  | case3 v h₁ h₂ h₃ =>
    have hv : v = c.toNat := rfl
    refine ⟨_, _, rfl, not_isContinuation_of (byte_toNat _ (by omega)) (by omega), fun b hb => ?_⟩
    rcases mem_pair.mp hb with rfl | rfl
    all_goals exact isContinuation_of (byte_toNat _ (by omega)) (by omega)
  | case4 v h₁ h₂ h₃ =>
    have hv : v = c.toNat := rfl
    refine ⟨_, _, rfl, not_isContinuation_of (byte_toNat _ (by omega)) (by omega), fun b hb => ?_⟩
    simp only [mem_cons, not_mem_nil, or_false] at hb
    rcases hb with rfl | rfl | rfl
    all_goals exact isContinuation_of (byte_toNat _ (by omega)) (by omega)

/-! ## Cuts between characters -/

/-- The number of bytes of characters. -/
def charBytes (cs : List Char) : Nat := (cs.map Char.utf8Size).sum

@[simp] theorem charBytes_nil : charBytes [] = 0 := rfl

@[simp] theorem charBytes_cons (c : Char) (cs : List Char) : charBytes (c :: cs) = c.utf8Size + charBytes cs := by
  rw [charBytes, charBytes, map_cons, sum_cons]

@[simp] theorem charBytes_append (cs ds : List Char) : charBytes (cs ++ ds) = charBytes cs + charBytes ds := by
  rw [charBytes, charBytes, charBytes, map_append, sum_append]

theorem charBytes_sublist {s l : List Char} (h : s.Sublist l) : charBytes s ≤ charBytes l :=
  (h.map Char.utf8Size).sum_le_sum fun _ _ => Nat.zero_le _

theorem length_encode (cs : List Char) : (encode cs).length = charBytes cs := by
  rw [encode, length_flatMap, charBytes]
  simp

theorem encode_append (cs ds : List Char) : encode (cs ++ ds) = encode cs ++ encode ds := flatMap_append

/-- The longest last part of whole characters. -/
def lastChars (maxBytes : Nat) (cs : List Char) : List Char := longestSuffix (fun ds => charBytes ds ≤ maxBytes) cs

variable (maxBytes : Nat)

theorem chars_hereditary : Hereditary fun ds => decide (charBytes ds ≤ maxBytes) := by
  constructor
  · simp
  · intro s l hs hl
    rw [decide_eq_true_eq] at hl ⊢
    exact (charBytes_sublist hs.sublist).trans hl

theorem lastChars_bytes (cs : List Char) : charBytes (lastChars maxBytes cs) ≤ maxBytes := by
  have h := LongestSuffix.longestSuffix_fits (chars_hereditary maxBytes) cs
  rwa [decide_eq_true_eq] at h

/-- One more character is too much. -/
theorem lastChars_spec (cs : List Char) : ∃ front, cs = front ++ lastChars maxBytes cs ∧
    ∀ c ∈ front.getLast?, maxBytes < c.utf8Size + charBytes (lastChars maxBytes cs) := by
  obtain ⟨front, hfront⟩ := LongestSuffix.longestSuffix_suffix (fun ds => decide (charBytes ds ≤ maxBytes)) cs
  refine ⟨front, hfront.symm, fun c hc => ?_⟩
  by_contra hnot
  rcases eq_nil_or_concat front with rfl | ⟨front, c', rfl⟩
  · cases hc
  · rw [concat_eq_append] at hc hfront
    obtain rfl : c' = c := by simpa using hc
    have hmore : c' :: lastChars maxBytes cs <:+ cs := ⟨front, (append_cons _ _ _).trans hfront⟩
    have hlong := @LongestSuffix.suffix_longestSuffix _ (fun ds => decide (charBytes ds ≤ maxBytes)) _ _ hmore
      (by rw [decide_eq_true_eq, charBytes_cons]; omega)
    have := hlong.length_le
    rw [length_cons, lastChars] at this
    omega

/-- The cut of the last bytes is the cut of the last characters. -/
theorem lastBytes_encode (cs : List Char) : lastBytes maxBytes (encode cs) = encode (lastChars maxBytes cs) := by
  obtain ⟨front, hcs, hmore⟩ := lastChars_spec maxBytes cs
  have hbytes := lastChars_bytes maxBytes cs
  generalize lastChars maxBytes cs = last at hcs hmore hbytes
  subst hcs
  -- what is kept of a character that is cut goes as well
  have hkeep : (encode last).dropWhile isContinuation = encode last := by
    cases last with
    | nil => rfl
    | cons c last =>
      obtain ⟨b, tail, hb, hfirst, -⟩ := encodeChar_cases c
      rw [encode, flatMap_cons, hb, cons_append, dropWhile_cons_of_neg (by rw [hfirst]; exact Bool.false_ne_true)]
  rw [lastBytes, length_encode]
  rcases eq_nil_or_concat front with rfl | ⟨front, c, rfl⟩
  · rw [nil_append, Nat.sub_eq_zero_of_le hbytes, drop_zero, hkeep]
  · rw [concat_eq_append] at *
    have hc := hmore c (by simp)
    obtain ⟨b, tail, hb, -, htail⟩ := encodeChar_cases c
    have hsize : c.utf8Size = tail.length + 1 := by
      rw [← String.length_utf8EncodeChar, hb, length_cons]
    have hdrop : (encode (front ++ [c] ++ last)).drop (charBytes (front ++ [c] ++ last) - maxBytes) =
        tail.drop (charBytes last + tail.length - maxBytes) ++ encode last := by
      have hall : encode (front ++ [c] ++ last) = (encode front ++ [b]) ++ (tail ++ encode last) := by
        rw [encode_append, encode_append]
        simp [encode, hb]
      have hcount : charBytes (front ++ [c] ++ last) - maxBytes =
          (encode front ++ [b]).length + (charBytes last + tail.length - maxBytes) := by
        rw [length_append, length_encode, charBytes_append, charBytes_append, charBytes_cons, charBytes_nil, hsize,
          length_singleton]
        omega
      rw [hall, hcount, drop_length_add_append, drop_append_of_le_length (by omega)]
    rw [hdrop, dropWhile_append_of_pos (fun b hb => htail b (mem_of_mem_drop hb)), hkeep]

theorem cut_first {maxBytes : Nat} {cs : List Char} (h : maxBytes < charBytes cs) : ∃ first c rest,
    cs = first ++ c :: rest ∧ charBytes first ≤ maxBytes ∧ maxBytes < charBytes first + c.utf8Size := by
  induction cs generalizing maxBytes with
  | nil => exact absurd h (Nat.not_lt_zero _)
  | cons c cs ih =>
    rw [charBytes_cons] at h
    by_cases hc : maxBytes < c.utf8Size
    · exact ⟨[], c, cs, rfl, Nat.zero_le _, by simpa using hc⟩
    · obtain ⟨first, d, rest, rfl, hle, hlt⟩ := @ih (maxBytes - c.utf8Size) (by omega)
      refine ⟨c :: first, d, rest, rfl, ?_, ?_⟩
      · rw [charBytes_cons]
        omega
      · rw [charBytes_cons]
        omega

/-- The loop goes back to the beginning of the character. -/
theorem endOf_eq (front after : Bytes) {tail : Bytes} (hb : isContinuation b = false)
    (htail : ∀ b ∈ tail, isContinuation b = true) (n : Nat) (hn : n ≤ tail.length) :
    endOf (front ++ b :: (tail ++ after)) (front.length + n) = front.length := by
  induction n with
  | zero =>
    cases hlen : front.length with
    | zero => rfl
    | succ m =>
      rw [Nat.add_zero, endOf, ← hlen, getD_eq_getElem?_getD, getElem?_append_right le_rfl, Nat.sub_self,
        getElem?_cons_zero, Option.getD_some, hb]
      rfl
  | succ n ih =>
    have hmem : (front ++ b :: (tail ++ after)).getD (front.length + n + 1) 0 = tail.get ⟨n, hn⟩ := by
      rw [getD_eq_getElem?_getD, getElem?_append_right (by omega), Nat.add_assoc, Nat.add_sub_cancel_left,
        getElem?_cons_succ, getElem?_append_left hn, getElem?_eq_getElem hn, Option.getD_some]
      rfl
    rw [← Nat.add_assoc, endOf, hmem, htail _ (get_mem _ _), if_pos rfl]
    exact ih (by omega)

/-- The cut of the first bytes is a cut between characters. -/
theorem firstBytes_encode {maxBytes : Nat} {cs : List Char} (h : maxBytes < charBytes cs) : ∃ first c rest,
    cs = first ++ c :: rest ∧ charBytes first ≤ maxBytes ∧ maxBytes < charBytes first + c.utf8Size ∧
      firstBytes maxBytes (encode cs) = encode first := by
  obtain ⟨first, c, rest, rfl, hle, hlt⟩ := cut_first h
  obtain ⟨b, tail, hb, hfirst, htail⟩ := encodeChar_cases c
  have hsize : c.utf8Size = tail.length + 1 := by
    rw [← String.length_utf8EncodeChar, hb, length_cons]
  refine ⟨first, c, rest, rfl, hle, hlt, ?_⟩
  have hall : encode (first ++ c :: rest) = encode first ++ b :: (tail ++ encode rest) := by
    rw [encode_append]
    simp [encode, hb]
  have hend := endOf_eq (encode first) (encode rest) hfirst htail (maxBytes - charBytes first)
    (by omega)
  rw [length_encode, Nat.add_sub_cancel' hle] at hend
  rw [firstBytes, hall, hend, ← length_encode, take_left]

end Shuvpi.TextDecoder
