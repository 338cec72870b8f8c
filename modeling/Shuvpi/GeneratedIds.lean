import Mathlib.Data.Char
import Shuvpi.DigitOrder
import Shuvpi.JsNumber

/-!
# Time-ordered identifiers

`utils/uuid.ts`: the UUIDv7 generator of one process. Its two module variables
are `Generator`; a call gets a clock reading, an optional timestamp and sixteen
random bytes. The 41-bit counter is spread over the bytes 6 to 11, around the
version and variant bits and one random bit.
-/
namespace Shuvpi.Uuid

open List Except

def MAX_UUID_V7_TIMESTAMP : Nat := 0xffffffffffff
def MAX_SEQUENCE : Nat := 1 <<< 41 - 1

structure Generator where
  lastOrdinaryTimestamp : Int
  sequence : Option Nat
  deriving DecidableEq, Repr

def Generator.initial : Generator := ⟨-1, none⟩

/-- What one call of `uuidv7` is given, the clock and the random source included. -/
structure Call where
  timestampMs : Option JsNumber
  now : JsNumber
  random : Fin 16 → Fin 256

def Call.requestedTimestamp (c : Call) : JsNumber := c.timestampMs.getD c.now

/-- Both are a `RangeError` of the source. -/
inductive UuidError where
  | timestamp
  | exhausted
  deriving DecidableEq, Repr

def UuidError.message : UuidError → String
  | .timestamp =>
    "UUIDv7 timestamp must be an integer between 0 and " ++ toString MAX_UUID_V7_TIMESTAMP
  | .exhausted => "UUIDv7 generator sequence exhausted"

def Call.inRange (c : Call) : Bool := c.requestedTimestamp.isInteger && 0 ≤ c.requestedTimestamp.toInt &&
    c.requestedTimestamp.toInt ≤ MAX_UUID_V7_TIMESTAMP

def Call.firstSequence (c : Call) : Nat :=
  (c.random 1).val <<< 32 ||| (c.random 2).val <<< 24 ||| (c.random 3).val <<< 16 |||
    (c.random 4).val <<< 8 ||| (c.random 5).val

def nextSequence (c : Call) : Option Nat → Except UuidError Nat
  | none => .ok c.firstSequence
  | some s => if s = MAX_SEQUENCE then .error .exhausted else .ok (s + 1)

def timestampBytes (timestamp : Nat) : List Nat :=
  [timestamp >>> 40 &&& 0xff, timestamp >>> 32 &&& 0xff, timestamp >>> 24 &&& 0xff,
    timestamp >>> 16 &&& 0xff, timestamp >>> 8 &&& 0xff, timestamp >>> 0 &&& 0xff]

/-- The bytes 6 to 11; the counter leaves the low bit of the last one as it was drawn. -/
def sequenceBytes (sequence : Nat) (c : Call) : List Nat :=
  [0x70 ||| (sequence >>> 37 &&& 0x0f), sequence >>> 29 &&& 0xff,
    0x80 ||| (sequence >>> 23 &&& 0x3f), sequence >>> 15 &&& 0xff, sequence >>> 7 &&& 0xff,
    (sequence &&& 0x7f) <<< 1 ||| ((c.random 11).val &&& 0x01)]

def randomBytes (c : Call) : List Nat := [(c.random 12).val, (c.random 13).val, (c.random 14).val, (c.random 15).val]

def uuidBytes (timestamp sequence : Nat) (c : Call) : List Nat :=
  timestampBytes timestamp ++ (sequenceBytes sequence c ++ randomBytes c)

/-- `byte.toString(16).padStart(2, "0")`. -/
def hexByte (byte : Nat) : List Char := (Nat.toDigits 16 byte).leftpad 2 '0'

def uuidText (bytes : List Nat) : String :=
  let hex := bytes.map hexByte
  String.ofList ((hex.take 4).flatten ++ '-' :: (((hex.drop 4).take 2).flatten ++
    '-' :: (((hex.drop 6).take 2).flatten ++ '-' :: (((hex.drop 8).take 2).flatten ++ '-' :: (hex.drop 10).flatten))))

def effectiveTimestamp (g : Generator) (c : Call) : Int :=
  if c.timestampMs = none then max c.requestedTimestamp.toInt g.lastOrdinaryTimestamp
  else c.requestedTimestamp.toInt

def uuidv7 (g : Generator) (c : Call) : Except UuidError String × Generator :=
  if !c.inRange then (.error .timestamp, g)
  else
    let timestamp := effectiveTimestamp g c
    let last := if c.timestampMs = none then timestamp else g.lastOrdinaryTimestamp
    match nextSequence c g.sequence with
    | .error e => (.error e, ⟨last, g.sequence⟩)
    | .ok sequence => (.ok (uuidText (uuidBytes timestamp.toNat sequence c)), ⟨last, some sequence⟩)

/-! ## Runs -/

/-- A call and what it returned. -/
abbrev Result := Call × Except UuidError String

def run (g : Generator) : List Call → List Result
  | [] => []
  | c :: cs => (c, (uuidv7 g c).1) :: run (uuidv7 g c).2 cs

def finalGenerator (g : Generator) (cs : List Call) : Generator := cs.foldl (fun g c => (uuidv7 g c).2) g

def Result.id? (r : Result) : Option String := r.2.toOption

def Result.ordinaryId? (r : Result) : Option String :=
  if r.1.timestampMs = none then r.id? else none

/-! ## Reading an id back -/

def hexValue (c : Char) : Nat := if c.toNat < 97 then c.toNat - 48 else c.toNat - 87

/-- The number that the first twelve hexadecimal digits of an id spell. -/
def leading48 (id : String) : Nat :=
  ((id.toList.filter (· ≠ '-')).take 12).foldl (fun acc c => 16 * acc + hexValue c) 0

/-! ## The bytes of an id -/

theorem hexByte_digits : ∀ b < 256, hexByte b = [Nat.digitChar (b / 16), Nat.digitChar (b % 16)] := by
  decide +kernel

theorem length_hexByte (b : Nat) (hb : b < 256) : (hexByte b).length = 2 := by
  rw [hexByte_digits b hb]; rfl

theorem digitChar_lt : ∀ a < 16, ∀ b < 16, a < b → Nat.digitChar a < Nat.digitChar b := by
  decide

theorem hexByte_lt (a b : Nat) (ha : a < 256) (hb : b < 256) (h : a < b) : hexByte a < hexByte b := by
  rw [hexByte_digits a ha, hexByte_digits b hb, cons_lt_cons_iff]
  rcases (Nat.div_le_div_right h.le : a / 16 ≤ b / 16).lt_or_eq with hlt | heq
  · exact .inl (digitChar_lt _ (by omega) _ (by omega) hlt)
  · refine .inr ⟨by rw [heq], ?_⟩
    rw [cons_lt_cons_iff]
    exact .inl (digitChar_lt _ (by omega) _ (by omega) (by omega))

theorem hexByte_value : ∀ b < 256, ((hexByte b).all (· ≠ '-')) = true ∧
    (hexByte b).map hexValue = [b / 16, b % 16] := by
  decide +kernel

def timestampFields : List BitField := List.replicate 6 ⟨8, 0⟩
def sequenceFields : List BitField := [⟨4, 0x70⟩, ⟨8, 0⟩, ⟨6, 0x80⟩, ⟨8, 0⟩, ⟨8, 0⟩]

theorem timestampBytes_eq (t : Nat) : timestampBytes t = BitField.pack timestampFields t := by
  simp only [timestampBytes, timestampFields, replicate, BitField.pack, BitField.bits,
    Nat.shiftRight_eq_div_pow, Nat.zero_add]
  simp only [show 0xff = 2 ^ 8 - 1 from rfl, Nat.and_two_pow_sub_one_eq_mod]

theorem versionByte : ∀ d < 16, 0x70 ||| d = 0x70 + d := by decide
theorem variantByte : ∀ d < 64, 0x80 ||| d = 0x80 + d := by decide
theorem lastByte : ∀ d < 128, ∀ b < 2, d <<< 1 ||| b = 2 * d + b := by decide

theorem sequenceBytes_eq (s : Nat) (c : Call) : sequenceBytes s c =
    BitField.pack sequenceFields (s / 128) ++ [2 * (s % 128) + (c.random 11).val % 2] := by
  simp only [sequenceBytes, sequenceFields, BitField.pack, BitField.bits,
    Nat.shiftRight_eq_div_pow, Nat.zero_add, Nat.div_div_eq_div_mul, cons_append,
    nil_append]
  simp only [show 0xff = 2 ^ 8 - 1 from rfl, show 0x0f = 2 ^ 4 - 1 from rfl,
    show 0x3f = 2 ^ 6 - 1 from rfl, show 0x7f = 2 ^ 7 - 1 from rfl,
    Nat.and_two_pow_sub_one_eq_mod, Nat.and_one_is_mod]
  rw [versionByte _ (by omega), variantByte _ (by omega), lastByte _ (by omega) _ (by omega)]
  rfl

@[simp] theorem length_sequenceBytes (s : Nat) (c : Call) : (sequenceBytes s c).length = 6 := rfl

theorem uuidBytes_lt (t s : Nat) (c : Call) : ∀ b ∈ uuidBytes t s c, b < 256 := by
  intro b hb
  simp only [uuidBytes, timestampBytes_eq, sequenceBytes_eq, randomBytes, mem_append] at hb
  simp only [timestampFields, sequenceFields, replicate, BitField.pack, BitField.bits,
    mem_cons, not_mem_nil, or_false] at hb
  omega

variable {s s' : Nat}

/-- The counter alone orders its six bytes, whatever bit was drawn for the last one. -/
theorem sequenceBytes_lt (h : s < s') (hs : s' ≤ MAX_SEQUENCE) (c c' : Call) :
    sequenceBytes s c < sequenceBytes s' c' := by
  have hmax : s' < 2 ^ 41 := Nat.lt_of_le_of_lt hs (by decide)
  rw [sequenceBytes_eq, sequenceBytes_eq]
  rcases (Nat.div_le_div_right h.le : s / 128 ≤ s' / 128).lt_or_eq with hlt | heq
  · have hbits : s' / 128 < 2 ^ BitField.bits sequenceFields := by
      simp only [sequenceFields, BitField.bits]; omega
    exact append_lt_append (BitField.pack_lt _ hlt hbits) (by simp) _ _
  · rw [heq]
    apply append_left_lt
    rw [cons_lt_cons_iff]
    exact .inl (by omega)

variable {t t' : Nat}

theorem uuidBytes_ordered (ht : t ≤ t') (ht' : t' ≤ MAX_UUID_V7_TIMESTAMP) (hs : s < s') (hs' : s' ≤ MAX_SEQUENCE)
    (c c' : Call) :
    uuidBytes t s c < uuidBytes t' s' c' := by
  simp only [uuidBytes]
  rcases ht.lt_or_eq with hlt | rfl
  · have hbits : t' < 2 ^ BitField.bits timestampFields := Nat.lt_of_le_of_lt ht' (by decide)
    rw [timestampBytes_eq, timestampBytes_eq]
    exact append_lt_append (BitField.pack_lt _ hlt hbits) (by simp) _ _
  · exact append_left_lt (append_lt_append (sequenceBytes_lt hs hs' c c') (by simp) _ _)

theorem uuidBytes_ne (hs : s < s') (hs' : s' ≤ MAX_SEQUENCE) (c c' : Call) :
    uuidBytes t s c ≠ uuidBytes t' s' c' := by
  intro heq
  have hrest := (append_inj heq rfl).2
  have hbytes := (append_inj hrest rfl).1
  exact (sequenceBytes_lt hs hs' c c').ne hbytes

/-! ## The text of an id -/

def separators : List (List Char) := [[], [], [], [], ['-'], [], ['-'], [], ['-'], [], ['-'], [], [], [], [], []]

theorem uuidText_toList (t s : Nat) (c : Call) :
    (uuidText (uuidBytes t s c)).toList = printFields hexByte separators (uuidBytes t s c) := by
  simp [uuidText, uuidBytes, timestampBytes, sequenceBytes, randomBytes, separators, printFields]

theorem uuidText_lt (ht : t ≤ t') (ht' : t' ≤ MAX_UUID_V7_TIMESTAMP) (hs : s < s') (hs' : s' ≤ MAX_SEQUENCE)
    (c c' : Call) :
    uuidText (uuidBytes t s c) < uuidText (uuidBytes t' s' c') := by
  rw [String.lt_iff, uuidText_toList, uuidText_toList]
  exact printFields_lt hexByte_lt length_hexByte separators (uuidBytes_lt t s c)
    (uuidBytes_lt t' s' c') rfl rfl (uuidBytes_ordered ht ht' hs hs' c c')

theorem uuidText_ne (hs : s < s') (hs' : s' ≤ MAX_SEQUENCE) (c c' : Call) :
    uuidText (uuidBytes t s c) ≠ uuidText (uuidBytes t' s' c') := by
  intro heq
  have htext := congrArg String.toList heq
  rw [uuidText_toList, uuidText_toList] at htext
  exact printFields_ne hexByte_lt length_hexByte separators (uuidBytes_lt t s c)
    (uuidBytes_lt t' s' c') rfl rfl (uuidBytes_ne hs hs' c c') htext

variable {bs : List Nat} (hbs : ∀ b ∈ bs, b < 256)
include hbs

theorem filter_printFields {seps : List (List Char)} (hlen : bs.length = seps.length)
    (hseps : ∀ s ∈ seps, s.filter (· ≠ '-') = []) :
    (printFields hexByte seps bs).filter (· ≠ '-') = bs.flatMap hexByte := by
  induction seps generalizing bs with
  | nil => rw [length_eq_zero_iff.mp hlen]; rfl
  | cons s seps ih =>
    cases bs with
    | nil => simp at hlen
    | cons b bs =>
      simp only [mem_cons, forall_eq_or_imp] at hbs hseps
      rw [printFields, filter_append, filter_append, hseps.1,
        ih hbs.2 (by simpa using hlen) hseps.2, flatMap_cons, nil_append]
      rw [filter_eq_self.mpr (fun ch hch => all_eq_true.mp (hexByte_value b hbs.1).1 ch hch)]

theorem length_flatMap_hexByte : (bs.flatMap hexByte).length = 2 * bs.length := by
  induction bs with
  | nil => rfl
  | cons b bs ih =>
    simp only [mem_cons, forall_eq_or_imp] at hbs
    rw [flatMap_cons, length_append, length_hexByte b hbs.1, ih hbs.2, length_cons]
    omega

theorem foldl_flatMap_hexByte (acc : Nat) : (bs.flatMap hexByte).foldl (fun acc c => 16 * acc + hexValue c) acc =
      bs.foldl (fun acc b => 256 * acc + b) acc := by
  induction bs generalizing acc with
  | nil => rfl
  | cons b bs ih =>
    simp only [mem_cons, forall_eq_or_imp] at hbs
    have hbyte : (hexByte b).foldl (fun acc c => 16 * acc + hexValue c) acc = 256 * acc + b := by
      rw [← foldl_map (f := hexValue) (g := fun acc d => 16 * acc + d), (hexByte_value b hbs.1).2]
      simp only [foldl_cons, foldl_nil]
      omega
    rw [flatMap_cons, foldl_append, hbyte, ih hbs.2, foldl_cons]

omit hbs

theorem leading48_uuidText (ht : t ≤ MAX_UUID_V7_TIMESTAMP) (s : Nat) (c : Call) :
    leading48 (uuidText (uuidBytes t s c)) = t := by
  have hmax : t < 2 ^ 48 := Nat.lt_of_le_of_lt ht (by decide)
  have hbytes := uuidBytes_lt t s c
  rw [leading48, uuidText_toList, filter_printFields hbytes rfl (by decide)]
  have hhead : ∀ b ∈ timestampBytes t, b < 256 := fun b hb =>
    hbytes b (mem_append_left _ hb)
  have hlen : ((timestampBytes t).flatMap hexByte).length = 12 := length_flatMap_hexByte hhead
  rw [uuidBytes, flatMap_append, take_left' hlen, foldl_flatMap_hexByte hhead, timestampBytes_eq, timestampFields,
    BitField.foldl_pack, Nat.mul_zero, Nat.zero_add]
  exact Nat.mod_eq_of_lt hmax

/-! ## One call -/

structure Generator.Fits (g : Generator) : Prop where
  last : g.lastOrdinaryTimestamp ≤ MAX_UUID_V7_TIMESTAMP
  sequence : ∀ s, g.sequence = some s → s ≤ MAX_SEQUENCE

/-- The generator never goes back: neither its timestamp nor its counter. -/
structure Generator.Before (g g' : Generator) : Prop where
  last : g.lastOrdinaryTimestamp ≤ g'.lastOrdinaryTimestamp
  sequence : ∀ s, g.sequence = some s → ∃ s', g'.sequence = some s' ∧ s ≤ s'

/-- The id was made from a counter value that `g` has not reached. -/
structure MadeAfter (g : Generator) (c : Call) (id : String) (t s : Nat) : Prop where
  text : id = uuidText (uuidBytes t s c)
  timestamp : t ≤ MAX_UUID_V7_TIMESTAMP
  sequence : s ≤ MAX_SEQUENCE
  fresh : ∀ s', g.sequence = some s' → s' < s
  ordinary : c.timestampMs = none → g.lastOrdinaryTimestamp ≤ t
  supplied : ∀ x, c.timestampMs = some x → x.toInt = t

variable {g : Generator} {c : Call} {id : String}

theorem MadeAfter.earlier {g' : Generator} (h : MadeAfter g' c id t s) (hg : g.Before g') : MadeAfter g c id t s := by
  refine ⟨h.text, h.timestamp, h.sequence, fun s' hs' => ?_, fun hc => ?_, h.supplied⟩
  · obtain ⟨s'', hs'', hle⟩ := hg.sequence s' hs'
    exact Nat.lt_of_le_of_lt hle (h.fresh s'' hs'')
  · exact hg.last.trans (h.ordinary hc)

theorem Generator.initial_fits : Generator.initial.Fits := ⟨by decide, fun s hs => by simp [Generator.initial] at hs⟩

theorem firstSequence_le (c : Call) : c.firstSequence ≤ MAX_SEQUENCE := by
  have hbyte : ∀ i k, (c.random i).val <<< k < 2 ^ (k + 8) := fun i k => by
    rw [Nat.shiftLeft_eq, Nat.pow_add, Nat.mul_comm]
    exact Nat.mul_lt_mul_of_pos_left (c.random i).isLt (Nat.two_pow_pos k)
  have hwide : ∀ i k, k ≤ 32 → (c.random i).val <<< k < 2 ^ 40 := fun i k hk =>
    Nat.lt_of_lt_of_le (hbyte i k) (Nat.pow_le_pow_right (by decide) (by omega))
  have hlow : (c.random 5).val < 2 ^ 40 := Nat.lt_trans (c.random 5).isLt (by decide)
  have hsum : c.firstSequence < 2 ^ 40 := Nat.or_lt_two_pow (Nat.or_lt_two_pow (Nat.or_lt_two_pow
      (Nat.or_lt_two_pow (hwide 1 32 le_rfl) (hwide 2 24 (by decide))) (hwide 3 16 (by decide)))
      (hwide 4 8 (by decide))) hlow
  exact Nat.le_of_lt (Nat.lt_trans hsum (by decide))

theorem nextSequence_ok {o : Option Nat} (ho : ∀ s, o = some s → s ≤ MAX_SEQUENCE) (h : nextSequence c o = .ok s) :
    s ≤ MAX_SEQUENCE ∧ ∀ s', o = some s' → s' < s := by
  cases o with
  | none =>
    obtain rfl : c.firstSequence = s := ok.inj h
    exact ⟨firstSequence_le c, by simp⟩
  | some s₀ =>
    have hle := ho s₀ rfl
    rw [nextSequence] at h
    split at h
    · cases h
    · obtain rfl : s₀ + 1 = s := ok.inj h
      refine ⟨by omega, fun s' hs' => ?_⟩
      obtain rfl := Option.some.inj hs'
      exact Nat.lt_succ_self _

theorem effectiveTimestamp_range (hg : g.Fits) (hc : c.inRange = true) :
    0 ≤ effectiveTimestamp g c ∧ effectiveTimestamp g c ≤ MAX_UUID_V7_TIMESTAMP := by
  simp only [Call.inRange, Bool.and_eq_true, decide_eq_true_eq] at hc
  obtain ⟨⟨-, hlow⟩, hhigh⟩ := hc
  unfold effectiveTimestamp
  split
  · exact ⟨hlow.trans (le_max_left _ _), max_le hhigh hg.last⟩
  · exact ⟨hlow, hhigh⟩

/-- What the generator keeps as its last ordinary timestamp after a call in range. -/
def keptTimestamp (g : Generator) (c : Call) : Int :=
  if c.timestampMs = none then effectiveTimestamp g c else g.lastOrdinaryTimestamp

/-- A call is out of range, finds the counter exhausted, or makes an id. -/
theorem uuidv7_cases (g : Generator) (c : Call) : (c.inRange = false ∧ uuidv7 g c = (.error .timestamp, g)) ∨
    (c.inRange = true ∧ ∃ e, nextSequence c g.sequence = .error e ∧
      uuidv7 g c = (.error e, ⟨keptTimestamp g c, g.sequence⟩)) ∨
    (c.inRange = true ∧ ∃ s, nextSequence c g.sequence = .ok s ∧
      uuidv7 g c = (.ok (uuidText (uuidBytes (effectiveTimestamp g c).toNat s c)),
        ⟨keptTimestamp g c, some s⟩)) := by
  cases hc : c.inRange with
  | false => exact .inl ⟨rfl, by simp [uuidv7, hc]⟩
  | true =>
    cases hs : nextSequence c g.sequence with
    | error e => exact .inr (.inl ⟨rfl, e, rfl, by simp [uuidv7, hc, hs, keptTimestamp]⟩)
    | ok s => exact .inr (.inr ⟨rfl, s, rfl, by simp [uuidv7, hc, hs, keptTimestamp]⟩)

theorem le_keptTimestamp (g : Generator) (c : Call) : g.lastOrdinaryTimestamp ≤ keptTimestamp g c := by
  unfold keptTimestamp effectiveTimestamp
  split
  · exact le_max_right _ _
  · exact le_rfl

variable (hg : g.Fits)
include hg

theorem keptTimestamp_le (hc : c.inRange = true) :
    keptTimestamp g c ≤ MAX_UUID_V7_TIMESTAMP := by
  unfold keptTimestamp
  split
  · exact (effectiveTimestamp_range hg hc).2
  · exact hg.last

theorem uuidv7_fits (c : Call) : (uuidv7 g c).2.Fits := by
  rcases uuidv7_cases g c with ⟨-, h⟩ | ⟨hc, e, -, h⟩ | ⟨hc, s, hs, h⟩
  · rw [h]; exact hg
  · rw [h]; exact ⟨keptTimestamp_le hg hc, hg.sequence⟩
  · rw [h]
    refine ⟨keptTimestamp_le hg hc, fun s' hs' => ?_⟩
    obtain rfl := Option.some.inj hs'
    exact (nextSequence_ok hg.sequence hs).1

theorem uuidv7_before (c : Call) : g.Before (uuidv7 g c).2 := by
  rcases uuidv7_cases g c with ⟨-, h⟩ | ⟨hc, e, -, h⟩ | ⟨hc, s, hs, h⟩
  · rw [h]; exact ⟨le_rfl, fun s hs => ⟨s, hs, le_rfl⟩⟩
  · rw [h]; exact ⟨le_keptTimestamp g c, fun s hs => ⟨s, hs, le_rfl⟩⟩
  · rw [h]
    exact ⟨le_keptTimestamp g c, fun s' hs' =>
      ⟨s, rfl, ((nextSequence_ok hg.sequence hs).2 s' hs').le⟩⟩

/-- The generator has moved on to the very timestamp and counter value of the id it returned. -/
theorem uuidv7_ok (h : (uuidv7 g c).1 = .ok id) : ∃ t s, MadeAfter g c id t s ∧ (uuidv7 g c).2.sequence = some s ∧
      (c.timestampMs = none → (uuidv7 g c).2.lastOrdinaryTimestamp = t) := by
  rcases uuidv7_cases g c with ⟨-, h'⟩ | ⟨hc, e, -, h'⟩ | ⟨hc, s, hs, h'⟩
  · rw [h'] at h; cases h
  · rw [h'] at h; cases h
  · rw [h'] at h ⊢
    obtain ⟨hlow, hhigh⟩ := effectiveTimestamp_range hg hc
    have hnat : ((effectiveTimestamp g c).toNat : Int) = effectiveTimestamp g c := Int.toNat_of_nonneg hlow
    have hseq := nextSequence_ok hg.sequence hs
    refine ⟨(effectiveTimestamp g c).toNat, s,
      ⟨(ok.inj h).symm, by omega, hseq.1, hseq.2, fun hn => ?_, fun x hx => ?_⟩, rfl,
      fun hn => ?_⟩
    · rw [hnat, effectiveTimestamp, if_pos hn]
      exact le_max_right _ _
    · rw [hnat, effectiveTimestamp, if_neg (by simp [hx]), Call.requestedTimestamp, hx]
      rfl
    · dsimp only
      rw [hnat, keptTimestamp, if_pos hn]

/-! ## Every run of calls -/

theorem run_madeAfter (cs : List Call) (h : (c, ok id) ∈ run g cs) :
    ∃ t s, MadeAfter g c id t s := by
  induction cs generalizing g with
  | nil => simp [run] at h
  | cons c₀ cs ih =>
    rcases mem_cons.mp h with heq | hrest
    · obtain ⟨rfl, hid⟩ := Prod.mk.inj heq
      obtain ⟨t, s, hmade, -⟩ := uuidv7_ok hg hid.symm
      exact ⟨t, s, hmade⟩
    · obtain ⟨t, s, hmade⟩ := ih (uuidv7_fits hg c₀) hrest
      exact ⟨t, s, hmade.earlier (uuidv7_before hg c₀)⟩

omit hg

/-- What is asked of an id and a later one. -/
def Result.Apart (r r' : Result) : Prop := ∀ id id', r.2 = .ok id → r'.2 = .ok id' →
    id ≠ id' ∧ (r.1.timestampMs = none → r'.1.timestampMs = none → id < id')

theorem run_apart (hg : g.Fits) (cs : List Call) : (run g cs).Pairwise Result.Apart := by
  induction cs generalizing g with
  | nil => exact List.Pairwise.nil
  | cons c cs ih =>
    refine pairwise_cons.mpr ⟨fun r hr id id' hid hid' => ?_, ih (uuidv7_fits hg c)⟩
    obtain ⟨t, s, hmade, hs, hlast⟩ := uuidv7_ok hg hid
    have hmem : (r.1, ok id') ∈ run (uuidv7 g c).2 cs := by rw [← hid']; exact hr
    obtain ⟨t', s', hmade'⟩ := run_madeAfter (uuidv7_fits hg c) cs hmem
    have hlt : s < s' := hmade'.fresh s hs
    rw [hmade.text, hmade'.text]
    refine ⟨uuidText_ne hlt hmade'.sequence _ _, fun hn hn' => ?_⟩
    have ht : t ≤ t' := by
      have hle := hmade'.ordinary hn'
      rw [hlast hn] at hle
      exact Int.ofNat_le.mp hle
    exact uuidText_lt ht hmade'.timestamp hlt hmade'.sequence _ _

theorem Result.id?_eq_some {r : Result} (h : r.id? = some id) : r.2 = .ok id := by
  obtain ⟨c, e | id'⟩ := r
  · cases h
  · exact congrArg ok (Option.some.inj h)

theorem Result.ordinaryId?_eq_some {r : Result} (h : r.ordinaryId? = some id) :
    r.1.timestampMs = none ∧ r.2 = .ok id := by
  rw [Result.ordinaryId?] at h
  split at h
  · exact ⟨‹_›, Result.id?_eq_some h⟩
  · cases h

/-- In range, a call makes an id exactly as long as the counter has values left. -/
theorem uuidv7_of_sequence (g : Generator) (hc : c.inRange = true) :
    (g.sequence ≠ some MAX_SEQUENCE → ∃ id, (uuidv7 g c).1 = .ok id) ∧
    (g.sequence = some MAX_SEQUENCE → (uuidv7 g c).1 = .error .exhausted ∧
      (uuidv7 g c).2.sequence = some MAX_SEQUENCE) := by
  rcases uuidv7_cases g c with ⟨hout, -⟩ | ⟨-, e, he, h⟩ | ⟨-, s, hs, h⟩
  · rw [hc] at hout; cases hout
  · rw [h]
    cases hseq : g.sequence with
    | none => rw [hseq] at he; cases he
    | some s =>
      rw [hseq, nextSequence] at he
      split at he
      · rename_i hmax
        obtain rfl := error.inj he
        exact ⟨fun hne => absurd (by rw [hmax]) hne, fun _ => ⟨rfl, by rw [hmax]⟩⟩
      · cases he
  · rw [h]
    refine ⟨fun _ => ⟨_, rfl⟩, fun hseq => ?_⟩
    rw [hseq, nextSequence, if_pos rfl] at hs
    cases hs

/-- Over every sequence of calls in one process: no id is returned twice, the ids of the
calls without a timestamp only grow, an id made for a timestamp starts with it, and a
call in range fails exactly when the counter is exhausted, which it then stays. -/
theorem ids_of_run (calls : List Call) : ((run .initial calls).filterMap Result.id?).Pairwise (· ≠ ·) ∧
    ((run .initial calls).filterMap Result.ordinaryId?).Pairwise (· < ·) ∧
    (∀ c x id, (c, Except.ok id) ∈ run .initial calls → c.timestampMs = some x → (leading48 id : Int) = x.toInt) ∧
    ∀ c : Call, c.inRange = true →
      let g := finalGenerator .initial calls
      (g.sequence ≠ some MAX_SEQUENCE → ∃ id, (uuidv7 g c).1 = .ok id) ∧
      (g.sequence = some MAX_SEQUENCE → (uuidv7 g c).1 = .error .exhausted ∧
        (uuidv7 g c).2.sequence = some MAX_SEQUENCE) := by
  have hapart := run_apart Generator.initial_fits calls
  refine ⟨?_, ?_, fun c x id hmem hx => ?_, fun c hc => uuidv7_of_sequence _ hc⟩
  · refine List.pairwise_filterMap.mpr (hapart.imp fun hr id hid id' hid' => ?_)
    exact (hr id id' (Result.id?_eq_some hid) (Result.id?_eq_some hid')).1
  · refine List.pairwise_filterMap.mpr (hapart.imp fun hr id hid id' hid' => ?_)
    obtain ⟨hn, hid⟩ := Result.ordinaryId?_eq_some hid
    obtain ⟨hn', hid'⟩ := Result.ordinaryId?_eq_some hid'
    exact (hr id id' hid hid').2 hn hn'
  · obtain ⟨t, s, hmade⟩ := run_madeAfter Generator.initial_fits calls hmem
    rw [hmade.text, leading48_uuidText hmade.timestamp, hmade.supplied x hx]

/-- The clock goes back between two ordinary calls, with a follower id between them. -/
def beforeFollower : Call := ⟨none, .ofInt 1000, fun _ => 255⟩
def follower : Call := ⟨some (.ofInt 7), .ofInt 5, fun _ => 0⟩
def clockBack : List Call := [beforeFollower, follower, ⟨none, .ofInt 3, fun _ => 0⟩]

theorem ids_of_run_clockBack : (run .initial clockBack).map (·.2) =
        [.ok "00000000-03e8-77ff-bfff-ffffffffffff", .ok "00000000-0007-7800-8000-000000000000",
          .ok "00000000-03e8-7800-8000-000200000000"] ∧
      ((run .initial clockBack).filterMap Result.id?).Pairwise (· ≠ ·) ∧
      (leading48 "00000000-0007-7800-8000-000000000000" : Int) = 7 := by
  refine ⟨by decide, (ids_of_run clockBack).1, ?_⟩
  have hid : (uuidv7 (uuidv7 .initial beforeFollower).2 follower).1 =
      .ok "00000000-0007-7800-8000-000000000000" := by decide
  have hmem : (follower, .ok "00000000-0007-7800-8000-000000000000") ∈ run .initial clockBack := by
    rw [← hid]
    exact .tail _ (.head _)
  exact ((ids_of_run clockBack).2.2.1 follower (.ofInt 7) _ hmem rfl).trans (by decide)

end Shuvpi.Uuid
