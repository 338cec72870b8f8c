import Mathlib.Data.List.Basic
import Mathlib.Tactic

/-!
# JavaScript strings and their UTF-8 form

A JavaScript string is a list of 16-bit code units, lone surrogates included.
`textEncode` and `textDecode` follow the `TextEncoder` and the fatal,
byte-order-mark preserving `TextDecoder`: the encoder first replaces each lone
surrogate by U+FFFD, and the decoder rejects anything that is not the UTF-8 form
of a list of scalar values. The scalar codec itself is the one of the standard
library.
-/
namespace Shuvpi

abbrev Bytes := List UInt8

abbrev JsString := List UInt16

instance unitEq : LawfulBEq UInt16 := inferInstance
instance stringEq : LawfulBEq JsString := inferInstance

/-- What holds of all members is decided member by member, also where all units could be listed. -/
instance (priority := high) decidableMembers {α : Type} (p : α → Prop) [DecidablePred p] (s : List α) :
    Decidable (∀ u ∈ s, p u) := List.decidableBAll p s

namespace JsText

def isHighSurrogate (u : UInt16) : Bool := 0xd800 ≤ u.toNat && u.toNat < 0xdc00
def isLowSurrogate (u : UInt16) : Bool := 0xdc00 ≤ u.toNat && u.toNat < 0xe000

/-- The scalar value that a surrogate pair stands for. -/
def pairValue (high low : UInt16) : Nat := 0x10000 + 0x400 * (high.toNat - 0xd800) + (low.toNat - 0xdc00)

def replacement : Char := Char.ofNat 0xfffd

/-- Scalar values of a string; a lone surrogate reads as U+FFFD. -/
def toScalars : JsString → List Char
  | [] => []
  | [u] =>
    if isHighSurrogate u || isLowSurrogate u then [replacement] else [Char.ofNat u.toNat]
  | u :: v :: rest =>
    if isHighSurrogate u && isLowSurrogate v then Char.ofNat (pairValue u v) :: toScalars rest
    else if isHighSurrogate u || isLowSurrogate u then replacement :: toScalars (v :: rest)
    else Char.ofNat u.toNat :: toScalars (v :: rest)

/-- The one or two code units of a scalar value. -/
def codeUnits (c : Char) : JsString :=
  if c.toNat < 0x10000 then [UInt16.ofNat c.toNat]
  else
    [UInt16.ofNat (0xd800 + (c.toNat - 0x10000) / 0x400), UInt16.ofNat (0xdc00 + (c.toNat - 0x10000) % 0x400)]

def ofScalars (cs : List Char) : JsString := cs.flatMap codeUnits

/-- A string literal of the source. -/
def ofString (s : String) : JsString := ofScalars s.toList

theorem char_range (c : Char) : c.toNat < 0xd800 ∨ (0xdfff < c.toNat ∧ c.toNat < 0x110000) := by
  have h := c.valid
  simpa [UInt32.isValidChar, Nat.isValidChar] using h

theorem unit_toNat (n : Nat) (h : n < 0x10000) : (UInt16.ofNat n).toNat = n := by
  simp only [UInt16.toNat_ofNat']
  omega

/-- A single unit that is no surrogate reads as itself, whatever follows. -/
theorem toScalars_unit (c : Char) (h : c.toNat < 0x10000) (rest : JsString) :
    toScalars (UInt16.ofNat c.toNat :: rest) = c :: toScalars rest := by
  have hu := unit_toNat c.toNat h
  have hr := char_range c
  have hhigh : isHighSurrogate (UInt16.ofNat c.toNat) = false := by
    simp [isHighSurrogate, hu]; omega
  have hlow : isLowSurrogate (UInt16.ofNat c.toNat) = false := by
    simp [isLowSurrogate, hu]; omega
  cases rest with
  | nil | cons => simp [toScalars, hhigh, hlow, hu, Char.ofNat_toNat]

theorem pairValue_eq {high low : UInt16} {a b : Nat} (hh : high.toNat = 0xd800 + a)
    (hl : low.toNat = 0xdc00 + b) : pairValue high low = 0x10000 + 0x400 * a + b := by
  unfold pairValue
  omega

theorem toScalars_pair (c : Char) (h : ¬ c.toNat < 0x10000) (rest : JsString) :
    toScalars (UInt16.ofNat (0xd800 + (c.toNat - 0x10000) / 0x400) ::
      UInt16.ofNat (0xdc00 + (c.toNat - 0x10000) % 0x400) :: rest) = c :: toScalars rest := by
  have hr := char_range c
  have hu := unit_toNat (0xd800 + (c.toNat - 0x10000) / 0x400) (by omega)
  have hv := unit_toNat (0xdc00 + (c.toNat - 0x10000) % 0x400) (by omega)
  have hhigh : isHighSurrogate (UInt16.ofNat (0xd800 + (c.toNat - 0x10000) / 0x400)) = true := by
    simp only [isHighSurrogate, hu]; simp; omega
  have hlow : isLowSurrogate (UInt16.ofNat (0xdc00 + (c.toNat - 0x10000) % 0x400)) = true := by
    simp only [isLowSurrogate, hv]; simp; omega
  have hval : pairValue (UInt16.ofNat (0xd800 + (c.toNat - 0x10000) / 0x400))
      (UInt16.ofNat (0xdc00 + (c.toNat - 0x10000) % 0x400)) = c.toNat := by
    rw [pairValue_eq hu hv]
    omega
  rw [toScalars, hhigh, hlow, hval, Char.ofNat_toNat]
  rfl

/-- Scalar values survive the way through code units. -/
@[simp] theorem toScalars_ofScalars (cs : List Char) : toScalars (ofScalars cs) = cs := by
  induction cs with
  | nil => rfl
  | cons c cs ih =>
    by_cases h : c.toNat < 0x10000
    · rw [ofScalars, List.flatMap_cons, codeUnits, if_pos h, List.singleton_append, toScalars_unit c h]
      exact congrArg (c :: ·) ih
    · rw [ofScalars, List.flatMap_cons, codeUnits, if_neg h, List.cons_append, List.singleton_append,
        toScalars_pair c h]
      exact congrArg (c :: ·) ih

theorem ofString_injective : Function.Injective ofString := fun s t h => by
  have hscalars := congrArg toScalars h
  rw [ofString, ofString, toScalars_ofScalars, toScalars_ofScalars] at hscalars
  exact String.toList_inj.mp hscalars

/-! ## UTF-8 -/

/-- `new TextEncoder().encode(s)`. -/
def textEncode (s : JsString) : Bytes := (toScalars s).flatMap String.utf8EncodeChar

/-- `textDecoder.decode(bytes)`, or nothing where the fatal decoder throws. -/
def textDecode (bytes : Bytes) : Option JsString := bytes.toByteArray.utf8Decode?.map fun cs => ofScalars cs.toList

/-- A decoded string encodes to the bytes it was read from. -/
theorem textEncode_of_textDecode {bytes : Bytes} {s : JsString} (h : textDecode bytes = some s) :
    textEncode s = bytes := by
  simp only [textDecode, Option.map_eq_some_iff] at h
  obtain ⟨cs, hcs, rfl⟩ := h
  have hback := @ByteArray.utf8Encode_get_utf8Decode? bytes.toByteArray (by rw [hcs]; rfl)
  simp only [hcs, Option.get_some] at hback
  have hbytes : (cs.toList.flatMap String.utf8EncodeChar).toByteArray = bytes.toByteArray := hback
  rw [textEncode, toScalars_ofScalars]
  have := congrArg (fun b => b.data.toList) hbytes
  simpa using this

theorem textDecode_of_textDecode {bytes : Bytes} {s : JsString} (h : textDecode bytes = some s) :
    textDecode (textEncode s) = some s := by
  rw [textEncode_of_textDecode h, h]

end JsText
end Shuvpi
