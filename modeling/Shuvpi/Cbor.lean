import Shuvpi.ExceptOk
import Shuvpi.JsNumber
import Shuvpi.JsProps

/-!
# The CBOR subset of the protocol

Encoder and decoder of the strict, definite-length RFC 8949 subset. The value
type holds everything `encodeCbor` may be handed, what it rejects included: array
holes, `undefined`, symbol-keyed properties, functions and class instances. Values
are trees, so the cycle check of the encoder has nothing to reject.

Both directions recurse on the nesting levels that are left: an item at `depth`
has `maxDepth + 1 - depth` levels, and none left is the depth error.
-/
namespace Shuvpi.Cbor

open JsText

def UINT32_BASE : Nat := 0x100000000
def MAX_UINT32 : Nat := 0xffffffff
def MAX_CONFIGURED_DEPTH : Nat := 512
def DEFAULT_MAX_CBOR_BYTE_LENGTH : Nat := 16 * 1024 * 1024
def DEFAULT_MAX_CBOR_CONTAINER_LENGTH : Nat := 1000000
def DEFAULT_MAX_CBOR_DEPTH : Nat := 64

/-- Thrown errors with their messages; `range` is the `RangeError` of the options. -/
inductive CborError where
  | cbor (message : String)
  | range (message : String)
  deriving DecidableEq, Repr

structure CborOptions where
  maxByteLength : Option Nat := none
  maxContainerLength : Option Nat := none
  maxDepth : Option Nat := none
  deriving DecidableEq, Repr

structure ResolvedCborOptions where
  maxByteLength : Nat
  maxContainerLength : Nat
  maxDepth : Nat
  deriving DecidableEq, Repr

def resolveLimit (name : String) (value maximum : Nat) : Except CborError Nat :=
  if value > maximum then .error (.range s!"{name} must be an integer between 0 and {maximum}")
  else .ok value

def resolveOptions (options : CborOptions) : Except CborError ResolvedCborOptions := do
  let maxByteLength ←
    resolveLimit "maxByteLength" (options.maxByteLength.getD DEFAULT_MAX_CBOR_BYTE_LENGTH) MAX_UINT32
  let maxContainerLength ←
    resolveLimit "maxContainerLength" (options.maxContainerLength.getD DEFAULT_MAX_CBOR_CONTAINER_LENGTH) MAX_UINT32
  let maxDepth ←
    resolveLimit "maxDepth" (options.maxDepth.getD DEFAULT_MAX_CBOR_DEPTH) MAX_CONFIGURED_DEPTH
  return { maxByteLength, maxContainerLength, maxDepth }

inductive JsValue where
  | undefined
  | null
  | boolean (b : Bool)
  | number (x : JsNumber)
  | string (s : JsString)
  | bytes (b : Bytes)
  /-- An absent element is a `hole`. -/
  | array (items : List JsValue)
  | hole
  /-- A plain object: whether it has an enumerable symbol key, and its string-keyed properties. -/
  | object (symbols : Bool) (props : List (JsString × JsValue))
  /-- Functions, symbols, big integers and class instances, by their `typeof`. -/
  | other (typeName : String)

namespace JsValue

/-- Only `undefined` and an absent element compare equal to `undefined`. -/
def isUndefined : JsValue → Bool
  | .undefined => true
  | .hole => true
  | _ => false

end JsValue

/-! ## Encoder -/

structure CborWriter where
  buffer : Bytes
  offset : Nat
  maxByteLength : Nat
  deriving DecidableEq, Repr

namespace CborWriter

def new (maxByteLength : Nat) : CborWriter := ⟨List.replicate (min 256 maxByteLength) 0, 0, maxByteLength⟩

/-- The growth loop of `ensureCapacity`. -/
def growCapacity (maxByteLength required : Nat) : Nat → Nat → Nat
  | 0, capacity => capacity
  | fuel + 1, capacity =>
    if capacity < required then
      growCapacity maxByteLength required fuel (min maxByteLength (max required (capacity * 2)))
    else capacity

def ensureCapacity (w : CborWriter) (additionalBytes : Nat) : Except CborError CborWriter :=
  let required := w.offset + additionalBytes
  if required > w.maxByteLength then
    .error (.cbor s!"CBOR byte length exceeds configured limit of {w.maxByteLength}")
  else if required ≤ w.buffer.length then .ok w
  else
    let capacity := growCapacity w.maxByteLength required required (max 1 w.buffer.length)
    .ok { w with buffer := w.buffer ++ List.replicate (capacity - w.buffer.length) 0 }

/-- Every write reserves the room and then stores the bytes at the offset. -/
def writeBytes (w : CborWriter) (bytes : Bytes) : Except CborError CborWriter := do
  let w ← w.ensureCapacity bytes.length
  return { w with
    buffer := w.buffer.take w.offset ++ bytes ++ w.buffer.drop (w.offset + bytes.length)
    offset := w.offset + bytes.length }

def writeByte (w : CborWriter) (value : Nat) : Except CborError CborWriter := w.writeBytes [UInt8.ofNat value]

def writeUint16 (w : CborWriter) (value : Nat) : Except CborError CborWriter :=
  w.writeBytes [UInt8.ofNat (value >>> 8), UInt8.ofNat value]

def writeUint32 (w : CborWriter) (value : Nat) : Except CborError CborWriter :=
  w.writeBytes [UInt8.ofNat (value >>> 24), UInt8.ofNat (value >>> 16), UInt8.ofNat (value >>> 8), UInt8.ofNat value]

def writeUint64 (w : CborWriter) (value : Nat) : Except CborError CborWriter := do
  let high := value / UINT32_BASE
  let low := value - high * UINT32_BASE
  let w ← w.writeUint32 high
  w.writeUint32 low

/-- The eight bytes that `setFloat64` stores, most significant first. -/
def float64Bytes (x : JsNumber) : Bytes :=
  let n := x.bits.toNat
  [UInt8.ofNat (n >>> 56), UInt8.ofNat (n >>> 48), UInt8.ofNat (n >>> 40), UInt8.ofNat (n >>> 32),
    UInt8.ofNat (n >>> 24), UInt8.ofNat (n >>> 16), UInt8.ofNat (n >>> 8), UInt8.ofNat n]

def writeFloat64 (w : CborWriter) (value : JsNumber) : Except CborError CborWriter :=
  w.writeBytes (0xfb :: float64Bytes value)

def finish (w : CborWriter) : Bytes := w.buffer.take w.offset

end CborWriter

def writeArgument (w : CborWriter) (majorType value : Nat) : Except CborError CborWriter := do
  let typeBits := majorType * 32
  if value < 24 then w.writeByte (typeBits + value)
  else if value ≤ 0xff then
    let w ← w.writeByte (typeBits + 24)
    w.writeByte value
  else if value ≤ 0xffff then
    let w ← w.writeByte (typeBits + 25)
    w.writeUint16 value
  else if value ≤ MAX_UINT32 then
    let w ← w.writeByte (typeBits + 26)
    w.writeUint32 value
  else
    let w ← w.writeByte (typeBits + 27)
    w.writeUint64 value

def encodeText (options : ResolvedCborOptions) (w : CborWriter) (value : JsString) : Except CborError CborWriter := do
  let bytes := textEncode value
  if bytes.length > options.maxByteLength then
    throw (.cbor s!"CBOR text string length exceeds configured limit of {options.maxByteLength}")
  if textDecode bytes ≠ some value then
    throw (.cbor "CBOR text strings must contain valid Unicode scalar values")
  let w ← writeArgument w 3 bytes.length
  w.writeBytes bytes

def encodeNumber (w : CborWriter) (value : JsNumber) : Except CborError CborWriter := do
  if !value.isFinite then throw (.cbor "CBOR numbers must be finite")
  if value.isInteger && !value.isNegZero then
    if !value.isSafeInteger then throw (.cbor "CBOR integers must be safe JavaScript integers")
    if 0 ≤ value.toInt then writeArgument w 0 value.toInt.toNat
    else writeArgument w 1 (-1 - value.toInt).toNat
  else w.writeFloat64 value

/-- The entries of a map: properties whose value is `undefined` are left out. -/
def definedEntries (props : List (JsString × JsValue)) : List (JsString × JsValue) :=
  props.filter fun p => !p.2.isUndefined

/-- One turn of the array loop; `encode` writes the items one level down. -/
def encodeElement (encode : CborWriter → JsValue → Except CborError CborWriter) (w : CborWriter)
    (item : JsValue) : Except CborError CborWriter := do
  if item.isUndefined then throw (.cbor "CBOR arrays must not contain holes or undefined values")
  encode w item

/-- One turn of the map loop. -/
def encodeEntry (options : ResolvedCborOptions) (encode : CborWriter → JsValue → Except CborError CborWriter)
    (w : CborWriter) (entry : JsString × JsValue) : Except CborError CborWriter := do
  let w ← encodeText options w entry.1
  encode w entry.2

def encodeValue (options : ResolvedCborOptions) : Nat → CborWriter → JsValue → Except CborError CborWriter
  | 0, _, _ => .error (.cbor s!"CBOR nesting depth exceeds configured limit of {options.maxDepth}")
  | levels + 1, w, value => do
    match value with
    | .null => w.writeByte 0xf6
    | .boolean b => w.writeByte (if b then 0xf5 else 0xf4)
    | .number x => encodeNumber w x
    | .string s => encodeText options w s
    | .bytes b =>
      if b.length > options.maxByteLength then
        throw (.cbor s!"CBOR byte string length exceeds configured limit of {options.maxByteLength}")
      let w ← writeArgument w 2 b.length
      w.writeBytes b
    | .array items =>
      if items.length > options.maxContainerLength then
        throw (.cbor s!"CBOR array length exceeds configured limit of {options.maxContainerLength}")
      let w ← writeArgument w 4 items.length
      items.foldlM (encodeElement (encodeValue options levels)) w
    | .object symbols props =>
      if symbols then throw (.cbor "CBOR map keys must be strings")
      let entries := definedEntries props
      if entries.length > options.maxContainerLength then
        throw (.cbor s!"CBOR map length exceeds configured limit of {options.maxContainerLength}")
      let w ← writeArgument w 5 entries.length
      entries.foldlM (encodeEntry options (encodeValue options levels)) w
    | .undefined => throw (.cbor "Unsupported CBOR value type: undefined")
    | .hole => throw (.cbor "Unsupported CBOR value type: undefined")
    | .other typeName => throw (.cbor s!"Unsupported CBOR value type: {typeName}")

def encodeCbor (value : JsValue) (options : CborOptions) : Except CborError Bytes := do
  let resolved ← resolveOptions options
  let w ← encodeValue resolved (resolved.maxDepth + 1) (CborWriter.new resolved.maxByteLength) value
  return w.finish

/-! ## Decoder

The reader is the list of the bytes from its offset on. -/

abbrev Read (α : Type) := Bytes → Except CborError (α × Bytes)

def readByte : Read Nat
  | [] => .error (.cbor "Truncated CBOR payload")
  | b :: rest => .ok (b.toNat, rest)

def readBytes (length : Nat) : Read Bytes := fun bytes =>
  if length > bytes.length then .error (.cbor "Truncated CBOR payload")
  else .ok (bytes.take length, bytes.drop length)

/-- The four-byte argument, additional information 26. -/
def readUint32 : Read Nat := fun bytes => do
  let (b, rest) ← readBytes 4 bytes
  return (0x1000000 * (b.getD 0 0).toNat + 0x10000 * (b.getD 1 0).toNat + 0x100 * (b.getD 2 0).toNat +
    (b.getD 3 0).toNat, rest)

def readArgument (additionalInformation : Nat) : Read Nat := fun bytes =>
  if additionalInformation < 24 then .ok (additionalInformation, bytes)
  else
    match additionalInformation with
    | 24 => readByte bytes
    | 25 => do
      let (b, rest) ← readBytes 2 bytes
      return (0x100 * (b.getD 0 0).toNat + (b.getD 1 0).toNat, rest)
    | 26 => readUint32 bytes
    | 27 => do
      let (high, rest) ← readUint32 bytes
      let (low, rest) ← readUint32 rest
      if high > 0x1fffff then throw (.cbor "Decoded CBOR integer or length is outside the safe range")
      return (UINT32_BASE * high + low, rest)
    | 31 => .error (.cbor "Indefinite-length CBOR items are not supported")
    | _ => .error (.cbor "Malformed CBOR additional information")

def readLength (additionalInformation : Nat) (kind : String) (limit : Nat) : Read Nat := fun bytes => do
  if additionalInformation = 31 then
    throw (.cbor s!"Indefinite-length CBOR {kind}s are not supported")
  let (length, rest) ← readArgument additionalInformation bytes
  if length > limit then throw (.cbor s!"CBOR {kind} length exceeds configured limit of {limit}")
  return (length, rest)

/-- `getFloat64` on eight bytes, most significant first. -/
def float64Value (b : Bytes) : JsNumber := ⟨UInt64.ofNat (b.foldl (fun n byte => 256 * n + byte.toNat) 0)⟩

def readSimple (additionalInformation : Nat) : Read JsValue := fun bytes =>
  match additionalInformation with
  | 20 => .ok (.boolean false, bytes)
  | 21 => .ok (.boolean true, bytes)
  | 22 => .ok (.null, bytes)
  | 27 => do
    let (b, rest) ← readBytes 8 bytes
    let value := float64Value b
    if !value.isFinite then throw (.cbor "Decoded CBOR number must be finite")
    if value.isInteger && !value.isSafeInteger then
      throw (.cbor "Decoded CBOR integer is outside the safe range")
    return (.number value, rest)
  | 31 => .error (.cbor "CBOR break marker is not supported")
  | _ => .error (.cbor "Unsupported CBOR simple value or floating-point width")

/-- Read `count` items one after the other. -/
def readMany (item : Read JsValue) : Nat → Read (List JsValue)
  | 0, bytes => .ok ([], bytes)
  | count + 1, bytes => do
    let (value, rest) ← item bytes
    let (values, rest) ← readMany item count rest
    return (value :: values, rest)

/-- Read `count` entries into an object that already has some properties. -/
def readEntries (item : Read JsValue) : Nat → List (JsString × JsValue) → Read (List (JsString × JsValue))
  | 0, props, bytes => .ok (props, bytes)
  | count + 1, props, bytes => do
    let (key, rest) ← item bytes
    match key with
    | .string key =>
      if key ∈ JsProps.keys props then throw (.cbor "CBOR map contains a duplicate key")
      let (value, rest) ← item rest
      readEntries item count (JsProps.define props key value) rest
    | _ => throw (.cbor "CBOR map keys must be strings")

/-- What follows the initial byte of an item; `item` reads the items one level down. -/
def readBody (options : ResolvedCborOptions) (item : Read JsValue) (majorType additionalInformation : Nat) :
    Read JsValue := fun bytes => do
  match majorType with
  | 0 =>
    let (n, rest) ← readArgument additionalInformation bytes
    return (.number (JsNumber.ofInt n), rest)
  | 1 =>
    let (n, rest) ← readArgument additionalInformation bytes
    if n + 1 > JsNumber.MAX_SAFE_INTEGER then
      throw (.cbor "Decoded CBOR integer is outside the safe range")
    return (.number (JsNumber.ofInt (-1 - n)), rest)
  | 2 =>
    let (length, rest) ← readLength additionalInformation "byte string" options.maxByteLength bytes
    let (b, rest) ← readBytes length rest
    return (.bytes b, rest)
  | 3 =>
    let (length, rest) ← readLength additionalInformation "text string" options.maxByteLength bytes
    let (b, rest) ← readBytes length rest
    match textDecode b with
    | some s => return (.string s, rest)
    | none => throw (.cbor "CBOR text string contains invalid UTF-8")
  | 4 =>
    let (length, rest) ← readLength additionalInformation "array" options.maxContainerLength bytes
    let (items, rest) ← readMany item length rest
    return (.array items, rest)
  | 5 =>
    let (length, rest) ← readLength additionalInformation "map" options.maxContainerLength bytes
    let (props, rest) ← readEntries item length [] rest
    return (.object false props, rest)
  | 6 => throw (.cbor "CBOR tags are not supported")
  | _ => readSimple additionalInformation bytes

def readItem (options : ResolvedCborOptions) : Nat → Read JsValue
  | 0, _ => .error (.cbor s!"CBOR nesting depth exceeds configured limit of {options.maxDepth}")
  | levels + 1, bytes => do
    let (initial, rest) ← readByte bytes
    readBody options (readItem options levels) (initial / 32) (initial % 32) rest

def decodeCbor (bytes : Bytes) (options : CborOptions) : Except CborError JsValue := do
  let resolved ← resolveOptions options
  if bytes.length > resolved.maxByteLength then
    throw (.cbor s!"CBOR byte length exceeds configured limit of {resolved.maxByteLength}")
  let (value, rest) ← readItem resolved (resolved.maxDepth + 1) bytes
  if rest ≠ [] then throw (.cbor "CBOR payload contains trailing data")
  return value

end Shuvpi.Cbor
