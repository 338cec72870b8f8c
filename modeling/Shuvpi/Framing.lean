import Mathlib.Data.List.Basic
import Mathlib.Tactic
import Shuvpi.ExceptOk

/-!
# Length-prefixed framing

`encodeFrame` puts an unsigned 32-bit big-endian length before a payload, and
`FrameDecoder` splits a byte stream that arrives in arbitrary chunks back into
payloads. The decoder is modelled with every field it keeps between two calls:
the four-byte header buffer, the list of payload blocks of at most 64 KiB, the
index of the block being filled, the counters and the life-cycle state. A chunk
read up to `chunkOffset` is the list of the bytes that remain.

The specification is `drain`: what can be cut from the front of the bytes seen
so far. It inverts the encoder exactly on the streams that leave nothing over.
-/
open Except hiding error ok
open List

namespace Shuvpi.Framing

abbrev Bytes := List UInt8

def FRAME_HEADER_LENGTH : Nat := 4
def MAX_UINT32 : Nat := 0xffffffff
def PAYLOAD_BLOCK_SIZE : Nat := 64 * 1024
def DEFAULT_MAX_FRAME_LENGTH : Nat := 16 * 1024 * 1024

inductive FrameError where
  | ended
  | failed
  | exceeds (frameLength maxFrameLength : Nat)
  | truncated
  deriving DecidableEq, Repr

def FrameError.message : FrameError → String
  | .ended => "Frame decoder has ended"
  | .failed => "Frame decoder has failed"
  | .exceeds frameLength maxFrameLength =>
    s!"Frame length {frameLength} exceeds configured limit of {maxFrameLength}"
  | .truncated => "Truncated frame at end of stream"

/-- The message of the one `RangeError` of `encodeFrame`. -/
def payloadTooLong : String := "Frame payload exceeds the unsigned 32-bit length limit"

/-- Storing a number in a `Uint8Array` element keeps its low eight bits. -/
def encodeFrame (payload : Bytes) : Except String Bytes :=
  if payload.length > MAX_UINT32 then .error payloadTooLong
  else
    let length := payload.length
    .ok ([UInt8.ofNat (length >>> 24), UInt8.ofNat (length >>> 16), UInt8.ofNat (length >>> 8),
      UInt8.ofNat length] ++ payload)

inductive DecoderState where
  | «open» | ended | failed
  deriving DecidableEq, Repr

structure FrameDecoder where
  header : Bytes
  headerLength : Nat
  maxFrameLength : Nat
  payloadBlocks : List Bytes
  /-- Index in `payloadBlocks` of the block being filled. -/
  currentPayloadBlock : Option Nat
  currentPayloadBlockLength : Nat
  expectedPayloadLength : Option Nat
  payloadLength : Nat
  state : DecoderState
  deriving DecidableEq, Repr

def resolveMaxFrameLength (options : Option Nat) : Except String Nat :=
  let value := options.getD DEFAULT_MAX_FRAME_LENGTH
  if value > MAX_UINT32 then
    .error s!"maxFrameLength must be an integer between 0 and {MAX_UINT32}"
  else .ok value

def FrameDecoder.new (options : Option Nat) : Except String FrameDecoder :=
  (resolveMaxFrameLength options).map fun maxFrameLength =>
    { header := List.replicate FRAME_HEADER_LENGTH 0
      headerLength := 0
      maxFrameLength
      payloadBlocks := []
      currentPayloadBlock := none
      currentPayloadBlockLength := 0
      expectedPayloadLength := none
      payloadLength := 0
      state := .open }

/-- `target.set(source, offset)` on a typed array that has room for the source. -/
def setBytes (target source : Bytes) (offset : Nat) : Bytes :=
  target.take offset ++ source ++ target.drop (offset + source.length)

/-- The 32-bit length spelled by the four header bytes. -/
def headerValue (header : Bytes) : Nat := 0x1000000 * (header.getD 0 0).toNat + 0x10000 * (header.getD 1 0).toNat +
    0x100 * (header.getD 2 0).toNat + (header.getD 3 0).toNat

namespace FrameDecoder

def resetPayload (d : FrameDecoder) : FrameDecoder :=
  { d with
    payloadBlocks := []
    currentPayloadBlock := none
    currentPayloadBlockLength := 0
    payloadLength := 0 }

/-- The decoder state after `fail`; the error is thrown by the caller. -/
def fail (d : FrameDecoder) : FrameDecoder :=
  { d.resetPayload with state := .failed, headerLength := 0, expectedPayloadLength := none }

/-- The block with room that the next payload bytes go to. -/
def block? (d : FrameDecoder) : Option (Nat × Bytes) :=
  d.currentPayloadBlock.bind fun i =>
    (d.payloadBlocks[i]?).bind fun block =>
      if d.currentPayloadBlockLength = block.length then none else some (i, block)

def allocateBlock (d : FrameDecoder) (expected : Nat) : FrameDecoder :=
  let block := List.replicate (min PAYLOAD_BLOCK_SIZE (expected - d.payloadLength)) (0 : UInt8)
  { d with
    payloadBlocks := d.payloadBlocks ++ [block]
    currentPayloadBlock := some d.payloadBlocks.length
    currentPayloadBlockLength := 0 }

/-- Copy what fits of the remaining chunk into block `i`. -/
def copyInto (d : FrameDecoder) (i : Nat) (block rest : Bytes) : FrameDecoder × Bytes :=
  let payloadBytes := min (block.length - d.currentPayloadBlockLength) rest.length
  ({ d with
      payloadBlocks := d.payloadBlocks.set i
        (setBytes block (rest.take payloadBytes) d.currentPayloadBlockLength)
      currentPayloadBlockLength := d.currentPayloadBlockLength + payloadBytes
      payloadLength := d.payloadLength + payloadBytes },
    rest.drop payloadBytes)

/-- One turn of the inner loop of `push`. -/
def fillStep (d : FrameDecoder) (expected : Nat) (rest : Bytes) : FrameDecoder × Bytes :=
  let d := if d.block?.isNone then d.allocateBlock expected else d
  match d.block? with
  | some (i, block) => d.copyInto i block rest
  | none => (d, rest)

/-- The inner loop of `push`. Every turn takes at least one byte of the chunk,
so the number of remaining bytes bounds the number of turns. -/
def fillPayload (expected : Nat) : Nat → FrameDecoder → Bytes → FrameDecoder × Bytes
  | 0, d, rest => (d, rest)
  | fuel + 1, d, rest =>
    if rest.length > 0 ∧ d.payloadLength < expected then
      let (d, rest) := d.fillStep expected rest
      fillPayload expected fuel d rest
    else (d, rest)

/-- The frame handed out once the payload is complete. -/
def framePayload (d : FrameDecoder) : Bytes :=
  match d.payloadBlocks with
  | [block] => block
  | blocks => blocks.flatten

/-- The part of a turn of the outer loop that reads payload bytes. -/
def payloadTurn (d : FrameDecoder) (expected : Nat) (rest : Bytes) : FrameDecoder × Bytes × List Bytes :=
  let (d, rest) := fillPayload expected rest.length d rest
  if d.payloadLength = expected then
    ({ d.resetPayload with expectedPayloadLength := none }, rest, [d.framePayload])
  else (d, rest, [])

/-- One turn of the outer loop of `push`: the decoder, the bytes that remain and
the frames completed by the turn, or the error of an oversized header. -/
def turn (d : FrameDecoder) (rest : Bytes) : FrameDecoder × Except FrameError (Bytes × List Bytes) :=
  match d.expectedPayloadLength with
  | some expected =>
    let (d, rest, frames) := d.payloadTurn expected rest
    (d, .ok (rest, frames))
  | none =>
    let headerBytes := min (FRAME_HEADER_LENGTH - d.headerLength) rest.length
    let d := { d with
      header := setBytes d.header (rest.take headerBytes) d.headerLength
      headerLength := d.headerLength + headerBytes }
    let rest := rest.drop headerBytes
    if d.headerLength < FRAME_HEADER_LENGTH then (d, .ok (rest, []))
    else
      let frameLength := headerValue d.header
      let d := { d with headerLength := 0 }
      if frameLength > d.maxFrameLength then
        (d.fail, .error (.exceeds frameLength d.maxFrameLength))
      else if frameLength = 0 then (d, .ok (rest, [[]]))
      else
        let d := { d.resetPayload with expectedPayloadLength := some frameLength }
        let (d, rest, frames) := d.payloadTurn frameLength rest
        (d, .ok (rest, frames))

/-- The outer loop of `push`, bounded as the inner one. -/
def pushLoop : Nat → FrameDecoder → Bytes → List Bytes → FrameDecoder × Except FrameError (List Bytes)
  | 0, d, _, frames => (d, .ok frames)
  | fuel + 1, d, rest, frames =>
    if rest.length > 0 then
      match d.turn rest with
      | (d, .error e) => (d, .error e)
      | (d, .ok (rest, more)) => pushLoop fuel d rest (frames ++ more)
    else (d, .ok frames)

def push (d : FrameDecoder) (chunk : Bytes) : FrameDecoder × Except FrameError (List Bytes) :=
  match d.state with
  | .ended => (d, .error .ended)
  | .failed => (d, .error .failed)
  | .open => pushLoop chunk.length d chunk []

def «end» (d : FrameDecoder) : FrameDecoder × Except FrameError (List Bytes) :=
  match d.state with
  | .ended => (d, .error .ended)
  | .failed => (d, .error .failed)
  | .open =>
    if d.headerLength ≠ 0 ∨ d.expectedPayloadLength.isSome then (d.fail, .error .truncated)
    else ({ d with state := .ended }, .ok [])

end FrameDecoder

/-! ## What a stream contains -/

/-- The frames that can be cut from the front of a stream, and the bytes of the
unfinished frame after them. -/
def drain (maxFrameLength : Nat) (bytes : Bytes) : Except FrameError (List Bytes × Bytes) :=
  if bytes.length < 4 then .ok ([], bytes)
  else if headerValue bytes > maxFrameLength then
    .error (.exceeds (headerValue bytes) maxFrameLength)
  else if bytes.length < 4 + headerValue bytes then .ok ([], bytes)
  else
    (drain maxFrameLength (bytes.drop (4 + headerValue bytes))).map fun (frames, rest) =>
      ((bytes.drop 4).take (headerValue bytes) :: frames, rest)
termination_by bytes.length
decreasing_by simp only [List.length_drop]; omega

variable (maxFrameLength : Nat)

theorem drain_short (bytes : Bytes) (h : bytes.length < 4) :
    drain maxFrameLength bytes = .ok ([], bytes) := by
  rw [drain]; simp [h]

theorem drain_nil : drain maxFrameLength [] = .ok ([], []) := drain_short _ _ (by simp)

theorem headerValue_append (bytes more : Bytes) (h : 4 ≤ bytes.length) :
    headerValue (bytes ++ more) = headerValue bytes := by
  simp only [headerValue, getD_eq_getElem?_getD]
  rw [getElem?_append_left (by omega), getElem?_append_left (by omega),
    getElem?_append_left (by omega), getElem?_append_left (by omega)]

/-- Draining a longer stream first drains the shorter one. -/
theorem drain_append (bytes more : Bytes) : drain maxFrameLength (bytes ++ more) =
      (drain maxFrameLength bytes).bind fun (frames, rest) =>
        (drain maxFrameLength (rest ++ more)).map fun (frames', rest') => (frames ++ frames', rest') := by
  induction bytes using drain.induct maxFrameLength with
  | case1 bytes h =>
    rw [drain_short _ _ h]
    simp [Except.bind, Except.map]
    cases drain maxFrameLength (bytes ++ more) <;> rfl
  | case2 bytes h hmax =>
    have h4 : 4 ≤ bytes.length := by omega
    conv => lhs; rw [drain]
    conv => rhs; rw [drain]
    have hlen : ¬ (bytes ++ more).length < 4 := by simp; omega
    simp only [if_neg hlen, headerValue_append _ _ h4, if_pos hmax, if_neg h]
    rfl
  | case3 bytes h hmax hshort =>
    conv => rhs; rw [drain]
    simp only [if_neg h, if_neg hmax, if_pos hshort, Except.bind, List.nil_append]
    cases drain maxFrameLength (bytes ++ more) <;> rfl
  | case4 bytes h hmax hshort ih =>
    have h4 : 4 ≤ bytes.length := by omega
    conv => lhs; rw [drain]
    conv => rhs; rw [drain]
    have hlen : ¬ (bytes ++ more).length < 4 := by simp; omega
    have hlen' : ¬ (bytes ++ more).length < 4 + headerValue bytes := by simp; omega
    simp only [if_neg hlen, headerValue_append _ _ h4, if_neg hmax, if_neg hlen', if_neg h, if_neg hshort]
    rw [List.drop_append_of_le_length (show 4 + headerValue bytes ≤ bytes.length by omega),
      List.drop_append_of_le_length h4, List.take_append_of_le_length (by simp; omega), ih]
    cases hd : drain maxFrameLength (bytes.drop (4 + headerValue bytes)) with
    | error e => rfl
    | ok r =>
      obtain ⟨frames, rest⟩ := r
      simp only [Except.map, Except.bind]
      cases drain maxFrameLength (rest ++ more) <;> rfl

/-! ## Encoded frames -/

theorem byte_value (n : Nat) : (UInt8.ofNat n).toNat = n % 256 := by simp

/-- The four bytes of a length that fits 32 bits spell it. -/
theorem headerValue_encode (n : Nat) (h : n ≤ MAX_UINT32) (payload : Bytes) :
    headerValue ([UInt8.ofNat (n >>> 24), UInt8.ofNat (n >>> 16), UInt8.ofNat (n >>> 8),
      UInt8.ofNat n] ++ payload) = n := by
  simp only [headerValue, cons_append, nil_append, getD_cons_zero, getD_cons_succ,
    byte_value, Nat.shiftRight_eq_div_pow]
  simp only [MAX_UINT32] at h
  omega

/-- Four bytes are the encoding of the length they spell. -/
theorem encode_headerValue (a b c e : UInt8) (payload : Bytes) :
    [UInt8.ofNat (headerValue (a :: b :: c :: e :: payload) >>> 24),
      UInt8.ofNat (headerValue (a :: b :: c :: e :: payload) >>> 16),
      UInt8.ofNat (headerValue (a :: b :: c :: e :: payload) >>> 8),
      UInt8.ofNat (headerValue (a :: b :: c :: e :: payload))] = [a, b, c, e] := by
  have ha := a.toNat_lt
  have hb := b.toNat_lt
  have hc := c.toNat_lt
  have he := e.toNat_lt
  simp only [headerValue, getD_cons_zero, getD_cons_succ, Nat.shiftRight_eq_div_pow]
  simp only [cons.injEq, and_true, ← UInt8.toNat_inj, byte_value]
  refine ⟨?_, ?_, ?_, ?_⟩ <;> omega

/-- The stream that the encodings of a list of payloads make, when all of them
can be encoded. -/
def encodeFrames (payloads : List Bytes) : Except String Bytes := (payloads.mapM encodeFrame).map List.flatten

theorem encodeFrame_ok (payload : Bytes) (h : payload.length ≤ MAX_UINT32) :
    encodeFrame payload = .ok ([UInt8.ofNat (payload.length >>> 24), UInt8.ofNat (payload.length >>> 16),
      UInt8.ofNat (payload.length >>> 8), UInt8.ofNat payload.length] ++ payload) := by
  simp [encodeFrame, Nat.not_lt.mpr h]

theorem encodeFrames_nil : encodeFrames [] = .ok [] := rfl

theorem encodeFrames_cons (payload : Bytes) (payloads : List Bytes) : encodeFrames (payload :: payloads) =
      (encodeFrame payload).bind fun frame => (encodeFrames payloads).map fun rest => frame ++ rest := by
  simp only [encodeFrames, mapM_cons]
  cases encodeFrame payload with
  | error e => rfl
  | ok frame => cases payloads.mapM encodeFrame <;> rfl

/-- A stream drains to nothing left exactly when it is a concatenation of
encodings of payloads within the limit. -/
theorem drain_complete_iff (hmax : maxFrameLength ≤ MAX_UINT32)
    (bytes : Bytes) (payloads : List Bytes) :
    drain maxFrameLength bytes = .ok (payloads, []) ↔
      encodeFrames payloads = .ok bytes ∧ ∀ payload ∈ payloads, payload.length ≤ maxFrameLength := by
  constructor
  · intro h
    induction bytes using drain.induct maxFrameLength generalizing payloads with
    | case1 bytes hs =>
      rw [drain_short _ _ hs] at h
      injection h with h
      obtain ⟨rfl, rfl⟩ := Prod.mk.inj h
      exact ⟨rfl, by simp⟩
    | case2 bytes hs hm => rw [drain] at h; simp [hs, hm] at h
    | case3 bytes hs hm hshort =>
      rw [drain] at h
      simp only [if_neg hs, if_neg hm, if_pos hshort, Except.ok.injEq, Prod.mk.injEq] at h
      exact absurd (by simp [h.2]) hs
    | case4 bytes hs hm hshort ih =>
      rw [drain] at h
      simp only [if_neg hs, if_neg hm, if_neg hshort] at h
      obtain ⟨⟨frames, rest⟩, hd, h⟩ := bind_ok.mp h
      simp only [Except.ok.injEq, Prod.mk.injEq] at h
      obtain ⟨rfl, rfl⟩ := h
      obtain ⟨henc, hle⟩ := ih frames hd
      have hlen : ((bytes.drop 4).take (headerValue bytes)).length = headerValue bytes := by
        simp; omega
      refine ⟨?_, ?_⟩
      · rw [encodeFrames_cons, encodeFrame_ok _ (by omega), henc, hlen]
        match bytes, hs with
        | a :: b :: c :: e :: payload, _ =>
          simp only [Except.bind, Except.map, encode_headerValue, drop_succ_cons, drop_zero,
            Except.ok.injEq, Nat.add_comm 4]
          simp
        | [_, _, _], hs => simp at hs
        | [_, _], hs => simp at hs
        | [_], hs => simp at hs
        | [], hs => simp at hs
      · intro payload hp
        rcases mem_cons.mp hp with rfl | hp
        · omega
        · exact hle payload hp
  · rintro ⟨henc, hle⟩
    induction payloads generalizing bytes with
    | nil =>
      rw [encodeFrames_nil] at henc
      injection henc with henc
      subst henc
      exact drain_nil _
    | cons payload payloads ih =>
      have hp : payload.length ≤ maxFrameLength := hle payload (by simp)
      rw [encodeFrames_cons, encodeFrame_ok _ (by omega)] at henc
      cases hr : encodeFrames payloads with
      | error e => rw [hr] at henc; cases henc
      | ok rest =>
        rw [hr] at henc
        simp only [Except.bind, Except.map, Except.ok.injEq] at henc
        subst henc
        have ih := ih rest hr (fun q hq => hle q (by simp [hq]))
        rw [append_assoc, drain, headerValue_encode _ (by omega)]
        simp only [length_append, length_cons, length_nil]
        rw [if_neg (by omega), if_neg (by omega), if_neg (by omega)]
        simp only [cons_append, nil_append, Nat.add_comm 4, drop_succ_cons, drop_zero, drop_left, take_left, ih]
        rfl

end Shuvpi.Framing
