import Shuvpi.Framing

/-!
# The frame decoder follows the stream

`Represents` ties a decoder to the bytes of its unfinished frame. Every turn of
`push` keeps it and hands out exactly the frames that `drain` cuts from the
stream, so the chunking disappears from the statements about whole streams.
-/
namespace Shuvpi.Framing

open List hiding cons nil
open Except hiding error ok

/-! ## Payload blocks -/

/-- The payload bytes received so far are the full blocks followed by the filled
part of the current block; no block is allocated past the expected length. -/
structure Filled (d : FrameDecoder) (received : Bytes) (expected : Nat) : Prop where
  length : d.payloadLength = received.length
  blocks : (d.payloadBlocks = [] ∧ d.currentPayloadBlock = none ∧ received = []) ∨
    ∃ full last, d.payloadBlocks = full ++ [last] ∧ d.currentPayloadBlock = some full.length ∧
      d.currentPayloadBlockLength ≤ last.length ∧
      full.flatten ++ last.take d.currentPayloadBlockLength = received ∧
      full.flatten.length + last.length ≤ expected

/-- The fields that reading payload bytes leaves alone. -/
structure SameFrame (d d' : FrameDecoder) : Prop where
  header : d'.header = d.header
  headerLength : d'.headerLength = d.headerLength
  maxFrameLength : d'.maxFrameLength = d.maxFrameLength
  expected : d'.expectedPayloadLength = d.expectedPayloadLength
  state : d'.state = d.state

variable (d : FrameDecoder)

theorem SameFrame.refl : SameFrame d d := ⟨rfl, rfl, rfl, rfl, rfl⟩

theorem SameFrame.trans {d d' d'' : FrameDecoder} (h : SameFrame d d') (h' : SameFrame d' d'') : SameFrame d d'' :=
  ⟨h'.header.trans h.header, h'.headerLength.trans h.headerLength,
    h'.maxFrameLength.trans h.maxFrameLength, h'.expected.trans h.expected, h'.state.trans h.state⟩

variable (target source : Bytes)

theorem setBytes_take (offset : Nat) (h : offset ≤ target.length) :
    (setBytes target source offset).take (offset + source.length) = target.take offset ++ source := by
  rw [setBytes, take_left']
  simp [Nat.min_eq_left h]

theorem setBytes_length (offset : Nat)
    (h : offset + source.length ≤ target.length) : (setBytes target source offset).length = target.length := by
  simp [setBytes]; omega

/-- The current block, the last one after the full ones, has room left. -/
structure HasRoom (d : FrameDecoder) (full : List Bytes) (last received : Bytes) (expected : Nat) : Prop where
  blocks : d.payloadBlocks = full ++ [last]
  current : d.currentPayloadBlock = some full.length
  room : d.currentPayloadBlockLength < last.length
  length : d.payloadLength = received.length
  content : full.flatten ++ last.take d.currentPayloadBlockLength = received
  capacity : full.flatten.length + last.length ≤ expected

variable {full : List Bytes}

theorem HasRoom.block {d : FrameDecoder} {last received : Bytes} {expected : Nat}
    (h : HasRoom d full last received expected) : d.block? = some (full.length, last) := by
  have := h.room
  simp [FrameDecoder.block?, h.current, h.blocks]
  omega

/-- Copying into the current block extends the received bytes by what was copied. -/
theorem copyInto_filled {d : FrameDecoder} {last received : Bytes} {expected : Nat}
    (h : HasRoom d full last received expected) (rest : Bytes) :
    let k := min (last.length - d.currentPayloadBlockLength) rest.length
    Filled (d.copyInto full.length last rest).1 (received ++ rest.take k) expected ∧
      (d.copyInto full.length last rest).2 = rest.drop k ∧
      SameFrame d (d.copyInto full.length last rest).1 := by
  intro k
  have hk : (rest.take k).length = k := by simp [k]
  have hroom := h.room
  have hfit : d.currentPayloadBlockLength + (rest.take k).length ≤ last.length := by omega
  refine ⟨⟨?_, Or.inr ⟨full, setBytes last (rest.take k) d.currentPayloadBlockLength, ?_, ?_, ?_, ?_, ?_⟩⟩,
    rfl, ⟨rfl, rfl, rfl, rfl, rfl⟩⟩
  · simp [FrameDecoder.copyInto, h.length, k]
  · simp [FrameDecoder.copyInto, h.blocks, k]
  · exact h.current
  · rw [setBytes_length _ _ _ hfit]
    simp only [FrameDecoder.copyInto]
    omega
  · have ht := setBytes_take last (rest.take k) d.currentPayloadBlockLength (Nat.le_of_lt hroom)
    rw [hk] at ht
    simp only [FrameDecoder.copyInto]
    rw [ht, ← append_assoc, h.content]
  · rw [setBytes_length _ _ _ hfit]
    exact h.capacity

variable (received : Bytes) (expected : Nat)

/-- A block allocated after full ones has room for the bytes still expected. -/
theorem allocateBlock_room
    (hlen : d.payloadLength = received.length) (hflat : d.payloadBlocks.flatten = received)
    (hlt : received.length < expected) :
    ∃ last, HasRoom (d.allocateBlock expected) d.payloadBlocks last received expected := by
  have hsize : 0 < min PAYLOAD_BLOCK_SIZE (expected - d.payloadLength) := by
    simp only [PAYLOAD_BLOCK_SIZE]
    omega
  refine ⟨replicate (min PAYLOAD_BLOCK_SIZE (expected - d.payloadLength)) 0, rfl, rfl, ?_, hlen, ?_, ?_⟩
  · simpa [FrameDecoder.allocateBlock] using hsize
  · simpa [FrameDecoder.allocateBlock] using hflat
  · simp only [hflat, length_replicate]
    omega

/-- Whether or not a block had to be allocated, the block written next has room. -/
theorem room_for_next
    (h : Filled d received expected) (hlt : received.length < expected) :
    ∃ full last, HasRoom (if d.block?.isNone then d.allocateBlock expected else d) full last received expected := by
  rcases h.blocks with ⟨hb, hc, hr⟩ | ⟨full, last, hb, hc, hl, hr, hcap⟩
  · have hnone : d.block?.isNone := by simp [FrameDecoder.block?, hc]
    rw [if_pos hnone]
    exact ⟨_, allocateBlock_room d received expected h.length (by simp [hb, hr]) hlt⟩
  · by_cases hfull : d.currentPayloadBlockLength = last.length
    · have hnone : d.block?.isNone := by simp [FrameDecoder.block?, hc, hb, hfull]
      rw [if_pos hnone]
      refine ⟨_, allocateBlock_room d received expected h.length ?_ hlt⟩
      rw [← hr, hb, hfull, take_length]
      simp
    · have hsome : ¬ d.block?.isNone := by simp [FrameDecoder.block?, hc, hb, hfull]
      rw [if_neg hsome]
      exact ⟨full, last, hb, hc, by omega, h.length, hr, hcap⟩

/-- One turn of the inner loop takes at least one byte, and never more than the
frame still needs. -/
theorem fillStep_filled (received rest : Bytes) (expected : Nat)
    (h : Filled d received expected) (hlt : received.length < expected) (hrest : 0 < rest.length) :
    ∃ k, 0 < k ∧ k ≤ rest.length ∧ received.length + k ≤ expected ∧
      Filled (d.fillStep expected rest).1 (received ++ rest.take k) expected ∧
      (d.fillStep expected rest).2 = rest.drop k ∧ SameFrame d (d.fillStep expected rest).1 := by
  obtain ⟨full, last, hroom⟩ := room_for_next d received expected h hlt
  have hsame : SameFrame d (if d.block?.isNone then d.allocateBlock expected else d) := by
    split
    · exact ⟨rfl, rfl, rfl, rfl, rfl⟩
    · exact SameFrame.refl d
  have hstep : d.fillStep expected rest =
      (if d.block?.isNone then d.allocateBlock expected else d).copyInto full.length last rest := by
    simp only [FrameDecoder.fillStep, hroom.block]
  rw [hstep]
  obtain ⟨hfilled, hdrop, hsame'⟩ := copyInto_filled hroom rest
  have hr := hroom.room
  have hcap := hroom.capacity
  have hlen : received.length = full.flatten.length +
      (if d.block?.isNone then d.allocateBlock expected else d).currentPayloadBlockLength := by
    rw [← hroom.content]
    simp only [length_append, length_take]
    omega
  exact ⟨_, by omega, by omega, by omega, hfilled, hdrop, hsame.trans hsame'⟩

variable (fuel : Nat)

/-- The inner loop takes exactly the bytes the frame still needs, or all of them. -/
theorem fillPayload_filled (d : FrameDecoder) (received rest : Bytes)
    (h : Filled d received expected) (hle : received.length ≤ expected) (hfuel : rest.length ≤ fuel) :
    let k := min (expected - received.length) rest.length
    Filled (FrameDecoder.fillPayload expected fuel d rest).1 (received ++ rest.take k) expected ∧
      (FrameDecoder.fillPayload expected fuel d rest).2 = rest.drop k ∧
      SameFrame d (FrameDecoder.fillPayload expected fuel d rest).1 := by
  induction fuel generalizing d received rest with
  | zero =>
    have : rest = [] := length_eq_zero_iff.mp (by omega)
    subst this
    simpa [FrameDecoder.fillPayload] using ⟨h, SameFrame.refl d⟩
  | succ fuel ih =>
    rw [FrameDecoder.fillPayload]
    by_cases hgo : rest.length > 0 ∧ d.payloadLength < expected
    · have hlt : received.length < expected := by have := h.length; omega
      obtain ⟨k, hk, hkr, hke, hf, hrest, hs⟩ := fillStep_filled d received rest expected h hlt hgo.1
      have hlen : (received ++ rest.take k).length = received.length + k := by simp; omega
      obtain ⟨hf', hrest', hs'⟩ := ih (d.fillStep expected rest).1 (received ++ rest.take k)
        (d.fillStep expected rest).2 hf (by omega) (by rw [hrest, length_drop]; omega)
      have hmin : min (expected - received.length) rest.length =
          k + min (expected - (received ++ rest.take k).length) (rest.drop k).length := by
        rw [hlen, length_drop]; omega
      rw [hrest] at hf' hrest' hs'
      simp only [if_pos hgo, hmin]
      rw [hrest]
      refine ⟨?_, ?_, hs.trans hs'⟩
      · rw [take_add, ← append_assoc]
        exact hf'
      · rw [hrest', drop_drop]
    · simp only [if_neg hgo]
      have hzero : min (expected - received.length) rest.length = 0 := by
        have := h.length
        omega
      simpa [hzero] using ⟨h, SameFrame.refl d⟩

/-- A complete payload is handed out unchanged, whatever blocks it went through. -/
theorem framePayload_complete
    (h : Filled d received expected) (hpos : 0 < expected) (hlen : received.length = expected) :
    d.framePayload = received := by
  have hflat : d.framePayload = d.payloadBlocks.flatten := by
    simp only [FrameDecoder.framePayload]
    split <;> simp_all
  rw [hflat]
  rcases h.blocks with ⟨_, _, hr⟩ | ⟨full, last, hb, _, hl, hr, hcap⟩
  · simp [hr] at hlen; omega
  · have hfull : d.currentPayloadBlockLength = last.length := by
      rw [← hr] at hlen
      simp only [length_append, length_take] at hlen
      omega
    rw [hb, ← hr, hfull, take_length]
    simp

/-- An open decoder and the bytes of its unfinished frame. -/
structure Represents (d : FrameDecoder) (pending : Bytes) : Prop where
  state : d.state = .open
  header : d.header.length = 4
  bytes : (pending.length < 4 ∧ d.expectedPayloadLength = none ∧ d.headerLength = pending.length ∧
      d.header.take d.headerLength = pending) ∨
    (4 ≤ pending.length ∧ d.expectedPayloadLength = some (headerValue pending) ∧ d.headerLength = 0 ∧
      headerValue pending ≤ d.maxFrameLength ∧ pending.length < 4 + headerValue pending ∧
      Filled d (pending.drop 4) (headerValue pending))

/-- What is known after a turn that did not fail: the frames it completed are
cut from the front of the stream, and the decoder represents what follows them. -/
structure Advanced (d : FrameDecoder) (pending rest : Bytes) (d' : FrameDecoder) (rest' : Bytes)
    (frames : List Bytes) (pending' : Bytes) : Prop where
  represents : Represents d' pending'
  maxFrameLength : d'.maxFrameLength = d.maxFrameLength
  drain : drain d.maxFrameLength (pending ++ rest) =
    (drain d.maxFrameLength (pending' ++ rest')).map fun (frames', left) => (frames ++ frames', left)

theorem map_nil_append (r : Except FrameError (List Bytes × Bytes)) :
    (r.map fun (frames, left) => ([] ++ frames, left)) = r := by
  cases r <;> rfl

/-- Payload bytes either complete the frame or are all kept. -/
theorem payloadTurn_advanced (pending rest : Bytes)
    (hstate : d.state = .open) (hhdr : d.header.length = 4) (hhl : d.headerLength = 0)
    (h4 : 4 ≤ pending.length) (hexp : d.expectedPayloadLength = some (headerValue pending))
    (hmax : headerValue pending ≤ d.maxFrameLength) (hshort : pending.length < 4 + headerValue pending)
    (hfilled : Filled d (pending.drop 4) (headerValue pending)) :
    ∃ pending', Advanced d pending rest (d.payloadTurn (headerValue pending) rest).1
      (d.payloadTurn (headerValue pending) rest).2.1 (d.payloadTurn (headerValue pending) rest).2.2 pending' ∧
      (d.payloadTurn (headerValue pending) rest).2.1.length ≤ rest.length - 1 := by
  set n := headerValue pending with hn
  have hrec : (pending.drop 4).length = pending.length - 4 := by simp
  obtain ⟨hf, hrest, hs⟩ :=
    fillPayload_filled n rest.length d (pending.drop 4) rest hfilled (by omega) (Nat.le_refl _)
  set k := min (n - (pending.drop 4).length) rest.length with hk
  have htake : (rest.take k).length = k := by simp [k]
  by_cases hdone : (FrameDecoder.fillPayload n rest.length d rest).1.payloadLength = n
  · have hturn : d.payloadTurn n rest =
        ({ (FrameDecoder.fillPayload n rest.length d rest).1.resetPayload with expectedPayloadLength := none },
          rest.drop k, [pending.drop 4 ++ rest.take k]) := by
      rw [FrameDecoder.payloadTurn]
      simp only [if_pos hdone, hrest]
      rw [framePayload_complete _ _ n hf (by omega) (by rw [← hf.length, hdone])]
    have hkn : k = n - (pending.length - 4) := by
      have := hf.length
      rw [hdone, length_append, htake] at this
      omega
    rw [hturn]
    refine ⟨[], ⟨⟨hs.state.trans hstate, ?_, Or.inl ⟨by simp, rfl, ?_, ?_⟩⟩, hs.maxFrameLength, ?_⟩, ?_⟩
    · simpa [FrameDecoder.resetPayload] using hs.header ▸ hhdr
    · simpa [FrameDecoder.resetPayload] using hs.headerLength.trans hhl
    · simp [FrameDecoder.resetPayload, hs.headerLength, hhl]
    · conv => lhs; rw [Framing.drain]
      rw [headerValue_append _ _ h4, ← hn]
      have hlen : (pending ++ rest).length = pending.length + rest.length := by simp
      rw [if_neg (by omega), if_neg (by omega), if_neg (by omega)]
      have hdrop : (pending ++ rest).drop (4 + n) = rest.drop k := by
        rw [drop_append, drop_of_length_le (by omega), nil_append]
        congr 1
        omega
      have hpay : ((pending ++ rest).drop 4).take n = pending.drop 4 ++ rest.take k := by
        rw [drop_append_of_le_length h4, take_append, take_of_length_le (by omega)]
        congr 2
        omega
      rw [hdrop, hpay, nil_append]
      rfl
    · simp only [length_drop]
      omega
  · have hturn : d.payloadTurn n rest = ((FrameDecoder.fillPayload n rest.length d rest).1, rest.drop k, []) := by
      rw [FrameDecoder.payloadTurn]
      simp only [if_neg hdone, hrest]
    have hkr : k = rest.length := by
      have := hf.length
      rw [length_append, htake] at this
      omega
    have hall : pending.drop 4 ++ rest.take k = (pending ++ rest).drop 4 := by
      rw [hkr, take_length, drop_append_of_le_length h4]
    have hval : headerValue (pending ++ rest) = n := headerValue_append _ _ h4
    have hlen : (pending ++ rest).length = pending.length + rest.length := by simp
    rw [hall] at hf
    have hlt : (pending ++ rest).length < 4 + n := by
      have := hf.length
      rw [length_drop] at this
      omega
    rw [hturn]
    refine ⟨pending ++ rest, ⟨⟨hs.state.trans hstate, hs.header ▸ hhdr, Or.inr ?_⟩, hs.maxFrameLength, ?_⟩, ?_⟩
    · rw [hval]
      exact ⟨by omega, hs.expected.trans hexp, hs.headerLength.trans hhl, hs.maxFrameLength ▸ hmax, hlt, hf⟩
    · simp only [hkr, drop_length, append_nil]
      exact (map_nil_append _).symm
    · simp [hkr]

/-- One turn of the outer loop consumes bytes and either advances along the
stream or fails exactly where draining the stream fails. -/
theorem turn_advanced (pending rest : Bytes) (h : Represents d pending)
    (hrest : 0 < rest.length) :
    (∃ d' rest' frames pending', d.turn rest = (d', .ok (rest', frames)) ∧
      Advanced d pending rest d' rest' frames pending' ∧ rest'.length < rest.length) ∨
    (∃ d' e, d.turn rest = (d', .error e) ∧ d'.state = .failed ∧
      drain d.maxFrameLength (pending ++ rest) = .error e) := by
  rcases h.bytes with ⟨hlt, hexp, hhl, hhead⟩ | ⟨h4, hexp, hhl, hmax, hshort, hfilled⟩
  · simp only [FrameDecoder.turn, hexp, FRAME_HEADER_LENGTH]
    set k := min (4 - d.headerLength) rest.length with hk
    have htake : (rest.take k).length = k := by simp [k]
    have hhead' : (setBytes d.header (rest.take k) d.headerLength).take (d.headerLength + k) =
        pending ++ rest.take k := by
      have := setBytes_take d.header (rest.take k) d.headerLength (by have := h.header; omega)
      rwa [htake, hhead] at this
    have hlen' : (setBytes d.header (rest.take k) d.headerLength).length = 4 := by
      rw [setBytes_length _ _ _ (by have := h.header; omega), h.header]
    by_cases hpart : d.headerLength + k < 4
    · left
      have hkr : k = rest.length := by omega
      rw [if_pos hpart]
      refine ⟨_, _, _, pending ++ rest, rfl, ⟨⟨h.state, hlen', Or.inl ?_⟩, rfl, ?_⟩, ?_⟩
      · refine ⟨by simp; omega, rfl, by simp; omega, ?_⟩
        rw [hhead', hkr, take_length]
      · simp only [hkr, drop_length, append_nil]
        exact (map_nil_append _).symm
      · simp [hkr]; omega
    · have hfour : d.headerLength + k = 4 := by omega
      have hwhole : setBytes d.header (rest.take k) d.headerLength = pending ++ rest.take k := by
        rw [← hhead', hfour, ← hlen', take_length]
      set bytes := pending ++ rest.take k with hbytes
      have hblen : bytes.length = 4 := by rw [hbytes, length_append, htake]; omega
      have hsplit : pending ++ rest = bytes ++ rest.drop k := by
        rw [hbytes, append_assoc, take_append_drop]
      have hsplitLen : ¬ (bytes ++ rest.drop k).length < 4 := by simp; omega
      rw [if_neg hpart]
      simp only [hwhole]
      by_cases hbig : headerValue bytes > d.maxFrameLength
      · right
        rw [if_pos hbig]
        refine ⟨_, _, rfl, rfl, ?_⟩
        rw [hsplit, drain, headerValue_append _ _ (by omega), if_neg hsplitLen, if_pos hbig]
      · left
        rw [if_neg hbig]
        by_cases hzero : headerValue bytes = 0
        · rw [if_pos hzero]
          refine ⟨_, _, _, [], rfl, ⟨⟨h.state, hblen, Or.inl ⟨by simp, rfl, rfl, by simp⟩⟩, rfl, ?_⟩, ?_⟩
          · rw [hsplit]
            conv => lhs; rw [drain]
            rw [headerValue_append _ _ (by omega), if_neg hsplitLen, if_neg hbig, hzero, if_neg hsplitLen]
            simp only [Nat.add_zero, take_zero, nil_append, ← hblen, drop_left]
            rfl
          · simp only [length_drop]
            omega
        · rw [if_neg hzero]
          obtain ⟨pending', hadv, hless⟩ := payloadTurn_advanced
            { ({ d with header := bytes, headerLength := 0 } : FrameDecoder).resetPayload with
              expectedPayloadLength := some (headerValue bytes) }
            bytes (rest.drop k) h.state hblen rfl (by omega) rfl (by simpa [FrameDecoder.resetPayload] using hbig)
            (by omega)
            ⟨by simp [FrameDecoder.resetPayload, hblen], Or.inl ⟨rfl, rfl, drop_of_length_le (by omega)⟩⟩
          refine ⟨_, _, _, pending', rfl, ⟨hadv.represents, hadv.maxFrameLength, ?_⟩, ?_⟩
          · rw [hsplit]
            exact hadv.drain
          · refine Nat.lt_of_le_of_lt hless ?_
            rw [length_drop]
            omega
  · left
    simp only [FrameDecoder.turn, hexp]
    obtain ⟨pending', hadv, hless⟩ :=
      payloadTurn_advanced d pending rest h.state h.header hhl h4 hexp hmax hshort hfilled
    exact ⟨_, _, _, pending', rfl, hadv, Nat.lt_of_le_of_lt hless (by omega)⟩

/-- The outcome that the specification assigns to a run of `push`. -/
def Follows (maxFrameLength : Nat) (frames : List Bytes) (spec : Except FrameError (List Bytes × Bytes))
    (r : FrameDecoder × Except FrameError (List Bytes)) : Prop :=
  match spec with
  | .ok (frames', rest) => r.2 = .ok (frames ++ frames') ∧ Represents r.1 rest ∧ r.1.maxFrameLength = maxFrameLength
  | .error e => r.2 = .error e ∧ r.1.state = .failed

/-- No frame is complete in the bytes a decoder holds back. -/
theorem Represents.drain {d : FrameDecoder} {pending : Bytes} (h : Represents d pending) :
    drain d.maxFrameLength pending = .ok ([], pending) := by
  rcases h.bytes with ⟨hlt, _⟩ | ⟨h4, _, _, hmax, hshort, _⟩
  · exact drain_short _ _ hlt
  · rw [Framing.drain, if_neg (by omega), if_neg (by omega), if_pos hshort]

theorem pushLoop_follows (d : FrameDecoder) (pending rest : Bytes) (frames : List Bytes)
    (h : Represents d pending) (hfuel : rest.length ≤ fuel) :
    Follows d.maxFrameLength frames (drain d.maxFrameLength (pending ++ rest))
      (FrameDecoder.pushLoop fuel d rest frames) := by
  induction fuel generalizing d pending rest frames with
  | zero =>
    have : rest = [] := length_eq_zero_iff.mp (by omega)
    subst this
    rw [FrameDecoder.pushLoop, append_nil, h.drain]
    exact ⟨by simp, h, rfl⟩
  | succ fuel ih =>
    rw [FrameDecoder.pushLoop]
    by_cases hrest : rest.length > 0
    · rw [if_pos hrest]
      rcases turn_advanced d pending rest h hrest with
        ⟨d', rest', more, pending', hturn, hadv, hless⟩ | ⟨d', e, hturn, hfail, hdrain⟩
      · rw [hturn, hadv.drain]
        have hstep := ih d' pending' rest' (frames ++ more) hadv.represents (by omega)
        rw [hadv.maxFrameLength] at hstep
        cases hd : drain d.maxFrameLength (pending' ++ rest') with
        | error e => rw [hd] at hstep; exact hstep
        | ok r =>
          rw [hd] at hstep
          simpa [Follows, Except.map, List.append_assoc] using hstep
      · rw [hturn, hdrain]
        exact ⟨rfl, hfail⟩
    · have : rest = [] := length_eq_zero_iff.mp (by omega)
      subst this
      rw [if_neg hrest, append_nil, h.drain]
      exact ⟨by simp, h, rfl⟩

theorem push_follows (pending chunk : Bytes) (h : Represents d pending) :
    Follows d.maxFrameLength [] (drain d.maxFrameLength (pending ++ chunk)) (d.push chunk) := by
  rw [FrameDecoder.push, h.state]
  exact pushLoop_follows chunk.length d pending chunk [] h (Nat.le_refl _)

theorem end_succeeds_iff (pending : Bytes) (h : Represents d pending) :
    d.end.2 = if pending = [] then .ok [] else .error .truncated := by
  rw [FrameDecoder.end, h.state]
  rcases h.bytes with ⟨hlt, hexp, hhl, _⟩ | ⟨h4, hexp, _⟩
  · by_cases hp : pending = []
    · simp [hexp, hhl, hp]
    · simp [hexp, hhl, hp]
  · have hp : pending ≠ [] := by rintro rfl; simp at h4
    simp [hexp, hp]

/-! ## Whole streams -/

/-- Push the chunks one after the other and end the stream; the first error ends
the run. -/
def decodeStream : FrameDecoder → List Bytes → Except FrameError (List Bytes)
  | d, [] => d.end.2
  | d, chunk :: chunks =>
    match d.push chunk with
    | (_, .error e) => .error e
    | (d, .ok frames) => (decodeStream d chunks).map fun more => frames ++ more

/-- The frames of a run are those of the undivided stream. -/
theorem decodeStream_eq_drain (pending : Bytes) (chunks : List Bytes)
    (h : Represents d pending) :
    decodeStream d chunks = (drain d.maxFrameLength (pending ++ chunks.flatten)).bind fun (frames, rest) =>
      if rest = [] then .ok frames else .error .truncated := by
  induction chunks generalizing d pending with
  | nil =>
    rw [decodeStream, end_succeeds_iff d pending h, List.flatten_nil, List.append_nil, h.drain]
    rfl
  | cons chunk chunks ih =>
    have hpush := push_follows d pending chunk h
    rw [decodeStream, List.flatten_cons, ← List.append_assoc, drain_append]
    cases hd : drain d.maxFrameLength (pending ++ chunk) with
    | error e =>
      rw [hd] at hpush
      obtain ⟨he, _⟩ := hpush
      rw [show d.push chunk = ((d.push chunk).1, .error e) from Prod.ext rfl he]
      rfl
    | ok r =>
      obtain ⟨frames, rest⟩ := r
      rw [hd] at hpush
      obtain ⟨hok, hrep, hmax⟩ := hpush
      rw [show d.push chunk = ((d.push chunk).1, .ok ([] ++ frames)) from Prod.ext rfl hok]
      simp only [List.nil_append]
      rw [ih _ rest hrep, hmax]
      simp only [Except.bind]
      cases drain d.maxFrameLength (rest ++ chunks.flatten) with
      | error e => rfl
      | ok r =>
        obtain ⟨frames', rest'⟩ := r
        simp only [Except.map]
        by_cases hr : rest' = [] <;> simp [hr]

theorem new_represents {options : Option Nat} {d : FrameDecoder} (hnew : FrameDecoder.new options = .ok d) :
    Represents d [] ∧ d.maxFrameLength ≤ MAX_UINT32 := by
  simp only [FrameDecoder.new, resolveMaxFrameLength] at hnew
  split at hnew
  · cases hnew
  · simp only [Except.map, Except.ok.injEq] at hnew
    subst hnew
    exact ⟨⟨rfl, rfl, Or.inl ⟨by simp, rfl, rfl, rfl⟩⟩, Nat.not_lt.mp ‹_›⟩

/-! ## Calls after an error -/

inductive Call where
  | push (chunk : Bytes)
  | «end»
  deriving DecidableEq, Repr

def FrameDecoder.call (d : FrameDecoder) : Call → FrameDecoder × Except FrameError (List Bytes)
  | .push chunk => d.push chunk
  | .end => d.end

/-- The results of a sequence of calls, errors included. -/
def results : FrameDecoder → List Call → List (Except FrameError (List Bytes))
  | _, [] => []
  | d, c :: cs => (d.call c).2 :: results (d.call c).1 cs

/-- The turns of `push` leave the decoder open unless they fail. -/
theorem turn_error_failed (d d' : FrameDecoder) (rest : Bytes) (e : FrameError)
    (h : d.turn rest = (d', .error e)) : d'.state = .failed := by
  cases hexp : d.expectedPayloadLength with
  | some expected => simp [FrameDecoder.turn, hexp] at h
  | none =>
    simp only [FrameDecoder.turn, hexp] at h
    split at h
    · simp at h
    · split at h
      · simp only [Prod.mk.injEq] at h
        rw [← h.1]
        rfl
      · split at h <;> simp at h

theorem pushLoop_error_failed (d : FrameDecoder) (rest : Bytes) (frames : List Bytes)
    (h : ¬ (FrameDecoder.pushLoop fuel d rest frames).2.isOk) :
    (FrameDecoder.pushLoop fuel d rest frames).1.state = .failed := by
  induction fuel generalizing d rest frames with
  | zero => simp [FrameDecoder.pushLoop, Except.isOk, Except.toBool] at h
  | succ fuel ih =>
    rw [FrameDecoder.pushLoop] at h ⊢
    split
    · rename_i hrest
      rw [if_pos hrest] at h
      cases ht : d.turn rest with
      | mk d' r =>
        cases r with
        | error e => exact turn_error_failed d d' rest e ht
        | ok r =>
          simp only [ht] at h ⊢
          exact ih _ _ _ h
    · rename_i hrest
      simp [if_neg hrest, Except.isOk, Except.toBool] at h

/-- A call that throws leaves the decoder failed or ended. -/
theorem call_error_not_open (c : Call) (h : ¬ (d.call c).2.isOk) : (d.call c).1.state ≠ .open := by
  cases c with
  | push chunk =>
    simp only [FrameDecoder.call, FrameDecoder.push] at h ⊢
    cases hs : d.state with
    | ended | failed => simp [hs]
    | «open» =>
      simp only [hs] at h ⊢
      rw [pushLoop_error_failed _ _ _ _ h]
      decide
  | «end» =>
    simp only [FrameDecoder.call, FrameDecoder.end] at h ⊢
    cases hs : d.state with
    | ended | failed => simp [hs]
    | «open» =>
      simp only [hs] at h ⊢
      split
      · simp [FrameDecoder.fail]
      · simp

theorem call_not_open (c : Call) (h : d.state ≠ .open) :
    ¬ (d.call c).2.isOk ∧ (d.call c).1.state ≠ .open := by
  cases c <;> cases hs : d.state <;>
    simp_all [FrameDecoder.call, FrameDecoder.push, FrameDecoder.end, Except.isOk, Except.toBool]

theorem results_not_open (calls : List Call) (h : d.state ≠ .open) : ∀ r ∈ results d calls, ¬ r.isOk := by
  induction calls generalizing d with
  | nil => simp [results]
  | cons c cs ih =>
    obtain ⟨hthrow, hstill⟩ := call_not_open d c h
    intro r hr
    rcases mem_cons.mp hr with rfl | hr
    · exact hthrow
    · exact ih _ hstill r hr

theorem results_stay_failed (calls : List Call) :
    (results d calls).Pairwise fun r later => ¬ r.isOk → ¬ later.isOk := by
  induction calls generalizing d with
  | nil => exact List.Pairwise.nil
  | cons c cs ih =>
    refine List.Pairwise.cons ?_ (ih _)
    intro later hlater hthrow
    exact results_not_open _ cs (call_error_not_open d c hthrow) later hlater

/-- Frame decoding does not depend on how the stream was cut: a run over any
chunks succeeds with `payloads` exactly when the stream is the concatenation of
their encodings and all of them are within the limit. After an error every later
call throws. -/
theorem decode_ignores_chunking {options : Option Nat} {d : FrameDecoder}
    (hnew : FrameDecoder.new options = .ok d) :
    (∀ (chunks payloads : List Bytes), decodeStream d chunks = .ok payloads ↔
      encodeFrames payloads = .ok chunks.flatten ∧ ∀ payload ∈ payloads, payload.length ≤ d.maxFrameLength) ∧
    ∀ calls, (results d calls).Pairwise fun r later => ¬ r.isOk → ¬ later.isOk := by
  obtain ⟨hrep, hmax⟩ := new_represents hnew
  refine ⟨?_, fun calls => results_stay_failed d calls⟩
  intro chunks payloads
  rw [← drain_complete_iff d.maxFrameLength hmax, decodeStream_eq_drain d [] chunks hrep, List.nil_append]
  cases hd : drain d.maxFrameLength chunks.flatten with
  | error e => simp [Except.bind]
  | ok r =>
    obtain ⟨frames, rest⟩ := r
    simp only [Except.bind, Except.ok.injEq, Prod.mk.injEq]
    by_cases hr : rest = [] <;> simp [hr]

/-- Two frames, the first empty, cut inside both headers. -/
theorem decode_ignores_chunking_two_frames : ∃ d, FrameDecoder.new (some 3) = .ok d ∧
      decodeStream d [[0, 0], [0], [], [0, 0, 0, 0, 2, 7], [9]] = .ok [[], [7, 9]] :=
  ⟨_, rfl, ((@decode_ignores_chunking (some 3) _ rfl).1 _ _).mpr ⟨by decide, by decide⟩⟩

end Shuvpi.Framing
