import Shuvpi.Cbor

/-!
# What the CBOR writer writes

The buffer of the writer grows by doubling, but only the bytes before its offset
are ever handed out. `Writes f bs` says that an encoding step appends exactly
`bs`: it succeeds whenever they fit the byte limit, and then they are all it
adds. Steps compose by appending, which is how each item is described below.
-/
namespace Shuvpi.Cbor

/-- The bytes written so far. -/
def CborWriter.content (w : CborWriter) : Bytes := w.buffer.take w.offset

structure CborWriter.Wf (w : CborWriter) : Prop where
  inBuffer : w.offset ≤ w.buffer.length
  inLimit : w.offset ≤ w.maxByteLength

variable {w w' : CborWriter}

theorem content_length (h : w.Wf) : w.content.length = w.offset := by
  rw [CborWriter.content, List.length_take, Nat.min_eq_left h.inBuffer]

/-- `w'` is `w` after the bytes `bs`. -/
structure Extends (w : CborWriter) (bs : Bytes) (w' : CborWriter) : Prop where
  wf : w'.Wf
  content : w'.content = w.content ++ bs
  maxByteLength : w'.maxByteLength = w.maxByteLength

variable {bs cs : Bytes}

theorem Extends.offset (hw : w.Wf) (h : Extends w bs w') :
    w'.offset = w.offset + bs.length := by
  rw [← content_length h.wf, h.content, List.length_append, content_length hw]

theorem Extends.trans {w'' : CborWriter} (h : Extends w bs w') (h' : Extends w' cs w'') :
    Extends w (bs ++ cs) w'' :=
  ⟨h'.wf, by rw [h'.content, h.content, List.append_assoc], h'.maxByteLength.trans h.maxByteLength⟩

theorem Extends.refl (h : w.Wf) : Extends w [] w := ⟨h, by simp, rfl⟩

/-- The step appends exactly `bs`, and fails only for want of room. -/
structure Writes (f : CborWriter → Except CborError CborWriter) (bs : Bytes) : Prop where
  sound : ∀ w w', w.Wf → f w = .ok w' → Extends w bs w'
  complete : ∀ w, w.Wf → w.offset + bs.length ≤ w.maxByteLength → ∃ w', f w = .ok w'

theorem Writes.nil : Writes (fun w => .ok w) [] := by
  constructor
  · intro w w' hw h
    cases h
    exact Extends.refl hw
  · intro w _ _
    exact ⟨w, rfl⟩

theorem Writes.andThen {f g : CborWriter → Except CborError CborWriter}
    (hf : Writes f bs) (hg : Writes g cs) : Writes (fun w => f w >>= g) (bs ++ cs) := by
  constructor
  · intro w w'' hw h
    obtain ⟨w', hfw, h⟩ := bind_ok.mp h
    have h1 := hf.sound w w' hw hfw
    exact h1.trans (hg.sound w' w'' h1.wf h)
  · intro w hw hroom
    rw [List.length_append] at hroom
    obtain ⟨w', hw'⟩ := hf.complete w hw (by omega)
    have h1 := hf.sound w w' hw hw'
    obtain ⟨w'', hw''⟩ := hg.complete w' h1.wf (by rw [h1.offset hw, h1.maxByteLength]; omega)
    refine ⟨w'', ?_⟩
    simp only [hw']
    exact hw''

/-- Writing the parts of a list one after the other writes their concatenation. -/
theorem Writes.foldlM {α : Type} {f : CborWriter → α → Except CborError CborWriter} {encoded : α → Bytes}
    {xs : List α} (h : ∀ x ∈ xs, Writes (fun w => f w x) (encoded x)) :
    Writes (fun w => xs.foldlM f w) (xs.flatMap encoded) := by
  induction xs with
  | nil => exact Writes.nil
  | cons x xs ih =>
    exact (h x (by simp)).andThen (ih (fun y hy => h y (by simp [hy])))

/-! ## Bytes -/

/-- One turn of the growth loop is enough: it reaches the required size at once. -/
theorem growCapacity_ge (maxByteLength required fuel capacity : Nat) (hreq : required ≤ maxByteLength)
    (hfuel : required ≤ capacity + fuel) :
    required ≤ CborWriter.growCapacity maxByteLength required fuel capacity := by
  induction fuel generalizing capacity with
  | zero => rw [CborWriter.growCapacity]; omega
  | succ fuel ih =>
    rw [CborWriter.growCapacity]
    split
    · exact ih _ (by omega)
    · omega

theorem ensureCapacity_spec (w : CborWriter) (n : Nat) (hw : w.Wf) :
    (∀ w', w.ensureCapacity n = .ok w' → w'.offset = w.offset ∧ w'.maxByteLength = w.maxByteLength ∧
      w'.content = w.content ∧ w.offset + n ≤ w'.buffer.length ∧ w.offset + n ≤ w.maxByteLength) ∧
    (w.offset + n ≤ w.maxByteLength → ∃ w', w.ensureCapacity n = .ok w') := by
  have hin := hw.inBuffer
  simp only [CborWriter.ensureCapacity]
  by_cases hlim : w.offset + n > w.maxByteLength
  · rw [if_pos hlim]
    exact ⟨(by intro w' h; cases h), fun h => absurd h (by omega)⟩
  · rw [if_neg hlim]
    by_cases hfit : w.offset + n ≤ w.buffer.length
    · rw [if_pos hfit]
      refine ⟨?_, fun _ => ⟨w, rfl⟩⟩
      intro w' h
      cases h
      exact ⟨rfl, rfl, rfl, hfit, by omega⟩
    · rw [if_neg hfit]
      refine ⟨?_, fun _ => ⟨_, rfl⟩⟩
      intro w' h
      cases h
      have hgrow := growCapacity_ge w.maxByteLength (w.offset + n) (w.offset + n) (max 1 w.buffer.length)
        (by omega) (by omega)
      refine ⟨rfl, rfl, ?_, ?_, by omega⟩
      · exact List.take_append_of_le_length hin
      · simp only [List.length_append, List.length_replicate]
        omega

theorem writeBytes_writes (bs : Bytes) : Writes (fun w => w.writeBytes bs) bs := by
  constructor
  · intro w w'' hw h
    simp only [CborWriter.writeBytes] at h
    obtain ⟨w', he, h⟩ := bind_ok.mp h
    obtain ⟨hoff, hmax, hcont, hroom, hlim⟩ := (ensureCapacity_spec w bs.length hw).1 w' he
    have h : { w' with
        buffer := w'.buffer.take w'.offset ++ bs ++ w'.buffer.drop (w'.offset + bs.length)
        offset := w'.offset + bs.length } = w'' := Except.ok.inj h
    subst h
    have htake : (w'.buffer.take w'.offset ++ bs).length = w'.offset + bs.length := by
      simp; omega
    refine ⟨⟨?_, ?_⟩, ?_, hmax⟩
    · simp only [List.length_append, List.length_take, List.length_drop]
      omega
    · simp only [hmax]
      omega
    · rw [← hcont]
      simp only [CborWriter.content]
      rw [← htake, List.take_left]
  · intro w hw hroom
    obtain ⟨w', he⟩ := (ensureCapacity_spec w bs.length hw).2 hroom
    exact ⟨_, by simp only [CborWriter.writeBytes, he]; rfl⟩

/-! ## Arguments -/

/-- The initial byte and the argument bytes of a definite-length head. -/
def argumentBytes (majorType value : Nat) : Bytes :=
  if value < 24 then [UInt8.ofNat (majorType * 32 + value)]
  else if value ≤ 0xff then [UInt8.ofNat (majorType * 32 + 24), UInt8.ofNat value]
  else if value ≤ 0xffff then
    [UInt8.ofNat (majorType * 32 + 25), UInt8.ofNat (value >>> 8), UInt8.ofNat value]
  else if value ≤ MAX_UINT32 then
    [UInt8.ofNat (majorType * 32 + 26), UInt8.ofNat (value >>> 24), UInt8.ofNat (value >>> 16),
      UInt8.ofNat (value >>> 8), UInt8.ofNat value]
  else
    let high := value / UINT32_BASE
    let low := value - high * UINT32_BASE
    [UInt8.ofNat (majorType * 32 + 27), UInt8.ofNat (high >>> 24), UInt8.ofNat (high >>> 16),
      UInt8.ofNat (high >>> 8), UInt8.ofNat high, UInt8.ofNat (low >>> 24), UInt8.ofNat (low >>> 16),
      UInt8.ofNat (low >>> 8), UInt8.ofNat low]

variable (majorType value : Nat)

theorem writeArgument_writes :
    Writes (fun w => writeArgument w majorType value) (argumentBytes majorType value) := by
  simp only [writeArgument, argumentBytes]
  split
  · exact writeBytes_writes _
  · split
    · exact (writeBytes_writes [_]).andThen (writeBytes_writes [_])
    · split
      · exact (writeBytes_writes [_]).andThen (writeBytes_writes [_, _])
      · split
        · exact (writeBytes_writes [_]).andThen (writeBytes_writes [_, _, _, _])
        · exact (writeBytes_writes [_]).andThen
            ((writeBytes_writes [_, _, _, _]).andThen (writeBytes_writes [_, _, _, _]))

/-- The width of a head follows from the size of its argument. -/
theorem argumentBytes_length_le : (argumentBytes majorType value).length ≤ 9 ∧
      (value ≤ MAX_UINT32 → (argumentBytes majorType value).length ≤ 5) ∧
      (value ≤ 0xffff → (argumentBytes majorType value).length ≤ 3) ∧
      (value ≤ 0xff → (argumentBytes majorType value).length ≤ 2) ∧
      (value < 24 → (argumentBytes majorType value).length ≤ 1) := by
  rw [argumentBytes]
  split
  · simp
  · split
    · simp; omega
    · split
      · simp; omega
      · split
        · simp; omega
        · refine ⟨by simp, fun h => absurd h ‹_›, fun h => absurd h ‹_›, fun h => absurd h ‹_›, fun h => absurd h ‹_›⟩

theorem argumentBytes_length_pos : 0 < (argumentBytes majorType value).length := by
  rw [argumentBytes]
  split
  · simp
  · split
    · simp
    · split
      · simp
      · split <;> simp

theorem readBytes_append (bs tail : Bytes) : readBytes bs.length (bs ++ tail) = .ok (bs, tail) := by
  simp [readBytes]

theorem readUint32_bytes (value : Nat) (h : value ≤ MAX_UINT32) (tail : Bytes) :
    readUint32 (UInt8.ofNat (value >>> 24) :: UInt8.ofNat (value >>> 16) :: UInt8.ofNat (value >>> 8) ::
      UInt8.ofNat value :: tail) = .ok (value, tail) := by
  have hread := readBytes_append [UInt8.ofNat (value >>> 24), UInt8.ofNat (value >>> 16),
    UInt8.ofNat (value >>> 8), UInt8.ofNat value] tail
  have hvalue : 0x1000000 * (UInt8.ofNat (value >>> 24)).toNat + 0x10000 * (UInt8.ofNat (value >>> 16)).toNat +
      0x100 * (UInt8.ofNat (value >>> 8)).toNat + (UInt8.ofNat value).toNat = value := by
    simp only [UInt8.toNat_ofNat', Nat.shiftRight_eq_div_pow]
    simp only [MAX_UINT32] at h
    omega
  simp only [readUint32]
  rw [show readBytes 4 (UInt8.ofNat (value >>> 24) :: UInt8.ofNat (value >>> 16) :: UInt8.ofNat (value >>> 8) ::
    UInt8.ofNat value :: tail) = _ from hread]
  exact congrArg (fun n => Except.ok (n, tail)) hvalue

/-- The head of an item reads back as its major type and its argument. -/
theorem readArgument_argumentBytes (hm : majorType < 8)
    (hv : value ≤ JsNumber.MAX_SAFE_INTEGER) :
    ∃ initial : UInt8, ∃ arg : Bytes, argumentBytes majorType value = initial :: arg ∧
      initial.toNat / 32 = majorType ∧ initial.toNat % 32 ≠ 31 ∧
      ∀ tail, readArgument (initial.toNat % 32) (arg ++ tail) = .ok (value, tail) := by
  have hhead (n : Nat) (hn : n < 32) : (UInt8.ofNat (majorType * 32 + n)).toNat / 32 = majorType ∧
      (UInt8.ofNat (majorType * 32 + n)).toNat % 32 = n := by
    simp only [UInt8.toNat_ofNat']
    omega
  rw [argumentBytes]
  split
  · rename_i h
    obtain ⟨hd, hr⟩ := hhead value (by omega)
    refine ⟨_, [], rfl, hd, by omega, ?_⟩
    intro tail
    simp only [readArgument, hr, if_pos h, List.nil_append]
  · split
    · obtain ⟨hd, hr⟩ := hhead 24 (by omega)
      refine ⟨_, _, rfl, hd, by omega, ?_⟩
      intro tail
      rw [hr]
      have hbyte : (UInt8.ofNat value).toNat = value := by
        simp only [UInt8.toNat_ofNat']
        omega
      exact congrArg (fun n => Except.ok (n, tail)) hbyte
    · split
      · obtain ⟨hd, hr⟩ := hhead 25 (by omega)
        refine ⟨_, _, rfl, hd, by omega, ?_⟩
        intro tail
        rw [hr]
        have hvalue : 0x100 * (UInt8.ofNat (value >>> 8)).toNat + (UInt8.ofNat value).toNat = value := by
          simp only [UInt8.toNat_ofNat', Nat.shiftRight_eq_div_pow]
          omega
        change (readBytes 2 _ >>= _) = _
        rw [show readBytes 2 ([UInt8.ofNat (value >>> 8), UInt8.ofNat value] ++ tail) = _ from
          readBytes_append [UInt8.ofNat (value >>> 8), UInt8.ofNat value] tail]
        exact congrArg (fun n => Except.ok (n, tail)) hvalue
      · split
        · rename_i h
          obtain ⟨hd, hr⟩ := hhead 26 (by omega)
          refine ⟨_, _, rfl, hd, by omega, ?_⟩
          intro tail
          rw [hr]
          exact readUint32_bytes value h tail
        · obtain ⟨hd, hr⟩ := hhead 27 (by omega)
          refine ⟨_, _, rfl, hd, by omega, ?_⟩
          intro tail
          rw [hr]
          have hhigh : value / UINT32_BASE ≤ 0x1fffff := by
            simp only [JsNumber.MAX_SAFE_INTEGER, UINT32_BASE] at *
            omega
          have hlow : value - value / UINT32_BASE * UINT32_BASE ≤ MAX_UINT32 := by
            simp only [UINT32_BASE, MAX_UINT32] at *
            omega
          have hvalue : UINT32_BASE * (value / UINT32_BASE) + (value - value / UINT32_BASE * UINT32_BASE) = value := by
            simp only [UINT32_BASE] at *
            omega
          change (readUint32 _ >>= _) = _
          rw [List.cons_append, List.cons_append, List.cons_append, List.cons_append,
            readUint32_bytes _ (by simp only [MAX_UINT32]; omega)]
          simp only [List.cons_append, List.nil_append, bind, Except.bind, readUint32_bytes _ hlow]
          rw [if_neg (by omega)]
          exact congrArg (fun n => Except.ok (n, tail)) hvalue

/-! ## Arguments in any width -/

variable {bytes rest : Bytes} {n : Nat}

theorem readByte_spec (h : readByte bytes = .ok (n, rest)) :
    ∃ b : UInt8, bytes = b :: rest ∧ n = b.toNat := by
  cases bytes with
  | nil => cases h
  | cons b bytes =>
    simp only [readByte, Except.ok.injEq, Prod.mk.injEq] at h
    exact ⟨b, by rw [h.2], h.1.symm⟩

theorem readBytes_spec {length : Nat} {bytes b rest : Bytes} (h : readBytes length bytes = .ok (b, rest)) :
    bytes = b ++ rest ∧ b.length = length := by
  simp only [readBytes] at h
  split at h
  · cases h
  · rename_i hlen
    obtain ⟨rfl, rfl⟩ := h
    exact ⟨(List.take_append_drop _ _).symm, by simp; omega⟩

theorem readUint32_spec (h : readUint32 bytes = .ok (n, rest)) :
    bytes.length = rest.length + 4 ∧ n ≤ MAX_UINT32 := by
  simp only [readUint32] at h
  cases hr : readBytes 4 bytes with
  | error e => rw [hr] at h; cases h
  | ok r =>
    obtain ⟨b, rest'⟩ := r
    rw [hr] at h
    obtain ⟨rfl, hb⟩ := readBytes_spec hr
    obtain ⟨rfl, rfl⟩ := h
    have h0 := (b.getD 0 0).toNat_lt
    have h1 := (b.getD 1 0).toNat_lt
    have h2 := (b.getD 2 0).toNat_lt
    have h3 := (b.getD 3 0).toNat_lt
    refine ⟨by simp; omega, ?_⟩
    simp only [MAX_UINT32]
    omega

/-- Whatever width the argument was sent in, it is a safe integer and its
shortest head is no longer than the head it came in. -/
theorem readArgument_spec {ai : Nat} (h : readArgument ai bytes = .ok (n, rest))
    (majorType : Nat) :
    n ≤ JsNumber.MAX_SAFE_INTEGER ∧ (argumentBytes majorType n).length + rest.length ≤ bytes.length + 1 := by
  obtain ⟨hle, hle32, hle16, hle8, hle5⟩ := argumentBytes_length_le majorType n
  simp only [readArgument] at h
  split at h
  · rename_i hai
    obtain ⟨rfl, rfl⟩ := h
    exact ⟨by simp only [JsNumber.MAX_SAFE_INTEGER]; omega, by omega⟩
  · split at h
    · obtain ⟨b, rfl, rfl⟩ := readByte_spec h
      have hb := b.toNat_lt
      exact ⟨by simp only [JsNumber.MAX_SAFE_INTEGER]; omega, by rw [List.length_cons]; omega⟩
    · cases hr : readBytes 2 bytes with
      | error e => rw [hr] at h; cases h
      | ok r =>
        obtain ⟨b, rest'⟩ := r
        rw [hr] at h
        obtain ⟨rfl, hb⟩ := readBytes_spec hr
        simp only [bind, Except.bind, pure, Except.pure, Except.ok.injEq, Prod.mk.injEq] at h
        obtain ⟨rfl, rfl⟩ := h
        have h0 := (b.getD 0 0).toNat_lt
        have h1 := (b.getD 1 0).toNat_lt
        exact ⟨by simp only [JsNumber.MAX_SAFE_INTEGER]; omega, by rw [List.length_append]; omega⟩
    · obtain ⟨hlen, hn⟩ := readUint32_spec h
      exact ⟨by simp only [JsNumber.MAX_SAFE_INTEGER, MAX_UINT32] at *; omega, by omega⟩
    · obtain ⟨⟨high, mid⟩, hr, h⟩ := bind_ok.mp h
      obtain ⟨hlen, hhigh⟩ := readUint32_spec hr
      cases hr' : readUint32 mid with
      | error e => simp only [bind, Except.bind, hr'] at h; cases h
      | ok r =>
        obtain ⟨low, rest'⟩ := r
        obtain ⟨hlen', hlow⟩ := readUint32_spec hr'
        simp only [bind, Except.bind, hr'] at h
        split at h
        · cases h
        · simp only [pure, Except.pure, Except.ok.injEq, Prod.mk.injEq] at h
          obtain ⟨hn, rfl⟩ := h
          exact ⟨by simp only [JsNumber.MAX_SAFE_INTEGER, MAX_UINT32, UINT32_BASE] at *; omega, by omega⟩
    · cases h
    · cases h

end Shuvpi.Cbor
