import Shuvpi.CborWriter

/-!
# CBOR round trips

What the encoder accepts, the decoder reads back under the same options with the
`undefined` properties gone. What the decoder accepts, in whatever widths and as
whatever numbers it was sent, encodes again to at most as many bytes and decodes
to the same value.
-/
namespace Shuvpi.Cbor

open JsText

/-! ## Values -/

mutual
/-- The value without the properties whose value is `undefined`, at every level. -/
def JsValue.withoutUndefined : JsValue → JsValue
  | .array items => .array (JsValue.itemsWithoutUndefined items)
  | .object symbols props => .object symbols (JsValue.propsWithoutUndefined props)
  | v => v

def JsValue.itemsWithoutUndefined : List JsValue → List JsValue
  | [] => []
  | v :: items => v.withoutUndefined :: JsValue.itemsWithoutUndefined items

def JsValue.propsWithoutUndefined : List (JsString × JsValue) → List (JsString × JsValue)
  | [] => []
  | (key, v) :: props =>
    if v.isUndefined then JsValue.propsWithoutUndefined props
    else (key, v.withoutUndefined) :: JsValue.propsWithoutUndefined props
end

theorem itemsWithoutUndefined_eq (items : List JsValue) :
    JsValue.itemsWithoutUndefined items = items.map JsValue.withoutUndefined := by
  induction items with
  | nil => rfl
  | cons v items ih => rw [JsValue.itemsWithoutUndefined, ih, List.map_cons]

theorem propsWithoutUndefined_eq (props : List (JsString × JsValue)) : JsValue.propsWithoutUndefined props =
      (definedEntries props).map fun p => (p.1, p.2.withoutUndefined) := by
  induction props with
  | nil => rfl
  | cons p props ih =>
    obtain ⟨key, v⟩ := p
    rw [JsValue.propsWithoutUndefined, ih]
    by_cases h : v.isUndefined = true
    · simp [h, definedEntries]
    · simp [h, definedEntries]

/-- Objects at every level have the properties of an object. -/
inductive JsValue.Wf : JsValue → Prop where
  | undefined : JsValue.undefined.Wf
  | null : JsValue.null.Wf
  | boolean (b : Bool) : (JsValue.boolean b).Wf
  | number (x : JsNumber) : (JsValue.number x).Wf
  | string (s : JsString) : (JsValue.string s).Wf
  | bytes (b : Bytes) : (JsValue.bytes b).Wf
  | array (items : List JsValue) (h : ∀ v ∈ items, v.Wf) : (JsValue.array items).Wf
  | hole : JsValue.hole.Wf
  | object (symbols : Bool) (props : List (JsString × JsValue)) (h : JsProps.Wf props)
      (hv : ∀ p ∈ props, p.2.Wf) : (JsValue.object symbols props).Wf
  | other (typeName : String) : (JsValue.other typeName).Wf

/-! ## Heads and texts -/

variable (options : ResolvedCborOptions)

theorem readItem_cons (levels : Nat) (b : UInt8) (rest : Bytes) : readItem options (levels + 1) (b :: rest) =
      readBody options (readItem options levels) (b.toNat / 32) (b.toNat % 32) rest := rfl

theorem readLength_ok {ai : Nat} {bytes rest : Bytes} {n limit : Nat} {kind : String}
    (h : readArgument ai bytes = .ok (n, rest)) (hai : ai ≠ 31) (hn : n ≤ limit) :
    readLength ai kind limit bytes = .ok (n, rest) := by
  simp only [readLength, if_neg hai, h, bind, Except.bind, pure, Except.pure]
  rw [if_neg (by omega)]

/-- The limits that `resolveOptions` lets through. -/
structure ResolvedCborOptions.Bounded (options : ResolvedCborOptions) : Prop where
  bytes : options.maxByteLength ≤ MAX_UINT32
  containers : options.maxContainerLength ≤ MAX_UINT32

theorem safe_of_uint32 {n : Nat} (h : n ≤ MAX_UINT32) : n ≤ JsNumber.MAX_SAFE_INTEGER := by
  simp only [MAX_UINT32, JsNumber.MAX_SAFE_INTEGER] at *
  omega

/-- A text item: its head and its UTF-8 bytes. -/
def textBytes (s : JsString) : Bytes := argumentBytes 3 (textEncode s).length ++ textEncode s

structure TextAccepted (options : ResolvedCborOptions) (s : JsString) : Prop where
  length : (textEncode s).length ≤ options.maxByteLength
  wellFormed : textDecode (textEncode s) = some s

variable {w w' : CborWriter} {s : JsString}

theorem encodeText_accepted {options : ResolvedCborOptions}
    (h : encodeText options w s = .ok w') : TextAccepted options s := by
  simp only [encodeText, bind, Except.bind, throw, throwThe, MonadExceptOf.throw] at h
  split at h
  · cases h
  · rename_i hlen
    split at h
    · cases h
    · rename_i hwf
      exact ⟨by omega, by simpa using hwf⟩

theorem encodeText_writes {options : ResolvedCborOptions} (h : TextAccepted options s) :
    Writes (fun w => encodeText options w s) (textBytes s) := by
  have hlen : ¬ (textEncode s).length > options.maxByteLength := by have := h.length; omega
  have heq : (fun w => encodeText options w s) =
      fun w => writeArgument w 3 (textEncode s).length >>= fun w => w.writeBytes (textEncode s) := by
    funext w
    simp only [encodeText, if_neg hlen, h.wellFormed, ne_eq, not_true_eq_false, if_false]
  rw [heq]
  exact (writeArgument_writes 3 _).andThen (writeBytes_writes _)

theorem readItem_textBytes {options : ResolvedCborOptions} (hopts : options.Bounded)
    (h : TextAccepted options s) (levels : Nat) (tail : Bytes) :
    readItem options (levels + 1) (textBytes s ++ tail) = .ok (.string s, tail) := by
  have hle := h.length
  obtain ⟨initial, arg, harg, hmajor, hai, hread⟩ := readArgument_argumentBytes 3 (textEncode s).length
    (by omega) (safe_of_uint32 (Nat.le_trans hle hopts.bytes))
  rw [textBytes, harg, List.cons_append, List.cons_append, readItem_cons, hmajor, List.append_assoc]
  simp only [readBody, readLength_ok (hread (textEncode s ++ tail)) hai hle, bind, Except.bind,
    readBytes_append, h.wellFormed]
  rfl

/-! ## Numbers -/

theorem float64Value_float64Bytes (x : JsNumber) : float64Value (CborWriter.float64Bytes x) = x := by
  apply JsNumber.ext_bits
  have h := x.bits.toNat_lt
  -- each byte continues the number that the bytes before it spell
  have hstep : ∀ j k, j = k + 8 → 256 * (x.bits.toNat / 2 ^ j) + x.bits.toNat / 2 ^ k % 2 ^ 8 = x.bits.toNat / 2 ^ k := by
    rintro _ k rfl
    rw [Nat.pow_add, ← Nat.div_div_eq_div_mul]
    exact Nat.div_add_mod _ _
  have hlow : 256 * (x.bits.toNat / 2 ^ 8) + x.bits.toNat % 2 ^ 8 = x.bits.toNat := Nat.div_add_mod _ _
  have htop : x.bits.toNat / 2 ^ 56 % 2 ^ 8 = x.bits.toNat / 2 ^ 56 := Nat.mod_eq_of_lt (Nat.div_lt_of_lt_mul h)
  simp only [float64Value, CborWriter.float64Bytes, List.foldl_cons, List.foldl_nil, UInt8.toNat_ofNat',
    UInt64.toNat_ofNat', Nat.shiftRight_eq_div_pow, Nat.mul_zero, Nat.zero_add]
  rw [htop, hstep 56 48 rfl, hstep 48 40 rfl, hstep 40 32 rfl, hstep 32 24 rfl, hstep 24 16 rfl, hstep 16 8 rfl, hlow,
    Nat.mod_eq_of_lt h]

/-- The bytes of a number item. -/
def numberBytes (x : JsNumber) : Bytes :=
  if x.isInteger && !x.isNegZero then
    if 0 ≤ x.toInt then argumentBytes 0 x.toInt.toNat else argumentBytes 1 (-1 - x.toInt).toNat
  else 0xfb :: CborWriter.float64Bytes x

/-- The numbers both directions let through: finite, and safe if an integer. -/
structure NumberAccepted (x : JsNumber) : Prop where
  finite : x.isFinite = true
  safe : x.isInteger = true → x.isSafeInteger = true

variable {x : JsNumber}

theorem encodeNumber_accepted (h : encodeNumber w x = .ok w') :
    NumberAccepted x := by
  simp only [encodeNumber, bind, Except.bind, throw, throwThe, MonadExceptOf.throw] at h
  split at h
  · cases h
  · rename_i hfin
    refine ⟨by simpa using hfin, ?_⟩
    intro hint
    by_cases hz : x.isNegZero = true
    · have hx : x = JsNumber.negZero := by simpa [JsNumber.isNegZero] using hz
      obtain ⟨hi, hm⟩ := JsNumber.integer_of_significand_zero JsNumber.negZero (by decide) (by decide)
      rw [hx, JsNumber.isSafeInteger, hi, hm]
      decide
    · by_contra hsafe
      have hs : (!x.isSafeInteger) = true := by simpa using hsafe
      simp only [hint, hz, hs, Bool.not_false, Bool.and_self, if_true] at h
      cases h

theorem encodeNumber_writes (h : NumberAccepted x) :
    Writes (fun w => encodeNumber w x) (numberBytes x) := by
  have hfin : (!x.isFinite) = false := by rw [h.finite]; rfl
  by_cases hint : (x.isInteger && !x.isNegZero) = true
  · have hsafe : (!x.isSafeInteger) = false := by
      simp only [Bool.and_eq_true] at hint
      rw [h.safe hint.1]
      rfl
    by_cases hpos : 0 ≤ x.toInt
    · have heq : (fun w => encodeNumber w x) = fun w => writeArgument w 0 x.toInt.toNat := by
        funext w
        simp only [encodeNumber, hfin, hint, hsafe, hpos, if_true, Bool.false_eq_true, if_false]
      rw [heq, numberBytes, if_pos hint, if_pos hpos]
      exact writeArgument_writes 0 _
    · have heq : (fun w => encodeNumber w x) = fun w => writeArgument w 1 (-1 - x.toInt).toNat := by
        funext w
        simp only [encodeNumber, hfin, hint, hsafe, hpos, if_true, Bool.false_eq_true, if_false]
      rw [heq, numberBytes, if_pos hint, if_neg hpos]
      exact writeArgument_writes 1 _
  · have heq : (fun w => encodeNumber w x) = fun w => w.writeFloat64 x := by
      funext w
      simp only [encodeNumber, hfin, hint, Bool.false_eq_true, if_false]
    rw [heq, numberBytes, if_neg hint]
    exact writeBytes_writes _

theorem safe_natAbs (h : x.isSafeInteger = true) : x.toInt.natAbs ≤ JsNumber.MAX_SAFE_INTEGER := by
  simp only [JsNumber.isSafeInteger, Bool.and_eq_true, decide_eq_true_eq] at h
  rw [JsNumber.toInt]
  split <;> simp [h.2]

theorem readItem_numberBytes (h : NumberAccepted x)
    (levels : Nat) (tail : Bytes) :
    readItem options (levels + 1) (numberBytes x ++ tail) = .ok (.number x, tail) := by
  rw [numberBytes]
  split
  · rename_i hint
    simp only [Bool.and_eq_true, Bool.not_eq_true'] at hint
    have hsafe := h.safe hint.1
    have habs := safe_natAbs hsafe
    have hback := JsNumber.ofInt_toInt x hsafe hint.2
    split
    · rename_i hpos
      obtain ⟨initial, arg, harg, hmajor, _, hread⟩ := readArgument_argumentBytes 0 x.toInt.toNat
        (by omega) (by omega)
      rw [harg, List.cons_append, readItem_cons, hmajor]
      simp only [readBody, hread, bind, Except.bind]
      rw [show ((x.toInt.toNat : Nat) : Int) = x.toInt by omega, hback]
      rfl
    · rename_i hneg
      obtain ⟨initial, arg, harg, hmajor, _, hread⟩ := readArgument_argumentBytes 1 (-1 - x.toInt).toNat
        (by omega) (by omega)
      rw [harg, List.cons_append, readItem_cons, hmajor]
      simp only [readBody, hread, bind, Except.bind]
      rw [if_neg (by omega), show (-1 - ((-1 - x.toInt).toNat : Nat) : Int) = x.toInt by omega, hback]
      rfl
  · rw [List.cons_append, readItem_cons]
    change readSimple 27 _ = _
    have hlen : (CborWriter.float64Bytes x).length = 8 := rfl
    have hread := readBytes_append (CborWriter.float64Bytes x) tail
    rw [hlen] at hread
    have hsafe : (x.isInteger && !x.isSafeInteger) = false := by
      by_cases hint : x.isInteger = true
      · rw [h.safe hint]; simp
      · simp [hint]
    simp only [readSimple, hread, bind, Except.bind, float64Value_float64Bytes, h.finite, hsafe]
    rfl

/-! ## Decoding what was encoded -/

/-- What the round trip says about one item: the bytes appended read back as the
value without its `undefined` properties, whatever follows them. -/
def ReadsBack (options : ResolvedCborOptions) (levels : Nat) (v : JsValue) (bs : Bytes) : Prop :=
  ∀ tail, readItem options levels (bs ++ tail) = .ok (v.withoutUndefined, tail)

section Decodes

variable {options : ResolvedCborOptions}

/-- The elements of an array, given the round trip one level down. -/
theorem encodeItems_decodes {levels : Nat}
    (ih : ∀ (w w' : CborWriter) (v : JsValue), w.Wf → v.Wf → encodeValue options levels w v = .ok w' →
      ∃ bs, Extends w bs w' ∧ ReadsBack options levels v bs)
    (items : List JsValue) (hitems : ∀ v ∈ items, v.Wf) (w w' : CborWriter) (hw : w.Wf)
    (h : items.foldlM (encodeElement (encodeValue options levels)) w = .ok w') :
    ∃ bs, Extends w bs w' ∧ ∀ tail, readMany (readItem options levels) items.length (bs ++ tail) =
      .ok (items.map JsValue.withoutUndefined, tail) := by
  induction items generalizing w with
  | nil =>
    cases h
    exact ⟨[], Extends.refl hw, fun tail => rfl⟩
  | cons v items ihItems =>
    rw [List.foldlM_cons] at h
    by_cases hundef : v.isUndefined = true
    · simp only [encodeElement, hundef, if_true] at h
      cases h
    · have hstep : encodeElement (encodeValue options levels) w v = encodeValue options levels w v := by
        simp only [encodeElement, hundef, Bool.false_eq_true, if_false]
      rw [hstep] at h
      obtain ⟨w₁, hv, h⟩ := bind_ok.mp h
      obtain ⟨bs, hext, hread⟩ := ih w w₁ v hw (hitems v (by simp)) hv
      obtain ⟨cs, hext', hread'⟩ := ihItems (fun u hu => hitems u (by simp [hu])) w₁ hext.wf h
      refine ⟨bs ++ cs, hext.trans hext', ?_⟩
      intro tail
      rw [List.append_assoc, List.length_cons]
      simp only [readMany, hread (cs ++ tail), hread' tail, bind, Except.bind, List.map_cons]
      rfl

/-- The entries of a map, read into an object that has the earlier ones. -/
theorem encodeEntries_decodes {levels : Nat} (hopts : options.Bounded)
    (ih : ∀ (w w' : CborWriter) (v : JsValue), w.Wf → v.Wf → encodeValue options levels w v = .ok w' →
      ∃ bs, Extends w bs w' ∧ ReadsBack options levels v bs)
    (entries : List (JsString × JsValue)) (hentries : ∀ p ∈ entries, p.2.Wf) (w w' : CborWriter) (hw : w.Wf)
    (h : entries.foldlM (encodeEntry options (encodeValue options levels)) w = .ok w') :
    ∃ bs, Extends w bs w' ∧ ∀ props tail, JsProps.Wf (props ++ entries.map fun p => (p.1, p.2.withoutUndefined)) →
      readEntries (readItem options levels) entries.length props (bs ++ tail) =
        .ok (props ++ entries.map fun p => (p.1, p.2.withoutUndefined), tail) := by
  induction entries generalizing w with
  | nil =>
    cases h
    exact ⟨[], Extends.refl hw, fun props tail _ => by simp [readEntries]⟩
  | cons p entries ihEntries =>
    obtain ⟨key, v⟩ := p
    rw [List.foldlM_cons] at h
    cases hk : encodeText options w key with
    | error e => simp only [encodeEntry, hk] at h; cases h
    | ok w₁ =>
      cases hv : encodeValue options levels w₁ v with
      | error e => simp only [encodeEntry, hk, bind, Except.bind, hv] at h; cases h
      | ok w₂ =>
        have hstep : encodeEntry options (encodeValue options levels) w (key, v) = .ok w₂ := by
          simp only [encodeEntry, hk, bind, Except.bind, hv]
        rw [hstep] at h
        have htext := encodeText_accepted hk
        have hext := (encodeText_writes htext).sound w w₁ hw hk
        obtain ⟨bs, hext', hread⟩ := ih w₁ w₂ v hext.wf (hentries (key, v) (by simp)) hv
        obtain ⟨cs, hext'', hread'⟩ := ihEntries (fun q hq => hentries q (by simp [hq])) w₂ hext'.wf h
        refine ⟨textBytes key ++ (bs ++ cs), hext.trans (hext'.trans hext''), ?_⟩
        intro props tail hwf
        -- An item was encoded below this level, so the key may be read there.
        obtain ⟨levels', rfl⟩ : ∃ levels', levels = levels' + 1 := by
          cases levels with
          | zero => cases hv
          | succ levels' => exact ⟨levels', rfl⟩
        have hsplit : props ++ ((key, v) :: entries).map (fun p => (p.1, p.2.withoutUndefined)) =
            (props ++ [(key, v.withoutUndefined)]) ++ entries.map fun p => (p.1, p.2.withoutUndefined) := by
          simp
        rw [hsplit] at hwf ⊢
        have hdef := JsProps.define_last (JsProps.wf_append_left hwf)
        have hnew : key ∉ JsProps.keys props := by
          have hnd := (JsProps.wf_append_left hwf).nodup
          simp only [JsProps.keys, List.map_append, List.map_cons, List.map_nil] at hnd
          intro hmem
          exact (List.nodup_append.mp hnd).2.2 key hmem key (by simp) rfl
        rw [List.length_cons, List.append_assoc, List.append_assoc]
        simp only [readEntries, readItem_textBytes hopts htext levels', bind, Except.bind, if_neg hnew,
          hread (cs ++ tail), hdef, hread' _ tail hwf]

end Decodes

/-- One item, at any level: success of the encoder means the bytes read back. -/
theorem encodeValue_decodes {options : ResolvedCborOptions} (hopts : options.Bounded) (levels : Nat)
    (w w' : CborWriter) (v : JsValue) (hw : w.Wf) (hv : v.Wf) (h : encodeValue options levels w v = .ok w') :
    ∃ bs, Extends w bs w' ∧ ReadsBack options levels v bs := by
  induction levels generalizing w w' v with
  | zero => cases h
  | succ levels ih =>
    cases hv with
    | null =>
      exact ⟨_, (writeBytes_writes [UInt8.ofNat 0xf6]).sound w w' hw h, fun tail => rfl⟩
    | boolean b =>
      refine ⟨_, (writeBytes_writes [UInt8.ofNat (if b then 0xf5 else 0xf4)]).sound w w' hw h, ?_⟩
      intro tail
      cases b <;> rfl
    | number x =>
      have hx := encodeNumber_accepted h
      exact ⟨_, (encodeNumber_writes hx).sound w w' hw h, fun tail => readItem_numberBytes options hx levels tail⟩
    | string s =>
      have hs := encodeText_accepted h
      exact ⟨_, (encodeText_writes hs).sound w w' hw h, fun tail => readItem_textBytes hopts hs levels tail⟩
    | bytes b =>
      simp only [encodeValue] at h
      split at h
      · cases h
      · rename_i hlen
        have hle : b.length ≤ options.maxByteLength := by omega
        refine ⟨_, ((writeArgument_writes 2 b.length).andThen (writeBytes_writes b)).sound w w' hw h, ?_⟩
        intro tail
        obtain ⟨initial, arg, harg, hmajor, hai, hread⟩ := readArgument_argumentBytes 2 b.length
          (by omega) (safe_of_uint32 (Nat.le_trans hle hopts.bytes))
        rw [harg, List.cons_append, List.cons_append, readItem_cons, hmajor, List.append_assoc]
        simp only [readBody, readLength_ok (hread (b ++ tail)) hai hle, bind, Except.bind, readBytes_append]
        rfl
    | array items hitems =>
      simp only [encodeValue] at h
      split at h
      · cases h
      · rename_i hlen
        have hle : items.length ≤ options.maxContainerLength := by omega
        obtain ⟨w₁, ha, h⟩ := bind_ok.mp h
        have hext := (writeArgument_writes 4 items.length).sound w w₁ hw ha
        obtain ⟨bs, hext', hread'⟩ := encodeItems_decodes ih items hitems w₁ w' hext.wf h
        refine ⟨_, hext.trans hext', ?_⟩
        intro tail
        obtain ⟨initial, arg, harg, hmajor, hai, hread⟩ := readArgument_argumentBytes 4 items.length
          (by omega) (safe_of_uint32 (Nat.le_trans hle hopts.containers))
        rw [harg, List.cons_append, List.cons_append, readItem_cons, hmajor, List.append_assoc]
        simp only [readBody, readLength_ok (hread (bs ++ tail)) hai hle, bind, Except.bind, hread' tail,
          JsValue.withoutUndefined, itemsWithoutUndefined_eq]
        rfl
    | object symbols props hwf hprops =>
      simp only [encodeValue] at h
      split at h
      · cases h
      · rename_i hsym
        split at h
        · cases h
        · rename_i hlen
          have hle : (definedEntries props).length ≤ options.maxContainerLength := by omega
          obtain ⟨w₁, ha, h⟩ := bind_ok.mp h
          have hext := (writeArgument_writes 5 (definedEntries props).length).sound w w₁ hw ha
          obtain ⟨bs, hext', hread'⟩ := encodeEntries_decodes hopts ih (definedEntries props)
            (fun p hp => hprops p (List.mem_filter.mp hp).1) w₁ w' hext.wf h
          refine ⟨_, hext.trans hext', ?_⟩
          intro tail
          obtain ⟨initial, arg, harg, hmajor, hai, hread⟩ := readArgument_argumentBytes 5
            (definedEntries props).length (by omega) (safe_of_uint32 (Nat.le_trans hle hopts.containers))
          have hwf' : JsProps.Wf ([] ++ (definedEntries props).map fun p => (p.1, p.2.withoutUndefined)) := by
            have hkeep := JsProps.wf_filter props (fun p => !p.2.isUndefined) hwf
            have hkeys : JsProps.keys (definedEntries props) =
                JsProps.keys ((definedEntries props).map fun p => (p.1, p.2.withoutUndefined)) := by
              simp [JsProps.keys, Function.comp_def]
            exact ⟨hkeys ▸ hkeep.nodup, JsProps.listed_of_keys hkeys hkeep.listed⟩
          rw [harg, List.cons_append, List.cons_append, readItem_cons, hmajor, List.append_assoc]
          simp only [readBody, readLength_ok (hread (bs ++ tail)) hai hle, bind, Except.bind,
            hread' [] tail hwf', JsValue.withoutUndefined, propsWithoutUndefined_eq, hsym]
          rfl
    | undefined | hole | other => cases h

theorem resolveLimit_le {name : String} {value maximum n : Nat} (h : resolveLimit name value maximum = .ok n) :
    n ≤ maximum := by
  simp only [resolveLimit] at h
  split at h
  · cases h
  · cases h
    omega

theorem resolveOptions_bounded {options : CborOptions} {resolved : ResolvedCborOptions}
    (h : resolveOptions options = .ok resolved) : resolved.Bounded := by
  simp only [resolveOptions, bind, Except.bind] at h
  split at h
  · cases h
  · rename_i hbytes
    split at h
    · cases h
    · rename_i hcontainers
      split at h
      · cases h
      · cases h
        exact ⟨resolveLimit_le hbytes, resolveLimit_le hcontainers⟩

theorem new_wf (maxByteLength : Nat) : (CborWriter.new maxByteLength).Wf := ⟨Nat.zero_le _, Nat.zero_le _⟩

theorem finish_of_extends {maxByteLength : Nat} {bs : Bytes}
    (h : Extends (CborWriter.new maxByteLength) bs w) : w.finish = bs := by
  have hc := h.content
  simpa [CborWriter.finish, CborWriter.content, CborWriter.new] using hc

/-- What is encoded is one item, within the length that the options allow. -/
theorem encodeCbor_item {options : CborOptions} {v : JsValue} (hv : v.Wf) {bytes : Bytes} (h : encodeCbor v options = .ok bytes) :
    ∃ resolved, resolveOptions options = .ok resolved ∧ bytes.length ≤ resolved.maxByteLength ∧
      ReadsBack resolved (resolved.maxDepth + 1) v bytes := by
  obtain ⟨resolved, hr, h⟩ := bind_ok.mp h
  obtain ⟨w, hw, h⟩ := bind_ok.mp h
  cases h
  obtain ⟨bs, hext, hread⟩ := encodeValue_decodes (resolveOptions_bounded hr) _ _ w v (new_wf _) hv hw
  rw [finish_of_extends hext]
  refine ⟨resolved, hr, ?_, hread⟩
  have hoff := hext.offset (new_wf _)
  have hlim := hext.wf.inLimit
  rw [hext.maxByteLength] at hlim
  simp only [CborWriter.new] at hoff hlim
  omega

theorem decodeCbor_item {options : CborOptions} {resolved : ResolvedCborOptions} {v : JsValue} {bytes : Bytes}
    (hr : resolveOptions options = .ok resolved) (hlen : bytes.length ≤ resolved.maxByteLength)
    (hread : ReadsBack resolved (resolved.maxDepth + 1) v bytes) : decodeCbor bytes options = .ok v.withoutUndefined := by
  have hall := hread []
  rw [List.append_nil] at hall
  simp only [decodeCbor, hr, bind, Except.bind, if_neg (Nat.not_lt.mpr hlen), hall]
  rfl

/-- Whatever the encoder accepts is read back under the same options, without
the properties whose value is `undefined`. -/
theorem decodeCbor_encodeCbor (options : CborOptions) (v : { v : JsValue // v.Wf }) (bytes : Bytes)
    (h : encodeCbor v.1 options = .ok bytes) : decodeCbor bytes options = .ok v.1.withoutUndefined := by
  obtain ⟨resolved, hr, hlen, hread⟩ := encodeCbor_item v.2 h
  exact decodeCbor_item hr hlen hread

/-- `[1, { a: undefined }, -0]` under a depth limit of one. -/
def sampleValue : JsValue :=
  .array [.number (JsNumber.ofInt 1), .object false [(ofString "a", .undefined)], .number JsNumber.negZero]

theorem sampleValue_wf : sampleValue.Wf := by
  refine .array _ ?_
  intro v hv
  simp only [List.mem_cons, List.not_mem_nil, or_false] at hv
  rcases hv with rfl | rfl | rfl
  · exact .number _
  · exact .object _ _ ⟨by simp [JsProps.keys], List.pairwise_singleton _ _⟩ (by simp [JsValue.Wf.undefined])
  · exact .number _

theorem decodeCbor_encodeCbor_sample :
    encodeCbor sampleValue { maxDepth := some 1 } = .ok [0x83, 0x01, 0xa0, 0xfb, 0x80, 0, 0, 0, 0, 0, 0, 0] ∧
      decodeCbor [0x83, 0x01, 0xa0, 0xfb, 0x80, 0, 0, 0, 0, 0, 0, 0] { maxDepth := some 1 } =
        .ok (.array [.number (JsNumber.ofInt 1), .object false [], .number JsNumber.negZero]) :=
  ⟨by decide +kernel,
    decodeCbor_encodeCbor { maxDepth := some 1 } ⟨sampleValue, sampleValue_wf⟩ _ (by decide +kernel)⟩

end Shuvpi.Cbor
