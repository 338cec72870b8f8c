import Shuvpi.CborRoundTrip

/-!
# CBOR re-encoding

The decoder accepts heads of any width and integers sent as doubles. Each accepted
item is followed to the bytes the encoder gives it, which are never more than
were read: the shortest head for the same argument, an integer head for an
integer-valued double, the same bytes for a text.
-/
namespace Shuvpi.Cbor

open JsText

/-- A decoded value can be written again in at most `n` bytes. -/
structure Reencodes (options : ResolvedCborOptions) (levels : Nat) (v : JsValue) (n : Nat) : Prop where
  wf : v.Wf
  clean : v.withoutUndefined = v
  defined : v.isUndefined = false
  writes : ∃ bs, Writes (fun w => encodeValue options levels w v) bs ∧ bs.length ≤ n

/-! ## Items without items -/

/-- A decoded number is accepted by the encoder. -/
theorem ofInt_accepted (n : Int) (h : n.natAbs ≤ JsNumber.MAX_SAFE_INTEGER) :
    NumberAccepted (JsNumber.ofInt n) := by
  obtain ⟨hsafe, _, _⟩ := JsNumber.ofInt_denotes n h
  refine ⟨?_, fun _ => hsafe⟩
  simp only [JsNumber.isSafeInteger, JsNumber.isInteger, Bool.and_eq_true] at hsafe
  exact hsafe.1.1

theorem numberBytes_ofInt (n : Int) (h : n.natAbs ≤ JsNumber.MAX_SAFE_INTEGER) : numberBytes (JsNumber.ofInt n) =
      if 0 ≤ n then argumentBytes 0 n.toNat else argumentBytes 1 (-1 - n).toNat := by
  obtain ⟨hsafe, hint, hz⟩ := JsNumber.ofInt_denotes n h
  have hi : (JsNumber.ofInt n).isInteger = true := by
    simp only [JsNumber.isSafeInteger, Bool.and_eq_true] at hsafe
    exact hsafe.1
  rw [numberBytes, hi, hz, hint]
  rfl

theorem numberBytes_length_le (x : JsNumber) : (numberBytes x).length ≤ 9 := by
  rw [numberBytes]
  split
  · split
    · exact (argumentBytes_length_le _ _).1
    · exact (argumentBytes_length_le _ _).1
  · exact Nat.le_refl 9

variable (options : ResolvedCborOptions)

theorem number_reencodes (levels : Nat) (x : JsNumber) (hx : NumberAccepted x)
    (n : Nat) (h : (numberBytes x).length ≤ n) : Reencodes options (levels + 1) (.number x) n :=
  ⟨.number x, rfl, rfl, _, encodeNumber_writes hx, h⟩

theorem text_accepted {options : ResolvedCborOptions} {b : Bytes} {s : JsString}
    (hs : textDecode b = some s) (hlen : b.length ≤ options.maxByteLength) : TextAccepted options s :=
  ⟨by rw [textEncode_of_textDecode hs]; exact hlen, textDecode_of_textDecode hs⟩

theorem readLength_spec {ai n limit : Nat} {kind : String} {bytes rest : Bytes}
    (h : readLength ai kind limit bytes = .ok (n, rest)) :
    readArgument ai bytes = .ok (n, rest) ∧ n ≤ limit := by
  simp only [readLength, bind, Except.bind, throw, throwThe, MonadExceptOf.throw] at h
  split at h
  · cases h
  · cases hr : readArgument ai bytes with
    | error e => rw [hr] at h; cases h
    | ok r =>
      simp only [hr] at h
      split at h
      · cases h
      · rename_i hle
        cases h
        exact ⟨rfl, by omega⟩

theorem readSimple_reencodes (levels ai : Nat) (bytes rest : Bytes) (v : JsValue)
    (h : readSimple ai bytes = .ok (v, rest)) :
    rest.length ≤ bytes.length ∧ Reencodes options (levels + 1) v (bytes.length + 1 - rest.length) := by
  simp only [readSimple] at h
  split at h
  · cases h
    exact ⟨Nat.le_refl _, .boolean _, rfl, rfl, _, writeBytes_writes [UInt8.ofNat 0xf4], by simp⟩
  · cases h
    exact ⟨Nat.le_refl _, .boolean _, rfl, rfl, _, writeBytes_writes [UInt8.ofNat 0xf5], by simp⟩
  · cases h
    exact ⟨Nat.le_refl _, .null, rfl, rfl, _, writeBytes_writes [UInt8.ofNat 0xf6], by simp⟩
  · obtain ⟨⟨b, rest'⟩, hr, h⟩ := bind_ok.mp h
    obtain ⟨rfl, hb⟩ := readBytes_spec hr
    simp only [hr, bind, Except.bind, throw, throwThe, MonadExceptOf.throw] at h
    split at h
    · cases h
    · rename_i hfin
      split at h
      · cases h
      · rename_i hsafe
        cases h
        have hx : NumberAccepted (float64Value b) := by
          refine ⟨by simpa using hfin, ?_⟩
          intro hint
          simpa [hint] using hsafe
        have hle := numberBytes_length_le (float64Value b)
        rw [List.length_append]
        exact ⟨by omega, number_reencodes options levels _ hx _ (by omega)⟩
  · cases h
  · cases h

/-! ## Containers -/

section Containers

variable {options : ResolvedCborOptions} {levels : Nat}

/-- The elements of an array. -/
theorem readMany_reencodes
    (ih : ∀ (bytes rest : Bytes) (v : JsValue), readItem options levels bytes = .ok (v, rest) →
      rest.length ≤ bytes.length ∧ Reencodes options levels v (bytes.length - rest.length))
    (count : Nat) (bytes rest : Bytes) (items : List JsValue)
    (h : readMany (readItem options levels) count bytes = .ok (items, rest)) :
    rest.length ≤ bytes.length ∧ items.length = count ∧ (∀ v ∈ items, v.Wf) ∧
      items.map JsValue.withoutUndefined = items ∧
      ∃ bs, Writes (fun w => items.foldlM (encodeElement (encodeValue options levels)) w) bs ∧
        bs.length ≤ bytes.length - rest.length := by
  induction count generalizing bytes rest items with
  | zero =>
    cases h
    exact ⟨Nat.le_refl _, rfl, by simp, rfl, [], Writes.nil, by simp⟩
  | succ count ihCount =>
    obtain ⟨⟨v, mid⟩, hi, h⟩ := bind_ok.mp h
    obtain ⟨⟨vs, rest'⟩, hm, h⟩ := bind_ok.mp h
    cases h
    obtain ⟨hle, hv⟩ := ih bytes mid v hi
    obtain ⟨hle', hlen, hwf, hclean, cs, hcs, hcl⟩ := ihCount mid rest vs hm
    obtain ⟨bs, hbs, hbl⟩ := hv.writes
    have hstep : (fun w => encodeElement (encodeValue options levels) w v) =
        fun w => encodeValue options levels w v := by
      funext w
      simp only [encodeElement, hv.defined, Bool.false_eq_true, if_false]
    refine ⟨by omega, by rw [List.length_cons, hlen], ?_, by rw [List.map_cons, hv.clean, hclean], bs ++ cs, ?_, ?_⟩
    · intro u hu
      rcases List.mem_cons.mp hu with rfl | hu
      · exact hv.wf
      · exact hwf u hu
    · simp only [List.foldlM_cons]
      exact Writes.andThen (hstep ▸ hbs) hcs
    · rw [List.length_append]
      omega

/-- The entries of a map can be written again: each of them, in any order, and
all of them in at most `n` bytes. -/
structure EntriesReencode (options : ResolvedCborOptions) (levels : Nat) (props : List (JsString × JsValue))
    (n : Nat) : Prop where
  wf : JsProps.Wf props
  values : ∀ p ∈ props, p.2.Wf ∧ p.2.withoutUndefined = p.2 ∧ p.2.isUndefined = false
  writes : ∃ encoded : JsString × JsValue → Bytes,
    (∀ p ∈ props, Writes (fun w => encodeEntry options (encodeValue options levels) w p) (encoded p)) ∧
      (props.map fun p => (encoded p).length).sum ≤ n

variable {props : List (JsString × JsValue)}

variable {n m : Nat}

/-- One more entry, wherever its key is listed. -/
theorem EntriesReencode.define {key : JsString} {v : JsValue}
    (h : EntriesReencode options levels props n) (hnew : key ∉ JsProps.keys props) (hv : v.Wf)
    (hclean : v.withoutUndefined = v) (hdef : v.isUndefined = false) {bs : Bytes}
    (hbs : Writes (fun w => encodeEntry options (encodeValue options levels) w (key, v)) bs)
    (hm : bs.length ≤ m) : EntriesReencode options levels (JsProps.define props key v) (n + m) := by
  obtain ⟨encoded, henc, hsum⟩ := h.writes
  have hperm := JsProps.define_perm props key v hnew
  have hother : ∀ p ∈ props, p.1 ≠ key := by
    intro p hp he
    exact hnew (JsProps.mem_keys.mpr ⟨p.2, by rw [← he]; exact hp⟩)
  refine ⟨JsProps.define_wf props key v h.wf, ?_, fun p => if p.1 = key then bs else encoded p, ?_, ?_⟩
  · intro p hp
    rcases List.mem_cons.mp (hperm.mem_iff.mp hp) with rfl | hp
    · exact ⟨hv, hclean, hdef⟩
    · exact h.values p hp
  · intro p hp
    rcases List.mem_cons.mp (hperm.mem_iff.mp hp) with rfl | hp
    · simpa using hbs
    · simpa [hother p hp] using henc p hp
  · rw [(hperm.map fun p => (if p.1 = key then bs else encoded p).length).sum_nat, List.map_cons, List.sum_cons]
    have hsame : (props.map fun p => (if p.1 = key then bs else encoded p).length) =
        props.map fun p => (encoded p).length := by
      apply List.map_congr_left
      intro p hp
      rw [if_neg (hother p hp)]
    rw [hsame]
    simp only [if_true]
    omega

theorem readEntries_reencodes
    (ih : ∀ (bytes rest : Bytes) (v : JsValue), readItem options levels bytes = .ok (v, rest) →
      rest.length ≤ bytes.length ∧ Reencodes options levels v (bytes.length - rest.length))
    (count n : Nat) (bytes rest : Bytes) (props result : List (JsString × JsValue))
    (hprops : EntriesReencode options levels props n)
    (h : readEntries (readItem options levels) count props bytes = .ok (result, rest)) :
    rest.length ≤ bytes.length ∧ result.length = props.length + count ∧
      EntriesReencode options levels result (n + (bytes.length - rest.length)) := by
  induction count generalizing n bytes props with
  | zero =>
    cases h
    exact ⟨Nat.le_refl _, rfl, by simpa using hprops⟩
  | succ count ihCount =>
    obtain ⟨⟨k, mid⟩, hk, h⟩ := bind_ok.mp h
    cases k with
    | string key =>
      simp only at h
      split at h
      · cases h
      · rename_i hnew
        obtain ⟨⟨v, mid'⟩, hv, h⟩ := bind_ok.mp h
        obtain ⟨hle, hkey⟩ := ih bytes mid _ hk
        obtain ⟨hle', hval⟩ := ih mid mid' v hv
        obtain ⟨ks, hks, hkl⟩ := hkey.writes
        obtain ⟨vs, hvs, hvl⟩ := hval.writes
        have hentry : Writes (fun w => encodeEntry options (encodeValue options levels) w (key, v)) (ks ++ vs) := by
          -- The key was read as an item, so there is a level to encode it at.
          cases levels with
          | zero => cases hk
          | succ levels => exact hks.andThen hvs
        have hdefine := hprops.define hnew hval.wf hval.clean hval.defined hentry
          (m := bytes.length - mid'.length) (by rw [List.length_append]; omega)
        obtain ⟨hle'', hlen, hres⟩ := ihCount _ mid' _ hdefine h
        refine ⟨by omega, ?_, ?_⟩
        · rw [hlen, (JsProps.define_perm props key v hnew).length_eq, List.length_cons]
          omega
        · have hn : n + (bytes.length - mid'.length) + (mid'.length - rest.length) =
              n + (bytes.length - rest.length) := by omega
          rw [hn] at hres
          exact hres
    | _ => cases h

variable (h : EntriesReencode options levels props n)
include h

theorem EntriesReencode.definedEntries_eq : definedEntries props = props := by
  rw [definedEntries, List.filter_eq_self]
  intro p hp
  rw [(h.values p hp).2.2]
  rfl

theorem EntriesReencode.object_reencodes
    (hlen : props.length ≤ options.maxContainerLength)
    (hm : (argumentBytes 5 props.length).length + n ≤ m) :
    Reencodes options (levels + 1) (.object false props) m := by
  obtain ⟨encoded, henc, hsum⟩ := h.writes
  refine ⟨.object _ _ h.wf (fun p hp => (h.values p hp).1), ?_, rfl,
    argumentBytes 5 props.length ++ props.flatMap encoded, ?_, ?_⟩
  · rw [JsValue.withoutUndefined, propsWithoutUndefined_eq, h.definedEntries_eq]
    congr 1
    rw [List.map_congr_left (g := id), List.map_id]
    intro p hp
    rw [(h.values p hp).2.1]
    rfl
  · have heq : (fun w => encodeValue options (levels + 1) w (.object false props)) =
        fun w => writeArgument w 5 props.length >>= fun w =>
          props.foldlM (encodeEntry options (encodeValue options levels)) w := by
      funext w
      simp only [encodeValue, h.definedEntries_eq, if_neg (Nat.not_lt.mpr hlen), Bool.false_eq_true, if_false]
    rw [heq]
    exact (writeArgument_writes 5 _).andThen (Writes.foldlM henc)
  · have hflat : (props.flatMap encoded).length = (props.map fun p => (encoded p).length).sum := by
      rw [List.length_flatMap]
    rw [List.length_append, hflat]
    omega

end Containers

/-! ## Whole payloads -/

/-- Every item the decoder accepts can be written again in at most the bytes it
was read from. -/
theorem readItem_reencodes (levels : Nat) (bytes rest : Bytes) (v : JsValue)
    (h : readItem options levels bytes = .ok (v, rest)) :
    rest.length ≤ bytes.length ∧ Reencodes options levels v (bytes.length - rest.length) := by
  induction levels generalizing bytes rest v with
  | zero => cases h
  | succ levels ih =>
    cases bytes with
    | nil => cases h
    | cons initial bytes =>
      rw [readItem_cons] at h
      rw [List.length_cons]
      simp only [readBody] at h
      split at h
      · obtain ⟨⟨n, rest'⟩, hr, h⟩ := bind_ok.mp h
        dsimp only at h
        obtain ⟨rfl, rfl⟩ := h
        obtain ⟨hn, hlen⟩ := readArgument_spec hr 0
        refine ⟨by omega, number_reencodes options levels _ (ofInt_accepted _ (by omega)) _ ?_⟩
        rw [numberBytes_ofInt _ (by omega), if_pos (by omega)]
        simp only [Int.toNat_natCast]
        omega
      · obtain ⟨⟨n, rest'⟩, hr, h⟩ := bind_ok.mp h
        dsimp only at h
        split at h
        · cases h
        · rename_i hsafe
          cases h
          obtain ⟨hn, hlen⟩ := readArgument_spec hr 1
          refine ⟨by omega, number_reencodes options levels _ (ofInt_accepted _ (by omega)) _ ?_⟩
          rw [numberBytes_ofInt _ (by omega), if_neg (by omega)]
          rw [show (-1 - (-1 - (n : Int))).toNat = n by omega]
          omega
      · obtain ⟨⟨n, mid⟩, hr, h⟩ := bind_ok.mp h
        obtain ⟨harg, hle⟩ := readLength_spec hr
        obtain ⟨_, hlen⟩ := readArgument_spec harg 2
        obtain ⟨⟨b, rest'⟩, hb, h⟩ := bind_ok.mp h
        dsimp only at h
        cases h
        obtain ⟨rfl, rfl⟩ := readBytes_spec hb
        rw [List.length_append] at hlen
        have hpos := (argumentBytes_length_pos 2 b.length)
        refine ⟨by omega, .bytes b, rfl, rfl, argumentBytes 2 b.length ++ b, ?_, ?_⟩
        · have heq : (fun w => encodeValue options (levels + 1) w (.bytes b)) =
              fun w => writeArgument w 2 b.length >>= fun w => w.writeBytes b := by
            funext w
            simp only [encodeValue, if_neg (Nat.not_lt.mpr hle)]
          rw [heq]
          exact (writeArgument_writes 2 _).andThen (writeBytes_writes b)
        · rw [List.length_append]
          omega
      · obtain ⟨⟨n, mid⟩, hr, h⟩ := bind_ok.mp h
        obtain ⟨harg, hle⟩ := readLength_spec hr
        obtain ⟨_, hlen⟩ := readArgument_spec harg 3
        obtain ⟨⟨b, rest'⟩, hb, h⟩ := bind_ok.mp h
        obtain ⟨rfl, rfl⟩ := readBytes_spec hb
        simp only [bind, Except.bind, hb] at h
        cases ht : textDecode b with
        | none => rw [ht] at h; cases h
        | some s =>
          rw [ht] at h
          cases h
          rw [List.length_append] at hlen
          refine ⟨by omega, .string s, rfl, rfl, textBytes s, encodeText_writes (text_accepted ht hle), ?_⟩
          rw [textBytes, textEncode_of_textDecode ht, List.length_append]
          omega
      · obtain ⟨⟨n, mid⟩, hr, h⟩ := bind_ok.mp h
        obtain ⟨harg, hle⟩ := readLength_spec hr
        obtain ⟨_, hlen⟩ := readArgument_spec harg 4
        obtain ⟨⟨items, rest'⟩, hm, h⟩ := bind_ok.mp h
        dsimp only at h
        cases h
        obtain ⟨hle', rfl, hwf, hclean, bs, hbs, hbl⟩ := readMany_reencodes ih n mid rest items hm
        refine ⟨by omega, .array _ hwf, ?_, rfl, argumentBytes 4 items.length ++ bs, ?_, ?_⟩
        · rw [JsValue.withoutUndefined, itemsWithoutUndefined_eq, hclean]
        · have heq : (fun w => encodeValue options (levels + 1) w (.array items)) =
              fun w => writeArgument w 4 items.length >>= fun w =>
                items.foldlM (encodeElement (encodeValue options levels)) w := by
            funext w
            simp only [encodeValue, if_neg (Nat.not_lt.mpr hle)]
          rw [heq]
          exact (writeArgument_writes 4 _).andThen hbs
        · rw [List.length_append]
          omega
      · obtain ⟨⟨n, mid⟩, hr, h⟩ := bind_ok.mp h
        obtain ⟨harg, hle⟩ := readLength_spec hr
        obtain ⟨_, hlen⟩ := readArgument_spec harg 5
        obtain ⟨⟨props, rest'⟩, hm, h⟩ := bind_ok.mp h
        dsimp only at h
        cases h
        obtain ⟨hle', hcount, hres⟩ := readEntries_reencodes ih n 0 mid rest [] props
          ⟨JsProps.wf_nil, by simp, fun _ => [], by simp, by simp⟩ hm
        simp only [List.length_nil, Nat.zero_add] at hcount hres
        subst hcount
        exact ⟨by omega, hres.object_reencodes hle (by omega)⟩
      · cases h
      · obtain ⟨hle, hres⟩ := readSimple_reencodes options levels _ _ _ _ h
        exact ⟨by omega, hres⟩

/-- Every payload that decodes can be encoded again under the same options, in
at most as many bytes, and the result decodes to the same value. -/
theorem encodeCbor_of_decodeCbor (options : CborOptions) (bytes : Bytes) (v : JsValue)
    (h : decodeCbor bytes options = .ok v) :
    ∃ bytes', encodeCbor v options = .ok bytes' ∧ bytes'.length ≤ bytes.length ∧
      decodeCbor bytes' options = .ok v := by
  cases hr : resolveOptions options with
  | error e => simp only [decodeCbor, hr] at h; cases h
  | ok resolved =>
    simp only [decodeCbor, hr, bind, Except.bind, throw, throwThe, MonadExceptOf.throw] at h
    split at h
    · cases h
    · rename_i hmax
      cases hi : readItem resolved (resolved.maxDepth + 1) bytes with
      | error e => rw [hi] at h; cases h
      | ok r =>
        obtain ⟨u, rest⟩ := r
        simp only [hi] at h
        split at h
        · cases h
        · rename_i hrest
          cases h
          obtain ⟨_, hre⟩ := readItem_reencodes resolved _ bytes rest v hi
          obtain ⟨bs, hbs, hlen⟩ := hre.writes
          obtain ⟨w, hw⟩ := hbs.complete (CborWriter.new resolved.maxByteLength) (new_wf _)
            (by simp only [CborWriter.new]; omega)
          have hext := hbs.sound _ w (new_wf _) hw
          have henc : encodeCbor v options = .ok bs := by
            simp only [encodeCbor, hr, bind, Except.bind, hw]
            rw [finish_of_extends hext]
            rfl
          refine ⟨bs, henc, by omega, ?_⟩
          obtain ⟨resolved', hr', hwithin, hread⟩ := encodeCbor_item hre.wf henc
          rw [decodeCbor_item hr' hwithin hread, hre.clean]

/-- An array sent with a two-byte length and an integer sent as a double. -/
theorem encodeCbor_of_decodeCbor_widened : decodeCbor [0x99, 0, 1, 0xfb, 0x3f, 0xf0, 0, 0, 0, 0, 0, 0] {} =
        .ok (.array [.number (JsNumber.ofInt 1)]) ∧
      ∃ bytes', encodeCbor (.array [.number (JsNumber.ofInt 1)]) {} = .ok bytes' ∧ bytes'.length ≤ 12 ∧
        decodeCbor bytes' {} = .ok (.array [.number (JsNumber.ofInt 1)]) :=
  ⟨by rfl, encodeCbor_of_decodeCbor {} [0x99, 0, 1, 0xfb, 0x3f, 0xf0, 0, 0, 0, 0, 0, 0] _ (by rfl)⟩

end Shuvpi.Cbor
