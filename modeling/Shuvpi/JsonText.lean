import Shuvpi.DeltaOps
import Shuvpi.TextFile

/-!
# JSON texts

`JSON.stringify` and `JSON.parse` on the values of the program. Strings are quoted unit by
unit: a surrogate pair stands for itself and a lone surrogate is escaped, so a JSON text
is a text, and it has no line feed. How a number is written and read is a parameter, of
which only two things are used: it is written as a number of the JSON grammar, and a
finite number other than `-0` is read back.
-/
namespace Shuvpi.JsonText

open JsText (ofString isHighSurrogate isLowSurrogate)
open List Option

/-! ## Numbers -/

def isDigit (u : UInt16) : Bool := 48 ≤ u.toNat && u.toNat ≤ 57

/-- A unit that can stand in a number. -/
def isNumberUnit (u : UInt16) : Bool := isDigit u || u == 43 || u == 45 || u == 46 || u == 69 || u == 101

/-- Nothing, or an exponent. -/
def isExponent : JsString → Bool
  | [] => true
  | e :: rest =>
    (e == 69 || e == 101) &&
      match rest with
      | [] => false
      | sign :: digits =>
        if sign == 43 || sign == 45 then !digits.isEmpty && digits.all isDigit else rest.all isDigit

/-- What follows the integer part. -/
def isFraction : JsString → Bool
  | [] => true
  | u :: rest =>
    if u == 46 then !(rest.takeWhile isDigit).isEmpty && isExponent (rest.dropWhile isDigit) else isExponent (u :: rest)

def isUnsignedNumber (token : JsString) : Bool :=
  let integer := token.takeWhile isDigit
  !integer.isEmpty && (integer.length == 1 || integer.head? != some 48) && isFraction (token.dropWhile isDigit)

/-- A number of the JSON grammar. -/
def isNumberToken : JsString → Bool
  | [] => false
  | u :: rest => if u == 45 then isUnsignedNumber rest else isUnsignedNumber (u :: rest)

/-- `String(x)` of a finite number, and the number that a token is read as. -/
structure NumberFormat where
  toText : JsNumber → JsString
  ofText : JsString → JsNumber
  token : ∀ x, x.isFinite = true → isNumberToken (toText x) = true
  read : ∀ x, x.isFinite = true → x.isNegZero = false → ofText (toText x) = x

/-! ## Strings -/

def hexDigit (d : Nat) : UInt16 := UInt16.ofNat (if d < 10 then 48 + d else 87 + d)

def hexValue (u : UInt16) : Option Nat :=
  if isDigit u then some (u.toNat - 48)
  else if 97 ≤ u.toNat ∧ u.toNat ≤ 102 then some (u.toNat - 87)
  else if 65 ≤ u.toNat ∧ u.toNat ≤ 70 then some (u.toNat - 55)
  else none

def unicodeEscape (u : UInt16) : JsString :=
  [92, 117, hexDigit (u.toNat / 4096), hexDigit (u.toNat / 256 % 16), hexDigit (u.toNat / 16 % 16),
    hexDigit (u.toNat % 16)]

def escapeUnit (u : UInt16) : JsString :=
  if u = 8 then [92, 98]
  else if u = 9 then [92, 116]
  else if u = 10 then [92, 110]
  else if u = 12 then [92, 102]
  else if u = 13 then [92, 114]
  else if u = 34 then [92, 34]
  else if u = 92 then [92, 92]
  else if u.toNat < 0x20 || isHighSurrogate u || isLowSurrogate u then unicodeEscape u
  else [u]

def quoteUnits : JsString → JsString
  | [] => []
  | [u] => escapeUnit u
  | u :: v :: rest =>
    if isHighSurrogate u && isLowSurrogate v then u :: v :: quoteUnits rest else escapeUnit u ++ quoteUnits (v :: rest)

def quote (s : JsString) : JsString := 34 :: (quoteUnits s ++ [34])

/-- The unit that a letter after a backslash stands for. -/
def unescape (e : UInt16) : Option UInt16 :=
  if e = 34 then some 34
  else if e = 92 then some 92
  else if e = 47 then some 47
  else if e = 98 then some 8
  else if e = 102 then some 12
  else if e = 110 then some 10
  else if e = 114 then some 13
  else if e = 116 then some 9
  else none

def hexUnit (a b c d : UInt16) : Option UInt16 := do
  let a ← hexValue a
  let b ← hexValue b
  let c ← hexValue c
  let d ← hexValue d
  return UInt16.ofNat (4096 * a + 256 * b + 16 * c + d)

/-- The characters of a string up to its closing quote. -/
def parseChars : JsString → Option (JsString × JsString)
  | [] => none
  | u :: rest =>
    if u = 34 then some ([], rest)
    else if u = 92 then
      match rest with
      | [] => none
      | e :: rest =>
        if e = 117 then
          match rest with
          | a :: b :: c :: d :: rest => do
            let v ← hexUnit a b c d
            let (s, rest) ← parseChars rest
            return (v :: s, rest)
          | _ => none
        else do
          let v ← unescape e
          let (s, rest) ← parseChars rest
          return (v :: s, rest)
    else if u.toNat < 0x20 then none
    else do
      let (s, rest) ← parseChars rest
      return (u :: s, rest)

/-! ## Values -/

section Values

variable (numbers : NumberFormat)

mutual

/-- `JSON.stringify(value)` -/
def stringify : Json → JsString
  | .null => ofString "null"
  | .boolean true => ofString "true"
  | .boolean false => ofString "false"
  | .number x => if x.isFinite then numbers.toText x else ofString "null"
  | .string s => quote s
  | .array [] => [91, 93]
  | .array (item :: items) => 91 :: (stringify item ++ stringifyItems items)
  | .object [] => [123, 125]
  | .object ((key, value) :: props) => 123 :: (quote key ++ 58 :: (stringify value ++ stringifyProps props))

/-- The items after the first, and the end of the array. -/
def stringifyItems : List Json → JsString
  | [] => [93]
  | item :: items => 44 :: (stringify item ++ stringifyItems items)

def stringifyProps : List (JsString × Json) → JsString
  | [] => [125]
  | (key, value) :: props => 44 :: (quote key ++ 58 :: (stringify value ++ stringifyProps props))

end

def isSpace (u : UInt16) : Bool := u == 32 || u == 9 || u == 10 || u == 13

def skipSpace (text : JsString) : JsString := text.dropWhile isSpace

def parseNumber (text : JsString) : Option (Json × JsString) :=
  let token := text.takeWhile isNumberUnit
  if isNumberToken token then some (.number (numbers.ofText token), text.dropWhile isNumberUnit) else none

/-- The literals and the numbers. -/
def parseWord (text : JsString) : Option (Json × JsString) :=
  if text.take 4 = ofString "null" then some (.null, text.drop 4)
  else if text.take 4 = ofString "true" then some (.boolean true, text.drop 4)
  else if text.take 5 = ofString "false" then some (.boolean false, text.drop 5)
  else parseNumber numbers text

mutual

def parseValue : Nat → JsString → Option (Json × JsString)
  | 0, _ => none
  | _ + 1, [] => none
  | fuel + 1, u :: rest =>
    if u = 34 then do
      let (s, rest) ← parseChars rest
      return (.string s, rest)
    else if u = 91 then
      match skipSpace rest with
      | [] => none
      | v :: rest =>
        if v = 93 then some (.array [], rest)
        else do
          let (items, rest) ← parseItems fuel (v :: rest)
          return (.array items, rest)
    else if u = 123 then
      match skipSpace rest with
      | [] => none
      | v :: rest =>
        if v = 125 then some (.object [], rest)
        else do
          let (props, rest) ← parseProps fuel [] (v :: rest)
          return (.object props, rest)
    else parseWord numbers (u :: rest)

def parseItems : Nat → JsString → Option (List Json × JsString)
  | 0, _ => none
  | fuel + 1, text => do
    let (item, rest) ← parseValue fuel text
    match skipSpace rest with
    | [] => none
    | u :: rest =>
      if u = 93 then return ([item], rest)
      else if u = 44 then do
        let (items, rest) ← parseItems fuel (skipSpace rest)
        return (item :: items, rest)
      else none

/-- A later property of the same name replaces the earlier one. -/
def parseProps : Nat → JsProps Json → JsString → Option (JsProps Json × JsString)
  | 0, _, _ => none
  | _ + 1, _, [] => none
  | fuel + 1, props, u :: rest =>
    if u = 34 then do
      let (key, rest) ← parseChars rest
      match skipSpace rest with
      | [] => none
      | v :: rest =>
        if v = 58 then do
          let (value, rest) ← parseValue fuel (skipSpace rest)
          match skipSpace rest with
          | [] => none
          | v :: rest =>
            if v = 125 then return (JsProps.define props key value, rest)
            else if v = 44 then parseProps fuel (JsProps.define props key value) (skipSpace rest)
            else none
        else none
    else none

end

/-- `JSON.parse(text)`, or nothing where it throws. -/
def parse (text : JsString) : Option Json := do
  let (value, rest) ← parseValue numbers (text.length + 1) (skipSpace text)
  if skipSpace rest = [] then some value else none

end Values

/-! ## A string is read back -/

theorem hexValue_hexDigit : ∀ d < 16, hexValue (hexDigit d) = some d := by decide

variable (u : UInt16)

theorem hexUnit_unicodeEscape :
    hexUnit (hexDigit (u.toNat / 4096)) (hexDigit (u.toNat / 256 % 16)) (hexDigit (u.toNat / 16 % 16))
      (hexDigit (u.toNat % 16)) = some u := by
  have hu := u.toNat_lt
  rw [hexUnit, hexValue_hexDigit _ (by omega), hexValue_hexDigit _ (by omega), hexValue_hexDigit _ (by omega),
    hexValue_hexDigit _ (by omega)]
  have hsum : 4096 * (u.toNat / 4096) + 256 * (u.toNat / 256 % 16) + 16 * (u.toNat / 16 % 16) + u.toNat % 16 = u.toNat := by
    omega
  simp only [Option.bind_eq_bind, Option.bind_some, Option.pure_def, hsum, UInt16.ofNat_toNat]

/-- A unit that needs no escape. -/
theorem parseChars_plain {u : UInt16} (hquote : u ≠ 34) (hslash : u ≠ 92) (hlow : ¬ u.toNat < 0x20) (rest : JsString) :
    parseChars (u :: rest) = (parseChars rest).map fun p => (u :: p.1, p.2) := by
  rw [parseChars.eq_def]
  dsimp only
  rw [if_neg hquote, if_neg hslash, if_neg hlow]
  cases parseChars rest <;> rfl

theorem parseChars_escape {e v : UInt16} (he : e ≠ 117) (hv : unescape e = some v) (rest : JsString) :
    parseChars (92 :: e :: rest) = (parseChars rest).map fun p => (v :: p.1, p.2) := by
  rw [parseChars.eq_def]
  dsimp only
  rw [if_neg (by decide), if_pos rfl, if_neg he, hv]
  cases parseChars rest <;> rfl

variable (rest : JsString)

theorem parseChars_unicode :
    parseChars (unicodeEscape u ++ rest) = (parseChars rest).map fun p => (u :: p.1, p.2) := by
  simp only [unicodeEscape, cons_append, nil_append]
  rw [parseChars.eq_def]
  dsimp only
  rw [if_neg (by decide), if_pos rfl, if_pos rfl, hexUnit_unicodeEscape]
  cases parseChars rest <;> rfl

theorem parseChars_end : parseChars (34 :: rest) = some ([], rest) := by
  rw [parseChars.eq_def]
  rfl

theorem parseChars_escapeUnit :
    parseChars (escapeUnit u ++ rest) = (parseChars rest).map fun p => (u :: p.1, p.2) := by
  rw [escapeUnit]
  iterate 7
    split
    · rename_i h; subst h
      exact parseChars_escape (by decide) rfl rest
  split
  · exact parseChars_unicode u rest
  · rename_i hquote hslash hctrl
    simp only [Bool.or_eq_true, decide_eq_true_eq, not_or] at hctrl
    exact parseChars_plain hquote hslash hctrl.1.1 rest

theorem surrogate_plain {u : UInt16} (h : isHighSurrogate u = true ∨ isLowSurrogate u = true) :
    u ≠ 34 ∧ u ≠ 92 ∧ ¬ u.toNat < 0x20 := by
  have hge : 0xd800 ≤ u.toNat := by
    rcases h with h | h
    · simp only [isHighSurrogate, Bool.and_eq_true, decide_eq_true_eq] at h
      exact h.1
    · simp only [isLowSurrogate, Bool.and_eq_true, decide_eq_true_eq] at h
      omega
  refine ⟨?_, ?_, by omega⟩
  · rintro rfl
    exact absurd hge (by decide)
  · rintro rfl
    exact absurd hge (by decide)

theorem parseChars_quoteUnits (s rest : JsString) : parseChars (quoteUnits s ++ 34 :: rest) = some (s, rest) := by
  fun_induction quoteUnits s with
  | case1 => exact parseChars_end rest
  | case2 u =>
    rw [parseChars_escapeUnit, parseChars_end]
    rfl
  | case3 u v s h ih =>
    rw [Bool.and_eq_true] at h
    obtain ⟨h₁, h₂, h₃⟩ := surrogate_plain (.inl h.1)
    obtain ⟨h₁', h₂', h₃'⟩ := surrogate_plain (.inr h.2)
    rw [cons_append, cons_append, parseChars_plain h₁ h₂ h₃, parseChars_plain h₁' h₂' h₃', ih]
    rfl
  | case4 u v s h ih =>
    rw [append_assoc, parseChars_escapeUnit, ih]
    rfl

/-! ## A number is read back -/

theorem isNumberUnit_of_digit {u : UInt16} (h : isDigit u = true) : isNumberUnit u = true := by
  simp [isNumberUnit, h]

variable {text : JsString}

theorem exponent_units (h : isExponent text = true) : ∀ u ∈ text, isNumberUnit u = true := by
  cases text with
  | nil => simp
  | cons e rest =>
    rw [isExponent.eq_def] at h
    obtain ⟨he, hrest⟩ := Bool.and_eq_true_iff.mp h
    intro u hu
    rcases List.mem_cons.mp hu with rfl | hu
    · rcases Bool.or_eq_true_iff.mp he with h | h <;> simp [isNumberUnit, h]
    · cases rest with
      | nil => cases hu
      | cons sign digits =>
        dsimp only at hrest
        split at hrest
        · rename_i hsign
          rw [Bool.and_eq_true, List.all_eq_true] at hrest
          rcases List.mem_cons.mp hu with rfl | hu
          · rcases Bool.or_eq_true_iff.mp hsign with h | h <;> simp [isNumberUnit, h]
          · exact isNumberUnit_of_digit (hrest.2 u hu)
        · rw [List.all_eq_true] at hrest
          exact isNumberUnit_of_digit (hrest u hu)

/-- Digits, and then only units of a number. -/
theorem digits_units (h : ∀ u ∈ text.dropWhile isDigit, isNumberUnit u = true) :
    ∀ u ∈ text, isNumberUnit u = true := by
  intro u hu
  rw [← takeWhile_append_dropWhile (p := isDigit) (l := text)] at hu
  rcases mem_append.mp hu with hu | hu
  · exact isNumberUnit_of_digit (mem_takeWhile_imp hu)
  · exact h u hu

theorem fraction_units (h : isFraction text = true) : ∀ u ∈ text, isNumberUnit u = true := by
  cases text with
  | nil => simp
  | cons v rest =>
    rw [isFraction] at h
    split at h
    · rename_i hv
      rw [Bool.and_eq_true] at h
      intro u hu
      rcases mem_cons.mp hu with rfl | hu
      · simp [isNumberUnit, hv]
      · exact digits_units (exponent_units h.2) u hu
    · exact exponent_units h

theorem unsigned_units (h : isUnsignedNumber text = true) : ∀ u ∈ text, isNumberUnit u = true := by
  rw [isUnsignedNumber, Bool.and_eq_true] at h
  exact digits_units (fraction_units h.2)

variable {token : JsString}

theorem token_units (h : isNumberToken token = true) : ∀ u ∈ token, isNumberUnit u = true := by
  cases token with
  | nil => simp
  | cons v rest =>
    rw [isNumberToken] at h
    split at h
    · rename_i hv
      intro u hu
      rcases mem_cons.mp hu with rfl | hu
      · simp [isNumberUnit, hv]
      · exact unsigned_units h u hu
    · exact unsigned_units h

/-- What follows a value does not continue a number. -/
def Ends (rest : JsString) : Prop := ∀ u ∈ rest.head?, isNumberUnit u = false

theorem Ends.nil : Ends [] := by
  intro u hu
  cases hu

theorem Ends.cons {u : UInt16} (h : isNumberUnit u = false) (rest : JsString) : Ends (u :: rest) := by
  intro v hv
  cases hv
  exact h

theorem span_token {token rest : JsString} (h : ∀ u ∈ token, isNumberUnit u = true) (hrest : Ends rest) :
    (token ++ rest).takeWhile isNumberUnit = token ∧ (token ++ rest).dropWhile isNumberUnit = rest := by
  induction token with
  | nil =>
    cases rest with
    | nil => exact ⟨rfl, rfl⟩
    | cons u rest =>
      have hu := hrest u rfl
      simp [hu]
  | cons u token ih =>
    obtain ⟨ht, hd⟩ := ih fun v hv => h v (mem_cons_of_mem _ hv)
    have hu := h u mem_cons_self
    simp [hu, ht, hd]

theorem number_unit_plain {u : UInt16} (h : isNumberUnit u = true) :
    u ≠ 34 ∧ u ≠ 91 ∧ u ≠ 123 ∧ u ≠ 110 ∧ u ≠ 116 ∧ u ≠ 102 := by
  refine ⟨?_, ?_, ?_, ?_, ?_, ?_⟩ <;> rintro rfl <;> revert h <;> decide

theorem null_units : ofString "null" = [110, 117, 108, 108] := by rfl
theorem true_units : ofString "true" = [116, 114, 117, 101] := by rfl
theorem false_units : ofString "false" = [102, 97, 108, 115, 101] := by rfl

section Values

variable {numbers : NumberFormat}

theorem parseNumber_token {x : JsNumber} (hx : x.isFinite = true) (hz : x.isNegZero = false) {rest : JsString}
    (hrest : Ends rest) : parseNumber numbers (numbers.toText x ++ rest) = some (.number x, rest) := by
  obtain ⟨ht, hd⟩ := span_token (token_units (numbers.token x hx)) hrest
  simp only [parseNumber, ht, hd, numbers.token x hx, if_true, numbers.read x hx hz]

theorem parseValue_number {x : JsNumber} (hx : x.isFinite = true) (hz : x.isNegZero = false) {rest : JsString}
    (hrest : Ends rest) (fuel : Nat) :
    parseValue numbers (fuel + 1) (numbers.toText x ++ rest) = some (.number x, rest) := by
  have hparse := @parseNumber_token numbers _ hx hz _ hrest
  have htoken := numbers.token x hx
  cases ht : numbers.toText x with
  | nil =>
    rw [ht] at htoken
    cases htoken
  | cons u token =>
    rw [ht] at htoken hparse
    obtain ⟨h₁, h₂, h₃, h₄, h₅, h₆⟩ := number_unit_plain (token_units htoken u mem_cons_self)
    rw [cons_append] at hparse ⊢
    rw [parseValue, if_neg h₁, if_neg h₂, if_neg h₃, parseWord, null_units, true_units, false_units]
    have hword : ∀ (n : Nat) (w : UInt16) (ws : JsString), u ≠ w → ¬ (u :: (token ++ rest)).take (n + 1) = w :: ws := by
      intro n w ws hne he
      exact hne (cons_eq_cons.mp he).1
    rw [if_neg (hword 3 _ _ h₄), if_neg (hword 3 _ _ h₅), if_neg (hword 4 _ _ h₆), hparse]

end Values

/-! ## A value is read back -/

/-- The values that their text preserves. Every object of the program has its properties
in listing order. -/
inductive Preserved : Json → Prop
  | null : Preserved .null
  | boolean (b : Bool) : Preserved (.boolean b)
  | number {x : JsNumber} : x.isFinite = true → x.isNegZero = false → Preserved (.number x)
  | string (s : JsString) : Preserved (.string s)
  | array {items : List Json} : (∀ item ∈ items, Preserved item) → Preserved (.array items)
  | object {props : JsProps Json} : props.Wf → (∀ p ∈ props, Preserved p.2) → Preserved (.object props)

section Values

variable {numbers : NumberFormat}

/-- The text of a value begins with something that is neither blank nor a closing bracket. -/
theorem stringify_starts {value : Json} (h : Preserved value) :
    ∃ u text, stringify numbers value = u :: text ∧ isSpace u = false ∧ u ≠ 93 := by
  cases h with
  | null => exact ⟨110, [117, 108, 108], by rw [stringify, null_units], by decide, by decide⟩
  | boolean b =>
    cases b with
    | true => exact ⟨116, [114, 117, 101], by rw [stringify, true_units], by decide, by decide⟩
    | false => exact ⟨102, [97, 108, 115, 101], by rw [stringify, false_units], by decide, by decide⟩
  | number hx hz =>
    rename_i x
    rw [stringify, if_pos hx]
    have htoken := numbers.token x hx
    cases ht : numbers.toText x with
    | nil =>
      rw [ht] at htoken
      cases htoken
    | cons u token =>
      rw [ht] at htoken
      have hu := token_units htoken u mem_cons_self
      refine ⟨u, token, rfl, ?_, ?_⟩
      · cases hs : isSpace u with
        | false => rfl
        | true =>
          simp only [isSpace, Bool.or_eq_true, beq_iff_eq] at hs
          rcases hs with ((rfl | rfl) | rfl) | rfl <;> revert hu <;> decide
      · rintro rfl
        revert hu
        decide
  | string s => exact ⟨34, quoteUnits s ++ [34], by rw [stringify, quote], by decide, by decide⟩
  | array hitems =>
    rename_i items
    cases items with
    | nil => exact ⟨91, [93], by rw [stringify], by decide, by decide⟩
    | cons item items => exact ⟨91, _, by rw [stringify], by decide, by decide⟩
  | object hwf hprops =>
    rename_i props
    cases props with
    | nil => exact ⟨123, [125], by rw [stringify], by decide, by decide⟩
    | cons p props =>
      obtain ⟨key, value⟩ := p
      exact ⟨123, _, by rw [stringify], by decide, by decide⟩

theorem skipSpace_cons {u : UInt16} (h : isSpace u = false) (rest : JsString) : skipSpace (u :: rest) = u :: rest := by
  rw [skipSpace, dropWhile_cons, h]
  rfl

theorem skipSpace_stringify {value : Json} (h : Preserved value) (rest : JsString) :
    skipSpace (stringify numbers value ++ rest) = stringify numbers value ++ rest := by
  obtain ⟨u, text, hs, hspace, _⟩ := @stringify_starts numbers _ h
  rw [hs, cons_append, skipSpace_cons hspace]

/-- A value whose text is read back in front of anything that ends it. -/
def ReadsBack (numbers : NumberFormat) (value : Json) : Prop :=
  ∀ fuel rest, (stringify numbers value).length ≤ fuel → Ends rest →
    parseValue numbers fuel (stringify numbers value ++ rest) = some (value, rest)

theorem parseItems_stringify {item : Json} {items : List Json} (hp : ∀ v ∈ item :: items, Preserved v)
    (hread : ∀ v ∈ item :: items, ReadsBack numbers v) (fuel : Nat) (rest : JsString)
    (hfuel : (stringify numbers item ++ stringifyItems numbers items).length ≤ fuel) :
    parseItems numbers fuel (stringify numbers item ++ (stringifyItems numbers items ++ rest)) =
      some (item :: items, rest) := by
  induction items generalizing item fuel with
  | nil =>
    rw [stringifyItems, List.length_append] at hfuel
    obtain ⟨fuel, rfl⟩ : ∃ n, fuel = n + 1 := ⟨fuel - 1, by simp only [length_cons] at hfuel; omega⟩
    have hvalue := hread item mem_cons_self fuel (93 :: rest)
      (by simp only [length_cons, length_nil] at hfuel; omega) (.cons (by decide) rest)
    rw [parseItems, stringifyItems]
    simp only [List.cons_append, List.nil_append, hvalue, Option.bind_eq_bind, Option.bind_some,
      skipSpace_cons (u := 93) (by decide), if_true, Option.pure_def]
  | cons next items ih =>
    rw [stringifyItems, List.length_append, length_cons] at hfuel
    obtain ⟨fuel, rfl⟩ : ∃ n, fuel = n + 1 := ⟨fuel - 1, by omega⟩
    have hvalue := hread item mem_cons_self fuel
      (44 :: (stringify numbers next ++ (stringifyItems numbers items ++ rest))) (by omega) (.cons (by decide) _)
    have hrest := ih (fun v hv => hp v (mem_cons_of_mem _ hv)) (fun v hv => hread v (mem_cons_of_mem _ hv)) fuel
      (by omega)
    rw [parseItems, stringifyItems]
    simp only [List.cons_append, List.append_assoc, hvalue, Option.bind_eq_bind, Option.bind_some,
      skipSpace_cons (u := 44) (by decide), skipSpace_stringify (hp next (by simp)), hrest, Option.pure_def]
    rfl

theorem parseProps_stringify {done props : JsProps Json} {key : JsString} {value : Json}
    (hwf : JsProps.Wf (done ++ (key, value) :: props)) (hp : ∀ p ∈ (key, value) :: props, Preserved p.2)
    (hread : ∀ p ∈ (key, value) :: props, ReadsBack numbers p.2) (fuel : Nat) (rest : JsString)
    (hfuel : (quote key ++ 58 :: (stringify numbers value ++ stringifyProps numbers props)).length ≤ fuel) :
    parseProps numbers fuel done
        (quote key ++ 58 :: (stringify numbers value ++ (stringifyProps numbers props ++ rest))) =
      some (done ++ (key, value) :: props, rest) := by
  induction props generalizing done key value fuel with
  | nil =>
    simp only [stringifyProps, quote, List.length_append, List.length_cons, List.length_nil] at hfuel
    obtain ⟨fuel, rfl⟩ : ∃ n, fuel = n + 1 := ⟨fuel - 1, by omega⟩
    have hvalue := hread (key, value) List.mem_cons_self fuel (125 :: rest) (by dsimp only; omega) (.cons (by decide) rest)
    rw [quote, cons_append, append_assoc, parseProps, if_pos rfl, cons_append, nil_append,
      parseChars_quoteUnits, stringifyProps]
    simp only [cons_append, nil_append, bind_eq_bind, bind_some,
      skipSpace_cons (u := 58) (by decide), if_true, skipSpace_stringify (hp (key, value) List.mem_cons_self), hvalue,
      skipSpace_cons (u := 125) (by decide), Option.pure_def, JsProps.define_last hwf]
  | cons p props ih =>
    obtain ⟨key', value'⟩ := p
    rw [stringifyProps] at hfuel
    have hlen : (quote key ++ 58 :: (stringify numbers value ++
        44 :: (quote key' ++ 58 :: (stringify numbers value' ++ stringifyProps numbers props)))).length =
        (quote key).length + (stringify numbers value).length + 2 +
          (quote key' ++ 58 :: (stringify numbers value' ++ stringifyProps numbers props)).length := by
      simp only [List.length_append, List.length_cons]
      omega
    rw [hlen] at hfuel
    obtain ⟨fuel, rfl⟩ : ∃ n, fuel = n + 1 := ⟨fuel - 1, by omega⟩
    have hwf' : JsProps.Wf ((done ++ [(key, value)]) ++ (key', value') :: props) := by
      rw [append_assoc]
      exact hwf
    have hdefine : JsProps.define done key value = done ++ [(key, value)] := JsProps.define_last (JsProps.wf_append_left hwf')
    have hvalue := hread (key, value) List.mem_cons_self fuel
      (44 :: (quote key' ++ 58 :: (stringify numbers value' ++ (stringifyProps numbers props ++ rest))))
      (by dsimp only; omega) (.cons (by decide) _)
    have hrest := ih hwf' (fun p hp' => hp p (mem_cons_of_mem _ hp'))
      (fun p hp' => hread p (mem_cons_of_mem _ hp')) fuel (by omega)
    have hquote : ∀ text, skipSpace (quote key' ++ text) = quote key' ++ text := by
      intro text
      rw [quote, cons_append, skipSpace_cons (by decide)]
    rw [quote, cons_append, append_assoc, parseProps, if_pos rfl, cons_append, nil_append,
      parseChars_quoteUnits, stringifyProps]
    simp only [cons_append, append_assoc, bind_eq_bind, bind_some,
      skipSpace_cons (u := 58) (by decide), if_true, skipSpace_stringify (hp (key, value) List.mem_cons_self), hvalue,
      skipSpace_cons (u := 44) (by decide), hdefine, hquote, hrest, nil_append]
    rfl

/-- What `JSON.stringify` writes is read back. -/
theorem readsBack {value : Json} (h : Preserved value) : ReadsBack numbers value := by
  induction h with
  | null =>
    intro fuel rest hfuel _
    rw [stringify, null_units] at hfuel ⊢
    obtain ⟨fuel, rfl⟩ : ∃ n, fuel = n + 1 := ⟨fuel - 1, by simp only [List.length_cons] at hfuel; omega⟩
    simp [parseValue, parseWord, null_units]
  | boolean b =>
    intro fuel rest hfuel _
    cases b with
    | true =>
      rw [stringify, true_units] at hfuel ⊢
      obtain ⟨fuel, rfl⟩ : ∃ n, fuel = n + 1 := ⟨fuel - 1, by simp only [List.length_cons] at hfuel; omega⟩
      simp [parseValue, parseWord, null_units, true_units]
    | false =>
      rw [stringify, false_units] at hfuel ⊢
      obtain ⟨fuel, rfl⟩ : ∃ n, fuel = n + 1 := ⟨fuel - 1, by simp only [List.length_cons] at hfuel; omega⟩
      simp [parseValue, parseWord, null_units, true_units, false_units]
  | number hx hz =>
    rename_i x
    intro fuel rest hfuel hrest
    obtain ⟨u, text, hs, _, _⟩ := @stringify_starts numbers _ (.number hx hz)
    rw [hs, List.length_cons] at hfuel
    obtain ⟨fuel, rfl⟩ : ∃ n, fuel = n + 1 := ⟨fuel - 1, by omega⟩
    rw [stringify, if_pos hx]
    exact parseValue_number hx hz hrest fuel
  | string s =>
    intro fuel rest hfuel _
    rw [stringify, quote, List.length_cons] at hfuel
    obtain ⟨fuel, rfl⟩ : ∃ n, fuel = n + 1 := ⟨fuel - 1, by omega⟩
    rw [stringify, quote, List.cons_append, List.append_assoc, parseValue, if_pos rfl, List.cons_append, List.nil_append,
      parseChars_quoteUnits]
    rfl
  | array hitems ih =>
    rename_i items
    intro fuel rest hfuel _
    cases items with
    | nil =>
      rw [stringify] at hfuel ⊢
      obtain ⟨fuel, rfl⟩ : ∃ n, fuel = n + 1 := ⟨fuel - 1, by simp only [List.length_cons] at hfuel; omega⟩
      simp [parseValue, skipSpace, isSpace]
    | cons item items =>
      rw [stringify, List.length_cons] at hfuel
      obtain ⟨fuel, rfl⟩ : ∃ n, fuel = n + 1 := ⟨fuel - 1, by omega⟩
      have hbody := parseItems_stringify hitems ih fuel rest (by omega)
      obtain ⟨u, text, hs, hspace, hclose⟩ := @stringify_starts numbers _ (hitems item List.mem_cons_self)
      rw [stringify, List.cons_append, List.append_assoc, parseValue, if_neg (by decide), if_pos rfl]
      rw [hs, List.cons_append] at hbody ⊢
      rw [skipSpace_cons hspace]
      simp only [if_neg hclose, hbody, Option.bind_eq_bind, Option.bind_some, Option.pure_def]
  | object hwf hprops ih =>
    rename_i props
    intro fuel rest hfuel _
    cases props with
    | nil =>
      rw [stringify] at hfuel ⊢
      obtain ⟨fuel, rfl⟩ : ∃ n, fuel = n + 1 := ⟨fuel - 1, by simp only [List.length_cons] at hfuel; omega⟩
      simp [parseValue, skipSpace, isSpace]
    | cons p props =>
      obtain ⟨key, value⟩ := p
      rw [stringify, List.length_cons] at hfuel
      obtain ⟨fuel, rfl⟩ : ∃ n, fuel = n + 1 := ⟨fuel - 1, by omega⟩
      have hbody := @parseProps_stringify numbers [] _ _ _ hwf hprops ih fuel rest (by omega)
      rw [stringify, List.cons_append, List.append_assoc, List.cons_append, List.append_assoc, parseValue,
        if_neg (by decide), if_neg (by decide), if_pos rfl]
      rw [quote, List.cons_append] at hbody ⊢
      rw [skipSpace_cons (by decide)]
      simp only [if_neg (show (34 : UInt16) ≠ 125 by decide), hbody, Option.bind_eq_bind, Option.bind_some, Option.pure_def,
        List.nil_append]

/-- `JSON.parse(JSON.stringify(value))` -/
theorem parse_stringify {value : Json} (h : Preserved value) : parse numbers (stringify numbers value) = some value := by
  have hskip := @skipSpace_stringify numbers _ h []
  have hread := @readsBack numbers _ h ((stringify numbers value).length + 1) [] (by omega) .nil
  rw [append_nil] at hskip hread
  simp only [parse, hskip, hread, bind_eq_bind, bind_some]
  rfl

end Values

/-! ## A JSON text is one line -/

open TextFile (IsText)

structure IsLine (s : JsString) : Prop where
  text : IsText s
  single : (10 : UInt16) ∉ s

theorem IsLine.nil : IsLine [] := ⟨.nil, not_mem_nil⟩

theorem IsLine.append {s t : JsString} (hs : IsLine s) (ht : IsLine t) : IsLine (s ++ t) := by
  refine ⟨hs.text.append ht.text, ?_⟩
  rw [mem_append]
  rintro (h | h)
  · exact hs.single h
  · exact ht.single h

theorem IsLine.units {s : JsString} (h : ∀ u ∈ s, u.toNat < 0xd800 ∧ u ≠ 10) : IsLine s :=
  ⟨.units fun u hu => (h u hu).1, fun hmem => (h 10 hmem).2 rfl⟩

theorem IsLine.cons {u : UInt16} {s : JsString} (hu : u.toNat < 0xd800 ∧ u ≠ 10) (hs : IsLine s) : IsLine (u :: s) := by
  have hunit : IsLine [u] := .units (by simpa using hu)
  exact hunit.append hs

theorem hexDigit_plain : ∀ d < 16, (hexDigit d).toNat < 0xd800 ∧ hexDigit d ≠ 10 := by decide

theorem unicodeEscape_line : IsLine (unicodeEscape u) := by
  have hu := u.toNat_lt
  apply IsLine.units
  simp only [unicodeEscape, mem_cons, not_mem_nil, or_false]
  rintro v (rfl | rfl | rfl | rfl | rfl | rfl)
  · decide
  · decide
  all_goals exact hexDigit_plain _ (by omega)

theorem escapeUnit_line : IsLine (escapeUnit u) := by
  rw [escapeUnit]
  iterate 7
    split
    · exact .units (by decide)
  split
  · exact unicodeEscape_line u
  · rename_i hten _ _ _ _ hctrl
    simp only [Bool.or_eq_true, isHighSurrogate, isLowSurrogate, Bool.and_eq_true, decide_eq_true_eq] at hctrl
    refine ⟨.unit (by omega), ?_⟩
    intro hmem
    exact hten (mem_singleton.mp hmem).symm

theorem quoteUnits_line (s : JsString) : IsLine (quoteUnits s) := by
  fun_induction quoteUnits s with
  | case1 => exact .nil
  | case2 u => exact escapeUnit_line u
  | case3 u v s h ih =>
    rw [Bool.and_eq_true] at h
    have hpair : IsLine [u, v] := by
      refine ⟨.pair h.1 h.2, ?_⟩
      have hu := h.1
      have hv := h.2
      intro hmem
      rcases mem_pair.mp hmem with rfl | rfl
      · revert hu
        decide
      · revert hv
        decide
    exact hpair.append ih
  | case4 u v s h ih => exact (escapeUnit_line u).append ih

theorem quote_line (s : JsString) : IsLine (quote s) :=
  .cons (by decide) ((quoteUnits_line s).append (.units (by decide)))

theorem token_line (h : isNumberToken token = true) : IsLine token := by
  apply IsLine.units
  intro u hu
  have hunit := token_units h u hu
  constructor
  · simp only [isNumberUnit, isDigit, Bool.or_eq_true, Bool.and_eq_true, decide_eq_true_eq, beq_iff_eq] at hunit
    rcases hunit with ((((h | rfl) | rfl) | rfl) | rfl) | rfl
    · omega
    all_goals decide
  · rintro rfl
    revert hunit
    decide

section Values

variable {numbers : NumberFormat}

theorem stringify_line {value : Json} (h : Preserved value) : IsLine (stringify numbers value) := by
  induction h with
  | null =>
    rw [stringify, null_units]
    exact .units (by decide)
  | boolean b =>
    cases b with
    | true =>
      rw [stringify, true_units]
      exact .units (by decide)
    | false =>
      rw [stringify, false_units]
      exact .units (by decide)
  | number hx hz =>
    rw [stringify, if_pos hx]
    exact token_line (numbers.token _ hx)
  | string s =>
    rw [stringify]
    exact quote_line s
  | array hitems ih =>
    rename_i items
    have hmore : ∀ rest : List Json, (∀ v ∈ rest, IsLine (stringify numbers v)) → IsLine (stringifyItems numbers rest) := by
      intro rest hrest
      induction rest with
      | nil =>
        rw [stringifyItems]
        exact .units (by decide)
      | cons v rest ihrest =>
        rw [stringifyItems]
        exact .cons (by decide) ((hrest v mem_cons_self).append
          (ihrest fun w hw => hrest w (mem_cons_of_mem _ hw)))
    cases items with
    | nil =>
      rw [stringify]
      exact .units (by decide)
    | cons item items =>
      rw [stringify]
      exact .cons (by decide) ((ih item mem_cons_self).append
        (hmore items fun v hv => ih v (mem_cons_of_mem _ hv)))
  | object hwf hprops ih =>
    rename_i props
    have hmore : ∀ rest : JsProps Json, (∀ p ∈ rest, IsLine (stringify numbers p.2)) →
        IsLine (stringifyProps numbers rest) := by
      intro rest hrest
      induction rest with
      | nil =>
        rw [stringifyProps]
        exact .units (by decide)
      | cons p rest ihrest =>
        obtain ⟨key, value⟩ := p
        rw [stringifyProps]
        exact .cons (by decide) ((quote_line key).append (.cons (by decide) ((hrest _ mem_cons_self).append
          (ihrest fun w hw => hrest w (mem_cons_of_mem _ hw)))))
    cases props with
    | nil =>
      rw [stringify]
      exact .units (by decide)
    | cons p props =>
      obtain ⟨key, value⟩ := p
      rw [stringify]
      exact .cons (by decide) ((quote_line key).append (.cons (by decide) ((ih _ mem_cons_self).append
        (hmore props fun v hv => ih v (mem_cons_of_mem _ hv)))))


end Values

end Shuvpi.JsonText
