import Shuvpi.DeltaOps

/-!
# Path keys

The codec identifies a path by `JSON.stringify(path)`. Strings are quoted with the
escapes of the JSON grammar: the short escapes, `\u` forms for the other control
characters, and `\u` forms for surrogates that are not part of a pair. Two paths
have the same key only when they are the same path, which is what makes a key a
sound index into a dictionary of paths.
-/
namespace Shuvpi.Delta

open JsText (isHighSurrogate isLowSurrogate)
open List

def hexDigit (n : Nat) : UInt16 := UInt16.ofNat (if n < 10 then 48 + n else 87 + n)

def unicodeEscape (u : UInt16) : JsString :=
  [92, 117, hexDigit (u.toNat / 4096), hexDigit (u.toNat / 256 % 16), hexDigit (u.toNat / 16 % 16),
    hexDigit (u.toNat % 16)]

/-- The letter of a two-character escape and the unit it stands for. -/
def shortEscapes : List (UInt16 × UInt16) := [(98, 8), (116, 9), (110, 10), (102, 12), (114, 13), (34, 34), (92, 92)]

/-- A unit that is no lone surrogate. -/
def quoteUnit (u : UInt16) : JsString :=
  match shortEscapes.find? fun e => e.2 = u with
  | some e => [92, e.1]
  | none => if u.toNat < 32 then unicodeEscape u else [u]

def quoteUnits : JsString → JsString
  | [] => []
  | [u] => if isHighSurrogate u || isLowSurrogate u then unicodeEscape u else quoteUnit u
  | u :: v :: rest =>
    if isHighSurrogate u && isLowSurrogate v then u :: v :: quoteUnits rest
    else if isHighSurrogate u || isLowSurrogate u then unicodeEscape u ++ quoteUnits (v :: rest)
    else quoteUnit u ++ quoteUnits (v :: rest)

def segText : Seg → JsString
  | .key name => 34 :: quoteUnits name ++ [34]
  | .index n => decimal n

def joinSegs : Path → JsString
  | [] => []
  | [seg] => segText seg
  | seg :: rest => segText seg ++ 44 :: joinSegs rest

/-- `JSON.stringify(path)`. -/
def pathKey (path : Path) : JsString := 91 :: (joinSegs path ++ [93])

/-! ## Quoted strings -/

/-- The ways in which a quoted string can hold a unit. -/
inductive Spells (u : UInt16) : JsString → Prop where
  | raw (hq : u ≠ 34) (hb : u ≠ 92) : Spells u [u]
  | short (letter : UInt16) (h : (letter, u) ∈ shortEscapes) : Spells u [92, letter]
  | unicode : Spells u (unicodeEscape u)

inductive SpellsAll : JsString → JsString → Prop where
  | nil : SpellsAll [] []
  | cons {u : UInt16} {text : JsString} {s out : JsString} (hu : Spells u text) (hs : SpellsAll s out) :
    SpellsAll (u :: s) (text ++ out)

theorem quoteUnit_spells (u : UInt16) : Spells u (quoteUnit u) := by
  rw [quoteUnit]
  cases hf : shortEscapes.find? fun e => e.2 = u with
  | some e =>
    obtain ⟨letter, v⟩ := e
    have hv : v = u := by simpa using find?_some hf
    subst hv
    exact .short letter (mem_of_find?_eq_some hf)
  | none =>
    have hnone := find?_eq_none.mp hf
    dsimp only
    split
    · exact .unicode
    · apply Spells.raw
      · intro h
        exact hnone (34, 34) (by decide) (by simp [h])
      · intro h
        exact hnone (92, 92) (by decide) (by simp [h])

variable {u : UInt16}

theorem surrogate_ne (h : isHighSurrogate u = true ∨ isLowSurrogate u = true) : u ≠ 34 ∧ u ≠ 92 := by
  constructor <;> intro hu <;> subst hu <;> exact absurd h (by decide)

theorem quoteUnits_spells (s : JsString) : SpellsAll s (quoteUnits s) := by
  induction s using quoteUnits.induct with
  | case1 => exact .nil
  | case2 u h =>
    rw [quoteUnits, if_pos h, ← append_nil (unicodeEscape u)]
    exact .cons .unicode .nil
  | case3 u h =>
    rw [quoteUnits, if_neg h, ← append_nil (quoteUnit u)]
    exact .cons (quoteUnit_spells u) .nil
  | case4 u v rest h ih =>
    rw [quoteUnits, if_pos h]
    rw [Bool.and_eq_true] at h
    have hu := surrogate_ne (.inl h.1)
    have hv := surrogate_ne (.inr h.2)
    exact .cons (.raw hu.1 hu.2) (.cons (.raw hv.1 hv.2) ih)
  | case5 u v rest h h' ih =>
    rw [quoteUnits, if_neg h, if_pos h']
    exact .cons .unicode ih
  | case6 u v rest h h' ih =>
    rw [quoteUnits, if_neg h, if_neg h']
    exact .cons (quoteUnit_spells u) ih

theorem hexDigit_inj {a b : Nat} (ha : a < 16) (hb : b < 16) (h : hexDigit a = hexDigit b) : a = b := by
  have h' := congrArg UInt16.toNat h
  simp only [hexDigit, UInt16.toNat_ofNat'] at h'
  split at h' <;> split at h' <;> omega

variable {r' r : JsString} {v : UInt16}

theorem unicodeEscape_inj (h : unicodeEscape u ++ r = unicodeEscape v ++ r') : u = v ∧ r = r' := by
  have hu := u.toNat_lt
  have hv := v.toNat_lt
  simp only [unicodeEscape, cons_append, nil_append, cons.injEq, true_and] at h
  obtain ⟨h3, h2, h1, h0, hr⟩ := h
  have h3 := hexDigit_inj (by omega) (by omega) h3
  have h2 := hexDigit_inj (by omega) (by omega) h2
  have h1 := hexDigit_inj (by omega) (by omega) h1
  have h0 := hexDigit_inj (by omega) (by omega) h0
  exact ⟨UInt16.toNat_inj.mp (by omega), hr⟩

theorem shortEscapes_letter {letter : UInt16} (hu : (letter, u) ∈ shortEscapes) (hv : (letter, v) ∈ shortEscapes) :
    u = v := by
  simp only [shortEscapes, mem_cons, Prod.mk.injEq, not_mem_nil, or_false] at hu hv
  rcases hu with ⟨rfl, rfl⟩ | ⟨rfl, rfl⟩ | ⟨rfl, rfl⟩ | ⟨rfl, rfl⟩ | ⟨rfl, rfl⟩ | ⟨rfl, rfl⟩ | ⟨rfl, rfl⟩ <;>
    exact (by simpa using hv : v = _).symm

theorem shortEscapes_not_u : (117, u) ∉ shortEscapes := by
  simp [shortEscapes]

variable {x : JsString}

theorem Spells.unique {y : JsString} (hx : Spells u x) (hy : Spells v y) (h : x ++ r = y ++ r') : u = v ∧ r = r' := by
  cases hx with
  | raw hq hb =>
    cases hy with
    | raw => simpa using h
    | short => simp at h; exact absurd h.1 hb
    | unicode => simp [unicodeEscape] at h; exact absurd h.1 hb
  | short letter hl =>
    cases hy with
    | raw hq hb => simp at h; exact absurd h.1.symm hb
    | short letter' hl' =>
      simp only [cons_append, nil_append, cons.injEq, true_and] at h
      obtain ⟨rfl, hr⟩ := h
      exact ⟨shortEscapes_letter hl hl', hr⟩
    | unicode =>
      simp only [unicodeEscape, cons_append, nil_append, cons.injEq, true_and] at h
      rw [h.1] at hl
      exact absurd hl shortEscapes_not_u
  | unicode =>
    cases hy with
    | raw hq hb => simp [unicodeEscape] at h; exact absurd h.1.symm hb
    | short letter hl =>
      simp only [unicodeEscape, cons_append, nil_append, cons.injEq, true_and] at h
      rw [← h.1] at hl
      exact absurd hl shortEscapes_not_u
    | unicode => exact unicodeEscape_inj h

theorem Spells.head_ne_quote (hx : Spells u x) : x ++ r ≠ 34 :: r' := by
  intro h
  cases hx with
  | raw hq hb => simp at h; exact hq h.1
  | short => simp at h
  | unicode => simp [unicodeEscape] at h

/-- A closing quote ends the string that an opening quote began. -/
theorem SpellsAll.unique {s s' x' : JsString} (hs : SpellsAll s x) (hs' : SpellsAll s' x')
    (h : x ++ 34 :: r = x' ++ 34 :: r') : s = s' ∧ r = r' := by
  induction hs generalizing s' x' with
  | nil =>
    cases hs' with
    | nil => simpa using h
    | cons hu hs' => rw [append_assoc] at h; exact absurd h.symm hu.head_ne_quote
  | cons hu hs ih =>
    cases hs' with
    | nil => rw [append_assoc] at h; exact absurd h hu.head_ne_quote
    | cons hv hs' =>
      rw [append_assoc, append_assoc] at h
      obtain ⟨rfl, htail⟩ := hu.unique hv h
      obtain ⟨rfl, hr⟩ := ih hs' htail
      exact ⟨rfl, hr⟩

/-! ## Indices -/

def isDigitUnit (u : UInt16) : Bool := 48 ≤ u.toNat && u.toNat ≤ 57

theorem digit_toNat {c : Char} (h : c.isDigit = true) :
    (UInt16.ofNat c.toNat).toNat = c.toNat ∧ 48 ≤ c.toNat ∧ c.toNat ≤ 57 := by
  have h' : 48 ≤ c.toNat ∧ c.toNat ≤ 57 := Char.isDigit_iff_toNat.mp h
  refine ⟨?_, h'⟩
  simp only [UInt16.toNat_ofNat']
  omega

theorem decimal_digits (n : Nat) : ∀ u ∈ decimal n, isDigitUnit u = true := by
  intro u hu
  obtain ⟨c, hc, rfl⟩ := mem_map.mp hu
  obtain ⟨he, h1, h2⟩ := digit_toNat (Nat.isDigit_of_mem_toDigits (by decide) (by decide) hc)
  simp [isDigitUnit, he, h1, h2]

theorem map_digits_inj {l l' : List Char} (hl : ∀ c ∈ l, c.isDigit = true) (hl' : ∀ c ∈ l', c.isDigit = true)
    (h : (l.map fun c => UInt16.ofNat c.toNat) = l'.map fun c => UInt16.ofNat c.toNat) : l = l' := by
  induction l generalizing l' with
  | nil => simpa using h.symm
  | cons c l ih =>
    cases l' with
    | nil => simp at h
    | cons c' l' =>
      simp only [map_cons, cons.injEq] at h
      have hc := digit_toNat (hl c mem_cons_self)
      have hc' := digit_toNat (hl' c' mem_cons_self)
      have he : c.toNat = c'.toNat := by rw [← hc.1, ← hc'.1, h.1]
      rw [Char.toNat_inj.mp he, ih (fun d hd => hl d (mem_cons_of_mem _ hd))
        (fun d hd => hl' d (mem_cons_of_mem _ hd)) h.2]

theorem decimal_inj {n n' : Nat} (h : decimal n = decimal n') : n = n' := by
  have hd : ∀ k c, c ∈ Nat.toDigits 10 k → c.isDigit = true := by
    intro k c hc
    exact Nat.isDigit_of_mem_toDigits (by decide) (by decide) hc
  have hl := map_digits_inj (hd n) (hd n') h
  have hn := Nat.ofDigitChars_ten_toDigits (n := n)
  rwa [hl, Nat.ofDigitChars_ten_toDigits, eq_comm] at hn

theorem decimal_ne_nil (n : Nat) : decimal n ≠ [] := by
  simp [decimal, Nat.toDigits_ne_nil]

/-- What may follow a segment in the text of a path. -/
def EndsSegment (r : JsString) : Prop := ∃ u rest, r = u :: rest ∧ isDigitUnit u = false

theorem digits_unique {l l' : JsString} (hl : ∀ u ∈ l, isDigitUnit u = true) (hl' : ∀ u ∈ l', isDigitUnit u = true)
    (hr : EndsSegment r) (hr' : EndsSegment r') (h : l ++ r = l' ++ r') : l = l' ∧ r = r' := by
  obtain ⟨v, rest, rfl, hv⟩ := hr
  obtain ⟨v', rest', rfl, hv'⟩ := hr'
  induction l generalizing l' with
  | nil =>
    cases l' with
    | nil => exact ⟨rfl, h⟩
    | cons u' l' =>
      have hd := hl' u' mem_cons_self
      simp only [nil_append, cons_append, cons.injEq] at h
      rw [← h.1, hv] at hd
      cases hd
  | cons u l ih =>
    have hd := hl u mem_cons_self
    cases l' with
    | nil =>
      simp only [nil_append, cons_append, cons.injEq] at h
      rw [h.1, hv'] at hd
      cases hd
    | cons u' l' =>
      simp only [cons_append, cons.injEq] at h
      obtain ⟨rfl, htail⟩ := h
      obtain ⟨rfl, hr⟩ := ih (fun w hw => hl w (mem_cons_of_mem _ hw))
        (fun w hw => hl' w (mem_cons_of_mem _ hw)) htail
      exact ⟨rfl, hr⟩

/-! ## Paths -/

theorem segText_unique {seg seg' : Seg} (hr : EndsSegment r) (hr' : EndsSegment r')
    (h : segText seg ++ r = segText seg' ++ r') : seg = seg' ∧ r = r' := by
  have hquote : ∀ (n : Nat) (x y : JsString), decimal n ++ x ≠ 34 :: y := by
    intro n x y he
    cases hd : decimal n with
    | nil => exact decimal_ne_nil n hd
    | cons u l =>
      have hu := decimal_digits n u (by rw [hd]; exact mem_cons_self)
      rw [hd, cons_append, cons.injEq] at he
      rw [he.1] at hu
      exact absurd hu (by decide)
  cases seg with
  | key name =>
    cases seg' with
    | key name' =>
      simp only [segText, cons_append, append_assoc, nil_append, cons.injEq, true_and] at h
      obtain ⟨rfl, hr⟩ := (quoteUnits_spells name).unique (quoteUnits_spells name') h
      exact ⟨rfl, hr⟩
    | index n => exact absurd h.symm (hquote n _ _)
  | index n =>
    cases seg' with
    | key name => exact absurd h (hquote n _ _)
    | index n' =>
      obtain ⟨hd, htail⟩ := digits_unique (decimal_digits n) (decimal_digits n') hr hr' h
      rw [decimal_inj hd]
      exact ⟨rfl, htail⟩

variable (seg : Seg)

theorem segText_ne_nil : segText seg ≠ [] := by
  cases seg with
  | key name => simp [segText]
  | index n => exact decimal_ne_nil n

theorem segText_head_ne (r r' : JsString) : segText seg ++ r ≠ 93 :: r' := by
  intro h
  cases hseg : segText seg with
  | nil => exact segText_ne_nil seg hseg
  | cons u l =>
    rw [hseg, cons_append, cons.injEq] at h
    cases seg with
    | key name =>
      rw [segText, cons_append, cons.injEq] at hseg
      rw [← hseg.1] at h
      exact absurd h.1 (by decide)
    | index n =>
      have hu := decimal_digits n u (by rw [← segText, hseg]; exact mem_cons_self)
      rw [h.1] at hu
      exact absurd hu (by decide)

theorem joinSegs_cons (rest : Path) : joinSegs (seg :: rest) ++ [93] =
      segText seg ++ if rest = [] then [93] else 44 :: (joinSegs rest ++ [93]) := by
  cases rest with
  | nil | cons => simp [joinSegs]

theorem endsSegment_tail (rest : Path) :
    EndsSegment (if rest = [] then [93] else 44 :: (joinSegs rest ++ [93])) := by
  split
  · exact ⟨93, [], rfl, by decide⟩
  · exact ⟨44, _, rfl, by decide⟩

theorem joinSegs_inj {path path' : Path} (h : joinSegs path ++ [93] = joinSegs path' ++ [93]) : path = path' := by
  induction path generalizing path' with
  | nil =>
    cases path' with
    | nil => rfl
    | cons seg rest => rw [joinSegs_cons] at h; exact absurd h.symm (segText_head_ne seg _ _)
  | cons seg rest ih =>
    cases path' with
    | nil => rw [joinSegs_cons] at h; exact absurd h (segText_head_ne seg _ _)
    | cons seg' rest' =>
      rw [joinSegs_cons, joinSegs_cons] at h
      obtain ⟨rfl, htail⟩ := segText_unique (endsSegment_tail rest) (endsSegment_tail rest') h
      by_cases hrest : rest = []
      · by_cases hrest' : rest' = []
        · rw [hrest, hrest']
        · rw [if_pos hrest, if_neg hrest'] at htail
          simp at htail
      · by_cases hrest' : rest' = []
        · rw [if_neg hrest, if_pos hrest'] at htail
          simp at htail
        · rw [if_neg hrest, if_neg hrest', cons.injEq] at htail
          rw [ih htail.2]

/-- The key of a path determines the path. -/
theorem pathKey_injective : Function.Injective pathKey := by
  intro path path' h
  rw [pathKey, pathKey, cons.injEq] at h
  exact joinSegs_inj h.2

end Shuvpi.Delta
