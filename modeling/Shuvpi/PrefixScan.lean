import Mathlib.Data.Char
import Mathlib.Data.List.Lex
import Mathlib.Data.List.Sort
import Shuvpi.TextFile

/-!
# Scans of values by a prefix of their keys

`scanScalarValueRows` of the SQLite storage, which asks for an interval of keys, and `scanValues`
of the storage in memory, which asks `startsWith`. Keys are well-formed strings, given by their
code points; SQLite compares their UTF-8 bytes, and `startsWith` their code units.
-/
namespace Shuvpi.PrefixScan

open List JsText

abbrev Text := List Char

def utf8 (text : Text) : Bytes := textEncode (ofScalars text)

def startsWith (text keyPrefix : Text) : Bool := (ofScalars keyPrefix).isPrefixOf (ofScalars text)

structure StoredValue (V : Type) where
  namespace_ : Text
  key : Text
  seq : Nat
  value : V

def nextCodePoint (c : Char) : Char :=
  Char.ofNat (if 0xd7ff ≤ c.toNat ∧ c.toNat < 0xe000 then 0xe000 else c.toNat + 1)

/-- The loop from the last code point backwards. -/
def boundaryFrom : List Char → Option Text
  | [] => none
  | c :: before => if c.toNat < 0x10ffff then some (before.reverse ++ [nextCodePoint c]) else boundaryFrom before

def nextPrefixBoundary (keyPrefix : Text) : Option Text := boundaryFrom keyPrefix.reverse

/-- `key >= keyPrefix AND key < upperBound`, the second part where there is an upper bound. -/
def inInterval (keyPrefix key : Text) : Bool :=
  utf8 keyPrefix ≤ utf8 key && match nextPrefixBoundary keyPrefix with
    | none => true
    | some upperBound => utf8 key < utf8 upperBound

def scanScalarValueRows {V : Type} (rows : List (StoredValue V)) (namespace_ keyPrefix : Text) : List (StoredValue V) :=
  (rows.filter fun row => utf8 row.namespace_ = utf8 namespace_ && inInterval keyPrefix row.key).mergeSort
    fun left right => utf8 left.key ≤ utf8 right.key

def compareKeys : Text → Text → Int
  | c :: left, d :: right =>
    let difference := (c.toNat : Int) - d.toNat
    if difference ≠ 0 then difference else compareKeys left right
  | left, right => left.length - right.length

def scanValues {V : Type} (scalarValues : List (StoredValue V)) (namespace_ keyPrefix : Text) : List (StoredValue V) :=
  (scalarValues.filter fun stored => stored.namespace_ = namespace_ && startsWith stored.key keyPrefix).mergeSort
    fun left right => compareKeys left.key right.key ≤ 0

/-! ## Code units, bytes and code points -/

theorem toScalars_append (text : Text) (rest : JsString) : toScalars (ofScalars text ++ rest) = text ++ toScalars rest := by
  induction text with
  | nil => rfl
  | cons c text ih =>
    rw [ofScalars, flatMap_cons, codeUnits, cons_append, ← ih]
    split
    · exact toScalars_unit c ‹_› _
    · exact toScalars_pair c ‹_› _

theorem startsWith_iff (text keyPrefix : Text) : startsWith text keyPrefix = true ↔ keyPrefix <+: text := by
  rw [startsWith, isPrefixOf_iff_prefix]
  constructor
  · rintro ⟨rest, h⟩
    refine ⟨toScalars rest, ?_⟩
    rw [← toScalars_append, h, toScalars_ofScalars]
  · rintro ⟨rest, rfl⟩
    exact ⟨ofScalars rest, flatMap_append.symm⟩

theorem encode_lt {c d : Char} (h : c < d) (x y : Bytes) :
    String.utf8EncodeChar c ++ x < String.utf8EncodeChar d ++ y := by
  have hcd : c.toNat < d.toNat := h
  have hd := char_range d
  have hc : c.val.toNat = c.toNat := rfl
  have hd' : d.val.toNat = d.toNat := rfl
  simp only [String.utf8EncodeChar, hc, hd']
  split_ifs <;> simp only [cons_append, nil_append, cons_lt_cons_iff, UInt8.lt_iff_toNat_lt, ← UInt8.toNat_inj,
    UInt8.toNat_ofNat'] <;> simp (disch := omega) only [Nat.mod_eq_of_lt, Nat.reducePow] <;> omega

theorem utf8_eq (text : Text) : utf8 text = text.flatMap String.utf8EncodeChar := by
  rw [utf8, textEncode, toScalars_ofScalars]

variable {left right : Text}

theorem utf8_mono (h : left < right) : utf8 left < utf8 right := by
  rw [utf8_eq, utf8_eq]
  induction h with
  | @nil d right =>
    obtain ⟨b, tail, hb⟩ := exists_cons_of_ne_nil (String.utf8EncodeChar_ne_nil (c := d))
    rw [flatMap_cons, hb]
    exact .nil
  | rel hcd =>
    rw [flatMap_cons, flatMap_cons]
    exact encode_lt hcd _ _
  | cons _ ih =>
    rw [flatMap_cons, flatMap_cons]
    exact append_left_lt ih

/-- The order of the bytes is the order of the code points. -/
theorem utf8_lt (left right : Text) : utf8 left < utf8 right ↔ left < right := by
  refine ⟨fun h => ?_, utf8_mono⟩
  rcases lt_trichotomy left right with hlt | rfl | hgt
  · exact hlt
  · exact absurd h (List.lt_irrefl _)
  · exact absurd h (List.lt_asymm (utf8_mono hgt))

theorem utf8_le (left right : Text) : utf8 left ≤ utf8 right ↔ left ≤ right := by
  rw [← List.not_lt, utf8_lt]
  exact ⟨le_of_not_gt, not_lt_of_ge⟩

theorem utf8_inj : utf8 left = utf8 right ↔ left = right := by
  refine ⟨fun h => le_antisymm ?_ ?_, congrArg utf8⟩
  · exact (utf8_le _ _).mp (h ▸ List.le_refl _)
  · exact (utf8_le _ _).mp (h ▸ List.le_refl _)

theorem compareKeys_le (left right : Text) : compareKeys left right ≤ 0 ↔ left ≤ right := by
  rw [show left ≤ right ↔ ¬ right < left from ⟨not_lt_of_ge, le_of_not_gt⟩]
  fun_induction compareKeys left right with
  | case1 c left d right difference h =>
    have hne : d ≠ c := fun heq => h (by subst heq; exact Int.sub_self _)
    have hlt : d < c ↔ d.toNat < c.toNat := Iff.rfl
    rw [cons_lt_cons_iff, hlt, or_iff_left (fun hc => hne hc.1)]
    omega
  | case2 c left d right difference h ih =>
    obtain rfl : c = d := Char.toNat_inj.mp (by omega)
    rw [ih, cons_lt_cons_self]
  | case3 left right h =>
    cases left with
    | nil => simp
    | cons c left =>
      cases right with
      | nil => simp
      | cons d right => exact absurd rfl (h c left d right rfl)

/-! ## The boundary of a prefix -/

variable {key before : Text} {c : Char}

theorem lt_append (x : Text) : key < before ++ x ↔ key < before ∨ ∃ t, key = before ++ t ∧ t < x := by
  induction before generalizing key with
  | nil => simp
  | cons b before ih =>
    cases key with
    | nil => simp
    | cons k key =>
      simp only [cons_append, cons_lt_cons_iff, ih, cons.injEq]
      grind

theorem append_prefix (x : Text) : before ++ x <+: key ↔ ∃ t, key = before ++ t ∧ x <+: t := by
  constructor
  · rintro ⟨t, rfl⟩
    exact ⟨x ++ t, append_assoc _ _ _, prefix_append _ _⟩
  · rintro ⟨t, rfl, h⟩
    exact (prefix_append_right_inj _).mpr h

/-- No code point is between one and the next, and none is above the last. -/
theorem below_or_begins (t : Text) : t < [c] ∨ [c] <+: t ↔ (c.toNat < 0x10ffff → t < [nextCodePoint c]) := by
  have hc := char_range c
  cases t with
  | nil => simp
  | cons d t =>
    have hd := char_range d
    have hlt : ∀ e : Char, d < e ↔ d.toNat < e.toNat := fun _ => Iff.rfl
    have heq : c = d ↔ c.toNat = d.toNat := Char.toNat_inj.symm
    have hnext : c.toNat < 0x10ffff → (nextCodePoint c).toNat =
        if 0xd7ff ≤ c.toNat ∧ c.toNat < 0xe000 then 0xe000 else c.toNat + 1 := by
      intro h
      refine TextFile.toNat_ofNat ?_
      unfold Nat.isValidChar
      split_ifs <;> omega
    simp only [cons_lt_cons_iff, not_lt_nil, and_false, or_false, cons_prefix_cons, nil_prefix, and_true, hlt, heq]
    split_ifs at hnext <;> omega

theorem boundaryFrom_spec (reversed : List Char) (key : Text) :
    (∀ upperBound, boundaryFrom reversed = some upperBound → key < upperBound) ↔
      key < reversed.reverse ∨ reversed.reverse <+: key := by
  induction reversed with
  | nil => simp [boundaryFrom]
  | cons c before ih =>
    have hsnoc : key < before.reverse ++ [c] ∨ before.reverse ++ [c] <+: key ↔
        key < before.reverse ∨ ∃ t, key = before.reverse ++ t ∧ (t < [c] ∨ [c] <+: t) := by
      rw [lt_append, append_prefix, or_assoc, ← exists_or]
      simp only [and_or_left]
    rw [boundaryFrom, reverse_cons, hsnoc]
    simp only [below_or_begins]
    split
    · rename_i hc
      simp only [Option.some.injEq, forall_eq', hc, forall_const]
      exact lt_append _
    · rename_i hc
      rw [ih]
      simp only [hc, false_implies, and_true, List.IsPrefix, eq_comm]

theorem inInterval_iff (keyPrefix key : Text) : inInterval keyPrefix key = startsWith key keyPrefix := by
  have hspec := boundaryFrom_spec keyPrefix.reverse key
  rw [reverse_reverse] at hspec
  rw [Bool.eq_iff_iff, startsWith_iff, inInterval, nextPrefixBoundary, Bool.and_eq_true, decide_eq_true_eq, utf8_le]
  have hbound : (match boundaryFrom keyPrefix.reverse with
      | none => true
      | some upperBound => decide (utf8 key < utf8 upperBound)) = true ↔ key < keyPrefix ∨ keyPrefix <+: key := by
    rw [← hspec]
    cases boundaryFrom keyPrefix.reverse with
    | none => simp
    | some upperBound => simp [utf8_lt]
  rw [hbound]
  constructor
  · rintro ⟨hle, hlt | h⟩
    · exact absurd hlt (not_lt_of_ge hle)
    · exact h
  · rintro ⟨t, rfl⟩
    exact ⟨le_of_not_gt (List.not_lt.mpr (prefix_append keyPrefix t).le), .inr (prefix_append _ _)⟩

/-! ## Both scans -/

variable {V : Type}

/-- The two storages hold the same values, each in its own order. -/
theorem scans_agree {rows scalarValues : List (StoredValue V)} (hperm : rows.Perm scalarValues)
    (hkeys : (scalarValues.map fun stored => (stored.namespace_, stored.key)).Nodup) (namespace_ : Text) :
    (∀ keyPrefix key, inInterval keyPrefix key = true ↔ startsWith key keyPrefix = true) ∧
      ∀ keyPrefix, scanScalarValueRows rows namespace_ keyPrefix = scanValues scalarValues namespace_ keyPrefix := by
  refine ⟨fun keyPrefix key => by rw [inInterval_iff], fun keyPrefix => ?_⟩
  have hfilter : (fun row : StoredValue V => decide (utf8 row.namespace_ = utf8 namespace_) && inInterval keyPrefix row.key) =
      fun stored => decide (stored.namespace_ = namespace_) && startsWith stored.key keyPrefix := by
    funext stored
    rw [inInterval_iff, decide_eq_decide.mpr utf8_inj]
  have hsort : (fun left right : StoredValue V => decide (utf8 left.key ≤ utf8 right.key)) =
      fun left right => decide (compareKeys left.key right.key ≤ 0) := by
    funext left right
    exact decide_eq_decide.mpr ((utf8_le _ _).trans (compareKeys_le _ _).symm)
  have hsorted : ∀ l : List (StoredValue V),
      (l.mergeSort fun left right => compareKeys left.key right.key ≤ 0).Pairwise fun left right => left.key ≤ right.key := by
    intro l
    refine (pairwise_mergeSort ?_ ?_ l).imp fun {a b} h => (compareKeys_le _ _).mp (of_decide_eq_true h)
    · simpa only [decide_eq_true_eq, compareKeys_le] using fun _ _ _ => le_trans
    · simpa only [Bool.or_eq_true, decide_eq_true_eq, compareKeys_le] using fun _ _ => le_total _ _
  rw [scanScalarValueRows, scanValues, hfilter, hsort]
  refine Perm.eq_of_pairwise (fun a b ha hb hab hba => ?_) (hsorted _) (hsorted _) ?_
  · have ha := mem_filter.mp ((mergeSort_perm _ _).mem_iff.mp ha)
    have hb := mem_filter.mp ((mergeSort_perm _ _).mem_iff.mp hb)
    rw [Bool.and_eq_true, decide_eq_true_eq] at ha hb
    exact inj_on_of_nodup_map hkeys (hperm.mem_iff.mp ha.1) hb.1
      (Prod.ext (ha.2.1.trans hb.2.1.symm) (le_antisymm hab hba))
  · exact (mergeSort_perm _ _).trans ((hperm.filter _).trans (mergeSort_perm _ _).symm)

def keyed (code : Nat) : StoredValue Nat := ⟨[], [Char.ofNat code], 1, code⟩

/-- U+10000 comes after U+FFFF in both, though its first code unit is smaller. -/
theorem scans_agree_astral : (∀ keyPrefix key, inInterval keyPrefix key = true ↔ startsWith key keyPrefix = true) ∧
    ∀ keyPrefix, scanScalarValueRows [keyed 0xffff, keyed 0x10000] [] keyPrefix =
      scanValues [keyed 0x10000, keyed 0xffff] [] keyPrefix :=
  scans_agree (.swap _ _ _) (by decide) []

end Shuvpi.PrefixScan
