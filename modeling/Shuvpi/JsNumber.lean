import Mathlib.Tactic

/-!
# JavaScript numbers

A number is the 64-bit pattern of an IEEE 754 double: a sign bit, eleven exponent
bits and 52 fraction bits. Only the questions the codecs ask are answered here,
and all of them in integer arithmetic on the pattern: is it finite, is it an
integer, is it a safe one, and which integer is it. `ofInt` is the double that a
safe integer of the program denotes.
-/
namespace Shuvpi

structure JsNumber where
  bits : UInt64
  deriving DecidableEq, Repr

namespace JsNumber

def MAX_SAFE_INTEGER : Nat := 2 ^ 53 - 1

def negative (x : JsNumber) : Bool := 2 ^ 63 ≤ x.bits.toNat
def exponent (x : JsNumber) : Nat := x.bits.toNat / 2 ^ 52 % 2048
def fraction (x : JsNumber) : Nat := x.bits.toNat % 2 ^ 52

/-- The magnitude of a finite number is `significand * 2 ^ (scale - 1075)`. -/
def significand (x : JsNumber) : Nat :=
  if x.exponent = 0 then x.fraction else 2 ^ 52 + x.fraction

def scale (x : JsNumber) : Nat := max x.exponent 1

def isFinite (x : JsNumber) : Bool := x.exponent ≠ 2047

def isInteger (x : JsNumber) : Bool := x.isFinite && (1075 ≤ x.scale || x.significand % 2 ^ (1075 - x.scale) == 0)

/-- The magnitude of an integer-valued number. -/
def magnitude (x : JsNumber) : Nat :=
  if 1075 ≤ x.scale then x.significand * 2 ^ (x.scale - 1075)
  else x.significand / 2 ^ (1075 - x.scale)

def isSafeInteger (x : JsNumber) : Bool := x.isInteger && x.magnitude ≤ MAX_SAFE_INTEGER

/-- The integer that an integer-valued number denotes. -/
def toInt (x : JsNumber) : Int := if x.negative then -x.magnitude else x.magnitude

def negZero : JsNumber := ⟨UInt64.ofNat (2 ^ 63)⟩

/-- `Object.is(x, -0)`. -/
def isNegZero (x : JsNumber) : Bool := x == negZero

/-- The pattern of a nonzero magnitude below `2 ^ 53`. -/
def natBits (a : Nat) : Nat := 2 ^ 52 * (a.log2 + 1023) + (a - 2 ^ a.log2) * 2 ^ (52 - a.log2)

/-- The double of a safe integer. -/
def ofInt (n : Int) : JsNumber :=
  ⟨UInt64.ofNat (if n = 0 then 0 else if 0 < n then natBits n.natAbs else 2 ^ 63 + natBits n.natAbs)⟩

/-! ## The pattern of a safe integer -/

variable (x : JsNumber)

theorem bits_split :
    x.bits.toNat = (if x.negative then 2 ^ 63 else 0) + 2 ^ 52 * x.exponent + x.fraction := by
  have h := x.bits.toNat_lt
  by_cases hn : 2 ^ 63 ≤ x.bits.toNat
  · simp only [negative, exponent, fraction, hn, decide_true, if_true]
    omega
  · simp only [negative, exponent, fraction, hn, decide_false, Bool.false_eq_true, if_false]
    omega

theorem ext_bits {x y : JsNumber} (h : x.bits.toNat = y.bits.toNat) : x = y := by
  obtain ⟨b⟩ := x
  obtain ⟨b'⟩ := y
  exact congrArg JsNumber.mk (UInt64.toNat_inj.mp h)

theorem isNegZero_iff : x.isNegZero = true ↔ x.bits.toNat = 2 ^ 63 := by
  rw [isNegZero, beq_iff_eq]
  constructor
  · intro h; rw [h]; rfl
  · intro h; exact ext_bits (by rw [h]; rfl)

theorem integer_of_significand_zero (h : x.exponent = 0) (hf : x.fraction = 0) :
    x.isInteger = true ∧ x.magnitude = 0 := by
  have hsig : x.significand = 0 := by rw [significand, if_pos h, hf]
  refine ⟨?_, ?_⟩
  · simp [isInteger, isFinite, h, hsig]
  · rw [magnitude, hsig]
    split <;> simp

theorem exponent_of_bits {x : JsNumber} {s e f : Nat} (h : x.bits.toNat = 2 ^ 63 * s + 2 ^ 52 * e + f)
    (he : e < 2048) (hf : f < 2 ^ 52) : x.exponent = e := by
  rw [exponent, h]
  omega

theorem fraction_of_bits {x : JsNumber} {s e f : Nat} (h : x.bits.toNat = 2 ^ 63 * s + 2 ^ 52 * e + f)
    (hf : f < 2 ^ 52) : x.fraction = f := by
  rw [fraction, h]
  omega

/-- A nonzero magnitude below `2 ^ 53`, shifted up, has its top bit at position 52. -/
theorem shifted_magnitude {a : Nat} (h0 : a ≠ 0) (h : a ≤ MAX_SAFE_INTEGER) :
    a.log2 ≤ 52 ∧ 2 ^ 52 + (a - 2 ^ a.log2) * 2 ^ (52 - a.log2) = a * 2 ^ (52 - a.log2) ∧
      (a - 2 ^ a.log2) * 2 ^ (52 - a.log2) < 2 ^ 52 := by
  have hle : a.log2 ≤ 52 := by
    have : a.log2 < 53 := (Nat.log2_lt h0).mpr (by simp only [MAX_SAFE_INTEGER] at h; omega)
    omega
  have hlo := Nat.log2_self_le h0
  have hhi : a < 2 ^ (a.log2 + 1) := Nat.lt_log2_self
  have hpow : 2 ^ a.log2 * 2 ^ (52 - a.log2) = 2 ^ 52 := by rw [← Nat.pow_add]; congr 1; omega
  refine ⟨hle, ?_, ?_⟩
  · rw [Nat.sub_mul, hpow]
    have : 2 ^ 52 ≤ a * 2 ^ (52 - a.log2) := by
      rw [← hpow]; exact Nat.mul_le_mul_right _ hlo
    omega
  · rw [← hpow]
    apply Nat.mul_lt_mul_of_pos_right _ (Nat.two_pow_pos _)
    rw [Nat.pow_succ] at hhi
    omega

theorem natBits_lt {a : Nat} (h0 : a ≠ 0) (h : a ≤ MAX_SAFE_INTEGER) : natBits a < 2 ^ 63 := by
  obtain ⟨hle, _, hlt⟩ := shifted_magnitude h0 h
  rw [natBits]
  omega

/-- What the pattern built from a sign and a nonzero magnitude denotes. -/
theorem ofBits_denotes {x : JsNumber} {a s : Nat} (h0 : a ≠ 0) (h : a ≤ MAX_SAFE_INTEGER)
    (hx : x.bits.toNat = 2 ^ 63 * s + natBits a) : x.isInteger = true ∧ x.magnitude = a := by
  obtain ⟨hle, hsig, hlt⟩ := shifted_magnitude h0 h
  have hx' : x.bits.toNat = 2 ^ 63 * s + 2 ^ 52 * (a.log2 + 1023) +
      (a - 2 ^ a.log2) * 2 ^ (52 - a.log2) := by rw [hx, natBits]; omega
  have hexp : x.exponent = a.log2 + 1023 := exponent_of_bits hx' (by omega) hlt
  have hfrac : x.fraction = (a - 2 ^ a.log2) * 2 ^ (52 - a.log2) := fraction_of_bits hx' hlt
  have hsc : x.scale = a.log2 + 1023 := by rw [scale, hexp]; omega
  have hsignif : x.significand = a * 2 ^ (52 - a.log2) := by
    rw [significand, hexp, if_neg (by omega), hfrac, hsig]
  have hfin : x.isFinite = true := by simp only [isFinite, hexp]; simp; omega
  by_cases htop : a.log2 = 52
  · have : 1075 ≤ x.scale := by omega
    refine ⟨by simp [isInteger, hfin, this], ?_⟩
    rw [magnitude, if_pos this, hsignif, hsc, htop]
    simp
  · have hsmall : ¬ 1075 ≤ x.scale := by omega
    have hexpo : 1075 - x.scale = 52 - a.log2 := by omega
    refine ⟨?_, ?_⟩
    · simp [isInteger, hfin, hexpo, hsignif]
    · rw [magnitude, if_neg hsmall, hexpo, hsignif]
      exact Nat.mul_div_cancel _ (Nat.two_pow_pos _)

theorem ofInt_bits (n : Int) (h : n.natAbs ≤ MAX_SAFE_INTEGER) : (ofInt n).bits.toNat =
      if n = 0 then 0 else if 0 < n then natBits n.natAbs else 2 ^ 63 + natBits n.natAbs := by
  have hlt : n ≠ 0 → natBits n.natAbs < 2 ^ 63 := fun h0 => natBits_lt (by omega) h
  simp only [ofInt, UInt64.toNat_ofNat']
  split
  · rfl
  · rename_i h0
    have := hlt h0
    split <;> omega

/-- The double of a safe integer is an integer of that value. -/
theorem ofInt_denotes (n : Int) (h : n.natAbs ≤ MAX_SAFE_INTEGER) :
    (ofInt n).isSafeInteger = true ∧ (ofInt n).toInt = n ∧ (ofInt n).isNegZero = false := by
  have hbits := ofInt_bits n h
  by_cases h0 : n = 0
  · rw [if_pos h0] at hbits
    have hexp : (ofInt n).exponent = 0 := by simp [exponent, hbits]
    have hfrac : (ofInt n).fraction = 0 := by simp [fraction, hbits]
    obtain ⟨hint, hmag⟩ := integer_of_significand_zero _ hexp hfrac
    refine ⟨by simp [isSafeInteger, hint, hmag], ?_, ?_⟩
    · rw [toInt, hmag, h0]
      split <;> rfl
    · rw [Bool.eq_false_iff, ne_eq, isNegZero_iff, hbits]
      omega
  have hlt := natBits_lt (show n.natAbs ≠ 0 by omega) h
  have hnb : 0 < natBits n.natAbs := by rw [natBits]; omega
  by_cases hpos : 0 < n
  · rw [if_neg h0, if_pos hpos] at hbits
    obtain ⟨hint, hmag⟩ := ofBits_denotes (s := 0) (show n.natAbs ≠ 0 by omega) h (by rw [hbits]; omega)
    refine ⟨by simp [isSafeInteger, hint, hmag, h], ?_, ?_⟩
    · have hn : ¬ (ofInt n).negative = true := by simp only [negative, hbits]; simp; omega
      rw [toInt, if_neg hn, hmag]
      omega
    · rw [Bool.eq_false_iff, ne_eq, isNegZero_iff, hbits]
      omega
  · rw [if_neg h0, if_neg hpos] at hbits
    obtain ⟨hint, hmag⟩ := ofBits_denotes (s := 1) (show n.natAbs ≠ 0 by omega) h (by rw [hbits]; omega)
    refine ⟨by simp [isSafeInteger, hint, hmag, h], ?_, ?_⟩
    · have hn : (ofInt n).negative = true := by simp only [negative, hbits]; simp
      rw [toInt, if_pos hn, hmag]
      omega
    · rw [Bool.eq_false_iff, ne_eq, isNegZero_iff, hbits]
      omega

variable (h : x.isSafeInteger = true)
include h

/-- A nonzero safe magnitude determines the exponent and the fraction. -/
theorem pattern_of_magnitude (h0 : x.magnitude ≠ 0) :
    2 ^ 52 * x.exponent + x.fraction = natBits x.magnitude := by
  simp only [isSafeInteger, isInteger, Bool.and_eq_true, Bool.or_eq_true, decide_eq_true_eq, beq_iff_eq] at h
  obtain ⟨⟨_, hint⟩, hsafe⟩ := h
  have hfrac : x.fraction < 2 ^ 52 := Nat.mod_lt _ (Nat.two_pow_pos _)
  by_cases hzero : x.exponent = 0
  · -- A subnormal number is far below one.
    exfalso
    have hsig : x.significand = x.fraction := by rw [significand, if_pos hzero]
    have hsc : x.scale = 1 := by rw [scale, hzero]; rfl
    apply h0
    rw [magnitude, if_neg (by omega), hsig]
    apply Nat.div_eq_of_lt
    exact Nat.lt_of_lt_of_le hfrac (Nat.pow_le_pow_right (by omega) (by omega))
  · have hsig : x.significand = 2 ^ 52 + x.fraction := by rw [significand, if_neg hzero]
    have hsc : x.scale = x.exponent := by rw [scale]; omega
    have hmain : ∀ k, x.magnitude * 2 ^ k = 2 ^ 52 + x.fraction → x.exponent + k = 1075 →
        2 ^ 52 * x.exponent + x.fraction = natBits x.magnitude := by
      intro k hk he
      have hlog : x.magnitude.log2 + k = 52 := by
        have hkle : k ≤ 52 := by
          by_contra hgt
          have h1 : 2 ^ 53 ≤ 2 ^ k := Nat.pow_le_pow_right (by omega) (by omega)
          have h2 : 2 ^ k ≤ x.magnitude * 2 ^ k := Nat.le_mul_of_pos_left _ (by omega)
          omega
        have hpow : 2 ^ (52 - k) * 2 ^ k = 2 ^ 52 := by rw [← Nat.pow_add]; congr 1; omega
        have hpow' : 2 ^ (52 - k + 1) * 2 ^ k = 2 ^ 53 := by rw [← Nat.pow_add]; congr 1; omega
        have hlog : x.magnitude.log2 = 52 - k := by
          apply (Nat.log2_eq_iff h0).mpr
          constructor
          · exact Nat.le_of_mul_le_mul_right (by rw [hpow, hk]; omega) (Nat.two_pow_pos k)
          · exact Nat.lt_of_mul_lt_mul_right (a := 2 ^ k) (by rw [hpow', hk]; omega)
        omega
      have hk' : 52 - x.magnitude.log2 = k := by omega
      have hpow : 2 ^ x.magnitude.log2 * 2 ^ k = 2 ^ 52 := by rw [← Nat.pow_add]; congr 1
      rw [natBits, hk', Nat.sub_mul, hpow, hk]
      omega
    by_cases hbig : 1075 ≤ x.scale
    · have hmag : x.magnitude = x.significand * 2 ^ (x.scale - 1075) := by rw [magnitude, if_pos hbig]
      have htop : x.scale = 1075 := by
        by_contra hne
        have h2 : 2 ^ 1 ≤ 2 ^ (x.scale - 1075) := Nat.pow_le_pow_right (by omega) (by omega)
        have h3 := Nat.mul_le_mul_left x.significand h2
        rw [← hmag, hsig] at h3
        simp only [MAX_SAFE_INTEGER] at hsafe
        omega
      refine hmain 0 ?_ (by omega)
      rw [hmag, htop, hsig]
      simp
    · have hdiv : x.significand % 2 ^ (1075 - x.scale) = 0 := by tauto
      have hmag : x.magnitude = x.significand / 2 ^ (1075 - x.scale) := by rw [magnitude, if_neg hbig]
      refine hmain (1075 - x.scale) ?_ (by omega)
      rw [hmag, Nat.div_mul_cancel (Nat.dvd_of_mod_eq_zero hdiv), hsig]

theorem pattern_of_zero (h0 : x.magnitude = 0) :
    x.exponent = 0 ∧ x.fraction = 0 := by
  simp only [isSafeInteger, isInteger, Bool.and_eq_true, Bool.or_eq_true, decide_eq_true_eq, beq_iff_eq] at h
  obtain ⟨⟨_, hint⟩, _⟩ := h
  have hsig : x.significand = 0 := by
    by_cases hbig : 1075 ≤ x.scale
    · rw [magnitude, if_pos hbig] at h0
      rcases Nat.mul_eq_zero.mp h0 with h0 | h0
      · exact h0
      · exact absurd h0 (Nat.two_pow_pos _).ne'
    · rw [magnitude, if_neg hbig] at h0
      have hdiv : x.significand % 2 ^ (1075 - x.scale) = 0 := by tauto
      have := Nat.div_add_mod x.significand (2 ^ (1075 - x.scale))
      rw [h0, hdiv] at this
      omega
  rw [significand] at hsig
  split at hsig
  · exact ⟨by assumption, hsig⟩
  · omega

/-- A safe integer other than negative zero is the double of its value. -/
theorem ofInt_toInt (hz : x.isNegZero = false) : ofInt x.toInt = x := by
  have hsafe : x.magnitude ≤ MAX_SAFE_INTEGER := by
    simp only [isSafeInteger, Bool.and_eq_true, decide_eq_true_eq] at h
    exact h.2
  have habs : x.toInt.natAbs = x.magnitude := by
    rw [toInt]; split <;> simp
  have hbits := ofInt_bits x.toInt (by omega)
  have hsplit := bits_split x
  apply ext_bits
  by_cases h0 : x.magnitude = 0
  · have hpat : x.exponent = 0 ∧ x.fraction = 0 := pattern_of_zero x h h0
    have hnn : ¬ x.negative = true := by
      intro hneg
      rw [if_pos hneg, hpat.1, hpat.2] at hsplit
      rw [(isNegZero_iff x).mpr hsplit] at hz
      cases hz
    rw [if_neg hnn, hpat.1, hpat.2] at hsplit
    rw [hbits, hsplit, if_pos (by omega)]
    simp
  · have hpat := pattern_of_magnitude x h h0
    rw [hbits, hsplit, habs]
    by_cases hn : x.negative = true
    · have : x.toInt = -(x.magnitude : Int) := by rw [toInt, if_pos hn]
      rw [if_neg (by omega), if_neg (by omega), if_pos hn]
      omega
    · have : x.toInt = (x.magnitude : Int) := by rw [toInt, if_neg hn]
      rw [if_neg (by omega), if_pos (by omega), if_neg hn]
      omega

end JsNumber
end Shuvpi
