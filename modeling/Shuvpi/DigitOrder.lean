import Mathlib.Data.List.Basic
import Mathlib.Order.Lattice
import Mathlib.Tactic

/-!
# Packed numbers in order

A number is packed into fields from its high bits down, each field tagged with a
constant of its own. Packing is strictly monotone for the dictionary order of
lists, and so is printing each field with a fixed text before it, as long as the
printing of one field is monotone and has one length.
-/
open List

namespace Shuvpi

/-- One field of a packed number: its width in bits and the constant added to it. -/
structure BitField where
  width : Nat
  tag : Nat
  deriving DecidableEq, Repr

namespace BitField

def bits : List BitField → Nat
  | [] => 0
  | f :: fs => f.width + bits fs

def pack : List BitField → Nat → List Nat
  | [], _ => []
  | f :: fs, x => (f.tag + x / 2 ^ bits fs % 2 ^ f.width) :: pack fs x

variable (fs : List BitField)

@[simp] theorem length_pack (x : Nat) : (pack fs x).length = fs.length := by
  induction fs with
  | nil => rfl
  | cons f fs ih => simp [pack, ih]

/-- Bits above the fields are not packed. -/
theorem pack_mod (x : Nat) {k : Nat} (hk : bits fs ≤ k) : pack fs (x % 2 ^ k) = pack fs x := by
  induction fs with
  | nil => rfl
  | cons f fs ih =>
    simp only [bits] at hk
    have hbits : x % 2 ^ k / 2 ^ bits fs % 2 ^ f.width = x / 2 ^ bits fs % 2 ^ f.width := by
      obtain ⟨d, rfl⟩ := Nat.exists_eq_add_of_le hk
      rw [show f.width + bits fs + d = bits fs + (f.width + d) by omega, Nat.pow_add, Nat.mod_mul_right_div_self]
      exact Nat.mod_mod_of_dvd _ (pow_dvd_pow 2 (Nat.le_add_right _ _))
    rw [pack, pack, hbits, ih (by omega)]

theorem pack_lt {x y : Nat} (hxy : x < y) (hy : y < 2 ^ bits fs) : pack fs x < pack fs y := by
  induction fs generalizing x y with
  | nil => simp [bits] at hy; omega
  | cons f fs ih =>
    simp only [bits, Nat.pow_add] at hy
    have hdigit : ∀ z, z ≤ y → z / 2 ^ bits fs % 2 ^ f.width = z / 2 ^ bits fs := fun z hz =>
      Nat.mod_eq_of_lt (Nat.div_lt_of_lt_mul (by rw [Nat.mul_comm]; omega))
    rw [pack, pack, hdigit x hxy.le, hdigit y le_rfl, cons_lt_cons_iff]
    have hdiv : x / 2 ^ bits fs ≤ y / 2 ^ bits fs := Nat.div_le_div_right hxy.le
    rcases hdiv.lt_or_eq with hlt | heq
    · exact .inl (by omega)
    · have hrest : x % 2 ^ bits fs < y % 2 ^ bits fs := by
        have hx := Nat.div_add_mod x (2 ^ bits fs)
        have hy' := Nat.div_add_mod y (2 ^ bits fs)
        rw [heq] at hx
        omega
      have := ih hrest (Nat.mod_lt _ (Nat.two_pow_pos _))
      rw [pack_mod fs x le_rfl, pack_mod fs y le_rfl] at this
      exact .inr ⟨by rw [heq], this⟩

theorem bits_bytes (n : Nat) : 2 ^ bits (replicate n ⟨8, 0⟩) = 256 ^ n := by
  induction n with
  | zero => rfl
  | succ n ih =>
    rw [replicate_succ, bits, Nat.pow_add, ih]
    exact Nat.pow_succ'.symm

/-- Packed bytes spell the number again. -/
theorem foldl_pack (n acc x : Nat) : (pack (replicate n ⟨8, 0⟩) x).foldl (fun acc b => 256 * acc + b) acc =
    256 ^ n * acc + x % 256 ^ n := by
  induction n generalizing acc with
  | zero => simp [pack, Nat.mod_one]
  | succ n ih =>
    rw [replicate_succ, pack, foldl_cons, ih, bits_bytes, Nat.zero_add, Nat.mod_pow_succ (b := 256), pow_succ 256 n,
      show 2 ^ 8 = 256 from rfl]
    ring

end BitField

/-! ## Lists in dictionary order -/

section Order
variable {α : Type*} [LinearOrder α]

theorem append_lt_append {xs ys : List α} (h : xs < ys) (hlen : xs.length = ys.length)
    (us vs : List α) : xs ++ us < ys ++ vs := by
  induction xs generalizing ys with
  | nil =>
    cases ys with
    | nil => exact absurd h (lt_irrefl _)
    | cons y ys => simp at hlen
  | cons x xs ih =>
    cases ys with
    | nil => simp at hlen
    | cons y ys =>
      rw [cons_append, cons_append, cons_lt_cons_iff]
      rcases cons_lt_cons_iff.mp h with hlt | ⟨heq, hlt⟩
      · exact .inl hlt
      · exact .inr ⟨heq, ih hlt (by simpa using hlen)⟩

variable {β : Type*} [LinearOrder β]

/-- Print each value after the fixed text of its place. -/
def printFields (digits : β → List α) : List (List α) → List β → List α
  | s :: ss, b :: bs => s ++ digits b ++ printFields digits ss bs
  | _, _ => []

variable {digits : β → List α}

theorem printFields_lt {P : β → Prop} {n : Nat}
    (hmono : ∀ a b, P a → P b → a < b → digits a < digits b)
    (hlen : ∀ a, P a → (digits a).length = n)
    (seps : List (List α)) {xs ys : List β} (hxs : ∀ a ∈ xs, P a) (hys : ∀ a ∈ ys, P a)
    (hx : xs.length = seps.length) (hy : ys.length = seps.length) (h : xs < ys) :
    printFields digits seps xs < printFields digits seps ys := by
  induction seps generalizing xs ys with
  | nil =>
    rw [length_eq_zero_iff.mp hx, length_eq_zero_iff.mp hy] at h
    exact absurd h (lt_irrefl _)
  | cons s seps ih =>
    cases xs with
    | nil => simp at hx
    | cons x xs =>
      cases ys with
      | nil => simp at hy
      | cons y ys =>
        simp only [mem_cons, forall_eq_or_imp] at hxs hys
        simp only [printFields, append_assoc]
        apply append_left_lt
        rcases cons_lt_cons_iff.mp h with hlt | ⟨rfl, hlt⟩
        · exact append_lt_append (hmono x y hxs.1 hys.1 hlt)
            ((hlen x hxs.1).trans (hlen y hys.1).symm) _ _
        · exact append_left_lt (ih hxs.2 hys.2 (by simpa using hx) (by simpa using hy) hlt)

/-- Printing loses nothing: it is monotone, and different lists are in some order. -/
theorem printFields_ne {P : β → Prop} {n : Nat}
    (hmono : ∀ a b, P a → P b → a < b → digits a < digits b)
    (hlen : ∀ a, P a → (digits a).length = n)
    (seps : List (List α)) {xs ys : List β} (hxs : ∀ a ∈ xs, P a) (hys : ∀ a ∈ ys, P a)
    (hx : xs.length = seps.length) (hy : ys.length = seps.length) (h : xs ≠ ys) :
    printFields digits seps xs ≠ printFields digits seps ys := by
  rcases lt_or_gt_of_ne h with hlt | hlt
  · exact (printFields_lt hmono hlen seps hxs hys hx hy hlt).ne
  · exact (printFields_lt hmono hlen seps hys hxs hy hx hlt).ne'

end Order

end Shuvpi
