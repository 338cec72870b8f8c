import Mathlib.Algebra.BigOperators.Group.List.Basic
import Mathlib.Algebra.GroupWithZero.Nat

/-!
# Sizes of the entries of a stack

`allocateStackSizes` of `components/stack.ts`: entries start at their clamped sizes, and what
the stack has more or less than their sum is handed out in rounds. `share` is how numbers
compute `Math.floor((remaining * weight) / totalWeight)`.
-/
namespace Shuvpi.StackSizes

structure StackLayoutEntry where
  /-- None where it is undefined or `"auto"`. -/
  basis : Option Nat
  grow : Option Nat
  shrink : Option Nat
  minSize : Option Nat
  maxSize : Option Nat

def MAX_SAFE_INTEGER : Nat := 2 ^ 53 - 1

def StackLayoutEntry.min (entry : StackLayoutEntry) : Nat := entry.minSize.getD 0
def StackLayoutEntry.max (entry : StackLayoutEntry) : Nat := entry.maxSize.getD MAX_SAFE_INTEGER

inductive Mode where
  | grow
  | shrink

/-- An entry with its size. -/
abbrev Sized := StackLayoutEntry × Nat

variable (share : Nat → Nat → Nat → Nat) (mode : Mode)

def isCandidate (p : Sized) : Bool :=
  match mode with
  | .grow => 0 < p.1.grow.getD 0 && p.2 < p.1.max
  | .shrink => 0 < p.1.shrink.getD 1 && p.1.min < p.2

def weight (p : Sized) : Nat :=
  match mode with
  | .grow => p.1.grow.getD 0
  | .shrink => p.1.shrink.getD 1 * max 1 p.2

def capacity (p : Sized) : Nat :=
  match mode with
  | .grow => p.1.max - p.2
  | .shrink => p.2 - p.1.min

def resized (size delta : Nat) : Nat :=
  match mode with
  | .grow => size + delta
  | .shrink => size - delta

/-- One round: each candidate is met once, with the size that it had before the round. -/
def round (totalWeight : Nat) : List Sized → Nat → List Sized × Nat
  | [], remaining => ([], remaining)
  | p :: sizes, remaining =>
    if remaining = 0 then (p :: sizes, 0)
    else if isCandidate mode p then
      let proposed := max 1 (share remaining (weight mode p) totalWeight)
      let delta := min remaining (min proposed (capacity mode p))
      let later := round totalWeight sizes (remaining - delta)
      ((p.1, resized mode p.2 delta) :: later.1, later.2)
    else
      let later := round totalWeight sizes remaining
      (p :: later.1, later.2)

def total (sizes : List Sized) : Nat := (sizes.map Prod.snd).sum

/-- By how much an entry can still change. -/
def room (p : Sized) : Nat :=
  match mode with
  | .grow => if 0 < p.1.grow.getD 0 then p.1.max - p.2 else 0
  | .shrink => if 0 < p.1.shrink.getD 1 then p.2 - p.1.min else 0

/-- An entry keeps to its bounds, and changes only as it may. -/
structure Keeps (p q : Sized) : Prop where
  entry : q.1 = p.1
  lower : p.1.min ≤ q.2
  upper : q.2 ≤ max p.1.min p.1.max
  grows : p.1.grow.getD 0 = 0 → q.2 ≤ p.2
  shrinks : p.1.shrink.getD 1 = 0 → p.2 ≤ q.2

/-- The sizes change by `delta` in all, no entry by more than it can. -/
inductive Moves : List Sized → List Sized → Nat → Prop
  | nil : Moves [] [] 0
  | cons {p : Sized} {sizes sizes' : List Sized} {delta rest : Nat} (fits : delta ≤ room mode p)
    (later : Moves sizes sizes' rest) :
    Moves (p :: sizes) ((p.1, resized mode p.2 delta) :: sizes') (delta + rest)

variable {share mode} {sizes sizes' sizes'' : List Sized} {delta delta' : Nat} {p : Sized}

theorem resized_zero (size : Nat) : resized mode size 0 = size := by cases mode <;> rfl

theorem room_resized (h : delta ≤ room mode p) : room mode (p.1, resized mode p.2 delta) + delta = room mode p := by
  cases mode <;> simp only [room, resized] at h ⊢ <;> split_ifs at h ⊢ <;> omega

theorem resized_resized (size : Nat) : resized mode (resized mode size delta) delta' = resized mode size (delta + delta') := by
  cases mode <;> simp only [resized] <;> omega

theorem Moves.same (sizes : List Sized) : Moves mode sizes sizes 0 := by
  induction sizes with
  | nil => exact .nil
  | cons p sizes ih =>
    have hmove := Moves.cons (Nat.zero_le (room mode p)) ih
    rwa [resized_zero] at hmove

variable (h : Moves mode sizes sizes' delta)
include h

theorem Moves.trans (h' : Moves mode sizes' sizes'' delta') :
    Moves mode sizes sizes'' (delta + delta') := by
  induction h generalizing sizes'' delta' with
  | nil => cases h'; exact .nil
  | @cons p _ _ d rest fits _ ih =>
    cases h' with
    | @cons _ _ _ d' rest' fits' later' =>
      have hroom := room_resized fits
      have hfits : d + d' ≤ room mode p := by omega
      have hmove := Moves.cons hfits (ih later')
      rw [← resized_resized] at hmove
      rwa [show d + rest + (d' + rest') = d + d' + (rest + rest') by omega]

theorem Moves.total : match mode with
    | .grow => total sizes' = total sizes + delta
    | .shrink => total sizes' + delta = total sizes := by
  induction h with
  | nil => cases mode <;> rfl
  | cons fits _ ih =>
    cases mode <;> simp only [StackSizes.total, List.map_cons, List.sum_cons, resized, room] at ih fits ⊢ <;>
      split at fits <;> omega

omit h

theorem Moves.keeps (h : Moves mode sizes sizes' delta)
    (hbounds : ∀ p ∈ sizes, p.1.min ≤ p.2 ∧ p.2 ≤ max p.1.min p.1.max) : List.Forall₂ Keeps sizes sizes' := by
  induction h with
  | nil => exact .nil
  | cons fits _ ih =>
    obtain ⟨hlower, hupper⟩ := hbounds _ List.mem_cons_self
    refine .cons ?_ (ih fun p hp => hbounds p (List.mem_cons_of_mem _ hp))
    cases mode <;> simp only [room] at fits <;> split at fits <;>
      exact ⟨rfl, by simp only [resized]; omega, by simp only [resized]; omega, fun _ => by simp only [resized]; omega,
        fun _ => by simp only [resized]; omega⟩

end Shuvpi.StackSizes
