import Mathlib.Data.List.Basic

/-!
# Computations that write a log

A computation reads a clock and appends entries to a log, and never takes one back. What it
does is said by a predicate on its result, on what a reader of the log sees of the new
entries, and on the time at which it ends. The rules below build such statements along the
sequencing of the monad.
-/
namespace Shuvpi.TimedLog

structure Log (ε : Type) where
  clock : Nat
  entries : List (Nat × ε)

abbrev Timed (ε α : Type) := StateM (Log ε) α

variable {ε μ α β : Type}

def Log.start : Log ε := ⟨0, []⟩

def write (e : ε) : Timed ε Unit := modify fun l => ⟨l.clock + 1, l.entries ++ [(l.clock, e)]⟩

/-- The time; the clock then moves on, so that no two questions are asked at one moment. -/
def moment : Timed ε Nat := modifyGet fun l => (l.clock, ⟨l.clock + 1, l.entries⟩)

section Rules
variable (view : Nat × ε → Option μ)

/-- From any log not before `t`, `m` only appends, and its result, the visible part of what
it appends and the time at its end satisfy `P`. -/
def Adds (t : Nat) (m : Timed ε α) (P : α → List μ → Nat → Prop) : Prop :=
  ∀ l, t ≤ l.clock → ∃ es, (m l).2.entries = l.entries ++ es ∧ l.clock ≤ (m l).2.clock ∧
    P (m l).1 (es.filterMap view) (m l).2.clock

variable {view} {t : Nat} {P Q : α → List μ → Nat → Prop}

variable {m : Timed ε α}

theorem Adds.later {t' : Nat} (h : Adds view t m P) (hle : t ≤ t') :
    Adds view t' m P := fun l hl => h l (Nat.le_trans hle hl)

theorem Adds.mono (h : Adds view t m P) (hpq : ∀ a ms now, P a ms now → Q a ms now) :
    Adds view t m Q := fun l hl => by
  obtain ⟨es, hes, hclock, hp⟩ := h l hl
  exact ⟨es, hes, hclock, hpq _ _ _ hp⟩

theorem Adds.pure {a : α} (h : ∀ now, t ≤ now → P a [] now) : Adds view t (Pure.pure a) P :=
  fun _ hl => ⟨[], (List.append_nil _).symm, Nat.le_refl _, h _ hl⟩

variable {R : β → List μ → Nat → Prop} {f : α → Timed ε β}

theorem Adds.bind
    (hm : Adds view t m P) (hf : ∀ a ms t', t ≤ t' → P a ms t' →
      Adds view t' (f a) fun b ms' now => R b (ms ++ ms') now) : Adds view t (m >>= f) R :=
  fun l hl => by
    obtain ⟨es, hes, hclock, hp⟩ := hm l hl
    obtain ⟨es', hes', hclock', hr⟩ := hf _ _ _ (Nat.le_trans hl hclock) hp (m l).2 (Nat.le_refl _)
    refine ⟨es ++ es', ?_, Nat.le_trans hclock hclock', ?_⟩
    · rw [← List.append_assoc, ← hes]
      exact hes'
    · rw [List.filterMap_append]
      exact hr

/-- A first step of which nothing is seen. -/
theorem Adds.bind_silent {S : α → Prop}
    (hm : Adds view 0 m fun a ms _ => ms = [] ∧ S a)
    (hf : ∀ a, S a → Adds view t (f a) R) : Adds view t (m >>= f) R :=
  (hm.later (Nat.zero_le t)).bind fun a ms t' hle h => by
    obtain ⟨rfl, hs⟩ := h
    exact (hf a hs).later hle

theorem Adds.moment {P : Nat → List μ → Nat → Prop} (h : ∀ now, t ≤ now → P now [] (now + 1)) :
    Adds view t moment P :=
  fun _ hl => ⟨[], (List.append_nil _).symm, Nat.le_succ _, h _ hl⟩

theorem Adds.write {P : Unit → List μ → Nat → Prop} {e : ε}
    (h : ∀ now, t ≤ now → P () (view (now, e)).toList (now + 1)) : Adds view t (write e) P :=
  fun l hl => by
    refine ⟨[(l.clock, e)], rfl, Nat.le_succ _, ?_⟩
    have hone : [(l.clock, e)].filterMap view = (view (l.clock, e)).toList := by
      cases hv : view (l.clock, e) <;> simp [hv]
    exact h _ hl

end Rules

section Endings
variable {P : α → List (Nat × ε) → Prop} {Q : β → List (Nat × ε) → Prop}

/-- From any log whose entries satisfy `I`, `m` ends with a result and entries that
satisfy `P`. -/
def Concludes (I : List (Nat × ε) → Prop) (m : Timed ε α) (P : α → List (Nat × ε) → Prop) : Prop :=
  ∀ l, I l.entries → P (m l).1 (m l).2.entries

variable {I : List (Nat × ε) → Prop}

theorem Concludes.pure {a : α} (h : ∀ es, I es → P a es) : Concludes I (Pure.pure a) P := fun _ hi => h _ hi

variable {f : α → Timed ε β}

/-- The second computation starts where the first one ends. -/
theorem Concludes.seq {m : Timed ε α} (hm : Concludes I m P)
    (hf : ∀ a, Concludes (P a) (f a) Q) : Concludes I (m >>= f) Q := fun l hi => hf _ _ (hm l hi)

/-- What the last computation alone decides. -/
theorem Concludes.bind {m : Timed ε α}
    (hf : ∀ a, Concludes (fun _ => True) (f a) Q) : Concludes I (m >>= f) Q :=
  fun _ _ => hf _ _ trivial

end Endings

end Shuvpi.TimedLog
