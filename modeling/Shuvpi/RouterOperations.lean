import Shuvpi.SessionRouter
import Mathlib.Tactic

/-!
# The order of a client's operations

`runForClient` lets an operation begin when the client's one before it is done. Shutdown
forgets the operations, but then nobody attaches any more: what holds throughout is that an
operation begins when all earlier attaching of its client is done.
-/
namespace Shuvpi.Router

open Function

def Kind.isAttach : Kind → Bool
  | .attach _ => true
  | _ => false

namespace Operations

variable {ops : Operations}

/-- An operation that attaches its client. -/
def attaches (ops : Operations) (i : Nat) : Prop := (ops.operation i).kind.isAttach = true

/-- All attaching of the client before an operation is done. -/
def first (ops : Operations) (i : Nat) : Prop :=
  ∀ j, j < i → ops.attaches j → (ops.operation j).client = (ops.operation i).client → (ops.operation j).stage = .done

structure Inv (ops : Operations) : Prop where
  previous : ∀ i p, i < ops.count → (ops.operation i).previous = some p →
    p < i ∧ (ops.operation p).client = (ops.operation i).client
  order : ∀ i j, i < j → j < ops.count → ops.attaches i → (ops.operation i).client = (ops.operation j).client →
    (ops.operation i).stage = .done ∨ ∃ p, (ops.operation j).previous = some p ∧ i ≤ p
  serial : ∀ i, i < ops.count → (ops.operation i).stage ≠ .queued → ops.first i
  last : ∀ c l, ops.last c = some l → l < ops.count ∧ (ops.operation l).client = c
  recorded : ∀ i, i < ops.count → ops.attaches i →
    (ops.operation i).stage = .done ∨ ∃ l, ops.last (ops.operation i).client = some l ∧ i ≤ l

theorem initial_inv : World.initial.operations.Inv where
  previous := fun _ _ hi => absurd hi (Nat.not_lt_zero _)
  order := fun _ _ _ hj => absurd hj (Nat.not_lt_zero _)
  serial := fun _ hi => absurd hi (Nat.not_lt_zero _)
  last := fun _ _ h => nomatch h
  recorded := fun _ hi => absurd hi (Nat.not_lt_zero _)

/-- Only one operation of a client attaches at a time. -/
theorem Inv.attaching_unique (h : ops.Inv) {i j : Nat} (hi : i < ops.count) (hj : j < ops.count) (hai : ops.attaches i)
    (haj : ops.attaches j) (hc : (ops.operation i).client = (ops.operation j).client)
    (hsi : (ops.operation i).stage ≠ .queued ∧ (ops.operation i).stage ≠ .done)
    (hsj : (ops.operation j).stage ≠ .queued ∧ (ops.operation j).stage ≠ .done) : i = j := by
  rcases Nat.lt_trichotomy i j with hlt | heq | hgt
  · exact absurd (h.serial j hj hsj.1 i hlt hai hc) hsi.2
  · exact heq
  · exact absurd (h.serial i hi hsi.1 j hgt haj hc.symm) hsj.2

/-- An operation whose predecessor is done may begin. -/
theorem Inv.first_of_previous (h : ops.Inv) {i : Nat} (hi : i < ops.count)
    (hp : (ops.operation i).previous.all (fun p => (ops.operation p).stage = .done) = true) : ops.first i := by
  intro j hj ha hc
  rcases h.order j i hj hi ha hc with hdone | ⟨p, hprev, hle⟩
  · exact hdone
  · rw [hprev, Option.all_some, decide_eq_true_eq] at hp
    obtain ⟨hlt, hcli⟩ := h.previous i p hi hprev
    rcases Nat.lt_or_eq_of_le hle with hjp | rfl
    · exact h.serial p (Nat.lt_trans hlt hi) (by rw [hp]; simp) j hjp ha (hc.trans hcli.symm)
    · exact hp

theorem add_last (client : Nat) (kind : Kind) :
    (ops.add client kind).operation ops.count = ⟨client, kind, ops.last client, .queued⟩ := update_self _ _ _

theorem add_of_lt (client : Nat) (kind : Kind) {i : Nat} (hi : i < ops.count) :
    (ops.add client kind).operation i = ops.operation i := update_of_ne hi.ne _ _

theorem Inv.add (h : ops.Inv) (client : Nat) (kind : Kind) (disconnected : Nat → Bool) :
    ({ ops.add client kind with disconnected := disconnected } : Operations).Inv := by
  have hold : ∀ {i}, i < ops.count → (ops.add client kind).operation i = ops.operation i := fun hi => add_of_lt client kind hi
  have hcases : ∀ {i}, i < ops.count + 1 → i < ops.count ∨ i = ops.count := fun hi => Nat.lt_succ_iff_lt_or_eq.mp hi
  have hatt : ∀ {i}, i < ops.count → ((ops.add client kind).attaches i ↔ ops.attaches i) := by
    intro i hi
    unfold attaches
    rw [hold hi]
  refine ⟨?_, ?_, ?_, ?_, ?_⟩
  · intro i p hi hp
    rcases hcases hi with hlt | rfl
    · rw [hold hlt] at hp ⊢
      obtain ⟨hpi, hcli⟩ := h.previous i p hlt hp
      rw [hold (Nat.lt_trans hpi hlt)]
      exact ⟨hpi, hcli⟩
    · rw [add_last] at hp ⊢
      obtain ⟨hlt, hcli⟩ := h.last client p hp
      rw [hold hlt]
      exact ⟨hlt, hcli⟩
  · intro i j hij hj ha hc
    rcases hcases hj with hlt | rfl
    · have hi := Nat.lt_trans hij hlt
      rw [hold hi, hold hlt] at hc
      rw [hold hi, hold hlt]
      exact h.order i j hij hlt ((hatt hi).mp ha) hc
    · rw [hold hij, add_last] at hc
      rw [hold hij, add_last]
      have hrec := h.recorded i hij ((hatt hij).mp ha)
      rw [hc] at hrec
      exact hrec
  · intro i hi hs j hj ha hc
    rcases hcases hi with hlt | rfl
    · have hlt' := Nat.lt_trans hj hlt
      rw [hold hlt] at hs hc
      rw [hold hlt'] at hc ⊢
      exact h.serial i hlt hs j hj ((hatt hlt').mp ha) hc
    · rw [add_last] at hs
      exact absurd rfl hs
  · intro c l hl
    have hmap : update ops.last client (some ops.count) c = some l := hl
    by_cases hc : c = client
    · rw [hc, update_self] at hmap
      rw [← Option.some.inj hmap, add_last]
      exact ⟨Nat.lt_succ_self _, hc.symm⟩
    · rw [update_of_ne hc] at hmap
      obtain ⟨hlt, hcli⟩ := h.last c l hmap
      rw [hold hlt]
      exact ⟨Nat.lt_succ_of_lt hlt, hcli⟩
  · intro i hi ha
    have hself : (ops.add client kind).last client = some ops.count := update_self _ _ _
    rcases hcases hi with hlt | rfl
    · rw [hold hlt]
      by_cases hc : (ops.operation i).client = client
      · rw [hc, hself]
        exact .inr ⟨_, rfl, hlt.le⟩
      · rw [show (ops.add client kind).last (ops.operation i).client = ops.last (ops.operation i).client from
          update_of_ne hc _ _]
        exact h.recorded i hlt ((hatt hlt).mp ha)
    · rw [add_last, hself]
      exact .inr ⟨_, rfl, Nat.le_refl _⟩

variable (i : Nat) (stage : Stage)

theorem setStage_self : (ops.setStage i stage).operation i = { ops.operation i with stage := stage } :=
  update_self _ _ _

theorem setStage_of_ne {i j : Nat} (hne : j ≠ i) (stage : Stage) : (ops.setStage i stage).operation j = ops.operation j :=
  update_of_ne hne _ _

theorem setStage_key (j : Nat) : ((ops.setStage i stage).operation j).client = (ops.operation j).client ∧
      ((ops.setStage i stage).operation j).kind = (ops.operation j).kind ∧
      ((ops.setStage i stage).operation j).previous = (ops.operation j).previous := by
  by_cases hj : j = i
  · rw [hj, setStage_self]
    exact ⟨rfl, rfl, rfl⟩
  · rw [setStage_of_ne hj]
    exact ⟨rfl, rfl, rfl⟩

theorem setStage_attaches (j : Nat) : (ops.setStage i stage).attaches j ↔ ops.attaches j := by
  unfold attaches
  rw [(setStage_key i stage j).2.1]

theorem setStage_done {i : Nat} {stage : Stage} (hnd : (ops.operation i).stage ≠ .done) {j : Nat}
    (hj : (ops.operation j).stage = .done) : ((ops.setStage i stage).operation j).stage = .done := by
  have hne : j ≠ i := by
    intro heq
    rw [heq] at hj
    exact hnd hj
  rw [setStage_of_ne hne]
  exact hj

/-- An operation goes on. -/
theorem Inv.setStage (h : ops.Inv) {i : Nat} {stage : Stage} (hnd : (ops.operation i).stage ≠ .done) (hfirst : ops.first i) :
    (ops.setStage i stage).Inv := by
  refine ⟨?_, ?_, ?_, ?_, ?_⟩
  · intro j p hj hp
    rw [(setStage_key i stage j).2.2] at hp
    rw [(setStage_key i stage j).1, (setStage_key i stage p).1]
    exact h.previous j p hj hp
  · intro j k hjk hk ha hc
    rw [(setStage_key i stage j).1, (setStage_key i stage k).1] at hc
    rw [(setStage_key i stage k).2.2]
    exact (h.order j k hjk hk ((setStage_attaches i stage j).mp ha) hc).imp_left (setStage_done hnd)
  · intro j hj hs k hk ha hc
    rw [(setStage_key i stage j).1, (setStage_key i stage k).1] at hc
    refine setStage_done hnd ?_
    by_cases hji : j = i
    · rw [hji] at hk hc
      exact hfirst k hk ((setStage_attaches i stage k).mp ha) hc
    · rw [setStage_of_ne hji] at hs
      exact h.serial j hj hs k hk ((setStage_attaches i stage k).mp ha) hc
  · intro c l hl
    rw [(setStage_key i stage l).1]
    exact h.last c l hl
  · intro j hj ha
    rw [(setStage_key i stage j).1]
    exact (h.recorded j hj ((setStage_attaches i stage j).mp ha)).imp_left (setStage_done hnd)

theorem finish_operation : (ops.finish i).operation = (ops.setStage i .done).operation := rfl

theorem Inv.finish (h : ops.Inv) {i : Nat} (hi : i < ops.count) (hnd : (ops.operation i).stage ≠ .done) (hfirst : ops.first i) :
    (ops.finish i).Inv := by
  have hset : (ops.setStage i .done).Inv := h.setStage hnd hfirst
  have hlast : ∀ c, (ops.finish i).last c = ops.last c ∨ ((ops.finish i).last c = none ∧ ops.last c = some i) := by
    intro c
    unfold Operations.finish
    dsimp only
    split
    · rename_i hl
      by_cases hc : c = (ops.operation i).client
      · rw [hc, update_self]
        exact .inr ⟨rfl, hl⟩
      · rw [update_of_ne hc]
        exact .inl rfl
    · exact .inl rfl
  refine ⟨hset.previous, hset.order, hset.serial, ?_, ?_⟩
  · intro c l hl
    rcases hlast c with hc | ⟨hnone, -⟩
    · exact hset.last c l (hc ▸ hl)
    · rw [hnone] at hl
      cases hl
  · intro j hj ha
    rcases hset.recorded j hj ha with hdone | ⟨l, hl, hle⟩
    · exact .inl hdone
    · rw [finish_operation]
      rcases hlast ((ops.setStage i .done).operation j).client with hc | ⟨-, hlast⟩
      · rw [hc]
        exact .inr ⟨l, hl, hle⟩
      · -- what was recorded is the operation that finishes
        left
        have hil : i = l := Option.some.inj (hlast.symm.trans hl)
        rw [← hil] at hle
        rcases Nat.lt_or_eq_of_le hle with hlt | rfl
        · refine setStage_done hnd (hfirst j hlt ((setStage_attaches i .done j).mp ha) ?_)
          rw [← (setStage_key i .done j).1]
          exact (h.last _ i hlast).2.symm
        · rw [setStage_self]

theorem Inv.forgetAll (h : ops.Inv) (hdone : ∀ i, i < ops.count → ops.attaches i → (ops.operation i).stage = .done) :
    ({ ops with last := fun _ => none } : Operations).Inv :=
  ⟨h.previous, h.order, h.serial, fun _ _ hl => (nomatch hl), fun i hi ha => .inl (hdone i hi ha)⟩

end Operations

end Shuvpi.Router
