import Shuvpi.RouterContracts

/-!
# Releasing a session

A lease is released when its calls have settled, and a session is removed when no handle is
open for it and none is being opened. Neither holds by itself: a call is admitted while the
release of its attachment is waiting, and a session that is being opened is not removed.
-/
namespace Shuvpi.Router

open Function

namespace Leases

/-- Releases that are waiting have not been called, and they wait for the calls that have not settled. -/
structure Quiet (l : Leases) : Prop where
  waiting : ∀ a, (l.attachment a).releasing = .idle ∨ (∃ before, (l.attachment a).releasing = .operations before) ∨
    (l.attachment a).releasing = .leasing → (l.attachment a).releases = 0
  calls : ∀ k, k < l.callCount → (l.call k).settled = false → (l.attachment (l.call k).attachment).releasing = .idle ∨
    ∃ before, (l.attachment (l.call k).attachment).releasing = .operations before ∧ k < before

variable {l l' : Leases}

variable {k count : Nat}

theorem Quiet.unreleased (q : l.Quiet) (hk : k < l.callCount) (hs : (l.call k).settled = false) :
    (l.attachment (l.call k).attachment).releases = 0 := by
  refine q.waiting _ ?_
  rcases q.calls k hk hs with hidle | ⟨before, hr, -⟩
  · exact .inl hidle
  · exact .inr (.inl ⟨before, hr⟩)

variable {byClient : Nat → Option Nat}

/-- An attachment changes, and with it no call that has not settled is forgotten. -/
theorem Quiet.attachments (q : l.Quiet) {attachment : Nat → ClientAttachment}
    (h : ∀ a, (((attachment a).releasing, (attachment a).releases) = ((l.attachment a).releasing, (l.attachment a).releases)) ∨
      ((attachment a).releasing = .idle ∧ (attachment a).releases = 0) ∨
      ((attachment a).releasing = .operations l.callCount ∧ (l.attachment a).releasing = .idle ∧
        (attachment a).releases = (l.attachment a).releases) ∨
      ((∀ k, k < l.callCount → (l.call k).attachment = a → (l.call k).settled = true) ∧
        ((attachment a).releasing = .leasing ∧ (attachment a).releases = 0 ∨
          (attachment a).releasing ≠ .idle ∧ (∀ before, (attachment a).releasing ≠ .operations before) ∧
            (attachment a).releasing ≠ .leasing))) :
    ({ l with byClient := byClient, count := count, attachment := attachment } : Leases).Quiet where
  waiting := by
    intro a hw
    rcases h a with heq | ⟨-, hz⟩ | ⟨-, hidle, heq⟩ | ⟨-, hl | hl⟩
    · obtain ⟨hrel, hreleases⟩ := Prod.ext_iff.mp heq
      dsimp only at hrel hreleases
      rw [hrel] at hw
      rw [hreleases]
      exact q.waiting a hw
    · exact hz
    · rw [heq]
      exact q.waiting a (.inl hidle)
    · exact hl.2
    · rcases hw with hw | ⟨before, hw⟩ | hw
      · exact absurd hw hl.1
      · exact absurd hw (hl.2.1 before)
      · exact absurd hw hl.2.2
  calls := by
    intro k hk hs
    rcases h (l.call k).attachment with heq | ⟨hidle, -⟩ | ⟨hr, -, -⟩ | ⟨hall, -⟩
    · obtain ⟨hrel, -⟩ := Prod.ext_iff.mp heq
      dsimp only at hrel
      rw [hrel]
      exact q.calls k hk hs
    · exact .inl hidle
    · exact .inr ⟨_, hr, hk⟩
    · rw [hall k hk rfl] at hs
      cases hs

variable {a : Nat} (q : l.Quiet)
include q

theorem Quiet.set {x : ClientAttachment}
    (h : ((x.releasing, x.releases) = ((l.attachment a).releasing, (l.attachment a).releases)) ∨
      (x.releasing = .idle ∧ x.releases = 0) ∨
      ((∀ k, k < l.callCount → (l.call k).attachment = a → (l.call k).settled = true) ∧
        (x.releasing = .leasing ∧ x.releases = 0 ∨
          x.releasing ≠ .idle ∧ (∀ before, x.releasing ≠ .operations before) ∧ x.releasing ≠ .leasing))) :
    ({ l with byClient := byClient, count := count, attachment := update l.attachment a x } : Leases).Quiet := by
  refine q.attachments fun b => ?_
  by_cases hb : b = a
  · rw [hb, update_self]
    exact h.imp_right fun h => h.imp_right .inr
  · rw [update_of_ne hb]
    exact .inl rfl

/-- No call is running on an attachment whose release waits for no calls. -/
theorem Quiet.all_settled (hidle : (l.attachment a).releasing ≠ .idle)
    (hoperations : ∀ before, (l.attachment a).releasing = .operations before →
      (List.range before).all (fun k => (l.call k).attachment ≠ a || (l.call k).settled) = true) (hk : k < l.callCount)
    (ha : (l.call k).attachment = a) : (l.call k).settled = true := by
  cases hs : (l.call k).settled with
  | true => rfl
  | false =>
    rcases q.calls k hk hs with hno | ⟨before, hr, hlt⟩
    · rw [ha] at hno
      exact absurd hno hidle
    · rw [ha] at hr
      have hall := List.all_eq_true.mp (hoperations before hr) k (List.mem_range.mpr hlt)
      rw [ha, hs] at hall
      simp at hall

theorem Quiet.clear (hsettled : ∀ k, k < l.callCount → (l.call k).attachment = a → (l.call k).settled = true)
    (fulfilled : Bool) : (l.clear a fulfilled).Quiet := by
  have hboth : ∀ releasing : Releasing, releasing = .clearing fulfilled ∨ releasing = .settled fulfilled →
      ∀ byClient : Nat → Option Nat, ({ l with
        byClient := byClient
        attachment := update l.attachment a { l.attachment a with member := false, releasing := releasing } } : Leases).Quiet := by
    intro releasing hr byClient
    refine q.set (.inr (.inr ⟨hsettled, .inr ?_⟩))
    rcases hr with rfl | rfl <;> simp
  unfold Leases.clear
  dsimp only
  split
  · split
    · exact hboth _ (.inl rfl) _
    · exact hboth _ (.inr rfl) _
  · exact hboth _ (.inr rfl) _

theorem Quiet.step (h : Step l l') : l'.Quiet := by
  cases h with
  | releaseAll taken publish =>
    refine q.attachments fun a => ?_
    split
    · rcases (l.attachment a).release_cases l.callCount publish with ⟨hidle, hr⟩ | ⟨-, hr⟩
      · rw [hr]
        exact .inr (.inr (.inl ⟨rfl, hidle, rfl⟩))
      · rw [hr]
        exact .inl rfl
    · exact .inl rfl
  | setLease | dropMember => exact q.set (.inl rfl)
  | create client session operation => exact q.set (.inr (.inl ⟨rfl, rfl⟩))
  | register | forgetClients => exact ⟨q.waiting, q.calls⟩
  | settle k =>
    refine ⟨q.waiting, ?_⟩
    intro k' hk hs
    have hs : (update l.call k { l.call k with settled := true } k').settled = false := hs
    have hne : k' ≠ k := by
      intro heq
      rw [heq, update_self] at hs
      cases hs
    rw [update_of_ne hne] at hs
    unfold Leases.settle
    dsimp only
    rw [update_of_ne hne]
    exact q.calls k' hk hs
  | acquired h =>
    unfold Leases.acquired at h
    split at h
    · cases h
      exact q.set (.inl rfl)
    · cases h
  | resume h =>
    rename_i a
    unfold Leases.resume at h
    dsimp only at h
    split at h
    · rename_i before hr
      split at h
      · rename_i hall
        have hsettled : ∀ k, k < l.callCount → (l.call k).attachment = a → (l.call k).settled = true := by
          intro k hk ha
          refine q.all_settled (by rw [hr]; simp) ?_ hk ha
          intro before' hr'
          rw [← Releasing.operations.inj (hr.symm.trans hr')]
          exact hall
        split at h
        · cases h
          exact q.set (.inr (.inr ⟨hsettled, .inr (by simp)⟩))
        · cases h
          exact q.set (.inr (.inr ⟨hsettled, .inl ⟨rfl, q.waiting a (.inr (.inl ⟨before, hr⟩))⟩⟩))
      · cases h
    · rename_i hr
      have hsettled : ∀ k, k < l.callCount → (l.call k).attachment = a → (l.call k).settled = true := by
        intro k hk ha
        refine q.all_settled (by rw [hr]; simp) ?_ hk ha
        intro before hr'
        exact nomatch hr.symm.trans hr'
      split at h
      · cases h
      · cases h
        exact q.set (.inr (.inr ⟨hsettled, .inr (by simp)⟩))
      · cases h
        exact q.clear hsettled false
    · cases h
  | released h =>
    unfold Leases.released at h
    split at h
    · rename_i hr
      cases h
      refine q.clear ?_ _
      intro k hk ha
      refine q.all_settled (by rw [hr]; simp) ?_ hk ha
      intro before hr'
      exact nomatch hr.symm.trans hr'
    · cases h
  | published h =>
    unfold Leases.published at h
    split at h
    · rename_i earlier hr
      cases h
      refine q.set (.inr (.inr ⟨?_, .inr (by simp)⟩))
      intro k hk ha
      refine q.all_settled (by rw [hr]; simp) ?_ hk ha
      intro before hr'
      exact nomatch hr.symm.trans hr'
    · cases h

theorem Quiet.steps (h : Steps l l') : l'.Quiet := by
  induction h with
  | refl => exact q
  | tail _ h ih => exact ih.step h

theorem Quiet.invoke {a client : Nat} {target : String × Nat} (ha : (l.attachment a).releasing = .idle) :
    (l.invoke a client target).Quiet := by
  refine ⟨q.waiting, ?_⟩
  intro k hk hs
  unfold Leases.invoke at hk hs ⊢
  dsimp only at hk hs ⊢
  by_cases hne : k = l.callCount
  · rw [hne, update_self]
    exact .inl ha
  · rw [update_of_ne hne] at hs ⊢
    exact q.calls k (Nat.lt_of_le_of_ne (Nat.le_of_lt_succ hk) hne) hs

end Leases

end Shuvpi.Router
