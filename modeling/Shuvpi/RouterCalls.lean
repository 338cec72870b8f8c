import Shuvpi.RouterRuns

/-!
# Calls and sessions, step by step

What a step of the router does to the leases and to the sessions, each for itself. A call is
invoked only when an operation that calls begins; an opening is made only when an operation
that attaches begins.
-/
open Option

namespace Shuvpi.Router

open Function

namespace Leases

/-- What a step does to the leases, but for invoking a call. -/
inductive Step (l : Leases) : Leases → Prop where
  | releaseAll (taken : Nat → Bool) (publish : Bool) : Step l (l.releaseAll taken publish)
  | setLease (a : Nat) (h : (l.attachment a).acquiring = .fulfilled) : Step l (l.set a { l.attachment a with lease := true })
  | dropMember (a : Nat) (h : (l.attachment a).acquiring = .rejected) : Step l (l.set a { l.attachment a with member := false })
  | create (client session operation : Nat) : Step l (l.create client session operation)
  | register (a : Nat) : Step l (l.register a)
  | acquired {a : Nat} {fulfilled : Bool} {l' : Leases} (h : l.acquired a fulfilled = some l') : Step l l'
  | resume {a : Nat} {l' : Leases} (h : l.resume a = some l') : Step l l'
  | released {a : Nat} {fulfilled : Bool} {l' : Leases} (h : l.released a fulfilled = some l') : Step l l'
  | published {a : Nat} {fulfilled : Bool} {l' : Leases} (h : l.published a fulfilled = some l') : Step l l'
  | settle (k : Nat) : Step l (l.settle k)
  | forgetClients : Step l { l with byClient := fun _ => none }

/-- Any number of steps. -/
def Steps : Leases → Leases → Prop := Relation.ReflTransGen Step

variable {l l' : Leases}

theorem Step.steps (h : Step l l') : Steps l l' := .single h

theorem clear_calls (l : Leases) (a : Nat) (fulfilled : Bool) :
    (l.clear a fulfilled).callCount = l.callCount ∧ (l.clear a fulfilled).call = l.call := by
  unfold clear
  dsimp only
  split <;> exact ⟨rfl, rfl⟩

theorem Step.callCount (h : Step l l') : l'.callCount = l.callCount := by
  cases h with
  | acquired h =>
    unfold Leases.acquired at h
    split at h
    · cases h
      rfl
    · cases h
  | resume h =>
    unfold Leases.resume at h
    dsimp only at h
    split at h
    · split at h
      · split at h <;> cases h <;> rfl
      · cases h
    · split at h
      · cases h
      · cases h
        rfl
      · cases h
        exact (clear_calls _ _ _).1
    · cases h
  | released h =>
    unfold Leases.released at h
    split at h
    · cases h
      exact (clear_calls _ _ _).1
    · cases h
  | published h =>
    unfold Leases.published at h
    split at h
    · cases h
      rfl
    · cases h
  | releaseAll | setLease | dropMember | create | register | settle | forgetClients => rfl

theorem Steps.callCount (h : Steps l l') : l'.callCount = l.callCount := by
  induction h with
  | refl => rfl
  | tail _ h ih => exact h.callCount.trans ih

end Leases

namespace World

variable {w w' : World}

open Leases (Step Steps)

theorem acquiredSession_leases (i client session : Nat) (current : Option Nat) :
    Steps w.leases (w.acquiredSession i client session current).leases := by
  unfold World.acquiredSession
  split
  · exact .refl
  · cases current with
    | some a => exact (Step.releaseAll (fun b => b = a) false).steps
    | none => exact (Step.create client session i).steps

theorem acquiredLease_leases (i a : Nat) (h : (w.leases.attachment a).acquiring = .fulfilled) :
    Steps w.leases (w.acquiredLease i a).leases := by
  have hlease := (Step.setLease a h).steps
  unfold World.acquiredLease
  dsimp only
  split
  · exact hlease.tail (.releaseAll (fun b => b = a) true)
  · exact hlease.tail (.register a)

theorem resume_leases {i : Nat} (hw : w.resume i = some w') : Steps w.leases w'.leases := by
  unfold World.resume at hw
  split at hw
  · unfold World.resumeStage at hw
    dsimp only at hw
    split at hw
    · cases hw
    · cases hw
    · unfold World.resumeAcquiring at hw
      split at hw
      · cases hw
        exact acquiredSession_leases _ _ _ _
      · split at hw
        · cases hw
        · split at hw
          · cases hw
            exact acquiredSession_leases _ _ _ _
          · cases hw
            exact .refl
          · cases hw
            exact .refl
          · cases hw
    · rename_i session a hs
      obtain ⟨fulfilled, -, hw⟩ := map_eq_some_iff.mp hw
      cases fulfilled with
      | true =>
        cases hw
        exact (Step.create _ _ _).steps
      | false =>
        cases hw
        exact .refl
    · unfold World.resumeAttaching at hw
      split at hw
      · cases hw
      · rename_i h
        cases hw
        exact acquiredLease_leases i _ h
      · rename_i h
        cases hw
        exact (Step.dropMember _ h).steps
    · obtain ⟨fulfilled, -, hw⟩ := map_eq_some_iff.mp hw
      cases hw
      exact .refl
    · obtain ⟨fulfilled, -, hw⟩ := map_eq_some_iff.mp hw
      cases hw
      exact .refl
    · cases hw
      exact .refl
  · cases hw

/-- An operation begins: it invokes the call that it is, or no call. -/
theorem begin_leases {i : Nat} (hw : w.begin i = some w') : Steps w.leases w'.leases ∨
    ∃ a, (w.operations.operation i).kind = .call (some (w.sessionOf a, a)) ∧
      w.requireAttachment (w.operations.operation i).client (some (w.sessionOf a, a)) = some (a, (w.sessionOf a, a)) ∧
        w'.leases = w.leases.invoke a (w.operations.operation i).client (w.sessionOf a, a) := by
  unfold World.begin at hw
  dsimp only at hw
  split at hw
  · split at hw
    · cases hw
      left
      unfold World.attachNow
      split
      · exact .refl
      · dsimp only
        split
        · exact .refl
        · split <;> exact .refl
    · cases hw
      left
      unfold World.releaseCurrent
      split
      · rename_i a _
        exact (Step.releaseAll (fun b => b = a) true).steps
      · exact .refl
    · cases hw
      left
      unfold World.releaseCurrent
      split
      · rename_i a _
        exact (Step.releaseAll (fun b => b = a) false).steps
      · exact .refl
    · rename_i target hk
      cases hw
      unfold World.startServiceCall
      split
      · rename_i a named hr
        obtain ⟨-, hsess, hattachment, rfl⟩ := requireAttachment_some hr
        have hnamed : named = (w.sessionOf a, a) := Prod.ext hsess hattachment
        rw [hnamed] at hk hr ⊢
        exact .inr ⟨a, hk, hr, rfl⟩
      · exact .inl .refl
  · cases hw

/-- A step invokes a call only when an operation that calls begins, on the attachment that its target names. -/
theorem step_leases {event : Event} (hw : w.step event = some w') : Steps w.leases w'.leases ∨
    ∃ i a, event = .begin i ∧ (w.operations.operation i).kind = .call (some (w.sessionOf a, a)) ∧
      w.requireAttachment (w.operations.operation i).client (some (w.sessionOf a, a)) = some (a, (w.sessionOf a, a)) ∧
        w'.leases = w.leases.invoke a (w.operations.operation i).client (w.sessionOf a, a) := by
  cases event with
  | begin i =>
    refine (begin_leases hw).imp_right ?_
    rintro ⟨a, h⟩
    exact ⟨i, a, rfl, h⟩
  | resume i => exact .inl (resume_leases hw)
  | attachClient client sessionId =>
    cases hw
    unfold World.attachClient
    left
    split <;> exact .refl
  | detachClient | disconnect | executeServiceCall | drain =>
    cases hw
    exact .inl .refl
  | removeSession sessionId =>
    cases hw
    unfold World.removeSession
    left
    split
    · exact .refl
    · dsimp only
      split
      · exact .refl
      · exact (Step.releaseAll _ true).steps
  | close =>
    have hw : w.close = some w' := hw
    unfold World.close at hw
    left
    split at hw
    · split at hw <;> cases hw <;> exact .refl
    · cases hw
  | acquired a fulfilled =>
    obtain ⟨l, hl, rfl⟩ := map_eq_some_iff.mp hw
    exact .inl (Step.acquired hl).steps
  | resumeRelease a =>
    obtain ⟨l, hl, rfl⟩ := map_eq_some_iff.mp hw
    exact .inl (Step.resume hl).steps
  | released a fulfilled =>
    obtain ⟨l, hl, rfl⟩ := map_eq_some_iff.mp hw
    exact .inl (Step.released hl).steps
  | published a fulfilled =>
    obtain ⟨l, hl, rfl⟩ := map_eq_some_iff.mp hw
    exact .inl (Step.published hl).steps
  | callSettled k =>
    cases hw
    exact .inl (Step.settle k).steps
  | resumeRemoval r =>
    have hw : w.resumeRemoval r = some w' := hw
    unfold World.resumeRemoval at hw
    left
    split at hw
    · split at hw <;> cases hw
      exact .refl
    · cases hw
  | removalClosed r fulfilled =>
    have hw : w.removalClosed r fulfilled = some w' := hw
    unfold World.removalClosed at hw
    left
    split at hw
    · dsimp only at hw
      split at hw <;> cases hw
      exact .refl
    · cases hw
  | invalidate x =>
    have hw : w.invalidate x = some w' := hw
    unfold World.invalidate at hw
    left
    split at hw
    · split at hw <;> cases hw
      · exact (Step.releaseAll _ true).steps
      · exact .refl
    · cases hw
  | resumeClose =>
    have hw : w.resumeClose = some w' := hw
    unfold World.resumeClose at hw
    left
    split at hw
    · split at hw <;> cases hw
      exact (Step.releaseAll _ true).steps
    · split at hw <;> cases hw
      exact .refl
    · cases hw
      exact Step.forgetClients.steps
    · cases hw
  | handleClosed x fulfilled =>
    have hw : w.handleClosed x fulfilled = some w' := hw
    unfold World.handleClosed at hw
    left
    split at hw
    · split at hw
      · split at hw <;> cases hw <;> exact .refl
      · cases hw
    · cases hw
  | _ =>
    obtain ⟨s, -, rfl⟩ := map_eq_some_iff.mp hw
    exact .inl .refl

end World

end Shuvpi.Router
