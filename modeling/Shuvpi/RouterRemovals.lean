import Shuvpi.RouterQuiescence

/-!
# Removing a session

While a session is removed nothing opens it, so that the handle which the removal closes is the
last one.
-/
open List Option

namespace Shuvpi.Router

open Function

namespace Sessions

/-- What a step does to the sessions, but for opening one. -/
inductive Step (s : Sessions) : Sessions → Prop where
  | drain : Step s { s with closing := true }
  | resolved {o : Nat} {fulfilled : Bool} {s' : Sessions} (h : s.resolved o fulfilled = some s') : Step s s'
  | opened {o : Nat} {fulfilled : Bool} {s' : Sessions} (h : s.opened o fulfilled = some s') : Step s s'
  | drained {o : Nat} {fulfilled : Bool} {s' : Sessions} (h : s.drained o fulfilled = some s') : Step s s'
  | forget {o : Nat} {s' : Sessions} (h : s.forget o = some s') : Step s s'
  | terminate {x : Nat} {s' : Sessions} (h : s.terminate x = some s') : Step s s'
  | closeHandle (x : Nat) : Step s (s.closeHandle x)
  | delete (x : Nat) (h : (s.handle x).closed = true ∨ (s.handle x).terminated = true) : Step s (s.delete x)

def Steps : Sessions → Sessions → Prop := Relation.ReflTransGen Step

variable {s s' : Sessions}

theorem Inv.step (i : s.Inv) (h : Step s s') : s'.Inv := by
  cases h with
  | drain => exact i.drain
  | resolved h => exact i.resolved h
  | opened h => exact i.opened h
  | drained h => exact i.drained h
  | forget h => exact i.forget h
  | terminate h => exact i.terminate h
  | closeHandle x => exact i.closeHandle x
  | delete x h => exact i.delete h

variable {x : Nat}

/-- Handles that are closed stay closed. -/
theorem Step.closed (h : Step s s') (hx : x < s.handleCount ∧ (s.handle x).closed = true) :
    x < s'.handleCount ∧ (s'.handle x).closed = true := by
  have hset : ∀ (y : Nat) (handle : Handle), ((s.handle y).closed = true → handle.closed = true) →
      x < s.handleCount ∧ (update s.handle y handle x).closed = true := by
    intro y handle hkept
    refine ⟨hx.1, ?_⟩
    by_cases hne : x = y
    · rw [hne, update_self]
      exact hkept (hne ▸ hx.2)
    · rw [update_of_ne hne]
      exact hx.2
  cases h with
  | drain => exact hx
  | resolved h =>
    unfold Sessions.resolved at h
    split at h <;> cases h
    exact hx
  | opened h =>
    rename_i o fulfilled
    unfold Sessions.opened at h
    have hadded : x < s.handleCount + 1 ∧ ((s.addHandle (s.openings o).id).handle x).closed = true := by
      rw [addHandle_of_ne _ hx.1.ne]
      exact ⟨Nat.lt_succ_of_lt hx.1, hx.2⟩
    split at h
    · split at h
      · dsimp only at h
        split at h <;> cases h <;> exact hadded
      · cases h
        exact hx
    · cases h
  | drained h =>
    unfold Sessions.drained at h
    split at h
    · split at h
      · cases h
        exact hset _ _ fun _ => rfl
      · cases h
        exact hx
    · cases h
  | forget h =>
    unfold Sessions.forget at h
    split at h <;> cases h
    exact hx
  | terminate h =>
    unfold Sessions.terminate at h
    split at h <;> cases h
    exact hset _ _ id
  | closeHandle y => exact hset _ _ fun _ => rfl
  | delete y h =>
    rw [delete_handle]
    unfold Sessions.delete
    split <;> exact hx

theorem Steps.closed (h : Steps s s') (hx : x < s.handleCount ∧ (s.handle x).closed = true) :
    x < s'.handleCount ∧ (s'.handle x).closed = true := by
  induction h with
  | refl => exact hx
  | tail _ h ih => exact h.closed ih

theorem Step.handleCount (h : Step s s') : s.handleCount ≤ s'.handleCount := by
  cases h with
  | drain | closeHandle => exact Nat.le_refl _
  | resolved h =>
    unfold Sessions.resolved at h
    split at h <;> cases h
    exact Nat.le_refl _
  | opened h =>
    unfold Sessions.opened at h
    split at h
    · split at h
      · dsimp only at h
        split at h <;> cases h <;> exact Nat.le_succ _
      · cases h
        exact Nat.le_refl _
    · cases h
  | drained h =>
    unfold Sessions.drained at h
    split at h
    · split at h <;> cases h <;> exact Nat.le_refl _
    · cases h
  | forget h =>
    unfold Sessions.forget at h
    split at h <;> cases h
    exact Nat.le_refl _
  | terminate h =>
    unfold Sessions.terminate at h
    split at h <;> cases h
    exact Nat.le_refl _
  | delete y h =>
    unfold Sessions.delete
    split <;> exact Nat.le_refl _

theorem Steps.handleCount (h : Steps s s') : s.handleCount ≤ s'.handleCount := by
  induction h with
  | refl => exact Nat.le_refl _
  | tail _ h ih => exact ih.trans h.handleCount

theorem Inv.steps (i : s.Inv) (h : Steps s s') : s'.Inv := by
  induction h with
  | refl => exact i
  | tail _ h ih => exact ih.step h

/-- Sessions whose handles are closed leave the map in steps. -/
theorem deleteAll_steps {handles : List Nat} (hh : ∀ x ∈ handles, (s.handle x).closed = true) :
    Steps s (handles.foldl Sessions.delete s) := by
  induction handles generalizing s with
  | nil => exact .refl
  | cons x handles ih =>
    refine .head (.delete x (.inl (hh x mem_cons_self))) (ih ?_)
    intro y hy
    rw [delete_handle]
    exact hh y (mem_cons_of_mem _ hy)

/-- The session is that of the handle which is being removed, and nothing opens it. -/
structure Removing (s : Sessions) (id : String) (x : Nat) : Prop where
  below : x < s.handleCount
  named : (s.handle x).id = id
  idle : ∀ o, o < s.openingCount → (s.openings o).id = id → (s.openings o).stage.busy = false
  hosted : s.hosted id = none ∨ s.hosted id = some x

variable {id : String}

/-- Openings go on. -/
theorem Removing.setStage (r : s.Removing id x) (o : Nat) (stage : OpeningStage)
    (ho : (s.openings o).stage.busy = true ∨ stage.busy = false) : (s.setStage o stage).Removing id x := by
  refine ⟨r.below, r.named, ?_, r.hosted⟩
  intro o' ho' hid
  by_cases hne : o' = o
  · rw [hne, setStage_self] at hid ⊢
    rcases ho with hbusy | hidle
    · rw [r.idle o (hne ▸ ho') hid] at hbusy
      cases hbusy
    · exact hidle
  · rw [setStage_of_ne hne] at hid ⊢
    exact r.idle o' ho' hid

theorem Removing.setHandle (r : s.Removing id x) {y : Nat} {handle : Handle}
    (hid : handle.id = (s.handle y).id) : ({ s with handle := update s.handle y handle } : Sessions).Removing id x := by
  refine ⟨r.below, ?_, r.idle, r.hosted⟩
  dsimp only
  by_cases hne : x = y
  · rw [hne, update_self, hid, ← hne]
    exact r.named
  · rw [update_of_ne hne]
    exact r.named

theorem Removing.step (r : s.Removing id x) (h : Step s s') : s'.Removing id x := by
  cases h with
  | drain => exact ⟨r.below, r.named, r.idle, r.hosted⟩
  | resolved h =>
    unfold Sessions.resolved at h
    split at h
    · rename_i ho
      cases h
      exact r.setStage _ _ (.inl (by rw [ho.2]; rfl))
    · cases h
  | opened h =>
    rename_i o fulfilled
    unfold Sessions.opened at h
    split at h
    · rename_i ho
      have hname : (s.openings o).id ≠ id := by
        intro heq
        have hidle := r.idle o ho.1 heq
        rw [ho.2] at hidle
        cases hidle
      have hbusy : (s.openings o).stage.busy = true := by
        rw [ho.2]
        rfl
      have hadded : (s.addHandle (s.openings o).id).Removing id x := by
        refine ⟨Nat.lt_succ_of_lt r.below, ?_, r.idle, r.hosted⟩
        rw [addHandle_of_ne _ r.below.ne]
        exact r.named
      split at h
      · dsimp only at h
        split at h
        · cases h
          exact hadded.setStage _ _ (.inl hbusy)
        · cases h
          have hset := hadded.setStage o (.hosted s.handleCount) (.inl hbusy)
          refine ⟨hset.below, hset.named, hset.idle, ?_⟩
          dsimp only
          rw [update_of_ne hname.symm]
          exact r.hosted
      · cases h
        exact r.setStage _ _ (.inl hbusy)
    · cases h
  | drained h =>
    unfold Sessions.drained at h
    split at h
    · rename_i y hstage
      split at h
      · cases h
        have hclosed : (s.closeHandle y).Removing id x := r.setHandle rfl
        exact hclosed.setStage _ .failed (.inr rfl)
      · cases h
        exact r.setStage _ _ (.inl (by rw [hstage]; rfl))
    · cases h
  | forget h =>
    unfold Sessions.forget at h
    split at h
    · cases h
      exact ⟨r.below, r.named, r.idle, r.hosted⟩
    · cases h
  | terminate h =>
    unfold Sessions.terminate at h
    split at h
    · cases h
      exact r.setHandle rfl
    · cases h
  | closeHandle y => exact r.setHandle rfl
  | delete y h =>
    unfold Sessions.delete
    split
    · refine ⟨r.below, r.named, r.idle, ?_⟩
      dsimp only
      by_cases hname : id = (s.handle y).id
      · rw [hname, update_self]
        exact .inl rfl
      · rw [update_of_ne hname]
        exact r.hosted
    · exact r

theorem Removing.steps (r : s.Removing id x) (h : Steps s s') : s'.Removing id x := by
  induction h with
  | refl => exact r
  | tail _ h ih => exact ih.step h

/-- Another session is opened. -/
theorem Removing.open_ {id id' : String} (r : s.Removing id x) (hne : id' ≠ id) : (s.open_ id').Removing id x := by
  refine ⟨r.below, r.named, ?_, r.hosted⟩
  intro o ho hid
  by_cases hlast : o = s.openingCount
  · have hself : (s.open_ id').openings o = ⟨id', .resolving⟩ := by
      rw [hlast]
      exact update_self _ _ _
    rw [hself] at hid
    exact absurd hid hne
  · have hold : (s.open_ id').openings o = s.openings o := update_of_ne hlast _ _
    rw [hold] at hid ⊢
    exact r.idle o (Nat.lt_of_le_of_ne (Nat.le_of_lt_succ ho) hlast) hid

/-- When the handle that is removed is closed, no handle is open for the session. -/
theorem Removing.none_open (r : s.Removing id x) (i : s.Inv) (hclosed : (s.handle x).closed = true) {y : Nat} (hy : s.isOpen y) :
    (s.handle y).id ≠ id := by
  intro hid
  rcases i.present y hy with hhosted | ⟨o, ho, hoid, hs⟩
  · rw [hid] at hhosted
    rcases r.hosted with hnone | hsome
    · rw [hnone] at hhosted
      cases hhosted
    · rw [hsome] at hhosted
      have hopen := hy.2.1
      rw [← some.inj hhosted, hclosed] at hopen
      cases hopen
  · have hbusy := r.idle o ho (hoid.trans hid)
    rw [holds_busy hs] at hbusy
    cases hbusy

end Sessions

namespace World

variable {w w' : World}

open Sessions (Steps)

/-- A removal of the session is at work. -/
def removes (w : World) (id : String) : Bool :=
  (List.range w.removalCount).any fun r =>
    (w.removal r).id = id && (w.removal r).session.isSome && match (w.removal r).stage with
      | .settled _ => false
      | _ => true

/-- The session that an operation opens when it begins. -/
def opensFor (w : World) (i : Nat) : Option String :=
  let x := w.operations.operation i
  match x.kind with
  | .attach id =>
    if w.refuses x.client || (w.leases.byClient x.client).any (fun a => w.sessionOf a = id) || (w.sessions.hosted id).isSome ||
        (w.sessions.opening id).isSome then none
    else some id
  | _ => none

/-- The attachment that an operation calls when it begins. -/
def callsOn (w : World) (i : Nat) : Option Nat :=
  match (w.operations.operation i).kind with
  | .call target => (w.requireAttachment (w.operations.operation i).client target).map (·.1)
  | _ => none

/-- What keeps releases quiescent: no call is admitted on an attachment whose release has begun; a session is not opened while
it is removed, nor removed while it is opened; and no handle that a removal cannot close is still open. -/
def quiet (w : World) : Event → Bool
  | .begin i => ((w.callsOn i).all fun a => (w.leases.attachment a).releasing = .idle) && (w.opensFor i).all fun id => !w.removes id
  | .removeSession id => (List.range w.sessions.openingCount).all fun o =>
      (w.sessions.openings o).id ≠ id || !(w.sessions.openings o).stage.busy
  | .removalClosed r fulfilled =>
    fulfilled || (w.removal r).session.all fun h => (w.sessions.handle h).closed || (w.sessions.handle h).terminated
  | _ => true

def quietRun (w : World) : List Event → Bool
  | [] => true
  | event :: events => w.quiet event && ((w.step event).all fun w => w.quietRun events)

structure Calm (w : World) : Prop where
  leases : w.leases.Quiet
  sessions : w.sessions.Inv
  closing : ∀ handles fulfilled, w.closer = .closing handles fulfilled → (∀ x ∈ handles, x < w.sessions.handleCount) ∧
    ∀ x ∈ fulfilled, x < w.sessions.handleCount ∧ (w.sessions.handle x).closed = true
  removals : ∀ r x, r < w.removalCount → (w.removal r).session = some x → (∀ fulfilled, (w.removal r).stage ≠ .settled fulfilled) →
    w.sessions.Removing (w.removal r).id x

theorem initial_calm : initial.Calm where
  leases := ⟨fun _ _ => rfl, fun _ hk => absurd hk (Nat.not_lt_zero _)⟩
  sessions := Sessions.initial_inv
  closing := fun _ _ h => nomatch h
  removals := fun _ _ hr => absurd hr (Nat.not_lt_zero _)

/-- A removal that is at work was at work before, or it is checked by itself. -/
theorem Calm.of (c : w.Calm) (hl : w'.leases.Quiet) (hs : Steps w.sessions w'.sessions)
    (hclos : ∀ handles fulfilled, w'.closer = .closing handles fulfilled → w.closer = .closing handles fulfilled ∨
      (∀ x ∈ handles, x < w'.sessions.handleCount) ∧
        ∀ x ∈ fulfilled, x < w'.sessions.handleCount ∧ (w'.sessions.handle x).closed = true)
    (hremovals : ∀ r x, r < w'.removalCount → (w'.removal r).session = some x →
      (∀ fulfilled, (w'.removal r).stage ≠ .settled fulfilled) →
        (r < w.removalCount ∧ (w.removal r).id = (w'.removal r).id ∧ (w.removal r).session = some x ∧
          ∀ fulfilled, (w.removal r).stage ≠ .settled fulfilled) ∨ w'.sessions.Removing (w'.removal r).id x) : w'.Calm where
  leases := hl
  sessions := c.sessions.steps hs
  closing := by
    intro handles fulfilled h
    rcases hclos handles fulfilled h with hold | hnew
    · obtain ⟨hhs, hful⟩ := c.closing handles fulfilled hold
      exact ⟨fun x hx => (hhs x hx).trans_le hs.handleCount, fun x hx => hs.closed (hful x hx)⟩
    · exact hnew
  removals := by
    intro r x hr hsess hstage
    rcases hremovals r x hr hsess hstage with ⟨hlt, hid, hsess, hstage⟩ | hnew
    · rw [← hid]
      exact (c.removals r x hlt hsess hstage).steps hs
    · exact hnew

/-- Neither the removals nor shutdown change. -/
theorem Calm.keep (c : w.Calm) (hl : w'.leases.Quiet) (hs : Steps w.sessions w'.sessions) (hclos : w'.closer = w.closer)
    (hcount : w'.removalCount = w.removalCount) (hrem : w'.removal = w.removal) : w'.Calm := by
  refine c.of hl hs (fun handles fulfilled h => .inl (hclos ▸ h)) ?_
  intro r x hr hsess hstage
  rw [hrem] at hsess hstage ⊢
  exact .inl ⟨hcount ▸ hr, rfl, hsess, hstage⟩

variable {i : Nat}

/-- What an operation that begins does to the sessions. -/
theorem begin_sessions (hw : w.begin i = some w') : w'.closer = w.closer ∧ w'.removalCount = w.removalCount ∧
    w'.removal = w.removal ∧ (w'.sessions = w.sessions ∨ ∃ id, w.opensFor i = some id ∧ w.sessions.closing = false ∧
      w.sessions.hosted id = none ∧ w.sessions.opening id = none ∧ w'.sessions = w.sessions.open_ id) := by
  unfold World.begin at hw
  dsimp only at hw
  split at hw
  · split at hw
    · rename_i sessionId hk
      cases hw
      unfold World.attachNow
      split
      · exact ⟨rfl, rfl, rfl, .inl rfl⟩
      · rename_i href
        dsimp only
        split
        · exact ⟨rfl, rfl, rfl, .inl rfl⟩
        · rename_i hcur
          split
          · exact ⟨rfl, rfl, rfl, .inl rfl⟩
          · exact ⟨rfl, rfl, rfl, .inl rfl⟩
          · rename_i hhosted hopens
            refine ⟨rfl, rfl, rfl, .inr ⟨sessionId, ?_, ?_, hhosted, hopens, rfl⟩⟩
            · unfold opensFor
              dsimp only
              rw [hk]
              dsimp only
              rw [Bool.not_eq_true] at href hcur
              rw [href, hcur, hhosted, hopens]
              rfl
            · unfold refuses at href
              rw [Bool.or_eq_true, not_or, Bool.not_eq_true] at href
              exact href.1
    · cases hw
      unfold World.releaseCurrent
      split <;> exact ⟨rfl, rfl, rfl, .inl rfl⟩
    · cases hw
      unfold World.releaseCurrent
      split <;> exact ⟨rfl, rfl, rfl, .inl rfl⟩
    · cases hw
      unfold World.startServiceCall
      split <;> exact ⟨rfl, rfl, rfl, .inl rfl⟩
  · cases hw

theorem removes_of {r x : Nat} (hr : r < w.removalCount) (hsess : (w.removal r).session = some x)
    (hstage : ∀ fulfilled, (w.removal r).stage ≠ .settled fulfilled) : w.removes (w.removal r).id = true := by
  unfold removes
  rw [List.any_eq_true]
  refine ⟨r, List.mem_range.mpr hr, ?_⟩
  rw [hsess]
  cases hs : (w.removal r).stage with
  | settled fulfilled => exact absurd hs (hstage fulfilled)
  | releasing | closing => simp

theorem Calm.begin (c : w.Calm) (hq : w.quiet (.begin i) = true) (hw : w.begin i = some w') : w'.Calm := by
  have hq : (((w.callsOn i).all fun a => (w.leases.attachment a).releasing = .idle) &&
      (w.opensFor i).all fun id => !w.removes id) = true := hq
  rw [Bool.and_eq_true] at hq
  have hl : w'.leases.Quiet := by
    rcases begin_leases hw with hsteps | ⟨a, hk, hr, hl⟩
    · exact c.leases.steps hsteps
    · rw [hl]
      refine c.leases.invoke ?_
      have hcalls : w.callsOn i = some a := by
        unfold callsOn
        rw [hk]
        dsimp only
        rw [hr]
        rfl
      have hidle := hq.1
      rw [hcalls] at hidle
      exact of_decide_eq_true hidle
  obtain ⟨hclos, hcount, hrem, hs | ⟨id, hopens, hopen, hhosted, hopening, hs⟩⟩ := begin_sessions hw
  · exact c.keep hl (hs ▸ .refl) hclos hcount hrem
  · have hfree := hq.2
    rw [hopens, all_some, Bool.not_eq_true'] at hfree
    refine ⟨hl, ?_, ?_, ?_⟩
    · rw [hs]
      exact c.sessions.open_ hopen hhosted hopening
    · rw [hs, hclos]
      exact c.closing
    · intro r x hr hsess hstage
      rw [hcount] at hr
      rw [hrem] at hsess hstage ⊢
      rw [hs]
      refine (c.removals r x hr hsess hstage).open_ ?_
      rintro rfl
      rw [removes_of hr hsess hstage] at hfree
      cases hfree

theorem acquiredSession_sessions (i client session : Nat) (current : Option Nat) :
    (w.acquiredSession i client session current).sessions = w.sessions ∧
      (w.acquiredSession i client session current).closer = w.closer ∧
      (w.acquiredSession i client session current).removalCount = w.removalCount ∧
      (w.acquiredSession i client session current).removal = w.removal := by
  unfold World.acquiredSession
  split
  · exact ⟨rfl, rfl, rfl, rfl⟩
  · cases current <;> exact ⟨rfl, rfl, rfl, rfl⟩

theorem resume_sessions (hw : w.resume i = some w') : w'.sessions = w.sessions ∧ w'.closer = w.closer ∧
    w'.removalCount = w.removalCount ∧ w'.removal = w.removal := by
  unfold World.resume at hw
  split at hw
  · unfold World.resumeStage at hw
    dsimp only at hw
    split at hw
    · cases hw
    · cases hw
    · unfold World.resumeAcquiring at hw
      split at hw
      · cases hw
        exact acquiredSession_sessions _ _ _ _
      · split at hw
        · cases hw
        · split at hw
          · cases hw
            exact acquiredSession_sessions _ _ _ _
          · cases hw
            exact ⟨rfl, rfl, rfl, rfl⟩
          · cases hw
            exact ⟨rfl, rfl, rfl, rfl⟩
          · cases hw
    · obtain ⟨fulfilled, -, hw⟩ := map_eq_some_iff.mp hw
      cases fulfilled <;> cases hw <;> exact ⟨rfl, rfl, rfl, rfl⟩
    · unfold World.resumeAttaching at hw
      split at hw
      · cases hw
      · cases hw
        unfold World.acquiredLease
        dsimp only
        split <;> exact ⟨rfl, rfl, rfl, rfl⟩
      · cases hw
        exact ⟨rfl, rfl, rfl, rfl⟩
    · obtain ⟨fulfilled, -, hw⟩ := map_eq_some_iff.mp hw
      cases hw
      exact ⟨rfl, rfl, rfl, rfl⟩
    · obtain ⟨fulfilled, -, hw⟩ := map_eq_some_iff.mp hw
      cases hw
      exact ⟨rfl, rfl, rfl, rfl⟩
    · cases hw
      exact ⟨rfl, rfl, rfl, rfl⟩
  · cases hw

theorem Calm.removeSession (c : w.Calm) {id : String} (hq : w.quiet (.removeSession id) = true) : (w.removeSession id).Calm := by
  unfold World.removeSession
  split
  · exact c
  · dsimp only
    split
    · refine c.of c.leases .refl (fun handles fulfilled h => .inl h) ?_
      intro r x hr hsess hstage
      dsimp only at hr hsess hstage ⊢
      by_cases hlast : r = w.removalCount
      · rw [hlast, update_self] at hsess
        cases hsess
      · rw [update_of_ne hlast] at hsess hstage ⊢
        exact .inl ⟨Nat.lt_of_le_of_ne (Nat.le_of_lt_succ hr) hlast, rfl, hsess, hstage⟩
    · rename_i y hhosted
      refine c.of (c.leases.step (.releaseAll _ true)) .refl (fun handles fulfilled h => .inl h) ?_
      intro r x hr hsess hstage
      dsimp only at hr hsess hstage ⊢
      by_cases hlast : r = w.removalCount
      · rw [hlast, update_self] at hsess ⊢
        have hxy : y = x := some.inj hsess
        rw [hxy] at hhosted
        obtain ⟨hbelow, hnamed⟩ := c.sessions.hosted id x hhosted
        refine .inr ⟨hbelow, hnamed, ?_, .inr hhosted⟩
        intro o ho hid
        have hall := all_eq_true.mp hq o (mem_range.mpr ho)
        rw [hid] at hall
        simpa using hall
      · rw [update_of_ne hlast] at hsess hstage ⊢
        exact .inl ⟨Nat.lt_of_le_of_ne (Nat.le_of_lt_succ hr) hlast, rfl, hsess, hstage⟩

variable {r : Nat}

/-- A removal goes on to its next stage. -/
theorem Calm.setRemoval (c : w.Calm) {stage : RemovalStage} {sessions : Sessions} (hs : Steps w.sessions sessions)
    (hr : ∀ fulfilled, (w.removal r).stage ≠ .settled fulfilled) :
    ({ w.setRemoval r stage with sessions := sessions } : World).Calm := by
  refine c.of c.leases hs (fun handles fulfilled h => .inl h) ?_
  intro r' x hlt hsess hstage
  unfold World.setRemoval at hsess hstage ⊢
  dsimp only at hlt hsess hstage ⊢
  by_cases hne : r' = r
  · rw [hne, update_self] at hsess ⊢
    exact .inl ⟨hne ▸ hlt, rfl, hsess, hr⟩
  · rw [update_of_ne hne] at hsess hstage ⊢
    exact .inl ⟨hlt, rfl, hsess, hstage⟩

theorem Calm.resumeClose (c : w.Calm) (hw : w.resumeClose = some w') : w'.Calm := by
  unfold World.resumeClose at hw
  split at hw
  · split at hw <;> cases hw
    refine c.of (c.leases.step (.releaseAll _ true)) .refl (fun handles fulfilled h => (nomatch h)) ?_
    exact fun r x hr hsess hstage => .inl ⟨hr, rfl, hsess, hstage⟩
  · split at hw <;> cases hw
    refine c.of c.leases .refl ?_ (fun r x hr hsess hstage => .inl ⟨hr, rfl, hsess, hstage⟩)
    intro handles fulfilled h
    obtain ⟨hhs, hful⟩ := Closer.closing.inj h
    rw [← hhs, ← hful]
    refine .inr ⟨?_, fun x hx => (nomatch hx)⟩
    intro x hx
    unfold hostedHandles at hx
    exact mem_range.mp (mem_filter.mp hx).1
  · rename_i fulfilled hs
    cases hw
    have hclosed := (c.closing [] fulfilled hs).2
    refine c.of (c.leases.step .forgetClients) (Sessions.deleteAll_steps fun x hx => (hclosed x hx).2)
      (fun handles fulfilled h => (nomatch h)) ?_
    exact fun r x hr hsess hstage => .inl ⟨hr, rfl, hsess, hstage⟩
  · cases hw

variable {fulfilled : Bool} (c : w.Calm)
include c

theorem Calm.handleClosed {x : Nat} (hw : w.handleClosed x fulfilled = some w') : w'.Calm := by
  unfold World.handleClosed at hw
  split at hw
  · rename_i handles done hs
    obtain ⟨hhs, hdone⟩ := c.closing handles done hs
    split at hw
    · rename_i hmem
      have hstep : Steps w.sessions (w.sessions.closeHandle x) := .single (.closeHandle x)
      split at hw
      · cases hw
        refine c.of c.leases hstep ?_ (fun r y hr hsess hstage => .inl ⟨hr, rfl, hsess, hstage⟩)
        intro handles' done' h
        obtain ⟨hhs', hdone'⟩ := Closer.closing.inj h
        rw [← hhs', ← hdone']
        refine .inr ⟨fun y hy => hhs y (mem_of_mem_erase hy), ?_⟩
        intro y hy
        rcases mem_cons.mp hy with rfl | hy
        · exact ⟨hhs y hmem, congrArg Handle.closed (Sessions.closeHandle_self y)⟩
        · exact hstep.closed (hdone y hy)
      · cases hw
        refine c.of c.leases .refl ?_ (fun r y hr hsess hstage => .inl ⟨hr, rfl, hsess, hstage⟩)
        intro handles' done' h
        obtain ⟨hhs', hdone'⟩ := Closer.closing.inj h
        rw [← hhs', ← hdone']
        exact .inr ⟨fun y hy => hhs y (mem_of_mem_erase hy), hdone⟩
    · cases hw
  · cases hw

theorem Calm.removalClosed (hq : w.quiet (.removalClosed r fulfilled) = true)
    (hw : w.removalClosed r fulfilled = some w') : w'.Calm := by
  unfold World.removalClosed at hw
  split at hw
  · rename_i x earlier hsess hstage
    have hr : ∀ fulfilled, (w.removal r).stage ≠ .settled fulfilled := by
      rw [hstage]
      simp
    have hq : (fulfilled || (w.removal r).session.all fun h => (w.sessions.handle h).closed || (w.sessions.handle h).terminated) =
      true := hq
    rw [hsess, all_some, Bool.or_eq_true, Bool.or_eq_true] at hq
    dsimp only at hw
    split at hw
    · cases fulfilled with
      | true =>
        cases hw
        have hclosed : ((w.sessions.closeHandle x).handle x).closed = true := by rw [Sessions.closeHandle_self]
        have hsteps : Steps w.sessions ((w.sessions.closeHandle x).delete x) :=
          .tail (.single (.closeHandle x)) (.delete x (.inl hclosed))
        exact c.setRemoval hsteps hr
      | false =>
        cases hw
        exact c.setRemoval (.single (.delete x (hq.resolve_left Bool.false_ne_true))) hr
    · cases hw
  · cases hw

theorem Calm.step {event : Event} (hq : w.quiet event = true) (hw : w.step event = some w') : w'.Calm := by
  have hl : (∀ i, event ≠ .begin i) → w'.leases.Quiet := by
    intro hne
    rcases step_leases hw with hsteps | ⟨i, -, hbegin, -⟩
    · exact c.leases.steps hsteps
    · exact absurd hbegin (hne i)
  have hsess : ∀ {s : Sessions}, Sessions.Step w.sessions s → (w.withSessions s).Calm :=
    fun hs => c.keep c.leases (.single hs) rfl rfl rfl
  cases event with
  | begin i => exact c.begin hq hw
  | resume i =>
    obtain ⟨hs, hclos, hcount, hrem⟩ := resume_sessions hw
    exact c.keep (hl (by simp)) (hs ▸ .refl) hclos hcount hrem
  | attachClient client sessionId =>
    cases hw
    unfold World.attachClient
    split
    · exact c
    · exact c.keep c.leases .refl rfl rfl rfl
  | detachClient | disconnect | executeServiceCall =>
    cases hw
    exact c.keep c.leases .refl rfl rfl rfl
  | removeSession id =>
    cases hw
    exact c.removeSession hq
  | drain =>
    cases hw
    exact hsess .drain
  | close =>
    have hw : w.close = some w' := hw
    unfold World.close at hw
    split at hw
    · split at hw <;> cases hw
      · refine c.of c.leases .refl (fun handles fulfilled h => (nomatch h)) ?_
        exact fun r x hr hsession hstage => .inl ⟨hr, rfl, hsession, hstage⟩
      · exact c
    · cases hw
  | resolved o fulfilled =>
    obtain ⟨s, hs, rfl⟩ := map_eq_some_iff.mp hw
    exact hsess (.resolved hs)
  | opened o fulfilled =>
    obtain ⟨s, hs, rfl⟩ := map_eq_some_iff.mp hw
    exact hsess (.opened hs)
  | drained o fulfilled =>
    obtain ⟨s, hs, rfl⟩ := map_eq_some_iff.mp hw
    exact hsess (.drained hs)
  | forget o =>
    obtain ⟨s, hs, rfl⟩ := map_eq_some_iff.mp hw
    exact hsess (.forget hs)
  | terminate x =>
    obtain ⟨s, hs, rfl⟩ := map_eq_some_iff.mp hw
    exact hsess (.terminate hs)
  | callSettled k =>
    have hquiet := hl (by simp)
    cases hw
    exact c.keep hquiet .refl rfl rfl rfl
  | resumeRemoval r =>
    have hw : w.resumeRemoval r = some w' := hw
    unfold World.resumeRemoval at hw
    split at hw
    · rename_i attachments hstage
      split at hw <;> cases hw
      refine c.setRemoval .refl ?_
      rw [hstage]
      simp
    · cases hw
  | removalClosed r fulfilled => exact c.removalClosed hq hw
  | invalidate x =>
    have hquiet := hl (by simp)
    have hw : w.invalidate x = some w' := hw
    unfold World.invalidate at hw
    split at hw
    · rename_i hterm
      split at hw <;> cases hw
      · exact c.keep hquiet (.single (.delete x (.inr hterm))) rfl rfl rfl
      · exact c
    · cases hw
  | resumeClose => exact c.resumeClose hw
  | handleClosed x fulfilled => exact c.handleClosed hw
  | _ =>
    have hquiet := hl (by simp)
    obtain ⟨l, -, rfl⟩ := map_eq_some_iff.mp hw
    exact c.keep hquiet .refl rfl rfl rfl

theorem Calm.run {events : List Event} (hq : w.quietRun events = true) (hw : w.run events = some w') : w'.Calm := by
  induction events generalizing w with
  | nil =>
    cases hw
    exact c
  | cons event events ih =>
    unfold World.run at hw
    unfold quietRun at hq
    obtain ⟨next, hstep, hrest⟩ := bind_eq_some_iff.mp hw
    rw [hstep, all_some, Bool.and_eq_true] at hq
    exact ih (c.step hq.1 hstep) hq.2 hrest

omit c

/-- The events at which a removal changes. -/
theorem step_removal {event : Event} (hw : w.step event = some w') : (w'.removalCount = w.removalCount ∧ w'.removal = w.removal) ∨
    (∃ id, event = .removeSession id) ∨ (∃ r, event = .resumeRemoval r) ∨ ∃ r fulfilled, event = .removalClosed r fulfilled := by
  cases event with
  | removeSession id => exact .inr (.inl ⟨id, rfl⟩)
  | resumeRemoval r => exact .inr (.inr (.inl ⟨r, rfl⟩))
  | removalClosed r fulfilled => exact .inr (.inr (.inr ⟨r, fulfilled, rfl⟩))
  | begin i =>
    obtain ⟨-, hcount, hrem, -⟩ := begin_sessions hw
    exact .inl ⟨hcount, hrem⟩
  | resume i =>
    obtain ⟨-, -, hcount, hrem⟩ := resume_sessions hw
    exact .inl ⟨hcount, hrem⟩
  | attachClient client sessionId =>
    cases hw
    unfold World.attachClient
    left
    split <;> exact ⟨rfl, rfl⟩
  | close =>
    have hw : w.close = some w' := hw
    unfold World.close at hw
    left
    split at hw
    · split at hw <;> cases hw <;> exact ⟨rfl, rfl⟩
    · cases hw
  | invalidate x =>
    have hw : w.invalidate x = some w' := hw
    unfold World.invalidate at hw
    left
    split at hw
    · split at hw <;> cases hw <;> exact ⟨rfl, rfl⟩
    · cases hw
  | resumeClose =>
    have hw : w.resumeClose = some w' := hw
    unfold World.resumeClose at hw
    left
    split at hw
    · split at hw <;> cases hw
      exact ⟨rfl, rfl⟩
    · split at hw <;> cases hw
      exact ⟨rfl, rfl⟩
    · cases hw
      exact ⟨rfl, rfl⟩
    · cases hw
  | handleClosed x fulfilled =>
    have hw : w.handleClosed x fulfilled = some w' := hw
    unfold World.handleClosed at hw
    left
    split at hw
    · split at hw
      · split at hw <;> cases hw <;> exact ⟨rfl, rfl⟩
      · cases hw
    · cases hw
  | detachClient client | disconnect client | executeServiceCall client target | drain | callSettled k =>
    cases hw
    exact .inl ⟨rfl, rfl⟩
  | resolved o fulfilled | opened o fulfilled | drained o fulfilled | forget o | terminate x =>
    obtain ⟨s, -, rfl⟩ := map_eq_some_iff.mp hw
    exact .inl ⟨rfl, rfl⟩
  | acquired a fulfilled | resumeRelease a | released a fulfilled | published a fulfilled =>
    obtain ⟨l, -, rfl⟩ := map_eq_some_iff.mp hw
    exact .inl ⟨rfl, rfl⟩

/-- The call of `removeSession` resolves at a step. -/
def resolves (w w' : World) (r : Nat) : Prop :=
  r < w'.removalCount ∧ (w'.removal r).stage = .settled true ∧ (r < w.removalCount → (w.removal r).stage ≠ .settled true)

/-- No handle is open for the session, and no opening of it can produce one. -/
def gone (w : World) (id : String) : Prop := (∀ y, w.sessions.isOpen y → (w.sessions.handle y).id ≠ id) ∧
    ∀ o, o < w.sessions.openingCount → (w.sessions.openings o).id = id → (w.sessions.openings o).stage.busy = false

theorem Calm.removeSession_gone (c : w.Calm) {id : String} (hq : w.quiet (.removeSession id) = true)
    (hr : resolves w (w.removeSession id) r) : (w.removeSession id).gone ((w.removeSession id).removal r).id := by
  have hidle : ∀ o, o < w.sessions.openingCount → (w.sessions.openings o).id = id → (w.sessions.openings o).stage.busy = false := by
    intro o ho hid
    have hall := all_eq_true.mp hq o (mem_range.mpr ho)
    rw [hid] at hall
    simpa using hall
  obtain ⟨hlt, hstage, hnew⟩ := hr
  unfold World.removeSession at hlt hstage ⊢
  split at hlt
  · rename_i hshut
    rw [if_pos hshut] at hstage
    exact absurd hstage (hnew hlt)
  · rename_i hshut
    rw [if_neg hshut] at hstage ⊢
    cases hhosted : w.sessions.hosted id with
    | none =>
      rw [hhosted] at hlt hstage
      dsimp only at hlt hstage ⊢
      by_cases hlast : r = w.removalCount
      · rw [hlast, update_self]
        refine ⟨?_, hidle⟩
        intro y hy hid
        rcases c.sessions.present y hy with hp | ⟨o, ho, hoid, hs⟩
        · rw [hid, hhosted] at hp
          cases hp
        · have hbusy := hidle o ho (hoid.trans hid)
          rw [Sessions.holds_busy hs] at hbusy
          cases hbusy
      · rw [update_of_ne hlast] at hstage
        exact absurd hstage (hnew (Nat.lt_of_le_of_ne (Nat.le_of_lt_succ hlt) hlast))
    | some x =>
      rw [hhosted] at hlt hstage
      dsimp only at hlt hstage ⊢
      by_cases hlast : r = w.removalCount
      · rw [hlast, update_self] at hstage
        cases hstage
      · rw [update_of_ne hlast] at hstage
        exact absurd hstage (hnew (Nat.lt_of_le_of_ne (Nat.le_of_lt_succ hlt) hlast))

theorem Calm.removalClosed_gone (c : w.Calm) {r r' : Nat} (hw : w.removalClosed r fulfilled = some w')
    (hr : resolves w w' r') : w'.gone (w'.removal r').id := by
  obtain ⟨hlt', hstage', hnew⟩ := hr
  unfold World.removalClosed at hw
  split at hw
  · rename_i x earlier hsess hstage
    dsimp only at hw
    split at hw
    · rename_i hlt
      cases hw
      have hlt' : r' < w.removalCount := hlt'
      have hrem : ((w.setRemoval r (.settled (earlier && fulfilled))).removal r').stage = .settled true := hstage'
      by_cases hne : r' = r
      · rw [hne, setRemoval_self] at hrem
        have hboth : (earlier && fulfilled) = true := RemovalStage.settled.inj hrem
        rw [Bool.and_eq_true] at hboth
        have hremoving := c.removals r x hlt hsess (by rw [hstage]; simp)
        have hclosed : ((w.sessions.closeHandle x).handle x).closed = true := by rw [Sessions.closeHandle_self]
        have hsteps : Steps w.sessions ((w.sessions.closeHandle x).delete x) :=
          .tail (.single (.closeHandle x)) (.delete x (.inl hclosed))
        have hafter := hremoving.steps hsteps
        have hinv := c.sessions.steps hsteps
        have hid : ((w.setRemoval r (.settled (earlier && fulfilled))).removal r').id = (w.removal r).id := by
          rw [hne, setRemoval_self]
        rw [hboth.2]
        unfold gone
        rw [if_pos rfl]
        rw [hboth.2] at hid
        rw [hid]
        refine ⟨fun y hy => hafter.none_open hinv ?_ hy, hafter.idle⟩
        rw [Sessions.delete_handle]
        exact hclosed
      · unfold World.setRemoval at hrem
        dsimp only at hrem
        rw [update_of_ne hne] at hrem
        exact absurd hrem (hnew hlt')
    · cases hw
  · cases hw

/-- In every state that quiet events lead to, a lease with a call that has not settled was not released; and when a removal
resolves, no handle is open for its session and no opening of it is under way. -/
theorem quiescence_of_quiet {events : List Event} (hq : initial.quietRun events = true) (hrun : initial.run events = some w) :
    (∀ k, k < w.leases.callCount → (w.leases.call k).settled = false →
      (w.leases.attachment (w.leases.call k).attachment).releases = 0) ∧
    (∀ event w', w.quiet event = true → w.step event = some w' → ∀ r, resolves w w' r → w'.gone (w'.removal r).id) := by
  have c := initial_calm.run hq hrun
  refine ⟨fun k => c.leases.unreleased, ?_⟩
  intro event w' hquiet hw r hr
  rcases step_removal hw with ⟨hcount, hremoval⟩ | ⟨id, rfl⟩ | ⟨r', rfl⟩ | ⟨r', fulfilled, rfl⟩
  · obtain ⟨hlt, hstage, hnew⟩ := hr
    rw [hremoval] at hstage
    exact absurd hstage (hnew (hcount ▸ hlt))
  · cases hw
    exact c.removeSession_gone hquiet hr
  · -- the handle is closed next
    have hw : w.resumeRemoval r' = some w' := hw
    obtain ⟨hlt, hstage, hnew⟩ := hr
    unfold World.resumeRemoval at hw
    split at hw
    · split at hw <;> cases hw
      unfold World.setRemoval at hlt hstage
      dsimp only at hlt hstage
      by_cases hne : r = r'
      · rw [hne, Function.update_self] at hstage
        cases hstage
      · rw [update_of_ne hne] at hstage
        exact absurd hstage (hnew hlt)
    · cases hw
  · exact c.removalClosed_gone hw hr

end World

/-- A client calls twice, and its session is removed while the second call is running. -/
def removing : List Event :=
  attaching 0 ++ [.executeServiceCall 0 (some ("s", 0)), .begin 1, .callSettled 0, .executeServiceCall 0 (some ("s", 0)), .begin 2,
    .removeSession "s", .callSettled 1, .resumeRelease 0, .released 0 true, .published 0 true, .resumeRemoval 0]

theorem quiescence_of_quiet_removing : World.initial.quietRun removing = true ∧
    ∃ w w', World.initial.run removing = some w ∧ w.step (.removalClosed 0 true) = some w' ∧ w'.gone (w'.removal 0).id := by
  have hq : World.initial.quietRun removing = true := by decide
  have hfacts : (World.initial.run removing).map (fun w => (w.quiet (.removalClosed 0 true), w.removalCount, (w.removal 0).stage,
      (w.step (.removalClosed 0 true)).map fun w' => (w'.removalCount, (w'.removal 0).stage))) =
        some (true, 1, .closing true, some (1, .settled true)) := by decide
  obtain ⟨w, hrun, hw⟩ := Option.map_eq_some_iff.mp hfacts
  rw [Prod.mk.injEq, Prod.mk.injEq, Prod.mk.injEq, Option.map_eq_some_iff] at hw
  obtain ⟨hquiet, -, hstage, w', hstep, hw'⟩ := hw
  rw [Prod.mk.injEq] at hw'
  refine ⟨hq, w, w', hrun, hstep, (World.quiescence_of_quiet hq hrun).2 _ w' hquiet hstep 0 ⟨?_, hw'.2, ?_⟩⟩
  · rw [hw'.1]
    exact Nat.one_pos
  · rw [hstage]
    simp

/-- A call is admitted while the release of its attachment waits for another one: the lease is released while it runs. And a
session that is being opened is not removed: its handle opens after the removal has resolved. -/
theorem released_early :
    (World.initial.run (attaching 0 ++ [.executeServiceCall 0 (some ("s", 0)), .begin 1, .removeSession "s",
        .executeServiceCall 0 (some ("s", 0)), .begin 2, .callSettled 0, .resumeRelease 0])).map
        (fun w => (w.leases.callCount, w.leases.call 1, (w.leases.attachment 0).releases)) =
      some (2, ⟨0, 0, ("s", 0), false⟩, 1) ∧
    (World.initial.run [.attachClient 0 "s", .begin 0, .resolved 0 true, .removeSession "s", .opened 0 true]).map
        (fun w => ((w.removal 0).stage, w.sessions.handleCount, w.sessions.handle 0)) =
      some (.settled true, 1, ⟨"s", false, false⟩) := by
  decide

end Shuvpi.Router
