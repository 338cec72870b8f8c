import Shuvpi.RouterSteps

/-!
# Runs of the session router

Removal, termination and shutdown keep the invariant, and with it whole runs do: one handle for
a session and one release for a lease.
-/
open List Option

namespace Shuvpi.Router

open Function

namespace World

variable {w w' : World}

/-! ## Sessions that end -/

variable {c a x : Nat}

/-- The attachments that a client is registered for and that have not ended are members of their sessions. -/
theorem Inv.registered_member (h : w.Inv) (hc : w.leases.byClient c = some a) :
    a ∈ w.leases.members (w.leases.attachment a).session := by
  obtain ⟨hlt, -, hl, hf⟩ := h.leases.registered c a hc
  have hmember : (w.leases.attachment a).member = true := by
    refine h.leases.member a hlt ?_
    rintro (hfin | hrej)
    · exact hf hfin
    · exact nomatch (h.leases.lease a hl).symm.trans hrej
  unfold Leases.members
  rw [mem_filter, mem_range]
  simp [hlt, hmember]

theorem releaseAll_not_idle {l : Leases} {taken : Nat → Bool} {publish : Bool} (ha : taken a = true) :
    ((l.releaseAll taken publish).attachment a).releasing ≠ .idle := by
  unfold Leases.releaseAll
  dsimp only
  rw [if_pos ha]
  rcases (l.attachment a).release_cases l.callCount publish with ⟨-, hr⟩ | ⟨hne, hr⟩
  · rw [hr]
    simp
  · rw [hr]
    exact hne

theorem Inv.releaseAll (h : w.Inv) (taken : Nat → Bool) (publish : Bool) :
    (w.withLeases (w.leases.releaseAll taken publish)).Inv :=
  h.later (h.leases.releaseAll taken publish) (.releaseAll taken publish)

/-- After the members of a session are released no client counts on it. -/
theorem Inv.released_members (h : w.Inv) {publish : Bool}
    (hc : (w.leases.releaseAll (fun a => a ∈ w.leases.members x) publish).byClient c = some a)
    (hx : ((w.leases.releaseAll (fun a => a ∈ w.leases.members x) publish).attachment a).session = x) :
    ((w.leases.releaseAll (fun a => a ∈ w.leases.members x) publish).attachment a).releasing ≠ .idle := by
  have hsame := (Leases.Later.releaseAll (l := w.leases) (fun a => a ∈ w.leases.members x) publish).same a
  have hsess : (w.leases.attachment a).session = x := (congrArg (·.2.1) hsame).symm.trans hx
  refine releaseAll_not_idle ?_
  rw [decide_eq_true_eq, ← hsess]
  exact h.registered_member hc

/-- The removals change. -/
theorem Inv.setRemovals (h : w.Inv) {removalCount : Nat} {removal : Nat → Removal}
    (hr : ∀ x, ({ w with removalCount := removalCount, removal := removal } : World).removing x → w.removing x ∨
      ∀ c a, w.leases.byClient c = some a → (w.leases.attachment a).session = x → (w.leases.attachment a).releasing ≠ .idle) :
    ({ w with removalCount := removalCount, removal := removal } : World).Inv := by
  refine ⟨h.sessions, h.leases, h.operations, h.made, h.owner, h.stages, h.hosted, ?_, h.disconnects, h.closer⟩
  intro c a hc hrem
  rcases hr _ hrem with hold | hall
  · exact h.removals c a hc hold
  · exact hall c a hc rfl

theorem Inv.removeSession (h : w.Inv) (sessionId : String) : (w.removeSession sessionId).Inv := by
  unfold World.removeSession
  split
  · exact h
  · dsimp only
    split
    · refine h.setRemovals ?_
      rintro x ⟨r, hlt, hsess, hstage⟩
      dsimp only at hlt hsess hstage
      by_cases hr : r = w.removalCount
      · rw [hr, update_self] at hsess
        cases hsess
      · rw [update_of_ne hr] at hsess hstage
        exact .inl ⟨r, Nat.lt_of_le_of_ne (Nat.le_of_lt_succ hlt) hr, hsess, hstage⟩
    · rename_i x hhosted
      refine (h.releaseAll (fun a => a ∈ w.leases.members x) true).setRemovals ?_
      rintro y ⟨r, hlt, hsess, hstage⟩
      dsimp only at hlt hsess hstage
      by_cases hr : r = w.removalCount
      · rw [hr, update_self] at hsess
        rw [← some.inj hsess]
        exact .inr fun c a hc hx => h.released_members hc hx
      · rw [update_of_ne hr] at hsess hstage
        exact .inl ⟨r, Nat.lt_of_le_of_ne (Nat.le_of_lt_succ hlt) hr, hsess, hstage⟩

theorem setRemoval_self (r : Nat) (stage : RemovalStage) : (w.setRemoval r stage).removal r = { w.removal r with stage := stage } :=
  update_self _ _ _

variable {r : Nat}

/-- A removal goes on. -/
theorem Inv.setRemoval (h : w.Inv) {stage : RemovalStage}
    (hr : ∀ fulfilled, (w.removal r).stage ≠ .settled fulfilled) : (w.setRemoval r stage).Inv := by
  refine h.setRemovals ?_
  rintro x ⟨r', hlt, hsess, hstage⟩
  dsimp only at hlt hsess hstage
  refine .inl ⟨r', hlt, ?_⟩
  by_cases hne : r' = r
  · rw [hne, update_self] at hsess
    rw [hne]
    exact ⟨hsess, hr⟩
  · rw [update_of_ne hne] at hsess hstage
    exact ⟨hsess, hstage⟩

theorem Inv.resumeRemoval (h : w.Inv) (hw : w.resumeRemoval r = some w') : w'.Inv := by
  unfold World.resumeRemoval at hw
  split at hw
  · rename_i attachments hstage
    split at hw
    · cases hw
      refine h.setRemoval ?_
      rw [hstage]
      simp
    · cases hw
  · cases hw

variable {fulfilled : Bool} (h : w.Inv)
include h

theorem Inv.removalClosed
    (hcloses : ∀ x, (w.removal r).session = some x → fulfilled = true ∨ (w.sessions.handle x).closed = true ∨
      (w.sessions.handle x).terminated = true) (hw : w.removalClosed r fulfilled = some w') : w'.Inv := by
  unfold World.removalClosed at hw
  split at hw
  · rename_i x earlier hsess hstage
    dsimp only at hw
    have hrem : r < w.removalCount → w.removing x := by
      intro hlt
      refine ⟨r, hlt, hsess, ?_⟩
      rw [hstage]
      simp
    have hidle : r < w.removalCount → ∀ c a, w.leases.byClient c = some a → (w.leases.attachment a).session = x →
        (w.leases.attachment a).releasing ≠ .idle := by
      intro hlt c a hc hx
      refine h.removals c a hc ?_
      rw [hx]
      exact hrem hlt
    have hnot : ∀ fulfilled, (w.removal r).stage ≠ .settled fulfilled := by
      rw [hstage]
      simp
    split at hw
    · rename_i hlt
      cases fulfilled with
      | true =>
        cases hw
        have hclosed : ((w.sessions.closeHandle x).handle x).closed = true := by rw [Sessions.closeHandle_self]
        exact ((h.closeHandle x).delete (.inl hclosed) (hidle hlt)).setRemoval hnot
      | false =>
        cases hw
        refine (h.delete ?_ (hidle hlt)).setRemoval hnot
        exact (hcloses x hsess).resolve_left Bool.false_ne_true
    · cases hw
  · cases hw

theorem Inv.invalidate (hw : w.invalidate x = some w') : w'.Inv := by
  unfold World.invalidate at hw
  split at hw
  · rename_i hterm
    split at hw
    · cases hw
      exact (h.releaseAll (fun a => a ∈ w.leases.members x) true).delete (.inr hterm)
        fun c a hc hx => h.released_members hc hx
    · cases hw
      exact h
  · cases hw

/-! ## Shutdown -/

theorem Inv.drain : w.drain.Inv :=
  h.keepSessions h.sessions.drain (fun _ => rfl) (Nat.le_refl _) (fun _ _ hc => hc) (fun _ _ hc => hc) (fun _ _ => rfl)

/-- Shutdown goes on. -/
theorem Inv.setCloser {closer : Closer} (hopen : w.closer ≠ .closed)
    (hfits : ({ w with closer := closer } : World).CloserFits) : ({ w with closer := closer } : World).Inv := by
  refine ⟨h.sessions, h.leases, h.operations, h.made, ?_, h.stages, h.hosted, h.removals, h.disconnects, hfits⟩
  intro a ha
  rcases h.owner a ha with ho | ho | ho | ho | ho
  · exact .inl ho
  · exact .inr (.inl ho)
  · exact .inr (.inr (.inl ho))
  · exact .inr (.inr (.inr (.inl ho)))
  · exact absurd ho hopen

theorem Inv.close (hw : w.close = some w') : w'.Inv := by
  unfold World.close at hw
  split at hw
  · rename_i hshut
    split at hw
    · rename_i hopen
      cases hw
      refine h.setCloser (by rw [hopen]; simp) ⟨hshut, ?_⟩
      intro i hi ha
      refine (h.operations.recorded i hi ha).imp_right ?_
      rintro ⟨l, hl, hle⟩
      obtain ⟨hlt, hcli⟩ := h.operations.last _ l hl
      refine ⟨l, ?_, hlt, hcli, hle⟩
      unfold lastOperations
      rw [mem_filter, mem_range, decide_eq_true_eq, hcli]
      exact ⟨hlt, hl⟩
    · cases hw
      exact h
  · cases hw

omit h

/-- A release is waiting that shutdown does not take part in. -/
def unattended (w : World) : Bool :=
  (List.range w.leases.count).any fun a =>
    (match (w.leases.attachment a).releasing with
      | .operations _ | .leasing => true
      | _ => false) && !decide (a ∈ w.hostedHandles.flatMap w.leases.members)

/-- When nobody attaches any more, an attachment is safe, or it belongs to a hosted session. -/
theorem Inv.collected (h : w.Inv) (hatt : w.attached) (hopen : w.closer ≠ .closed) (hun : w.unattended = false)
    (ha : a < w.leases.count) : w.safe a ∨ a ∈ w.hostedHandles.flatMap w.leases.members := by
  obtain ⟨hoper, hattaches, -⟩ := h.made a ha
  have hdone := hatt _ hoper hattaches
  rcases h.owner a ha with hended | hs | hs | hreg | hclosed
  · exact .inl (.inl hended)
  · exact nomatch hdone.symm.trans hs
  · exact nomatch hdone.symm.trans hs
  · obtain ⟨-, -, -, hunfin⟩ := h.leases.registered _ a hreg
    unfold unattended at hun
    rw [List.any_eq_false] at hun
    have hwaits := hun a (List.mem_range.mpr ha)
    have hfits := h.leases.fits a
    unfold ClientAttachment.fits at hfits
    unfold ClientAttachment.finished at hunfin
    cases hr : (w.leases.attachment a).releasing <;> rw [hr] at hwaits hfits hunfin
    case idle =>
      right
      have hs := h.hosted _ a hreg hr
      rw [mem_flatMap]
      refine ⟨(w.leases.attachment a).session, ?_, h.registered_member hreg⟩
      unfold hostedHandles
      rw [mem_filter, List.mem_range, decide_eq_true_eq]
      exact ⟨(h.sessions.hosted _ _ hs).1, hs⟩
    case operations => exact .inr (by simpa using hwaits)
    case leasing => exact .inr (by simpa using hwaits)
    case calling => exact .inl (.inr hfits.1)
    case clearing => exact absurd trivial hunfin
    case settled => exact absurd trivial hunfin
  · exact absurd hclosed hopen

theorem CloserFits.attached (h : w.Inv) {operations openings : List Nat} (hs : w.closer = .waiting operations openings)
    (hdone : ∀ i ∈ operations, (w.operations.operation i).stage = .done) : w.attached := by
  have hclos := h.closer
  unfold CloserFits at hclos
  rw [hs] at hclos
  intro i hi ha
  rcases hclos.2 i hi ha with hd | ⟨l, hmem, hlt, hcli, hle⟩
  · exact hd
  · rcases Nat.lt_or_eq_of_le hle with hil | rfl
    · exact h.operations.serial l hlt (by rw [hdone l hmem]; simp) i hil ha hcli.symm
    · exact hdone i hmem

theorem Inv.resumeClose (h : w.Inv) (hun : ∀ operations openings, w.closer = .waiting operations openings → w.unattended = false)
    (hw : w.resumeClose = some w') : w'.Inv := by
  have hclos := h.closer
  unfold World.resumeClose at hw
  unfold CloserFits at hclos
  cases hs : w.closer <;> rw [hs] at hw hclos
  case open_ => cases hw
  case closed => cases hw
  case waiting operations openings =>
    dsimp only at hw
    split at hw
    · rename_i hall
      cases hw
      rw [Bool.and_eq_true, List.all_eq_true] at hall
      have hatt := CloserFits.attached h hs fun i hi => of_decide_eq_true (hall.1 i hi)
      have hopen : w.closer ≠ .closed := by
        rw [hs]
        simp
      have hrel := h.releaseAll (fun a => a ∈ w.hostedHandles.flatMap w.leases.members) true
      refine hrel.setCloser hopen ⟨hclos.1, hatt, ?_⟩
      intro a ha
      exact (h.collected hatt hopen (hun _ _ hs) ha).imp_left (safe_later (.releaseAll _ true) (h.leases.releaseAll _ true))
    · cases hw
  case releasing attachments =>
    dsimp only at hw
    split at hw
    · rename_i hall
      cases hw
      refine h.setCloser (by rw [hs]; simp) ⟨hclos.1, hclos.2.1, ?_, ?_, fun _ hx => (nomatch hx)⟩
      · intro a ha
        rcases hclos.2.2 a ha with hsafe | hmem
        · exact hsafe
        · exact .inl (.inl (outcome_finished (List.all_eq_true.mp hall a hmem)))
      · intro x hx
        have hx : x ∈ w.hostedHandles := hx
        unfold hostedHandles at hx
        exact mem_range.mp (mem_filter.mp hx).1
    · cases hw
  case closing handles fulfilled =>
    cases handles with
    | cons x handles => cases hw
    | nil =>
      cases hw
      obtain ⟨hshut, hatt, hsafe, -, hclosed⟩ := hclos
      refine ⟨h.sessions.deleteAll fun x hx => (hclosed x hx).2, h.leases.forgetClients, h.operations.forgetAll hatt, h.made,
        fun _ _ => .inr (.inr (.inr (.inr rfl))), ?_, fun _ _ hc => (nomatch hc), fun _ _ hc => (nomatch hc), h.disconnects,
        (Sessions.deleteAll_closing _ _).trans hshut, hatt, hsafe⟩
      intro i hi
      have hfits := h.stages i hi
      have hdone := hatt i hi
      unfold StageFits at hfits ⊢
      dsimp only at hfits ⊢
      cases hs : (w.operations.operation i).stage <;> rw [hs] at hfits hdone
      case queued => trivial
      case done => trivial
      case releasing => exact hfits
      case publishing => exact nomatch hdone hfits
      all_goals exact nomatch hdone hfits.1

theorem Inv.handleClosed (h : w.Inv) (hw : w.handleClosed x fulfilled = some w') : w'.Inv := by
  have hclos := h.closer
  unfold World.handleClosed at hw
  unfold CloserFits at hclos
  split at hw
  · rename_i handles done hs
    rw [hs] at hclos
    obtain ⟨hshut, hatt, hsafe, hbelow, hclosed⟩ := hclos
    have hopen : w.closer ≠ .closed := by
      rw [hs]
      simp
    have herase : ∀ y ∈ handles.erase x, y < w.sessions.handleCount := fun y hy => hbelow y (mem_of_mem_erase hy)
    split at hw
    · rename_i hmem
      split at hw
      · cases hw
        refine (h.closeHandle x).setCloser hopen ⟨hshut, hatt, hsafe, herase, ?_⟩
        intro y hy
        show y < w.sessions.handleCount ∧ ((w.sessions.closeHandle x).handle y).closed = true
        by_cases hyx : y = x
        · rw [hyx, Sessions.closeHandle_self]
          exact ⟨hbelow x hmem, rfl⟩
        · rw [show (w.sessions.closeHandle x).handle y = w.sessions.handle y from update_of_ne hyx _ _]
          exact hclosed y ((mem_cons.mp hy).resolve_left hyx)
      · cases hw
        exact h.setCloser hopen ⟨hshut, hatt, hsafe, herase, hclosed⟩
    · cases hw
  · cases hw

/-! ## Runs -/

/-- What keeps one lease and one handle: no attachment is registered that a removal has overlooked, no handle that a removal
cannot close is still open, and shutdown does not begin to release while another release is waiting. -/
def allowed (w : World) : Event → Bool
  | .resume i =>
    match (w.operations.operation i).stage with
    | .attaching a => !(w.registers a && w.overlooked a)
    | _ => true
  | .removalClosed r fulfilled =>
    fulfilled || (w.removal r).session.all fun h => (w.sessions.handle h).closed || (w.sessions.handle h).terminated
  | .resumeClose =>
    match w.closer with
    | .waiting _ _ => !w.unattended
    | _ => true
  | _ => true

def allowedRun (w : World) : List Event → Bool
  | [] => true
  | event :: events => w.allowed event && ((w.step event).all fun w => w.allowedRun events)

theorem Inv.step (h : w.Inv) {event : Event} (hallowed : w.allowed event = true) (hw : w.step event = some w') : w'.Inv := by
  cases event with
  | attachClient client sessionId =>
    cases hw
    unfold World.attachClient
    split
    · exact h
    · rename_i hopen
      exact h.add client _ w.operations.disconnected fun hc => absurd hc hopen
  | detachClient client =>
    cases hw
    exact h.add client .detach w.operations.disconnected fun _ => rfl
  | disconnect client =>
    cases hw
    exact h.add client .disconnect _ fun _ => rfl
  | executeServiceCall client target =>
    cases hw
    exact h.add client (.call target) w.operations.disconnected fun _ => rfl
  | removeSession sessionId =>
    cases hw
    exact h.removeSession sessionId
  | drain =>
    cases hw
    exact h.drain
  | close => exact h.close hw
  | begin i => exact h.begin hw
  | resume i =>
    refine h.resume ?_ hw
    intro a hs hregs
    unfold allowed at hallowed
    dsimp only at hallowed
    rw [hs] at hallowed
    dsimp only at hallowed
    rw [hregs, Bool.true_and, Bool.not_eq_true'] at hallowed
    exact hallowed
  | resolved o fulfilled =>
    obtain ⟨s, hs, rfl⟩ := map_eq_some_iff.mp hw
    exact h.resolved hs
  | opened o fulfilled =>
    obtain ⟨s, hs, rfl⟩ := map_eq_some_iff.mp hw
    exact h.opened hs
  | drained o fulfilled =>
    obtain ⟨s, hs, rfl⟩ := map_eq_some_iff.mp hw
    exact h.drained hs
  | forget o =>
    obtain ⟨s, hs, rfl⟩ := map_eq_some_iff.mp hw
    exact h.forget hs
  | acquired a fulfilled =>
    obtain ⟨l, hl, rfl⟩ := map_eq_some_iff.mp hw
    exact h.later (h.leases.acquired hl).1 (h.leases.acquired hl).2
  | resumeRelease a =>
    obtain ⟨l, hl, rfl⟩ := map_eq_some_iff.mp hw
    exact h.later (h.leases.resume hl).1 (h.leases.resume hl).2
  | released a fulfilled =>
    obtain ⟨l, hl, rfl⟩ := map_eq_some_iff.mp hw
    exact h.later (h.leases.released hl).1 (h.leases.released hl).2
  | published a fulfilled =>
    obtain ⟨l, hl, rfl⟩ := map_eq_some_iff.mp hw
    exact h.later (h.leases.published hl).1 (h.leases.published hl).2
  | callSettled k =>
    cases hw
    exact h.later (h.leases.settle k).1 (h.leases.settle k).2
  | resumeRemoval r => exact h.resumeRemoval hw
  | removalClosed r fulfilled =>
    refine h.removalClosed ?_ hw
    intro x hx
    unfold allowed at hallowed
    dsimp only at hallowed
    rw [hx, all_some, Bool.or_eq_true, Bool.or_eq_true] at hallowed
    exact hallowed
  | terminate x =>
    obtain ⟨s, hs, rfl⟩ := map_eq_some_iff.mp hw
    exact h.terminate hs
  | invalidate x => exact h.invalidate hw
  | resumeClose =>
    refine h.resumeClose ?_ hw
    intro operations openings hs
    unfold allowed at hallowed
    rw [hs] at hallowed
    exact Bool.not_eq_true' _ ▸ hallowed
  | handleClosed x fulfilled => exact h.handleClosed hw

theorem Inv.run (h : w.Inv) {events : List Event} (hallowed : w.allowedRun events = true) (hw : w.run events = some w') :
    w'.Inv := by
  induction events generalizing w with
  | nil =>
    cases hw
    exact h
  | cons event events ih =>
    unfold World.run at hw
    unfold allowedRun at hallowed
    obtain ⟨next, hstep, hrest⟩ := bind_eq_some_iff.mp hw
    rw [hstep, all_some, Bool.and_eq_true] at hallowed
    exact ih (h.step hallowed.1 hstep) hallowed.2 hrest

end World

end Shuvpi.Router
