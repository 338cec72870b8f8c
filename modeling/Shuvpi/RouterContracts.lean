import Shuvpi.RouterCalls

/-!
# What the session router promises

One open handle for a session, one release for a lease and one attachment for a client hold in
every run that keeps to three conditions. Without the first a client that attaches while its
session is removed is left with a lease that nobody releases.
-/
namespace Shuvpi.Router

namespace World

variable {w w' : World}

/-- The lease of an attachment was obtained, and its release was not called. -/
def holds (w : World) (a : Nat) : Prop :=
  a < w.leases.count ∧ (w.leases.attachment a).acquiring = .fulfilled ∧ (w.leases.attachment a).releases = 0

theorem Inv.released_of_safe (h : w.Inv) {a : Nat} (hs : w.safe a) (ha : (w.leases.attachment a).acquiring = .fulfilled) :
    (w.leases.attachment a).releases = 1 := by
  rcases hs with (hf | hrej) | hone
  · exact (h.leases.fits a).released hf ha
  · exact nomatch ha.symm.trans hrej
  · exact hone

/-- A lease that is held is that of the client's attachment, or of the one that is being made for it. -/
theorem Inv.holds_cases (h : w.Inv) {a : Nat} (ha : w.holds a) :
    w.leases.byClient (w.leases.attachment a).client = some a ∨
      (w.leases.byClient (w.leases.attachment a).client = none ∧
        ((w.operations.operation (w.leases.attachment a).operation).stage = .attaching a ∨
          (w.operations.operation (w.leases.attachment a).operation).stage = .undoing a)) := by
  obtain ⟨hlt, hacq, hzero⟩ := ha
  obtain ⟨hoper, -, hcli⟩ := h.made a hlt
  have hunsafe : ¬ w.safe a := by
    intro hs
    rw [h.released_of_safe hs hacq] at hzero
    cases hzero
  have hfits := h.stages _ hoper
  unfold StageFits at hfits
  dsimp only at hfits
  rw [hcli] at hfits
  rcases h.owner a hlt with ho | ho | ho | ho | ho
  · exact absurd (.inl ho) hunsafe
  · rw [ho] at hfits
    exact .inr ⟨hfits.2.1, .inl ho⟩
  · rw [ho] at hfits
    exact .inr ⟨hfits.2.1, .inr ho⟩
  · exact .inl ho
  · have hclos := h.closer
    unfold CloserFits at hclos
    rw [ho] at hclos
    exact absurd (hclos.2.2 a hlt) hunsafe

theorem Inv.holds_unique (h : w.Inv) {a b : Nat} (ha : w.holds a) (hb : w.holds b)
    (hc : (w.leases.attachment a).client = (w.leases.attachment b).client) : a = b := by
  obtain ⟨hoa, haa, hca⟩ := h.made a ha.1
  obtain ⟨hob, hab, hcb⟩ := h.made b hb.1
  rcases h.holds_cases ha with hreg | ⟨hnone, hs⟩
  · rcases h.holds_cases hb with hreg' | ⟨hnone, -⟩
    · rw [hc, hreg'] at hreg
      exact (Option.some.inj hreg).symm
    · rw [hc, hnone] at hreg
      cases hreg
  · rcases h.holds_cases hb with hreg | ⟨-, hs'⟩
    · rw [hc, hreg] at hnone
      cases hnone
    · -- both are made by the operation of the client that is under way
      have heq : (w.leases.attachment a).operation = (w.leases.attachment b).operation := by
        refine h.operations.attaching_unique hoa hob haa hab (hca.trans (hc.trans hcb.symm)) ?_ ?_
        · rcases hs with hs | hs <;> rw [hs] <;> simp
        · rcases hs' with hs | hs <;> rw [hs] <;> simp
      rw [heq] at hs
      rcases hs with hs | hs
      · rcases hs' with hs' | hs'
        · exact Stage.attaching.inj (hs.symm.trans hs')
        · exact nomatch hs.symm.trans hs'
      · rcases hs' with hs' | hs'
        · exact nomatch hs.symm.trans hs'
        · exact Stage.undoing.inj (hs.symm.trans hs')

/-- In every state that allowed events lead to: two open handles are for different sessions; a lease is released at most once,
and was released when a client that was attached before it disconnected has been disconnected, or the router has closed; a
client holds one lease at most; and calls are invoked on the client's own attachment, which the target names. -/
theorem leases_of_allowed {events : List Event} (hallowed : initial.allowedRun events = true) (hrun : initial.run events = some w) :
    (∀ h h', w.sessions.isOpen h → w.sessions.isOpen h' → (w.sessions.handle h).id = (w.sessions.handle h').id → h = h') ∧
    (∀ a, (w.leases.attachment a).releases = 0 ∨
      (w.leases.attachment a).releases = 1 ∧ (w.leases.attachment a).acquiring = .fulfilled) ∧
    (∀ d a, d < w.operations.count → (w.operations.operation d).kind = .disconnect → (w.operations.operation d).stage = .done →
      a < w.leases.count → (w.leases.attachment a).client = (w.operations.operation d).client →
        (w.leases.attachment a).operation < d → (w.leases.attachment a).acquiring = .fulfilled →
          (w.leases.attachment a).releases = 1) ∧
    (w.closer = .closed → ∀ a, a < w.leases.count → (w.leases.attachment a).acquiring = .fulfilled →
      (w.leases.attachment a).releases = 1) ∧
    (∀ a b, w.holds a → w.holds b → (w.leases.attachment a).client = (w.leases.attachment b).client → a = b) ∧
    (∀ event w', w.step event = some w' → w'.leases.callCount = w.leases.callCount ∨
      ∃ i a, event = .begin i ∧ (w.operations.operation i).kind = .call (some (w.sessionOf a, a)) ∧
        w.leases.byClient (w.operations.operation i).client = some a ∧
          w'.leases = w.leases.invoke a (w.operations.operation i).client (w.sessionOf a, a)) := by
  have h := initial_inv.run hallowed hrun
  refine ⟨fun _ _ => h.sessions.open_unique, fun a => (h.leases.fits a).releases_cases, ?_, ?_, fun _ _ => h.holds_unique, ?_⟩
  · intro d a hd hk hdone ha hc ho hacquired
    exact h.released_of_safe ((h.disconnects d a hd hk ha hc ho).1 hdone) hacquired
  · intro hs a ha hacquired
    have hcloser := h.closer
    unfold CloserFits at hcloser
    rw [hs] at hcloser
    exact h.released_of_safe (hcloser.2.2 a ha) hacquired
  · intro event w' hw
    rcases step_leases hw with hsteps | ⟨i, a, hevent, hk, hr, hl⟩
    · exact .inl hsteps.callCount
    · exact .inr ⟨i, a, hevent, hk, (requireAttachment_some hr).1, hl⟩

end World

/-- A client attaches a session. -/
def attaching (client : Nat) : List Event :=
  [.attachClient client "s", .begin 0, .resolved 0 true, .opened 0 true, .forget 0, .resume 0, .acquired 0 true, .resume 0, .resume 0]

/-- Then it calls, its session ends, and it is disconnected before the router closes. -/
def ending : List Event :=
  attaching 0 ++ [.executeServiceCall 0 (some ("s", 0)), .begin 1, .terminate 0, .invalidate 0, .callSettled 0, .disconnect 0,
    .begin 2, .resumeRelease 0, .released 0 true, .published 0 true, .resume 2, .drain, .close, .resumeClose, .resumeClose,
    .resumeClose]

theorem leases_of_allowed_ending : World.initial.allowedRun ending = true ∧
    ∃ w, World.initial.run ending = some w ∧ w.closer = .closed ∧
      ∀ a, a < w.leases.count → (w.leases.attachment a).acquiring = .fulfilled → (w.leases.attachment a).releases = 1 := by
  have hallowed : World.initial.allowedRun ending = true := by decide
  have hcloses : (World.initial.run ending).map (·.closer) = some .closed := by decide
  obtain ⟨w, hrun, hcloser⟩ := Option.map_eq_some_iff.mp hcloses
  exact ⟨hallowed, w, hrun, hcloser, (World.leases_of_allowed hallowed hrun).2.2.2.1 hcloser⟩

/-- A second client attaches the session while it is being removed. -/
def overtaken : List Event :=
  attaching 0 ++ [.removeSession "s", .attachClient 1 "s", .begin 1, .resume 1, .acquired 1 true, .resume 1, .resume 1,
    .resumeRelease 0, .released 0 true, .published 0 true, .resumeRemoval 0, .removalClosed 0 true, .drain, .close, .resumeClose,
    .resumeClose, .resumeClose, .disconnect 1, .begin 2]

/-- The router is closed and the second client was disconnected, but its lease was not released. And a handle that a removal
cannot close is forgotten, so that a second one is opened beside it. -/
theorem lease_left :
    (World.initial.run overtaken).map (fun w => (w.closer, (w.operations.operation 2).kind, (w.operations.operation 2).stage,
        (w.leases.attachment 1).acquiring, (w.leases.attachment 1).releases)) =
      some (.closed, .disconnect, .done, .fulfilled, 0) ∧
    (World.initial.run (attaching 0 ++ [.removeSession "s", .resumeRelease 0, .released 0 true, .published 0 true,
        .resumeRemoval 0, .removalClosed 0 false, .attachClient 0 "s", .begin 1, .resolved 1 true, .opened 1 true])).map
        (fun w => (w.sessions.handleCount, w.sessions.handle 0, w.sessions.handle 1)) =
      some (2, ⟨"s", false, false⟩, ⟨"s", false, false⟩) := by
  decide

end Shuvpi.Router
