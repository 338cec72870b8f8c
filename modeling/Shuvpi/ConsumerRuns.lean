import Shuvpi.ConsumerEnds

/-!
# Runs of a remote service binding

The subscriptions of a binding over whole runs. `KeyedBinding.rebind` forgets what is
starting before it waits for the last subscription to close; an observer that is added during
the wait starts a subscription of its own, and the rebind then starts another. All else that
happens keeps one subscription for each service.
-/
namespace Shuvpi.Consumer

variable {F S U : Type}

namespace World

/-- No observer is added to a keyed binding while a rebind of it waits. -/
def allowed (w : World F) : Event S U → Bool
  | .observe serviceId => (w.keyed serviceId).all fun b => !w.reopens b
  | _ => true

def allowedRun (facade : ServiceFacade F S U) (allowlist : String → Bool) (w : World F) : List (Event S U) → Bool
  | [] => true
  | event :: events => w.allowed event && ((w.step facade allowlist event).all fun w => w.allowedRun facade allowlist events)

/-- The transport has returned the subscription, and it was not closed. -/
def opened (w : World F) (t : Nat) : Prop := (w.start t).stage = .returned ∧ (w.start t).closes = 0

/-- The service that a subscription is for. -/
def serviceOf (w : World F) (t : Nat) : String := (w.binding (w.start t).binding).serviceId

variable {w w' : World F} {facade : ServiceFacade F S U} {allowlist : String → Bool}

theorem Inv.step (h : w.Inv none) {event : Event S U} (hallowed : w.allowed event = true)
    (hw : w.step facade allowlist event = some w') : w'.Inv none := by
  cases event with
  | use serviceId =>
    cases hw
    exact h.use facade allowlist serviceId
  | observe serviceId =>
    cases hw
    refine h.observe facade allowlist serviceId ?_
    intro b hb
    have hkeyed : (w.keyed serviceId).all (fun b => !w.reopens b) = true := hallowed
    rw [hb, Option.all_some, Bool.not_eq_true'] at hkeyed
    exact hkeyed
  | stop b => exact h.stop hw
  | disposeInstances b => exact h.disposeInstances hw
  | rebind bound =>
    cases hw
    exact h.rebind facade bound
  | dispose =>
    cases hw
    exact h.dispose facade
  | resume t => exact h.resume hw
  | reject t => exact h.reject hw
  | subscribed t snapshot => exact h.subscribed facade hw
  | update t u => exact h.update_ facade hw

theorem Inv.run (h : w.Inv none) {events : List (Event S U)} (hallowed : w.allowedRun facade allowlist events = true)
    (hw : w.run facade allowlist events = some w') : w'.Inv none := by
  induction events generalizing w with
  | nil =>
    cases hw
    exact h
  | cons event events ih =>
    unfold World.run at hw
    unfold allowedRun at hallowed
    obtain ⟨next, hstep, hrest⟩ := Option.bind_eq_some_iff.mp hw
    rw [hstep, Option.all_some, Bool.and_eq_true] at hallowed
    exact ih (h.step hallowed.1 hstep) hallowed.2 hrest

/-! ## What the invariant says of subscriptions -/

variable {t : Nat} (h : w.Inv none)
include h

/-- A subscription that is open is the one its binding holds. -/
theorem Inv.opened (ht : w.opened t) :
    w.Current t (w.start t).binding ∧ (w.binding (w.start t).binding).subscription = some t := by
  rcases h.returned t ht.1 with ⟨hc, hs, -⟩ | ⟨-, hcloses⟩
  · exact ⟨hc, hs⟩
  · rw [ht.2] at hcloses
    cases hcloses

theorem Inv.inMap_of_current {t b : Nat} (hc : w.Current t b) : w.inMap b = true :=
  h.mapped b (hc.binding_below h) hc.live

/-- Two bindings in use that are for one service are the same. -/
theorem Inv.binding_unique {b b' : Nat} (hb : w.inMap b = true) (hb' : w.inMap b' = true)
    (hname : (w.binding b).serviceId = (w.binding b').serviceId) : b = b' := by
  obtain ⟨hlt, hlive⟩ := h.inMap_live hb
  obtain ⟨hlt', hlive'⟩ := h.inMap_live hb'
  have hmode : (w.binding b).mode = (w.binding b').mode := by
    have hm := h.modes b hlt hlive
    rw [hname, h.modes b' hlt' hlive'] at hm
    exact (Option.some.inj hm).symm
  unfold inMap at hb hb'
  rw [hmode, hname] at hb
  rw [Bool.and_eq_true] at hb hb'
  cases hm : (w.binding b').mode with
  | singleton | keyed =>
    rw [hm] at hb hb'
    exact Option.some.inj ((of_decide_eq_true hb.2).symm.trans (of_decide_eq_true hb'.2))

theorem Inv.opened_unique {t t' : Nat} (ht : w.opened t) (ht' : w.opened t')
    (hname : w.serviceOf t = w.serviceOf t') : t = t' := by
  obtain ⟨hc, hs⟩ := h.opened ht
  obtain ⟨hc', hs'⟩ := h.opened ht'
  have hbind := h.binding_unique (h.inMap_of_current hc) (h.inMap_of_current hc') hname
  rw [hbind, hs'] at hs
  exact (Option.some.inj hs).symm

theorem Inv.closed_once (ht : (w.start t).stage = .returned) (hs : w.superseded t = true) :
    (w.start t).closes = 1 := by
  rcases h.returned t ht with ⟨hc, -, -⟩ | ⟨-, hcloses⟩
  · have hcur := (Current.eq_superseded hc.below hc.used).mpr hc
    rw [hs] at hcur
    cases hcur
  · exact hcloses

omit h

theorem update_superseded {u : ServiceProviderUpdate S U} (hs : w.superseded t = true)
    (hw : w.update_ facade t u = some w') : w' = w := by
  unfold update_ at hw
  dsimp only at hw
  rw [hs, if_pos rfl] at hw
  split at hw
  · cases hw
  · exact (Option.some.inj hw).symm

variable {b : Nat}

/-- Nothing is under way: each binding in use holds a subscription that was activated. -/
theorem Inv.settled (h : w.Inv none) (hquiet : ∀ t, ¬ w.pending t) (hbound : w.bound = true) (hf : w.failed = false)
    (hb : w.inMap b = true) :
    ∃ t, w.opened t ∧ w.serviceOf t = (w.binding b).serviceId ∧ (w.start t).activated = true := by
  obtain ⟨hlt, hlive⟩ := h.inMap_live hb
  rcases h.progress hf hbound b hlt hlive (by simp) with ⟨t, -, hp⟩ | ⟨t, hs, hact⟩
  · exact absurd hp (hquiet t)
  · obtain ⟨hc, hst, hcl⟩ := h.subscription b t hlt hlive hs
    refine ⟨t, ⟨hst, hcl⟩, ?_, hact⟩
    unfold serviceOf
    rw [hc.binding]

variable {serviceId : String}

theorem Inv.inMap_singletons (h : w.Inv none) (hb : w.singletons serviceId = some b) :
    w.inMap b = true ∧ (w.binding b).serviceId = serviceId := by
  obtain ⟨hlt, -, hname, hlive⟩ := h.singletons serviceId b hb
  exact ⟨h.mapped b hlt hlive, hname⟩

theorem Inv.inMap_keyed (h : w.Inv none) (hb : w.keyed serviceId = some b) :
    w.inMap b = true ∧ (w.binding b).serviceId = serviceId := by
  obtain ⟨hlt, -, hname, hlive⟩ := h.keyed serviceId b hb
  exact ⟨h.mapped b hlt hlive, hname⟩

/-- In every state that allowed events lead to, a service has at most one open subscription that is not superseded, every
other one was closed once, and updates of a superseded one do nothing. When nothing is under way and no call of the
transport has failed, each service in use has one that is open and activated. -/
theorem subscriptions_of_allowed {bound : Bool} {events : List (Event S U)}
    (hallowed : (initial facade bound).allowedRun facade allowlist events = true)
    (hrun : (initial facade bound).run facade allowlist events = some w) :
    (∀ t t', w.opened t → w.superseded t = false → w.opened t' → w.superseded t' = false → w.serviceOf t = w.serviceOf t' →
      t = t') ∧
    (∀ t, (w.start t).stage = .returned → w.superseded t = true → (w.start t).closes = 1) ∧
    (∀ t (u : ServiceProviderUpdate S U) w', w.superseded t = true → w.update_ facade t u = some w' → w' = w) ∧
    (w.bound = true → w.failed = false → (∀ t, ¬ w.pending t) → ∀ serviceId b,
      (w.singletons serviceId = some b ∨ w.keyed serviceId = some b) →
        ∃! t, w.opened t ∧ w.serviceOf t = serviceId ∧ (w.start t).activated = true) := by
  have h := (initial_inv facade bound).run hallowed hrun
  refine ⟨?_, ?_, ?_, ?_⟩
  · exact fun t t' ht _ ht' _ hname => h.opened_unique ht ht' hname
  · exact fun t => h.closed_once
  · exact fun t u w' => update_superseded
  · intro hbound hf hquiet serviceId b hb
    have hin : w.inMap b = true ∧ (w.binding b).serviceId = serviceId := by
      rcases hb with hb | hb
      · exact h.inMap_singletons hb
      · exact h.inMap_keyed hb
    obtain ⟨t, hopened, hname, hact⟩ := h.settled hquiet hbound hf hin.1
    rw [hin.2] at hname
    refine ⟨t, ⟨hopened, hname, hact⟩, ?_⟩
    rintro t' ⟨hopened', hname', -⟩
    exact h.opened_unique hopened' hopened (hname'.trans hname.symm)

end World

/-! Services whose state is a sum. -/

def sumFacade : ServiceFacade Nat Nat Nat := ⟨0, fun _ members => (members, false), fun sum change => sum + change, fun _ => 0⟩

def singletonSnapshot (members : Nat) : SubscriptionSnapshot Nat := ⟨.singleton, "clock", [⟨none, members⟩]⟩

def keyedSnapshot (members : Nat) : SubscriptionSnapshot Nat := ⟨.keyed, "chat", [⟨some ⟨"a", 1⟩, members⟩]⟩

/-- Two services are used, rebound while the first calls are running, and rebound once more. -/
def rebinding : List (Event Nat Nat) :=
  [.use "clock", .observe "chat", .subscribed 1 (keyedSnapshot 3), .rebind true, .subscribed 0 (singletonSnapshot 1), .resume 2,
    .resume 3, .subscribed 2 (singletonSnapshot 2), .update 1 (.closed ⟨"a", 1⟩), .subscribed 3 (keyedSnapshot 4),
    .observe "chat", .rebind true, .resume 4, .resume 5, .subscribed 5 (keyedSnapshot 5), .subscribed 4 (singletonSnapshot 6)]

theorem subscriptions_of_allowed_rebinding :
    (World.initial sumFacade true).allowedRun sumFacade (fun _ => true) rebinding = true ∧
      ∃ w, (World.initial sumFacade true).run sumFacade (fun _ => true) rebinding = some w ∧
        (∀ t, (w.start t).stage = .returned → w.superseded t = true → (w.start t).closes = 1) := by
  have hallowed : (World.initial sumFacade true).allowedRun sumFacade (fun _ => true) rebinding = true := by decide +kernel
  have hruns : ((World.initial sumFacade true).run sumFacade (fun _ => true) rebinding).isSome = true := by decide +kernel
  obtain ⟨w, hrun⟩ := Option.isSome_iff_exists.mp hruns
  exact ⟨hallowed, w, hrun, (World.subscriptions_of_allowed hallowed hrun).2.1⟩

def emptySnapshot : SubscriptionSnapshot Nat := ⟨.keyed, "chat", []⟩

/-- A second observer is added while a rebind waits for the last subscription to close. -/
def observing : List (Event Nat Nat) :=
  [.observe "chat", .subscribed 0 emptySnapshot, .rebind true, .observe "chat", .resume 1, .subscribed 2 emptySnapshot,
    .subscribed 1 emptySnapshot]

/-- Then both the observer and the rebind start a subscription. They are open, activated and not superseded, and only the
second is held by the binding: not even disposing closes the first. -/
theorem subscribed_twice :
    ((World.initial sumFacade true).run sumFacade (fun _ => true) observing).map (fun w =>
        [1, 2].map fun t => (w.serviceOf t, (w.start t).stage, (w.start t).closes, (w.start t).activated, w.superseded t)) =
      some [("chat", .returned, 0, true, false), ("chat", .returned, 0, true, false)] ∧
    ((World.initial sumFacade true).run sumFacade (fun _ => true) (observing ++ [.dispose])).map (fun w =>
        [0, 1, 2].map fun t => (w.start t).closes) = some [1, 1, 0] := by
  decide +kernel

end Shuvpi.Consumer
