import Shuvpi.Provider

/-!
# Runs of the service provider

When the subscriptions of a provider observe their updates in order: the rules that a
run must keep to, and the invariant of the runs that do. The invariant has four
layers: the publication queues of the states, the registry of instances, the
subscriber records, and on top of them what the loops in progress still owe to each
subscriber. A subscriber is in step with the instance under an address, or a loop that
renews that address has yet to come to it.
-/
open List Option

namespace Shuvpi.Provider

variable {V O : Type}

/-! ## The rules -/

namespace World

/-- A loop at this cursor has a subscriber left to visit. -/
def Unfinished (w : World V O) (service cursor : Nat) : Prop :=
  (w.registrations service).subscribers.nextFrom cursor ≠ none

/-- An open subscription of the service is replaying its buffer and has updates left. -/
def Replaying (w : World V O) (service : Nat) : Prop :=
  ∃ c ∈ (w.registrations service).subscribers.members, (w.subscribers c).replaying.isEmpty = false

/-- The instance publishes the updates of the state. -/
def Feeds (w : World V O) (id u : Nat) : Prop := ∃ p ∈ (w.instances u).members.list, p.2 = .state id

/-- An `#emit` loop that has subscribers left. -/
def Pending (w : World V O) : Frame V O → Prop
  | .emit service _ _ cursor => w.Unfinished service cursor
  | _ => False

end World

def Frame.isOf (service : Nat) : Frame V O → Bool
  | .emit service' _ _ _ => service' = service
  | _ => false

def Frame.isAbout (u : Nat) : Frame V O → Bool
  | .emit _ _ about _ => about = u
  | _ => false

def Frame.announces (u : Nat) : Frame V O → Bool
  | .emit _ (.spawned _) about _ => about = u
  | .emit _ (.replaced _) about _ => about = u
  | _ => false

/-- A new subscriber of the service may be visited by this loop: it passes over what
the snapshot covers, and a generation that was closed is not in the snapshot. -/
def World.Harmless (w : World V O) (service : Nat) : Frame V O → Prop
  | .emit service' (.state _ _ _ _) about _ => service' = service → (w.instances about).active = true
  | .emit _ (.closed _) _ _ => True
  | .emit service' _ _ _ => service' ≠ service
  | _ => True

/-- Nothing is published for a service while a subscription of it replays its buffer.
A state is not changed while its instance is still being announced, and an instance is
not removed while updates of it, or for a singleton of its service, are still being
handed out; a change of a state that is delivering is only queued and always allowed.
Nobody subscribes under a loop that announces or withdraws an instance of the service.
A singleton is provided while nobody is subscribed. -/
def World.Allowed (diff : V → V → List O) (w : World V O) : Operation V → Prop
  | .commit id next => (diff (w.states id).value next).isEmpty = true ∨ (w.states id).delivering = true ∨
    ∀ u < w.instanceCount, (w.instances u).active = true → w.Feeds id u →
      ¬ w.Replaying (w.instances u).service ∧ ∀ frame ∈ w.stack, frame.announces u = true → ¬ w.Pending frame
  | .provide service _ => (w.registrations service).subscribers.entries = []
  | .withdraw service => ¬ w.Replaying service ∧ ∀ frame ∈ w.stack, frame.isOf service = true → ¬ w.Pending frame
  | .replace service _ => ¬ w.Replaying service ∧ ∀ frame ∈ w.stack, frame.isOf service = true → ¬ w.Pending frame
  | .spawn service _ _ => ¬ w.Replaying service
  | .close u => ¬ w.Replaying (w.instances u).service ∧ ∀ frame ∈ w.stack, frame.isAbout u = true → ¬ w.Pending frame
  | .subscribe service _ => ∀ frame ∈ w.stack, w.Harmless service frame
  | .activate _ => True
  | .unsubscribe _ => True
  | .next => True

def World.AllAllowed (diff : V → V → List O) (before : JsString → JsString → Bool) (w : World V O) :
    List (Operation V) → Prop
  | [] => True
  | operation :: operations =>
    w.Allowed diff operation ∧ (w.step diff before operation).AllAllowed diff before operations

instance (w : World V O) (service cursor : Nat) : Decidable (w.Unfinished service cursor) :=
  match h : (w.registrations service).subscribers.nextFrom cursor with
  | none => .isFalse fun hne => hne h
  | some p => .isTrue fun he => Option.some_ne_none p (h ▸ he)

instance (w : World V O) (service : Nat) : Decidable (w.Replaying service) :=
  inferInstanceAs (Decidable (∃ c ∈ (w.registrations service).subscribers.members,
    (w.subscribers c).replaying.isEmpty = false))

instance (w : World V O) (id u : Nat) : Decidable (w.Feeds id u) :=
  inferInstanceAs (Decidable (∃ p ∈ (w.instances u).members.list, p.2 = .state id))

instance (w : World V O) (frame : Frame V O) : Decidable (w.Pending frame) :=
  match frame with
  | .emit service _ _ cursor => inferInstanceAs (Decidable (w.Unfinished service cursor))
  | .deliver _ _ _ => .isFalse id
  | .replay _ => .isFalse id

instance (w : World V O) (service : Nat) (frame : Frame V O) : Decidable (w.Harmless service frame) :=
  match frame with
  | .emit service' (.state _ _ _ _) about _ =>
    inferInstanceAs (Decidable (service' = service → (w.instances about).active = true))
  | .emit _ (.closed _) _ _ => .isTrue trivial
  | .emit service' (.replaced _) _ _ => inferInstanceAs (Decidable (service' ≠ service))
  | .emit service' (.spawned _) _ _ => inferInstanceAs (Decidable (service' ≠ service))
  | .emit service' .unavailable _ _ => inferInstanceAs (Decidable (service' ≠ service))
  | .deliver _ _ _ => .isTrue trivial
  | .replay _ => .isTrue trivial

instance (diff : V → V → List O) (w : World V O) (operation : Operation V) : Decidable (w.Allowed diff operation) :=
  match operation with
  | .commit id next => inferInstanceAs (Decidable ((diff (w.states id).value next).isEmpty = true ∨
    (w.states id).delivering = true ∨ ∀ u < w.instanceCount, (w.instances u).active = true → w.Feeds id u →
      ¬ w.Replaying (w.instances u).service ∧ ∀ frame ∈ w.stack, frame.announces u = true → ¬ w.Pending frame))
  | .provide service _ => inferInstanceAs (Decidable ((w.registrations service).subscribers.entries = []))
  | .withdraw service => inferInstanceAs (Decidable (¬ w.Replaying service ∧
    ∀ frame ∈ w.stack, frame.isOf service = true → ¬ w.Pending frame))
  | .replace service _ => inferInstanceAs (Decidable (¬ w.Replaying service ∧
    ∀ frame ∈ w.stack, frame.isOf service = true → ¬ w.Pending frame))
  | .spawn service _ _ => inferInstanceAs (Decidable (¬ w.Replaying service))
  | .close u => inferInstanceAs (Decidable (¬ w.Replaying (w.instances u).service ∧
    ∀ frame ∈ w.stack, frame.isAbout u = true → ¬ w.Pending frame))
  | .subscribe service _ => inferInstanceAs (Decidable (∀ frame ∈ w.stack, w.Harmless service frame))
  | .activate _ => .isTrue trivial
  | .unsubscribe _ => .isTrue trivial
  | .next => .isTrue trivial

def World.decideAllAllowed (diff : V → V → List O) (before : JsString → JsString → Bool) :
    (w : World V O) → (operations : List (Operation V)) → Decidable (w.AllAllowed diff before operations)
  | _, [] => .isTrue trivial
  | w, operation :: operations =>
    @instDecidableAnd _ _ inferInstance (decideAllAllowed diff before (w.step diff before operation) operations)

instance (diff : V → V → List O) (before : JsString → JsString → Bool) (w : World V O)
    (operations : List (Operation V)) : Decidable (w.AllAllowed diff before operations) :=
  w.decideAllAllowed diff before operations

/-! ## Recorded sequences -/

def ServiceInstanceSnapshot.sequenceOf (snapshot : ServiceInstanceSnapshot V) (member : JsString) : Option Nat :=
  ((JsProps.get? snapshot.members member).bind id).map Prod.fst

theorem foldl_record_get (address : Option ServiceInstanceAddress) (members : List (JsString × Option (Nat × V)))
    (hnd : (JsProps.keys members).Nodup) (f : Sequences) (key : StateKey) :
    recordSnapshotSequences f ⟨address, members⟩ key =
      (if key.1 = address then ServiceInstanceSnapshot.sequenceOf ⟨address, members⟩ key.2 else none).or (f key) := by
  induction members generalizing f with
  | nil =>
    simp [recordSnapshotSequences, ServiceInstanceSnapshot.sequenceOf]
  | cons p members ih =>
    obtain ⟨name, content⟩ := p
    obtain ⟨hnew, hnd'⟩ := nodup_cons.mp hnd
    have hnone : JsProps.get? members name = none := (JsProps.get?_eq_none_iff members name).mpr hnew
    cases content with
    | none =>
      have hstep : recordSnapshotSequences f ⟨address, (name, none) :: members⟩ =
          recordSnapshotSequences f ⟨address, members⟩ := rfl
      rw [hstep, ih hnd']
      simp only [ServiceInstanceSnapshot.sequenceOf, JsProps.get?_cons]
      by_cases hn : name = key.2
      · rw [← hn, hnone]
        simp
      · simp [hn]
    | some content =>
      have hstep : recordSnapshotSequences f ⟨address, (name, some content) :: members⟩ =
          recordSnapshotSequences (Function.update f (address, name) (some content.1)) ⟨address, members⟩ := rfl
      rw [hstep, ih hnd']
      simp only [ServiceInstanceSnapshot.sequenceOf, JsProps.get?_cons]
      by_cases hk : key = (address, name)
      · subst hk
        simp [hnone]
      · rw [Function.update_of_ne hk]
        by_cases ha : key.1 = address
        · have hn : name ≠ key.2 := fun hn => hk (Prod.ext ha hn.symm)
          simp [hn]
        · simp [ha]

variable {snapshot : ServiceInstanceSnapshot V} (hnd : (JsProps.keys snapshot.members).Nodup)
include hnd

variable (f : Sequences)

theorem record_get (key : StateKey) : recordSnapshotSequences f snapshot key =
      (if key.1 = snapshot.address then snapshot.sequenceOf key.2 else none).or (f key) :=
  foldl_record_get snapshot.address snapshot.members hnd f key

theorem record_other {key : StateKey}
    (h : key.1 ≠ snapshot.address) : recordSnapshotSequences f snapshot key = f key := by
  rw [record_get hnd, if_neg h, none_or]

theorem record_self (member : JsString) :
    recordSnapshotSequences f snapshot (snapshot.address, member) =
      (snapshot.sequenceOf member).or (f (snapshot.address, member)) := by
  rw [record_get hnd, if_pos rfl]

omit hnd

section Snapshots

variable (w : World V O) (u : Nat)

theorem World.stateOf_eq_some (member : JsString) (id : Nat) :
    w.stateOf u member = some id ↔ JsProps.get? (w.instances u).members.list member = some (.state id) := by
  rw [World.stateOf]
  cases JsProps.get? (w.instances u).members.list member with
  | none => simp
  | some m => cases m <;> simp

theorem snapshotInstance_keys :
    JsProps.keys (w.snapshotInstance u).members = JsProps.keys (w.instances u).members.list := by
  simp only [JsProps.keys, World.snapshotInstance, List.map_map]
  apply List.map_congr_left
  intro p _
  obtain ⟨name, member⟩ := p
  cases member <;> rfl

theorem snapshotInstance_nodup : (JsProps.keys (w.snapshotInstance u).members).Nodup := by
  rw [snapshotInstance_keys]
  exact (w.instances u).members.nodup

theorem snapshotInstance_sequenceOf (member : JsString) :
    (w.snapshotInstance u).sequenceOf member = (w.stateOf u member).map fun id => (w.states id).sequence := by
  simp only [ServiceInstanceSnapshot.sequenceOf, World.snapshotInstance, World.stateOf]
  induction (w.instances u).members.list with
  | nil => rfl
  | cons p list ih =>
    obtain ⟨name, content⟩ := p
    rw [map_cons, JsProps.get?_cons, JsProps.get?_cons]
    by_cases hn : name = member
    · cases content <;> simp [hn]
    · cases content <;> simpa [hn] using ih

end Snapshots

/-! ## Views -/

theorem View.observeAll_append (v : View) (updates updates' : List (ServiceProviderUpdate V O)) :
    v.observeAll (updates ++ updates') = (v.observeAll updates).bind fun v => v.observeAll updates' := by
  induction updates generalizing v with
  | nil => rfl
  | cons update updates ih =>
    rw [cons_append, View.observeAll, View.observeAll]
    cases v.observe update with
    | none => rfl
    | some v' => exact ih v'

variable (snapshot : List (ServiceInstanceSnapshot V))

theorem viewOf_append (updates updates' : List (ServiceProviderUpdate V O)) :
    viewOf snapshot (updates ++ updates') = (viewOf snapshot updates).bind fun v => v.observeAll updates' := by
  rw [viewOf, viewOf]
  cases View.announceAll ⟨[], fun _ => none⟩ snapshot with
  | none => rfl
  | some v => exact View.observeAll_append v updates updates'

theorem viewOf_snoc (updates : List (ServiceProviderUpdate V O))
    (update : ServiceProviderUpdate V O) {v : View} (h : viewOf snapshot updates = some v) :
    viewOf snapshot (updates ++ [update]) = v.observe update := by
  rw [viewOf_append, h]
  simp only [bind_some, View.observeAll]
  cases v.observe update <;> rfl

/-- A view of more updates begins with the view of fewer. -/
theorem viewOf_front {snapshot : List (ServiceInstanceSnapshot V)} {updates updates' : List (ServiceProviderUpdate V O)}
    {v : View} (h : viewOf snapshot (updates ++ updates') = some v) : ∃ v', viewOf snapshot updates = some v' := by
  rw [viewOf_append] at h
  obtain ⟨v', hv', _⟩ := bind_eq_some_iff.mp h
  exact ⟨v', hv'⟩

variable (snapshots : List (ServiceInstanceSnapshot V))

/-- A snapshot of instances with different addresses announces each of them. -/
theorem announceAll_eq (v : View)
    (hdist : (snapshots.map ServiceInstanceSnapshot.address).Nodup)
    (hnew : ∀ s ∈ snapshots, ∀ address, s.address = some address → address ∉ v.announced) :
    ∃ announced, v.announceAll snapshots = some ⟨announced, snapshots.foldl recordSnapshotSequences v.known⟩ ∧
      ∀ address, address ∈ announced ↔ address ∈ v.announced ∨ ∃ s ∈ snapshots, s.address = some address := by
  induction snapshots generalizing v with
  | nil => exact ⟨v.announced, rfl, by simp⟩
  | cons s snapshots ih =>
    obtain ⟨hs, hdist'⟩ := nodup_cons.mp hdist
    have hrest : ∀ s' ∈ snapshots, s'.address ≠ s.address := fun s' hs' he => hs (mem_map.mpr ⟨s', hs', he⟩)
    cases ha : s.address with
    | none =>
      obtain ⟨announced, he, hmem⟩ := ih ⟨v.announced, recordSnapshotSequences v.known s⟩ hdist'
        (fun s' hs' => hnew s' (mem_cons_of_mem _ hs'))
      refine ⟨announced, ?_, ?_⟩
      · simpa only [View.announceAll, View.announce, ha, bind_some, foldl_cons] using he
      · intro address
        simp [hmem, ha]
    | some a =>
      have hfresh := hnew s mem_cons_self a ha
      obtain ⟨announced, he, hmem⟩ := ih ⟨a :: v.announced, recordSnapshotSequences v.known s⟩ hdist' (by
        intro s' hs' address hs'a hin
        rcases mem_cons.mp hin with rfl | hin
        · exact hrest s' hs' (by rw [hs'a, ha])
        · exact hnew s' (mem_cons_of_mem _ hs') address hs'a hin)
      refine ⟨announced, ?_, ?_⟩
      · simpa only [View.announceAll, View.announce, ha, if_neg hfresh, bind_some, foldl_cons] using he
      · intro address
        rw [hmem]
        simp only [mem_cons, exists_eq_or_imp, ha, some.injEq]
        tauto

theorem foldl_record_other
    (hnd : ∀ s ∈ snapshots, (JsProps.keys s.members).Nodup) (f : Sequences) {key : StateKey}
    (h : ∀ s ∈ snapshots, s.address ≠ key.1) : snapshots.foldl recordSnapshotSequences f key = f key := by
  induction snapshots generalizing f with
  | nil => rfl
  | cons s snapshots ih =>
    rw [foldl_cons, ih (fun s' hs' => hnd s' (mem_cons_of_mem _ hs')) _
      (fun s' hs' => h s' (mem_cons_of_mem _ hs'))]
    exact record_other (hnd s mem_cons_self) f (Ne.symm (h s mem_cons_self))

theorem foldl_record_self
    (hnd : ∀ s ∈ snapshots, (JsProps.keys s.members).Nodup)
    (hdist : (snapshots.map ServiceInstanceSnapshot.address).Nodup) (f : Sequences) (member : JsString)
    {s : ServiceInstanceSnapshot V} (hs : s ∈ snapshots) :
    snapshots.foldl recordSnapshotSequences f (s.address, member) = (s.sequenceOf member).or (f (s.address, member)) := by
  induction snapshots generalizing f with
  | nil => cases hs
  | cons s' snapshots ih =>
    obtain ⟨hs', hdist'⟩ := nodup_cons.mp hdist
    have hnd' : ∀ s ∈ snapshots, (JsProps.keys s.members).Nodup := fun s hs => hnd s (mem_cons_of_mem _ hs)
    rw [foldl_cons]
    rcases mem_cons.mp hs with rfl | hs
    · rw [foldl_record_other snapshots hnd' _ (fun r hr he => hs' (mem_map.mpr ⟨r, hr, he⟩)),
        record_self (hnd s mem_cons_self)]
    · have hne : s.address ≠ s'.address := fun he => hs' (mem_map.mpr ⟨s, hs, he⟩)
      rw [ih hnd' hdist' _ hs, record_other (hnd s' mem_cons_self) f hne]

/-! ## The layers of the invariant -/

/-- The address whose instance an update announces, replaces or removes. -/
def ServiceProviderUpdate.renews : ServiceProviderUpdate V O → Option (Option ServiceInstanceAddress)
  | .state _ _ _ _ => none
  | .replaced _ => some none
  | .spawned snapshot => some snapshot.address
  | .unavailable => some none
  | .closed address => some (some address)

/-- The loop still has to hand the current publication of a state member to a
subscriber with the stamp `t`. -/
def Frame.Owes (t u : Nat) (member : JsString) : Frame V O → Prop
  | .deliver _ _ left => (u, member) ∈ left
  | .emit _ (.state _ member' _ _) about cursor => about = u ∧ member' = member ∧ cursor ≤ t
  | _ => False

namespace World

/-- The last publication that has left the queue. -/
def emitted (w : World V O) (id : Nat) : Nat := (w.states id).sequence - (w.states id).publications.length

structure Queues (w : World V O) : Prop where
  enough : ∀ id, (w.states id).publications.length ≤ (w.states id).sequence
  numbered : ∀ id, (w.states id).publications.map Publication.sequence =
    List.range' (w.emitted id + 1) (w.states id).publications.length
  busy : ∀ id publication left, .deliver id publication left ∈ w.stack →
    (w.states id).delivering = true ∧ publication.sequence = w.emitted id ∧ 0 < w.emitted id
  idle : ∀ id, (∀ publication left, .deliver id publication left ∉ w.stack) →
    (w.states id).delivering = false ∧ (w.states id).publications = []

structure Registry (w : World V O) : Prop where
  reached : ∀ service address u, w.instanceAt service address = some u ↔
    (w.instances u).active = true ∧ (w.instances u).service = service ∧ (w.instances u).address = address
  fresh : ∀ u, w.instanceCount ≤ u → (w.instances u).active = false ∧ (w.instances u).members.list = []
  dated : ∀ u address, (w.instances u).active = true → (w.instances u).address = some address →
    address.generation ≤ (w.registrations (w.instances u).service).generations address.key
  listed : ∀ service, ∀ p ∈ (w.registrations service).instances, ∃ generation,
    (w.instances p.2).address = some ⟨p.1, generation⟩
  keys : ∀ service, (JsProps.keys (w.registrations service).instances).Nodup
  modes : ∀ service, ((w.registrations service).mode = .singleton → (w.registrations service).instances = []) ∧
    ((w.registrations service).mode = .keyed → (w.registrations service).singleton = none)
  listening : ∀ id u member, (u, member) ∈ (w.states id).sourceListeners ↔
    (w.instances u).active = true ∧ w.stateOf u member = some id
  nodup : ∀ id, (w.states id).sourceListeners.Nodup

structure Seats (w : World V O) : Prop where
  seated : ∀ service t c, (t, c) ∈ (w.registrations service).subscribers.entries →
    (w.subscribers c).service = service ∧ (w.subscribers c).closed = false
  seat : ∀ c, (w.subscribers c).closed = false →
    ∃ t, (t, c) ∈ (w.registrations (w.subscribers c).service).subscribers.entries
  fresh : ∀ c, w.subscriberCount ≤ c → (w.subscribers c).closed = true ∧ (w.subscribers c).active = false
  active : ∀ c, (w.subscribers c).active = true → (w.subscribers c).buffer = []
  inactive : ∀ c, (w.subscribers c).active = false → (w.subscribers c).replaying = []
  replaying : ∀ c, (w.subscribers c).replaying ≠ [] → .replay c ∈ w.stack
  replayed : ∀ c, .replay c ∈ w.stack → (w.subscribers c).active = true

/-- What holds between a loop and one further down the stack. -/
structure Compatible (w : World V O) (upper lower : Frame V O) : Prop where
  /-- A replay that is not over is not overtaken. -/
  replay : ∀ c, lower = .replay c → (w.subscribers c).closed = false → (w.subscribers c).replaying ≠ [] →
    upper.isOf (w.subscribers c).service = false ∧ ∀ id publication left, upper = .deliver id publication left →
      ∀ u member, (w.instances u).active = true → (w.instances u).service = (w.subscribers c).service →
        w.stateOf u member ≠ some id
  /-- An announcement that is not over is not overtaken by updates of the instance. -/
  announcing : ∀ u, lower.announces u = true → w.Pending lower →
    (∀ id publication left, upper = .deliver id publication left → ∀ member, w.stateOf u member ≠ some id) ∧
      (∀ service address member sequence ops cursor,
        upper ≠ .emit service (.state address member sequence ops) u cursor) ∧ upper.announces u = false
  /-- A state is delivered once at a time. -/
  delivering : ∀ id publication left, upper = .deliver id publication left →
    (∀ publication' left', lower ≠ .deliver id publication' left') ∧ ∀ service address member sequence ops u cursor,
        lower = .emit service (.state address member sequence ops) u cursor → w.stateOf u member ≠ some id
  /-- So is each of its listeners. -/
  once : ∀ service address member sequence ops u cursor,
    upper = .emit service (.state address member sequence ops) u cursor → ∀ service' address' sequence' ops' cursor',
        lower ≠ .emit service' (.state address' member sequence' ops') u cursor'

/-- A snapshot of an instance that lies between what has left the queues and what is
in them. -/
structure Announces (w : World V O) (u : Nat) (snapshot : ServiceInstanceSnapshot V) : Prop where
  active : (w.instances u).active = true
  address : snapshot.address = (w.instances u).address
  nodup : (JsProps.keys snapshot.members).Nodup
  fed : ∀ member id, w.stateOf u member = some id →
    ∃ sequence, snapshot.sequenceOf member = some sequence ∧ w.emitted id ≤ sequence ∧
      sequence ≤ (w.states id).sequence
  unfed : ∀ member, w.stateOf u member = none → snapshot.sequenceOf member = none

/-- What an update says about the world it is handed out in. -/
def Tells (w : World V O) (service u : Nat) : ServiceProviderUpdate V O → Prop
  | .state address _ _ _ => (w.instances u).active = true ∧ (w.instances u).address = address
  | .replaced snapshot => w.Announces u snapshot ∧ snapshot.address = none
  | .spawned snapshot => w.Announces u snapshot ∧ ∃ address, snapshot.address = some address
  | .unavailable => w.instanceAt service none = none ∧ (w.registrations service).mode = .singleton
  | .closed address => w.instanceAt service (some address) = none

structure Frames (w : World V O) : Prop where
  pairs : w.stack.Pairwise w.Compatible
  deliver : ∀ id publication left, .deliver id publication left ∈ w.stack →
    left.Nodup ∧ ∀ l ∈ left, w.stateOf l.1 l.2 = some id
  emit : ∀ service update u cursor, .emit service update u cursor ∈ w.stack →
    u < w.instanceCount ∧ (w.instances u).service = service ∧ (w.Unfinished service cursor → w.Tells service u update)
  state : ∀ service address member sequence ops u cursor,
    .emit service (.state address member sequence ops) u cursor ∈ w.stack →
      ∃ id publication left, w.stateOf u member = some id ∧ .deliver id publication left ∈ w.stack ∧
        (u, member) ∉ left ∧ sequence = publication.sequence ∧ (w.instances u).address = address
  closed : ∀ service address u cursor, .emit service (.closed address) u cursor ∈ w.stack →
    w.instanceAt service (some address) = none ∧
      address.generation ≤ (w.registrations service).generations address.key

/-- The publication now being handed out has not reached the subscriber with this stamp. -/
def Due (w : World V O) (t u : Nat) (member : JsString) : Prop := ∃ frame ∈ w.stack, frame.Owes t u member

/-- What the subscriber with this stamp has been handed of a state member. -/
def Floor (w : World V O) (t u : Nat) (member : JsString) (id n : Nat) : Prop :=
  (w.Due t u member ∧ n + 1 = w.emitted id) ∨ (¬ w.Due t u member ∧ n = w.emitted id)

/-- The view agrees with the instance under an address; the updates it is ahead of are
those that its snapshot covers. -/
structure InStep (w : World V O) (service t : Nat) (v : View) (f : Sequences)
    (address : Option ServiceInstanceAddress) : Prop where
  fed : ∀ u member id, w.instanceAt service address = some u → w.stateOf u member = some id →
    ∃ n k, w.Floor t u member id n ∧ v.known (address, member) = some k ∧ n ≤ k ∧ k ≤ (w.states id).sequence ∧
      (f (address, member) = none → k = n)
  unfed : ∀ member, (∀ u, w.instanceAt service address = some u → w.stateOf u member = none) →
    v.known (address, member) = none

/-- A loop that renews the address has yet to come to the subscriber. -/
def Covered (w : World V O) (service t : Nat) (address : Option ServiceInstanceAddress) : Prop :=
  ∃ update u cursor, .emit service update u cursor ∈ w.stack ∧ update.renews = some address ∧ cursor ≤ t

structure Follows (w : World V O) (exempt : Nat → Option ServiceInstanceAddress → Prop) (service t : Nat) (v : View)
    (f : Sequences) : Prop where
  filtered : ∀ key x, f key = some x → v.known key = some x
  announced : ∀ address member, v.known (some address, member) ≠ none → address ∈ v.announced
  dated : ∀ address ∈ v.announced, address.generation ≤ (w.registrations service).generations address.key
  unheard : ∀ snapshot u cursor address, .emit service (.spawned snapshot) u cursor ∈ w.stack → cursor ≤ t →
    snapshot.address = some address → address ∉ v.announced
  instep : ∀ address, exempt service address ∨ w.Covered service t address ∨ w.InStep service t v f address

/-- All that a subscriber has been handed or will be handed from its own buffers. -/
def received (w : World V O) (c : Nat) : List (ServiceProviderUpdate V O) :=
  (w.subscribers c).log ++ ((w.subscribers c).replaying ++ (w.subscribers c).buffer)

structure Views (w : World V O) (exempt : Nat → Option ServiceInstanceAddress → Prop) : Prop where
  accepted : ∀ c < w.subscriberCount, ∃ v, viewOf (w.subscribers c).snapshot (w.received c) = some v
  follows : ∀ service t c, (t, c) ∈ (w.registrations service).subscribers.entries →
    ∀ v, viewOf (w.subscribers c).snapshot (w.received c) = some v →
      w.Follows exempt service t v (w.subscribers c).snapshotSequences

end World

/-- The invariant; the addresses that are exempt are about to be renewed. -/
structure Inv (exempt : Nat → Option ServiceInstanceAddress → Prop) (w : World V O) : Prop where
  queues : w.Queues
  registry : w.Registry
  seats : w.Seats
  frames : w.Frames
  views : w.Views exempt

/-- Nothing is about to be renewed. -/
def noneExempt : Nat → Option ServiceInstanceAddress → Prop := fun _ _ => False

section Consequences

variable {w : World V O}

theorem World.not_due_nil (hstack : w.stack = []) (t u : Nat) (member : JsString) : ¬ w.Due t u member := by
  rintro ⟨frame, hframe, _⟩
  rw [hstack] at hframe
  cases hframe

theorem World.unfinished_iff (w : World V O) (service cursor : Nat) :
    w.Unfinished service cursor ↔ ∃ p ∈ (w.registrations service).subscribers.entries, cursor ≤ p.1 := by
  rw [World.Unfinished, ne_eq, JsSet.nextFrom_none]
  simp only [not_forall, not_lt, exists_prop]

/-- In an idle world an active subscription has been handed all that it has received. -/
theorem Inv.received_eq (h : Inv noneExempt w) {c : Nat} (hstack : w.stack = [])
    (hactive : (w.subscribers c).active = true) : w.received c = (w.subscribers c).log := by
  have hrepl : (w.subscribers c).replaying = [] := by
    by_contra hne
    have := h.seats.replaying c hne
    rw [hstack] at this
    cases this
  rw [World.received, hrepl, h.seats.active c hactive, append_nil, append_nil]

/-- A subscription has observed its updates in order, and is up to date in an idle world. -/
theorem Inv.upToDate (h : Inv noneExempt w) {c : Nat} (hc : c < w.subscriberCount) :
    ∃ v, viewOf (w.subscribers c).snapshot (w.subscribers c).log = some v ∧
      (w.stack = [] → (w.subscribers c).closed = false → (w.subscribers c).active = true →
        ∀ key, v.known key = w.currentSequence (w.subscribers c).service key) := by
  obtain ⟨v, hv⟩ := h.views.accepted c hc
  obtain ⟨v', hv'⟩ := viewOf_front hv
  refine ⟨v', hv', ?_⟩
  intro hstack hopen hactive key
  have hrecv := h.received_eq hstack hactive
  rw [hrecv, hv'] at hv
  cases hv
  obtain ⟨t, ht⟩ := h.seats.seat c hopen
  have hfoll := h.views.follows _ t c ht v (by rw [hrecv, hv'])
  have hinstep : w.InStep (w.subscribers c).service t v (w.subscribers c).snapshotSequences key.1 := by
    rcases hfoll.instep key.1 with hex | ⟨update, u, cursor, hmem, _⟩ | hin
    · exact hex.elim
    · rw [hstack] at hmem
      cases hmem
    · exact hin
  rw [World.currentSequence]
  cases hu : w.instanceAt (w.subscribers c).service key.1 with
  | none =>
    apply hinstep.unfed key.2
    intro u hu'
    rw [hu] at hu'
    cases hu'
  | some u =>
    cases hid : w.stateOf u key.2 with
    | none =>
      rw [bind_some, hid]
      apply hinstep.unfed key.2
      intro u' hu'
      rw [hu] at hu'
      cases hu'
      exact hid
    | some id =>
      obtain ⟨n, k, hfloor, hk, hnk, hkseq, _⟩ := hinstep.fed u key.2 id hu hid
      have hn : n = w.emitted id := by
        rcases hfloor with ⟨hdue, _⟩ | ⟨_, hn⟩
        · exact (World.not_due_nil hstack t u key.2 hdue).elim
        · exact hn
      have hempty := (h.queues.idle id (by intro publication left; rw [hstack]; exact not_mem_nil)).2
      rw [World.emitted, hempty, length_nil, Nat.sub_zero] at hn
      rw [bind_some, hid, hk, map_some]
      congr 1
      omega

end Consequences

/-! ## What the layers depend on -/

theorem Frame.isAbout_of_announces {frame : Frame V O} {u : Nat} (h : frame.announces u = true) :
    frame.isAbout u = true := by
  cases frame with
  | emit service update about cursor =>
    cases update with
    | replaced | spawned => exact h
    | _ => cases h
  | _ => cases h

namespace World

variable {w w' : World V O}

/-- The two worlds have the same instances, registered in the same way. -/
structure SameBooks (w w' : World V O) : Prop where
  registrations : ∀ service, (w'.registrations service).mode = (w.registrations service).mode ∧
    (w'.registrations service).singleton = (w.registrations service).singleton ∧
    (w'.registrations service).instances = (w.registrations service).instances ∧
    (w'.registrations service).generations = (w.registrations service).generations
  instances : w'.instances = w.instances
  count : w'.instanceCount = w.instanceCount
  listeners : ∀ id, (w'.states id).sourceListeners = (w.states id).sourceListeners

namespace SameBooks

variable (h : SameBooks w w')
include h

theorem stateOf (u : Nat) (member : JsString) : w'.stateOf u member = w.stateOf u member := by
  rw [World.stateOf, World.stateOf, h.instances]

theorem instanceAt (service : Nat) (address : Option ServiceInstanceAddress) :
    w'.instanceAt service address = w.instanceAt service address := by
  obtain ⟨_, hsing, hinsts, _⟩ := h.registrations service
  cases address with
  | none => exact hsing
  | some address =>
    simp only [World.instanceAt, hinsts, h.instances]

theorem registry (hr : w.Registry) : w'.Registry where
  reached := by
    intro service address u
    rw [h.instanceAt, h.instances]
    exact hr.reached service address u
  fresh := by
    intro u hu
    rw [h.instances]
    exact hr.fresh u (by rw [← h.count]; exact hu)
  dated := by
    intro u address
    rw [h.instances, (h.registrations _).2.2.2]
    exact hr.dated u address
  listed := by
    intro service
    rw [(h.registrations service).2.2.1, h.instances]
    exact hr.listed service
  keys := by
    intro service
    rw [(h.registrations service).2.2.1]
    exact hr.keys service
  modes := by
    intro service
    obtain ⟨hmode, hsing, hinsts, _⟩ := h.registrations service
    rw [hmode, hsing, hinsts]
    exact hr.modes service
  listening := by
    intro id u member
    rw [h.listeners, h.instances, h.stateOf]
    exact hr.listening id u member
  nodup := by
    intro id
    rw [h.listeners]
    exact hr.nodup id

end SameBooks

theorem Queues.of_eq (h : w.Queues)
    (hsts : ∀ id, (w'.states id).sequence = (w.states id).sequence ∧
      (w'.states id).publications = (w.states id).publications ∧ (w'.states id).delivering = (w.states id).delivering)
    (hstack : ∀ id publication, (∃ left, .deliver id publication left ∈ w'.stack) ↔
      ∃ left, .deliver id publication left ∈ w.stack) : w'.Queues := by
  have hemit : ∀ id, w'.emitted id = w.emitted id := by
    intro id
    obtain ⟨hseq, hpub, _⟩ := hsts id
    rw [World.emitted, World.emitted, hseq, hpub]
  constructor
  · intro id
    obtain ⟨hseq, hpub, _⟩ := hsts id
    rw [hseq, hpub]
    exact h.enough id
  · intro id
    rw [hemit, (hsts id).2.1]
    exact h.numbered id
  · intro id publication left hmem
    obtain ⟨left', hmem'⟩ := (hstack id publication).mp ⟨left, hmem⟩
    rw [hemit, (hsts id).2.2]
    exact h.busy id publication left' hmem'
  · intro id hnone
    obtain ⟨_, hpub, hdel⟩ := hsts id
    rw [hpub, hdel]
    apply h.idle id
    intro publication left hmem
    obtain ⟨left', hmem'⟩ := (hstack id publication).mpr ⟨left, hmem⟩
    exact hnone publication left' hmem'

/-- The subscriber records are untouched, and no replay has left the stack. -/
theorem Seats.of_eq (h : w.Seats) (hreg : ∀ service, (w'.registrations service).subscribers =
      (w.registrations service).subscribers) (hsub : w'.subscribers = w.subscribers)
    (hcount : w'.subscriberCount = w.subscriberCount)
    (hstack : ∀ c, (w.subscribers c).replaying ≠ [] → .replay c ∈ w.stack → .replay c ∈ w'.stack)
    (hstack' : ∀ c, .replay c ∈ w'.stack → .replay c ∈ w.stack) : w'.Seats where
  seated := by
    intro service t c
    rw [hreg, hsub]
    exact h.seated service t c
  seat := by
    intro c
    rw [hsub, hreg]
    exact h.seat c
  fresh := by
    rw [hsub, hcount]
    exact h.fresh
  active := by rw [hsub]; exact h.active
  inactive := by rw [hsub]; exact h.inactive
  replaying := by
    intro c
    rw [hsub]
    intro hne
    exact hstack c hne (h.replaying c hne)
  replayed := by
    intro c hmem
    rw [hsub]
    exact h.replayed c (hstack' c hmem)

theorem Seats.restack (h : w.Seats) (hreg : ∀ service, (w'.registrations service).subscribers =
      (w.registrations service).subscribers) (hsub : w'.subscribers = w.subscribers)
    (hcount : w'.subscriberCount = w.subscriberCount)
    (hreplays : ∀ c, .replay c ∈ w'.stack ↔ .replay c ∈ w.stack) : w'.Seats :=
  h.of_eq hreg hsub hcount (fun c _ => (hreplays c).mpr) fun c => (hreplays c).mp

variable {lower : Frame V O}

variable {upper : Frame V O}

theorem Compatible.mono (h : w.Compatible upper lower)
    (hsub : ∀ c, lower = .replay c → (w'.subscribers c).closed = false → (w'.subscribers c).replaying ≠ [] →
      (w.subscribers c).closed = false ∧ (w.subscribers c).replaying ≠ [] ∧
        (w'.subscribers c).service = (w.subscribers c).service)
    (hactive : ∀ c, lower = .replay c → (w'.subscribers c).closed = false → (w'.subscribers c).replaying ≠ [] →
      ∀ u, (w'.instances u).active = true → (w'.instances u).service = (w'.subscribers c).service →
        (w.instances u).active = true ∧ (w'.instances u).service = (w.instances u).service)
    (hstate : ∀ u member, (w.instances u).active = true ∨ lower.isAbout u = true →
      w'.stateOf u member = w.stateOf u member)
    (hpending : ∀ u, lower.announces u = true → w'.Pending lower → w.Pending lower) : w'.Compatible upper lower where
  replay := by
    intro c hc hclosed hrepl
    obtain ⟨hclosed', hrepl', hservice⟩ := hsub c hc hclosed hrepl
    obtain ⟨hof, hdeliver⟩ := h.replay c hc hclosed' hrepl'
    rw [hservice]
    refine ⟨hof, ?_⟩
    intro id publication left hu u member hact hserv
    obtain ⟨hact', hserv'⟩ := hactive c hc hclosed hrepl u hact (by rw [hservice]; exact hserv)
    rw [hstate u member (.inl hact')]
    exact hdeliver id publication left hu u member hact' (by rw [← hserv', hserv])
  announcing := by
    intro u hann hpend
    obtain ⟨hdeliver, hemit⟩ := h.announcing u hann (hpending u hann hpend)
    refine ⟨?_, hemit⟩
    intro id publication left hu member
    rw [hstate u member (.inr (Frame.isAbout_of_announces hann))]
    exact hdeliver id publication left hu member
  delivering := by
    intro id publication left hu
    obtain ⟨hone, hemit⟩ := h.delivering id publication left hu
    refine ⟨hone, ?_⟩
    intro service address member sequence ops u cursor hl
    rw [hstate u member (.inr (by rw [hl]; simp [Frame.isAbout]))]
    exact hemit service address member sequence ops u cursor hl
  once := h.once

variable {u : Nat}

theorem Announces.mono {snapshot : ServiceInstanceSnapshot V} (h : w.Announces u snapshot)
    (hinst : w'.instances u = w.instances u)
    (hsts : ∀ member id, w.stateOf u member = some id →
      w'.emitted id = w.emitted id ∧ (w.states id).sequence ≤ (w'.states id).sequence) : w'.Announces u snapshot := by
  have hstate : ∀ member, w'.stateOf u member = w.stateOf u member := by
    intro member
    rw [World.stateOf, World.stateOf, hinst]
  constructor
  · rw [hinst]
    exact h.active
  · rw [hinst]
    exact h.address
  · exact h.nodup
  · intro member id hid
    rw [hstate] at hid
    obtain ⟨sequence, hs, hle, hge⟩ := h.fed member id hid
    obtain ⟨hemit, hseq⟩ := hsts member id hid
    exact ⟨sequence, hs, by omega, by omega⟩
  · intro member hnone
    rw [hstate] at hnone
    exact h.unfed member hnone

variable {service t : Nat} {f : Sequences}

variable {v : View}

theorem InStep.mono {address : Option ServiceInstanceAddress}
    (h : w.InStep service t v f address) (hinst : w'.instanceAt service address = w.instanceAt service address)
    (hstate : ∀ u member, w.instanceAt service address = some u → w'.stateOf u member = w.stateOf u member)
    (hfloor : ∀ u member id n, w.instanceAt service address = some u → w.stateOf u member = some id →
      w.Floor t u member id n → w'.Floor t u member id n)
    (hseq : ∀ id, (w.states id).sequence ≤ (w'.states id).sequence) : w'.InStep service t v f address where
  fed := by
    intro u member id hu hid
    rw [hinst] at hu
    rw [hstate u member hu] at hid
    obtain ⟨n, k, hn, hk, hnk, hkseq, hf⟩ := h.fed u member id hu hid
    exact ⟨n, k, hfloor u member id n hu hid hn, hk, hnk, Nat.le_trans hkseq (hseq id), hf⟩
  unfed := by
    intro member hnone
    apply h.unfed member
    intro u hu
    rw [← hstate u member hu]
    exact hnone u (by rw [hinst]; exact hu)

theorem Floor.of_eq {member : JsString} {id n : Nat} (h : w.Floor t u member id n)
    (hdue : w'.Due t u member ↔ w.Due t u member) (hemit : w'.emitted id = w.emitted id) :
    w'.Floor t u member id n := by
  rw [Floor, hdue, hemit]
  exact h

variable {update : ServiceProviderUpdate V O}

theorem Tells.mono (h : w.Tells service u update)
    (hinst : w'.instances u = w.instances u)
    (hat : ∀ address, w'.instanceAt service address = w.instanceAt service address)
    (hmode : (w'.registrations service).mode = (w.registrations service).mode)
    (hsts : (Frame.emit service update u 0).announces u = true → ∀ member id, w.stateOf u member = some id →
      w'.emitted id = w.emitted id ∧ (w.states id).sequence ≤ (w'.states id).sequence) : w'.Tells service u update := by
  cases update with
  | state address member sequence ops =>
    simp only [Tells, hinst]
    exact h
  | replaced | spawned => exact ⟨h.1.mono hinst (hsts (by simp [Frame.announces])), h.2⟩
  | unavailable =>
    simp only [Tells, hat, hmode]
    exact h
  | closed address =>
    simp only [Tells, hat]
    exact h

/-- The stack is the same, and nothing that its loops rely on has changed. -/
theorem Frames.mono (h : w.Frames) (hstack : w'.stack = w.stack) (hbooks : SameBooks w w')
    (hsub : ∀ c, .replay c ∈ w.stack → (w'.subscribers c).closed = false → (w'.subscribers c).replaying ≠ [] →
      (w.subscribers c).closed = false ∧ (w.subscribers c).replaying ≠ [] ∧
        (w'.subscribers c).service = (w.subscribers c).service)
    (hunfin : ∀ service cursor, w'.Unfinished service cursor → w.Unfinished service cursor)
    (hsts : ∀ u, (∃ frame ∈ w.stack, frame.announces u = true ∧ w.Pending frame) → ∀ member id,
      w.stateOf u member = some id →
        w'.emitted id = w.emitted id ∧ (w.states id).sequence ≤ (w'.states id).sequence) : w'.Frames where
  pairs := by
    rw [hstack]
    apply h.pairs.imp_of_mem
    intro upper lower _ hlower hc
    apply hc.mono
    · intro c he
      exact hsub c (by rw [← he]; exact hlower)
    · intro c _ _ _ u hu _
      rw [hbooks.instances] at hu ⊢
      exact ⟨hu, rfl⟩
    · exact fun u member _ => hbooks.stateOf u member
    · intro u _
      cases lower with
      | emit service update u cursor => exact hunfin service cursor
      | _ => exact id
  deliver := by
    intro id publication left hmem
    rw [hstack] at hmem
    obtain ⟨hnd, hl⟩ := h.deliver id publication left hmem
    refine ⟨hnd, ?_⟩
    intro l hin
    rw [hbooks.stateOf]
    exact hl l hin
  emit := by
    intro service update u cursor hmem
    rw [hstack] at hmem
    obtain ⟨hu, hserv, htells⟩ := h.emit service update u cursor hmem
    rw [hbooks.count, hbooks.instances]
    refine ⟨hu, hserv, ?_⟩
    intro hunf
    apply (htells (hunfin service cursor hunf)).mono (by rw [hbooks.instances]) (hbooks.instanceAt service)
      (hbooks.registrations service).1
    intro hann
    apply hsts u
    refine ⟨_, hmem, ?_, hunfin service cursor hunf⟩
    cases update <;> exact hann
  state := by
    intro service address member sequence ops u cursor hmem
    rw [hstack] at hmem ⊢
    rw [hbooks.stateOf, hbooks.instances]
    exact h.state service address member sequence ops u cursor hmem
  closed := by
    intro service address u cursor hmem
    rw [hstack] at hmem
    rw [hbooks.instanceAt, (hbooks.registrations service).2.2.2]
    exact h.closed service address u cursor hmem

theorem Compatible.restack (h : w.Compatible upper lower) (stack : List (Frame V O)) :
    ({ w with stack := stack } : World V O).Compatible upper lower :=
  ⟨h.replay, by
    intro u hann hpend
    exact h.announcing u hann (by cases lower <;> exact hpend), h.delivering, h.once⟩

theorem compatible_replay (w : World V O) (c : Nat) (lower : Frame V O) : w.Compatible (.replay c) lower := by
  constructor
  · intro c' _ _ _
    refine ⟨rfl, ?_⟩
    intro id publication left he
    cases he
  · intro u _ _
    refine ⟨?_, ?_, rfl⟩
    · intro id publication left he
      cases he
    · intro service address member sequence ops cursor he
      cases he
  · intro id publication left he
    cases he
  · intro service address member sequence ops u cursor he
    cases he

theorem compatible_deliver {id : Nat} {publication : Publication O} {left : List (Nat × JsString)}
    (hrepl : ∀ c, lower = .replay c → (w.subscribers c).closed = false → (w.subscribers c).replaying ≠ [] →
      ∀ u member, (w.instances u).active = true → (w.instances u).service = (w.subscribers c).service →
        w.stateOf u member ≠ some id)
    (hannounces : ∀ u, lower.announces u = true → w.Pending lower → ∀ member, w.stateOf u member ≠ some id)
    (hone : ∀ publication' left', lower ≠ .deliver id publication' left')
    (hemit : ∀ service address member sequence ops u cursor,
      lower = .emit service (.state address member sequence ops) u cursor → w.stateOf u member ≠ some id) :
    w.Compatible (.deliver id publication left) lower := by
  constructor
  · intro c he hclosed hreplaying
    refine ⟨rfl, ?_⟩
    intro id' publication' left' hd
    cases hd
    exact hrepl c he hclosed hreplaying
  · intro u hann hpend
    refine ⟨?_, ?_, rfl⟩
    · intro id' publication' left' hd
      cases hd
      exact hannounces u hann hpend
    · intro service address member sequence ops cursor he
      cases he
  · intro id' publication' left' hd
    cases hd
    exact ⟨hone, hemit⟩
  · intro service address member sequence ops u cursor he
    cases he

theorem compatible_emit {cursor : Nat}
    (hrepl : ∀ c, lower = .replay c → (w.subscribers c).closed = false → (w.subscribers c).replaying ≠ [] →
      service ≠ (w.subscribers c).service)
    (hannounces : lower.announces u = true → ¬ w.Pending lower)
    (honce : ∀ address member sequence ops, update = .state address member sequence ops →
      ∀ service' address' sequence' ops' cursor',
        lower ≠ .emit service' (.state address' member sequence' ops') u cursor') :
    w.Compatible (.emit service update u cursor) lower := by
  constructor
  · intro c he hclosed hreplaying
    have hne := hrepl c he hclosed hreplaying
    refine ⟨by simpa [Frame.isOf] using hne, ?_⟩
    intro id publication left hd
    cases hd
  · intro u' hann hpend
    have hne : u ≠ u' := by
      intro he
      subst he
      exact hannounces hann hpend
    refine ⟨?_, ?_, ?_⟩
    · intro id publication left hd
      cases hd
    · intro service' address member sequence ops cursor' he
      cases he
      exact hne rfl
    · cases update <;> simp [Frame.announces, hne]
  · intro id publication left hd
    cases hd
  · intro service' address member sequence ops u' cursor' he
    cases he
    exact honce address member sequence ops rfl

theorem sameBooks_restack (w : World V O) (stack : List (Frame V O)) : SameBooks w { w with stack := stack } :=
  ⟨fun _ => ⟨rfl, rfl, rfl, rfl⟩, rfl, rfl, fun _ => rfl⟩

theorem Tells.restack (h : w.Tells service u update) (stack : List (Frame V O)) :
    ({ w with stack := stack } : World V O).Tells service u update :=
  h.mono rfl (sameBooks_restack w stack |>.instanceAt service) rfl (fun _ _ _ _ => ⟨rfl, Nat.le_refl _⟩)

/-- What a loop must satisfy to be put on the stack. -/
structure Pushable (w : World V O) (frame : Frame V O) : Prop where
  pairs : ∀ lower ∈ w.stack, w.Compatible frame lower
  deliver : ∀ id publication left, frame = .deliver id publication left →
    left.Nodup ∧ ∀ l ∈ left, w.stateOf l.1 l.2 = some id
  emit : ∀ service update u cursor, frame = .emit service update u cursor →
    u < w.instanceCount ∧ (w.instances u).service = service ∧ (w.Unfinished service cursor → w.Tells service u update)
  state : ∀ service address member sequence ops u cursor,
    frame = .emit service (.state address member sequence ops) u cursor →
      ∃ id publication left, w.stateOf u member = some id ∧ .deliver id publication left ∈ w.stack ∧
        (u, member) ∉ left ∧ sequence = publication.sequence ∧ (w.instances u).address = address
  closed : ∀ service address u cursor, frame = .emit service (.closed address) u cursor →
    w.instanceAt service (some address) = none ∧
      address.generation ≤ (w.registrations service).generations address.key

variable {frame : Frame V O}

theorem Frames.push (h : w.Frames) (hp : w.Pushable frame) :
    ({ w with stack := frame :: w.stack } : World V O).Frames where
  pairs := by
    apply pairwise_cons.mpr
    constructor
    · intro lower hl
      exact (hp.pairs lower hl).restack _
    · exact h.pairs.imp fun hc => hc.restack _
  deliver := by
    intro id publication left hmem
    rcases mem_cons.mp hmem with he | hmem
    · exact hp.deliver id publication left he.symm
    · exact h.deliver id publication left hmem
  emit := by
    intro service update u cursor hmem
    rcases mem_cons.mp hmem with he | hmem
    · obtain ⟨hu, hs, ht⟩ := hp.emit service update u cursor he.symm
      exact ⟨hu, hs, fun hunf => (ht hunf).restack _⟩
    · obtain ⟨hu, hs, ht⟩ := h.emit service update u cursor hmem
      exact ⟨hu, hs, fun hunf => (ht hunf).restack _⟩
  state := by
    intro service address member sequence ops u cursor hmem
    rcases mem_cons.mp hmem with he | hmem
    · obtain ⟨id, publication, left, hid, hin, hrest⟩ := hp.state service address member sequence ops u cursor he.symm
      exact ⟨id, publication, left, hid, mem_cons_of_mem _ hin, hrest⟩
    · obtain ⟨id, publication, left, hid, hin, hrest⟩ := h.state service address member sequence ops u cursor hmem
      exact ⟨id, publication, left, hid, mem_cons_of_mem _ hin, hrest⟩
  closed := by
    intro service address u cursor hmem
    rcases mem_cons.mp hmem with he | hmem
    · exact hp.closed service address u cursor he.symm
    · exact h.closed service address u cursor hmem

theorem Frames.pop (h : w.Frames) {rest : List (Frame V O)} (hstack : w.stack = frame :: rest) :
    ({ w with stack := rest } : World V O).Frames := by
  have hsub : ∀ f ∈ rest, f ∈ w.stack := by
    intro f hf
    rw [hstack]
    exact mem_cons_of_mem _ hf
  have hpairs := h.pairs
  rw [hstack, pairwise_cons] at hpairs
  constructor
  · exact hpairs.2.imp fun hc => hc.restack _
  · intro id publication left hmem
    exact h.deliver id publication left (hsub _ hmem)
  · intro service update u cursor hmem
    obtain ⟨hu, hs, ht⟩ := h.emit service update u cursor (hsub _ hmem)
    exact ⟨hu, hs, fun hunf => (ht hunf).restack _⟩
  · intro service address member sequence ops u cursor hmem
    obtain ⟨id, publication, left, hid, hin, hrest⟩ := h.state service address member sequence ops u cursor (hsub _ hmem)
    rw [hstack] at hin
    -- the delivery behind a state update lies below it
    rcases mem_cons.mp hin with he | hin
    · exact absurd hid (((hpairs.1 _ hmem).delivering id publication left he.symm).2 service address member sequence ops
        u cursor rfl)
    · exact ⟨id, publication, left, hid, hin, hrest⟩
  · intro service address u cursor hmem
    exact h.closed service address u cursor (hsub _ hmem)

variable {exempt exempt' : Nat → Option ServiceInstanceAddress → Prop}

theorem Views.of_follows (h : w.Views exempt)
    (hsub : w'.subscribers = w.subscribers) (hcount : w'.subscriberCount = w.subscriberCount)
    (hreg : ∀ service, (w'.registrations service).subscribers = (w.registrations service).subscribers)
    (hfoll : ∀ service t c, (t, c) ∈ (w.registrations service).subscribers.entries → ∀ v f,
      w.Follows exempt service t v f → w'.Follows exempt' service t v f) : w'.Views exempt' := by
  have hrecv : ∀ c, w'.received c = w.received c := by
    intro c
    rw [received, received, hsub]
  constructor
  · intro c hc
    rw [hcount] at hc
    rw [hrecv, hsub]
    exact h.accepted c hc
  · intro service t c hentry v
    rw [hreg] at hentry
    rw [hrecv, hsub]
    intro hv
    exact hfoll service t c hentry v _ (h.follows service t c hentry v hv)

theorem Follows.mono
    (h : w.Follows exempt service t v f)
    (hgen : ∀ key, (w.registrations service).generations key ≤ (w'.registrations service).generations key)
    (hspawn : ∀ snapshot u cursor, .emit service (.spawned snapshot) u cursor ∈ w'.stack → cursor ≤ t →
      ∃ cursor', .emit service (.spawned snapshot) u cursor' ∈ w.stack ∧ cursor' ≤ t)
    (hstep : ∀ address, exempt service address ∨ w.Covered service t address ∨ w.InStep service t v f address →
      exempt' service address ∨ w'.Covered service t address ∨ w'.InStep service t v f address) :
    w'.Follows exempt' service t v f where
  filtered := h.filtered
  announced := h.announced
  dated := by
    intro address ha
    exact Nat.le_trans (h.dated address ha) (hgen address.key)
  unheard := by
    intro snapshot u cursor address hmem hle ha
    obtain ⟨cursor', hmem', hle'⟩ := hspawn snapshot u cursor hmem hle
    exact h.unheard snapshot u cursor' address hmem' hle' ha
  instep := fun address => hstep address (h.instep address)

theorem due_cons (w : World V O) (frame : Frame V O) (stack : List (Frame V O)) (t u : Nat) (member : JsString) :
    ({ w with stack := frame :: stack } : World V O).Due t u member ↔
      frame.Owes t u member ∨ ({ w with stack := stack } : World V O).Due t u member := by
  simp [Due]

/-- Only the stack has changed, and a subscriber is owed the same as before. -/
theorem Follows.restack
    (h : w.Follows exempt service t v f) (hreg : w.Registry) (stack : List (Frame V O))
    (hspawn : ∀ snapshot u cursor, .emit service (.spawned snapshot) u cursor ∈ stack → cursor ≤ t →
      ∃ cursor', .emit service (.spawned snapshot) u cursor' ∈ w.stack ∧ cursor' ≤ t)
    (hcover : ∀ address, w.Covered service t address →
      ({ w with stack := stack } : World V O).Covered service t address)
    (hdue : ∀ u member, (w.instances u).active = true → (w.instances u).service = service →
      (({ w with stack := stack } : World V O).Due t u member ↔ w.Due t u member)) :
    ({ w with stack := stack } : World V O).Follows exempt service t v f := by
  refine h.mono (fun _ => Nat.le_refl _) hspawn ?_
  intro address
  apply Or.imp_right
  apply Or.imp (hcover address)
  intro hin
  refine hin.mono ((sameBooks_restack w stack).instanceAt service address)
    (fun u member _ => (sameBooks_restack w stack).stateOf u member) ?_ (fun _ => Nat.le_refl _)
  intro u member id n hu _ hfloor
  obtain ⟨hactive, hserv, _⟩ := (hreg.reached service address u).mp hu
  exact hfloor.of_eq (hdue u member hactive hserv) rfl

end World

end Shuvpi.Provider
