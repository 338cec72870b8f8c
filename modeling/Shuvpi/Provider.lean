import Shuvpi.JsProps
import Shuvpi.JsSet

/-!
# The service provider

`RemoteServiceProvider` and the publishing side of `MutableReplicatedStateImpl` of
`chord/services`. A run is a sequence of operations on a world that holds the states,
the registrations with their instances and subscribers, and the stack of loops in
progress: the delivery of a state's publications, the `#emit` loop over the
subscribers of a service, the replay in `activate`. While a loop is on the stack the
listener it has just called may take any operation; `next` is its return. So the
operations of a listener and those of the world outside are the same, and every
reentrant run of the source is a run here. A listener of the state itself
(`MutableReplicatedState.subscribe`) is called with the delivery on top of the stack
and nothing else; it changes nothing by being called, so only its operations appear.
What an operation throws at its caller, and the delivery contexts, are left out.

States, services, instances and subscriptions are numbers; a state member's key, the
text `JSON.stringify([key, generation, member])` in the source, is the tuple itself.
-/
namespace Shuvpi.Provider

inductive ServiceMode where
  | singleton
  | keyed
  deriving DecidableEq, Repr

structure ServiceInstanceAddress where
  key : JsString
  generation : Nat
  deriving DecidableEq, Repr

/-- `stateMemberKey` -/
abbrev StateKey := Option ServiceInstanceAddress × JsString

inductive InstanceMember where
  | method
  | state (id : Nat)
  deriving DecidableEq, Repr

inductive ServiceMemberKind where
  | method
  | state
  deriving DecidableEq, Repr

def InstanceMember.kind : InstanceMember → ServiceMemberKind
  | .method => .method
  | .state _ => .state

/-- The members of an implementation, each name once. -/
structure Members where
  list : List (JsString × InstanceMember)
  nodup : (JsProps.keys list).Nodup

abbrev Shape := List (JsString × ServiceMemberKind)

def serviceMemberShape (members : Members) : Shape := members.list.map fun p => (p.1, p.2.kind)

def sameServiceMemberShape (left right : Shape) : Bool :=
  left.length == right.length && left.all fun p => JsProps.get? right p.1 = some p.2

section

variable {V O : Type}

/-- A state member is listed with its sequence and value, a method without. -/
structure ServiceInstanceSnapshot (V : Type) where
  address : Option ServiceInstanceAddress
  members : List (JsString × Option (Nat × V))

inductive ServiceProviderUpdate (V O : Type) where
  | state (address : Option ServiceInstanceAddress) (member : JsString) (sequence : Nat) (ops : List O)
  | replaced (snapshot : ServiceInstanceSnapshot V)
  | spawned (snapshot : ServiceInstanceSnapshot V)
  | unavailable
  | closed (address : ServiceInstanceAddress)

/-! ## The sequences a snapshot covers -/

abbrev Sequences := StateKey → Option Nat

def recordSnapshotSequences (sequences : Sequences) (snapshot : ServiceInstanceSnapshot V) : Sequences :=
  snapshot.members.foldl
    (fun sequences member =>
      match member.2 with
      | some (sequence, _) => Function.update sequences (snapshot.address, member.1) (some sequence)
      | none => sequences)
    sequences

/-- The keys of one instance are dropped. -/
def Sequences.drop (sequences : Sequences) (address : Option ServiceInstanceAddress) : Sequences :=
  fun key => if key.1 = address then none else sequences key

def updateCoveredBySnapshot (sequences : Sequences) : ServiceProviderUpdate V O → Bool × Sequences
  | .state address member sequence _ =>
    match sequences (address, member) with
    | none => (false, sequences)
    | some covered =>
      if sequence ≤ covered then (true, sequences)
      else (false, Function.update sequences (address, member) none)
  | .replaced snapshot => (false, recordSnapshotSequences (fun _ => none) snapshot)
  | .spawned snapshot => (false, recordSnapshotSequences sequences snapshot)
  | .unavailable => (false, fun _ => none)
  | .closed address => (false, sequences.drop (some address))

/-! ## The world -/

structure Publication (O : Type) where
  sequence : Nat
  ops : List O

/-- A source listener is the member of an instance that it publishes for; `valueAt` is
the history of the values, by sequence. -/
structure ReplicatedState (V O : Type) where
  value : V
  sequence : Nat
  publications : List (Publication O)
  delivering : Bool
  sourceListeners : List (Nat × JsString)
  valueAt : Nat → V

structure ProviderInstance where
  service : Nat
  address : Option ServiceInstanceAddress
  members : Members
  active : Bool

/-- `replaying` holds what `activate` has taken out of the buffer and not handed over
yet; `log` is what the listener has been handed, and `missed` are the instances that were
gone before the subscription began. -/
structure ProviderSubscriber (V O : Type) where
  service : Nat
  snapshot : List (ServiceInstanceSnapshot V)
  buffer : List (ServiceProviderUpdate V O)
  snapshotSequences : Sequences
  active : Bool
  closed : Bool
  replaying : List (ServiceProviderUpdate V O)
  log : List (ServiceProviderUpdate V O)
  missed : Nat → Bool

structure ServiceRegistration where
  mode : ServiceMode
  singleton : Option Nat
  singletonShape : Option Shape
  instances : List (JsString × Nat)
  generations : JsString → Nat
  subscribers : JsSet Nat

/-- A loop in progress. `about` is the instance an update is about. -/
inductive Frame (V O : Type) where
  | deliver (state : Nat) (publication : Publication O) (left : List (Nat × JsString))
  | emit (service : Nat) (update : ServiceProviderUpdate V O) (about : Nat) (cursor : Nat)
  | replay (subscriber : Nat)

structure World (V O : Type) where
  states : Nat → ReplicatedState V O
  registrations : Nat → ServiceRegistration
  instances : Nat → ProviderInstance
  instanceCount : Nat
  subscribers : Nat → ProviderSubscriber V O
  subscriberCount : Nat
  stack : List (Frame V O)

def World.start (modes : Nat → ServiceMode) (values : Nat → V) : World V O where
  states := fun id => ⟨values id, 0, [], false, [], fun _ => values id⟩
  registrations := fun service => ⟨modes service, none, none, [], fun _ => 0, JsSet.empty⟩
  instances := fun _ => ⟨0, none, ⟨[], List.nodup_nil⟩, false⟩
  instanceCount := 0
  subscribers := fun _ => ⟨0, [], [], fun _ => none, false, true, [], [], fun _ => false⟩
  subscriberCount := 0
  stack := []

namespace World

/-- The state behind a member of an instance. -/
def stateOf (w : World V O) (u : Nat) (member : JsString) : Option Nat :=
  match JsProps.get? (w.instances u).members.list member with
  | some (.state id) => some id
  | _ => none

/-- The instance that is reached under an address. -/
def instanceAt (w : World V O) (service : Nat) : Option ServiceInstanceAddress → Option Nat
  | none => (w.registrations service).singleton
  | some address =>
    match JsProps.get? (w.registrations service).instances address.key with
    | some u => if (w.instances u).address = some address then some u else none
    | none => none

def snapshotInstance (w : World V O) (u : Nat) : ServiceInstanceSnapshot V where
  address := (w.instances u).address
  members := (w.instances u).members.list.map fun p =>
    match p.2 with
    | .method => (p.1, none)
    | .state id => (p.1, some ((w.states id).sequence, (w.states id).value))

def setState (w : World V O) (id : Nat) (s : ReplicatedState V O) : World V O :=
  { w with states := Function.update w.states id s }

def setRegistration (w : World V O) (service : Nat) (r : ServiceRegistration) : World V O :=
  { w with registrations := Function.update w.registrations service r }

def setSubscriber (w : World V O) (c : Nat) (s : ProviderSubscriber V O) : World V O :=
  { w with subscribers := Function.update w.subscribers c s }

/-- `#emit` -/
def emit (w : World V O) (service : Nat) (update : ServiceProviderUpdate V O) (about : Nat) : World V O :=
  if (w.registrations service).subscribers.entries = [] then w
  else { w with stack := .emit service update about 0 :: w.stack }

/-- `#createInstance`: the new instance, and the world with its listeners. -/
def createInstance (w : World V O) (service : Nat) (address : Option ServiceInstanceAddress) (members : Members) :
    World V O :=
  { w with
    instances := Function.update w.instances w.instanceCount ⟨service, address, members, true⟩
    instanceCount := w.instanceCount + 1
    states := fun id =>
      { w.states id with
        sourceListeners := (w.states id).sourceListeners ++
          members.list.filterMap fun p => if p.2 = .state id then some (w.instanceCount, p.1) else none } }

/-- The instance stops being active, and its member listeners are removed. -/
def deactivate (w : World V O) (u : Nat) : World V O :=
  { w with
    instances := Function.update w.instances u { w.instances u with active := false }
    states := fun id =>
      { w.states id with sourceListeners := (w.states id).sourceListeners.filter fun l => l.1 ≠ u } }

/-! ## Operations -/

/-- The loop of `#commit` takes the next publication. -/
def shiftPublication (w : World V O) (id : Nat) (rest : List (Frame V O)) : World V O :=
  let s := w.states id
  match s.publications with
  | [] => { w.setState id { s with delivering := false } with stack := rest }
  | publication :: publications =>
    { w.setState id { s with publications := publications } with
      stack := .deliver id publication s.sourceListeners :: rest }

/-- `#commit`, for `change` and `replace`. -/
def commit (diff : V → V → List O) (w : World V O) (id : Nat) (next : V) : World V O :=
  let s := w.states id
  let ops := diff s.value next
  if ops.isEmpty then w
  else
    let s := { s with
      value := next
      sequence := s.sequence + 1
      publications := s.publications ++ [⟨s.sequence + 1, ops⟩]
      valueAt := Function.update s.valueAt (s.sequence + 1) next }
    if s.delivering then w.setState id s
    else (w.setState id { s with delivering := true }).shiftPublication id w.stack

def acceptsShape (r : ServiceRegistration) (members : Members) : Bool :=
  match r.singletonShape with
  | none => true
  | some current => sameServiceMemberShape current (serviceMemberShape members)

def provide (w : World V O) (service : Nat) (members : Members) : World V O :=
  let r := w.registrations service
  if r.mode = .singleton ∧ r.singleton = none ∧ acceptsShape r members = true then
    (w.createInstance service none members).setRegistration service
      { r with singleton := some w.instanceCount, singletonShape := some (serviceMemberShape members) }
  else w

def withdraw (w : World V O) (service : Nat) : World V O :=
  let r := w.registrations service
  match r.mode, r.singleton with
  | .singleton, some previous =>
    ((w.deactivate previous).setRegistration service { r with singleton := none }).emit service .unavailable previous
  | _, _ => w

def replace (w : World V O) (service : Nat) (members : Members) : World V O :=
  let r := w.registrations service
  if r.mode = .singleton ∧ acceptsShape r members = true then
    let replacement := w.instanceCount
    let created := w.createInstance service none members
    let switched :=
      match r.singleton with
      | some previous => created.deactivate previous
      | none => created
    let switched := switched.setRegistration service
      { r with singleton := some replacement, singletonShape := some (serviceMemberShape members) }
    switched.emit service (.replaced (switched.snapshotInstance replacement)) replacement
  else w

def spawn (w : World V O) (service : Nat) (key : JsString) (members : Members) : World V O :=
  let r := w.registrations service
  if key ≠ [] ∧ r.mode = .keyed ∧ JsProps.hasOwn r.instances key = false then
    let generation := r.generations key + 1
    let u := w.instanceCount
    let created := (w.createInstance service (some ⟨key, generation⟩) members).setRegistration service
      { r with
        instances := r.instances ++ [(key, u)]
        generations := Function.update r.generations key generation }
    created.emit service (.spawned (created.snapshotInstance u)) u
  else w

/-- The function that `spawn` returns. -/
def close (w : World V O) (u : Nat) : World V O :=
  match (w.instances u).address with
  | none => w
  | some address =>
    let service := (w.instances u).service
    let r := w.registrations service
    if JsProps.get? r.instances address.key = some u then
      ((w.deactivate u).setRegistration service
        { r with instances := JsProps.erase r.instances address.key }).emit service (.closed address) u
    else w

/-- The instances of `#snapshot`; `before` is the order of `localeCompare`. -/
def snapshot (before : JsString → JsString → Bool) (w : World V O) (r : ServiceRegistration) :
    List (ServiceInstanceSnapshot V) :=
  match r.mode with
  | .singleton => r.singleton.toList.map w.snapshotInstance
  | .keyed => (r.instances.mergeSort fun p q => before p.1 q.1).map fun p => w.snapshotInstance p.2

def subscribe (before : JsString → JsString → Bool) (w : World V O) (service : Nat) (mode : ServiceMode) :
    World V O :=
  let r := w.registrations service
  if r.mode ≠ mode ∨ (r.mode = .singleton ∧ r.singleton = none) then w
  else
    let c := w.subscriberCount
    let instances := w.snapshot before r
    let subscriber : ProviderSubscriber V O :=
      ⟨service, instances, [], instances.foldl recordSnapshotSequences (fun _ => none), false, false, [], [],
        fun u => u < w.instanceCount && !(w.instances u).active⟩
    let w := w.setRegistration service { r with subscribers := r.subscribers.add c }
    { w.setSubscriber c subscriber with subscriberCount := c + 1 }

def activate (w : World V O) (c : Nat) : World V O :=
  let s := w.subscribers c
  if s.closed ∨ s.active then w
  else
    { w.setSubscriber c { s with active := true, replaying := s.buffer, buffer := [] } with
      stack := .replay c :: w.stack }

/-- `close` of a subscription. -/
def unsubscribe (w : World V O) (c : Nat) : World V O :=
  let s := w.subscribers c
  if s.closed then w
  else
    let r := w.registrations s.service
    (w.setRegistration s.service { r with subscribers := r.subscribers.delete c }).setSubscriber c
      { s with closed := true, buffer := [] }

/-- One subscriber in the loop of `#emit`. -/
def visit (update : ServiceProviderUpdate V O) (s : ProviderSubscriber V O) : ProviderSubscriber V O :=
  if s.closed then s
  else
    match updateCoveredBySnapshot s.snapshotSequences update with
    | (true, sequences) => { s with snapshotSequences := sequences }
    | (false, sequences) =>
      if s.active then { s with snapshotSequences := sequences, log := s.log ++ [update] }
      else { s with snapshotSequences := sequences, buffer := s.buffer ++ [update] }

/-- The listener called last returns; the innermost loop goes on. -/
def next (w : World V O) : World V O :=
  match w.stack with
  | [] => w
  | .deliver id _ [] :: rest => w.shiftPublication id rest
  | .deliver id publication ((u, member) :: left) :: rest =>
    let going := { w with stack := .deliver id publication left :: rest }
    let i := w.instances u
    if i.active then going.emit i.service (.state i.address member publication.sequence publication.ops) u else going
  | .emit service update about cursor :: rest =>
    match (w.registrations service).subscribers.nextFrom cursor with
    | none => { w with stack := rest }
    | some (stamp, c) =>
      { w.setSubscriber c (visit update (w.subscribers c)) with stack := .emit service update about (stamp + 1) :: rest }
  | .replay c :: rest =>
    let s := w.subscribers c
    match s.replaying with
    | [] => { w with stack := rest }
    | update :: replaying => w.setSubscriber c { s with replaying := replaying, log := s.log ++ [update] }

end World

inductive Operation (V : Type) where
  | commit (state : Nat) (next : V)
  | provide (service : Nat) (members : Members)
  | withdraw (service : Nat)
  | replace (service : Nat) (members : Members)
  | spawn (service : Nat) (key : JsString) (members : Members)
  | close (u : Nat)
  | subscribe (service : Nat) (mode : ServiceMode)
  | activate (c : Nat)
  | unsubscribe (c : Nat)
  | next

section Run

variable (diff : V → V → List O) (before : JsString → JsString → Bool)

def World.step (w : World V O) : Operation V → World V O
  | .commit id next => w.commit diff id next
  | .provide service members => w.provide service members
  | .withdraw service => w.withdraw service
  | .replace service members => w.replace service members
  | .spawn service key members => w.spawn service key members
  | .close u => w.close u
  | .subscribe service mode => w.subscribe before service mode
  | .activate c => w.activate c
  | .unsubscribe c => w.unsubscribe c
  | .next => w.next

def World.steps (w : World V O) (operations : List (Operation V)) : World V O :=
  operations.foldl (fun w operation => w.step diff before operation) w

end Run

/-! ## What a subscription must observe -/

/-- What the listener of a subscription can know: the generations announced to it and
the last sequence of every state member it follows. -/
structure View where
  announced : List ServiceInstanceAddress
  known : Sequences

namespace View

/-- An instance is announced; a generation only once. -/
def announce (v : View) (snapshot : ServiceInstanceSnapshot V) : Option View :=
  match snapshot.address with
  | none => some ⟨v.announced, recordSnapshotSequences v.known snapshot⟩
  | some address =>
    if address ∈ v.announced then none
    else some ⟨address :: v.announced, recordSnapshotSequences v.known snapshot⟩

/-- The next update; `none` if it is out of order: a state update must continue the
last sequence of its member, and that member must be known. -/
def observe (v : View) : ServiceProviderUpdate V O → Option View
  | .state address member sequence _ =>
    if (v.known (address, member)).map (· + 1) = some sequence then
      some ⟨v.announced, Function.update v.known (address, member) (some sequence)⟩
    else none
  | .replaced snapshot => announce ⟨v.announced, v.known.drop none⟩ snapshot
  | .spawned snapshot => v.announce snapshot
  | .unavailable => some ⟨v.announced, v.known.drop none⟩
  | .closed address => some ⟨v.announced, v.known.drop (some address)⟩

def observeAll : View → List (ServiceProviderUpdate V O) → Option View
  | v, [] => some v
  | v, update :: updates => (v.observe update).bind fun v => v.observeAll updates

def announceAll : View → List (ServiceInstanceSnapshot V) → Option View
  | v, [] => some v
  | v, snapshot :: snapshots => (v.announce snapshot).bind fun v => v.announceAll snapshots

end View

/-- The view after a snapshot and updates. -/
def viewOf (snapshot : List (ServiceInstanceSnapshot V)) (updates : List (ServiceProviderUpdate V O)) : Option View :=
  (View.announceAll ⟨[], fun _ => none⟩ snapshot).bind fun v => v.observeAll updates

/-- The sequence of the state now found under a key. -/
def World.currentSequence (w : World V O) (service : Nat) (key : StateKey) : Option Nat :=
  (w.instanceAt service key.1).bind fun u => (w.stateOf u key.2).map fun id => (w.states id).sequence

/-! ## What its updates are about -/

namespace World

/-- The publication of a state that has this sequence. -/
def Published (diff : V → V → List O) (w : World V O) (id sequence : Nat) (ops : List O) : Prop :=
  ∃ k, sequence = k + 1 ∧ k < (w.states id).sequence ∧
    ops = diff ((w.states id).valueAt k) ((w.states id).valueAt (k + 1))

/-- A state member is listed with the value that the state had at the sequence. -/
def ShowsMember (w : World V O) (member : JsString × InstanceMember) (listed : JsString × Option (Nat × V)) : Prop :=
  listed.1 = member.1 ∧
    match member.2 with
    | .method => listed.2 = none
    | .state id => ∃ k ≤ (w.states id).sequence, listed.2 = some (k, (w.states id).valueAt k)

/-- A snapshot of an instance of the service. -/
structure Shows (w : World V O) (service u : Nat) (snapshot : ServiceInstanceSnapshot V) : Prop where
  made : u < w.instanceCount
  service : (w.instances u).service = service
  address : snapshot.address = (w.instances u).address
  members : List.Forall₂ w.ShowsMember (w.instances u).members.list snapshot.members

/-- The first of the instances, the newest, that has the address. -/
def holder (w : World V O) (told : List Nat) (address : Option ServiceInstanceAddress) : Option Nat :=
  told.find? fun u => (w.instances u).address = address

/-- What a subscription is told, and the instances that it is told of, the newest first.
An announcement shows an instance that was not announced before; an update of a state
member is that publication of the state behind the member of the instance announced last
under the address. -/
inductive Account (diff : V → V → List O) (w : World V O) (service : Nat) (snapshot : List (ServiceInstanceSnapshot V)) :
    List (ServiceProviderUpdate V O) → List Nat → Prop
  | start {told : List Nat} (hnodup : told.Nodup) (hshows : List.Forall₂ (w.Shows service) told snapshot) :
    Account diff w service snapshot [] told
  | state {updates : List (ServiceProviderUpdate V O)} {told : List Nat} {address : Option ServiceInstanceAddress}
      {member : JsString} {sequence u id : Nat} {ops : List O} (h : Account diff w service snapshot updates told)
      (hholder : w.holder told address = some u) (hid : w.stateOf u member = some id)
      (hpublished : w.Published diff id sequence ops) :
    Account diff w service snapshot (updates ++ [.state address member sequence ops]) told
  | announced {updates : List (ServiceProviderUpdate V O)} {told : List Nat} {u : Nat}
      {update : ServiceProviderUpdate V O} {shown : ServiceInstanceSnapshot V}
      (h : Account diff w service snapshot updates told) (hupdate : update = .replaced shown ∨ update = .spawned shown)
      (hnew : u ∉ told) (hshows : w.Shows service u shown) :
    Account diff w service snapshot (updates ++ [update]) (u :: told)
  | gone {updates : List (ServiceProviderUpdate V O)} {told : List Nat} {update : ServiceProviderUpdate V O}
      (h : Account diff w service snapshot updates told)
      (hupdate : update = .unavailable ∨ ∃ address, update = .closed address) :
    Account diff w service snapshot (updates ++ [update]) told

end World

/-- Every subscription has observed its updates in order, each of them what its state
published, and each instance was announced to it once at most. When no loop is in progress
an open and active one has been told of every instance that was not gone before it began,
and it knows every state member of the service at its current sequence, and no others. -/
def World.GapFree (diff : V → V → List O) (w : World V O) : Prop :=
  ∀ c < w.subscriberCount, ∃ v told, viewOf (w.subscribers c).snapshot (w.subscribers c).log = some v ∧
    w.Account diff (w.subscribers c).service (w.subscribers c).snapshot (w.subscribers c).log told ∧ told.Nodup ∧
    (w.stack = [] → (w.subscribers c).closed = false → (w.subscribers c).active = true →
      (∀ u < w.instanceCount, (w.instances u).service = (w.subscribers c).service →
        (w.subscribers c).missed u = false → u ∈ told) ∧
      ∀ key, v.known key = w.currentSequence (w.subscribers c).service key)

end

end Shuvpi.Provider
