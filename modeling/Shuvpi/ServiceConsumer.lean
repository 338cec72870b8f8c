import Mathlib.Logic.Function.Basic
import Shuvpi.JsMap

/-!
# Remote service bindings

`RemoteServiceBindingImpl` of `chord/src/services/consumer.ts` with its singleton and keyed
bindings. A binding starts a subscription when it is made, when it is rebound, and, if it is
keyed, when an observer is added and nothing is starting. Each such start is numbered and
goes on when the transport's call has completed; what it finds then decides whether its
subscription is taken or closed.

Facades are opaque: they are installed, updated and cleared. Handlers and state listeners do
not call the binding back while it delivers to them.
-/
namespace Shuvpi.Consumer

open Function

inductive Mode where
  | singleton
  | keyed
  deriving DecidableEq, Repr

structure InstanceAddress where
  key : String
  generation : Nat
  deriving DecidableEq

structure InstanceSnapshot (S : Type) where
  address : Option InstanceAddress
  members : S

structure SubscriptionSnapshot (S : Type) where
  mode : Mode
  serviceId : String
  instances : List (InstanceSnapshot S)

inductive ServiceProviderUpdate (S U : Type) where
  | unavailable
  | replaced (snapshot : InstanceSnapshot S)
  | spawned (snapshot : InstanceSnapshot S)
  | closed (address : InstanceAddress)
  | state (address : Option InstanceAddress) (change : U)

/-- `ServiceFacade`; `install` says whether it throws. -/
structure ServiceFacade (F S U : Type) where
  initial : F
  install : F → S → F × Bool
  update : F → U → F
  clear : F → F

/-- `SingletonBinding` and `KeyedBinding` without what they show to their users: `live` is `active` or not closed,
`bound` and `observers` are those of a keyed binding, and `starting` says whether a promise is kept. -/
structure Binding where
  mode : Mode
  serviceId : String
  live : Bool
  bound : Bool
  revision : Nat
  subscription : Option Nat
  starting : Bool
  observers : Nat
  deriving DecidableEq

/-- The facade of a singleton, or the instances of a keyed service. -/
structure Content (F : Type) where
  facade : F
  instances : JsMap String (Nat × F)
  ready : Bool

inductive Stage where
  | unused
  /-- `rebind` waits for the last subscription to close. -/
  | waiting
  /-- `transport.subscribe` is running. -/
  | subscribing
  | returned
  /-- No subscription comes of it. -/
  | finished
  deriving DecidableEq, Repr

/-- A start of a subscription, and the calls on the subscription that the transport returned for it. -/
structure Start where
  binding : Nat
  revision : Nat
  bound : Bool
  stage : Stage
  closes : Nat
  activated : Bool
  deriving DecidableEq

structure World (F : Type) where
  bound : Bool
  disposed : Bool
  modes : String → Option Mode
  singletons : String → Option Nat
  keyed : String → Option Nat
  bindingCount : Nat
  binding : Nat → Binding
  content : Nat → Content F
  startCount : Nat
  start : Nat → Start
  /-- Whether a call of the transport has failed or returned what is not valid. -/
  failed : Bool

def Binding.fresh (mode : Mode) (serviceId : String) (bound : Bool) : Binding := ⟨mode, serviceId, true, bound, 0, none, false, 0⟩

def Start.none : Start := ⟨0, 0, false, .unused, 0, false⟩

variable {F S U : Type}

namespace World

def initial (facade : ServiceFacade F S U) (bound : Bool) : World F where
  bound := bound
  disposed := false
  modes := fun _ => none
  singletons := fun _ => none
  keyed := fun _ => none
  bindingCount := 0
  binding := fun _ => .fresh .singleton "" false
  content := fun _ => ⟨facade.initial, [], false⟩
  startCount := 0
  start := fun _ => .none
  failed := false

/-- The binding is in the map of its mode. -/
def inMap (w : World F) (b : Nat) : Bool :=
  b < w.bindingCount && match (w.binding b).mode with
    | .singleton => w.singletons (w.binding b).serviceId = some b
    | .keyed => w.keyed (w.binding b).serviceId = some b

/-- Starts whose subscription is taken away from their binding are closed. -/
def closing (w : World F) (taken : Nat → Bool) (t : Nat) : Start :=
  let s := w.start t
  if taken s.binding && (w.binding s.binding).subscription = some t then { s with closes := s.closes + 1 } else s

/-! ## Starting -/

/-- `#start` and `#startSingleton` up to the call of the transport. -/
def begin (w : World F) (b : Nat) : World F :=
  { w with
    binding := update w.binding b { w.binding b with starting := true }
    startCount := w.startCount + 1
    start := update w.start w.startCount ⟨b, (w.binding b).revision, true, .subscribing, 0, false⟩ }

/-- `#assertAvailable`, without its effect on the modes. -/
def available (allowlist : String → Bool) (w : World F) (serviceId : String) (mode : Mode) : Bool :=
  !w.disposed && allowlist serviceId && (w.modes serviceId).all fun existing => existing = mode

def addBinding (facade : ServiceFacade F S U) (w : World F) (mode : Mode) (serviceId : String) : World F :=
  { w with
    bindingCount := w.bindingCount + 1
    binding := update w.binding w.bindingCount (.fresh mode serviceId w.bound)
    content := update w.content w.bindingCount ⟨facade.initial, [], false⟩ }

def use (facade : ServiceFacade F S U) (allowlist : String → Bool) (w : World F) (serviceId : String) : World F :=
  if !w.available allowlist serviceId .singleton then w
  else
    let w := { w with modes := update w.modes serviceId (some .singleton) }
    match w.singletons serviceId with
    | some _ => w
    | none =>
      let b := w.bindingCount
      let w := { w.addBinding facade .singleton serviceId with singletons := update w.singletons serviceId (some b) }
      if w.bound then w.begin b else w

/-- `KeyedBinding.observe` -/
def addObserver (w : World F) (b : Nat) : World F :=
  let starts := (w.binding b).bound && !(w.binding b).starting
  let w := { w with binding := update w.binding b { w.binding b with observers := (w.binding b).observers + 1 } }
  if starts then w.begin b else w

def observe (facade : ServiceFacade F S U) (allowlist : String → Bool) (w : World F) (serviceId : String) : World F :=
  if !w.available allowlist serviceId .keyed then w
  else
    let w := { w with modes := update w.modes serviceId (some .keyed) }
    match w.keyed serviceId with
    | some b => w.addObserver b
    | none =>
      let b := w.bindingCount
      ({ w.addBinding facade .keyed serviceId with keyed := update w.keyed serviceId (some b) }).addObserver b

/-! ## Ending -/

def Content.reset (content : Content F) : Content F := { content with instances := [], ready := false }

/-- `KeyedBinding.close` up to its `await`. -/
def Binding.closed (binding : Binding) : Binding :=
  { binding with live := false, revision := binding.revision + 1, subscription := none, starting := false }

/-- An observer stops; the binding of the last one is closed. -/
def stop (w : World F) (b : Nat) : Option (World F) :=
  let x := w.binding b
  if x.observers = 0 then none
  else
    let stopped := { x with observers := x.observers - 1 }
    if x.observers = 1 ∧ w.keyed x.serviceId = some b then
      some { w with
        keyed := update w.keyed x.serviceId none
        binding := update w.binding b (Binding.closed stopped)
        content := update w.content b (Content.reset (w.content b))
        start := w.closing fun b' => b' = b }
    else some { w with binding := update w.binding b stopped }

/-- `KeyedBinding.close` after its `await`. -/
def disposeInstances (w : World F) (b : Nat) : Option (World F) :=
  if (w.binding b).live then none
  else
    some { w with
      binding := update w.binding b { w.binding b with observers := 0 }
      content := update w.content b (Content.reset (w.content b)) }

/-- A binding that is rebound. -/
def Binding.rebound (binding : Binding) (bound : Bool) : Binding :=
  match binding.mode with
  | .singleton => { binding with revision := binding.revision + 1, subscription := none, starting := true }
  | .keyed => { binding with bound := bound, revision := binding.revision + 1, subscription := none, starting := false }

/-- `rebind` up to its `await`: each binding of the maps goes on by a start of its own. The numbers that belong to
bindings which are in no map stay unused. -/
def rebind (facade : ServiceFacade F S U) (w : World F) (bound : Bool) : World F :=
  if w.disposed then w
  else
    { w with
      bound := bound
      binding := fun b => if w.inMap b then Binding.rebound (w.binding b) bound else w.binding b
      content := fun b =>
        if w.inMap b then
          match (w.binding b).mode with
          | .singleton => { w.content b with facade := facade.clear (w.content b).facade }
          | .keyed => Content.reset (w.content b)
        else w.content b
      startCount := w.startCount + w.bindingCount
      start := fun t =>
        if t < w.startCount then w.closing w.inMap t
        else if w.inMap (t - w.startCount) then
          ⟨t - w.startCount, (w.binding (t - w.startCount)).revision + 1, bound, .waiting, 0, false⟩
        else .none }

def dispose (facade : ServiceFacade F S U) (w : World F) : World F :=
  if w.disposed then w
  else
    { w with
      disposed := true
      singletons := fun _ => none
      keyed := fun _ => none
      binding := fun b =>
        if w.inMap b then
          match (w.binding b).mode with
          | .singleton => { w.binding b with live := false }
          | .keyed => Binding.closed (w.binding b)
        else w.binding b
      content := fun b =>
        if w.inMap b then
          match (w.binding b).mode with
          | .singleton => { w.content b with facade := facade.clear (w.content b).facade }
          | .keyed => Content.reset (w.content b)
        else w.content b
      start := w.closing w.inMap }

/-! ## Calls of the transport that complete -/

def setStart (w : World F) (t : Nat) (s : Start) : World F := { w with start := update w.start t s }

/-- `rebind` of a binding after the last subscription is closed. -/
def resume (w : World F) (t : Nat) : Option (World F) :=
  let s := w.start t
  let x := w.binding s.binding
  if s.stage ≠ .waiting then none
  else
    match x.mode with
    | .singleton => some (w.setStart t { s with stage := if s.bound then .subscribing else .finished })
    | .keyed =>
      if !x.live || x.revision ≠ s.revision || x.bound ≠ s.bound || !s.bound || x.observers = 0 then
        some (w.setStart t { s with stage := .finished })
      else
        some { w.setStart t { s with stage := .subscribing } with
          binding := update w.binding s.binding { x with starting := true } }

/-- The last subscription could not be closed, or `transport.subscribe` has failed. -/
def reject (w : World F) (t : Nat) : Option (World F) :=
  let s := w.start t
  if s.stage = .waiting ∨ s.stage = .subscribing then some { w.setStart t { s with stage := .finished } with failed := true }
  else none

/-- `#spawn`; the result says whether it throws. -/
def spawn (facade : ServiceFacade F S U) (content : Content F) (snapshot : InstanceSnapshot S) : Content F × Bool :=
  match snapshot.address with
  | none => (content, true)
  | some address =>
    match facade.install facade.initial snapshot.members with
    | (_, true) => (content, true)
    | (installed, false) =>
      match content.instances.get address.key with
      | some (generation, _) =>
        if generation = address.generation then (content, true)
        else
          ({ content with
            instances := (content.instances.delete address.key).set address.key (address.generation, installed) }, false)
      | none => ({ content with instances := content.instances.set address.key (address.generation, installed) }, false)

/-- The loop over the instances of a snapshot, which the first error ends. -/
def spawnAll (facade : ServiceFacade F S U) (content : Content F) : List (InstanceSnapshot S) → Content F × Bool
  | [] => (content, false)
  | snapshot :: snapshots =>
    match spawn facade content snapshot with
    | (content, true) => (content, true)
    | (content, false) => spawnAll facade content snapshots

/-- `install` of a singleton's facade, whose instance has no address. -/
def installSingleton (facade : ServiceFacade F S U) (content : Content F) (snapshot : InstanceSnapshot S) : Content F × Bool :=
  match snapshot.address with
  | some _ => (content, true)
  | none =>
    let installed := facade.install content.facade snapshot.members
    ({ content with facade := installed.1 }, installed.2)

/-- What a snapshot makes of the content of its binding, and whether it throws before the subscription is activated. -/
def hydrate (facade : ServiceFacade F S U) (x : Binding) (content : Content F) (snapshot : SubscriptionSnapshot S) :
    Content F × Bool :=
  if snapshot.mode ≠ x.mode ∨ snapshot.serviceId ≠ x.serviceId then (content, true)
  else
    match x.mode, snapshot.instances with
    | .singleton, [instance_] => installSingleton facade content instance_
    | .singleton, _ => (content, true)
    | .keyed, instances =>
      match spawnAll facade content instances with
      | (content, true) => (content, true)
      | (content, false) => ({ content with ready := true }, false)

/-- A start is superseded when its binding has ended or has another revision. -/
def superseded (w : World F) (t : Nat) : Bool :=
  let s := w.start t
  !(w.binding s.binding).live || (w.binding s.binding).revision ≠ s.revision

/-- What a binding is asked for when the transport returns its subscription. -/
def boundFor (w : World F) (x : Binding) : Bool :=
  match x.mode with
  | .singleton => w.bound && !w.disposed
  | .keyed => x.bound

/-- `transport.subscribe` has returned. -/
def subscribed (facade : ServiceFacade F S U) (w : World F) (t : Nat) (snapshot : SubscriptionSnapshot S) : Option (World F) :=
  let s := w.start t
  let x := w.binding s.binding
  if s.stage ≠ .subscribing then none
  else if w.superseded t || !w.boundFor x then some (w.setStart t { s with stage := .returned, closes := s.closes + 1 })
  else
    let hydrated := hydrate facade x (w.content s.binding) snapshot
    some { w.setStart t { s with stage := .returned, activated := !hydrated.2 } with
      binding := update w.binding s.binding { x with subscription := some t }
      content := update w.content s.binding hydrated.1
      failed := w.failed || hydrated.2 }

/-- What an update makes of the content of a binding; errors are reported. -/
def receive (facade : ServiceFacade F S U) (mode : Mode) (content : Content F) : ServiceProviderUpdate S U → Content F
  | .unavailable =>
    match mode with
    | .singleton => { content with facade := facade.clear content.facade }
    | .keyed => content
  | .replaced snapshot =>
    match mode with
    | .singleton => (installSingleton facade content snapshot).1
    | .keyed => content
  | .spawned snapshot =>
    match mode with
    | .singleton => content
    | .keyed => (spawn facade content snapshot).1
  | .closed address =>
    match mode with
    | .singleton => content
    | .keyed =>
      if (content.instances.get address.key).any fun entry => entry.1 = address.generation then
        { content with instances := content.instances.delete address.key }
      else content
  | .state address change =>
    match mode, address with
    | .singleton, none => { content with facade := facade.update content.facade change }
    | .singleton, some _ => content
    | .keyed, none => content
    | .keyed, some address =>
      match content.instances.get address.key with
      | some (generation, view) =>
        if generation = address.generation then
          { content with instances := content.instances.set address.key (generation, facade.update view change) }
        else content
      | none => content

/-- The listener of a subscription. -/
def update_ (facade : ServiceFacade F S U) (w : World F) (t : Nat) (u : ServiceProviderUpdate S U) : Option (World F) :=
  let s := w.start t
  if s.stage ≠ .subscribing ∧ s.stage ≠ .returned then none
  else if w.superseded t then some w
  else
    some { w with
      content := update w.content s.binding (receive facade (w.binding s.binding).mode (w.content s.binding) u) }

end World

inductive Event (S U : Type) where
  | use (serviceId : String)
  | observe (serviceId : String)
  | stop (binding : Nat)
  | disposeInstances (binding : Nat)
  | rebind (bound : Bool)
  | dispose
  | resume (start : Nat)
  | reject (start : Nat)
  | subscribed (start : Nat) (snapshot : SubscriptionSnapshot S)
  | update (start : Nat) (update : ServiceProviderUpdate S U)

namespace World

def step (facade : ServiceFacade F S U) (allowlist : String → Bool) (w : World F) : Event S U → Option (World F)
  | .use serviceId => some (w.use facade allowlist serviceId)
  | .observe serviceId => some (w.observe facade allowlist serviceId)
  | .stop b => w.stop b
  | .disposeInstances b => w.disposeInstances b
  | .rebind bound => some (w.rebind facade bound)
  | .dispose => some (w.dispose facade)
  | .resume t => w.resume t
  | .reject t => w.reject t
  | .subscribed t snapshot => w.subscribed facade t snapshot
  | .update t u => w.update_ facade t u

def run (facade : ServiceFacade F S U) (allowlist : String → Bool) (w : World F) : List (Event S U) → Option (World F)
  | [] => some w
  | event :: events => (w.step facade allowlist event).bind fun w => w.run facade allowlist events

end World

end Shuvpi.Consumer
