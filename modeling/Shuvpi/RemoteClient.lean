import Shuvpi.ServiceCodec

/-!
# The client side of a connection

`Client` of `client/src/client.ts` on one connection: requests with their promises, aborts,
and the subscriptions that the application holds. A message is a value here; framing and
encoding are modelled elsewhere.

The texts `request-1` and `service-1` are numbers. The objects that closures keep after they
have left a map (a promise, an `ActiveServiceListener`) stay in the state, with a flag that
says whether the map still has them.
-/
namespace Shuvpi.Remote

open Delta Provider ServiceCodec Function

/-! ## Messages -/

structure SessionRef where
  sessionId : String
  attachmentId : String
  deriving DecidableEq

structure RpcTarget where
  serverId : String
  session : Option SessionRef := none
  deriving DecidableEq

/-- `service-<n>`, or a text that the client has not made. -/
inductive SubscriptionId where
  | service (n : Nat)
  | other (text : String)
  deriving DecidableEq

def SubscriptionId.text : SubscriptionId → String
  | .service n => "service-" ++ toString n
  | .other text => text

/-- A call, as `decodeServiceControlCall` reads it. -/
inductive ServiceCall where
  | subscribe (subscriptionId : SubscriptionId) (serviceId : Nat) (mode : ServiceMode)
  | unsubscribe (subscriptionId : SubscriptionId)
  | invoke (call : Json)

structure ProtocolError where
  code : String
  message : String

/-- The result of a response: some JSON, or the snapshot of a subscription. -/
inductive WireResult where
  | value (result : Option Json)
  | snapshot (snapshot : SubscriptionSnapshot WireOp)

inductive ClientMessage where
  | request (id : Nat) (target : RpcTarget) (call : ServiceCall)
  | cancel (id : Nat) (target : RpcTarget)

inductive ServerMessage where
  | response (id : Nat) (result : Except ProtocolError WireResult)
  | serviceUpdate (subscriptionId : SubscriptionId) (update : Update WireOp)
  | attachment (target : Option RpcTarget)

/-! ## The client -/

inductive Settlement where
  | resolved (result : WireResult)
  /-- What `subscribeService` makes of the response. -/
  | snapshot (snapshot : SubscriptionSnapshot Op)
  | rejected (error : ProtocolError)
  | aborted
  | disconnected
  /-- The result could not be read. -/
  | invalid

/-- A request that was sent, with its promise. -/
structure Request where
  target : RpcTarget
  call : ServiceCall
  /-- The subscription whose decoder transforms the result. -/
  subscribes : Option Nat := none
  signal : Bool
  /-- It is in `#pendingRequests`. -/
  pending : Bool := true
  settled : Option Settlement := none
  /-- `subscribeService` has gone on after its request. -/
  resumed : Bool := false

/-- The first settlement of a promise stands. -/
def Request.settle (q : Request) (s : Settlement) : Request := { q with settled := q.settled.or (some s) }

/-- `ActiveServiceListener`, and what the closures of its subscription know. -/
structure Active where
  target : RpcTarget
  /-- The request that subscribes. -/
  request : Nat
  decoder : Registry Decoder := .empty
  queuedWireUpdates : List (Update WireOp) := []
  queued : List (Update Op) := []
  /-- The updates with which the listener is still to be called. -/
  deliveryTail : List (Update Op) := []
  /-- The updates with which it was called. -/
  received : List (Update Op) := []
  hydrated : Bool := false
  ready : Bool := false
  /-- It is in `#serviceListeners`. -/
  listed : Bool := true
  /-- `subscribeService` has returned the subscription. -/
  opened : Bool := false
  disposed : Bool := false

structure Client where
  serverId : String
  connected : Bool := true
  requestSequence : Nat := 0
  serviceSubscriptionSequence : Nat := 0
  requests : Nat → Option Request := fun _ => none
  subscriptions : Nat → Option Active := fun _ => none
  attachment : Option SessionRef := none

namespace Client

/-- `#request`; when the client is not connected nothing is sent and the promise is rejected. -/
def request (c : Client) (target : RpcTarget) (call : ServiceCall) (subscribes : Option Nat) (signal : Bool) :
    Client × List ClientMessage :=
  if c.connected then
    let id := c.requestSequence + 1
    ({ c with
      requestSequence := id
      requests := update c.requests id (some { target, call, subscribes, signal }) }, [.request id target call])
  else (c, [])

/-- `subscribeService` up to the response. A listener that is added while the client is not connected is removed at once. -/
def subscribeService (c : Client) (target : RpcTarget) (serviceId : Nat) (mode : ServiceMode) : Client × List ClientMessage :=
  let n := c.serviceSubscriptionSequence + 1
  let c := { c with serviceSubscriptionSequence := n }
  if c.connected then
    let active : Active := { target, request := c.requestSequence + 1 }
    { c with subscriptions := update c.subscriptions n (some active) }.request target (.subscribe (.service n) serviceId mode) (some n) true
  else (c, [])

/-- `onAbort`, which is removed when the response arrives and runs once. -/
def abort (c : Client) (id : Nat) : Client × List ClientMessage :=
  match c.requests id with
  | some q =>
    if q.pending && q.signal && q.settled.isNone then
      ({ c with requests := update c.requests id (some (q.settle .aborted)) }, if c.connected then [.cancel id q.target] else [])
    else (c, [])
  | none => (c, [])

/-- The subscription is returned, or the listener removed. -/
def resumed (a : Active) : Settlement → Active
  | .snapshot _ => { a with opened := a.listed }
  | _ => { a with listed := false }

/-- `subscribeService` after its request is settled. -/
def resume (c : Client) (id : Nat) : Client :=
  match c.requests id with
  | some q =>
    match q.settled, q.subscribes, q.resumed with
    | some s, some n, false =>
      let c := { c with requests := update c.requests id (some { q with resumed := true }) }
      match c.subscriptions n with
      | some a => { c with subscriptions := update c.subscriptions n (some (resumed a s)) }
      | none => c
    | _, _, _ => c
  | none => c

def deliverServiceUpdate (a : Active) (updates : List (Update Op)) : Active :=
  { a with deliveryTail := a.deliveryTail ++ updates }

def start (c : Client) (n : Nat) : Client :=
  match c.subscriptions n with
  | some a =>
    if a.opened && !a.disposed && !a.ready then
      { c with subscriptions := update c.subscriptions n (some (deliverServiceUpdate { a with ready := true, queued := [] } a.queued)) }
    else c
  | none => c

def targetIsCurrent (c : Client) (target : RpcTarget) : Bool :=
  match target.session with
  | none => c.connected && target.serverId = c.serverId
  | some session => target.serverId = c.serverId && c.attachment = some session

def dispose (c : Client) (n : Nat) : Client × List ClientMessage :=
  match c.subscriptions n with
  | some a =>
    if a.opened && !a.disposed then
      let c := { c with subscriptions := update c.subscriptions n (some { a with disposed := true, listed := false }) }
      if c.connected && c.targetIsCurrent a.target then c.request a.target (.unsubscribe (.service n)) none false
      else (c, [])
    else (c, [])
  | none => (c, [])

/-- The listener of a subscription is called. -/
def deliver (c : Client) (n : Nat) : Client :=
  match c.subscriptions n with
  | some a =>
    match a.deliveryTail with
    | u :: rest => { c with subscriptions := update c.subscriptions n (some { a with deliveryTail := rest, received := a.received ++ [u] }) }
    | [] => c
  | none => c

/-- `#connection.fail`, with what the client does when the connection is gone. -/
def fail (c : Client) : Client :=
  { c with
    connected := false
    attachment := none
    requests := fun id => (c.requests id).map fun q => if q.pending then { q.settle .disconnected with pending := false } else q
    subscriptions := fun n => (c.subscriptions n).map fun a => { a with listed := false } }

def decodeUpdates : Registry Decoder → List (Update WireOp) → Except CodecError (Registry Decoder × List (Update Op))
  | decoder, [] => .ok (decoder, [])
  | decoder, wire :: wires => do
    let (decoder, u) ← decodeUpdate decoder wire
    let (decoder, us) ← decodeUpdates decoder wires
    return (decoder, u :: us)

/-- What a listener does with an update that was decoded. -/
def receiveUpdate (a : Active) (u : Update Op) : Active :=
  if a.ready then deliverServiceUpdate a [u] else { a with queued := a.queued ++ [u] }

/-- What `subscribeService` does with a result. -/
def hydrate (a : Active) : WireResult → Except CodecError (Active × SubscriptionSnapshot Op)
  | .snapshot wire => do
    let (decoder, snapshot) ← decodeSnapshot wire
    let (decoder, updates) ← decodeUpdates decoder a.queuedWireUpdates
    return ({ a with decoder, hydrated := true, queuedWireUpdates := [], queued := a.queued ++ updates }, snapshot)
  | .value _ => .error (.unknown none [])

/-- `pending.resolve` -/
def resolve (c : Client) (id : Nat) (q : Request) (result : WireResult) : Client :=
  let settle (s : Settlement) : Client := { c with requests := update c.requests id (some ({ q with pending := false }.settle s)) }
  match q.subscribes with
  | none => settle (.resolved result)
  | some n =>
    match c.subscriptions n with
    | none => settle (.resolved result)
    | some a =>
      match hydrate a result with
      | .error _ => (settle .invalid).fail
      | .ok (a, snapshot) => { settle (.snapshot snapshot) with subscriptions := update c.subscriptions n (some a) }

/-- `#handleMessage` -/
def handleMessage (c : Client) : ServerMessage → Client
  | .attachment none => { c with attachment := none }
  | .attachment (some target) => if target.serverId = c.serverId then { c with attachment := target.session } else c.fail
  | .serviceUpdate (.other _) _ => c
  | .serviceUpdate (.service n) wire =>
    match c.subscriptions n with
    | none => c
    | some a =>
      if !a.listed then c
      else if !a.hydrated then
        { c with subscriptions := update c.subscriptions n (some { a with queuedWireUpdates := a.queuedWireUpdates ++ [wire] }) }
      else
        match decodeUpdate a.decoder wire with
        | .error _ => c.fail
        | .ok (decoder, u) => { c with subscriptions := update c.subscriptions n (some (receiveUpdate { a with decoder } u)) }
  | .response id result =>
    match c.requests id with
    | none => c.fail
    | some q =>
      if !q.pending then c.fail
      else
        match result with
        | .error error => { c with requests := update c.requests id (some ({ q with pending := false }.settle (.rejected error))) }
        | .ok result => c.resolve id q result

end Client

end Shuvpi.Remote
