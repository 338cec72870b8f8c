import Shuvpi.RemoteServer

/-!
# A client and a server on one connection

Two queues carry the messages in order. Everything that either side does between two waits is
one event: a call of the application, a message that is handled, a continuation, and what the
services do on the server.
-/
namespace Shuvpi.Remote

open Delta Provider ServiceCodec Function

/-- A subscription of the services: its snapshot, and the updates published after it. -/
structure Feed where
  subscriptionId : SubscriptionId
  snapshot : SubscriptionSnapshot Op
  published : List (Update Op) := []

structure World where
  client : Client
  server : Server
  /-- The subscriptions of the services, by the request that asked for them. -/
  feeds : Nat → Option Feed := fun _ => none
  toServer : List ClientMessage := []
  toClient : List ServerMessage := []
  /-- Everything the server has sent. -/
  transcript : List ServerMessage := []

inductive Event where
  | request (target : RpcTarget) (call : ServiceCall)
  | subscribeService (target : RpcTarget) (serviceId : Nat) (mode : ServiceMode)
  | abort (id : Nat)
  | resume (id : Nat)
  | start (n : Nat)
  | dispose (n : Nat)
  | deliver (n : Nat)
  | clientReceives
  | serverReceives
  /-- The services take the snapshot that a call asks for. -/
  | take (id : Nat) (snapshot : SubscriptionSnapshot Op)
  | publish (id : Nat) (u : Update Op)
  | returns (id : Nat) (result : Except ProtocolError (Option Json))
  | returnsSnapshot (id : Nat)
  | proceed (id : Nat)
  /-- The session that the client is attached to changes. -/
  | attach (session : Option SessionRef)

namespace World

def sends (w : World) (r : Client × List ClientMessage) : World := { w with client := r.1, toServer := w.toServer ++ r.2 }

def replies (w : World) (r : Server.Sent) : World :=
  { w with server := r.1, toClient := w.toClient ++ r.2, transcript := w.transcript ++ r.2 }

/-- The handler of a request whose call the services are running. -/
def calling (w : World) (id : Nat) : Option Handler := (w.server.activeRequests id).filter fun h => h.stage = .calling

/-- One event; `none` if it cannot happen. -/
def step (w : World) : Event → Option World
  | .request target call => some (w.sends (w.client.request target call none true))
  | .subscribeService target serviceId mode => some (w.sends (w.client.subscribeService target serviceId mode))
  | .abort id => some (w.sends (w.client.abort id))
  | .resume id => some { w with client := w.client.resume id }
  | .start n => some { w with client := w.client.start n }
  | .dispose n => some (w.sends (w.client.dispose n))
  | .deliver n => some { w with client := w.client.deliver n }
  | .clientReceives =>
    match w.toClient with
    | [] => none
    | message :: rest => some { w with toClient := rest, client := if w.client.connected then w.client.handleMessage message else w.client }
  | .serverReceives =>
    match w.toServer with
    | [] => none
    | .cancel id target :: rest => some { w with toServer := rest, server := w.server.handleCancel id target }
    | .request id target call :: rest => some ({ w with toServer := rest }.replies (w.server.handleRequest id target call))
  | .take id snapshot =>
    match w.calling id, w.feeds id with
    | some h, none => (Server.subscribing h.call).map fun subscriptionId =>
        { w with feeds := update w.feeds id (some ⟨subscriptionId, snapshot, []⟩) }
    | _, _ => none
  | .publish id u => (w.feeds id).map fun f =>
      { w with feeds := update w.feeds id (some { f with published := f.published ++ [u] }) }.replies (w.server.publish id f.subscriptionId u)
  | .returns id result => (w.calling id).map fun h => w.replies (w.server.answer id h result)
  | .returnsSnapshot id =>
    match w.calling id, w.feeds id with
    | some h, some f => some (w.replies (w.server.answerSnapshot id h f.subscriptionId f.snapshot))
    | _, _ => none
  | .proceed id =>
    match w.server.activeRequests id with
    | some h => if h.stage = .calling then none else some (w.replies (w.server.proceed id h))
    | none => none
  | .attach session => some (w.replies (w.server.sendMessage (.attachment (session.map fun session => ⟨w.server.serverId, some session⟩))))

/-- A connection whose handshake is done. -/
def init (serverId : String) : World := { client := { serverId }, server := { serverId } }

/-- What the services have published for a subscription of the client. -/
def published (w : World) (a : Active) : List (Update Op) := (w.feeds a.request).elim [] Feed.published

/-- No message is in flight, no call is running, and every promise has had its continuation. -/
structure Quiet (w : World) : Prop where
  toServer : w.toServer = []
  toClient : w.toClient = []
  active : ∀ id, w.server.activeRequests id = none
  resumed : ∀ id q, w.client.requests id = some q → q.subscribes.isSome → q.settled.isSome → q.resumed = true
  delivered : ∀ n a, w.client.subscriptions n = some a → a.deliveryTail = []

end World

/-! ## Runs -/

/-- When an event leads to what is expected of a connection. -/
def Allowed (w : World) : Event → Prop
  /- The subscriptions are made with `subscribeService` and ended with `dispose`. -/
  | .request _ call => ∃ json, call = .invoke json
  /- A subscribing request that is aborted has not been answered with a snapshot, and is not. -/
  | .abort id => ∀ q n, w.client.requests id = some q → q.subscribes = some n → w.server.serviceStateEncoders (.service n) = none
  | .returnsSnapshot id => ∀ q, w.client.requests id = some q → q.settled.isNone
  /- The target of a subscription that is disposed of is current, and the call that ends it returns. -/
  | .dispose n => ∀ a, w.client.subscriptions n = some a → w.client.targetIsCurrent a.target
  | .returns id result => ∀ h n, w.server.activeRequests id = some h → h.call = .unsubscribe n → ∃ value, result = .ok value
  /- The codecs carry the snapshot and the updates. -/
  | .take _ snapshot => transmit snapshot [] = .ok (snapshot, [])
  | .publish id u => ∀ f, w.feeds id = some f →
      transmit f.snapshot (f.published ++ [u]) = .ok (f.snapshot, f.published ++ [u])
  | _ => True

inductive Reaches (P : World → Event → Prop) (serverId : String) : World → Prop
  | init : Reaches P serverId (.init serverId)
  | step {w w' : World} {e : Event} (h : Reaches P serverId w) (hP : P w e) (hstep : w.step e = some w') : Reaches P serverId w'

end Shuvpi.Remote
