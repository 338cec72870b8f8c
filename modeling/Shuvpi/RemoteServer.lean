import Shuvpi.RemoteClient

/-!
# The server side of a connection

`Server` of `server/src/server.ts` for one connection that has finished its handshake:
`handleRequest` cut at each `await`, `handleCancel`, the closure `publish` that the services
keep, and the encoders of the subscriptions. What the services do is up to them: they take a
snapshot while they answer a subscribing call, publish updates from then on, and return or throw.
-/
namespace Shuvpi.Remote

open Delta Provider ServiceCodec Function

/-- Where `handleRequest` waits. -/
inductive Stage where
  /-- for the services -/
  | calling
  /-- for a message to be sent, with pending updates to send after it -/
  | draining
  /-- for the last message to be sent -/
  | leaving
  deriving DecidableEq

/-- One run of `handleRequest`, which is in `activeRequests`. -/
structure Handler where
  target : RpcTarget
  call : ServiceCall
  aborted : Bool := false
  stage : Stage

/-- `pendingUpdates` and `subscriptionReady`, which outlive the request. -/
structure Publisher where
  pendingUpdates : List (Update Op) := []
  subscriptionReady : Bool := false

structure Server where
  serverId : String
  disconnected : Bool := false
  serviceStateEncoders : SubscriptionId → Option (Registry Encoder) := fun _ => none
  activeRequests : Nat → Option Handler := fun _ => none
  publishers : Nat → Publisher := fun _ => {}

namespace Server

/-- A step of the server, with what it sends. -/
abbrev Sent := Server × List ServerMessage

def sendMessage (s : Server) (message : ServerMessage) : Sent := (s, if s.disconnected then [] else [message])

def handleCancel (s : Server) (id : Nat) (target : RpcTarget) : Server :=
  if target.serverId = s.serverId then
    match s.activeRequests id with
    | some h =>
      if h.target = target then { s with activeRequests := update s.activeRequests id (some { h with aborted := true }) } else s
    | none => s
  else s

/-- The response when something was thrown. -/
def refuse (s : Server) (id : Nat) (h : Handler) (error : ProtocolError) : Sent :=
  let error := if h.aborted then ⟨"cancelled", "RPC request cancelled"⟩ else error
  { s with activeRequests := update s.activeRequests id (some { h with stage := .leaving }) }.sendMessage (.response id (.error error))

def subscribing : ServiceCall → Option SubscriptionId
  | .subscribe subscriptionId _ _ => some subscriptionId
  | _ => none

/-- `handleRequest` until the services are called. -/
def handleRequest (s : Server) (id : Nat) (target : RpcTarget) (call : ServiceCall) : Sent :=
  if (s.activeRequests id).isSome then
    s.sendMessage (.response id (.error ⟨"invalid_request", "Request ID is already active"⟩))
  else
    let h : Handler := { target, call, stage := .calling }
    let s := { s with publishers := update s.publishers id {} }
    if target.serverId ≠ s.serverId then s.refuse id h ⟨"wrong_server", "Request was addressed to another server"⟩
    else
      match subscribing call with
      | some subscriptionId =>
        if (s.serviceStateEncoders subscriptionId).isSome then
          s.refuse id h ⟨"invalid_request", "Duplicate service subscription " ++ subscriptionId.text⟩
        else ({ s with activeRequests := update s.activeRequests id (some h) }, [])
      | none => ({ s with activeRequests := update s.activeRequests id (some h) }, [])

def internalError : ProtocolError := ⟨"internal_error", "Internal server error"⟩

def respond (s : Server) (id : Nat) (h : Handler) (stage : Stage) (result : WireResult) : Sent :=
  { s with activeRequests := update s.activeRequests id (some { h with stage }) }.sendMessage (.response id (.ok result))

/-- `handleRequest` after the services have thrown, or returned something other than a snapshot. -/
def answer (s : Server) (id : Nat) (h : Handler) (result : Except ProtocolError (Option Json)) : Sent :=
  match result, h.call with
  | .error error, _ => s.refuse id h error
  | .ok none, .subscribe _ _ _ => s.refuse id h ⟨"invalid_request", "Service subscription did not return a snapshot"⟩
  | .ok (some _), .subscribe _ _ _ => s.refuse id h internalError
  | .ok value, .unsubscribe subscriptionId =>
    { s with serviceStateEncoders := update s.serviceStateEncoders subscriptionId none }.respond id h .leaving (.value value)
  | .ok value, .invoke _ => s.respond id h .leaving (.value value)

/-- `handleRequest` after the services have returned the snapshot of a subscription. -/
def answerSnapshot (s : Server) (id : Nat) (h : Handler) (subscriptionId : SubscriptionId) (snapshot : SubscriptionSnapshot Op) : Sent :=
  match encodeSnapshot snapshot with
  | .error _ => s.refuse id h internalError
  | .ok (encoder, wire) =>
    { s with serviceStateEncoders := update s.serviceStateEncoders subscriptionId (some encoder) }.respond id h .draining (.snapshot wire)

/-- `sendServiceUpdate`; `none` if the encoder throws. -/
def sendServiceUpdate (s : Server) (subscriptionId : SubscriptionId) (u : Update Op) : Option Sent :=
  match s.serviceStateEncoders subscriptionId with
  | none => some (s, [])
  | some encoder =>
    match encodeUpdate encoder u with
    | .error _ => none
    | .ok (encoder, wire) =>
      some ({ s with serviceStateEncoders := update s.serviceStateEncoders subscriptionId (some encoder) }.sendMessage
        (.serviceUpdate subscriptionId wire))

/-- The closure `publish` of a subscribing request. The services ignore what it throws. -/
def publish (s : Server) (id : Nat) (subscriptionId : SubscriptionId) (u : Update Op) : Sent :=
  let p := s.publishers id
  if p.subscriptionReady then (s.sendServiceUpdate subscriptionId u).getD (s, [])
  else ({ s with publishers := update s.publishers id { p with pendingUpdates := p.pendingUpdates ++ [u] } }, [])

def leave (s : Server) (id : Nat) : Server := { s with activeRequests := update s.activeRequests id none }

/-- `handleRequest` after a message was sent: one round of the loop over the pending updates, or its end. -/
def proceed (s : Server) (id : Nat) (h : Handler) : Sent :=
  match h.stage, subscribing h.call with
  | .draining, some subscriptionId =>
    let p := s.publishers id
    match p.pendingUpdates with
    | [] => ({ s with publishers := update s.publishers id { p with subscriptionReady := true } }.leave id, [])
    | u :: rest =>
      let s := { s with publishers := update s.publishers id { p with pendingUpdates := rest } }
      (s.sendServiceUpdate subscriptionId u).getD ({ s with disconnected := true }, [])
  | .calling, _ => (s, [])
  | _, _ => (s.leave id, [])

end Server

end Shuvpi.Remote
