import Shuvpi.JsText

/-!
# The connections of a client

`Connection` and the parts of `Client` that it drives, over any number of connections. The
code calls its listeners in the middle of its work, and a listener may call the client
again. What is left to do after a call of listeners is a frame on a stack: the listeners of
the top frame are running, and whatever they call is put above it. Promises are numbered in
the order in which they are made.

Closing a transport has no effect that the client can see, so `#failAndClose` is `#fail`.
-/
namespace Shuvpi.Connection

/-! ## Promises -/

abbrev Promises (α : Type) := List (Option α)

/-- A promise that is settled already stays as it is. -/
def Promises.settle {α : Type} (promises : Promises α) (p : Nat) (outcome : α) : Promises α :=
  promises.modify p fun settled => some (settled.getD outcome)

/-- `promise?.reject(error)` -/
def Promises.settleIf {α : Type} (promises : Promises α) (p : Option Nat) (outcome : α) : Promises α :=
  match p with
  | some p => promises.settle p outcome
  | none => promises

/-! ## Messages -/

structure SessionTarget where
  serverId : String
  sessionId : String
  attachmentId : String
  deriving DecidableEq

inductive RpcTarget where
  | server (serverId : String)
  | session (target : SessionTarget)
  deriving DecidableEq

/-- A response that is not `ok` has an error; results and updates are looked at by decoders only. -/
inductive ServerMessage where
  | hello (serverId : String)
  | helloError (text : String)
  | response (id : Nat) (error : Option String)
  | serviceUpdate (subscriptionId : Nat)
  | attachment (attachment : Option SessionTarget)
  deriving DecidableEq

inductive State where
  | disconnected
  | connecting
  | connected
  deriving DecidableEq, Repr

def State.text : State → String
  | .disconnected => "disconnected"
  | .connecting => "connecting"
  | .connected => "connected"

inductive Reason where
  | already (state : State)
  | disposed
  | disconnected
  | closed
  | dataBeforeHello
  | helloBeforeHello
  | helloExpected
  | otherServer (serverId expected : String)
  | unexpectedHandshake
  | attachmentOfOtherServer
  | unmatchedResponse
  | given (text : String)
  deriving DecidableEq

def Reason.message : Reason → String
  | .already state => "Client is already " ++ state.text
  | .disposed => "Client is disposed"
  | .disconnected => "Client is disconnected"
  | .closed => "Byte transport closed"
  | .dataBeforeHello => "Received server data before the client hello was sent"
  | .helloBeforeHello => "Received server hello before the client hello was sent"
  | .helloExpected => "Expected server hello as first message"
  | .otherServer serverId expected => "Connected server \"" ++ serverId ++ "\" does not match \"" ++ expected ++ "\""
  | .unexpectedHandshake => "Unexpected handshake message"
  | .attachmentOfOtherServer => "Attachment update belongs to another server"
  | .unmatchedResponse => "Response has no matching request"
  | .given text => text

/-! ## The state -/

/-- `ServerMessageDecoder` -/
structure Decoder (Chunk Dec : Type) where
  initial : Dec
  push : Dec → Chunk → Except String (Dec × List ServerMessage)
  finish : Dec → Except String Unit

/-- `ConnectionLifecycle`; `handshake` is the promise of `connect`. -/
inductive Lifecycle (Dec : Type) where
  | disconnected
  | connecting (id : Nat) (decoder : Dec) (transport : Bool) (handshake : Nat)
  | connected (id : Nat) (decoder : Dec) (handshake : Option Nat)

namespace Lifecycle

variable {Dec : Type}

def state : Lifecycle Dec → State
  | .disconnected => .disconnected
  | .connecting .. => .connecting
  | .connected .. => .connected

def id? : Lifecycle Dec → Option Nat
  | .disconnected => none
  | .connecting id .. => some id
  | .connected id .. => some id

def handshake? : Lifecycle Dec → Option Nat
  | .disconnected => none
  | .connecting _ _ _ handshake => some handshake
  | .connected _ _ handshake => handshake

def hasTransport : Lifecycle Dec → Bool
  | .disconnected => false
  | .connecting _ _ transport _ => transport
  | .connected .. => true

def decoder? : Lifecycle Dec → Option Dec
  | .disconnected => none
  | .connecting _ decoder .. => some decoder
  | .connected _ decoder _ => some decoder

def setDecoder : Lifecycle Dec → Dec → Lifecycle Dec
  | .disconnected, _ => .disconnected
  | .connecting id _ transport handshake, decoder => .connecting id decoder transport handshake
  | .connected id _ handshake, decoder => .connected id decoder handshake

end Lifecycle

/-- What is left to do after the call that stands above. -/
inductive Frame where
  /-- The state listeners hear of `connecting`. -/
  | connecting (id : Nat)
  /-- The attachment listeners hear that a connection has ended. -/
  | cleared (reason : Reason)
  /-- The state listeners hear of `disconnected`. -/
  | disconnected
  /-- The state listeners hear of `connected`. -/
  | connected (id : Nat) (serverId : String)
  /-- The attachment listeners hear of a message. -/
  | attached
  /-- The attachment listeners hear that the client is disposed. -/
  | disposed
  /-- The loop of `#handleData` over the messages of a chunk. -/
  | loop (source : Nat) (messages : List ServerMessage)
  /-- The end of `resolve` of a pending request whose result is not valid. -/
  | rejects (promise : Nat) (reason : Reason)
  /-- The rest of `dispose`. -/
  | disposing
  deriving DecidableEq

/-- Whether listeners are running in a frame. -/
def Frame.callback : Frame → Bool
  | .loop .. => false
  | .rejects .. => false
  | .disposing => false
  | _ => true

/-- `PendingRequest`; the request of a subscription transforms its result. -/
structure PendingRequest where
  id : Nat
  promise : Nat
  subscription : Option Nat
  deriving DecidableEq

/-- `ActiveServiceListener`, with the promise of its request. -/
structure ServiceListener where
  id : Nat
  request : Nat
  hydrated : Bool
  deriving DecidableEq

structure World (Dec : Type) where
  lifecycle : Lifecycle Dec
  sequence : Nat
  hello : Option String
  attachment : Option SessionTarget
  pendingRequests : List PendingRequest
  requestSequence : Nat
  serviceListeners : List ServiceListener
  serviceSubscriptionSequence : Nat
  disposed : Bool
  /-- The connections whose transport is being opened. -/
  opening : List Nat
  stack : List Frame
  connects : Promises (Except Reason String)
  requests : Promises (Except Reason Unit)
  /-- The chunks by the connection they came from, with the connection whose decoder got them. -/
  fed : List (Nat × Nat)
  /-- The messages by the connection they came from, with the connection that handled them. -/
  handled : List (Nat × Nat)

namespace World

variable {Dec : Type}

def start : World Dec := ⟨.disconnected, 0, none, none, [], 0, [], 0, false, [], [], [], [], [], []⟩

def connected (w : World Dec) : Bool := w.lifecycle.state = .connected

def isCurrent (w : World Dec) (id : Nat) : Bool := w.lifecycle.id? = some id

def push (w : World Dec) (frame : Frame) : World Dec := { w with stack := frame :: w.stack }

/-! ## The end of a connection -/

def rejectPendingRequests (w : World Dec) (reason : Reason) : World Dec :=
  { w with
    pendingRequests := []
    requests := w.pendingRequests.foldl (fun promises request => promises.settle request.promise (.error reason)) w.requests }

/-- `#handleConnectionStateChange` after `#setAttachment(undefined)`. -/
def clear (w : World Dec) (reason : Reason) : World Dec :=
  ({ w.rejectPendingRequests reason with serviceListeners := [] }).push .disconnected

/-- `#handleConnectionStateChange` of `disconnected`. -/
def handleDisconnected (w : World Dec) (reason : Reason) : World Dec :=
  if w.attachment = none then ({ w with hello := none }).clear reason
  else ({ w with hello := none, attachment := none }).push (.cleared reason)

/-- `#fail` -/
def fail (w : World Dec) (reason : Reason) : World Dec :=
  match w.lifecycle.state with
  | .disconnected => w
  | _ =>
    let connects := w.connects.settleIf w.lifecycle.handshake? (.error reason)
    ({ w with lifecycle := .disconnected, connects := connects }).handleDisconnected reason

end World

/-! ## Calls of the client -/

/-- What becomes of a request that is not refused: its signal is aborted already, it cannot be encoded, the
transport takes it, or the transport throws. -/
inductive Sending where
  | aborted (text : String)
  | unencodable (text : String)
  | sent
  | thrown (text : String)
  deriving DecidableEq

/-- `ClientOptions` -/
structure Options (Chunk Dec : Type) where
  decoder : Decoder Chunk Dec
  serverId : String

namespace World

variable {Chunk Dec : Type}

def connect (options : Options Chunk Dec) (w : World Dec) : World Dec :=
  if w.disposed then { w with connects := w.connects ++ [some (.error .disposed)] }
  else
    match w.lifecycle.state with
    | .disconnected =>
      let id := w.sequence + 1
      ({ w with
        hello := none
        sequence := id
        lifecycle := .connecting id options.decoder.initial false w.connects.length
        connects := w.connects ++ [none] }).push (.connecting id)
    | state => { w with hello := none, connects := w.connects ++ [some (.error (.already state))] }

def disconnect (w : World Dec) (reason : String) : World Dec := w.fail (.given reason)

def dispose (w : World Dec) : World Dec :=
  if w.disposed then w
  else ((({ w with disposed := true }).rejectPendingRequests .disposed).push .disposing).fail .disposed

/-- `#request` -/
def request (w : World Dec) (subscription : Option Nat) (sending : Sending) : World Dec :=
  if w.disposed then { w with requests := w.requests ++ [some (.error .disposed)] }
  else if !w.connected then { w with requests := w.requests ++ [some (.error .disconnected)] }
  else
    let id := w.requestSequence + 1
    let pending := { w with
      requestSequence := id
      pendingRequests := w.pendingRequests ++ [⟨id, w.requests.length, subscription⟩]
      requests := w.requests ++ [none] }
    match sending with
    | .aborted text => { w with requests := w.requests ++ [some (.error (.given text))] }
    | .unencodable text => { w with requestSequence := id, requests := w.requests ++ [some (.error (.given text))] }
    | .sent => pending
    | .thrown text => pending.fail (.given text)

/-- The signal of a request; it is told while the request is pending. The transport may throw at the cancel message. -/
def abort (w : World Dec) (id : Nat) (text : String) (thrown : Option String) : Option (World Dec) :=
  match w.pendingRequests.find? fun r => r.id = id with
  | none => none
  | some r =>
    let w := { w with requests := w.requests.settle r.promise (.error (.given text)) }
    match thrown with
    | some error => some (if w.connected then w.fail (.given error) else w)
    | none => some w

/-- `subscribeService` up to its `await`. -/
def subscribeService (w : World Dec) (sending : Sending) : World Dec :=
  let listener : ServiceListener := ⟨w.serviceSubscriptionSequence + 1, w.requests.length, false⟩
  ({ w with
    serviceSubscriptionSequence := listener.id
    serviceListeners := w.serviceListeners ++ [listener] }).request (some listener.id) sending

def removeListener (w : World Dec) (id : Nat) : World Dec :=
  { w with serviceListeners := w.serviceListeners.filter fun l => l.id ≠ id }

/-- `subscribeService` after its `await`, when the request was rejected. -/
def subscribeRejected (w : World Dec) (id : Nat) : Option (World Dec) :=
  match w.serviceListeners.find? fun l => l.id = id with
  | none => none
  | some l =>
    match w.requests[l.request]? with
    | some (some (.error _)) => some (w.removeListener id)
    | _ => none

def targetIsCurrent (w : World Dec) : RpcTarget → Bool
  | .server serverId => w.hello = some serverId
  | .session target => w.attachment = some target

/-- `dispose` of a subscription. -/
def disposeSubscription (w : World Dec) (id : Nat) (target : RpcTarget) (sending : Sending) : World Dec :=
  let w := w.removeListener id
  if w.connected && w.targetIsCurrent target then w.request none sending else w

/-! ## Events of the transport -/

/-- `#openTransport` after the factory. -/
def opened (w : World Dec) (id : Nat) : World Dec :=
  let w := { w with opening := w.opening.erase id }
  match w.lifecycle with
  | .connecting current decoder _ handshake =>
    if current = id then { w with lifecycle := .connecting current decoder true handshake } else w
  | _ => w

def openFailed (w : World Dec) (id : Nat) (text : String) : World Dec :=
  let w := { w with opening := w.opening.erase id }
  if w.isCurrent id then w.fail (.given text) else w

def handleData (options : Options Chunk Dec) (w : World Dec) (id : Nat) (chunk : Chunk) : World Dec :=
  match w.lifecycle.decoder? with
  | none => w
  | some decoder =>
    if !w.isCurrent id then w
    else if !w.lifecycle.hasTransport then w.fail .dataBeforeHello
    else
      let w := { w with fed := w.fed ++ [(id, (w.lifecycle.id?).getD 0)] }
      match options.decoder.push decoder chunk with
      | .error text => w.fail (.given text)
      | .ok (decoder, messages) =>
        ({ w with lifecycle := w.lifecycle.setDecoder decoder }).push (.loop id messages)

/-- `onClose` -/
def handleClose (options : Options Chunk Dec) (w : World Dec) (id : Nat) : World Dec :=
  if !w.isCurrent id then w
  else
    match w.lifecycle.decoder? with
    | none => w
    | some decoder =>
      match options.decoder.finish decoder with
      | .error text => w.fail (.given text)
      | .ok () => w.fail .closed

/-- `onError`, and the rejected promises of `transport.send`. -/
def handleError (w : World Dec) (id : Nat) (text : String) : World Dec :=
  if w.isCurrent id then w.fail (.given text) else w

/-! ## Messages -/

def setAttachment (w : World Dec) (attachment : Option SessionTarget) (frame : Frame) : World Dec :=
  if w.attachment = attachment then w else ({ w with attachment := attachment }).push frame

/-- A response; `decodes` says whether the transformation of its result succeeds. -/
def handleResponse (w : World Dec) (id : Nat) (error : Option String) (decodes : Except String Unit) : World Dec :=
  match w.pendingRequests.find? fun r => r.id = id with
  | none => w.fail .unmatchedResponse
  | some r =>
    let w := { w with pendingRequests := w.pendingRequests.filter fun r => r.id ≠ id }
    match error, r.subscription, decodes with
    | some text, _, _ => { w with requests := w.requests.settle r.promise (.error (.given text)) }
    | none, none, _ => { w with requests := w.requests.settle r.promise (.ok ()) }
    | none, some subscription, .ok () =>
      let hydrate := fun l : ServiceListener => if l.id = subscription then { l with hydrated := true } else l
      { w with
        serviceListeners := w.serviceListeners.map hydrate
        requests := w.requests.settle r.promise (.ok ()) }
    | none, some _, .error text => (w.push (.rejects r.promise (.given text))).fail (.given text)

/-- `Client.#handleMessage` -/
def onMessage (options : Options Chunk Dec) (w : World Dec) (message : ServerMessage) (decodes : Except String Unit) :
    World Dec :=
  match message with
  | .attachment attachment =>
    if attachment.any fun target => target.serverId ≠ options.serverId then w.fail .attachmentOfOtherServer
    else w.setAttachment attachment .attached
  | .serviceUpdate subscriptionId =>
    match w.serviceListeners.find? fun l => l.id = subscriptionId with
    | none => w
    | some l =>
      match l.hydrated, decodes with
      | true, .error text => w.fail (.given text)
      | _, _ => w
  | .response id error => w.handleResponse id error decodes
  | .hello _ => w
  | .helloError _ => w

/-- `Connection.#handleMessage` -/
def handleMessage (options : Options Chunk Dec) (w : World Dec) (message : ServerMessage) (decodes : Except String Unit) :
    World Dec :=
  match w.lifecycle with
  | .disconnected => w
  | .connecting id decoder transport handshake =>
    match message with
    | .helloError text => w.fail (.given text)
    | .hello serverId =>
      if serverId ≠ options.serverId then w.fail (.otherServer serverId options.serverId)
      else if !transport then w.fail .helloBeforeHello
      else
        ({ w with lifecycle := .connected id decoder (some handshake), hello := some serverId }).push (.connected id serverId)
    | _ => w.fail .helloExpected
  | .connected .. =>
    match message with
    | .hello _ => w.fail .unexpectedHandshake
    | .helloError _ => w.fail .unexpectedHandshake
    | message => w.onMessage options message decodes

/-! ## Steps -/

/-- The code that follows once the listeners of the top frame have returned. -/
def resume (options : Options Chunk Dec) (w : World Dec) (decodes : Except String Unit) : Option (World Dec) :=
  match w.stack with
  | [] => none
  | frame :: stack =>
    let w := { w with stack := stack }
    match frame with
    | .connecting id => some { w with opening := w.opening ++ [id] }
    | .cleared reason => some (w.clear reason)
    | .disconnected => some w
    | .attached => some w
    | .connected id serverId =>
      match w.lifecycle with
      | .connected current decoder (some handshake) =>
        if current = id then
          some { w with
            lifecycle := .connected current decoder none
            connects := w.connects.settle handshake (.ok serverId) }
        else some w
      | _ => some w
    | .loop _ [] => some w
    | .loop source (message :: messages) =>
      match w.lifecycle.id? with
      | none => some w
      | some current =>
        let w := { w with handled := w.handled ++ [(source, current)] }
        some ((w.push (.loop source messages)).handleMessage options message decodes)
    | .rejects promise reason => some { w with requests := w.requests.settle promise (.error reason) }
    | .disposing =>
      if w.attachment = none then some { w with hello := none, serviceListeners := [] }
      else some (({ w with hello := none, attachment := none }).push .disposed)
    | .disposed => some { w with serviceListeners := [] }

end World

inductive Event (Chunk : Type) where
  | connect
  | disconnect (reason : String)
  | dispose
  | request (sending : Sending)
  | abort (id : Nat) (text : String) (thrown : Option String)
  | subscribeService (sending : Sending)
  | subscribeRejected (id : Nat)
  | disposeSubscription (id : Nat) (target : RpcTarget) (sending : Sending)
  | catalogueInvalid (text : String)
  | opened (id : Nat)
  | openFailed (id : Nat) (text : String)
  | data (id : Nat) (chunk : Chunk)
  | close (id : Nat)
  | error (id : Nat) (text : String)
  | resume (decodes : Except String Unit)

namespace World

variable {Chunk Dec : Type}

/-- The environment can act: nothing is running, or a listener is. -/
def calm (w : World Dec) : Bool :=
  match w.stack with
  | [] => true
  | frame :: _ => frame.callback

/-- Continuations of promises run when nothing else does. -/
def idle (w : World Dec) : Bool := w.stack.isEmpty

def step (options : Options Chunk Dec) (w : World Dec) : Event Chunk → Option (World Dec)
  | .connect => if w.calm then some (w.connect options) else none
  | .disconnect reason => if w.calm then some (w.disconnect reason) else none
  | .dispose => if w.calm then some w.dispose else none
  | .request sending => if w.calm then some (w.request none sending) else none
  | .abort id text thrown => if w.calm then w.abort id text thrown else none
  | .subscribeService sending => if w.calm then some (w.subscribeService sending) else none
  | .subscribeRejected id => if w.idle then w.subscribeRejected id else none
  | .disposeSubscription id target sending => if w.calm then some (w.disposeSubscription id target sending) else none
  | .catalogueInvalid text => if w.idle then some (w.fail (.given text)) else none
  | .opened id => if w.idle && w.opening.contains id then some (w.opened id) else none
  | .openFailed id text => if w.idle && w.opening.contains id then some (w.openFailed id text) else none
  | .data id chunk => if w.calm then some (w.handleData options id chunk) else none
  | .close id => if w.calm then some (w.handleClose options id) else none
  | .error id text => if w.calm then some (w.handleError id text) else none
  | .resume decodes => w.resume options decodes

def run (options : Options Chunk Dec) (w : World Dec) : List (Event Chunk) → Option (World Dec)
  | [] => some w
  | event :: events => (w.step options event).bind fun w => w.run options events

end World

end Shuvpi.Connection
