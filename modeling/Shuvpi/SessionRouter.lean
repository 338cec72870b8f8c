import Mathlib.Logic.Function.Basic
import Mathlib.Data.List.Basic

/-!
# The session router

`SessionRouter` of `server/src/session-router.ts`. A client's operations run one after the
other; removing a session, the end of a handle and the router's own shutdown do not wait for
them. Each call of the host, of a handle or of a lease completes in an event of its own, and
so does each `await`, in any order that the promises allow.

Hosted sessions are named by the number of their handle, attachments, calls, operations and
removals by the order in which they were made. Errors are not told apart.
-/
namespace Shuvpi.Router

open Function

/-! ## Attachments -/

/-- The promise of `handle.attachClient`. -/
inductive Acquiring where
  | pending
  | fulfilled
  | rejected
  deriving DecidableEq, Repr

/-- How far `releaseAttachment` has come. -/
inductive Releasing where
  | idle
  /-- It waits for the calls with smaller numbers. -/
  | operations (before : Nat)
  /-- It waits for the lease. -/
  | leasing
  /-- `lease.release` is running. -/
  | calling
  /-- `publishAttachment` is running. -/
  | clearing (fulfilled : Bool)
  | settled (fulfilled : Bool)
  deriving DecidableEq, Repr

/-- `ClientAttachment`. `operation` is the operation that made it, `member` says whether it is in the attachments of its
session, and `releases` counts the calls of `lease.release`. -/
structure ClientAttachment where
  client : Nat
  session : Nat
  operation : Nat
  acquiring : Acquiring
  lease : Bool
  member : Bool
  publish : Bool
  releasing : Releasing
  releases : Nat
  deriving DecidableEq

/-- A call that was invoked on the lease of an attachment, and the session and attachment that its target names. -/
structure ServiceCall where
  attachment : Nat
  client : Nat
  target : String × Nat
  settled : Bool
  deriving DecidableEq

structure Leases where
  byClient : Nat → Option Nat
  count : Nat
  attachment : Nat → ClientAttachment
  callCount : Nat
  call : Nat → ServiceCall

def ClientAttachment.none : ClientAttachment := ⟨0, 0, 0, .rejected, false, false, false, .idle, 0⟩

/-- `releaseAttachment`, which keeps the promise of its first call. -/
def ClientAttachment.release (x : ClientAttachment) (callCount : Nat) (publish : Bool) : ClientAttachment :=
  if x.releasing = .idle then { x with releasing := .operations callCount, publish := publish } else x

namespace Leases

/-- The attachments of a session. -/
def members (l : Leases) (session : Nat) : List Nat :=
  (List.range l.count).filter fun a => (l.attachment a).session = session && (l.attachment a).member

def releaseAll (l : Leases) (taken : Nat → Bool) (publish : Bool) : Leases :=
  { l with attachment := fun a =>
      if taken a then ClientAttachment.release (l.attachment a) l.callCount publish else l.attachment a }

def release (l : Leases) (a : Nat) (publish : Bool) : Leases := l.releaseAll (fun b => b = a) publish

def set (l : Leases) (a : Nat) (x : ClientAttachment) : Leases := { l with attachment := update l.attachment a x }

/-- A new attachment, for which `handle.attachClient` is called. -/
def create (l : Leases) (client session operation : Nat) : Leases :=
  { l with
    count := l.count + 1
    attachment := update l.attachment l.count ⟨client, session, operation, .pending, false, true, true, .idle, 0⟩ }

def register (l : Leases) (a : Nat) : Leases :=
  { l with byClient := update l.byClient (l.attachment a).client (some a) }

/-- `startServiceCall` after `requireAttachment`. -/
def invoke (l : Leases) (a client : Nat) (target : String × Nat) : Leases :=
  { l with
    callCount := l.callCount + 1
    call := update l.call l.callCount ⟨a, client, target, false⟩ }

def settle (l : Leases) (k : Nat) : Leases := { l with call := update l.call k { l.call k with settled := true } }

/-- `clearAttachment` up to its `await`. -/
def clear (l : Leases) (a : Nat) (fulfilled : Bool) : Leases :=
  let x := l.attachment a
  if l.byClient x.client = some a then
    { l.set a { x with member := false, releasing := if x.publish then .clearing fulfilled else .settled fulfilled } with
      byClient := update l.byClient x.client none }
  else l.set a { x with member := false, releasing := .settled fulfilled }

/-- `releaseAttachment` goes on after an `await`. -/
def resume (l : Leases) (a : Nat) : Option Leases :=
  let x := l.attachment a
  match x.releasing with
  | .operations before =>
    if (List.range before).all fun k => (l.call k).attachment ≠ a || (l.call k).settled then
      if x.lease then some (l.set a { x with releasing := .calling, releases := x.releases + 1 })
      else some (l.set a { x with releasing := .leasing })
    else none
  | .leasing =>
    match x.acquiring with
    | .pending => none
    | .fulfilled => some (l.set a { x with releasing := .calling, releases := x.releases + 1 })
    | .rejected => some (l.clear a false)
  | _ => none

/-- `lease.release` completes. -/
def released (l : Leases) (a : Nat) (fulfilled : Bool) : Option Leases :=
  if (l.attachment a).releasing = .calling then some (l.clear a fulfilled) else none

/-- `publishAttachment` completes. -/
def published (l : Leases) (a : Nat) (fulfilled : Bool) : Option Leases :=
  match (l.attachment a).releasing with
  | .clearing earlier => some (l.set a { l.attachment a with releasing := .settled (earlier && fulfilled) })
  | _ => none

/-- `handle.attachClient` completes. -/
def acquired (l : Leases) (a : Nat) (fulfilled : Bool) : Option Leases :=
  if a < l.count ∧ (l.attachment a).acquiring = .pending then
    some (l.set a { l.attachment a with acquiring := if fulfilled then .fulfilled else .rejected })
  else none

/-- The promise of a release has settled; the value says how. -/
def outcome (l : Leases) (a : Nat) : Option Bool :=
  match (l.attachment a).releasing with
  | .settled fulfilled => some fulfilled
  | _ => none

end Leases

/-! ## Sessions -/

/-- `RoutedSessionHandle`, with the session it was opened for. -/
structure Handle where
  id : String
  closed : Bool
  terminated : Bool
  deriving DecidableEq

/-- How far `open` has come. -/
inductive OpeningStage where
  | resolving
  | opening
  /-- The handle is closed because the router is closing. -/
  | draining (handle : Nat)
  | hosted (handle : Nat)
  | failed
  /-- The handle could not be closed. -/
  | leaked (handle : Nat)
  deriving DecidableEq, Repr

def OpeningStage.isSettled : OpeningStage → Bool
  | .hosted _ | .failed | .leaked _ => true
  | _ => false

structure Opening where
  id : String
  stage : OpeningStage
  deriving DecidableEq

structure Sessions where
  closing : Bool
  hosted : String → Option Nat
  opening : String → Option Nat
  handleCount : Nat
  handle : Nat → Handle
  openingCount : Nat
  openings : Nat → Opening

namespace Sessions

def setStage (s : Sessions) (o : Nat) (stage : OpeningStage) : Sessions :=
  { s with openings := update s.openings o { s.openings o with stage := stage } }

/-- `open`, and its promise in `openingSessions`. -/
def open_ (s : Sessions) (id : String) : Sessions :=
  { s with
    opening := update s.opening id (some s.openingCount)
    openingCount := s.openingCount + 1
    openings := update s.openings s.openingCount ⟨id, .resolving⟩ }

/-- `host.resolveSession` completes. -/
def resolved (s : Sessions) (o : Nat) (fulfilled : Bool) : Option Sessions :=
  if o < s.openingCount ∧ (s.openings o).stage = .resolving then
    some (s.setStage o (if fulfilled then .opening else .failed))
  else none

/-- `host.openSession` completes. -/
def opened (s : Sessions) (o : Nat) (fulfilled : Bool) : Option Sessions :=
  if o < s.openingCount ∧ (s.openings o).stage = .opening then
    if fulfilled then
      let h := s.handleCount
      let s' := { s with handleCount := h + 1, handle := update s.handle h ⟨(s.openings o).id, false, false⟩ }
      if s.closing then some (s'.setStage o (.draining h))
      else some { s'.setStage o (.hosted h) with hosted := update s.hosted (s.openings o).id (some h) }
    else some (s.setStage o .failed)
  else none

def closeHandle (s : Sessions) (h : Nat) : Sessions :=
  { s with handle := update s.handle h { s.handle h with closed := true } }

/-- `handle.close` completes for a handle that was opened too late. -/
def drained (s : Sessions) (o : Nat) (fulfilled : Bool) : Option Sessions :=
  match (s.openings o).stage with
  | .draining h => some (if fulfilled then (s.closeHandle h).setStage o .failed else s.setStage o (.leaked h))
  | _ => none

/-- The `finally` of `acquire`. -/
def forget (s : Sessions) (o : Nat) : Option Sessions :=
  if OpeningStage.isSettled (s.openings o).stage ∧ s.opening (s.openings o).id = some o then
    some { s with opening := update s.opening (s.openings o).id none }
  else none

/-- `hostedSessions.delete`, when the map still has the session. -/
def delete (s : Sessions) (h : Nat) : Sessions :=
  if s.hosted (s.handle h).id = some h then { s with hosted := update s.hosted (s.handle h).id none } else s

def terminate (s : Sessions) (h : Nat) : Option Sessions :=
  if h < s.handleCount then some { s with handle := update s.handle h { s.handle h with terminated := true } } else none

end Sessions

/-! ## The operations of clients -/

inductive Kind where
  | attach (sessionId : String)
  | detach
  | disconnect
  /-- `executeServiceCall`; the target may name no session. -/
  | call (target : Option (String × Nat))
  deriving DecidableEq

/-- What `acquire` waits for. -/
inductive Source where
  | hosted (session : Nat)
  /-- `mine` says whether the promise is that of this call of `acquire`. -/
  | opening (opening : Nat) (mine : Bool)
  deriving DecidableEq

inductive Stage where
  | queued
  | acquiring (source : Source) (current : Option Nat)
  /-- The current attachment is released before the session is attached. -/
  | replacing (session current : Nat)
  | attaching (attachment : Nat)
  /-- The new attachment is released again. -/
  | undoing (attachment : Nat)
  | publishing
  /-- A client is detached. -/
  | releasing (attachment : Nat)
  | done
  deriving DecidableEq

structure Operation where
  client : Nat
  kind : Kind
  previous : Option Nat
  stage : Stage
  deriving DecidableEq

/-- `clientOperations` and `disconnectedClients`. -/
structure Operations where
  disconnected : Nat → Bool
  last : Nat → Option Nat
  count : Nat
  operation : Nat → Operation

namespace Operations

/-- `runForClient` -/
def add (ops : Operations) (client : Nat) (kind : Kind) : Operations :=
  { ops with
    last := update ops.last client (some ops.count)
    count := ops.count + 1
    operation := update ops.operation ops.count ⟨client, kind, ops.last client, .queued⟩ }

def setStage (ops : Operations) (i : Nat) (stage : Stage) : Operations :=
  { ops with operation := update ops.operation i { ops.operation i with stage := stage } }

/-- An operation completes, with what its callers do then. -/
def finish (ops : Operations) (i : Nat) : Operations :=
  let x := ops.operation i
  { ops.setStage i .done with
    disconnected := if x.kind = .disconnect then update ops.disconnected x.client false else ops.disconnected
    last := if ops.last x.client = some i then update ops.last x.client none else ops.last }

end Operations

/-! ## The router -/

inductive RemovalStage where
  /-- The attachments are released. -/
  | releasing (attachments : List Nat)
  /-- `handle.close` is running. -/
  | closing (fulfilled : Bool)
  | settled (fulfilled : Bool)
  deriving DecidableEq

/-- A call of `removeSession`; it may find no session. -/
structure Removal where
  id : String
  session : Option Nat
  stage : RemovalStage
  deriving DecidableEq

/-- `closeInternal` -/
inductive Closer where
  | open_
  | waiting (operations openings : List Nat)
  | releasing (attachments : List Nat)
  | closing (handles : List Nat) (fulfilled : List Nat)
  | closed
  deriving DecidableEq

structure World where
  sessions : Sessions
  leases : Leases
  operations : Operations
  removalCount : Nat
  removal : Nat → Removal
  closer : Closer

namespace World

def initial : World where
  sessions := ⟨false, fun _ => none, fun _ => none, 0, fun _ => ⟨"", false, false⟩, 0, fun _ => ⟨"", .failed⟩⟩
  leases := ⟨fun _ => none, 0, fun _ => .none, 0, fun _ => ⟨0, 0, ("", 0), true⟩⟩
  operations := ⟨fun _ => false, fun _ => none, 0, fun _ => ⟨0, .detach, none, .done⟩⟩
  removalCount := 0
  removal := fun _ => ⟨"", none, .settled true⟩
  closer := .open_

def finish (w : World) (i : Nat) : World := { w with operations := w.operations.finish i }

def setStage (w : World) (i : Nat) (stage : Stage) : World := { w with operations := w.operations.setStage i stage }

/-- The session that an attachment is for. -/
def sessionOf (w : World) (a : Nat) : String := (w.sessions.handle (w.leases.attachment a).session).id

/-- `isClosing` or the client is disconnected. -/
def refuses (w : World) (client : Nat) : Bool := w.sessions.closing || w.operations.disconnected client

/-! ### Operations -/

def attachClient (w : World) (client : Nat) (sessionId : String) : World :=
  if w.sessions.closing then w else { w with operations := w.operations.add client (.attach sessionId) }

def detachClient (w : World) (client : Nat) : World := { w with operations := w.operations.add client .detach }

def disconnect (w : World) (client : Nat) : World :=
  { w with operations := { w.operations.add client .disconnect with
      disconnected := update w.operations.disconnected client true } }

def executeServiceCall (w : World) (client : Nat) (target : Option (String × Nat)) : World :=
  { w with operations := w.operations.add client (.call target) }

/-- `attachClientNow` up to its first `await`. -/
def attachNow (w : World) (i client : Nat) (sessionId : String) : World :=
  if w.refuses client then w.finish i
  else
    let current := w.leases.byClient client
    if current.any fun a => w.sessionOf a = sessionId then w.finish i
    else
      match w.sessions.hosted sessionId, w.sessions.opening sessionId with
      | some h, _ => w.setStage i (.acquiring (.hosted h) current)
      | none, some o => w.setStage i (.acquiring (.opening o false) current)
      | none, none =>
        { w.setStage i (.acquiring (.opening w.sessions.openingCount true) current) with
          sessions := w.sessions.open_ sessionId }

def releaseCurrent (w : World) (i client : Nat) (publish : Bool) : World :=
  match w.leases.byClient client with
  | some a => { w.setStage i (.releasing a) with leases := w.leases.release a publish }
  | none => w.finish i

def requireAttachment (w : World) (client : Nat) (target : Option (String × Nat)) : Option (Nat × (String × Nat)) :=
  if w.refuses client then none
  else
    match target, w.leases.byClient client with
    | some target, some a => if w.sessionOf a = target.1 ∧ a = target.2 then some (a, target) else none
    | _, _ => none

def startServiceCall (w : World) (i client : Nat) (target : Option (String × Nat)) : World :=
  match w.requireAttachment client target with
  | some (a, target) => { w.finish i with leases := w.leases.invoke a client target }
  | none => w.finish i

/-- The operations before it are done: an operation begins. -/
def begin (w : World) (i : Nat) : Option World :=
  let x := w.operations.operation i
  if i < w.operations.count ∧ x.stage = .queued ∧ x.previous.all (fun p => (w.operations.operation p).stage = .done) then
    match x.kind with
    | .attach sessionId => some (w.attachNow i x.client sessionId)
    | .detach => some (w.releaseCurrent i x.client true)
    | .disconnect => some (w.releaseCurrent i x.client false)
    | .call target => some (w.startServiceCall i x.client target)
  else none

def attachTo (w : World) (i client session : Nat) : World :=
  { w.setStage i (.attaching w.leases.count) with leases := w.leases.create client session i }

/-- `attachClientNow` after `acquire`. -/
def acquiredSession (w : World) (i client session : Nat) (current : Option Nat) : World :=
  if w.refuses client then w.finish i
  else
    match current with
    | some a => { w.setStage i (.replacing session a) with leases := w.leases.release a false }
    | none => w.attachTo i client session

/-- `attachClientNow` has its lease: the attachment is registered unless something has overtaken it. -/
def acquiredLease (w : World) (i a : Nat) : World :=
  let x := w.leases.attachment a
  let leases := w.leases.set a { x with lease := true }
  if w.sessions.hosted (w.sessionOf a) ≠ some x.session || !x.member || w.refuses x.client then
    { w.setStage i (.undoing a) with leases := leases.release a true }
  else { w.setStage i .publishing with leases := leases.register a }

def resumeAcquiring (w : World) (i client : Nat) (source : Source) (current : Option Nat) : Option World :=
  match source with
  | .hosted h => some (w.acquiredSession i client h current)
  | .opening o mine =>
    if mine && w.sessions.opening (w.sessions.openings o).id = some o then none
    else
      match (w.sessions.openings o).stage with
      | .hosted h => some (w.acquiredSession i client h current)
      | .failed | .leaked _ => some (w.finish i)
      | _ => none

def resumeAttaching (w : World) (i a : Nat) : Option World :=
  match (w.leases.attachment a).acquiring with
  | .pending => none
  | .fulfilled => some (w.acquiredLease i a)
  | .rejected => some { w.finish i with leases := w.leases.set a { w.leases.attachment a with member := false } }

def resumeStage (w : World) (i : Nat) : Option World :=
  let x := w.operations.operation i
  match x.stage with
  | .queued | .done => none
  | .acquiring source current => w.resumeAcquiring i x.client source current
  | .replacing session a => (w.leases.outcome a).map fun fulfilled =>
      if fulfilled then w.attachTo i x.client session else w.finish i
  | .attaching a => w.resumeAttaching i a
  | .undoing a | .releasing a => (w.leases.outcome a).map fun _ => w.finish i
  | .publishing => some (w.finish i)

/-- What an operation has awaited is there. -/
def resume (w : World) (i : Nat) : Option World := if i < w.operations.count then w.resumeStage i else none

/-! ### Sessions that end -/

def setRemoval (w : World) (r : Nat) (stage : RemovalStage) : World :=
  { w with removal := update w.removal r { w.removal r with stage := stage } }

def removeSession (w : World) (sessionId : String) : World :=
  if w.sessions.closing then w
  else
    let w' := { w with removalCount := w.removalCount + 1 }
    match w.sessions.hosted sessionId with
    | none => { w' with removal := update w.removal w.removalCount ⟨sessionId, none, .settled true⟩ }
    | some h =>
      { w' with
        leases := w.leases.releaseAll (fun a => a ∈ w.leases.members h) true
        removal := update w.removal w.removalCount ⟨sessionId, some h, .releasing (w.leases.members h)⟩ }

/-- The releases that `removeSession` waits for have settled. -/
def resumeRemoval (w : World) (r : Nat) : Option World :=
  match (w.removal r).stage with
  | .releasing attachments =>
    if r < w.removalCount ∧ attachments.all fun a => (w.leases.outcome a).isSome then
      some (w.setRemoval r (.closing (attachments.all fun a => w.leases.outcome a = some true)))
    else none
  | _ => none

/-- `handle.close` completes for a removal. -/
def removalClosed (w : World) (r : Nat) (fulfilled : Bool) : Option World :=
  match (w.removal r).session, (w.removal r).stage with
  | some h, .closing earlier =>
    let sessions := if fulfilled then w.sessions.closeHandle h else w.sessions
    if r < w.removalCount then
      some { w.setRemoval r (.settled (earlier && fulfilled)) with sessions := sessions.delete h }
    else none
  | _, _ => none

/-- `invalidate`, when the promise `terminated` of a handle has settled. -/
def invalidate (w : World) (h : Nat) : Option World :=
  if (w.sessions.handle h).terminated then
    if w.sessions.hosted (w.sessions.handle h).id = some h then
      some { w with
        sessions := w.sessions.delete h
        leases := w.leases.releaseAll (fun a => a ∈ w.leases.members h) true }
    else some w
  else none

/-! ### Shutdown -/

/-- The handles of the hosted sessions. -/
def hostedHandles (w : World) : List Nat :=
  (List.range w.sessions.handleCount).filter fun h => w.sessions.hosted (w.sessions.handle h).id = some h

def lastOperations (w : World) : List Nat :=
  (List.range w.operations.count).filter fun i => w.operations.last (w.operations.operation i).client = some i

def openingPromises (w : World) : List Nat :=
  (List.range w.sessions.openingCount).filter fun o => w.sessions.opening (w.sessions.openings o).id = some o

/-- The server is closing. -/
def drain (w : World) : World := { w with sessions := { w.sessions with closing := true } }

/-- `close`, which the server calls when it is closing. -/
def close (w : World) : Option World :=
  if w.sessions.closing then
    if w.closer = .open_ then some { w with closer := .waiting w.lastOperations w.openingPromises } else some w
  else none

/-- `closeInternal` goes on after an `await`. -/
def resumeClose (w : World) : Option World :=
  match w.closer with
  | .waiting operations openings =>
    if (operations.all fun i => (w.operations.operation i).stage = .done) &&
        openings.all fun o => OpeningStage.isSettled (w.sessions.openings o).stage then
      let attachments := w.hostedHandles.flatMap w.leases.members
      some { w with
        leases := w.leases.releaseAll (fun a => a ∈ attachments) true
        closer := .releasing attachments }
    else none
  | .releasing attachments =>
    if attachments.all fun a => (w.leases.outcome a).isSome then some { w with closer := .closing w.hostedHandles [] }
    else none
  | .closing [] fulfilled =>
    some { w with
      sessions := fulfilled.foldl Sessions.delete w.sessions
      leases := { w.leases with byClient := fun _ => none }
      operations := { w.operations with last := fun _ => none }
      closer := .closed }
  | _ => none

/-- `handle.close` completes for the router's shutdown. -/
def handleClosed (w : World) (h : Nat) (fulfilled : Bool) : Option World :=
  match w.closer with
  | .closing handles done =>
    if h ∈ handles then
      if fulfilled then
        some { w with sessions := w.sessions.closeHandle h, closer := .closing (handles.erase h) (h :: done) }
      else some { w with closer := .closing (handles.erase h) done }
    else none
  | _ => none

end World

inductive Event where
  | attachClient (client : Nat) (sessionId : String)
  | detachClient (client : Nat)
  | disconnect (client : Nat)
  | executeServiceCall (client : Nat) (target : Option (String × Nat))
  | removeSession (sessionId : String)
  | drain
  | close
  | begin (operation : Nat)
  | resume (operation : Nat)
  | resolved (opening : Nat) (fulfilled : Bool)
  | opened (opening : Nat) (fulfilled : Bool)
  | drained (opening : Nat) (fulfilled : Bool)
  | forget (opening : Nat)
  | acquired (attachment : Nat) (fulfilled : Bool)
  | resumeRelease (attachment : Nat)
  | released (attachment : Nat) (fulfilled : Bool)
  | published (attachment : Nat) (fulfilled : Bool)
  | callSettled (call : Nat)
  | resumeRemoval (removal : Nat)
  | removalClosed (removal : Nat) (fulfilled : Bool)
  | terminate (handle : Nat)
  | invalidate (handle : Nat)
  | resumeClose
  | handleClosed (handle : Nat) (fulfilled : Bool)
  deriving DecidableEq

namespace World

def withSessions (w : World) (sessions : Sessions) : World := { w with sessions := sessions }

def withLeases (w : World) (leases : Leases) : World := { w with leases := leases }

def step (w : World) : Event → Option World
  | .attachClient client sessionId => some (w.attachClient client sessionId)
  | .detachClient client => some (w.detachClient client)
  | .disconnect client => some (w.disconnect client)
  | .executeServiceCall client target => some (w.executeServiceCall client target)
  | .removeSession sessionId => some (w.removeSession sessionId)
  | .drain => some w.drain
  | .close => w.close
  | .begin i => w.begin i
  | .resume i => w.resume i
  | .resolved o fulfilled => (w.sessions.resolved o fulfilled).map w.withSessions
  | .opened o fulfilled => (w.sessions.opened o fulfilled).map w.withSessions
  | .drained o fulfilled => (w.sessions.drained o fulfilled).map w.withSessions
  | .forget o => (w.sessions.forget o).map w.withSessions
  | .acquired a fulfilled => (w.leases.acquired a fulfilled).map w.withLeases
  | .resumeRelease a => (w.leases.resume a).map w.withLeases
  | .released a fulfilled => (w.leases.released a fulfilled).map w.withLeases
  | .published a fulfilled => (w.leases.published a fulfilled).map w.withLeases
  | .callSettled k => some (w.withLeases (w.leases.settle k))
  | .resumeRemoval r => w.resumeRemoval r
  | .removalClosed r fulfilled => w.removalClosed r fulfilled
  | .terminate h => (w.sessions.terminate h).map w.withSessions
  | .invalidate h => w.invalidate h
  | .resumeClose => w.resumeClose
  | .handleClosed h fulfilled => w.handleClosed h fulfilled

def run (w : World) : List Event → Option World
  | [] => some w
  | event :: events => (w.step event).bind fun w => w.run events

end World

end Shuvpi.Router
