import Shuvpi.PicoTypes

/-!
# The storage of a pico3 session

`MemoryStorage` of `pico3/memory.ts`, the reference backend and the read path of the other
one: a batch is checked in full before any table changes. Scans go newest first through a
conversation and then through what it shares with its parents.
-/
namespace Shuvpi.Pico

open Delta (Op DeltaError isBase)
open Function (update)

inductive StorageError where
  | exists_ (what : String) (id : Nat)
  | invalidId (what : String) (id : Nat)
  | createdTwice (what : String) (id : Nat)
  | unknownTask (id : Nat)
  | delta (error : DeltaError)
  deriving DecidableEq

structure MemoryStorage where
  conversationsById : Nat → Option Conversation
  entriesById : Nat → Option Entry
  entriesByConversation : Nat → List Entry
  tasksById : Nat → Option Task
  inputsById : Nat → Option Input
  inputsByRequest : Nat × String → Option Input
  rewindableLog : Nat → Option (List (Nat × List Op))
  stickyLog : Nat → Option (List (List Op))
  sessionDoc : Option Json
  entrySeq : Nat → Option Nat
  nextIdValue : Nat
  seq : Nat

namespace MemoryStorage

def empty : MemoryStorage where
  conversationsById := fun _ => none
  entriesById := fun _ => none
  entriesByConversation := fun _ => []
  tasksById := fun _ => none
  inputsById := fun _ => none
  inputsByRequest := fun _ => none
  rewindableLog := fun _ => none
  stickyLog := fun _ => none
  sessionDoc := none
  entrySeq := fun _ => none
  nextIdValue := 1
  seq := 0

def setNextId (s : MemoryStorage) (n : Nat) : MemoryStorage := { s with nextIdValue := max s.nextIdValue n }

/-! ## Batches -/

/-- `claim`: an id that a batch creates, with those it has created. -/
def claim (what : String) (id : Nat) (created : List Nat) : Except StorageError (List Nat) :=
  if id = 0 || JsNumber.MAX_SAFE_INTEGER < id then throw (.invalidId what id)
  else if created.contains id then throw (.createdTwice what id)
  else pure (id :: created)

/-- A batch creates the task. -/
def createsTask (writes : List Write) (id : Nat) : Bool :=
  writes.any fun w => match w with
    | .task task => task.id = id
    | _ => false

/-- What `stage` checks for one write of the batch. -/
def stageWrite (s : MemoryStorage) (writes : List Write) (created : List Nat) : Write → Except StorageError (List Nat)
  | .conversation conversation =>
    if (s.conversationsById conversation.id).isSome then throw (.exists_ "conversation" conversation.id)
    else claim "conversation" conversation.id created
  | .entry entry =>
    if (s.entriesById entry.id).isSome then throw (.exists_ "entry" entry.id) else claim "entry" entry.id created
  | .task task =>
    if (s.tasksById task.id).isSome then throw (.exists_ "task" task.id) else claim "task" task.id created
  | .taskPatch patch =>
    if (s.tasksById patch.id).isSome || createsTask writes patch.id then pure created else throw (.unknownTask patch.id)
  | .input input => if (s.inputsById input.id).isSome then pure created else claim "input" input.id created
  | .doc _ _ => pure created

/-- `stage`: the ids that the batch creates, newest first. -/
def stage (s : MemoryStorage) (writes : List Write) : Except StorageError (List Nat) :=
  writes.foldlM (s.stageWrite writes) []

/-- `{ ...cur, ...fields }` with a cleared checkpoint deleted. -/
def patchTask (task : Task) (patch : TaskPatch) : Task :=
  { task with
    status := patch.status.getD task.status
    checkpoint := patch.checkpoint.getD task.checkpoint
    abort := patch.abort.getD task.abort
    outcome := patch.outcome.or task.outcome
    owns := patch.owns.getD task.owns }

/-- The document of a session that has none yet. -/
def emptySession : Json := .object [(JsText.ofString "plugins", .object [])]

/-- What a staged write does. -/
def applyWrite (seq : Nat) (s : MemoryStorage) : Write → Except StorageError MemoryStorage
  | .conversation c => pure { s with
      conversationsById := update s.conversationsById c.id (some c)
      entriesByConversation := update s.entriesByConversation c.id [] }
  | .entry e => pure { s with
      entriesById := update s.entriesById e.id (some e)
      entriesByConversation := update s.entriesByConversation e.conversationId (s.entriesByConversation e.conversationId ++ [e])
      entrySeq := update s.entrySeq e.id (some seq) }
  | .task t => pure { s with tasksById := update s.tasksById t.id (some t) }
  | .taskPatch p => pure { s with tasksById := update s.tasksById p.id ((s.tasksById p.id).map fun t => patchTask t p) }
  | .input i => pure { s with
      inputsById := update s.inputsById i.id (some i)
      inputsByRequest := match i.requestId with
        | some requestId => update s.inputsByRequest (i.conversationId, requestId) (some i)
        | none => s.inputsByRequest }
  | .doc .session ops =>
    match Delta.applyImmutable (some (s.sessionDoc.getD emptySession)) ops with
    | .ok doc => pure { s with sessionDoc := doc }
    | .error e => throw (.delta e)
  | .doc (.rewindable c) ops => pure { s with
      rewindableLog := update s.rewindableLog c (some ((s.rewindableLog c).getD [] ++ [(seq, ops)])) }
  | .doc (.sticky c) ops => pure { s with stickyLog := update s.stickyLog c (some ((s.stickyLog c).getD [] ++ [ops])) }

def maxOf (ids : List Nat) : Nat := ids.foldl max 0

def commit (s : MemoryStorage) (writes : List Write) : Except StorageError MemoryStorage := do
  let created ← s.stage writes
  let s' ← writes.foldlM (applyWrite (s.seq + 1)) s
  return { s'.setNextId (maxOf created + 1) with seq := s.seq + 1 }

/-! ## Scans -/

/-- `Math.min(cap ?? Infinity, at + 1)` -/
def narrow (cap : Option Nat) (at_ : Nat) : Nat :=
  match cap with
  | some cap => min cap (at_ + 1)
  | none => at_ + 1

/-- The entries below `cap` that a conversation sees, newest first. A parent is older than its forks, so that as many
rounds as the id says are enough. -/
def visible (s : MemoryStorage) : Nat → Option Nat → Nat → List Entry
  | 0, _, _ => []
  | rounds + 1, cap, conversationId =>
    ((s.entriesByConversation conversationId).reverse.filter fun e => cap.all fun cap => e.id < cap) ++
      match (s.conversationsById conversationId).bind Conversation.parent with
      | some (parentId, at_) => visible s rounds (some (narrow cap at_)) parentId
      | none => []

structure EntryScan where
  conversationId : Nat
  kind : Option String := none
  withHead : Bool := false
  before : Option Nat := none
  limit : Nat

def EntryScan.selects (scan : EntryScan) (e : Entry) : Bool :=
  (scan.kind.all fun kind => e.kind = kind) && (!scan.withHead || e.head.isSome)

def scanEntries (s : MemoryStorage) (scan : EntryScan) : List Entry :=
  ((s.visible (scan.conversationId + 1) scan.before scan.conversationId).filter scan.selects).take scan.limit

/-! ## Documents -/

/-- The batches from the last one that begins with a replacement. -/
def sinceBase (log : List (List Op)) : List (List Op) :=
  match (log.zipIdx.filter fun p => isBase p.1).getLast? with
  | some (_, start) => log.drop start
  | none => log

def fold (log : List (List Op)) : Except StorageError (Option Json) :=
  (sinceBase log).foldlM (fun state ops => match Delta.applyImmutable state ops with
    | .ok doc => pure doc
    | .error e => throw (.delta e)) (some (.object []))

/-- `doc`: nothing where there is no such document. -/
def doc (s : MemoryStorage) : DocRef → Except StorageError (Option Json)
  | .session => pure (some (s.sessionDoc.getD emptySession))
  | .rewindable c =>
    match s.rewindableLog c with
    | none => pure none
    | some log => fold (log.map Prod.snd)
  | .sticky c =>
    match s.stickyLog c with
    | none => pure none
    | some log => fold log

/-- `truncate` of a sticky document. -/
def truncate (s : MemoryStorage) : DocRef → MemoryStorage
  | .sticky c => { s with stickyLog := update s.stickyLog c ((s.stickyLog c).map sinceBase) }
  | _ => s

end MemoryStorage

end Shuvpi.Pico
