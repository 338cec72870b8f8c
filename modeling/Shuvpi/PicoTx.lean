import Shuvpi.PicoStorage
import Shuvpi.RowMap
import Shuvpi.Saturation

/-!
# Transactions on tasks and conversations

What a transaction of `pico3/session.ts` does to tasks and conversations: `TxImpl` reads rows
from its overlay of written rows, from the live tasks or from the storage, and collects
writes; `Session.commit` hands them to the storage and then brings its own tables up to date.
A call that throws ends the transaction here. A callback that goes on after one is the same
transaction without that call, but for a conversation whose configuration is refused: it has
been written by then, without the documents that were to follow and without its owner being
told, and the callback goes on from there.
-/
namespace Shuvpi.Pico

open Delta (Op)

inductive Mode where
  | run
  | abort
  deriving DecidableEq

/-- On whose behalf a transaction runs. -/
inductive Invoker where
  | kernel
  | host
  | task (id conversationId : Nat) (core : Bool) (mode : Mode)

def Invoker.taskId? : Invoker → Option Nat
  | .task id _ _ _ => some id
  | _ => none

def Invoker.conversationId? : Invoker → Option Nat
  | .task _ conversationId _ _ => some conversationId
  | _ => none

structure Session where
  storage : MemoryStorage
  /-- The names of the registered kinds. -/
  kinds : List String
  liveTasks : List Task
  conversationRecords : List Conversation
  /-- Terminal tasks whose conversations are still there. -/
  ownerTaskCache : List Task

inductive TxError where
  | forbidden (message : String)
  | error (message : String)
  | generationInProgress (conversationId : Nat)
  | collapseInProgress (conversationId : Nat)
  | storage (error : StorageError)
  deriving DecidableEq

structure Tx where
  invoker : Invoker
  closing : Bool
  /-- The counter of the storage, from which ids are minted. -/
  nextIdValue : Nat
  writes : List Write := []
  changedTasks : List Task := []
  changedConversations : List Conversation := []
  createdTasks : List Task := []
  createdConversations : List Conversation := []

structure TaskSpec where
  kind : String
  input : Json
  conversationId : Option Nat := none
  after : List Nat := []
  background : Bool := false

/-- What `validateSeed` finds in the configuration of a new conversation; it looks at the
rewindable part first. -/
inductive Seeds where
  | valid
  | rewindableInvalid
  | stickyInvalid
  deriving DecidableEq

structure ConversationSpec where
  /-- A conversation and where it is forked, `none` for its start. -/
  parent : Option (Nat × Option Nat) := none
  rewindable : Json := .null
  sticky : Json := .null
  seeds : Seeds := .valid

/-- The changes that the kernel makes to a row. -/
inductive Update where
  | running
  | abort
  | terminal (outcome : Outcome)

/-- The row that the kernel spreads when it sets a task. -/
inductive RowSource where
  /-- `session.liveTasks.get(id)` -/
  | live
  /-- `tx.task(id)` -/
  | task

inductive TxOp where
  | createTask (byName : Bool) (spec : TaskSpec)
  | createConversation (spec : ConversationSpec)
  | createForkConversation (spec : ConversationSpec)
  /-- With the spec that has the tip of the source conversation as parent, if it inherits. -/
  | createOwnedConversation (ownerTaskId sourceConversationId : Nat) (spec : ConversationSpec)
  | checkpoint (value : Json)
  | markTask (id : Nat)
  | setTask (source : RowSource) (id : Nat) (update : Update)
  /-- An id is minted for something else. -/
  | mintId
  | appendEntry (entry : Entry)
  | putInput (input : Input)
  | doc (ref : DocRef) (ops : List Op)

/-! ## Scope -/

def liveTask (s : Session) (id : Nat) : Option Task := RowMap.get Task.id s.liveTasks id

def createdTask (tx : Tx) (id : Nat) : Option Task := RowMap.get Task.id tx.createdTasks id

/-- The task that owns a conversation, live or not. -/
def ownerTask (s : Session) (id : Nat) : Option Task := (liveTask s id).or (RowMap.get Task.id s.ownerTaskCache id)

/-- A conversation and the conversation of the task that owns it. -/
def ownerEdge (s : Session) (c : Conversation) : Option (Nat × Nat) :=
  (c.owner.bind (ownerTask s)).map fun task => (c.id, task.conversationId)

def subtree (s : Session) (root : Nat) : List Nat := Saturation.saturate (s.conversationRecords.filterMap (ownerEdge s)) root

def Tx.core (tx : Tx) : Bool :=
  match tx.invoker with
  | .kernel => true
  | .host => false
  | .task _ _ core _ => core

def inScope (s : Session) (tx : Tx) (conversationId : Nat) : Bool :=
  match tx.invoker with
  | .task id own false _ =>
    if conversationId = own || tx.createdConversations.any fun c => c.id = conversationId then true
    else
      let task := (createdTask tx id).or (liveTask s id)
      (task.elim [] Task.owns).any fun root => (subtree s root).contains conversationId
  | _ => true

def assertCore (tx : Tx) (what : String) : Except TxError Unit :=
  if tx.core then pure () else throw (.forbidden (what ++ ": core turn machinery only"))

def assertScope (s : Session) (tx : Tx) (conversationId : Nat) (what : String) : Except TxError Unit :=
  if inScope s tx conversationId then pure ()
  else throw (.forbidden s!"{what}: conversation {conversationId} is outside this task's subtree")

/-! ## Writing a row -/

/-- The fields that differ from the row before, or all that a terminal record holds. An absent mark or outcome is
dropped when the patch is stored. -/
def taskPatch (prev : Option Task) (task : Task) : Option TaskPatch :=
  if task.status = .terminal then
    some {
      id := task.id
      status := some .terminal
      checkpoint := some none
      abort := if task.abort then some true else none
      outcome := task.outcome
      owns := some task.owns }
  else
    let sameStatus := prev.map Task.status = some task.status
    let sameCheckpoint := prev.bind Task.checkpoint = task.checkpoint
    let sameAbort := prev.elim false Task.abort = task.abort
    let sameOutcome := prev.bind Task.outcome = task.outcome
    let sameOwns := prev.map Task.owns = some task.owns
    if sameStatus ∧ sameCheckpoint ∧ sameAbort ∧ sameOutcome ∧ sameOwns then none
    else some {
      id := task.id
      status := if sameStatus then none else some task.status
      checkpoint := if sameCheckpoint then none else some task.checkpoint
      abort := if ¬sameAbort ∧ task.abort then some true else none
      outcome := if sameOutcome then none else task.outcome
      owns := if sameOwns then none else some task.owns }

/-- A terminal row has no checkpoint. -/
def closed (task : Task) : Task := if task.status = .terminal then { task with checkpoint := none } else task

/-- A row is written: to the batch, to the changes of the session and to the overlay. -/
def Tx.pushRow (tx : Tx) (write : Write) (task : Task) : Tx :=
  { tx with
    writes := tx.writes ++ [write]
    changedTasks := tx.changedTasks ++ [task]
    createdTasks := RowMap.set Task.id tx.createdTasks task }

/-- `setTaskInternal` -/
def setTaskInternal (s : Session) (tx : Tx) (task : Task) : Tx :=
  let prev := (createdTask tx task.id).or (liveTask s task.id)
  match taskPatch prev task with
  | none => tx
  | some patch => tx.pushRow (.taskPatch patch) (closed task)

def Update.apply : Update → Task → Task
  | .running, task => { task with status := .running }
  | .abort, task => { task with abort := true }
  | .terminal outcome, task => { task with status := .terminal, outcome := some outcome }

/-! ## Creating rows -/

def CORE_KINDS : List String := ["shuvpi.generation", "shuvpi.tool", "shuvpi.post_tools", "shuvpi.collapse"]

def isCoreKind (name : String) : Bool := CORE_KINDS.contains name

/-- The invoker's task, as long as its terminal closure runs. -/
def closingTask (tx : Tx) (id : Nat) : Bool := tx.closing && tx.invoker.taskId? = some id

def hasLiveKind (s : Session) (tx : Tx) (conversationId : Nat) (kind : String) : Bool :=
  (s.liveTasks.any fun task => task.conversationId = conversationId && task.kind = kind &&
      ((createdTask tx task.id).getD task).status ≠ .terminal && !closingTask tx task.id) ||
    tx.createdTasks.any fun task => task.conversationId = conversationId && task.kind = kind && task.status ≠ .terminal &&
      (liveTask s task.id).isNone

def newTask (id conversationId : Nat) (spec : TaskSpec) : Task where
  id := id
  conversationId := conversationId
  kind := spec.kind
  input := spec.input
  status := .pending
  after := spec.after
  background := spec.background

/-- `createTaskInternal` -/
def createTaskInternal (s : Session) (tx : Tx) (spec : TaskSpec) : Except TxError Tx :=
  if !s.kinds.contains spec.kind then throw (.error ("unknown task kind " ++ spec.kind))
  else if isCoreKind spec.kind && !tx.core then throw (.forbidden ("create core task " ++ spec.kind))
  else
    match spec.conversationId.or tx.invoker.conversationId? with
    | none => throw (.error "createTask: conversationId required")
    | some conversationId => do
      assertScope s tx conversationId "createTask"
      if spec.kind = "shuvpi.generation" && hasLiveKind s tx conversationId spec.kind then
        throw (.generationInProgress conversationId)
      else if spec.kind = "shuvpi.collapse" && hasLiveKind s tx conversationId spec.kind then
        throw (.collapseInProgress conversationId)
      else
        let task := newTask tx.nextIdValue conversationId spec
        return { tx with nextIdValue := tx.nextIdValue + 1 }.pushRow (.task task) task

def forkPoint (parent : Option (Nat × Option Nat)) : Option (Nat × Nat) :=
  parent.bind fun p => p.2.map fun at_ => (p.1, at_)

def newConversation (id : Nat) (owner : Option Nat) (spec : ConversationSpec) : Conversation where
  id := id
  parent := forkPoint spec.parent
  owner := owner

/-- The documents of a new conversation, up to the one whose configuration is refused. -/
def ConversationSpec.documents (spec : ConversationSpec) (id : Nat) : List Write :=
  match spec.seeds with
  | .valid => [.doc (.rewindable id) [.r spec.rewindable], .doc (.sticky id) [.r spec.sticky]]
  | .rewindableInvalid => []
  | .stickyInvalid => [.doc (.rewindable id) [.r spec.rewindable]]

/-- A conversation is written, with its documents. -/
def Tx.pushConversation (tx : Tx) (c : Conversation) (spec : ConversationSpec) : Tx :=
  { tx with
    nextIdValue := tx.nextIdValue + 1
    writes := tx.writes ++ .conversation c :: spec.documents c.id
    changedConversations := tx.changedConversations ++ [c]
    createdConversations := RowMap.set Conversation.id tx.createdConversations c }

/-- `insertConversation`: the owner's row is the live one where there is one. Where it throws,
what it leaves is the conversation and the documents before the refused one. -/
def insertConversation (s : Session) (tx : Tx) (spec : ConversationSpec) (owner : Option Nat) : Tx :=
  let id := tx.nextIdValue
  let tx := tx.pushConversation (newConversation id owner spec) spec
  if spec.seeds ≠ .valid then tx
  else
    match owner with
    | none => tx
    | some owner =>
      match (liveTask s owner).or (createdTask tx owner) with
      | some task => setTaskInternal s tx { task with owns := task.owns ++ [id] }
      | none => tx

/-! ## Operations -/

/-- The row that `tx.task` finds. -/
def Tx.task (s : Session) (tx : Tx) (id : Nat) : Option Task :=
  ((createdTask tx id).or (liveTask s id)).or (s.storage.tasksById id)

def RowSource.row (s : Session) (tx : Tx) (id : Nat) : RowSource → Option Task
  | .live => liveTask s id
  | .task => tx.task s id

/-- A task is created by the name of its kind in core transactions only. -/
def assertCreator (tx : Tx) (byName : Bool) : Except TxError Unit :=
  if byName then assertCore tx "createTask by name" else pure ()

def assertParent (s : Session) (tx : Tx) (spec : ConversationSpec) : Except TxError Unit :=
  match spec.parent with
  | some parent => assertScope s tx parent.1 "createConversation: parent"
  | none => pure ()

def Tx.apply (s : Session) (tx : Tx) : TxOp → Except TxError Tx
  | .createTask byName spec => do
    assertCreator tx byName
    createTaskInternal s tx spec
  | .createConversation spec => do
    assertParent s tx spec
    return insertConversation s tx spec tx.invoker.taskId?
  | .createForkConversation spec => do
    assertCore tx "createForkConversation"
    return insertConversation s tx spec none
  | .createOwnedConversation ownerTaskId sourceConversationId spec => do
    assertCore tx "createOwnedConversation"
    let refused := TxError.forbidden s!"task {ownerTaskId} cannot create an owned conversation"
    match (liveTask s ownerTaskId).or (createdTask tx ownerTaskId) with
    | none => throw refused
    | some owner =>
      if owner.status = .terminal || owner.conversationId ≠ sourceConversationId then throw refused
      else return insertConversation s tx spec (some ownerTaskId)
  | .checkpoint value =>
    match tx.invoker with
    | .task id _ _ mode =>
      if mode = .abort then throw (.forbidden "checkpoint from an abort invocation")
      else
        match (createdTask tx id).or (liveTask s id) with
        | none => throw (.error "task not live")
        | some current => return setTaskInternal s tx { current with checkpoint := some value }
    | _ => throw (.forbidden "checkpoint outside a task")
  | .markTask id => do
    assertCore tx "markTask"
    match (createdTask tx id).or (liveTask s id) with
    | none => throw (.error s!"task {id} not live")
    | some task => return if task.abort then tx else setTaskInternal s tx { task with abort := true }
  | .setTask source id update =>
    -- the kernel sets tasks that it has found and that are not terminal
    match source.row s tx id with
    | none => throw (.error s!"task {id} not found")
    | some task =>
      if task.status = .terminal then throw (.error s!"task {id} is terminal")
      else return setTaskInternal s tx (update.apply task)
  | .mintId => return { tx with nextIdValue := tx.nextIdValue + 1 }
  | .appendEntry entry => return { tx with writes := tx.writes ++ [.entry entry] }
  | .putInput input => return { tx with writes := tx.writes ++ [.input input] }
  | .doc ref ops => return { tx with writes := tx.writes ++ [.doc ref ops] }

/-! ## The session -/

/-- `applyChanges` for one task. -/
def applyTaskChange (s : Session) (task : Task) : Session :=
  if task.status = .terminal then { s with
    liveTasks := RowMap.delete Task.id s.liveTasks task.id
    ownerTaskCache := if task.owns.isEmpty then s.ownerTaskCache else RowMap.set Task.id s.ownerTaskCache task }
  else { s with liveTasks := RowMap.set Task.id s.liveTasks task }

def applyConversationChange (s : Session) (c : Conversation) : Session :=
  { s with conversationRecords := RowMap.set Conversation.id s.conversationRecords c }

def applyChanges (s : Session) (tx : Tx) : Session :=
  tx.changedConversations.foldl applyConversationChange (tx.changedTasks.foldl applyTaskChange s)

/-- What `commit` asks of a task that writes. -/
def assertAuthority (s : Session) : Invoker → Except TxError Unit
  | .task id _ _ mode =>
    match liveTask s id with
    | none => throw (.forbidden "commit from a task that is not live")
    | some live =>
      if mode = .run && live.abort then throw (.forbidden "commit from a marked run invocation") else pure ()
  | _ => pure ()

def Tx.start (s : Session) (invoker : Invoker) (closing : Bool) : Tx where
  invoker := invoker
  closing := closing
  nextIdValue := s.storage.nextIdValue

def Tx.run (s : Session) (tx : Tx) (ops : List TxOp) : Except TxError Tx := ops.foldlM (Tx.apply s) tx

def Session.commit (s : Session) (invoker : Invoker) (closing : Bool) (ops : List TxOp) : Except TxError Session := do
  assertAuthority s invoker
  let tx ← (Tx.start s invoker closing).run s ops
  let storage := { s.storage with nextIdValue := tx.nextIdValue }
  if tx.writes.isEmpty then return { s with storage := storage }
  match storage.commit tx.writes with
  | .ok storage => return applyChanges { s with storage := storage } tx
  | .error e => throw (.storage e)

/-- `conversations` of the storage; ids are minted in the order of insertion. -/
def MemoryStorage.conversations (storage : MemoryStorage) : List Conversation :=
  (List.range storage.nextIdValue).filterMap storage.conversationsById

/-- `scanTasks` for those that are pending or running. -/
def MemoryStorage.liveTasks (storage : MemoryStorage) : List Task :=
  ((List.range storage.nextIdValue).filterMap storage.tasksById).filter fun task => task.status ≠ .terminal

/-- The owners of conversations that are not live. -/
def MemoryStorage.retiredOwners (storage : MemoryStorage) : List Nat :=
  (storage.conversations.filterMap Conversation.owner).dedup.filter fun id => (RowMap.get Task.id storage.liveTasks id).isNone

/-- `init` of the harness: the tables of a session that is opened on a storage. -/
def Session.init (storage : MemoryStorage) (kinds : List String) : Session where
  storage := storage
  kinds := kinds
  liveTasks := storage.liveTasks
  conversationRecords := storage.conversations
  ownerTaskCache := storage.retiredOwners.filterMap storage.tasksById

end Shuvpi.Pico
