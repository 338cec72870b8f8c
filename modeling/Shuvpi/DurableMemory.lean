import Shuvpi.JsMap
import Shuvpi.PicoTypes
import Shuvpi.SortedIds

/-!
# The reference storage of durable sessions

`MemoryStorage` of `durable/src/storage/memory.ts`. Tables are maps from ids, and beside
them stand sorted id lists: entries by conversation, those with a head marker, tasks by
status, submissions by request, documents by address and by scope. A commit checks its
whole batch before it changes anything. `P` holds the fields of a record that storage only
hands back.
-/
namespace Shuvpi.Durable

open Delta (Op DeltaError applyImmutable)
open Function (update)
open SortedIds (upperBound insertSorted removeSorted)

abbrev Id := Int
abbrev Seq := Nat

/-! ## Records -/

/-- Where a conversation was forked: the parent and the last entry it inherits. -/
structure Fork where
  conversationId : Id
  at_ : Id
  deriving DecidableEq, Repr

structure ConversationRecord (P : Type) where
  id : Id
  parent : Option Fork
  rest : P
  deriving DecidableEq, Repr

structure EntryRecord (P : Type) where
  id : Id
  conversationId : Id
  head : Option Id
  rest : P
  deriving DecidableEq, Repr

inductive TaskStatus where
  | pending | running | terminal
  deriving DecidableEq, Repr

structure TaskRecord (P : Type) where
  id : Id
  conversationId : Id
  kind : JsString
  status : TaskStatus
  abortRequested : Bool
  background : Bool
  rest : P
  deriving DecidableEq, Repr

structure SubmissionRecord (P : Type) where
  id : Id
  conversationId : Id
  requestId : Option JsString
  rest : P
  deriving DecidableEq, Repr

inductive Scope where
  | session
  | conversation (conversationId : Id)
  | task (taskId : Id)
  deriving DecidableEq, Repr

inductive History where
  | latest | rewindable
  deriving DecidableEq, Repr

structure DocumentAddress where
  kind : JsString
  scope : Scope
  key : Option JsString
  deriving DecidableEq, Repr

structure DocumentCreate (P : Type) where
  id : Id
  kind : JsString
  key : Option JsString
  scope : Scope
  history : Option History
  rest : P
  deriving DecidableEq, Repr

structure DocumentRecord (P : Type) extends DocumentCreate P where
  createdAt : Seq
  retiredAt : Option Seq
  deriving DecidableEq, Repr

inductive DocumentContent where
  | base (version : Int) (value : Json)
  | delta (version : Int) (ops : List Op)

def DocumentContent.version : DocumentContent → Int
  | .base version _ => version
  | .delta version _ => version

def DocumentContent.isBase : DocumentContent → Bool
  | .base _ _ => true
  | .delta _ _ => false

inductive StorageWrite (P : Type) where
  | conversation (value : ConversationRecord P)
  | entry (value : EntryRecord P)
  | task (value : TaskRecord P)
  | submission (value : SubmissionRecord P)
  | documentCreate (record : DocumentCreate P) (content : DocumentContent)
  | documentChange (id : Id) (content : DocumentContent)
  | documentRetire (id : Id)

inductive TableName where
  | conversation | entry | task | submission | document
  deriving DecidableEq, Repr

inductive StorageError where
  | belongs (id : Id) (existing : TableName)
  | writtenTwice (id : Id)
  | twoTypes (id : Id)
  | twoContents (id : Id)
  | retiredTwice (id : Id)
  | unknownDocument (id : Id)
  | documentExists (id : Id)
  | documentRetired (id : Id)
  | creationNeedsBase (id : Id)
  | deltaWithoutBase (id : Id)
  | versionNeedsBase (id : Id)
  | addressTaken
  | unknownConversation (id : Id)
  | noHistory (id : Id)
  | missingBase (id : Id)
  | crossedVersion (id : Id)
  | delta (error : DeltaError)
  | exhausted
  /-- a property of `undefined` was read: a fork of a conversation that is not stored -/
  | typeError
  /-- a chain of forks that does not end -/
  | endless
  deriving DecidableEq

def TableName.text : TableName → String
  | .conversation => "conversation"
  | .entry => "entry"
  | .task => "task"
  | .submission => "submission"
  | .document => "document"

/-- The messages of the source; the errors that are not its own have none here. -/
def StorageError.message : StorageError → Option String
  | .belongs id existing => some ("ID " ++ toString id ++ " already belongs to " ++ existing.text)
  | .writtenTwice id => some ("ID " ++ toString id ++ " is written more than once")
  | .twoTypes id => some ("ID " ++ toString id ++ " is written as two record types")
  | .twoContents id => some ("Document " ++ toString id ++ " has more than one content command")
  | .retiredTwice id => some ("Document " ++ toString id ++ " is retired more than once")
  | .unknownDocument id => some ("Unknown document: " ++ toString id)
  | .documentExists id => some ("Document " ++ toString id ++ " already exists")
  | .documentRetired id => some ("Document " ++ toString id ++ " is retired")
  | .creationNeedsBase id => some ("Document " ++ toString id ++ " creation requires a base")
  | .deltaWithoutBase id => some ("Document " ++ toString id ++ " delta has no base")
  | .versionNeedsBase id => some ("Document " ++ toString id ++ " version transition requires a base")
  | .addressTaken => some "Document address already has a current incarnation"
  | .unknownConversation id => some ("Unknown conversation: " ++ toString id)
  | .noHistory id => some ("Document " ++ toString id ++ " does not retain historical content")
  | .missingBase id => some ("Document " ++ toString id ++ " is missing a required base")
  | .crossedVersion id =>
    some ("Document " ++ toString id ++ " crosses a stored version boundary without a base")
  | .exhausted => some "ID space is exhausted"
  | .delta _ | .typeError | .endless => none

/-! ## State -/

structure DocumentRevision where
  content : DocumentContent
  seq : Seq

structure StoredDocumentState (P : Type) where
  record : DocumentRecord P
  revisions : List DocumentRevision

structure DocumentAddressIndex where
  ids : List Id
  currentId : Option Id
  deriving DecidableEq, Repr

structure DocumentAction (P : Type) where
  create : Option (DocumentCreate P)
  content : Option DocumentContent
  retire : Bool

structure MemoryStorage (P : Type) where
  conversations : Id → Option (ConversationRecord P)
  conversationIds : List Id
  entries : Id → Option (EntryRecord P)
  entryIds : Id → List Id
  headEntryIds : Id → List Id
  entryCommitSeqs : Id → Option Seq
  tasks : Id → Option (TaskRecord P)
  taskIds : List Id
  taskIdsByStatus : TaskStatus → List Id
  submissions : Id → Option (SubmissionRecord P)
  submissionIdsByRequest : Id × JsString → Option Id
  documents : Id → Option (StoredDocumentState P)
  documentAddresses : DocumentAddress → Option DocumentAddressIndex
  documentIdsByScope : Scope → List Id
  nextId : Id
  nextSeq : Seq

variable {P : Type}

def DocumentCreate.address (record : DocumentCreate P) : DocumentAddress := ⟨record.kind, record.scope, record.key⟩

/-- `isCurrentOnly` -/
def DocumentCreate.currentOnly (record : DocumentCreate P) : Bool :=
  match record.scope with
  | .conversation _ => record.history = some .latest
  | _ => true

/-- `isAliveAt`; no point is the current one. -/
def DocumentRecord.aliveAt (record : DocumentRecord P) : Option Seq → Bool
  | none => record.retiredAt.isNone
  | some point => record.createdAt ≤ point && record.retiredAt.all (point < ·)

/-- The request under which a submission is looked up. -/
def SubmissionRecord.request? (value : SubmissionRecord P) : Option (Id × JsString) :=
  value.requestId.map fun requestId => (value.conversationId, requestId)

/-- The index without the request of the replaced record, if it points to it. -/
def forgetRequest (index : Id × JsString → Option Id) (previous : Option (SubmissionRecord P))
    (id : Id) : Id × JsString → Option Id :=
  match previous.bind SubmissionRecord.request? with
  | none => index
  | some request => if index request = some id then update index request none else index

/-- New content of a stored document; a base of a current-only one replaces what it had. -/
def StoredDocumentState.changed (stored : StoredDocumentState P) (seq : Seq)
    (content : DocumentContent) : StoredDocumentState P :=
  { stored with revisions :=
      if content.isBase && stored.record.currentOnly then [⟨content, seq⟩]
      else stored.revisions ++ [⟨content, seq⟩] }

def StoredDocumentState.retired (stored : StoredDocumentState P) (seq : Seq)
    (created : Bool) : StoredDocumentState P where
  record := if created then stored.record else { stored.record with retiredAt := some seq }
  revisions := if stored.record.currentOnly then [] else stored.revisions

def DocumentAddressIndex.settle (index : DocumentAddressIndex) (id : Id) (created retire : Bool) :
    DocumentAddressIndex :=
  if retire then if index.currentId = some id then { index with currentId := none } else index
  else if created then { index with currentId := some id } else index

/-! ## Queries -/

structure EntryQuery where
  conversationId : Id
  minEntryId : Option Id
  maxEntryId : Option Id
  deriving DecidableEq, Repr

structure Page (α : Type) where
  items : List α
  next : Option Id
  deriving DecidableEq, Repr

def page {α : Type} (id : α → Id) (values : List α) (limit : Nat) : Page α where
  items := values.take limit
  next := if values.length ≤ limit then none else (values.take limit).getLast?.map id

structure TaskQuery where
  conversationId : Option Id
  kind : Option JsString
  status : Option TaskStatus
  abortRequested : Option Bool
  background : Option Bool
  deriving DecidableEq, Repr

/-- The filters that the scan itself applies; the status selects the list it goes through. -/
def TaskQuery.accepts (query : TaskQuery) (task : TaskRecord P) : Bool :=
  query.conversationId.all (· = task.conversationId) && query.kind.all (· = task.kind) &&
    query.abortRequested.all (· = task.abortRequested) && query.background.all (· = task.background)

structure StoredDocument (P : Type) where
  record : DocumentRecord P
  version : Int
  value : Option Json

/-- The values from a base on; a revision of another kind or version stops the read. -/
def replayRevisions (id : Id) (version : Int) :
    Option Json → List DocumentRevision → Except StorageError (Option Json)
  | value, [] => .ok value
  | value, ⟨.delta v ops, _⟩ :: revisions =>
    if v ≠ version then .error (.crossedVersion id)
    else
      match applyImmutable value ops with
      | .error e => .error (.delta e)
      | .ok value => replayRevisions id version value revisions
  | _, ⟨.base _ _, _⟩ :: _ => .error (.crossedVersion id)

/-- The last base of a list of revisions, with those after it. -/
def lastBase : List DocumentRevision → Option (Int × Json × List DocumentRevision)
  | [] => none
  | r :: revisions =>
    match lastBase revisions, r.content with
    | some found, _ => some found
    | none, .base version value => some (version, value, revisions)
    | none, .delta _ _ => none

def readRevisions (record : DocumentRecord P) (revisions : List DocumentRevision) :
    Except StorageError (StoredDocument P) :=
  match lastBase revisions with
  | none => .error (.missingBase record.id)
  | some (version, value, later) =>
    (replayRevisions record.id version (some value) later).map (⟨record, version, ·⟩)

namespace MemoryStorage

def initial : MemoryStorage P where
  conversations _ := none
  conversationIds := []
  entries _ := none
  entryIds _ := []
  headEntryIds _ := []
  entryCommitSeqs _ := none
  tasks _ := none
  taskIds := []
  taskIdsByStatus _ := []
  submissions _ := none
  submissionIdsByRequest _ := none
  documents _ := none
  documentAddresses _ := none
  documentIdsByScope _ := []
  nextId := 2
  nextSeq := 1

def tableContaining (s : MemoryStorage P) (id : Id) : Option TableName :=
  if (s.conversations id).isSome then some .conversation
  else if (s.entries id).isSome then some .entry
  else if (s.tasks id).isSome then some .task
  else if (s.submissions id).isSome then some .submission
  else if (s.documents id).isSome then some .document
  else none

end MemoryStorage

/-! ## The checks of a batch -/

/-- The id that a write claims, and for which table. -/
def StorageWrite.claim? : StorageWrite P → Option (Id × TableName)
  | .conversation value => some (value.id, .conversation)
  | .entry value => some (value.id, .entry)
  | .task value => some (value.id, .task)
  | .submission value => some (value.id, .submission)
  | .documentCreate record _ => some (record.id, .document)
  | .documentChange _ _ => none
  | .documentRetire _ => none

def TableName.immutable : TableName → Bool
  | .conversation | .entry | .document => true
  | .task | .submission => false

def checkClaim (existing earlier : Option TableName) (id : Id) (table : TableName) : Except StorageError Unit :=
  if table.immutable then
    match existing, earlier with
    | some t, _ => .error (.belongs id t)
    | none, some _ => .error (.writtenTwice id)
    | none, none => .ok ()
  else
    match existing, earlier with
    | some t, some e =>
      if t ≠ table then .error (.belongs id t) else if e ≠ table then .error (.twoTypes id) else .ok ()
    | some t, none => if t ≠ table then .error (.belongs id t) else .ok ()
    | none, some e => if e ≠ table then .error (.twoTypes id) else .ok ()
    | none, none => .ok ()

/-- `checkGlobalIds`, over the table that holds each id. -/
def checkGlobalIds (existing : Id → Option TableName) (claimed : Id → Option TableName) :
    List (StorageWrite P) → Except StorageError Unit
  | [] => .ok ()
  | write :: writes =>
    match write.claim? with
    | none => checkGlobalIds existing claimed writes
    | some (id, table) =>
      match checkClaim (existing id) (claimed id) id table with
      | .error e => .error e
      | .ok () => checkGlobalIds existing (update claimed id (some table)) writes

def DocumentAction.empty : DocumentAction P := ⟨none, none, false⟩

/-- What one write adds to the action of its document. -/
def DocumentAction.add (action : DocumentAction P) : StorageWrite P → Except StorageError (DocumentAction P)
  | .documentCreate record content =>
    if action.create.isSome || action.content.isSome then .error (.twoContents record.id)
    else .ok { action with create := some record, content := some content }
  | .documentChange id content =>
    if action.content.isSome then .error (.twoContents id)
    else .ok { action with content := some content }
  | .documentRetire id =>
    if action.retire then .error (.retiredTwice id) else .ok { action with retire := true }
  | _ => .ok action

def StorageWrite.documentId? : StorageWrite P → Option Id
  | .documentCreate record _ => some record.id
  | .documentChange id _ => some id
  | .documentRetire id => some id
  | _ => none

abbrev DocumentActions (P : Type) := JsMap Id (DocumentAction P)

def prepareDocumentActions (actions : DocumentActions P) :
    List (StorageWrite P) → Except StorageError (DocumentActions P)
  | [] => .ok actions
  | write :: writes =>
    match write.documentId? with
    | none => prepareDocumentActions actions writes
    | some id =>
      match ((actions.get id).getD .empty).add write with
      | .error e => .error e
      | .ok action => prepareDocumentActions (actions.set id action) writes

namespace MemoryStorage

/-- The checks of one action that do not concern its address. -/
def checkDocumentAction (s : MemoryStorage P) (id : Id) (action : DocumentAction P) :
    Except StorageError (DocumentCreate P) :=
  match action.create, s.documents id with
  | none, none => .error (.unknownDocument id)
  | some _, some _ => .error (.documentExists id)
  | none, some existing =>
    if existing.record.retiredAt.isSome then .error (.documentRetired id)
    else
      match action.content with
      | some (.delta version _) =>
        match existing.revisions.getLast? with
        | none => .error (.deltaWithoutBase id)
        | some previous =>
          if previous.content.version ≠ version then .error (.versionNeedsBase id)
          else .ok existing.record.toDocumentCreate
      | _ => .ok existing.record.toDocumentCreate
  | some record, none =>
    if action.content.all (!·.isBase) then .error (.creationNeedsBase id) else .ok record

/-- The number of current documents that an address will have. -/
def countLive (s : MemoryStorage P) (counts : JsMap DocumentAddress Int) (id : Id)
    (action : DocumentAction P) (record : DocumentCreate P) : JsMap DocumentAddress Int :=
  let currentId := (s.documentAddresses record.address).bind DocumentAddressIndex.currentId
  let live := (counts.get record.address).getD (if currentId.isNone then 0 else 1)
  let live := if action.retire && currentId = some id then live - 1 else live
  let live := if action.create.isSome && !action.retire then live + 1 else live
  counts.set record.address live

def countActions (s : MemoryStorage P) (counts : JsMap DocumentAddress Int) :
    DocumentActions P → Except StorageError (JsMap DocumentAddress Int)
  | [] => .ok counts
  | (id, action) :: actions =>
    match s.checkDocumentAction id action with
    | .error e => .error e
    | .ok record => countActions s (s.countLive counts id action record) actions

def checkDocumentActions (s : MemoryStorage P) (actions : DocumentActions P) : Except StorageError Unit :=
  match s.countActions [] actions with
  | .error e => .error e
  | .ok counts => if counts.any (1 < ·.2) then .error .addressTaken else .ok ()

/-! ## Applying a batch -/

def reserve (s : MemoryStorage P) (id : Id) : MemoryStorage P := { s with nextId := max s.nextId (id + 1) }

def applyConversation (s : MemoryStorage P) (value : ConversationRecord P) : MemoryStorage P :=
  { s with
    conversations := update s.conversations value.id (some value)
    conversationIds := insertSorted s.conversationIds value.id }

def applyEntry (s : MemoryStorage P) (seq : Seq) (value : EntryRecord P) : MemoryStorage P :=
  { s with
    entries := update s.entries value.id (some value)
    entryCommitSeqs := update s.entryCommitSeqs value.id (some seq)
    entryIds := update s.entryIds value.conversationId
      (insertSorted (s.entryIds value.conversationId) value.id)
    headEntryIds := if value.head.isSome then
        update s.headEntryIds value.conversationId
          (insertSorted (s.headEntryIds value.conversationId) value.id)
      else s.headEntryIds }

def applyTask (s : MemoryStorage P) (value : TaskRecord P) : MemoryStorage P :=
  let indexed : MemoryStorage P :=
    match s.tasks value.id with
    | none => { s with
        taskIds := insertSorted s.taskIds value.id
        taskIdsByStatus := update s.taskIdsByStatus value.status
          (insertSorted (s.taskIdsByStatus value.status) value.id) }
    | some previous =>
      if previous.status = value.status then s
      else
        let removed := update s.taskIdsByStatus previous.status
          (removeSorted (s.taskIdsByStatus previous.status) value.id)
        { s with
          taskIdsByStatus := update removed value.status
            (insertSorted (removed value.status) value.id) }
  { indexed with tasks := update s.tasks value.id (some value) }

def applySubmission (s : MemoryStorage P) (value : SubmissionRecord P) : MemoryStorage P :=
  let index := forgetRequest s.submissionIdsByRequest (s.submissions value.id) value.id
  { s with
    submissions := update s.submissions value.id (some value)
    submissionIdsByRequest :=
      match value.request? with
      | none => index
      | some request => update index request (some value.id) }

def applyWrite (seq : Seq) (s : MemoryStorage P) : StorageWrite P → MemoryStorage P
  | .conversation value => (s.applyConversation value).reserve value.id
  | .entry value => (s.applyEntry seq value).reserve value.id
  | .task value => (s.applyTask value).reserve value.id
  | .submission value => (s.applySubmission value).reserve value.id
  | _ => s

def createDocument (s : MemoryStorage P) (seq : Seq) (create : DocumentCreate P)
    (content : DocumentContent) (retire : Bool) : MemoryStorage P :=
  let index := (s.documentAddresses create.address).getD ⟨[], none⟩
  { s with
    documents := update s.documents create.id (some
      ⟨⟨create, seq, if retire then some seq else none⟩, [⟨content, seq⟩]⟩)
    documentAddresses := update s.documentAddresses create.address
      (some { index with ids := insertSorted index.ids create.id })
    documentIdsByScope := update s.documentIdsByScope create.scope
      (insertSorted (s.documentIdsByScope create.scope) create.id) }.reserve create.id

def setDocument (s : MemoryStorage P) (id : Id) (stored : StoredDocumentState P) : MemoryStorage P :=
  { s with documents := update s.documents id (some stored) }

/-- The creation or the content of an action, or the error of a document that is not there. -/
def writeDocument (s : MemoryStorage P) (seq : Seq) (id : Id) (action : DocumentAction P) :
    Except StorageError (MemoryStorage P) :=
  match action.create, action.content, s.documents id with
  | some create, some content, _ => .ok (s.createDocument seq create content action.retire)
  | some _, none, _ => .error .typeError
  | none, some content, some stored =>
    .ok (s.setDocument id (stored.changed seq content))
  | none, some _, none => .error .typeError
  | none, none, _ => .ok s

/-- What retiring and creating do to the record and to its address. -/
def settleDocument (s : MemoryStorage P) (seq : Seq) (id : Id) (action : DocumentAction P) :
    MemoryStorage P × Option StorageError :=
  if !action.create.isSome && !action.retire then (s, none)
  else
    match s.documents id with
    | none => (s, some .typeError)
    | some stored =>
      let retired := if action.retire then
        s.setDocument id (stored.retired seq action.create.isSome) else s
      match s.documentAddresses stored.record.address with
      | none => (retired, some .typeError)
      | some index =>
        ({ retired with
          documentAddresses := update s.documentAddresses stored.record.address
            (some (index.settle id action.create.isSome action.retire)) }, none)

/-- Where an error stops the loop, what was changed before it stays changed. -/
def applyDocumentActions (seq : Seq) (s : MemoryStorage P) : DocumentActions P → MemoryStorage P × Option StorageError
  | [] => (s, none)
  | (id, action) :: actions =>
    match s.writeDocument seq id action with
    | .error e => (s, some e)
    | .ok written =>
      match written.settleDocument seq id action with
      | (settled, some e) => (settled, some e)
      | (settled, none) => applyDocumentActions seq settled actions

/-- The checks, before anything changes. -/
def checkCommit (s : MemoryStorage P) (writes : List (StorageWrite P)) :
    Except StorageError (DocumentActions P) := do
  checkGlobalIds s.tableContaining (fun _ => none) writes
  let actions ← prepareDocumentActions [] writes
  s.checkDocumentActions actions
  return actions

/-- The result of a commit, and the storage after it, also where it throws. -/
def commit (s : MemoryStorage P) (writes : List (StorageWrite P)) : Except StorageError Seq × MemoryStorage P :=
  match s.checkCommit writes with
  | .error e => (.error e, s)
  | .ok actions =>
    match applyDocumentActions s.nextSeq (writes.foldl (applyWrite s.nextSeq) s) actions with
    | (stopped, some e) => (.error e, stopped)
    | (committed, none) => (.ok s.nextSeq, { committed with nextSeq := s.nextSeq + 1 })

def MAX_SAFE_INTEGER : Int := 2 ^ 53 - 1

def mintId (s : MemoryStorage P) : Except StorageError (Id × MemoryStorage P) :=
  if s.nextId ≤ MAX_SAFE_INTEGER then .ok (s.nextId, { s with nextId := s.nextId + 1 })
  else .error .exhausted

/-! ## Reads -/

/-- The ids up to a bound, where no bound is infinity. -/
def upTo (ids : List Id) : Option Id → List Id
  | none => ids
  | some upper => ids.take (upperBound ids upper)

def lower (upper : Option Id) (bound : Id) : Option Id := some (upper.elim bound (min · bound))

/-- The loop of `findLatestHeadMarker`, for at most `fuel` conversations. -/
def findHeadFrom (s : MemoryStorage P) : Nat → Id → Option Id → Except StorageError (Option (EntryRecord P))
  | 0, _, _ => .error .endless
  | fuel + 1, currentId, upper =>
    match (upTo (s.headEntryIds currentId) upper).getLast? with
    | some id => .ok (s.entries id)
    | none =>
      match s.conversations currentId with
      | none => .error .typeError
      | some conversation =>
        match conversation.parent with
        | none => .ok none
        | some parent => findHeadFrom s fuel parent.conversationId (lower upper parent.at_)

/-- More conversations than there are make a chain that does not end. -/
def chainFuel (s : MemoryStorage P) : Nat := s.conversationIds.length + 1

def findLatestHeadMarker (s : MemoryStorage P) (conversationId : Id) (atOrBefore : Option Id) :
    Except StorageError (Option (EntryRecord P)) :=
  if (s.conversations conversationId).isNone then .error (.unknownConversation conversationId)
  else s.findHeadFrom s.chainFuel conversationId atOrBefore

/-- The entries of one conversation that a scan yields, newest first. -/
def segment (s : MemoryStorage P) (id : Id) (minEntryId upper : Option Id) : List (EntryRecord P) :=
  (((upTo (s.entryIds id) upper).reverse.takeWhile fun e => minEntryId.all (· ≤ e))).filterMap
    s.entries

/-- The loop of `visibleEntries` as `scanEntries` runs it: it stops at more than `limit`. -/
def visibleFrom (s : MemoryStorage P) (minEntryId : Option Id) (limit : Nat) :
    Nat → Id → Option Id → List (EntryRecord P) → Except StorageError (List (EntryRecord P))
  | 0, _, _, _ => .error .endless
  | fuel + 1, currentId, upper, visible =>
    let visible := (visible ++ s.segment currentId minEntryId upper).take (limit + 1)
    if limit < visible.length then .ok visible
    else
      match s.conversations currentId with
      | none => .error .typeError
      | some conversation =>
        match conversation.parent with
        | none => .ok visible
        | some parent =>
          let upper := lower upper parent.at_
          if minEntryId.any fun m => upper.any (· < m) then .ok visible
          else visibleFrom s minEntryId limit fuel parent.conversationId upper visible

def scanEntries (s : MemoryStorage P) (query : EntryQuery) (cursor : Option Id) (limit : Nat) :
    Except StorageError (Page (EntryRecord P)) :=
  let maxEntryId := match cursor with
    | none => query.maxEntryId
    | some after => lower query.maxEntryId (after - 1)
  if (s.conversations query.conversationId).isNone then
    .error (.unknownConversation query.conversationId)
  else (s.visibleFrom query.minEntryId limit s.chainFuel query.conversationId maxEntryId []).map
    (page EntryRecord.id · limit)

def scanTasks (s : MemoryStorage P) (query : TaskQuery) (cursor : Option Id) (limit : Nat) : Page (TaskRecord P) :=
  let ids := query.status.elim s.taskIds s.taskIdsByStatus
  let start := cursor.elim 0 (upperBound ids)
  let values := ((ids.drop start).filterMap s.tasks).filter query.accepts
  page TaskRecord.id (values.take (limit + 1)) limit

def submissionByRequest (s : MemoryStorage P) (conversationId : Id) (requestId : JsString) :
    Option (SubmissionRecord P) :=
  (s.submissionIdsByRequest (conversationId, requestId)).bind s.submissions

def findDocument (s : MemoryStorage P) (address : DocumentAddress) : Option Seq → Option (DocumentRecord P)
  | none => (((s.documentAddresses address).bind DocumentAddressIndex.currentId).bind
      s.documents).map StoredDocumentState.record
  | some at_ => ((((s.documentAddresses address).elim [] DocumentAddressIndex.ids).filterMap
      s.documents).map StoredDocumentState.record).find? (·.aliveAt (some at_))

def document (s : MemoryStorage P) (id : Id) (at_ : Option Seq) : Except StorageError (Option (StoredDocument P)) :=
  match s.documents id with
  | none => .ok none
  | some stored =>
    if at_.isSome && stored.record.currentOnly then .error (.noHistory id)
    else if !stored.record.aliveAt at_ then .ok none
    else
      (readRevisions stored.record
        (stored.revisions.filter fun revision => at_.all (revision.seq ≤ ·))).map some

end MemoryStorage

end Shuvpi.Durable
