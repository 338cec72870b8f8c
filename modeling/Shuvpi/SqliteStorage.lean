import Shuvpi.SessionTree

/-!
# The SQLite session storage

The tables of one session and the statements of `sqlite-node`: commits in a transaction, the
private branch index, and scans over it. A branch of the index stores the entries of a path
after its newest compaction; what is older stays in the branch of that compaction, its base.
A table is the list of its rows, and a statement that orders its rows sorts them.
-/
namespace Shuvpi.Sqlite

open SessionTree

variable {Body Val Use : Type}

inductive SqliteError where
  | missingParent
  | duplicateId
  | primaryKey
  | uniqueTip
  | cacheMissing (entryId : JsString)
  | metadataMissing (branchId : JsString)
  | baseWithoutSeq (branchId : JsString)
  | endlessBases
  | customTypeMissing (id : JsString)
  | datatypeMismatch
  deriving DecidableEq, Repr

/-! ## Bound values -/

/-- What comes back of a text that was bound to a statement, and of a payload that was stored as its JSON: a lone
surrogate does not, nor what follows a NUL, nor a number that JSON has no text for. -/
structure Binding (Body : Type) where
  text : JsString → JsString
  body : Body → Body

namespace Binding

variable (bound : Binding Body)

def entry (e : Entry Body) : Entry Body :=
  { e with
    id := bound.text e.id, parentId := e.parentId.map bound.text, customType := e.customType.map bound.text
    body := bound.body e.body }

/-- The values of a row are bound too, though nothing that scans a branch reads them. -/
def write : CommittedWrite Body Val Use → CommittedWrite Body Val Use
  | .entry e => .entry (bound.entry e)
  | .usage row => .usage { row with id := bound.text row.id }
  | write => write

def query (query : BranchScan) : BranchScan :=
  { query with
    start := bound.text query.start, stopAtId := query.stopAtId.map bound.text
    customType := query.customType.map bound.text }

end Binding

/-! ## Tables -/

structure BranchMetaRow where
  branchId : JsString
  tipEntryId : JsString
  tipSeq : Nat
  baseBranchId : Option JsString
  baseSeq : Option Nat
  deriving DecidableEq

structure BranchEntryRow where
  branchId : JsString
  entryId : JsString
  entrySeq : Nat
  entryType : EntryType
  deriving DecidableEq

structure ListValueRow (Val : Type) where
  address : Address
  seq : Nat
  value : Val
  deriving DecidableEq

structure Database (Body Val Use : Type) where
  entries : List (Entry Body)
  scalarValues : List (StoredValue Val)
  listValues : List (ListValueRow Val)
  usageLedger : List (UsageRow Val Use)
  stats : SessionStats Use
  branchMeta : List BranchMetaRow
  branchEntries : List BranchEntryRow
  nextSeq : Nat

structure BranchSegment where
  branchId : JsString
  lowerSeq : Nat
  upperSeq : Nat
  deriving DecidableEq, Repr

namespace Database

def empty [UsageSum Use] : Database Body Val Use := ⟨[], [], [], [], ⟨0, UsageSum.emptyUsage⟩, [], [], 1⟩

/-! ## Reading the index -/

/-- The rows of a branch in the range of a segment. -/
def segmentRows (db : Database Body Val Use) (segment : BranchSegment) : List BranchEntryRow :=
  db.branchEntries.filter fun b =>
    b.branchId = segment.branchId && segment.lowerSeq < b.entrySeq && b.entrySeq ≤ segment.upperSeq

/-- The binary collation of text. -/
def textLe (a b : JsString) : Bool := decide (JsText.textEncode a ≤ JsText.textEncode b)

/-- The branches that store an entry themselves, those with the newest tips first. -/
def memberships (db : Database Body Val Use) (entryId : JsString) : List (BranchEntryRow × BranchMetaRow) :=
  let joined := db.branchEntries.flatMap fun b => (db.branchMeta.filter fun m => m.branchId = b.branchId).map fun m => (b, m)
  let found := joined.filter fun p =>
    p.1.entryId = entryId && p.2.baseSeq.getD 0 < p.1.entrySeq && p.1.entrySeq ≤ p.2.tipSeq
  found.mergeSort fun p q =>
    q.2.tipSeq < p.2.tipSeq || (q.2.tipSeq = p.2.tipSeq && textLe p.1.branchId q.1.branchId)

def readBranchMembership (db : Database Body Val Use) (entryId : JsString) : Except SqliteError BranchEntryRow :=
  match db.memberships entryId with
  | p :: _ => .ok p.1
  | [] => .error (.cacheMissing entryId)

def readBranchMeta (db : Database Body Val Use) (branchId : JsString) : Except SqliteError BranchMetaRow :=
  match db.branchMeta.find? fun m => m.branchId = branchId with
  | some m => .ok m
  | none => .error (.metadataMissing branchId)

def readBranchTipForParent (db : Database Body Val Use) (parentId : JsString) : Option BranchMetaRow :=
  db.branchMeta.find? fun m => m.tipEntryId = parentId

/-- The loop of `readBranchSegmentsNewestFirst`. -/
def segmentsFrom (db : Database Body Val Use) : Nat → JsString → Nat → Except SqliteError (List BranchSegment)
  | 0, _, _ => .error .endlessBases
  | fuel + 1, branchId, upperSeq =>
    match db.readBranchMeta branchId with
    | .error error => .error error
    | .ok m =>
      let segment : BranchSegment := ⟨branchId, m.baseSeq.getD 0, upperSeq⟩
      match m.baseBranchId, m.baseSeq with
      | none, _ => .ok [segment]
      | some _, none => .error (.baseWithoutSeq branchId)
      | some base, some seq => (db.segmentsFrom fuel base seq).map (segment :: ·)

/-- The upper sequence falls from a branch to its base, so that the loop has no more rounds than it. -/
def readBranchSegmentsNewestFirst (db : Database Body Val Use) (start : JsString) :
    Except SqliteError (List BranchSegment) :=
  match db.readBranchMembership start with
  | .ok b => db.segmentsFrom (b.entrySeq + 1) b.branchId b.entrySeq
  | .error error => .error error

/-- `readNewestCompactionBoundary`: the branch and the sequence of the newest compaction. -/
def readNewestCompactionBoundary (db : Database Body Val Use) : List BranchSegment → Option (JsString × Nat)
  | [] => none
  | segment :: segments =>
    match (((db.segmentRows segment).filter fun b => b.entryType = .compaction).map (·.entrySeq)).max? with
    | some seq => some (segment.branchId, seq)
    | none => db.readNewestCompactionBoundary segments

/-! ## Writing the index -/

def insertBranchEntryRow (db : Database Body Val Use) (row : BranchEntryRow) : Except SqliteError (Database Body Val Use) :=
  if db.branchEntries.any fun b => b.branchId = row.branchId && b.entryId = row.entryId then .error .primaryKey
  else .ok { db with branchEntries := db.branchEntries ++ [row] }

def insertBranchEntry (db : Database Body Val Use) (branchId : JsString) (e : Entry Body) :
    Except SqliteError (Database Body Val Use) :=
  db.insertBranchEntryRow ⟨branchId, e.id, e.seq, e.type⟩

def insertBranchMeta (db : Database Body Val Use) (m : BranchMetaRow) : Except SqliteError (Database Body Val Use) :=
  if db.branchMeta.any fun m' => m'.branchId = m.branchId then .error .primaryKey
  else if db.branchMeta.any fun m' => m'.tipEntryId = m.tipEntryId then .error .uniqueTip
  else .ok { db with branchMeta := db.branchMeta ++ [m] }

def createRootBranchForEntry (db : Database Body Val Use) (e : Entry Body) : Except SqliteError (Database Body Val Use) := do
  let db ← db.insertBranchMeta ⟨e.id, e.id, e.seq, none, none⟩
  db.insertBranchEntry e.id e

def appendEntryToExistingBranch (db : Database Body Val Use) (branchId : JsString) (e : Entry Body) :
    Except SqliteError (Database Body Val Use) := do
  let db ← db.insertBranchEntry branchId e
  if db.branchMeta.any fun m => m.branchId ≠ branchId && m.tipEntryId = e.id then .error .uniqueTip
  else
    let update := fun m : BranchMetaRow => if m.branchId = branchId then { m with tipEntryId := e.id, tipSeq := e.seq } else m
    .ok { db with branchMeta := db.branchMeta.map update }

/-- `INSERT … SELECT` of rows into another branch. -/
def copyRows (db : Database Body Val Use) (targetBranchId : JsString) :
    List BranchEntryRow → Except SqliteError (Database Body Val Use)
  | [] => .ok db
  | row :: rows => do
    let db ← db.insertBranchEntryRow { row with branchId := targetBranchId }
    db.copyRows targetBranchId rows

/-- `copyBranchEntriesAfterSeqThroughParent`, over the segments from the oldest on. -/
def copySegments (db : Database Body Val Use) (targetBranchId : JsString) (afterSeq : Nat) :
    List BranchSegment → Except SqliteError (Database Body Val Use)
  | [] => .ok db
  | segment :: segments =>
    let lowerSeq := max segment.lowerSeq afterSeq
    if segment.upperSeq ≤ lowerSeq then db.copySegments targetBranchId afterSeq segments
    else do
      let db ← db.copyRows targetBranchId (db.segmentRows { segment with lowerSeq := lowerSeq })
      db.copySegments targetBranchId afterSeq segments

def createDivergentBranchForEntry (db : Database Body Val Use) (e : Entry Body) (parentId : JsString) :
    Except SqliteError (Database Body Val Use) := do
  let segmentsNewestFirst ← db.readBranchSegmentsNewestFirst parentId
  let compaction := db.readNewestCompactionBoundary segmentsNewestFirst
  let db ← db.insertBranchMeta ⟨e.id, e.id, e.seq, compaction.map Prod.fst, compaction.map Prod.snd⟩
  let db ← db.copySegments e.id ((compaction.map Prod.snd).getD 0) segmentsNewestFirst.reverse
  db.insertBranchEntry e.id e

def appendEntryToBranchIndex (db : Database Body Val Use) (e : Entry Body) : Except SqliteError (Database Body Val Use) :=
  match e.parentId with
  | none => db.createRootBranchForEntry e
  | some parentId =>
    match db.readBranchTipForParent parentId with
    | none => db.createDivergentBranchForEntry e parentId
    | some branch => db.appendEntryToExistingBranch branch.branchId e

/-! ## Commits -/

/-- `entryRowParams`: only the type of a custom entry is stored. -/
def toRow (e : Entry Body) : Entry Body := if e.type = .custom then e else { e with customType := none }

/-- The row of an entry, after the trigger and the primary key. -/
def insertEntryRow (db : Database Body Val Use) (e : Entry Body) : Except SqliteError (Database Body Val Use) :=
  if e.parentId.any fun p => !db.entries.any fun other => other.id = p then .error .missingParent
  else if db.usageLedger.any fun row => row.id = e.id then .error .duplicateId
  else if db.entries.any fun other => other.id = e.id then .error .primaryKey
  else .ok { db with entries := db.entries ++ [toRow e] }

def insertUsageRow (db : Database Body Val Use) (row : UsageRow Val Use) : Except SqliteError (Database Body Val Use) :=
  if db.entries.any fun e => e.id = row.id then .error .duplicateId
  else if db.usageLedger.any fun other => other.id = row.id then .error .primaryKey
  else .ok { db with usageLedger := db.usageLedger ++ [row] }

def setScalarValueRow (db : Database Body Val Use) (stored : StoredValue Val) : Database Body Val Use :=
  if db.scalarValues.any fun r => r.address = stored.address then
    { db with scalarValues := db.scalarValues.map fun r => if r.address = stored.address then stored else r }
  else { db with scalarValues := db.scalarValues ++ [stored] }

def appendListValueRow (db : Database Body Val Use) (row : ListValueRow Val) : Except SqliteError (Database Body Val Use) :=
  if db.listValues.any fun r => r.address = row.address && r.seq = row.seq then .error .primaryKey
  else .ok { db with listValues := db.listValues ++ [row] }

/-- The `switch` of `applyCommit`. -/
def applyWrite [UsageSum Use] (db : Database Body Val Use) :
    CommittedWrite Body Val Use → Except SqliteError (Database Body Val Use)
  | .entry e => do
    let db ← db.insertEntryRow e
    let db ← db.appendEntryToBranchIndex e
    .ok (if e.type = .message then { db with stats := { db.stats with messageCount := db.stats.messageCount + 1 } } else db)
  | .usage row => do
    let db ← db.insertUsageRow row
    .ok { db with stats := { db.stats with usage := UsageSum.addUsage db.stats.usage row.usage } }
  | .setValue seq address value => .ok (db.setScalarValueRow ⟨address, value, seq⟩)
  | .deleteValue _ address => .ok { db with scalarValues := db.scalarValues.filter fun r => r.address ≠ address }
  | .appendList seq address value => db.appendListValueRow ⟨address, seq, value⟩
  | .deleteList _ address => .ok { db with listValues := db.listValues.filter fun r => r.address ≠ address }

def applyWrites [UsageSum Use] (db : Database Body Val Use) :
    List (CommittedWrite Body Val Use) → Except SqliteError (Database Body Val Use)
  | [] => .ok db
  | write :: writes => do
    let db ← db.applyWrite write
    db.applyWrites writes

/-- The transaction of a commit; an error rolls it back. -/
def applyCommit [UsageSum Use] (db : Database Body Val Use) (bound : Binding Body) (writes : List (Write Body Val Use))
    (timestamp : Nat) : Except SqliteError (Database Body Val Use) := do
  let written ← db.applyWrites ((prepareStorageCommit writes db.nextSeq timestamp).map bound.write)
  .ok { written with nextSeq := nearestDouble (db.nextSeq + writes.length) }

/-! ## Scans -/

def stops (query : BranchScan) (b : BranchEntryRow) : Bool :=
  some b.entryType = query.stopAtType || some b.entryId = query.stopAtId

def readStopSeq (db : Database Body Val Use) (segment : BranchSegment) (query : BranchScan) (oldestFirst : Bool) :
    Option Nat :=
  SegmentScan.first oldestFirst (((db.segmentRows segment).filter (stops query)).map (·.entrySeq))

/-- The predicates of `branchScanPredicates` besides the range of the segment. -/
def scanMatches (query : BranchScan) (oldestFirst : Bool) (stopSeq : Option Nat) (b : BranchEntryRow) (e : Entry Body) :
    Bool :=
  stopSeq.all (fun seq => SegmentScan.le oldestFirst b.entrySeq seq) &&
    (query.type = none || some b.entryType = query.type) &&
    (query.customType = none || e.customType = query.customType) &&
    query.cursor.all fun seq => SegmentScan.lt oldestFirst seq b.entrySeq

/-- The rows of `scanEntrySegmentRows` before its limit. -/
def segmentEntries (db : Database Body Val Use) (segment : BranchSegment) (query : BranchScan) (oldestFirst : Bool)
    (stopSeq : Option Nat) : List (Entry Body) :=
  let joined := (db.segmentRows segment).flatMap fun b => (db.entries.filter fun e => e.id = b.entryId).map fun e => (b, e)
  let found := joined.filter fun p => scanMatches query oldestFirst stopSeq p.1 p.2
  (found.mergeSort fun p q => SegmentScan.le oldestFirst p.1.entrySeq q.1.entrySeq).map Prod.snd

/-- A limit as SQLite takes it, which refuses a number that is not an integer of 64 bits. -/
def boundLimit : Option Limit → Except SqliteError (Option Nat)
  | none => .ok none
  | some (.finite value) =>
    if value.den = 1 ∧ value.num < 2 ^ 63 then .ok (some value.num.toNat) else .error .datatypeMismatch
  | some .infinite => .error .datatypeMismatch
  | some .notANumber => .error .datatypeMismatch

def spent : Option Limit → Bool
  | some (.finite value) => value ≤ 0
  | _ => false

/-- `limit - rows.length` -/
def less (limit : Option Limit) (n : Nat) : Option Limit :=
  limit.map fun l => match l with
    | .finite value => .finite (value - n)
    | l => l

/-- The loop of `scanBranchSegments`. -/
def scanSegments (db : Database Body Val Use) (query : BranchScan) (oldestFirst : Bool) :
    Option Limit → List BranchSegment → Except SqliteError (List (Entry Body))
  | _, [] => .ok []
  | remaining, segment :: segments =>
    if spent remaining then .ok []
    else
      match boundLimit remaining with
      | .error error => .error error
      | .ok bound =>
        let stopSeq := db.readStopSeq segment query oldestFirst
        let rows := SegmentScan.limited bound (db.segmentEntries segment query oldestFirst stopSeq)
        match stopSeq with
        | some _ => .ok rows
        | none => (db.scanSegments query oldestFirst (less remaining rows.length) segments).map (rows ++ ·)

def decodeEntryRow (e : Entry Body) : Except SqliteError (Entry Body) :=
  if e.type = .custom ∧ e.customType = none then .error (.customTypeMissing e.id) else .ok e

def scanBranchEntries (db : Database Body Val Use) (query : BranchScan) : Except SqliteError (List (Entry Body)) :=
  match db.readBranchSegmentsNewestFirst query.start with
  | .error error => .error error
  | .ok segmentsNewestFirst =>
    let oldestFirst := decide (query.order = .oldestFirst)
    let segments := if oldestFirst then segmentsNewestFirst.reverse else segmentsNewestFirst
    match db.scanSegments query oldestFirst query.limit segments with
    | .error error => .error error
    | .ok rows => rows.mapM decodeEntryRow

/-- `scanBranch`, whose query is bound to the statements. -/
def scanBranch (db : Database Body Val Use) (bound : Binding Body) (query : BranchScan) :
    Except SqliteError (List (Entry Body)) :=
  db.scanBranchEntries (bound.query query)

end Database

end Shuvpi.Sqlite
