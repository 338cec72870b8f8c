import Shuvpi.JsMap
import Shuvpi.JsNumber
import Shuvpi.JsText
import Shuvpi.SegmentScan

/-!
# Commits of a session

`commit.ts` and `InMemoryStorageState` of `agent/harness/session`, over the types of the
source: a commit is a list of numbered writes, it is validated as a whole and then applied
write by write. The state keeps the entries of all branches, the current scalar values and
lists, and the usage rows. What the functions only carry around (the rest of an entry, the
stored values, the summands of usage) is arbitrary.
-/
namespace Shuvpi.SessionTree

/-- `emptyUsage` and `addUsage`. -/
class UsageSum (Use : Type) where
  emptyUsage : Use
  addUsage : Use → Use → Use

/-! ## Numbers -/

/-- The double that is nearest to a natural number; a tie goes to the even significand. -/
def nearestDouble (n : Nat) : Nat :=
  let step := 2 ^ (n.log2 - 52)
  let down := n / step * step
  if 2 * (n % step) < step ∨ (2 * (n % step) = step ∧ n / step % 2 = 0) then down else down + step

theorem nearestDouble_of_lt {n : Nat} (h : n < 2 ^ 53) : nearestDouble n = n := by
  have hlog : n.log2 - 52 = 0 := by
    by_cases hn : n = 0
    · subst hn
      rfl
    · have hlt : n.log2 < 53 := (Nat.log2_lt hn).mpr h
      omega
  have hmod : n % 1 = 0 := Nat.mod_one n
  simp only [nearestDouble, hlog, Nat.pow_zero, hmod, Nat.div_one, Nat.mul_one]
  rw [if_pos (.inl (by omega))]

theorem nearestDouble_bound : nearestDouble (2 ^ 53) = 2 ^ 53 := by decide

theorem nearestDouble_of_le {n : Nat} (h : n ≤ 2 ^ 53) : nearestDouble n = n := by
  rcases Nat.lt_or_eq_of_le h with h | rfl
  · exact nearestDouble_of_lt h
  · exact nearestDouble_bound

/-! ## Entries, rows and writes -/

inductive EntryType where
  | message
  | compaction
  | branchSummary
  | custom
  deriving DecidableEq, Repr

/-- `body` are the fields that depend on the type. -/
structure NewEntry (Body : Type) where
  id : JsString
  parentId : Option JsString
  type : EntryType
  customType : Option JsString
  body : Body
  deriving DecidableEq

structure Entry (Body : Type) extends NewEntry Body where
  seq : Nat
  timestamp : Nat
  deriving DecidableEq

/-- `details` are the fields besides the id and the usage. -/
structure NewUsageRow (Val Use : Type) where
  id : JsString
  usage : Use
  details : Val
  deriving DecidableEq

structure UsageRow (Val Use : Type) extends NewUsageRow Val Use where
  seq : Nat
  deriving DecidableEq

/-- `StoredAddressBase` without its kind. -/
structure Address where
  namespace_ : JsString
  key : JsString
  deriving DecidableEq

inductive Write (Body Val Use : Type) where
  | entry (entry : NewEntry Body)
  | usage (row : NewUsageRow Val Use)
  | setValue (address : Address) (value : Val)
  | deleteValue (address : Address)
  | appendList (address : Address) (value : Val)
  | deleteList (address : Address)

inductive CommittedWrite (Body Val Use : Type) where
  | entry (entry : Entry Body)
  | usage (row : UsageRow Val Use)
  | setValue (seq : Nat) (address : Address) (value : Val)
  | deleteValue (seq : Nat) (address : Address)
  | appendList (seq : Nat) (address : Address) (value : Val)
  | deleteList (seq : Nat) (address : Address)

variable {Body Val Use : Type}

def CommittedWrite.seq : CommittedWrite Body Val Use → Nat
  | .entry e => e.seq
  | .usage row => row.seq
  | .setValue n _ _ => n
  | .deleteValue n _ => n
  | .appendList n _ _ => n
  | .deleteList n _ => n

def commitWrite (write : Write Body Val Use) (seq timestamp : Nat) : CommittedWrite Body Val Use :=
  match write with
  | .entry entry => .entry { entry with seq := seq, timestamp := timestamp }
  | .usage row => .usage { row with seq := seq }
  | .setValue address value => .setValue seq address value
  | .deleteValue address => .deleteValue seq address
  | .appendList address value => .appendList seq address value
  | .deleteList address => .deleteList seq address

def prepareStorageCommit (writes : List (Write Body Val Use)) (firstSeq timestamp : Nat) :
    List (CommittedWrite Body Val Use) :=
  writes.mapIdx fun index write => commitWrite write (nearestDouble (firstSeq + index)) timestamp

variable (write : Write Body Val Use)

theorem prepareStorageCommit_cons (writes : List (Write Body Val Use)) (firstSeq timestamp : Nat) :
    prepareStorageCommit (write :: writes) firstSeq timestamp =
      commitWrite write (nearestDouble firstSeq) timestamp :: prepareStorageCommit writes (firstSeq + 1) timestamp := by
  rw [prepareStorageCommit, prepareStorageCommit, List.mapIdx_cons]
  refine congrArg₂ List.cons rfl ?_
  congr 1
  funext index write
  rw [Nat.add_assoc, Nat.add_comm 1 index]

theorem commitWrite_seq (seq timestamp : Nat) : (commitWrite write seq timestamp).seq = seq := by
  cases write with
  | _ => rfl

inductive StorageError where
  | nonMonotonic (seq : Nat)
  | duplicateId (id : JsString)
  | missingParent (parentId : JsString)
  | emptyNamespace
  | namespaceWithNul
  | keyWithNul
  deriving DecidableEq, Repr

/-- The sequence appears in decimal, as it does below `10 ^ 21`. -/
def StorageError.message : StorageError → JsString
  | .nonMonotonic seq => JsText.ofString s!"Non-monotonic storage sequence: {seq}"
  | .duplicateId id => JsText.ofString "Duplicate entry or usage id: " ++ id
  | .missingParent parentId => JsText.ofString "Missing parent entry: " ++ parentId
  | .emptyNamespace => JsText.ofString "Value namespace must not be empty"
  | .namespaceWithNul => JsText.ofString "Value namespace must not contain \\u0000"
  | .keyWithNul => JsText.ofString "Value key must not contain \\u0000"

def Address.validateAddress (address : Address) : Except StorageError Unit :=
  if address.namespace_.length = 0 then .error .emptyNamespace
  else if address.namespace_.contains 0 then .error .namespaceWithNul
  else if address.key.contains 0 then .error .keyWithNul
  else .ok ()

/-! ## Validation -/

/-- What the loop of `validateCommittedWrites` has seen. -/
structure Seen where
  previousSeq : Nat
  transactionIds : List JsString
  transactionEntryIds : List JsString

/-- `CommitValidationState` -/
structure CommitValidationState where
  hasEntryOrUsageId : JsString → Bool
  hasEntryId : JsString → Bool

def CommitValidationState.missingParent (state : CommitValidationState) (seen : Seen) (entry : Entry Body) :
    Option JsString :=
  match entry.parentId with
  | none => none
  | some parentId =>
    if state.hasEntryId parentId || seen.transactionEntryIds.contains parentId then none else some parentId

/-- One write of the loop. -/
def validateWrite (state : CommitValidationState) (seen : Seen) (write : CommittedWrite Body Val Use) :
    Except StorageError Seen :=
  if write.seq ≤ seen.previousSeq then .error (.nonMonotonic write.seq)
  else
    match write with
    | .entry entry =>
      if state.hasEntryOrUsageId entry.id || seen.transactionIds.contains entry.id then .error (.duplicateId entry.id)
      else
        match state.missingParent seen entry with
        | some parentId => .error (.missingParent parentId)
        | none => .ok ⟨entry.seq, entry.id :: seen.transactionIds, entry.id :: seen.transactionEntryIds⟩
    | .usage row =>
      if state.hasEntryOrUsageId row.id || seen.transactionIds.contains row.id then .error (.duplicateId row.id)
      else .ok ⟨row.seq, row.id :: seen.transactionIds, seen.transactionEntryIds⟩
    | write => .ok { seen with previousSeq := write.seq }

def validateWrites (state : CommitValidationState) :
    Seen → List (CommittedWrite Body Val Use) → Except StorageError Unit
  | _, [] => .ok ()
  | seen, write :: writes =>
    match validateWrite state seen write with
    | .ok seen => validateWrites state seen writes
    | .error error => .error error

def validateCommittedWrites (writes : List (CommittedWrite Body Val Use)) (firstSeq : Nat)
    (state : CommitValidationState) : Except StorageError Unit :=
  validateWrites state ⟨nearestDouble (firstSeq - 1), [], []⟩ writes

/-! ## The state -/

structure StoredValue (Val : Type) where
  address : Address
  value : Val
  seq : Nat
  deriving DecidableEq

structure ListElement (Val : Type) where
  seq : Nat
  value : Val
  deriving DecidableEq

structure StoredList (Val : Type) where
  address : Address
  elements : List (ListElement Val)
  deriving DecidableEq

structure SessionStats (Use : Type) where
  messageCount : Nat
  usage : Use
  deriving DecidableEq

structure StorageState (Body Val Use : Type) where
  entries : JsMap JsString (Entry Body)
  entriesBySeq : List (Entry Body)
  scalarValues : JsMap JsString (StoredValue Val)
  listValues : JsMap JsString (StoredList Val)
  usage : JsMap JsString (UsageRow Val Use)
  stats : SessionStats Use
  nextSeq : Nat
  deriving DecidableEq

def Address.physicalKey (address : Address) : JsString := address.namespace_ ++ 0 :: address.key

namespace StorageState

def empty [UsageSum Use] : StorageState Body Val Use := ⟨[], [], [], [], [], ⟨0, UsageSum.emptyUsage⟩, 1⟩

def validation (s : StorageState Body Val Use) : CommitValidationState where
  hasEntryOrUsageId id := s.entries.has id || s.usage.has id
  hasEntryId id := s.entries.has id

def validateCommitted (s : StorageState Body Val Use) (writes : List (CommittedWrite Body Val Use)) :
    Except StorageError Unit :=
  validateCommittedWrites writes s.nextSeq s.validation

def prepareCommit (s : StorageState Body Val Use) (writes : List (Write Body Val Use)) (timestamp : Nat) :
    Except StorageError (List (CommittedWrite Body Val Use)) :=
  let prepared := prepareStorageCommit writes s.nextSeq timestamp
  match s.validateCommitted prepared with
  | .ok () => .ok prepared
  | .error error => .error error

/-! ## Application -/

def insertEntry (s : StorageState Body Val Use) (entry : Entry Body) : StorageState Body Val Use :=
  { s with
    entries := s.entries.set entry.id entry
    entriesBySeq := s.entriesBySeq ++ [entry]
    stats := if entry.type = .message then { s.stats with messageCount := s.stats.messageCount + 1 } else s.stats }

def insertUsage [UsageSum Use] (s : StorageState Body Val Use) (row : UsageRow Val Use) : StorageState Body Val Use :=
  { s with
    usage := s.usage.set row.id row
    stats := { s.stats with usage := UsageSum.addUsage s.stats.usage row.usage } }

/-- `applyValueSetOrListAppend` of a value; `value` checks the address. -/
def setScalar (s : StorageState Body Val Use) (seq : Nat) (address : Address) (value : Val) :
    Except StorageError (StorageState Body Val Use) :=
  match address.validateAddress with
  | .ok () => .ok { s with scalarValues := s.scalarValues.set address.physicalKey ⟨address, value, seq⟩ }
  | .error error => .error error

/-- `applyValueSetOrListAppend` of a list element; `list` checks the address of a list that is new. -/
def appendElement (s : StorageState Body Val Use) (seq : Nat) (address : Address) (value : Val) :
    Except StorageError (StorageState Body Val Use) :=
  match s.listValues.get address.physicalKey with
  | some stored =>
    let elements := stored.elements ++ [⟨seq, value⟩]
    .ok { s with listValues := s.listValues.set address.physicalKey { stored with elements := elements } }
  | none =>
    match address.validateAddress with
    | .ok () => .ok { s with listValues := s.listValues.set address.physicalKey ⟨address, [⟨seq, value⟩]⟩ }
    | .error error => .error error

/-- The `switch` of `applyValidated`. -/
def applyKind [UsageSum Use] (s : StorageState Body Val Use) :
    CommittedWrite Body Val Use → Except StorageError (StorageState Body Val Use)
  | .entry entry => .ok (s.insertEntry entry)
  | .usage row => .ok (s.insertUsage row)
  | .setValue seq address value => s.setScalar seq address value
  | .deleteValue _ address => .ok { s with scalarValues := s.scalarValues.delete address.physicalKey }
  | .appendList seq address value => s.appendElement seq address value
  | .deleteList _ address => .ok { s with listValues := s.listValues.delete address.physicalKey }

/-- One write of the loop. -/
def applyWrite [UsageSum Use] (s : StorageState Body Val Use) (write : CommittedWrite Body Val Use) :
    Except StorageError (StorageState Body Val Use) :=
  match s.applyKind write with
  | .ok s => .ok { s with nextSeq := nearestDouble (write.seq + 1) }
  | .error error => .error error

/-- The state after the loop, and the error that ended it early. -/
def applyValidated [UsageSum Use] (s : StorageState Body Val Use) :
    List (CommittedWrite Body Val Use) → StorageState Body Val Use × Option StorageError
  | [] => (s, none)
  | write :: writes =>
    match s.applyWrite write with
    | .ok s => s.applyValidated writes
    | .error error => (s, some error)

/-! ## Reading -/

def getValue (s : StorageState Body Val Use) (address : Address) : Option (StoredValue Val) :=
  s.scalarValues.get address.physicalKey

end StorageState

inductive ScanOrder where
  | newestFirst
  | oldestFirst
  deriving DecidableEq, Repr

/-- A number given as a limit; below zero all numbers act alike. -/
inductive Limit where
  | finite (value : Rat)
  | infinite
  | notANumber
  deriving DecidableEq, Repr

/-- `slice(0, Math.max(0, limit))` -/
def Limit.slice {α : Type} (l : List α) : Limit → List α
  | .finite value => if value ≤ 0 then [] else l.take value.floor.toNat
  | .infinite => l
  | .notANumber => []

/-- `StorageBranchScan` -/
structure BranchScan where
  start : JsString
  order : ScanOrder
  stopAtId : Option JsString
  stopAtType : Option EntryType
  type : Option EntryType
  customType : Option JsString
  cursor : Option Nat
  limit : Option Limit

inductive BranchError where
  | unknownStart (start : JsString)
  | corruptBranch
  deriving DecidableEq, Repr

def BranchError.message : BranchError → JsString
  | .unknownStart start => JsText.ofString "Unknown branch start: " ++ start
  | .corruptBranch => JsText.ofString "Corrupt branch: missing parent"

namespace BranchScan

def stopsAt (query : BranchScan) (candidate : Entry Body) : Bool :=
  some candidate.id = query.stopAtId || some candidate.type = query.stopAtType

/-- The loop that copies candidates up to the first that stops the scan. -/
def takeStopped (query : BranchScan) (path : List (Entry Body)) : List (Entry Body) :=
  SegmentScan.takeThrough query.stopsAt path

def afterCursor (query : BranchScan) (candidate : Entry Body) : Bool :=
  match query.cursor with
  | none => true
  | some seq =>
    match query.order with
    | .oldestFirst => candidate.seq > seq
    | .newestFirst => candidate.seq < seq

def matches_ (query : BranchScan) (candidate : Entry Body) : Bool :=
  (query.type = none || some candidate.type = query.type) &&
    (query.customType = none || candidate.customType = query.customType) && query.afterCursor candidate

/-- What `scanBranch` makes of the path from the start to the root. -/
def select (query : BranchScan) (path : List (Entry Body)) : List (Entry Body) :=
  let ordered :=
    match query.order with
    | .oldestFirst => path.reverse
    | .newestFirst => path
  let filtered := (query.takeStopped ordered).filter query.matches_
  match query.limit with
  | none => filtered
  | some limit => limit.slice filtered

end BranchScan

namespace StorageState

/-- The `while` loop of `scanBranch`; nothing when it is still running after `fuel` rounds. -/
def walk (s : StorageState Body Val Use) : Nat → Entry Body → Option (Except BranchError (List (Entry Body)))
  | 0, _ => none
  | fuel + 1, entry =>
    match entry.parentId with
    | none => some (.ok [entry])
    | some parentId =>
      match s.entries.get parentId with
      | none => some (.error .corruptBranch)
      | some parent => (s.walk fuel parent).map fun path => path.map (entry :: ·)

def scanBranch (s : StorageState Body Val Use) (fuel : Nat) (query : BranchScan) :
    Option (Except BranchError (List (Entry Body))) :=
  match s.entries.get query.start with
  | none => some (.error (.unknownStart query.start))
  | some start => (s.walk fuel start).map fun path => path.map query.select

end StorageState

end Shuvpi.SessionTree
