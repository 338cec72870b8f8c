import Shuvpi.SessionState

/-!
# The JSONL session storage

`JsonlStorage` of `agent/harness/session/jsonl`: a header line and one line for each
transaction, appended before the state in memory is advanced. A file that ends in the
middle of a line loses that line when it is opened, and is rewritten without it. Files of
the older format, which a commit replaces by a file of this one, are left out.
-/
namespace Shuvpi.Jsonl

open JsText (ofString textEncode)
open JsonText (NumberFormat)
open Session TextFile

inductive JsonlError where
  | missingHeader
  | invalidHeader
  | unsupportedVersion
  | notJson
  | invalidWrite
  | invalidField (field : String)
  | invalidValueOperation
  | invalidListOperation
  | invalidKind
  | storage (error : StorageError)
  deriving DecidableEq, Repr

/-! ## Lines -/

/-- `Number.isSafeInteger(value) && value >= minimum` -/
def isSafeIntegerAtLeast (value : Option Json) (minimum : Nat) : Bool :=
  match value with
  | some (.number x) => x.isSafeInteger && minimum ≤ x.toInt
  | _ => false

def requireSafeInteger (value : Option Json) (field : String) (minimum : Nat) : Except JsonlError Unit :=
  if isSafeIntegerAtLeast value minimum then .ok () else .error (.invalidField field)

def parseCommittedWrite : Json → Except JsonlError CommittedWrite
  | .object value => do
    requireSafeInteger (field value "seq") "write seq" 1
    match kindOf value with
    | some .entry =>
      requireSafeInteger (field value "timestamp") "entry timestamp" 0
      return value
    | some .usage => return value
    | some .value => if opIs value "set" || opIs value "delete" then return value else .error .invalidValueOperation
    | some .list => if opIs value "append" || opIs value "delete" then return value else .error .invalidListOperation
    | none => .error .invalidKind
  | _ => .error .invalidWrite

section Numbers

variable (numbers : NumberFormat)

def parseJsonlTransaction (line : JsString) : Except JsonlError (List CommittedWrite) :=
  match JsonText.parse numbers line with
  | none => .error .notJson
  | some (.array values) => values.mapM parseCommittedWrite
  | some value => [value].mapM parseCommittedWrite

def serializeJsonlTransaction : List CommittedWrite → JsString
  | [write] => JsonText.stringify numbers (.object write)
  | writes => JsonText.stringify numbers (.array (writes.map .object))

/-! ## The header -/

def isTextOrAbsent (value : Option Json) : Bool :=
  match value with
  | none => true
  | some (.string _) => true
  | some _ => false

def numberIs (value : Option Json) (n : Nat) : Bool :=
  match value with
  | some (.number x) => x = JsNumber.ofInt n
  | _ => false

def JSONL_FORMAT_VERSION : Nat := 4
def JSONL_STORAGE_VERSION : Nat := 1

def isJsonlStorageHeader (value : JsObject) : Bool :=
  textField value "kind" = some (ofString "header") && numberIs (field value "v") JSONL_FORMAT_VERSION &&
    (textField value "id").isSome && (textField value "cwd").isSome && isSafeIntegerAtLeast (field value "storageVersion") 1 &&
    isSafeIntegerAtLeast (field value "createdAt") 0 &&
    ((field value "nextSeq").isNone || isSafeIntegerAtLeast (field value "nextSeq") 1) &&
    isTextOrAbsent (field value "parentSessionId") && isTextOrAbsent (field value "legacyParentSessionPath")

/-- `readJsonlHeader`, from the first line of the file. -/
def readJsonlHeader (content : JsString) : Except JsonlError JsObject :=
  let line := content.takeWhile (· ≠ 10)
  if (10 : UInt16) ∉ content ∨ line = [] then .error .missingHeader
  else
    match JsonText.parse numbers line with
    | some (.object value) => if isJsonlStorageHeader value then .ok value else .error .invalidHeader
    | _ => .error .invalidHeader

/-! ## The file -/

/-- The lines after the header, each one a transaction. -/
def replayLines : StorageState → List JsString → Except JsonlError StorageState
  | state, [] => .ok state
  | state, line :: lines => do
    let writes ← parseJsonlTransaction numbers line
    let state ← (state.replayCommitted writes).mapError .storage
    replayLines state lines

/-- The high-water mark that the header of a rewritten file has. -/
def headerNextSeq (header : JsObject) : Option Nat :=
  match field header "nextSeq" with
  | some (.number x) => some x.toInt.toNat
  | _ => none

def advance (state : StorageState) (header : JsObject) : StorageState :=
  match headerNextSeq header with
  | some nextSeq => state.advanceNextSeq nextSeq
  | none => state

/-- `JsonlStorage.open`: the state, and the file as it is left. -/
def openStorage (file : Bytes) : Except JsonlError (StorageState × Bytes) := do
  let content := readTextFile file
  let header ← readJsonlHeader numbers content
  let (lines, torn) := splitCompleteLines content
  if numberIs (field header "storageVersion") JSONL_STORAGE_VERSION = false then .error .unsupportedVersion
  else
    let state ← replayLines numbers .empty lines.tail
    return (advance state header, if torn then textEncode ([10].intercalate lines ++ [10]) else file)

/-- What `appendFile` is given for a transaction. -/
def transactionBytes (writes : List CommittedWrite) : Bytes := textEncode (serializeJsonlTransaction numbers writes ++ [10])

/-- `publishJsonl` -/
def publishJsonl (header : JsObject) (transactions : List (List CommittedWrite)) : Bytes :=
  textEncode (JsonText.stringify numbers (.object header) ++ [10]) ++ transactions.flatMap (transactionBytes numbers)

end Numbers

/-! ## Runs -/

/-- How the append of a commit ends: it succeeds, it fails after so many bytes and the
process goes on, or the process dies after so many bytes. -/
inductive Append where
  | succeeds
  | fails (written : Nat)
  | crashes (written : Nat)
  deriving DecidableEq, Repr

/-- `storage` is the state of the process that has the file open. `kept` is what the file
must hold: the transactions that were acknowledged, and those that a crash found
written in full. -/
structure World where
  file : Bytes
  storage : Option StorageState
  kept : List (List CommittedWrite)

/-- A reading of the clock. -/
abbrev Timestamp := { t : Nat // t ≤ JsNumber.MAX_SAFE_INTEGER }

inductive Operation where
  | commit (writes : List Write) (now : Timestamp) (append : Append)
  | crash
  | reopen

section Runs

variable (numbers : NumberFormat)

/-- `applyCommit`, for a transaction that was prepared and is not empty. A commit that
throws while it is applied is not acknowledged. -/
def World.append (w : World) (state : StorageState) (prepared : List CommittedWrite) : Append → World
  | .succeeds =>
    let (state, error) := state.applyValidated prepared
    { file := w.file ++ transactionBytes numbers prepared
      storage := some state
      kept := if error = none then w.kept ++ [prepared] else w.kept }
  | .fails written => { w with file := w.file ++ (transactionBytes numbers prepared).take written }
  | .crashes written =>
    { file := w.file ++ (transactionBytes numbers prepared).take written
      storage := none
      kept := if (transactionBytes numbers prepared).length ≤ written then w.kept ++ [prepared] else w.kept }

def World.commit (w : World) (writes : List Write) (now : Timestamp) (append : Append) : World :=
  match w.storage with
  | none => w
  | some state =>
    match state.prepareCommit writes now.1 with
    | .error _ => w
    | .ok [] => w
    | .ok prepared => w.append numbers state prepared append

def World.reopen (w : World) : World :=
  match openStorage numbers w.file with
  | .ok (state, file) => { w with file := file, storage := some state }
  | .error _ => { w with storage := none }

def World.step (w : World) : Operation → World
  | .commit writes now append => w.commit numbers writes now append
  | .crash => { w with storage := none }
  | .reopen => w.reopen numbers

def World.steps (w : World) (operations : List Operation) : World :=
  operations.foldl (fun w operation => w.step numbers operation) w

end Runs

/-! ## The state that the transactions make -/

/-- The transactions applied in order, each as a whole. -/
def applyAll (transactions : List (List CommittedWrite)) : StorageState :=
  transactions.foldl StorageState.applyWrites .empty

def replayed (header : JsObject) (transactions : List (List CommittedWrite)) : StorageState :=
  advance (applyAll transactions) header

/-- The file can be opened, and the state is that of the kept transactions; so is the
state in memory. -/
def World.Durable (numbers : NumberFormat) (header : JsObject) (w : World) : Prop :=
  (∃ file, openStorage numbers w.file = .ok (replayed header w.kept, file)) ∧
    ∀ state, w.storage = some state → state = replayed header w.kept

end Shuvpi.Jsonl
