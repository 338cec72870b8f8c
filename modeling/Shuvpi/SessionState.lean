import Shuvpi.JsonText

/-!
# The state of a session storage

`commit.ts` and `InMemoryStorageState` of `agent/harness/session`: entries, scalar values,
lists and usage rows that are changed by numbered writes only. A write that is committed
is the JavaScript object that goes into the file, and the state is read from these objects
by their fields, as in the source, which casts what it parses. Sums of usage are
floating-point sums; the state lists the summands in the order in which they are added.
-/
open List Option

namespace Shuvpi.Session

open JsText (ofString)
open JsonText (Preserved)

/-! ## Objects -/

abbrev JsObject := JsProps Json

def text (s : String) : Json := .string (ofString s)

def number (n : Nat) : Json := .number (JsNumber.ofInt n)

def field (o : JsObject) (name : String) : Option Json := JsProps.get? o (ofString name)

def textField (o : JsObject) (name : String) : Option JsString :=
  match field o name with
  | some (.string s) => some s
  | _ => none

def put (o : JsObject) (name : String) (value : Json) : JsObject := JsProps.define o (ofString name) value

/-- `{ ...o, ...source }` -/
def spread (o source : JsObject) : JsObject := source.foldl (fun o p => JsProps.define o p.1 p.2) o

/-- The fields of a new entry or usage row; `kind` is not one of them. -/
structure NewRow where
  props : JsObject
  unkinded : field props "kind" = none

/-! ## Writes -/

inductive Write where
  | entry (entry : NewRow)
  | usage (row : NewRow)
  | setValue (namespace_ key : JsString) (value : Json)
  | deleteValue (namespace_ key : JsString)
  | appendList (namespace_ key : JsString) (value : Json)
  | deleteList (namespace_ key : JsString)

abbrev CommittedWrite := JsObject

/-- The fields of a value or list write up to its key. -/
def addressed (kind op : String) (seq : Nat) (namespace_ key : JsString) : JsObject :=
  put (put (put (put (put [] "kind" (text kind)) "op" (text op)) "seq" (number seq)) "namespace" (.string namespace_)) "key"
    (.string key)

def commitWrite (write : Write) (seq timestamp : Nat) : CommittedWrite :=
  match write with
  | .entry entry =>
    put (put (spread (put [] "kind" (text "entry")) entry.props) "seq" (number seq)) "timestamp" (number timestamp)
  | .usage row => put (spread (put [] "kind" (text "usage")) row.props) "seq" (number seq)
  | .setValue namespace_ key value => put (addressed "value" "set" seq namespace_ key) "value" value
  | .deleteValue namespace_ key => addressed "value" "delete" seq namespace_ key
  | .appendList namespace_ key value => put (addressed "list" "append" seq namespace_ key) "value" value
  | .deleteList namespace_ key => addressed "list" "delete" seq namespace_ key

/-- `write.seq`, a safe integer wherever it is read. -/
def seqOf (write : CommittedWrite) : Nat :=
  match field write "seq" with
  | some (.number x) => x.toInt.toNat
  | _ => 0

inductive WriteKind where
  | entry
  | usage
  | value
  | list
  deriving DecidableEq, Repr

def kindOf (write : CommittedWrite) : Option WriteKind :=
  if textField write "kind" = some (ofString "entry") then some .entry
  else if textField write "kind" = some (ofString "usage") then some .usage
  else if textField write "kind" = some (ofString "value") then some .value
  else if textField write "kind" = some (ofString "list") then some .list
  else none

def opIs (write : CommittedWrite) (op : String) : Bool := textField write "op" = some (ofString op)

/-! ## The state -/

/-- A map of the program: a key keeps the place where it was first set. -/
def mapSet {κ α : Type} [DecidableEq κ] (m : List (κ × α)) (key : κ) (value : α) : List (κ × α) :=
  if m.any (fun p => p.1 = key) then m.map fun p => if p.1 = key then (key, value) else p else m ++ [(key, value)]

def mapDelete {κ α : Type} [DecidableEq κ] (m : List (κ × α)) (key : κ) : List (κ × α) := m.filter fun p => p.1 ≠ key

def mapGet {κ α : Type} [DecidableEq κ] (m : List (κ × α)) (key : κ) : Option α :=
  (m.find? fun p => p.1 = key).map Prod.snd

structure StoredValue where
  namespace_ : Option JsString
  key : Option JsString
  value : Option Json
  seq : Nat

structure ListElement where
  seq : Nat
  value : Option Json

structure StoredList where
  namespace_ : Option JsString
  key : Option JsString
  elements : List ListElement

structure SessionStats where
  messageCount : Nat
  usage : List (Option Json)

structure StorageState where
  entries : List (Option JsString × JsObject)
  entriesBySeq : List JsObject
  scalarValues : List (JsString × StoredValue)
  listValues : List (JsString × StoredList)
  usage : List (Option JsString × JsObject)
  stats : SessionStats
  nextSeq : Nat

namespace StorageState

def empty : StorageState := ⟨[], [], [], [], [], ⟨0, []⟩, 1⟩

def hasEntryId (s : StorageState) (id : Option JsString) : Bool := s.entries.any fun p => p.1 = id

def hasEntryOrUsageId (s : StorageState) (id : Option JsString) : Bool :=
  s.hasEntryId id || s.usage.any fun p => p.1 = id

end StorageState

def physicalKey (write : CommittedWrite) : JsString :=
  (textField write "namespace").getD [] ++ 0 :: (textField write "key").getD []

/-! ## Validation -/

inductive StorageError where
  | nonMonotonic (seq : Nat)
  | duplicateId (id : Option JsString)
  | missingParent (parentId : JsString)
  | emptyNamespace
  | namespaceWithNul
  | keyWithNul
  /-- The namespace or the key is no string. -/
  | noAddress
  deriving DecidableEq, Repr

def StorageError.message : StorageError → JsString
  | .nonMonotonic seq => ofString "Non-monotonic storage sequence: " ++ Delta.decimal seq
  | .duplicateId id => ofString "Duplicate entry or usage id: " ++ id.getD (ofString "undefined")
  | .missingParent parentId => ofString "Missing parent entry: " ++ parentId
  | .emptyNamespace => ofString "Value namespace must not be empty"
  | .namespaceWithNul => ofString "Value namespace must not contain \\u0000"
  | .keyWithNul => ofString "Value key must not contain \\u0000"
  | .noAddress => ofString "Cannot read properties of undefined"

def validateAddress (namespace_ key : Option JsString) : Except StorageError Unit :=
  match namespace_, key with
  | some namespace_, some key =>
    if namespace_ = [] then .error .emptyNamespace
    else if 0 ∈ namespace_ then .error .namespaceWithNul
    else if 0 ∈ key then .error .keyWithNul
    else .ok ()
  | _, _ => .error .noAddress

/-- What the loop of `validateCommittedWrites` has seen. -/
structure Seen where
  previousSeq : Nat
  transactionIds : List (Option JsString)
  transactionEntryIds : List (Option JsString)

def missingParent? (s : StorageState) (seen : Seen) (write : CommittedWrite) : Option JsString :=
  match textField write "parentId" with
  | some parentId =>
    if s.hasEntryId (some parentId) || seen.transactionEntryIds.contains (some parentId) then none else some parentId
  | none => none

/-- One write of the loop. -/
def validateWrite (s : StorageState) (seen : Seen) (write : CommittedWrite) : Except StorageError Seen :=
  if seqOf write ≤ seen.previousSeq then .error (.nonMonotonic (seqOf write))
  else
    let seen := { seen with previousSeq := seqOf write }
    let id := textField write "id"
    match kindOf write with
    | some .entry =>
      if s.hasEntryOrUsageId id || seen.transactionIds.contains id then .error (.duplicateId id)
      else
        match missingParent? s seen write with
        | some parentId => .error (.missingParent parentId)
        | none => .ok { seen with
            transactionIds := id :: seen.transactionIds
            transactionEntryIds := id :: seen.transactionEntryIds }
    | some .usage =>
      if s.hasEntryOrUsageId id || seen.transactionIds.contains id then .error (.duplicateId id)
      else .ok { seen with transactionIds := id :: seen.transactionIds }
    | _ => .ok seen

def validateWrites (s : StorageState) : Seen → List CommittedWrite → Except StorageError Seen
  | seen, [] => .ok seen
  | seen, write :: writes => do
    let seen ← validateWrite s seen write
    validateWrites s seen writes

namespace StorageState

/-- `validateCommittedWrites` with the first sequence the state would use. -/
def validateCommitted (s : StorageState) (writes : List CommittedWrite) : Except StorageError Unit := do
  let _ ← validateWrites s ⟨s.nextSeq - 1, [], []⟩ writes

/-- `prepareStorageCommit`: the writes are numbered from the next sequence on. -/
def prepareStorageCommit (writes : List Write) (firstSeq timestamp : Nat) : List CommittedWrite :=
  writes.mapIdx fun index write => commitWrite write (firstSeq + index) timestamp

def prepareCommit (s : StorageState) (writes : List Write) (timestamp : Nat) :
    Except StorageError (List CommittedWrite) := do
  let prepared := prepareStorageCommit writes s.nextSeq timestamp
  s.validateCommitted prepared
  return prepared

/-! ## Application -/

def setScalar (s : StorageState) (write : CommittedWrite) : StorageState :=
  let stored : StoredValue := ⟨textField write "namespace", textField write "key", field write "value", seqOf write⟩
  { s with scalarValues := mapSet s.scalarValues (physicalKey write) stored }

def appendElement (s : StorageState) (write : CommittedWrite) : StorageState :=
  let element : ListElement := ⟨seqOf write, field write "value"⟩
  let stored :=
    match mapGet s.listValues (physicalKey write) with
    | none => ⟨textField write "namespace", textField write "key", [element]⟩
    | some stored => { stored with elements := stored.elements ++ [element] }
  { s with listValues := mapSet s.listValues (physicalKey write) stored }

def insertEntry (s : StorageState) (write : CommittedWrite) : StorageState :=
  let entry := JsProps.erase write (ofString "kind")
  { s with
    entries := mapSet s.entries (textField write "id") entry
    entriesBySeq := s.entriesBySeq ++ [entry]
    stats := if textField write "type" = some (ofString "message") then
        { s.stats with messageCount := s.stats.messageCount + 1 }
      else s.stats }

def insertUsage (s : StorageState) (write : CommittedWrite) : StorageState :=
  { s with
    usage := mapSet s.usage (textField write "id") (JsProps.erase write (ofString "kind"))
    stats := { s.stats with usage := s.stats.usage ++ [field write "usage"] } }

/-- What a write of the loop of `applyValidated` changes. -/
def applyWrite (s : StorageState) (write : CommittedWrite) : StorageState :=
  let s :=
    match kindOf write with
    | some .entry => s.insertEntry write
    | some .usage => s.insertUsage write
    | some .value =>
      if opIs write "delete" then { s with scalarValues := mapDelete s.scalarValues (physicalKey write) }
      else s.setScalar write
    | some .list =>
      if opIs write "delete" then { s with listValues := mapDelete s.listValues (physicalKey write) }
      else s.appendElement write
    | none => s
  { s with nextSeq := seqOf write + 1 }

/-- `value` and `list` check the address where a scalar is set and where a list is new. -/
def checkAddress (s : StorageState) (write : CommittedWrite) : Except StorageError Unit :=
  let address := validateAddress (textField write "namespace") (textField write "key")
  match kindOf write with
  | some .value => if opIs write "delete" then .ok () else address
  | some .list =>
    if opIs write "delete" then .ok ()
    else if (mapGet s.listValues (physicalKey write)).isSome then .ok ()
    else address
  | _ => .ok ()

/-- The state after the loop, and the error that ended it early. -/
def applyValidated (s : StorageState) : List CommittedWrite → StorageState × Option StorageError
  | [] => (s, none)
  | write :: writes =>
    match s.checkAddress write with
    | .ok () => (s.applyWrite write).applyValidated writes
    | .error error => (s, some error)

/-- `replayCommitted` -/
def replayCommitted (s : StorageState) (writes : List CommittedWrite) : Except StorageError StorageState := do
  s.validateCommitted writes
  match s.applyValidated writes with
  | (s, none) => return s
  | (_, some error) => .error error

/-- The writes one after the other, where no address is checked. -/
def applyWrites (s : StorageState) (writes : List CommittedWrite) : StorageState := writes.foldl applyWrite s

def advanceNextSeq (s : StorageState) (nextSeq : Nat) : StorageState := { s with nextSeq := max s.nextSeq nextSeq }

end StorageState

/-! ## Objects of JSON data -/

/-- An object of JSON data. -/
structure IsData (o : JsObject) : Prop where
  wf : o.Wf
  preserved : ∀ p ∈ o, Preserved p.2

theorem isData_nil : IsData [] := ⟨JsProps.wf_nil, by simp⟩

variable {o : JsObject} {value : Json}

theorem mem_define {key : JsString} {p : JsString × Json}
    (h : p ∈ JsProps.define o key value) : p ∈ o ∨ p = (key, value) := by
  rw [JsProps.define] at h
  split at h
  · obtain ⟨q, hq, he⟩ := mem_map.mp h
    split at he
    · exact .inr he.symm
    · exact .inl (he ▸ hq)
  · rcases mem_cons.mp ((JsProps.insertNew_perm o key value).mem_iff.mp h) with he | hmem
    · exact .inr he
    · exact .inl hmem

theorem IsData.define (h : IsData o) (key : JsString) (hv : Preserved value) :
    IsData (JsProps.define o key value) := by
  refine ⟨JsProps.define_wf o key value h.wf, ?_⟩
  intro p hp
  rcases mem_define hp with hp | rfl
  · exact h.preserved p hp
  · exact hv

theorem IsData.put (h : IsData o) (name : String) (hv : Preserved value) :
    IsData (put o name value) := h.define (ofString name) hv

theorem IsData.spread (h : IsData o) {source : JsObject} (hs : ∀ p ∈ source, Preserved p.2) :
    IsData (spread o source) := by
  rw [Session.spread]
  induction source generalizing o with
  | nil => exact h
  | cons p source ih =>
    rw [foldl_cons]
    exact ih (h.define p.1 (hs p mem_cons_self)) fun q hq => hs q (mem_cons_of_mem _ hq)

theorem field_put (o : JsObject) (name name' : String) (value : Json) :
    field (put o name value) name' = if ofString name = ofString name' then some value else field o name' := by
  rw [field, put, JsProps.get?_define]
  rfl

theorem field_spread {o source : JsObject} {name : String} (h : field source name = none) :
    field (spread o source) name = field o name := by
  rw [Session.spread]
  induction source generalizing o with
  | nil => rfl
  | cons p source ih =>
    rw [field, JsProps.get?_cons] at h
    have hne : p.1 ≠ ofString name := by
      intro he
      rw [if_pos he] at h
      cases h
    rw [if_neg hne] at h
    rw [foldl_cons, ih h, field, JsProps.get?_define, if_neg hne]
    rfl

theorem preserved_text (s : String) : Preserved (text s) := .string _

theorem isFinite_of_safe {x : JsNumber} (h : x.isSafeInteger = true) : x.isFinite = true := by
  simp only [JsNumber.isSafeInteger, JsNumber.isInteger, Bool.and_eq_true] at h
  exact h.1.1

theorem preserved_number {n : Nat} (h : n ≤ JsNumber.MAX_SAFE_INTEGER) : Preserved (number n) := by
  obtain ⟨hsafe, _, hzero⟩ := JsNumber.ofInt_denotes n (by simpa using h)
  exact .number (isFinite_of_safe hsafe) hzero

/-! ## What a committed write says -/

theorem addressed_data (kind op : String) {seq : Nat} (hseq : seq ≤ JsNumber.MAX_SAFE_INTEGER) (namespace_ key : JsString) :
    IsData (addressed kind op seq namespace_ key) :=
  ((((isData_nil.put _ (preserved_text _)).put _ (preserved_text _)).put _ (preserved_number hseq)).put _
    (.string _)).put _ (.string _)

variable (write : Write)

/-- The write can be stored: its address is valid, and JSON keeps its values. -/
def Write.Storable : Write → Prop
  | .entry new => ∀ p ∈ new.props, Preserved p.2
  | .usage new => ∀ p ∈ new.props, Preserved p.2
  | .setValue namespace_ key value => validateAddress (some namespace_) (some key) = .ok () ∧ Preserved value
  | .appendList namespace_ key value => validateAddress (some namespace_) (some key) = .ok () ∧ Preserved value
  | .deleteValue _ _ => True
  | .deleteList _ _ => True

variable {write} in
theorem commitWrite_data (h : write.Storable) {seq timestamp : Nat} (hseq : seq ≤ JsNumber.MAX_SAFE_INTEGER)
    (htime : timestamp ≤ JsNumber.MAX_SAFE_INTEGER) : IsData (commitWrite write seq timestamp) := by
  cases write with
  | entry entry =>
    exact (((isData_nil.put _ (preserved_text _)).spread h).put _ (preserved_number hseq)).put _
      (preserved_number htime)
  | usage row => exact ((isData_nil.put _ (preserved_text _)).spread h).put _ (preserved_number hseq)
  | setValue namespace_ key value => exact (addressed_data _ _ hseq namespace_ key).put _ h.2
  | deleteValue namespace_ key => exact addressed_data _ _ hseq namespace_ key
  | appendList namespace_ key value => exact (addressed_data _ _ hseq namespace_ key).put _ h.2
  | deleteList namespace_ key => exact addressed_data _ _ hseq namespace_ key

theorem commitWrite_seq (seq timestamp : Nat) :
    field (commitWrite write seq timestamp) "seq" = some (number seq) := by
  have h₁ : ofString "timestamp" ≠ ofString "seq" := by decide
  have h₂ : ofString "value" ≠ ofString "seq" := by decide
  have h₃ : ofString "key" ≠ ofString "seq" := by decide
  have h₄ : ofString "namespace" ≠ ofString "seq" := by decide
  cases write <;> simp only [commitWrite, addressed, field_put, if_true, if_neg h₁, if_neg h₂, if_neg h₃, if_neg h₄]

theorem seqOf_commitWrite {seq : Nat} (hseq : seq ≤ JsNumber.MAX_SAFE_INTEGER) (timestamp : Nat) :
    seqOf (commitWrite write seq timestamp) = seq := by
  obtain ⟨_, hvalue, _⟩ := JsNumber.ofInt_denotes seq (by simpa using hseq)
  simp only [seqOf, commitWrite_seq, number]
  rw [hvalue]
  exact Int.toNat_natCast seq

theorem commitWrite_timestamp (entry : NewRow) (seq timestamp : Nat) :
    field (commitWrite (.entry entry) seq timestamp) "timestamp" = some (number timestamp) := by
  simp only [commitWrite, field_put, if_true]

/-- The kind of a write, and the operation of a value or list write. -/
def Write.kind : Write → WriteKind
  | .entry _ => .entry
  | .usage _ => .usage
  | .setValue _ _ _ => .value
  | .deleteValue _ _ => .value
  | .appendList _ _ _ => .list
  | .deleteList _ _ => .list

theorem commitWrite_kind (seq timestamp : Nat) :
    kindOf (commitWrite write seq timestamp) = some write.kind := by
  have h₁ : ofString "timestamp" ≠ ofString "kind" := by decide
  have h₂ : ofString "seq" ≠ ofString "kind" := by decide
  have h₃ : ofString "value" ≠ ofString "kind" := by decide
  have h₄ : ofString "key" ≠ ofString "kind" := by decide
  have h₅ : ofString "namespace" ≠ ofString "kind" := by decide
  have h₆ : ofString "op" ≠ ofString "kind" := by decide
  have hentry : ofString "usage" ≠ ofString "entry" := by decide
  have hvalue : ofString "value" ≠ ofString "entry" := by decide
  have hvalue' : ofString "value" ≠ ofString "usage" := by decide
  have hlist : ofString "list" ≠ ofString "entry" := by decide
  have hlist' : ofString "list" ≠ ofString "usage" := by decide
  have hlist'' : ofString "list" ≠ ofString "value" := by decide
  cases write with
  | entry entry =>
    simp only [kindOf, textField, commitWrite, field_put, if_neg h₁, if_neg h₂, field_spread entry.unkinded, if_true, text,
      Write.kind]
  | usage row =>
    simp only [kindOf, textField, commitWrite, field_put, if_neg h₂, field_spread row.unkinded, if_true, text, some.injEq,
      hentry, if_false, Write.kind]
  | setValue namespace_ key value =>
    simp only [kindOf, textField, commitWrite, addressed, field_put, if_neg h₂, if_neg h₃, if_neg h₄, if_neg h₅, if_neg h₆,
      if_true, text, some.injEq, hvalue, hvalue', if_false, Write.kind]
  | deleteValue namespace_ key =>
    simp only [kindOf, textField, commitWrite, addressed, field_put, if_neg h₂, if_neg h₄, if_neg h₅, if_neg h₆, if_true,
      text, some.injEq, hvalue, hvalue', if_false, Write.kind]
  | appendList namespace_ key value =>
    simp only [kindOf, textField, commitWrite, addressed, field_put, if_neg h₂, if_neg h₃, if_neg h₄, if_neg h₅, if_neg h₆,
      if_true, text, some.injEq, hlist, hlist', hlist'', if_false, Write.kind]
  | deleteList namespace_ key =>
    simp only [kindOf, textField, commitWrite, addressed, field_put, if_neg h₂, if_neg h₄, if_neg h₅, if_neg h₆, if_true,
      text, some.injEq, hlist, hlist', hlist'', if_false, Write.kind]

end Shuvpi.Session
