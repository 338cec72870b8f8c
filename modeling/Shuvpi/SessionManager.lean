import Shuvpi.SessionEntries

/-!
# The session manager

`SessionManager` of `core/session-manager.ts`: its entries, its indexes and the file that it
keeps. Writing is put off until the first assistant message, then the whole session is
written at once, and every later entry is appended. `numbers` is how JSON writes numbers,
and `projectedSystem` the system message of the projection that a compaction stores.
-/
namespace Shuvpi.SessionFile

open JsText (ofString)
open JsText (textEncode)
open JsonText (stringify parse)
open TextFile (readTextFile)
open Transcript (JsonNumbers Plain wire)

section Files
variable (numbers : JsonNumbers)

/-! ## The file -/

/-- White space and line terminators of ECMAScript. -/
def isBlank (u : UInt16) : Bool :=
  let n := u.toNat
  (9 ≤ n && n ≤ 13) || n = 32 || n = 0xa0 || n = 0x1680 || (0x2000 ≤ n && n ≤ 0x200a) ||
    n = 0x2028 || n = 0x2029 || n = 0x202f || n = 0x205f || n = 0x3000 || n = 0xfeff

def trim (s : JsString) : JsString := (s.dropWhile isBlank).rdropWhile isBlank

/-- Whether `if (entry)` holds of a parsed line. -/
def truthy : Json → Bool
  | .null => false
  | .boolean b => b
  | .number x => x.isFinite && x.significand ≠ 0 || !x.isFinite && x.fraction = 0
  | .string s => s ≠ []
  | .array _ => true
  | .object _ => true

def parseSessionEntryLine (line : JsString) : Option Json :=
  if trim line = [] then none
  else (parse numbers.toNumberFormat line).filter truthy

/-- The header check of `loadEntriesFromFile`. -/
def isHeader (v : Json) : Bool := isKind v "session" && (stringField v "id").isSome

/-- The entries of a file, and the file after the repair of its last line. -/
def loadEntriesFromFile (content : Bytes) : List Json × Bytes :=
  let lines := (readTextFile content).splitOn 10
  let entries := lines.filterMap (parseSessionEntryLine numbers)
  match entries with
  | [] => ([], content)
  | header :: _ =>
    if isHeader header then
      (entries, if lines.getLast?.getD [] = [] then content else content ++ textEncode [10])
    else ([], content)

/-- `${JSON.stringify(entry)}\n` -/
def lineOf (entry : Json) : Bytes := textEncode (stringify numbers.toNumberFormat entry ++ [10])

/-- The file that `_rewriteFile` writes. -/
def linesOf (entries : List Json) : Bytes := entries.flatMap (lineOf numbers)

/-! ## Migration -/

/-- `version < n` for a version that is a number; one that is missing is 1. -/
def versionBelow (header : Json) (n : Nat) : Bool :=
  match field header "version" with
  | some (.number x) => x.negative ||
      (x.isFinite && x.significand * 2 ^ (x.scale - 1075) < n * 2 ^ (1075 - x.scale))
  | _ => 1 < n

/-- The entry that an index property names. -/
def entryAt (entries : List Json) : Json → Option Json
  | .number x => if x.isInteger && 0 ≤ x.toInt then entries[x.toInt.toNat]? else none
  | _ => none

/-- `firstKeptEntryIndex` becomes `firstKeptEntryId`; `entries` is the list as it stands. -/
def migrateCompaction (entries : List Json) (entry : Json) : Json :=
  match field entry "firstKeptEntryIndex" with
  | some (.number x) =>
    let kept := match entryAt entries (.number x) with
      | none => entry
      | some target =>
        if isKind target "session" then entry
        else match field target "id" with
          | some id => setField entry "firstKeptEntryId" id
          | none => deleteField entry "firstKeptEntryId"
    deleteField kept "firstKeptEntryIndex"
  | _ => entry

/-- The loop of `migrateV1ToV2` over `rest`; the set of ids that it passes to `generateId`
stays empty. `done` are the entries before, in their order. -/
def migrateV1From (randomUUID : Nat → JsString) : List Json → Option JsString → Nat → List Json → List Json
  | done, _, _, [] => done
  | done, prevId, drawn, entry :: rest =>
    if isKind entry "session" then
      migrateV1From randomUUID (done ++ [setField entry "version" (.number (JsNumber.ofInt 2))]) prevId
        drawn rest
    else
      let entryId := generateId (fun _ => false) fun i => randomUUID (drawn + i)
      let chained := setField (setField entry "id" (.string entryId)) "parentId" (strOrNull prevId).1
      let migrated :=
        if isKind chained "compaction" then migrateCompaction (done ++ chained :: rest) chained
        else chained
      migrateV1From randomUUID (done ++ [migrated]) (some entryId) (drawn + 1) rest

def migrateV1ToV2 (randomUUID : Nat → JsString) (entries : List Json) : List Json :=
  migrateV1From randomUUID [] none 0 entries

def migrateV2Entry (entry : Json) : Json :=
  if isKind entry "session" then setField entry "version" (.number CURRENT_SESSION_VERSION)
  else if isMessageOf entry "hookMessage" then
    match field entry "message" with
    | some message => setField entry "message" (setField message "role" (.string (ofString "custom")))
    | none => entry
  else entry

def migrateV2ToV3 (entries : List Json) : List Json := entries.map migrateV2Entry

/-- The migrated entries, unless the version is the current one. -/
def migrateToCurrentVersion (randomUUID : Nat → JsString) (entries : List Json) : Option (List Json) :=
  let header := (entries.find? fun e => isKind e "session").getD .null
  if !versionBelow header 3 then none
  else
    let entries := if versionBelow header 2 then migrateV1ToV2 randomUUID entries else entries
    some (migrateV2ToV3 entries)

end Files

/-! ## The manager -/

/-- The part of the manager that `_buildIndex` computes. -/
structure Index where
  byId : JsMap JsString Json
  labelsById : JsMap JsString JsString
  labelTimestampsById : JsMap JsString JsString
  leafId : Option JsString

def Index.empty : Index := ⟨[], [], [], none⟩

/-- A label is set, or cleared when there is none or an empty one. -/
def Index.setLabel (index : Index) (targetId : JsString) (label : Option JsString)
    (timestamp : JsString) : Index :=
  let label := label.getD []
  if label ≠ [] then
    { index with
      labelsById := JsMap.set index.labelsById targetId label
      labelTimestampsById := JsMap.set index.labelTimestampsById targetId timestamp }
  else
    { index with
      labelsById := JsMap.delete index.labelsById targetId
      labelTimestampsById := JsMap.delete index.labelTimestampsById targetId }

def Index.enter (index : Index) (entry : Json) : Index :=
  { index with byId := JsMap.set index.byId (idOf entry) entry, leafId := some (idOf entry) }

/-- The body of the loop of `_buildIndex`. -/
def Index.add (index : Index) (entry : Json) : Index :=
  if isKind entry "session" then index
  else if isKind entry "label" then
    (index.enter entry).setLabel ((stringField entry "targetId").getD []) (stringField entry "label")
      ((stringField entry "timestamp").getD [])
  else index.enter entry

def buildIndex (fileEntries : List Json) : Index := fileEntries.foldl Index.add .empty

structure SessionManager where
  flushed : Bool
  fileEntries : List Json
  index : Index

/-- The manager and the file of its session, if it is there. `refused` is the place of the
first entry for which `JSON.stringify` throws. -/
structure World where
  manager : SessionManager
  file : Option Bytes
  refused : Option Nat

def SessionManager.getEntries (m : SessionManager) : List Json := m.fileEntries.filter fun e => !isKind e "session"

def SessionManager.hasAssistant (m : SessionManager) : Bool := m.fileEntries.any fun e => isMessageOf e "assistant"

def newSession (header : SessionHeader) : SessionManager where
  flushed := false
  fileEntries := [objectOf (headerFields header)]
  index := .empty

/-- The clock and the random source of an operation. -/
structure Moment where
  timestamp : JsString
  time : JsNumber
  randomUUID : Nat → JsString
  /-- The header of the session that `open` makes when it finds none. -/
  header : SessionHeader

section Manager
variable (numbers : JsonNumbers)

def World.appendLine (w : World) : Option Bytes → World × Bool
  | some line => ({ w with file := some (w.file.getD [] ++ line) }, true)
  | none => (w, false)

/-- Whether the write succeeds: the file of a first write must not be there, and there must
be a line for the entry, in a first write for all entries. -/
def persist (w : World) (line : Option Bytes) : World × Bool :=
  if !w.manager.hasAssistant then
    if w.manager.flushed then w.appendLine line
    else (w, true)
  else if !w.manager.flushed then
    if w.file.isSome then (w, false)
    else
      match w.refused with
      | none => ({ w with
          manager := { w.manager with flushed := true }
          file := some (linesOf numbers w.manager.fileEntries) }, true)
      | some n => ({ w with file := some (linesOf numbers (w.manager.fileEntries.take n)) }, false)
  else w.appendLine line

/-- The entry is in memory before it is written. -/
def World.push (w : World) (entry : Json) : World :=
  { w with manager := { w.manager with
    fileEntries := w.manager.fileEntries ++ [entry]
    index := w.manager.index.enter entry } }

def appendEntry (w : World) (entry : Json) : World × Bool := persist numbers (w.push entry) (some (lineOf numbers entry))

/-- `_appendEntry` of an entry for which `JSON.stringify` throws. -/
def appendRefused (w : World) (entry : Json) : World × Bool :=
  persist numbers { w.push entry with refused := w.refused.or (some w.manager.fileEntries.length) } none

/-- `_loadEntries` of entries that have a header. -/
def loadEntries (m : Moment) (file : Bytes) (entries : List Json) : World :=
  match migrateToCurrentVersion m.randomUUID entries with
  | none => ⟨⟨true, entries, buildIndex entries⟩, file, none⟩
  | some entries => ⟨⟨true, entries, buildIndex entries⟩, linesOf numbers entries, none⟩

/-- `SessionManager.open`, and `create` where there is no file; it throws on a file that is
not a session. -/
def openSession (m : Moment) : Option Bytes → Option World
  | none => some ⟨newSession m.header, none, none⟩
  | some content =>
    match loadEntriesFromFile numbers content with
    | ([], _) =>
      if content ≠ [] then none
      else
        let fresh := newSession m.header
        some ⟨{ fresh with flushed := true }, some (linesOf numbers fresh.fileEntries), none⟩
    | (entries, repaired) => some (loadEntries numbers m repaired entries)

/-- The walk of `getBranch`, leaf first; a walk of more steps than there are entries is in a
cycle and does not end. -/
def walkFrom (byId : JsMap JsString Json) : Nat → Option JsString → List Json
  | 0, _ => []
  | _, none => []
  | steps + 1, some id =>
    if id = [] then []
    else match JsMap.get byId id with
      | none => []
      | some entry => entry :: walkFrom byId steps (parentOf entry)

def SessionManager.getBranch (m : SessionManager) : List Json :=
  walkFrom m.index.byId m.index.byId.length m.index.leafId

/-! ## Operations -/

/-- A value that is passed is JSON data. In `appendRefused` one is not, and `JSON.stringify`
throws, as it does for a `BigInt` or a cycle: an entry of that kind, with its other fields. -/
inductive SessionOp where
  | appendMessage (message : Value)
  | appendThinkingLevelChange (thinkingLevel : JsString)
  | appendModelChange (provider modelId : JsString)
  | appendUsage (kind provider model : JsString) (usage : Value) (note : JsString)
  | appendCompaction (summary : JsString) (firstKeptEntryId : Option JsString)
      (tokensBefore : JsNumber) (details : Option Value) (fromHook : Option Bool)
      (usage : Option Value)
  | appendCustomEntry (customType : JsString) (data : Option Value)
  | appendSessionInfo (name : JsString)
  | appendCustomMessageEntry (customType : JsString) (content : Value) (display : Bool)
      (details : Option Value)
  | appendContextEdit (targetId : JsString) (replacement : Value)
  | appendLabelChange (targetId : JsString) (label : Option JsString)
  | branch (branchFromId : JsString)
  | resetLeaf
  | branchWithSummary (branchFromId : Option JsString) (summary : JsString)
      (details : Option Value) (fromHook : Option Bool) (usage : Option Value)
  | appendRefused (kind : String) (fields : Fields)
  | reopen

def SessionOp.isData : SessionOp → Bool
  | .appendRefused _ _ => false
  | _ => true

/-- `replace(/[\r\n]+/g, " ")`; the flag says whether the last unit was in such a run. -/
def foldLines : Bool → JsString → JsString
  | _, [] => []
  | inRun, u :: s =>
    if u = 10 ∨ u = 13 then (if inRun then [] else [32]) ++ foldLines true s
    else u :: foldLines false s

/-- Whether a replacement is null or has string or array content. -/
def validReplacement (replacement : Json) : Bool :=
  match replacement with
  | .null => true
  | v => match field v "content" with
    | some (.string _) => true
    | some (.array _) => true
    | _ => false

def editable (target : Json) : Bool :=
  isKind target "custom_message" || isMessageOf target "user" || isMessageOf target "assistant" ||
    isMessageOf target "toolResult"

/-- The text of a replacement becomes a block where the target has blocks. -/
def normalizedReplacement (target : Json) (replacement : Value) : Value :=
  if isMessageOf target "assistant" || isMessageOf target "toolResult" then
    match field replacement.1 "content" with
    | some (.string text) =>
      ⟨objectOf [("content", some ⟨.array [objectOf [("type", str (ofString "text")), ("text", str text)]],
        .array (List.forall_mem_singleton.mpr (objectOf_plain _))⟩)], objectOf_plain _⟩
    | _ => replacement
  else replacement

/-- `{ ...systemMessage, timestamp: new Date(timestamp).getTime() }` -/
def stampedSystem (m : Moment) (fields : Fields) : Value :=
  ⟨objectOf (fields ++ [("timestamp", some (num m.time))]), objectOf_plain _⟩

variable (projectedSystem : SessionManager → Option Fields)

def World.stamp (w : World) (m : Moment) : Stamp where
  entryId := generateId (JsMap.has w.manager.index.byId) m.randomUUID
  parentId := w.manager.index.leafId
  timestamp := m.timestamp

def World.moveLeaf (w : World) (leafId : Option JsString) : World :=
  { w with manager := { w.manager with index := { w.manager.index with leafId } } }

def World.has (w : World) (id : JsString) : Bool := JsMap.has w.manager.index.byId id

/-- An operation that finds its arguments wrong leaves the world as it was. -/
def step (w : World) (m : Moment) : SessionOp → World
  | .appendMessage message => (appendEntry numbers w (messageEntry (w.stamp m) message)).1
  | .appendThinkingLevelChange thinkingLevel =>
    (appendEntry numbers w (thinkingLevelChangeEntry (w.stamp m) thinkingLevel)).1
  | .appendModelChange provider modelId =>
    (appendEntry numbers w (modelChangeEntry (w.stamp m) provider modelId)).1
  | .appendUsage kind provider model usage note =>
    (appendEntry numbers w (usageEntry (w.stamp m) kind provider model usage note)).1
  | .appendCompaction summary firstKeptEntryId tokensBefore details fromHook usage =>
    let stamp := w.stamp m
    (appendEntry numbers w (compactionEntry stamp summary (firstKeptEntryId.getD stamp.entryId)
      tokensBefore details usage fromHook ((projectedSystem w.manager).map (stampedSystem m)))).1
  | .appendCustomEntry customType data =>
    (appendEntry numbers w (customEntry (w.stamp m) customType data)).1
  | .appendSessionInfo name =>
    (appendEntry numbers w (sessionInfoEntry (w.stamp m) (trim (foldLines false name)))).1
  | .appendCustomMessageEntry customType content display details =>
    (appendEntry numbers w (customMessageEntry (w.stamp m) customType content display details)).1
  | .appendContextEdit targetId replacement =>
    match JsMap.get w.manager.index.byId targetId with
    | none => w
    | some target =>
      if validReplacement replacement.1 && w.manager.getBranch.any (fun e => idOf e = targetId) &&
          editable target then
        (appendEntry numbers w (contextEditEntry (w.stamp m) targetId
          (normalizedReplacement target replacement))).1
      else w
  | .appendLabelChange targetId label =>
    if w.has targetId then
      match appendEntry numbers w (labelEntry (w.stamp m) targetId label) with
      | (w, false) => w
      | (w, true) => { w with manager := { w.manager with
          index := w.manager.index.setLabel targetId label m.timestamp } }
    else w
  | .branch branchFromId => if w.has branchFromId then w.moveLeaf (some branchFromId) else w
  | .resetLeaf => w.moveLeaf none
  | .branchWithSummary branchFromId summary details fromHook usage =>
    if branchFromId.all w.has then
      let fromId := w.manager.index.leafId.getD (ofString "root")
      let w := w.moveLeaf branchFromId
      (appendEntry numbers w (branchSummaryEntry (w.stamp m) fromId summary details usage fromHook)).1
    else w
  | .appendRefused kind fields => (appendRefused numbers w (objectOf (entryFields kind (w.stamp m) [] fields))).1
  | .reopen => (openSession numbers m w.file).getD w

def run (w : World) (calls : List (Moment × SessionOp)) : World :=
  calls.foldl (fun w call => step numbers projectedSystem w call.1 call.2) w

end Manager

end Shuvpi.SessionFile
