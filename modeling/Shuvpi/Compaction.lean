import Shuvpi.JsSet
import Shuvpi.SessionEntries

/-!
# Preparing a compaction

`harness/compaction/compaction.ts` and the context of `harness/session/context.ts`: the
entries since the last compaction, with the messages that it retained, are cut in two; what
comes before the cut is summarised and the rest is retained. `R` holds the fields of a
message that nothing here reads.
-/
namespace Shuvpi.Compaction

open JsText (ofString)
open SessionFile (field stringField)
open Transcript (JsonNumbers)

/-! ## Messages and entries -/

inductive ContentBlock where
  | text (text : JsString)
  | image
  | other

inductive Content where
  | string (text : JsString)
  | blocks (blocks : List ContentBlock)

structure ToolCall where
  callId : JsString
  name : JsString
  arguments : Json

inductive AssistantBlock where
  | text (text : JsString)
  | thinking (thinking : JsString)
  | toolCall (call : ToolCall)

inductive StopReason where
  | stop | length | toolUse | error | aborted | deferred
  deriving DecidableEq, Repr

structure Usage where
  input : Nat
  output : Nat
  cacheRead : Nat
  cacheWrite : Nat
  totalTokens : Nat
  deriving DecidableEq, Repr

/-- The messages of an agent, without those of the role `system`: the cuts and estimates below have no case for that role. -/
inductive AgentMessage (R : Type) where
  | user (content : Content) (rest : R)
  | assistant (content : List AssistantBlock) (stopReason : StopReason) (usage : Option Usage) (rest : R)
  | toolResult (toolCallId : JsString) (content : Content) (rest : R)
  | bashExecution (command output : JsString) (rest : R)
  | custom (content : Content) (rest : R)
  | branchSummary (summary : JsString) (fromId : Option JsString) (timestamp : Int)
  | compactionSummary (summary : JsString) (tokensBefore : Nat) (timestamp : Int)

structure CompactionEntry (R : Type) where
  summary : JsString
  retainedTail : List (AgentMessage R)
  tokensBefore : Nat
  details : Option Json
  timestamp : Int

structure CustomEntry where
  customType : JsString
  data : Option Json

inductive Entry (R : Type) where
  | message (message : AgentMessage R)
  | compaction (entry : CompactionEntry R)
  | branchSummary (summary : JsString) (fromId : Option JsString) (timestamp : Int)
  | custom (entry : CustomEntry)

variable {R : Type}

def AgentMessage.isToolResult : AgentMessage R → Bool
  | .toolResult _ _ _ => true
  | _ => false

def AgentMessage.isUser : AgentMessage R → Bool
  | .user _ _ => true
  | _ => false

/-- The calls of an assistant message. -/
def AgentMessage.toolCalls : AgentMessage R → List ToolCall
  | .assistant content _ _ _ => content.filterMap fun
    | .toolCall call => some call
    | _ => none
  | _ => []

def Entry.isMessage : Entry R → Bool
  | .message _ => true
  | _ => false

def Entry.isCompaction : Entry R → Bool
  | .compaction _ => true
  | _ => false

/-- A number of tokens, as the least whole number that reaches it; no number reaches infinity
or NaN. -/
abbrev TokenBudget := Option Int

/-- `tokens >= budget` -/
def reaches (tokens : Nat) (budget : TokenBudget) : Bool := budget.any fun least : Int => least ≤ tokens

structure CompactionSettings where
  enabled : Bool
  reserveTokens : Int
  keepRecentTokens : TokenBudget

/-! ## Tokens -/

def calculateContextTokens (usage : Usage) : Nat :=
  if usage.totalTokens ≠ 0 then usage.totalTokens
  else usage.input + usage.output + usage.cacheRead + usage.cacheWrite

def getAssistantUsage : AgentMessage R → Option Usage
  | .assistant _ stopReason usage _ =>
    if stopReason = .aborted ∨ stopReason = .error then none
    else usage.filter fun u => 0 < calculateContextTokens u
  | _ => none

def ESTIMATED_IMAGE_CHARS : Nat := 4800

def estimateTextAndImageContentChars : Content → Nat
  | .string text => text.length
  | .blocks blocks => (blocks.map fun
    | .text text => text.length
    | .image => ESTIMATED_IMAGE_CHARS
    | .other => 0).sum

section Tokens
variable (numbers : JsonNumbers)

def assistantBlockChars : AssistantBlock → Nat
  | .text text => text.length
  | .thinking thinking => thinking.length
  | .toolCall call => call.name.length + (JsonText.stringify numbers.toNumberFormat call.arguments).length

/-- `Math.ceil(chars / 4)` -/
def ceilQuarter (chars : Nat) : Nat := (chars + 3) / 4

def estimateTokens : AgentMessage R → Nat
  | .user content _ => ceilQuarter (estimateTextAndImageContentChars content)
  | .assistant content _ _ _ => ceilQuarter (content.map (assistantBlockChars numbers)).sum
  | .custom content _ => ceilQuarter (estimateTextAndImageContentChars content)
  | .toolResult _ content _ => ceilQuarter (estimateTextAndImageContentChars content)
  | .bashExecution command output _ => ceilQuarter (command.length + output.length)
  | .branchSummary summary _ _ => ceilQuarter summary.length
  | .compactionSummary summary _ _ => ceilQuarter summary.length

/-- The `tokens` of `estimateContextTokens`: the usage of the last message that has one, and
the estimates of those after it. -/
def estimateContextTokens (messages : List (AgentMessage R)) : Nat :=
  let trailing := messages.reverse.takeWhile fun m => (getAssistantUsage m).isNone
  let usage := messages.reverse.findSome? getAssistantUsage
  usage.elim 0 calculateContextTokens + (trailing.map (estimateTokens numbers)).sum

end Tokens

/-! ## The context of a path -/

/-- The last compaction of a path, with the entries after it. -/
def lastCompaction : List (Entry R) → Option (CompactionEntry R × List (Entry R))
  | [] => none
  | e :: rest =>
    match lastCompaction rest, e with
    | some found, _ => some found
    | none, .compaction entry => some (entry, rest)
    | none, _ => none

def buildContextEntries (pathEntries : List (Entry R)) : List (Entry R) :=
  match lastCompaction pathEntries with
  | none => pathEntries
  | some (entry, later) => .compaction entry :: later

def isContextMessage : AgentMessage R → Bool
  | .assistant _ stopReason _ _ => stopReason ≠ .error && stopReason ≠ .aborted && stopReason ≠ .deferred
  | _ => true

def sessionEntryToContextMessages : Entry R → List (AgentMessage R)
  | .message message => if isContextMessage message then [message] else []
  | .compaction entry =>
    .compactionSummary entry.summary entry.tokensBefore entry.timestamp :: entry.retainedTail.filter isContextMessage
  | .branchSummary summary fromId timestamp =>
    if summary ≠ [] then [.branchSummary summary fromId timestamp] else []
  | .custom _ => []

/-- The projectors by custom type; one may make no messages. -/
abbrev EntryProjectors (R : Type) := JsString → Option (CustomEntry → Option (List (AgentMessage R)))

/-- The messages that the projectors make of a custom entry. -/
def project (entryProjectors : EntryProjectors R) (entry : CustomEntry) : List (AgentMessage R) :=
  ((entryProjectors entry.customType).bind (· entry)).getD []

def buildSessionContext (entryProjectors : EntryProjectors R) (pathEntries : List (Entry R)) :
    List (AgentMessage R) :=
  (buildContextEntries pathEntries).flatMap fun
    | .custom entry => project entryProjectors entry
    | entry => sessionEntryToContextMessages entry

/-! ## The cut -/

def getMessageFromEntry : Entry R → Option (AgentMessage R)
  | .message message => some message
  | .branchSummary summary fromId timestamp => some (.branchSummary summary fromId timestamp)
  | .compaction entry => some (.compactionSummary entry.summary entry.tokensBefore entry.timestamp)
  | .custom _ => none

def getMessageFromEntryForCompaction (entry : Entry R) : Option (AgentMessage R) :=
  if entry.isCompaction then none else getMessageFromEntry entry

def isCutPoint : Entry R → Bool
  | .message message => !message.isToolResult
  | .branchSummary _ _ _ => true
  | _ => false

def findValidCutPoints (entries : List (Entry R)) (startIndex endIndex : Nat) : List Nat :=
  (List.range' startIndex (endIndex - startIndex)).filter fun i => (entries[i]?).any isCutPoint

/-- The user-visible message that starts a turn. -/
def startsTurn : Entry R → Bool
  | .branchSummary _ _ _ => true
  | .message (.user _ _) => true
  | .message (.bashExecution _ _ _) => true
  | _ => false

/-- The loop of `findTurnStartIndex` over `count` entries from `startIndex` on. -/
def findTurnStartFrom (entries : List (Entry R)) (startIndex : Nat) : Nat → Option Nat
  | 0 => none
  | count + 1 =>
    if (entries[startIndex + count]?).any startsTurn then some (startIndex + count)
    else findTurnStartFrom entries startIndex count

def findTurnStartIndex (entries : List (Entry R)) (entryIndex startIndex : Nat) : Option Nat :=
  findTurnStartFrom entries startIndex (entryIndex + 1 - startIndex)

structure CutPointResult where
  firstKeptEntryIndex : Nat
  turnStartIndex : Option Nat
  isSplitTurn : Bool
  deriving DecidableEq, Repr

/-- The last loop of `findCutPoint`, which goes back over entries that are not messages. -/
def moveBack (entries : List (Entry R)) (startIndex : Nat) : Nat → Nat
  | 0 => 0
  | cutIndex + 1 =>
    if cutIndex + 1 ≤ startIndex then cutIndex + 1
    else match entries[cutIndex]? with
      | some (.compaction _) => cutIndex + 1
      | some (.message _) => cutIndex + 1
      | _ => moveBack entries startIndex cutIndex

section Cut
variable (numbers : JsonNumbers)

/-- The message at which the walk back over `count` entries from `startIndex` on reaches the
budget. -/
def budgetIndex (entries : List (Entry R)) (keepRecentTokens : TokenBudget) (startIndex : Nat) :
    Nat → Nat → Option Nat
  | 0, _ => none
  | count + 1, accumulatedTokens =>
    match entries[startIndex + count]? with
    | some (.message message) =>
      let accumulatedTokens := accumulatedTokens + estimateTokens numbers message
      if reaches accumulatedTokens keepRecentTokens then some (startIndex + count)
      else budgetIndex entries keepRecentTokens startIndex count accumulatedTokens
    | _ => budgetIndex entries keepRecentTokens startIndex count accumulatedTokens

/-- The first valid cut point at or after the message where the budget is reached. -/
def chosenCut (entries : List (Entry R)) (startIndex endIndex : Nat) (keepRecentTokens : TokenBudget)
    (first : Nat) (cutPoints : List Nat) : Nat :=
  match budgetIndex numbers entries keepRecentTokens startIndex (endIndex - startIndex) 0 with
  | none => first
  | some i => (cutPoints.find? (i ≤ ·)).getD first

def findCutPoint (entries : List (Entry R)) (startIndex endIndex : Nat)
    (keepRecentTokens : TokenBudget) : CutPointResult :=
  match findValidCutPoints entries startIndex endIndex with
  | [] => ⟨startIndex, none, false⟩
  | first :: rest =>
    let cutIndex := moveBack entries startIndex
      (chosenCut numbers entries startIndex endIndex keepRecentTokens first (first :: rest))
    let isUserMessage := (entries[cutIndex]?).any fun
      | .message message => message.isUser
      | _ => false
    let turnStartIndex := if isUserMessage then none else findTurnStartIndex entries cutIndex startIndex
    ⟨cutIndex, turnStartIndex, !isUserMessage && turnStartIndex.isSome⟩

/-! ## File operations -/

structure FileOperations where
  read : JsSet JsString
  written : JsSet JsString
  edited : JsSet JsString

def createFileOps : FileOperations := ⟨.empty, .empty, .empty⟩

def FileOperations.call (fileOps : FileOperations) (call : ToolCall) : FileOperations :=
  match stringField call.arguments "path" with
  | none => fileOps
  | some path =>
    if path = [] then fileOps
    else if call.name = ofString "read" then { fileOps with read := fileOps.read.add path }
    else if call.name = ofString "write" then { fileOps with written := fileOps.written.add path }
    else if call.name = ofString "edit" then { fileOps with edited := fileOps.edited.add path }
    else fileOps

def extractFileOpsFromMessage (fileOps : FileOperations) (message : AgentMessage R) : FileOperations :=
  message.toolCalls.foldl FileOperations.call fileOps

/-- The strings of an array property. -/
def stringItems (details : Json) (key : String) : List JsString :=
  match field details key with
  | some (.array items) => items.filterMap fun
    | .string s => some s
    | _ => none
  | _ => []

def extractFileOperations (messages : List (AgentMessage R)) (details : Option Json) : FileOperations :=
  let fileOps := match details with
    | none => createFileOps
    | some details => { createFileOps with
        read := (stringItems details "readFiles").foldl JsSet.add .empty
        edited := (stringItems details "modifiedFiles").foldl JsSet.add .empty }
  messages.foldl extractFileOpsFromMessage fileOps

/-! ## The preparation -/

structure CompactionPreparation (R : Type) where
  messagesToSummarize : List (AgentMessage R)
  turnPrefixMessages : List (AgentMessage R)
  retainedTail : List (AgentMessage R)
  isSplitTurn : Bool
  tokensBefore : Nat
  previousSummary : Option JsString
  fileOps : FileOperations
  settings : CompactionSettings

/-- The messages that the last compaction retained, as entries, and the entries after it. -/
def compactableEntries (pathEntries : List (Entry R)) : List (Entry R) :=
  match lastCompaction pathEntries with
  | none => pathEntries
  | some (entry, later) => entry.retainedTail.map .message ++ later

def messagesOf (entries : List (Entry R)) : List (AgentMessage R) :=
  entries.filterMap getMessageFromEntryForCompaction

def prepareCompaction (pathEntries : List (Entry R)) (settings : CompactionSettings) :
    Option (CompactionPreparation R) :=
  if pathEntries.getLast?.all Entry.isCompaction then none
  else
    let previous := lastCompaction pathEntries
    let entries := compactableEntries pathEntries
    let tokensBefore := estimateContextTokens numbers
      ((buildContextEntries pathEntries).flatMap sessionEntryToContextMessages)
    let cutPoint := findCutPoint numbers entries 0 entries.length settings.keepRecentTokens
    let turnStart := cutPoint.turnStartIndex.getD 0
    let historyEnd := if cutPoint.isSplitTurn then turnStart else cutPoint.firstKeptEntryIndex
    let messagesToSummarize := messagesOf (entries.take historyEnd)
    let turnPrefixMessages := if cutPoint.isSplitTurn then
        messagesOf ((entries.take cutPoint.firstKeptEntryIndex).drop turnStart)
      else []
    let fileOps := extractFileOperations messagesToSummarize (previous.bind fun p => p.1.details)
    some {
      messagesToSummarize
      turnPrefixMessages
      retainedTail := messagesOf (entries.drop cutPoint.firstKeptEntryIndex)
      isSplitTurn := cutPoint.isSplitTurn
      tokensBefore
      previousSummary := previous.map fun p => p.1.summary
      fileOps := turnPrefixMessages.foldl extractFileOpsFromMessage fileOps
      settings }

end Cut

end Shuvpi.Compaction
