import Shuvpi.PicoStorage

/-!
# The context of a conversation and its collapse

`pico3/context.ts` and the cut of `pico3/kinds/collapse.ts`. The context starts at the
newest entry with a head and goes on with what that head points to; a collapse appends such
an entry with a summary of the context up to the entry it was cut at.
-/
namespace Shuvpi.Pico

open MemoryStorage (EntryScan)

/-! ## The context -/

structure ContextView where
  head : Option Entry
  entries : List Entry
  messages : List Message

/-- The entry is older than where the context starts. -/
def isBefore (start : Option Nat) (e : Entry) : Bool := start.any fun start => e.id < start

/-- The walk of `deriveContext`, newest first, page by page. -/
def readRange (s : MemoryStorage) (conversationId : Nat) (start : Option Nat) : Nat → Option Nat → List Entry
  | 0, _ => []
  | rounds + 1, before =>
    let page := s.scanEntries { conversationId := conversationId, before := before, limit := 256 }
    let kept := page.takeWhile fun e => !isBefore start e
    match page.getLast? with
    | some last =>
      if page.length < 256 || kept.length < page.length then kept
      else kept ++ readRange s conversationId start rounds (some last.id)
    | none => kept

/-- The newest edit of an entry in the range. -/
def editOf (range : List Entry) (id : Nat) : Option EditAction :=
  ((range.flatMap Entry.edits).filter fun edit => edit.target = id).getLast?.map ContextEdit.action

/-- The messages of an entry in a context. -/
def contribution (range : List Entry) (e : Entry) : List Message :=
  match editOf range e.id with
  | some .omit => []
  | some (.replace messages) => messages
  | none => e.model.getD []

def Message.toolResult? : Message → Option StoredToolResult
  | .toolResult result => some result
  | _ => none

def toolCalls (content : List ContentBlock) : List StoredToolCall :=
  content.filterMap fun block => match block with
    | .toolCall call => some call
    | .other _ => none

def unavailable : Json := .array [.object [(JsText.ofString "type", .string (JsText.ofString "text")),
    (JsText.ofString "text",
      .string (JsText.ofString "Tool result unavailable: history ends before this call completed."))]]

def missingResult (call : StoredToolCall) (timestamp : Nat) : StoredToolResult where
  toolCallId := call.id
  toolName := call.name
  content := unavailable
  isError := true
  details := some (.object [(JsText.ofString "reason", .string (JsText.ofString "missing_after_fork"))])
  timestamp := timestamp

/-- `reorderToolResults`; a later result for the same call replaces an earlier one. The first argument counts rounds. -/
def reorderToolResults : Nat → List Message → List Message
  | 0, messages => messages
  | _, [] => []
  | rounds + 1, message :: messages =>
    match message with
    | .assistant content timestamp =>
      match toolCalls content with
      | [] => message :: reorderToolResults rounds messages
      | calls =>
        let results := (messages.takeWhile fun m => m.toolResult?.isSome).filterMap Message.toolResult?
        let rest := messages.dropWhile fun m => m.toolResult?.isSome
        message :: calls.map (fun call => .toolResult
            (((results.filter fun result => result.toolCallId = call.id).getLast?).getD (missingResult call timestamp))) ++
          reorderToolResults rounds rest
    | _ => message :: reorderToolResults rounds messages

/-- The entries of the context of a range with its head. -/
def contextEntries (head : Option Entry) (range : List Entry) : List Entry :=
  match head with
  | none => range
  | some head => head :: range.filter fun e => e.head.isNone

/-- The newest entry with a head at or before `at_`. -/
def newestHead (s : MemoryStorage) (conversationId : Nat) (at_ : Option Nat) : Option Entry :=
  (s.scanEntries { conversationId := conversationId, withHead := true, before := at_.map (· + 1), limit := 1 }).head?

/-- The range of the context, oldest first. -/
def contextRange (s : MemoryStorage) (conversationId : Nat) (at_ : Option Nat) : List Entry :=
  (readRange s conversationId ((newestHead s conversationId at_).bind Entry.head)
    ((s.visible (conversationId + 1) none conversationId).length + 1) (at_.map (· + 1))).reverse

def deriveContext (s : MemoryStorage) (conversationId : Nat) (at_ : Option Nat) : ContextView :=
  let head := newestHead s conversationId at_
  let range := contextRange s conversationId at_
  let entries := contextEntries head range
  let messages := entries.flatMap (contribution range)
  ⟨head, entries, reorderToolResults messages.length messages⟩

/-! ## The cut -/

inductive Role where
  | system
  | user
  | assistant
  | toolResult
  deriving DecidableEq

def Message.role : Message → Role
  | .system _ _ => .system
  | .user _ _ => .user
  | .assistant _ _ => .assistant
  | .toolResult _ => .toolResult

structure Exchange where
  last : Nat
  tokens : Nat
  deriving DecidableEq, Repr

/-- The exchanges of the entries, newest first, and whether the newest one is open. -/
def exchanges (estimate : List Message → Nat) : List Exchange → Bool → List Entry → List Exchange
  | found, _, [] => found
  | found, isOpen, entry :: entries =>
    let role := (entry.model.getD []).head?.map Message.role
    let tokens := estimate (entry.model.getD [])
    match role, isOpen, found with
    | some .assistant, _, _ => exchanges estimate (⟨entry.id, tokens⟩ :: found) true entries
    | some .toolResult, true, last :: older => exchanges estimate (⟨entry.id, last.tokens + tokens⟩ :: older) true entries
    | _, _, _ => exchanges estimate (⟨entry.id, tokens⟩ :: found) false entries

/-- The exchanges that are not retained, newest first. -/
def notRetained (keepRecent : Nat) : Nat → List Exchange → List Exchange
  | _, [] => []
  | retained, exchange :: older =>
    if retained + exchange.tokens ≤ keepRecent then notRetained keepRecent (retained + exchange.tokens) older
    else exchange :: older

/-- Where a context is cut; the newest exchange is never summarised. -/
def chooseThrough (estimate : List Message → Nat) (entries : List Entry) (keepRecent : Nat) : Option Nat :=
  let found := exchanges estimate [] false entries
  match notRetained keepRecent 0 found with
  | [] => none
  | exchange :: older =>
    if older.length + 1 = found.length then older.head?.map Exchange.last else some exchange.last

/-- The summary entry that a prepared collapse commits, unless the head has moved. -/
def collapseEntry (s : MemoryStorage) (conversationId through : Nat) (expectedHead : Option Nat) (summary : Json)
    (taskId now : Nat) : Option Entry :=
  let view := deriveContext s conversationId none
  if view.head.map Entry.id ≠ expectedHead then none
  else
    let id := s.nextIdValue
    let retained := view.entries.find? fun entry => through < entry.id
    some {
      id := id
      conversationId := conversationId
      kind := "shuvpi.summary"
      model := some [.user summary now]
      data := some (.object [(JsText.ofString "through", .number (JsNumber.ofInt through))])
      head := some ((retained.map Entry.id).getD id)
      byTaskId := some taskId }

end Shuvpi.Pico
