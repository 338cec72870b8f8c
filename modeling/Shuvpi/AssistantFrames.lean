import Shuvpi.JsMap
import Shuvpi.JsonText

/-!
# Assistant message frames

`AssistantMessageFrameEncoder` and `reduceAssistantMessageFrames` of
`utils/assistant-message-frame.ts`. The events of an assistant stream share one message
that runs ahead of them; the encoder turns each into a frame that says only what the
frames before it do not say yet, and reducing the frames gives the message back.
`U`, `D` and `H` are usage, diagnostics and deferred handles, which are only copied.
-/
namespace Shuvpi.Frames

open Function (update)
open JsText (ofString)
open JsonText (NumberFormat stringify parse)

variable {U D H : Type}

/-! ## Messages, events and frames -/

structure TextContent where
  text : JsString
  textSignature : Option JsString
  deriving DecidableEq, Repr

structure ThinkingContent where
  thinking : JsString
  thinkingSignature : Option JsString
  redacted : Option Bool
  deriving DecidableEq, Repr

structure ToolCall where
  id : JsString
  name : JsString
  arguments : Json
  thoughtSignature : Option JsString
  namespace_ : Option JsString

inductive Block where
  | text (content : TextContent)
  | thinking (content : ThinkingContent)
  | toolCall (toolCall : ToolCall)

inductive Kind where
  | text | thinking | toolCall
  deriving DecidableEq, Repr

def Kind.name : Kind → String
  | .text => "text"
  | .thinking => "thinking"
  | .toolCall => "toolCall"

def Block.kind : Block → Kind
  | .text _ => .text
  | .thinking _ => .thinking
  | .toolCall _ => .toolCall

inductive StopReason where
  | pending | stop | length | toolUse | error | aborted | deferred
  deriving DecidableEq, Repr

structure AssistantMessage (U D H : Type) where
  content : List Block
  api : String
  provider : String
  model : String
  responseModel : Option String
  responseId : Option String
  providerThinkingLevel : Option String
  diagnostics : Option D
  usage : U
  stopReason : StopReason
  deferred : Option H
  errorMessage : Option String
  rawStopReason : Option String
  endTurn : Option Bool
  timestamp : Nat

/-- Each event but the last shows the shared message, as it is when the event is encoded. -/
inductive AssistantMessageEvent (U D H : Type) where
  | start (shared : AssistantMessage U D H)
  | textStart (contentIndex : Int) (shared : AssistantMessage U D H)
  | textDelta (contentIndex : Int) (delta : JsString) (shared : AssistantMessage U D H)
  | textEnd (contentIndex : Int) (content : JsString) (shared : AssistantMessage U D H)
  | thinkingStart (contentIndex : Int) (shared : AssistantMessage U D H)
  | thinkingDelta (contentIndex : Int) (delta : JsString) (shared : AssistantMessage U D H)
  | thinkingEnd (contentIndex : Int) (content : JsString) (shared : AssistantMessage U D H)
  | toolcallStart (contentIndex : Int) (shared : AssistantMessage U D H)
  | toolcallDelta (contentIndex : Int) (delta : JsString) (shared : AssistantMessage U D H)
  | toolcallEnd (contentIndex : Int) (toolCall : ToolCall) (shared : AssistantMessage U D H)
  | done (message : AssistantMessage U D H)
  | error (error : AssistantMessage U D H)

def AssistantMessageEvent.type : AssistantMessageEvent U D H → String
  | .start _ => "start"
  | .textStart .. => "text_start"
  | .textDelta .. => "text_delta"
  | .textEnd .. => "text_end"
  | .thinkingStart .. => "thinking_start"
  | .thinkingDelta .. => "thinking_delta"
  | .thinkingEnd .. => "thinking_end"
  | .toolcallStart .. => "toolcall_start"
  | .toolcallDelta .. => "toolcall_delta"
  | .toolcallEnd .. => "toolcall_end"
  | .done _ => "done"
  | .error _ => "error"

inductive AssistantMessageFrame (U D H : Type) where
  | start (shared : AssistantMessage U D H)
  | textStart (contentIndex : Int) (content : TextContent)
  | textDelta (contentIndex : Int) (delta : JsString)
  | textEnd (contentIndex : Int) (content : JsString) (textSignature : Option JsString)
  | thinkingStart (contentIndex : Int) (content : ThinkingContent)
  | thinkingDelta (contentIndex : Int) (delta : JsString)
  | thinkingEnd (contentIndex : Int) (content : JsString) (thinkingSignature : Option JsString)
      (redacted : Option Bool)
  | toolcallStart (contentIndex : Int) (toolCall : ToolCall)
  | toolcallCheckpoint (contentIndex : Int) (json : JsString)
  | toolcallDelta (contentIndex : Int) (delta : JsString)
  | toolcallEnd (contentIndex : Int) (id name : JsString) (arguments : Json)
      (thoughtSignature namespace_ : Option JsString)

def AssistantMessageFrame.type : AssistantMessageFrame U D H → String
  | .start _ => "start"
  | .textStart .. => "text_start"
  | .textDelta .. => "text_delta"
  | .textEnd .. => "text_end"
  | .thinkingStart .. => "thinking_start"
  | .thinkingDelta .. => "thinking_delta"
  | .thinkingEnd .. => "thinking_end"
  | .toolcallStart .. => "toolcall_start"
  | .toolcallCheckpoint .. => "toolcall_checkpoint"
  | .toolcallDelta .. => "toolcall_delta"
  | .toolcallEnd .. => "toolcall_end"

def cloneStartMessage (message : AssistantMessage U D H) : AssistantMessage U D H :=
  { message with
    content := []
    stopReason := .pending
    deferred := none
    errorMessage := none
    rawStopReason := none
    endTurn := none }

/-! ## Partial JSON -/

/-- What `JSON` reads and writes numbers as, and the package that parses a text cut short:
it throws, or it returns a value, which may be undefined. -/
structure StreamingJson where
  numbers : NumberFormat
  partialParse : JsString → Option (Option Json)

def isHexDigit (u : UInt16) : Bool := (JsonText.hexValue u).isSome || (65 ≤ u.toNat && u.toNat ≤ 70)

/-- `escapeControlCharacter` -/
def escapeControlCharacter (u : UInt16) : JsString :=
  if u = 8 then ofString "\\b"
  else if u = 12 then ofString "\\f"
  else if u = 10 then ofString "\\n"
  else if u = 13 then ofString "\\r"
  else if u = 9 then ofString "\\t"
  else JsonText.unicodeEscape u

def validJsonEscapes : JsString := ofString "\"\\/bfnrtu"

/-- The loop of `repairJson`, inside or outside a string, for at most `fuel` units. -/
def repairUnits : Nat → Bool → JsString → JsString
  | 0, _, _ => []
  | _, _, [] => []
  | fuel + 1, false, u :: rest => u :: repairUnits fuel (u = 34) rest
  | fuel + 1, true, u :: rest =>
    if u = 34 then u :: repairUnits fuel false rest
    else if u = 92 then
      match rest with
      | [] => [92, 92]
      | next :: rest' =>
        if next = 117 ∧ (rest'.take 4).length = 4 ∧ (rest'.take 4).all isHexDigit then
          [92, 117] ++ rest'.take 4 ++ repairUnits fuel true (rest'.drop 4)
        else if next ∈ validJsonEscapes then [92, next] ++ repairUnits fuel true rest'
        else [92, 92] ++ repairUnits fuel true rest
    else (if u.toNat ≤ 0x1f then escapeControlCharacter u else [u]) ++ repairUnits fuel true rest

def repairJson (json : JsString) : JsString := repairUnits json.length false json

/-- What `String.prototype.trim` removes. -/
def isBlank (u : UInt16) : Bool :=
  u.toNat ∈ [0x9, 0xa, 0xb, 0xc, 0xd, 0x20, 0xa0, 0x1680, 0x2028, 0x2029, 0x202f, 0x205f, 0x3000,
    0xfeff] || (0x2000 ≤ u.toNat && u.toNat ≤ 0x200a)

section StreamingJson
variable (json : StreamingJson)

def parseJsonWithRepair (text : JsString) : Option Json :=
  match parse json.numbers text with
  | some value => some value
  | none => if repairJson text ≠ text then parse json.numbers (repairJson text) else none

/-- `result ?? {}` -/
def orEmpty : Option Json → Json
  | none => .object []
  | some .null => .object []
  | some value => value

def parseStreamingJson (partialJson : JsString) : Json :=
  if partialJson.all isBlank then .object []
  else
    match parseJsonWithRepair json partialJson with
    | some value => value
    | none =>
      match json.partialParse partialJson with
      | some result => orEmpty result
      | none =>
        match json.partialParse (repairJson partialJson) with
        | some result => orEmpty result
        | none => .object []

def serializedArguments (arguments : Json) : JsString := stringify json.numbers arguments

def EMPTY_PARSED_TOOL_ARGUMENTS : JsString := serializedArguments json (parseStreamingJson json [])

end StreamingJson

mutual

def isJsonPrefix : Json → Json → Bool
  | .string snapshot, .string current => snapshot.isPrefixOf current
  | .array snapshot, .array current => isItemsPrefix snapshot current
  | .object snapshot, .object current => isPropsPrefix snapshot current
  | .null, .null => true
  | .boolean snapshot, .boolean current => snapshot == current
  | .number snapshot, .number current => snapshot == current
  | _, _ => false

def isItemsPrefix : List Json → List Json → Bool
  | [], _ => true
  | _ :: _, [] => false
  | value :: snapshot, item :: current => isJsonPrefix value item && isItemsPrefix snapshot current

def isPropsPrefix : List (JsString × Json) → List (JsString × Json) → Bool
  | [], _ => true
  | (key, value) :: snapshot, current =>
    ((current.find? fun p => p.1 = key).any fun p => isJsonPrefix value p.2) &&
      isPropsPrefix snapshot current

end

/-! ## The encoder -/

/-- A block of characters. -/
inductive TextKind where
  | text | thinking
  deriving DecidableEq, Repr

def TextKind.kind : TextKind → Kind
  | .text => .text
  | .thinking => .thinking

inductive EncoderBlockState where
  | chars (kind : TextKind) (coveredChars deltaChars : Nat)
  | toolCall (caughtUp : Bool) (catchupJson snapshotArguments : JsString)

def EncoderBlockState.kind : EncoderBlockState → Kind
  | .chars kind _ _ => kind.kind
  | .toolCall .. => .toolCall

structure Encoder where
  started : Bool
  terminal : Bool
  blocks : Int → Option EncoderBlockState

def Encoder.initial : Encoder := ⟨false, false, fun _ => none⟩

def MAX_SAFE_INTEGER : Int := 2 ^ 53 - 1

def assertContentIndex (contentIndex : Int) : Except String Unit :=
  if 0 ≤ contentIndex ∧ contentIndex ≤ MAX_SAFE_INTEGER then .ok ()
  else .error ("Invalid assistant message frame contentIndex: " ++ toString contentIndex)

/-- The block at an index of an array. -/
def blockAt (content : List Block) (contentIndex : Int) : Option Block :=
  if 0 ≤ contentIndex then content[contentIndex.toNat]? else none

def eventBlock (type : String) (contentIndex : Int) (shared : AssistantMessage U D H) :
    Except String Block := do
  assertContentIndex contentIndex
  match blockAt shared.content contentIndex with
  | none => .error (type ++ " event has no content block at index " ++ toString contentIndex)
  | some block => .ok block

def wrongBlock (type : String) (block : Block) (contentIndex : Int) : String :=
  type ++ " event points to " ++ block.kind.name ++ " block at index " ++ toString contentIndex

namespace Encoder

def startBlock (e : Encoder) (contentIndex : Int) (state : EncoderBlockState) : Except String Encoder := do
  assertContentIndex contentIndex
  if (e.blocks contentIndex).isSome then
    .error ("Assistant message block " ++ toString contentIndex ++ " starts more than once")
  else .ok { e with blocks := update e.blocks contentIndex (some state) }

def block (e : Encoder) (contentIndex : Int) (kind : Kind) : Except String EncoderBlockState := do
  assertContentIndex contentIndex
  match e.blocks contentIndex with
  | none =>
    .error ("Assistant message " ++ kind.name ++ " block " ++ toString contentIndex ++ " has not started")
  | some state =>
    if state.kind ≠ kind then
      .error ("Assistant message block " ++ toString contentIndex ++ " is " ++ state.kind.name ++
        ", not " ++ kind.name)
    else .ok state

def endBlock (e : Encoder) (contentIndex : Int) (kind : Kind) : Except String Encoder := do
  let _ ← e.block contentIndex kind
  .ok { e with blocks := update e.blocks contentIndex none }

/-- The frame of an event, if it has one, and the encoder after it. -/
abbrev Encoded (U D H : Type) := Option (AssistantMessageFrame U D H) × Encoder

def encodeTextDelta (e : Encoder) (contentIndex : Int) (delta : JsString) (kind : TextKind) :
    Except String (Encoded U D H) := do
  match ← e.block contentIndex kind.kind with
  | .toolCall .. => .error "Unreachable text encoder state"
  | .chars _ coveredChars deltaStart =>
    let state := EncoderBlockState.chars kind coveredChars (deltaStart + delta.length)
    let e := { e with blocks := update e.blocks contentIndex (some state) }
    let covered := coveredChars - deltaStart
    if delta.length ≤ covered then .ok (none, e)
    else
      let uncovered := delta.drop covered
      .ok (some (match kind with
        | .text => .textDelta contentIndex uncovered
        | .thinking => .thinkingDelta contentIndex uncovered), e)

def encodeToolcallDelta (json : StreamingJson) (e : Encoder) (contentIndex : Int) (delta : JsString) :
    Except String (Encoded U D H) := do
  match ← e.block contentIndex .toolCall with
  | .chars .. => .error "Unreachable tool-call encoder state"
  | .toolCall true _ _ =>
    .ok (if delta.length = 0 then none else some (.toolcallDelta contentIndex delta), e)
  | .toolCall false catchupJson snapshotArguments =>
    let catchupJson := catchupJson ++ delta
    let argumentsValue := parseStreamingJson json catchupJson
    if serializedArguments json argumentsValue ≠ snapshotArguments ∧
        !isJsonPrefix (parseStreamingJson json snapshotArguments) argumentsValue then
      let state := EncoderBlockState.toolCall false catchupJson snapshotArguments
      .ok (none, { e with blocks := update e.blocks contentIndex (some state) })
    else
      .ok (if catchupJson.length = 0 then none else some (.toolcallCheckpoint contentIndex catchupJson),
        { e with blocks := update e.blocks contentIndex (some (.toolCall true [] [])) })

/-- The events between the start and the end of the message. -/
def encodeBlockEvent (json : StreamingJson) (e : Encoder) :
    AssistantMessageEvent U D H → Except String (Encoded U D H)
  | .textStart contentIndex shared => do
    match ← eventBlock "text_start" contentIndex shared with
    | .text content =>
      let e ← e.startBlock contentIndex (.chars .text content.text.length 0)
      .ok (some (.textStart contentIndex content), e)
    | other => .error (wrongBlock "text_start" other contentIndex)
  | .textDelta contentIndex delta _ => e.encodeTextDelta contentIndex delta .text
  | .textEnd contentIndex value shared => do
    match ← eventBlock "text_end" contentIndex shared with
    | .text content =>
      let e ← e.endBlock contentIndex .text
      .ok (some (.textEnd contentIndex value content.textSignature), e)
    | other => .error (wrongBlock "text_end" other contentIndex)
  | .thinkingStart contentIndex shared => do
    match ← eventBlock "thinking_start" contentIndex shared with
    | .thinking content =>
      let e ← e.startBlock contentIndex (.chars .thinking content.thinking.length 0)
      .ok (some (.thinkingStart contentIndex content), e)
    | other => .error (wrongBlock "thinking_start" other contentIndex)
  | .thinkingDelta contentIndex delta _ => e.encodeTextDelta contentIndex delta .thinking
  | .thinkingEnd contentIndex value shared => do
    match ← eventBlock "thinking_end" contentIndex shared with
    | .thinking content =>
      let e ← e.endBlock contentIndex .thinking
      .ok (some (.thinkingEnd contentIndex value content.thinkingSignature content.redacted), e)
    | other => .error (wrongBlock "thinking_end" other contentIndex)
  | .toolcallStart contentIndex shared => do
    match ← eventBlock "toolcall_start" contentIndex shared with
    | .toolCall toolCall =>
      let snapshotArguments := serializedArguments json toolCall.arguments
      let caughtUp := decide (snapshotArguments = EMPTY_PARSED_TOOL_ARGUMENTS json)
      let e ← e.startBlock contentIndex
        (.toolCall caughtUp [] (if caughtUp then [] else snapshotArguments))
      .ok (some (.toolcallStart contentIndex toolCall), e)
    | other => .error (wrongBlock "toolcall_start" other contentIndex)
  | .toolcallDelta contentIndex delta _ => e.encodeToolcallDelta json contentIndex delta
  | .toolcallEnd contentIndex toolCall shared => do
    match ← eventBlock "toolcall_end" contentIndex shared with
    | .toolCall _ =>
      let e ← e.endBlock contentIndex .toolCall
      .ok (some (.toolcallEnd contentIndex toolCall.id toolCall.name toolCall.arguments
        toolCall.thoughtSignature toolCall.namespace_), e)
    | other => .error (wrongBlock "toolcall_end" other contentIndex)
  | .start _ | .done _ | .error _ => .ok (none, e)

def encode (json : StreamingJson) (e : Encoder) (event : AssistantMessageEvent U D H) :
    Except String (Encoded U D H) :=
  if e.terminal then .error ("Assistant message event " ++ event.type ++ " follows a terminal event")
  else
    match event with
    | .start shared =>
      if e.started then .error "Assistant message stream contains more than one start event"
      else .ok (some (.start (cloneStartMessage shared)), { e with started := true })
    | .done _ =>
      if !e.started then .error "Assistant message done event appears before start"
      else .ok (none, { e with terminal := true })
    | .error _ => .ok (none, { e with terminal := true })
    | event =>
      if !e.started then .error ("Assistant message " ++ event.type ++ " event appears before start")
      else e.encodeBlockEvent json event

/-- The frames of a list of events. -/
def encodeAll (json : StreamingJson) (e : Encoder) :
    List (AssistantMessageEvent U D H) → Except String (List (AssistantMessageFrame U D H) × Encoder)
  | [] => .ok ([], e)
  | event :: events => do
    let (frame, e) ← e.encode json event
    let (frames, e) ← encodeAll json e events
    .ok (frame.toList ++ frames, e)

end Encoder

/-! ## The reducer -/

inductive ReducerBlockState where
  | text (ended : Bool)
  | thinking (ended : Bool)
  | toolCall (ended : Bool) (json : JsString)

def ReducerBlockState.kind : ReducerBlockState → Kind
  | .text _ => .text
  | .thinking _ => .thinking
  | .toolCall _ _ => .toolCall

def ReducerBlockState.ended : ReducerBlockState → Bool
  | .text ended => ended
  | .thinking ended => ended
  | .toolCall ended _ => ended

/-- The locals of the reducer; `beforeStart` is the type of the first frame before the start. -/
structure Reduction (U D H : Type) where
  message : Option (AssistantMessage U D H)
  beforeStart : Option String
  states : JsMap Int ReducerBlockState

def Reduction.initial : Reduction U D H := ⟨none, none, []⟩

def appendBlock (message : AssistantMessage U D H) (states : JsMap Int ReducerBlockState)
    (contentIndex : Int) (block : Block) (state : ReducerBlockState) :
    Except String (AssistantMessage U D H × JsMap Int ReducerBlockState) := do
  assertContentIndex contentIndex
  if contentIndex ≠ message.content.length then
    .error ("Cannot start assistant message block at index " ++ toString contentIndex ++ ": " ++
      if contentIndex < message.content.length then "already exists" else "would leave a gap")
  else .ok ({ message with content := message.content ++ [block] }, JsMap.set states contentIndex state)

def activeBlock (message : AssistantMessage U D H) (states : JsMap Int ReducerBlockState)
    (contentIndex : Int) (expectedKind : Kind) (frameType : String) :
    Except String (Block × ReducerBlockState) := do
  assertContentIndex contentIndex
  match JsMap.get states contentIndex, blockAt message.content contentIndex with
  | some state, some block =>
    if state.kind ≠ expectedKind ∨ block.kind ≠ expectedKind then
      .error (frameType ++ " frame expected " ++ expectedKind.name ++ " block at index " ++
        toString contentIndex ++ ", found " ++ block.kind.name)
    else if state.ended then
      .error (frameType ++ " frame follows the end of block at index " ++ toString contentIndex)
    else .ok (block, state)
  | _, _ => .error (frameType ++ " frame has no started block at index " ++ toString contentIndex)

/-- The block at an index of the message, changed in place. -/
def AssistantMessage.setBlock (message : AssistantMessage U D H) (contentIndex : Int) (block : Block) :
    AssistantMessage U D H :=
  { message with content := message.content.set contentIndex.toNat block }

/-- One frame after the start. -/
def reduceBlockFrame (json : StreamingJson) (message : AssistantMessage U D H) (states : JsMap Int ReducerBlockState)
    (frame : AssistantMessageFrame U D H) :
    Except String (AssistantMessage U D H × JsMap Int ReducerBlockState) := do
  match frame with
  | .start _ => .ok (message, states)
  | .textStart contentIndex content =>
    appendBlock message states contentIndex (.text content) (.text false)
  | .textDelta contentIndex delta =>
    match ← activeBlock message states contentIndex .text frame.type with
    | (.text content, _) =>
      .ok (message.setBlock contentIndex (.text { content with text := content.text ++ delta }), states)
    | _ => .error "Unreachable text frame state"
  | .textEnd contentIndex value textSignature =>
    match ← activeBlock message states contentIndex .text frame.type with
    | (.text _, _) =>
      .ok (message.setBlock contentIndex (.text ⟨value, textSignature⟩), JsMap.set states contentIndex (.text true))
    | _ => .error "Unreachable text frame state"
  | .thinkingStart contentIndex content =>
    appendBlock message states contentIndex (.thinking content) (.thinking false)
  | .thinkingDelta contentIndex delta =>
    match ← activeBlock message states contentIndex .thinking frame.type with
    | (.thinking content, _) =>
      .ok (message.setBlock contentIndex (.thinking { content with thinking := content.thinking ++ delta }), states)
    | _ => .error "Unreachable thinking frame state"
  | .thinkingEnd contentIndex value thinkingSignature redacted =>
    match ← activeBlock message states contentIndex .thinking frame.type with
    | (.thinking _, _) =>
      .ok (message.setBlock contentIndex (.thinking ⟨value, thinkingSignature, redacted⟩),
        JsMap.set states contentIndex (.thinking true))
    | _ => .error "Unreachable thinking frame state"
  | .toolcallStart contentIndex toolCall =>
    appendBlock message states contentIndex (.toolCall toolCall) (.toolCall false [])
  | .toolcallCheckpoint contentIndex text =>
    match ← activeBlock message states contentIndex .toolCall frame.type with
    | (.toolCall toolCall, .toolCall _ _) =>
      .ok (message.setBlock contentIndex
          (.toolCall { toolCall with arguments := parseStreamingJson json text }),
        JsMap.set states contentIndex (.toolCall false text))
    | _ => .error "Unreachable tool-call checkpoint state"
  | .toolcallDelta contentIndex delta =>
    match ← activeBlock message states contentIndex .toolCall frame.type with
    | (.toolCall _, .toolCall _ text) =>
      .ok (message, JsMap.set states contentIndex (.toolCall false (text ++ delta)))
    | _ => .error "Unreachable tool-call frame state"
  | .toolcallEnd contentIndex id name arguments thoughtSignature namespace_ =>
    match ← activeBlock message states contentIndex .toolCall frame.type with
    | (.toolCall _, .toolCall _ text) =>
      .ok (message.setBlock contentIndex (.toolCall ⟨id, name, arguments, thoughtSignature, namespace_⟩),
        JsMap.set states contentIndex (.toolCall true text))
    | _ => .error "Unreachable tool-call frame state"

def reduceFrame (json : StreamingJson) (r : Reduction U D H) (frame : AssistantMessageFrame U D H) :
    Except String (Reduction U D H) :=
  match frame, r.message, r.beforeStart with
  | .start _, some _, _ => .error "Assistant message frame sequence contains more than one start frame"
  | .start _, none, some type => .error (type ++ " frame appears before the start frame")
  | .start shared, none, none => .ok { r with message := some shared }
  | frame, none, beforeStart => .ok { r with beforeStart := beforeStart.or (some frame.type) }
  | frame, some message, _ => do
    let (message, states) ← reduceBlockFrame json message r.states frame
    .ok { r with message := some message, states := states }

/-- The arguments of the tool calls that have not ended. -/
def finishStates (json : StreamingJson) (message : AssistantMessage U D H) :
    JsMap Int ReducerBlockState → Except String (AssistantMessage U D H)
  | [] => .ok message
  | (contentIndex, .toolCall false text) :: states =>
    if text.length = 0 then finishStates json message states
    else
      match blockAt message.content contentIndex with
      | some (.toolCall toolCall) =>
        finishStates json (message.setBlock contentIndex
          (.toolCall { toolCall with arguments := parseStreamingJson json text })) states
      | _ => .error "Unreachable tool-call frame state"
  | _ :: states => finishStates json message states

def reduceAssistantMessageFrames (json : StreamingJson) (frames : List (AssistantMessageFrame U D H)) :
    Except String (Option (AssistantMessage U D H)) := do
  let r ← frames.foldlM (reduceFrame json) Reduction.initial
  match r.message with
  | none => .ok none
  | some message => (finishStates json message r.states).map some

end Shuvpi.Frames
