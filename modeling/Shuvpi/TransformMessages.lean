import Shuvpi.JsMap

/-!
# Transcripts for a provider

`api/transform-messages.ts`: the two passes that prepare a message list for a model.
The first one downgrades images, rewrites the blocks of assistants of other models and
normalises tool call ids through a map; the second one closes every turn with tool calls
by a result for each of them. `R` holds the fields of a message that neither pass reads.
-/
namespace Shuvpi.Transform

structure TextContent where
  text : String
  textSignature : Option String
  deriving DecidableEq, Repr

structure ImageContent where
  data : String
  mimeType : String
  deriving DecidableEq, Repr

structure ThinkingContent where
  thinking : String
  thinkingSignature : Option String
  redacted : Bool
  deriving DecidableEq, Repr

structure ToolCall (R : Type) where
  id : String
  name : String
  thoughtSignature : Option String
  rest : R
  deriving DecidableEq, Repr

inductive UserBlock where
  | text (block : TextContent)
  | image (block : ImageContent)
  deriving DecidableEq, Repr

inductive AssistantBlock (R : Type) where
  | text (block : TextContent)
  | thinking (block : ThinkingContent)
  | toolCall (call : ToolCall R)
  deriving DecidableEq, Repr

/-- `string | Block[]`; `null` and `undefined` come from untyped callers. -/
inductive Content (β : Type) where
  | nullish
  | text (text : String)
  | blocks (blocks : List β)
  deriving DecidableEq, Repr

inductive StopReason where
  | pending | stop | length | toolUse | error | aborted | deferred
  deriving DecidableEq, Repr

structure SystemMessage (R : Type) where
  content : Content TextContent
  rest : R
  deriving DecidableEq, Repr

structure UserMessage (R : Type) where
  content : Content UserBlock
  rest : R
  deriving DecidableEq, Repr

structure AssistantMessage (R : Type) where
  content : Option (List (AssistantBlock R))
  api : String
  provider : String
  model : String
  stopReason : StopReason
  rest : R
  deriving DecidableEq, Repr

structure ToolResultMessage (R : Type) where
  toolCallId : String
  toolName : String
  content : Option (List UserBlock)
  isError : Bool
  rest : R
  deriving DecidableEq, Repr

inductive Message (R : Type) where
  | system (msg : SystemMessage R)
  | user (msg : UserMessage R)
  | assistant (msg : AssistantMessage R)
  | toolResult (msg : ToolResultMessage R)
  deriving DecidableEq, Repr

inductive Modality where
  | text | image
  deriving DecidableEq, Repr

structure Model where
  id : String
  api : String
  provider : String
  input : List Modality
  deriving DecidableEq, Repr

variable {R : Type}

/-! ## Content -/

def NON_VISION_USER_IMAGE_PLACEHOLDER : String := "(image omitted: model does not support images)"
def NON_VISION_TOOL_IMAGE_PLACEHOLDER : String := "(tool image omitted: model does not support images)"

/-- The loop of `replaceImagesWithPlaceholder`, with `previousWasPlaceholder` as it goes. -/
def replaceImages (placeholder : String) : Bool → List UserBlock → List UserBlock
  | _, [] => []
  | previous, .image _ :: bs =>
    (if previous then [] else [.text ⟨placeholder, none⟩]) ++ replaceImages placeholder true bs
  | _, .text t :: bs => .text t :: replaceImages placeholder (t.text = placeholder) bs

def replaceImagesWithPlaceholder (content : List UserBlock) (placeholder : String) :
    List UserBlock := replaceImages placeholder false content

def Content.normalize {β : Type} : Content β → Content β
  | .nullish => .blocks []
  | c => c

def normalizeContent : Message R → Message R
  | .system m => .system { m with content := m.content.normalize }
  | .user m => .user { m with content := m.content.normalize }
  | .assistant m => .assistant { m with content := some (m.content.getD []) }
  | .toolResult m => .toolResult { m with content := some (m.content.getD []) }

def downgradeUserContent : Content UserBlock → Content UserBlock
  | .blocks bs => .blocks (replaceImagesWithPlaceholder bs NON_VISION_USER_IMAGE_PLACEHOLDER)
  | c => c

def downgradeMessage : Message R → Message R
  | .user m => .user { m with content := downgradeUserContent m.content }
  | .toolResult m => .toolResult { m with
      content := m.content.map (replaceImagesWithPlaceholder · NON_VISION_TOOL_IMAGE_PLACEHOLDER) }
  | m => m

def downgradeUnsupportedImages (messages : List (Message R)) (model : Model) : List (Message R) :=
  if Modality.image ∈ model.input then messages else messages.map downgradeMessage

/-! ## First pass -/

/-- What `String.prototype.trim` removes. -/
def isSpace (c : Char) : Bool :=
  c.toNat ∈ [0x9, 0xa, 0xb, 0xc, 0xd, 0x20, 0xa0, 0x1680, 0x2028, 0x2029, 0x202f, 0x205f, 0x3000,
    0xfeff] || (0x2000 ≤ c.toNat && c.toNat ≤ 0x200a)

/-- The truth value of an optional string. -/
def truthy : Option String → Bool
  | none => false
  | some s => s ≠ ""

/-- `normalizeToolCallId(id, model, source)`, when the caller gives one. -/
abbrev Normalizer (R : Type) := Option (String → Model → AssistantMessage R → String)

def AssistantMessage.isSameModel (a : AssistantMessage R) (model : Model) : Bool :=
  a.provider = model.provider && a.api = model.api && a.model = model.id

def AssistantMessage.blocks (a : AssistantMessage R) : List (AssistantBlock R) := a.content.getD []

def AssistantBlock.toolCall? : AssistantBlock R → Option (ToolCall R)
  | .toolCall tc => some tc
  | _ => none

def AssistantMessage.toolCalls (a : AssistantMessage R) : List (ToolCall R) :=
  a.blocks.filterMap AssistantBlock.toolCall?

def AssistantMessage.callIds (a : AssistantMessage R) : List String := a.toolCalls.map ToolCall.id

/-- Errored and aborted turns are not replayed. -/
def AssistantMessage.skipped (a : AssistantMessage R) : Bool := a.stopReason = .error || a.stopReason = .aborted

/-- The id that a call of `a` is sent under. -/
def normalizedId (normalizer : Normalizer R) (model : Model) (a : AssistantMessage R)
    (id : String) : String :=
  if a.isSameModel model then id
  else match normalizer with
    | none => id
    | some f => f id model a

def transformThinking (same : Bool) (block : ThinkingContent) : List (AssistantBlock R) :=
  if block.redacted then if same then [.thinking block] else []
  else if same && truthy block.thinkingSignature then [.thinking block]
  else if block.thinking = "" || block.thinking.toList.all isSpace then []
  else if same then [.thinking block]
  else [.text ⟨block.thinking, none⟩]

def transformToolCall (normalizer : Normalizer R) (model : Model) (a : AssistantMessage R)
    (call : ToolCall R) : ToolCall R :=
  let unsigned := if !a.isSameModel model && truthy call.thoughtSignature then
    { call with thoughtSignature := none } else call
  let id := normalizedId normalizer model a call.id
  if id ≠ call.id then { unsigned with id := id } else unsigned

def transformBlock (normalizer : Normalizer R) (model : Model) (a : AssistantMessage R) :
    AssistantBlock R → List (AssistantBlock R)
  | .thinking block => transformThinking (a.isSameModel model) block
  | .text block => [.text (if a.isSameModel model then block else ⟨block.text, none⟩)]
  | .toolCall call => [.toolCall (transformToolCall normalizer model a call)]

def transformAssistant (normalizer : Normalizer R) (model : Model) (a : AssistantMessage R) : AssistantMessage R :=
  { a with content := some (a.blocks.flatMap (transformBlock normalizer model a)) }

/-- The entries that the calls of `a` leave in `toolCallIdMap`. -/
def recordIds (normalizer : Normalizer R) (model : Model) (a : AssistantMessage R)
    (ids : JsMap String String) : JsMap String String :=
  a.callIds.foldl (fun ids id =>
    if normalizedId normalizer model a id ≠ id then ids.set id (normalizedId normalizer model a id)
    else ids) ids

def renameResult (ids : JsMap String String) (r : ToolResultMessage R) : ToolResultMessage R :=
  match ids.get r.toolCallId with
  | none => r
  | some id => if id ≠ "" && id ≠ r.toolCallId then { r with toolCallId := id } else r

def firstPass (normalizer : Normalizer R) (model : Model) : JsMap String String → List (Message R) → List (Message R)
  | _, [] => []
  | ids, .system m :: ms => .system m :: firstPass normalizer model ids ms
  | ids, .user m :: ms => .user m :: firstPass normalizer model ids ms
  | ids, .toolResult r :: ms =>
    .toolResult (renameResult ids r) :: firstPass normalizer model ids ms
  | ids, .assistant a :: ms =>
    .assistant (transformAssistant normalizer model a) ::
      firstPass normalizer model (recordIds normalizer model a ids) ms

/-! ## Second pass -/

structure PassState (R : Type) where
  result : List (Message R)
  pendingToolCalls : List (ToolCall R)
  existingToolResultIds : List String
  heldSystemMessages : List (SystemMessage R)

def PassState.initial : PassState R := ⟨[], [], [], []⟩

/-- The result invented for a call; `now` stands for its timestamp. -/
def noResult (now : R) (call : ToolCall R) : ToolResultMessage R :=
  ⟨call.id, call.name, some [.text ⟨"No result provided", none⟩], true, now⟩

def missingResults (now : R) (calls : List (ToolCall R)) (existing : List String) : List (ToolResultMessage R) :=
  (calls.filter fun tc => tc.id ∉ existing).map (noResult now)

def closePendingToolCalls (now : R) (st : PassState R) : PassState R where
  result := st.result ++ (missingResults now st.pendingToolCalls st.existingToolResultIds).map .toolResult ++
    st.heldSystemMessages.map .system
  pendingToolCalls := []
  existingToolResultIds := if st.pendingToolCalls = [] then st.existingToolResultIds else []
  heldSystemMessages := []

def PassState.push (st : PassState R) (m : Message R) : PassState R := { st with result := st.result ++ [m] }

def PassState.track (st : PassState R) (calls : List (ToolCall R)) : PassState R :=
  if calls = [] then st else { st with pendingToolCalls := calls, existingToolResultIds := [] }

def secondStep (now : R) (st : PassState R) : Message R → PassState R
  | .assistant a =>
    let closed := closePendingToolCalls now st
    if a.skipped then closed else (closed.track a.toolCalls).push (.assistant a)
  | .toolResult r =>
    { st with
      existingToolResultIds := r.toolCallId :: st.existingToolResultIds
      result := st.result ++ [.toolResult r] }
  | .system m =>
    if st.pendingToolCalls = [] then st.push (.system m)
    else { st with heldSystemMessages := st.heldSystemMessages ++ [m] }
  | .user m => (closePendingToolCalls now st).push (.user m)

def secondPass (now : R) (messages : List (Message R)) : List (Message R) :=
  (closePendingToolCalls now (messages.foldl (secondStep now) .initial)).result

def imageAwareMessages (messages : List (Message R)) (model : Model) : List (Message R) :=
  downgradeUnsupportedImages (messages.map normalizeContent) model

def transformMessages (now : R) (messages : List (Message R)) (model : Model)
    (normalizer : Normalizer R) : List (Message R) :=
  secondPass now (firstPass normalizer model [] (imageAwareMessages messages model))

end Shuvpi.Transform
