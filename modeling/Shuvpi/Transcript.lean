import Shuvpi.ToolDeclarations

/-!
# Transcripts

The replay helpers of `utils/transcript.ts` and `declareToolChanges` of the agent loop.
A transcript is a list of system messages and others; the system messages say, from the
first to the last, which tools the model may call and what its prompt is.
-/
namespace Shuvpi.Transcript

structure TextContent where
  text : JsString
  textSignature : Option JsString
  deriving DecidableEq

/-- `string | TextContent[]` -/
inductive SystemContent where
  | text (text : JsString)
  | blocks (blocks : List TextContent)
  deriving DecidableEq

structure SystemMessage (E : Type) where
  content : SystemContent
  sections : Option (JsProps (Option JsString))
  toolsAdded : Option (List (Tool E))
  toolsRemoved : Option (List ToolReference)
  timestamp : JsNumber

inductive Message (E M : Type) where
  | system (message : SystemMessage E)
  | other (message : M)

variable {E M : Type}

def Message.isSystem : Message E M → Bool
  | .system _ => true
  | .other _ => false

def Message.system? : Message E M → Option (SystemMessage E)
  | .system m => some m
  | .other _ => none

def Message.other? : Message E M → Option M
  | .system _ => none
  | .other m => some m

def systemMessages (messages : List (Message E M)) : List (SystemMessage E) := messages.filterMap Message.system?

def otherMessages (messages : List (Message E M)) : List M := messages.filterMap Message.other?

/-! ## Replay -/

def SystemMessage.removed (m : SystemMessage E) : List ToolReference := m.toolsRemoved.getD []
def SystemMessage.added (m : SystemMessage E) : List (Tool E) := m.toolsAdded.getD []

def replayTools (tools : JsMap JsString (Tool E)) (m : SystemMessage E) : JsMap JsString (Tool E) :=
  m.added.foldl (fun tools tool => tools.set tool.name tool)
    (m.removed.foldl (fun tools tool => tools.delete tool.name) tools)

def currentToolMap (messages : List (Message E M)) : JsMap JsString (Tool E) :=
  (systemMessages messages).foldl replayTools []

def getCurrentTools (messages : List (Message E M)) : List (Tool E) := (currentToolMap messages).map Prod.snd

/-- `contentText(content)` with its default separator. -/
def contentText : SystemContent → JsString
  | .text s => s
  | .blocks bs => [10].intercalate (bs.map TextContent.text)

def replaySection (sections : JsMap JsString JsString) (p : JsString × Option JsString) : JsMap JsString JsString :=
  match p.2 with
  | none => sections.delete p.1
  | some value => sections.set p.1 value

/-- The three local variables of `getCurrentSystemMessage`. -/
structure PromptState where
  content : List JsString
  sections : JsMap JsString JsString
  timestamp : Option JsNumber

def replayPrompt (st : PromptState) (m : SystemMessage E) : PromptState where
  content := if contentText m.content = [] then st.content else st.content ++ [contentText m.content]
  sections := (m.sections.getD []).foldl replaySection st.sections
  timestamp := some (st.timestamp.getD m.timestamp)

def fromEntries (entries : JsMap JsString JsString) : JsProps (Option JsString) :=
  entries.foldl (fun props p => JsProps.define props p.1 (some p.2)) []

def promptState (messages : List (Message E M)) : PromptState :=
  (systemMessages messages).foldl replayPrompt ⟨[], [], none⟩

def getCurrentSystemMessage (messages : List (Message E M)) : Option (SystemMessage E) :=
  let st := promptState messages
  let tools := getCurrentTools messages
  if st.timestamp = none ∧ tools = [] then none
  else some {
    content := .text ([10, 10].intercalate st.content)
    sections := if st.sections = [] then none else some (fromEntries st.sections)
    toolsAdded := if tools = [] then none else some tools
    toolsRemoved := none
    timestamp := st.timestamp.getD (JsNumber.ofInt 0) }

def getSystemMessageText (m : SystemMessage E) : JsString := [10, 10].intercalate
    ((contentText m.content :: (m.sections.getD []).filterMap Prod.snd).filter (· ≠ []))

def getCurrentSystemPrompt (messages : List (Message E M)) : JsString :=
  match getCurrentSystemMessage messages with
  | none => []
  | some m => getSystemMessageText m

def collapseSystemMessages (messages : List (Message E M)) : List (Message E M) :=
  let others := messages.filter (!·.isSystem)
  match getCurrentSystemMessage messages with
  | none => others
  | some head => .system head :: others

/-! ## Additions in place -/

/-- The names declared so far, unless one of them is declared again. -/
def declareOnce (declared : List JsString) : List (Tool E) → Option (List JsString)
  | [] => some declared
  | tool :: tools =>
    if tool.name ∈ declared then none else declareOnce (tool.name :: declared) tools

def nonAdditiveFrom (declared : List JsString) : List (Message E M) → Bool
  | [] => false
  | .other _ :: messages => nonAdditiveFrom declared messages
  | .system m :: messages =>
    if m.removed ≠ [] then true
    else
      match declareOnce declared m.added with
      | none => true
      | some declared => nonAdditiveFrom declared messages

def hasNonAdditiveToolChanges (messages : List (Message E M)) : Bool := nonAdditiveFrom [] messages

def getInitialSystemMessage (messages : List (Message E M)) : Option (SystemMessage E) :=
  messages.head?.bind Message.system?

structure TranscriptTools (E : Type) where
  requestTools : List (Tool E)
  anchorsAdditions : Bool

def resolveTranscriptTools (messages : List (Message E M)) (supportsToolAdditions : Bool) : TranscriptTools E :=
  let anchorsAdditions := supportsToolAdditions && !hasNonAdditiveToolChanges messages
  { requestTools :=
      if anchorsAdditions then
        match getInitialSystemMessage messages with
        | none => []
        | some m => m.added
      else getCurrentTools messages
    anchorsAdditions }

/-! ## Declaring the tools of the agent -/

structure AgentContext (E M : Type) where
  messages : List (Message E M)
  tools : Option (List (Tool E))

def NO_CHANGES : ToolStateChanges E := ⟨[], []⟩

def withToolChanges (m : SystemMessage E) (changes : ToolStateChanges E) : SystemMessage E :=
  { m with
    toolsAdded := if changes.toolsAdded = [] then none else some changes.toolsAdded
    toolsRemoved := if changes.toolsRemoved = [] then none else some changes.toolsRemoved }

/-- The last system message of a list, between what stands before and after it. -/
def lastSystem? : List (Message E M) → Option (List (Message E M) × SystemMessage E × List (Message E M))
  | [] => none
  | m :: ms =>
    match lastSystem? ms, m with
    | some (before, pending, after), m => some (m :: before, pending, after)
    | none, .system pending => some ([], pending, ms)
    | none, .other _ => none

/-- `now` stands for the timestamp of a new message. -/
def declareToolChanges (numbers : JsonNumbers) (now : JsNumber) (context : AgentContext E M)
    (pendingMessages : List (Message E M)) : List (Message E M) :=
  let current := (context.tools.getD []).map (toToolDeclaration numbers)
  match lastSystem? pendingMessages with
  | some (before, pending, after) =>
    let baseline := before ++ .system (withToolChanges pending NO_CHANGES) :: after
    let changes := getToolStateChanges numbers (getCurrentTools (context.messages ++ baseline)) current
    if changes.toolsAdded = [] ∧ changes.toolsRemoved = [] ∧ pending.added = [] ∧
        pending.removed = [] then pendingMessages
    else before ++ .system (withToolChanges pending changes) :: after
  | none =>
    let changes := getToolStateChanges numbers
      (getCurrentTools (context.messages ++ pendingMessages)) current
    if changes.toolsAdded = [] ∧ changes.toolsRemoved = [] then pendingMessages
    else
      pendingMessages.takeWhile Message.isSystem ++
        .system (withToolChanges ⟨.text [], none, none, none, now⟩ changes) ::
          pendingMessages.dropWhile Message.isSystem

end Shuvpi.Transcript
