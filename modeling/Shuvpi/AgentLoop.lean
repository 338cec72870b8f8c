import Shuvpi.TimedLog
import Shuvpi.TransformMessages
import Shuvpi.Transcript

/-!
# The agent loop

`agent-loop.ts`: from prompts to `agent_end`. What surrounds the loop is asked at the time
it is asked: the hooks of the configuration, the provider's streams, the tools and the order
in which concurrent ones proceed, the abort signal and the clock are functions of the
moment, so that each of them ranges over everything that it can do in a run. The log holds
the events, and what every poll of a queue and every `prepareNextTurn` handed out.

`V` is the type of the values that the loop hands on without reading them.
-/
namespace Shuvpi.AgentLoop

open TimedLog
open Transform (StopReason)
open Transcript (JsonNumbers declareToolChanges)
open JsText (ofString)

/-! ## Messages -/

inductive ToolExecutionMode where
  | sequential | parallel
  deriving DecidableEq

/-- What the loop reads of an executable tool besides its declaration. -/
structure AgentToolFields where
  executionMode : Option ToolExecutionMode
  deriving DecidableEq

abbrev AgentTool := Transcript.Tool AgentToolFields

structure AgentToolCall (V : Type) where
  id : JsString
  name : JsString
  arguments : V
  deriving DecidableEq

inductive AssistantContent (V : Type) where
  | toolCall (call : AgentToolCall V)
  | other (block : V)
  deriving DecidableEq

structure AssistantMessage (V : Type) where
  content : List (AssistantContent V)
  stopReason : StopReason
  rest : V
  deriving DecidableEq

inductive ResultContent (V : Type) where
  | text (text : JsString)
  | other (block : V)
  deriving DecidableEq

/-- `{}`, or what a tool returned, which may be nothing. -/
inductive Details (V : Type) where
  | empty
  | value (value : Option V)
  deriving DecidableEq

structure ToolResultMessage (V : Type) where
  toolCallId : JsString
  toolName : JsString
  content : List (ResultContent V)
  details : Details V
  usage : Option V
  isError : Bool
  timestamp : JsNumber
  deriving DecidableEq

/-- The messages other than system messages; `custom` are user messages and those of the
application. -/
inductive Said (V : Type) where
  | assistant (message : AssistantMessage V)
  | toolResult (message : ToolResultMessage V)
  | custom (message : V)
  deriving DecidableEq

abbrev AgentMessage (V : Type) := Transcript.Message AgentToolFields (Said V)
abbrev AgentContext (V : Type) := Transcript.AgentContext AgentToolFields (Said V)

/-- Untyped tools can return a result without content. -/
structure AgentToolResult (V : Type) where
  content : Option (List (ResultContent V))
  details : Details V
  usage : Option V
  terminate : Option Bool

variable {V : Type}

def AssistantMessage.toolCalls (m : AssistantMessage V) : List (AgentToolCall V) := m.content.filterMap fun
    | .toolCall call => some call
    | .other _ => none

def AssistantMessage.failed (m : AssistantMessage V) : Prop := m.stopReason = .error ∨ m.stopReason = .aborted

instance (m : AssistantMessage V) : Decidable m.failed := inferInstanceAs (Decidable (_ ∨ _))

def assistant (m : AssistantMessage V) : AgentMessage V := .other (.assistant m)
def toolResult (m : ToolResultMessage V) : AgentMessage V := .other (.toolResult m)

/-! ## Events -/

inductive Event (V : Type) where
  | agentStart
  | agentEnd (messages : List (AgentMessage V))
  | turnStart
  | turnEnd (message : AssistantMessage V) (toolResults : List (ToolResultMessage V))
  | messageStart (message : AgentMessage V)
  | messageUpdate (message : AgentMessage V) (update : V)
  | messageEnd (message : AgentMessage V)
  | toolExecutionStart (toolCallId toolName : JsString) (args : V)
  | toolExecutionUpdate (toolCallId toolName : JsString) (args : V) (partialResult : AgentToolResult V)
  | toolExecutionEnd (toolCallId toolName : JsString) (result : AgentToolResult V) (isError : Bool)

inductive Happening (V : Type) where
  | emitted (event : Event V)
  /-- What `getSteeringMessages` or `getFollowUpMessages` returned. -/
  | handed (messages : List (AgentMessage V))
  /-- The messages that `prepareNextTurn` returned. -/
  | prepared (messages : List (AgentMessage V))

abbrev Loop (V α : Type) := Timed (Happening V) α

def emit (event : Event V) : Loop V Unit := write (.emitted event)

/-- `message_start` and `message_end` of a message that is not streamed. -/
def say (message : AgentMessage V) : Loop V Unit := do
  emit (.messageStart message)
  emit (.messageEnd message)

def sayAll : List (AgentMessage V) → Loop V Unit
  | [] => pure ()
  | message :: messages => do
    say message
    sayAll messages

/-! ## What surrounds the loop -/

inductive ThinkingLevel where
  | off | minimal | low | medium | high | xhigh | max | ultra
  deriving DecidableEq

/-- The part of the configuration that a run replaces. -/
structure Settings (V : Type) where
  model : V
  reasoning : Option ThinkingLevel

inductive AssistantMessageEvent (V : Type) where
  | start (snapshot : AssistantMessage V)
  /-- The nine events of blocks, from `text_start` to `toolcall_end`. -/
  | update (snapshot : AssistantMessage V) (event : V)
  /-- `done` and `error` -/
  | finish

def AssistantMessageEvent.isStart : AssistantMessageEvent V → Bool
  | .start _ => true
  | _ => false

/-- A stream of the provider and its `result()`. Its protocol has one `start`, if any. -/
structure Response (V : Type) where
  events : List (AssistantMessageEvent V)
  result : AssistantMessage V
  oneStart : (events.filter AssistantMessageEvent.isStart).length ≤ 1

structure AgentTurnContext (V : Type) where
  message : AssistantMessage V
  toolResults : List (ToolResultMessage V)
  context : AgentContext V
  newMessages : List (AgentMessage V)

inductive AgentTurnDecision where
  | continue | end
  deriving DecidableEq

structure AgentRequestUpdate (V : Type) where
  context : Option (AgentContext V)
  model : Option V
  thinkingLevel : Option ThinkingLevel

structure AgentLoopTurnUpdate (V : Type) extends AgentRequestUpdate V where
  messages : Option (List (AgentMessage V))

structure PrepareRequestContext (V : Type) where
  context : AgentContext V
  model : V
  thinkingLevel : ThinkingLevel

structure BeforeToolCallContext (V : Type) where
  assistantMessage : AssistantMessage V
  toolCall : AgentToolCall V
  args : V
  context : AgentContext V

structure BeforeToolCallResult where
  block : Bool
  reason : JsString
  terminate : Option Bool

structure AfterToolCallContext (V : Type) extends BeforeToolCallContext V where
  result : AgentToolResult V
  isError : Bool

structure AfterToolCallResult (V : Type) where
  content : Option (List (ResultContent V))
  details : Option (Details V)
  isError : Option Bool
  usage : Option V
  terminate : Option Bool

/-- The configuration; a hook that is not there answers as one that returns nothing. The
text of an `error` is the message of what a hook threw. -/
structure AgentLoopConfig (V : Type) where
  toolExecution : Option ToolExecutionMode
  transformContext : Nat → List (AgentMessage V) → List (AgentMessage V)
  convertToLlm : Nat → List (AgentMessage V) → List V
  getSteeringMessages : Nat → List (AgentMessage V)
  getFollowUpMessages : Nat → List (AgentMessage V)
  prepareNextTurn : Nat → AgentTurnContext V → Option (AgentLoopTurnUpdate V)
  prepareRequest : Nat → PrepareRequestContext V → Option (AgentRequestUpdate V)
  finishTurn : Nat → AgentTurnContext V → Option AgentTurnDecision
  beforeToolCall : Nat → BeforeToolCallContext V → Except JsString (Option BeforeToolCallResult)
  afterToolCall : Nat → AfterToolCallContext V → Except JsString (Option (AfterToolCallResult V))

/-- An abort signal, which stays aborted. -/
structure Signal where
  aborted : Nat → Bool
  stays : ∀ s t, s ≤ t → aborted s = true → aborted t = true

/-- What `tool.execute` does: the updates it reports, and its result or what it throws. -/
structure Execution (V : Type) where
  updates : List (AgentToolResult V)
  outcome : Except JsString (AgentToolResult V)

structure World (V : Type) where
  numbers : JsonNumbers
  dateNow : Nat → JsNumber
  signal : Signal
  streamFunction : Nat → Settings V → List V → Response V
  /-- `prepareArguments` of a tool and `validateToolArguments`. -/
  toolArguments : Nat → AgentTool → AgentToolCall V → Except JsString V
  execute : Nat → AgentTool → AgentToolCall V → V → Execution V
  /-- Which of the concurrent executions takes its next step, one after the other. -/
  schedule : Nat → List Nat

section Loop
variable (world : World V) (config : AgentLoopConfig V)

def aborted : Loop V Bool := do return world.signal.aborted (← moment)

def dateNow : Loop V JsNumber := do return world.dateNow (← moment)

def getSteeringMessages : Loop V (List (AgentMessage V)) := do
  let messages := config.getSteeringMessages (← moment)
  write (.handed messages)
  return messages

def getFollowUpMessages : Loop V (List (AgentMessage V)) := do
  let messages := config.getFollowUpMessages (← moment)
  write (.handed messages)
  return messages

/-! ## The response -/

/-- The loop over the events of a response. The last message of the context is the partial
one from the `start` on; `addedPartial` of the source is set exactly when there is one. -/
def streamEvents (result : AssistantMessage V) : List (AssistantMessageEvent V) →
    Option (AssistantMessage V) → List (AgentMessage V) → Loop V (List (AgentMessage V))
  | .start snapshot :: events, _, messages => do
    emit (.messageStart (assistant snapshot))
    streamEvents result events (some snapshot) (messages ++ [assistant snapshot])
  | .update snapshot event :: events, some _, messages => do
    emit (.messageUpdate (assistant snapshot) event)
    streamEvents result events (some snapshot) (messages.dropLast ++ [assistant snapshot])
  | .update _ _ :: events, none, messages => streamEvents result events none messages
  | .finish :: _, some _, messages | [], some _, messages => do
    emit (.messageEnd (assistant result))
    return messages.dropLast ++ [assistant result]
  | .finish :: _, none, messages | [], none, messages => do
    emit (.messageStart (assistant result))
    emit (.messageEnd (assistant result))
    return messages ++ [assistant result]

/-- The final message, and the messages of the context with it. -/
def streamAssistantResponse (context : AgentContext V) (settings : Settings V) :
    Loop V (AssistantMessage V × List (AgentMessage V)) := do
  let messages := config.transformContext (← moment) context.messages
  let llmMessages := config.convertToLlm (← moment) messages
  let response := world.streamFunction (← moment) settings llmMessages
  let messages ← streamEvents response.result response.events none context.messages
  return (response.result, messages)

/-! ## Tool calls -/

structure FinalizedToolCallOutcome (V : Type) where
  toolCall : AgentToolCall V
  result : AgentToolResult V
  isError : Bool

structure ExecutedToolCallBatch (V : Type) where
  messages : List (ToolResultMessage V)
  terminate : Bool

def createErrorToolResult (message : JsString) : AgentToolResult V where
  content := some [.text message]
  details := .empty
  usage := none
  terminate := none

def shouldTerminateToolBatch (finalizedCalls : List (FinalizedToolCallOutcome V)) : Bool :=
  !finalizedCalls.isEmpty && finalizedCalls.all fun finalized => finalized.result.terminate = some true

def emitToolExecutionStart (toolCall : AgentToolCall V) : Loop V Unit :=
  emit (.toolExecutionStart toolCall.id toolCall.name toolCall.arguments)

def emitToolExecutionEnd (finalized : FinalizedToolCallOutcome V) : Loop V Unit :=
  emit (.toolExecutionEnd finalized.toolCall.id finalized.toolCall.name finalized.result
    finalized.isError)

def createToolResultMessage (finalized : FinalizedToolCallOutcome V) :
    Loop V (ToolResultMessage V) := do
  return {
    toolCallId := finalized.toolCall.id
    toolName := finalized.toolCall.name
    content := finalized.result.content.getD []
    details := finalized.result.details
    usage := finalized.result.usage
    isError := finalized.isError
    timestamp := ← dateNow world }

/-- The message of an outcome, created and emitted. -/
def reportToolResult (finalized : FinalizedToolCallOutcome V) : Loop V (ToolResultMessage V) := do
  let toolResultMessage ← createToolResultMessage world finalized
  say (toolResult toolResultMessage)
  return toolResultMessage

def failEach : List (AgentToolCall V) → Loop V (List (ToolResultMessage V))
  | [] => return []
  | toolCall :: toolCalls => do
    emitToolExecutionStart toolCall
    let finalized : FinalizedToolCallOutcome V := {
      toolCall
      result := createErrorToolResult (ofString "Tool call \"" ++ toolCall.name ++ ofString
        "\" was not executed: the response hit the output token limit, so its arguments may be truncated. Re-issue the tool call with complete arguments.")
      isError := true }
    emitToolExecutionEnd finalized
    let message ← reportToolResult world finalized
    return message :: (← failEach toolCalls)

def failToolCallsFromTruncatedMessage (toolCalls : List (AgentToolCall V)) :
    Loop V (ExecutedToolCallBatch V) := do
  return ⟨← failEach world toolCalls, false⟩

structure PreparedToolCall (V : Type) where
  toolCall : AgentToolCall V
  tool : AgentTool
  args : V

inductive ToolCallPreparation (V : Type) where
  | immediate (result : AgentToolResult V) (isError : Bool)
  | prepared (call : PreparedToolCall V)

/-- The result of a call that `beforeToolCall` blocks; an empty reason counts as none. -/
def blockedResult (before : BeforeToolCallResult) : AgentToolResult V :=
  let result := createErrorToolResult
    (if before.reason = [] then ofString "Tool execution was blocked" else before.reason)
  if before.terminate = some true then { result with terminate := some true } else result

/-- The signal is read once here: with a hook, the second check of the source repeats the
first one, and without a hook it is the only one. -/
def prepareToolCall (currentContext : AgentContext V) (assistantMessage : AssistantMessage V)
    (toolCall : AgentToolCall V) : Loop V (ToolCallPreparation V) := do
  match (currentContext.tools.getD []).find? fun tool => tool.name = toolCall.name with
  | none =>
    return .immediate (createErrorToolResult
      (ofString "Tool " ++ toolCall.name ++ ofString " not found")) true
  | some tool =>
    match world.toolArguments (← moment) tool toolCall with
    | .error message => return .immediate (createErrorToolResult message) true
    | .ok args =>
      match config.beforeToolCall (← moment) ⟨assistantMessage, toolCall, args, currentContext⟩ with
      | .error message => return .immediate (createErrorToolResult message) true
      | .ok beforeResult =>
        if ← aborted world then
          return .immediate (createErrorToolResult (ofString "Operation aborted")) true
        else
          match beforeResult.filter (·.block) with
          | some before => return .immediate (blockedResult before) true
          | none => return .prepared ⟨toolCall, tool, args⟩

def emitToolExecutionUpdate (prepared : PreparedToolCall V) (partialResult : AgentToolResult V) : Loop V Unit :=
  emit (.toolExecutionUpdate prepared.toolCall.id prepared.toolCall.name prepared.toolCall.arguments
    partialResult)

def emitUpdates (prepared : PreparedToolCall V) : List (AgentToolResult V) → Loop V Unit
  | [] => pure ()
  | partialResult :: updates => do
    emitToolExecutionUpdate prepared partialResult
    emitUpdates prepared updates

def startExecution (prepared : PreparedToolCall V) : Loop V (Execution V) := do
  return world.execute (← moment) prepared.tool prepared.toolCall prepared.args

/-- What an execution comes to: its result, or an error result with what it threw. -/
def executedOutcome : Except JsString (AgentToolResult V) → AgentToolResult V × Bool
  | .ok result => (result, false)
  | .error message => (createErrorToolResult message, true)

def mergeResult (result : AgentToolResult V) (after : AfterToolCallResult V) : AgentToolResult V where
  content := after.content.or result.content
  details := after.details.getD result.details
  usage := after.usage.or result.usage
  terminate := after.terminate.or result.terminate

def finalizeExecutedToolCall (currentContext : AgentContext V)
    (assistantMessage : AssistantMessage V) (prepared : PreparedToolCall V)
    (outcome : Except JsString (AgentToolResult V)) : Loop V (FinalizedToolCallOutcome V) := do
  let (result, isError) := executedOutcome outcome
  match config.afterToolCall (← moment)
      ⟨⟨assistantMessage, prepared.toolCall, prepared.args, currentContext⟩, result, isError⟩ with
  | .error message => return ⟨prepared.toolCall, createErrorToolResult message, true⟩
  | .ok none => return ⟨prepared.toolCall, result, isError⟩
  | .ok (some after) =>
    return ⟨prepared.toolCall, mergeResult result after, after.isError.getD isError⟩

/-- Preparation, execution and finalisation of one call. -/
def runToolCall (currentContext : AgentContext V) (assistantMessage : AssistantMessage V)
    (toolCall : AgentToolCall V) : Loop V (FinalizedToolCallOutcome V) := do
  match ← prepareToolCall world config currentContext assistantMessage toolCall with
  | .immediate result isError => return ⟨toolCall, result, isError⟩
  | .prepared prepared => do
    let execution ← startExecution world prepared
    emitUpdates prepared execution.updates
    finalizeExecutedToolCall config currentContext assistantMessage prepared execution.outcome

/-- The loop over the calls, with what it pushes to `finalizedCalls` and to `messages`. -/
def runEach (currentContext : AgentContext V) (assistantMessage : AssistantMessage V) :
    List (AgentToolCall V) → Loop V (List (FinalizedToolCallOutcome V × ToolResultMessage V))
  | [] => return []
  | toolCall :: toolCalls => do
    emitToolExecutionStart toolCall
    let finalized ← runToolCall world config currentContext assistantMessage toolCall
    emitToolExecutionEnd finalized
    let message ← reportToolResult world finalized
    if ← aborted world then return [(finalized, message)]
    else return (finalized, message) :: (← runEach currentContext assistantMessage toolCalls)

def executeToolCallsSequential (currentContext : AgentContext V)
    (assistantMessage : AssistantMessage V) (toolCalls : List (AgentToolCall V)) :
    Loop V (ExecutedToolCallBatch V) := do
  let done ← runEach world config currentContext assistantMessage toolCalls
  return ⟨done.map Prod.snd, shouldTerminateToolBatch (done.map Prod.fst)⟩

/-- `FinalizedToolCallOutcome`, or the function that produces one. -/
inductive FinalizedToolCallEntry (V : Type) where
  | finalized (outcome : FinalizedToolCallOutcome V)
  | deferred (call : PreparedToolCall V)

/-- What is pushed to `finalizedCalls`: an immediate outcome is reported at once. -/
def entryOf (toolCall : AgentToolCall V) : ToolCallPreparation V → Loop V (FinalizedToolCallEntry V)
  | .immediate result isError => do
    emitToolExecutionEnd ⟨toolCall, result, isError⟩
    return .finalized ⟨toolCall, result, isError⟩
  | .prepared prepared => return .deferred prepared

/-- The loop that prepares the calls one after the other. -/
def prepareEach (currentContext : AgentContext V) (assistantMessage : AssistantMessage V) :
    List (AgentToolCall V) → Loop V (List (FinalizedToolCallEntry V))
  | [] => return []
  | toolCall :: toolCalls => do
    emitToolExecutionStart toolCall
    let preparation ← prepareToolCall world config currentContext assistantMessage toolCall
    let entry ← entryOf toolCall preparation
    if ← aborted world then return [entry]
    else return entry :: (← prepareEach currentContext assistantMessage toolCalls)

/-- One of the promises that `Promise.all` waits for. -/
inductive PendingToolCall (V : Type) where
  | settled (outcome : FinalizedToolCallOutcome V)
  | running (call : PreparedToolCall V) (execution : Execution V)

/-- The synchronous part of an entry's function. -/
def startEntry : FinalizedToolCallEntry V → Loop V (PendingToolCall V)
  | .finalized outcome => return .settled outcome
  | .deferred prepared => do
    if ← aborted world then
      let finalized := ⟨prepared.toolCall, createErrorToolResult (ofString "Operation aborted"), true⟩
      emitToolExecutionEnd finalized
      return .settled finalized
    else return .running prepared (← startExecution world prepared)

def startEach : List (FinalizedToolCallEntry V) → Loop V (List (PendingToolCall V))
  | [] => return []
  | entry :: entries => do
    let pending ← startEntry world entry
    return pending :: (← startEach entries)

/-- A running call reports its next update or, after the last one, ends. -/
def proceed (currentContext : AgentContext V) (assistantMessage : AssistantMessage V) :
    PendingToolCall V → Loop V (PendingToolCall V)
  | .settled outcome => return .settled outcome
  | .running prepared ⟨partialResult :: updates, outcome⟩ => do
    emitToolExecutionUpdate prepared partialResult
    return .running prepared ⟨updates, outcome⟩
  | .running prepared ⟨[], outcome⟩ => do
    let finalized ← finalizeExecutedToolCall config currentContext assistantMessage prepared outcome
    emitToolExecutionEnd finalized
    return .settled finalized

def proceedAt (currentContext : AgentContext V) (assistantMessage : AssistantMessage V) :
    Nat → List (PendingToolCall V) → Loop V (List (PendingToolCall V))
  | _, [] => return []
  | 0, pending :: rest => return (← proceed config currentContext assistantMessage pending) :: rest
  | i + 1, pending :: rest => do
    return pending :: (← proceedAt currentContext assistantMessage i rest)

/-- The steps that the schedule names. -/
def interleave (currentContext : AgentContext V) (assistantMessage : AssistantMessage V) :
    List Nat → List (PendingToolCall V) → Loop V (List (PendingToolCall V))
  | [], calls => return calls
  | i :: schedule, calls => do
    interleave currentContext assistantMessage schedule
      (← proceedAt config currentContext assistantMessage i calls)

/-- The rest of a call that the schedule left running. -/
def settle (currentContext : AgentContext V) (assistantMessage : AssistantMessage V) :
    PendingToolCall V → Loop V (FinalizedToolCallOutcome V)
  | .settled outcome => return outcome
  | .running prepared execution => do
    emitUpdates prepared execution.updates
    let finalized ← finalizeExecutedToolCall config currentContext assistantMessage prepared
      execution.outcome
    emitToolExecutionEnd finalized
    return finalized

def settleEach (currentContext : AgentContext V) (assistantMessage : AssistantMessage V) :
    List (PendingToolCall V) → Loop V (List (FinalizedToolCallOutcome V))
  | [] => return []
  | pending :: rest => do
    let finalized ← settle config currentContext assistantMessage pending
    return finalized :: (← settleEach currentContext assistantMessage rest)

def reportEach : List (FinalizedToolCallOutcome V) → Loop V (List (ToolResultMessage V))
  | [] => return []
  | finalized :: rest => do
    let message ← reportToolResult world finalized
    return message :: (← reportEach rest)

def executeToolCallsParallel (currentContext : AgentContext V)
    (assistantMessage : AssistantMessage V) (toolCalls : List (AgentToolCall V)) :
    Loop V (ExecutedToolCallBatch V) := do
  let finalizedCalls ← prepareEach world config currentContext assistantMessage toolCalls
  let started ← startEach world finalizedCalls
  let calls ← interleave config currentContext assistantMessage (world.schedule (← moment)) started
  let orderedFinalizedCalls ← settleEach config currentContext assistantMessage calls
  let messages ← reportEach world orderedFinalizedCalls
  return ⟨messages, shouldTerminateToolBatch orderedFinalizedCalls⟩

def executionModeOf (tool : AgentTool) : Option ToolExecutionMode := tool.extra.bind AgentToolFields.executionMode

def executeToolCalls (currentContext : AgentContext V) (assistantMessage : AssistantMessage V) :
    Loop V (ExecutedToolCallBatch V) :=
  let toolCalls := assistantMessage.toolCalls
  let hasSequentialToolCall := toolCalls.any fun tc =>
    ((currentContext.tools.getD []).find? fun t => t.name = tc.name).bind executionModeOf = some .sequential
  if config.toolExecution = some .sequential ∨ hasSequentialToolCall then
    executeToolCallsSequential world config currentContext assistantMessage toolCalls
  else executeToolCallsParallel world config currentContext assistantMessage toolCalls

/-! ## Turns -/

/-- The variables of `runLoop`. -/
structure LoopState (V : Type) where
  currentContext : AgentContext V
  settings : Settings V
  lastCompletedTurn : Option (AgentTurnContext V)
  explicitContinuation : Bool
  pendingMessages : List (AgentMessage V)
  newMessages : List (AgentMessage V)

/-- `currentContext.messages.push(message)` and `newMessages.push(message)` -/
def LoopState.push (st : LoopState V) (messages : List (AgentMessage V)) : LoopState V :=
  { st with
    currentContext := { st.currentContext with messages := st.currentContext.messages ++ messages }
    newMessages := st.newMessages ++ messages }

def nextReasoning (reasoning : Option ThinkingLevel) : Option ThinkingLevel → Option ThinkingLevel
  | none => reasoning
  | some .off => none
  | some level => some level

def LoopState.update (st : LoopState V) (update : AgentRequestUpdate V) : LoopState V :=
  { st with
    currentContext := update.context.getD st.currentContext
    settings := ⟨update.model.getD st.settings.model, nextReasoning st.settings.reasoning update.thinkingLevel⟩ }

def LoopState.prepare (st : LoopState V) : Option (AgentLoopTurnUpdate V) → LoopState V
  | none => st
  | some snapshot => st.update snapshot.toAgentRequestUpdate

/-- The second poll, made only when the one before it returned nothing. -/
def pollAgain (pendingMessages : List (AgentMessage V)) : Loop V (List (AgentMessage V)) :=
  if pendingMessages.isEmpty then getSteeringMessages config else pure pendingMessages

/-- The part of a turn before its messages: nothing in the first turn, whose `turn_start`
stands before the prompts. The second component are the prepared messages. -/
def beginTurn (st : LoopState V) : Loop V (LoopState V × List (AgentMessage V)) := do
  match st.lastCompletedTurn with
  | none => return (st, [])
  | some lastCompletedTurn =>
    let snapshot := config.prepareNextTurn (← moment) lastCompletedTurn
    let st := st.prepare snapshot
    let preparedMessages := (snapshot.bind AgentLoopTurnUpdate.messages).getD []
    write (.prepared preparedMessages)
    let pendingMessages ← pollAgain config st.pendingMessages
    emit .turnStart
    return ({ st with pendingMessages }, preparedMessages)

/-- The prepared and the queued messages are said and appended. -/
def deliver (st : LoopState V) (preparedMessages : List (AgentMessage V)) : Loop V (LoopState V) := do
  let messages := declareToolChanges world.numbers (← dateNow world) st.currentContext
    (preparedMessages ++ st.pendingMessages)
  sayAll messages
  return { st.push messages with pendingMessages := [] }

def prepareRequest (st : LoopState V) : Loop V (LoopState V) := do
  match config.prepareRequest (← moment)
      ⟨st.currentContext, st.settings.model, st.settings.reasoning.getD .off⟩ with
  | none => return st
  | some requestUpdate => return st.update requestUpdate

def executeBatch (currentContext : AgentContext V) (message : AssistantMessage V) :
    Loop V (ExecutedToolCallBatch V) :=
  if message.toolCalls.isEmpty then pure ⟨[], true⟩
  else if message.stopReason = .length then
    failToolCallsFromTruncatedMessage world message.toolCalls
  else executeToolCalls world config currentContext message

def LoopState.completed (st : LoopState V) (message : AssistantMessage V)
    (toolResults : List (ToolResultMessage V)) : AgentTurnContext V :=
  ⟨message, toolResults, st.currentContext, st.newMessages⟩

inductive TurnOutcome (V : Type) where
  | returned (st : LoopState V)
  | completed (hasMoreToolCalls : Bool) (st : LoopState V)

/-- The end of a turn without a usable response; `finishTurn` is called, and its decision
ignored. -/
def failTurn (st : LoopState V) (message : AssistantMessage V) : Loop V (TurnOutcome V) := do
  let _ ← moment
  emit (.turnEnd message [])
  emit (.agentEnd st.newMessages)
  return .returned { st with lastCompletedTurn := some (st.completed message []) }

/-- The end of a turn whose response stands: `finishTurn`, and the poll after the turn. -/
def endTurn (st : LoopState V) (message : AssistantMessage V) (batch : ExecutedToolCallBatch V) :
    Loop V (TurnOutcome V) := do
  let lastCompletedTurn := st.completed message batch.messages
  let decision := config.finishTurn (← moment) lastCompletedTurn
  emit (.turnEnd message batch.messages)
  if decision = some .end then
    emit (.agentEnd st.newMessages)
    return .returned { st with lastCompletedTurn := some lastCompletedTurn }
  else
    let hasMoreToolCalls := !batch.terminate
    let pendingMessages ← getSteeringMessages config
    return .completed hasMoreToolCalls { st with
      lastCompletedTurn := some lastCompletedTurn
      explicitContinuation := decision = some .continue && !(hasMoreToolCalls || !pendingMessages.isEmpty)
      pendingMessages }

/-- The body of the inner loop. -/
def turn (st : LoopState V) : Loop V (TurnOutcome V) := do
  let (st, preparedMessages) ← beginTurn config st
  let st ← deliver world st preparedMessages
  let st ← prepareRequest config st
  let (message, messages) ← streamAssistantResponse world config st.currentContext st.settings
  let st := { st with
    currentContext := { st.currentContext with messages }
    newMessages := st.newMessages ++ [assistant message] }
  if message.failed then
    failTurn st message
  else
    let batch ← executeBatch world config st.currentContext message
    endTurn config (st.push (batch.messages.map toolResult)) message batch

inductive Progress (V : Type) where
  /-- More turns are to come. -/
  | running (st : LoopState V)
  | ended (st : LoopState V)

end Loop

end Shuvpi.AgentLoop
