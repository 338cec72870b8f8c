import Shuvpi.AgentLoopTools
import Shuvpi.ToolLoadout

/-!
# One turn of the agent loop

A turn says what was queued, streams a response and says the results of its tool calls. What
one pass through the inner loop leaves in the log is a turn, whose polls are those since the
turn before.
-/
namespace Shuvpi.AgentLoop

open TimedLog
open Transcript (ToolStateChanges SystemMessage withToolChanges declareToolChanges lastSystem?
  lastSystem?_some)

variable {V : Type}

/-! ## What a declaration does to a list of messages -/

/-- The messages in their order, each of them once: as they are, or with new tool fields in
one system message, or with one system message more. -/
inductive Declared : List (AgentMessage V) → List (AgentMessage V) → Prop where
  | same (messages) : Declared messages messages
  | replaced (before after) (pending : SystemMessage AgentToolFields) (changes) :
    Declared (before ++ .system pending :: after)
      (before ++ .system (withToolChanges pending changes) :: after)
  | inserted (before after) (update : SystemMessage AgentToolFields) :
    Declared (before ++ after) (before ++ .system update :: after)

structure Turn (V : Type) where
  /-- What the polls since the turn before handed out. -/
  polls : List (List (AgentMessage V))
  /-- What `prepareNextTurn` answered after them. -/
  prepared : List (AgentMessage V)
  /-- What the poll after it handed out, if there was one. -/
  again : List (List (AgentMessage V))
  /-- The messages before the response. -/
  queued : List (AgentMessage V)
  /-- The message with which the response starts. -/
  shown : AssistantMessage V
  response : AssistantMessage V
  results : List (ToolResultMessage V)
  closedAt : Nat

def Turn.messages (turn : Turn V) : List (AgentMessage V) :=
  turn.queued ++ assistant turn.response :: turn.results.map toolResult

/-- All that was handed out to a turn, in order. -/
def Turn.handed (turn : Turn V) : List (AgentMessage V) := turn.polls.flatten ++ turn.again.flatten

/-- The start of a turn; nothing is prepared for the first one, whose `turn_start` stands
before the prompts. -/
def Turn.opening (first : Bool) (turn : Turn V) : List (Mark V) :=
  if first then [] else .prepared turn.prepared :: (turn.again.map .handed ++ [.turnStart])

def Turn.marks (first : Bool) (turn : Turn V) : List (Mark V) :=
  turn.polls.map .handed ++ turn.opening first ++ spoken turn.queued ++
    [.start (assistant turn.shown), .finish (assistant turn.response)] ++
    spoken (turn.results.map toolResult) ++ [.turnEnd turn.closedAt turn.response turn.results]

/-- What holds of every turn; only the first one is not prepared. -/
structure Turn.Sound (signal : Signal) (first : Bool) (turn : Turn V) : Prop where
  unprepared : first = true → turn.prepared = [] ∧ turn.again = []
  /-- Before the response stand the messages of `prepareNextTurn`, then those that were
  handed out, and nothing else. -/
  delivered : Declared (turn.prepared ++ turn.handed) turn.queued
  unanswered : turn.response.failed → turn.results = []
  answered : ¬ turn.response.failed → Answers turn.response.toolCalls turn.results
  complete : ¬ turn.response.failed → turn.results.length < turn.response.toolCalls.length →
    signal.aborted turn.closedAt = true

section Turns
variable (world : World V) (config : AgentLoopConfig V) {t : Nat}

variable (result : AssistantMessage V) (base : List (AgentMessage V))

variable {events : List (AssistantMessageEvent V)}

/-- The hooks do not replace the context. -/
structure AgentLoopConfig.Keeps (config : AgentLoopConfig V) : Prop where
  next : ∀ time turn update, config.prepareNextTurn time turn = some update → update.context = none
  request : ∀ time ask update, config.prepareRequest time ask = some update → update.context = none

/-- The messages are appended both to the returned list and to the context. -/
structure Grown (st st' : LoopState V) (messages : List (AgentMessage V)) : Prop where
  newMessages : st'.newMessages = st.newMessages ++ messages
  context : st'.currentContext.messages = st.currentContext.messages ++ messages

variable (st : LoopState V)

theorem Grown.refl : Grown st st [] := ⟨(List.append_nil _).symm, (List.append_nil _).symm⟩

theorem Grown.trans {st st' st'' : LoopState V} {ms ms' : List (AgentMessage V)}
    (h : Grown st st' ms) (h' : Grown st' st'' ms') : Grown st st'' (ms ++ ms') :=
  ⟨by rw [h'.newMessages, h.newMessages, List.append_assoc], by rw [h'.context, h.context, List.append_assoc]⟩

theorem Grown.push (messages : List (AgentMessage V)) : Grown st (st.push messages) messages := ⟨rfl, rfl⟩

theorem Grown.update {update : AgentRequestUpdate V}
    (h : update.context = none) : Grown st (st.update update) [] := by
  refine ⟨(List.append_nil _).symm, ?_⟩
  rw [LoopState.update, h, List.append_nil]
  rfl

def TurnOutcome.state : TurnOutcome V → LoopState V
  | .returned st => st
  | .completed _ st => st

/-- What stands in the log after the turn itself. -/
def TurnOutcome.closing : TurnOutcome V → List (Mark V)
  | .returned st => [.agentEnd st.newMessages]
  | .completed _ st => [.handed st.pendingMessages]

end Turns

end Shuvpi.AgentLoop
