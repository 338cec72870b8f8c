import Shuvpi.AgentLoop

/-!
# What the agent loop says about tool calls

The marks of a log are the events that the accounting is about and the polls of the queues.
A batch of tool calls leaves the two marks of every result, in the order of the calls.
-/
namespace Shuvpi.AgentLoop

open TimedLog
open List

inductive Mark (V : Type) where
  | agentStart
  | agentEnd (messages : List (AgentMessage V))
  | turnStart
  | turnEnd (time : Nat) (message : AssistantMessage V) (toolResults : List (ToolResultMessage V))
  | start (message : AgentMessage V)
  | finish (message : AgentMessage V)
  | handed (messages : List (AgentMessage V))
  | prepared (messages : List (AgentMessage V))

variable {V : Type}

def mark : Nat × Happening V → Option (Mark V)
  | (_, .handed messages) => some (.handed messages)
  | (_, .prepared messages) => some (.prepared messages)
  | (_, .emitted .agentStart) => some .agentStart
  | (_, .emitted (.agentEnd messages)) => some (.agentEnd messages)
  | (_, .emitted .turnStart) => some .turnStart
  | (time, .emitted (.turnEnd message toolResults)) => some (.turnEnd time message toolResults)
  | (_, .emitted (.messageStart message)) => some (.start message)
  | (_, .emitted (.messageEnd message)) => some (.finish message)
  | (_, .emitted _) => none

/-- The marks of messages that are said one after the other. -/
def spoken (messages : List (AgentMessage V)) : List (Mark V) := messages.flatMap fun m => [.start m, .finish m]

@[simp] theorem spoken_nil : spoken ([] : List (AgentMessage V)) = [] := rfl

@[simp] theorem spoken_cons (m : AgentMessage V) (messages : List (AgentMessage V)) :
    spoken (m :: messages) = .start m :: .finish m :: spoken messages := rfl

/-- `m` leaves no mark, and its result satisfies `S`. -/
def Silent {α : Type} (m : Loop V α) (S : α → Prop) : Prop := Adds mark 0 m fun a ms _ => ms = [] ∧ S a

section Silence
variable {α β : Type} {S : α → Prop} {T : β → Prop}

theorem Silent.pure {a : α} (h : S a) : Silent (V := V) (Pure.pure a) S := Adds.pure fun _ _ => ⟨rfl, h⟩

theorem Silent.bind {m : Loop V α} {f : α → Loop V β} (hm : Silent m S)
    (hf : ∀ a, S a → Silent (f a) T) : Silent (m >>= f) T :=
  Adds.bind_silent hm hf

theorem Silent.mono {S' : α → Prop} {m : Loop V α} (hm : Silent m S) (h : ∀ a, S a → S' a) :
    Silent m S' := Adds.mono hm fun _ _ _ hs => ⟨hs.1, h _ hs.2⟩

theorem Silent.emit {event : Event V} (h : ∀ t, mark (t, .emitted event) = none) :
    Silent (emit event) fun _ => True := Adds.write fun now _ => by
  rw [h now]
  exact ⟨rfl, trivial⟩

end Silence

section Tools
variable (world : World V) (config : AgentLoopConfig V) {t : Nat}

variable (finalized : FinalizedToolCallOutcome V)

variable (context : AgentContext V) (message : AssistantMessage V)

variable (prepared : PreparedToolCall V)

/-- The message is the result of the call. -/
structure Reports (call : AgentToolCall V) (message : ToolResultMessage V) : Prop where
  id : message.toolCallId = call.id
  name : message.toolName = call.name

/-- The results of the first calls, in their order. -/
def Answers (calls : List (AgentToolCall V)) (results : List (ToolResultMessage V)) : Prop :=
  List.Forall₂ Reports (calls.take results.length) results

variable {call : AgentToolCall V} {calls : List (AgentToolCall V)} {result : ToolResultMessage V}
variable {results : List (ToolResultMessage V)}

theorem Answers.cons
    (hr : Reports call result)
    (h : Answers calls results) : Answers (call :: calls) (result :: results) :=
  List.Forall₂.cons hr h

/-- What a batch leaves, at its end: results of the first calls, of all of them unless the
signal is aborted. -/
structure Batch (calls : List (AgentToolCall V)) (results : List (ToolResultMessage V))
    (ms : List (Mark V)) (now : Nat) : Prop where
  marks : ms = spoken (results.map toolResult)
  answers : Answers calls results
  complete : results.length < calls.length → world.signal.aborted now = true

theorem Batch.nil (now : Nat) : Batch world [] [] [] now := ⟨rfl, .nil, fun h => absurd h (Nat.lt_irrefl 0)⟩

variable {world} in
theorem Batch.cons
    {ms : List (Mark V)}
    {now : Nat} (hr : Reports call result) (h : Batch world calls results ms now) :
    Batch world (call :: calls) (result :: results) (spoken [toolResult result] ++ ms) now :=
  ⟨by rw [h.marks]; rfl, h.answers.cons hr, fun hlt => h.complete (Nat.lt_of_succ_lt_succ hlt)⟩

variable {world} in
/-- A batch at an earlier time is one at a later time. -/
theorem Batch.later
    {ms : List (Mark V)} {t now : Nat} (h : Batch world calls results ms t) (hle : t ≤ now) :
    Batch world calls results ms now :=
  ⟨h.marks, h.answers, fun hlt => world.signal.stays t now hle (h.complete hlt)⟩

def FinalizedToolCallEntry.toolCall : FinalizedToolCallEntry V → AgentToolCall V
  | .finalized outcome => outcome.toolCall
  | .deferred call => call.toolCall

def PendingToolCall.toolCall : PendingToolCall V → AgentToolCall V
  | .settled outcome => outcome.toolCall
  | .running call _ => call.toolCall

variable (pending : PendingToolCall V)

end Tools

end Shuvpi.AgentLoop
