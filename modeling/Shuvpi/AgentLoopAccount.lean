import Shuvpi.AgentLoopTurns

/-!
# The accounts of the agent loop

A run is a sequence of turns. From the marks of its turns follow the accounts of the whole
log: what was ended is what is returned and what the context gained, messages and turns are
bracketed, what the queues handed out was said, and the log closes with its only `agent_end`.
-/
namespace Shuvpi.AgentLoop

open TimedLog
open List

variable {V : Type}

/-! ## Reading the marks -/

/-- A started message ends as itself, or as the final form of a streamed response. -/
def Closes (started ended : AgentMessage V) : Prop :=
  ended = started ∨ ∃ shown response, started = assistant shown ∧ ended = assistant response

/-- Every `message_start` is closed by its `message_end` before the next `message_start`;
the first argument is the message that is open. -/
def Bracketed : Option (AgentMessage V) → List (Mark V) → Prop
  | opened, [] => opened = none
  | opened, .start m :: ms => opened = none ∧ Bracketed (some m) ms
  | opened, .finish m :: ms => (∃ started, opened = some started ∧ Closes started m) ∧ Bracketed none ms
  | opened, _ :: ms => Bracketed opened ms

section Readings
variable (ms ms' : List (Mark V)) (messages : List (AgentMessage V))
  (polls : List (List (AgentMessage V)))

variable (opened : Bool)

variable {ms ms'}

theorem Bracketed.append {opened : Option (AgentMessage V)} (h : Bracketed opened ms)
    (h' : Bracketed none ms') : Bracketed opened (ms ++ ms') := by
  induction ms generalizing opened with
  | nil =>
    obtain rfl : opened = none := h
    exact h'
  | cons m ms ih =>
    cases m with
    | start | finish => exact ⟨h.1, ih h.2⟩
    | _ => exact @ih opened h

end Readings

/-! ## The marks of turns -/

section TurnMarks
variable (first : Bool) (turn : Turn V) (turns : List (Turn V))

def timeline : Bool → List (Turn V) → List (Mark V)
  | _, [] => []
  | first, turn :: turns => turn.marks first ++ timeline false turns

def AllSound (signal : Signal) : Bool → List (Turn V) → Prop
  | _, [] => True
  | first, turn :: turns => turn.Sound signal first ∧ AllSound signal false turns

end TurnMarks

/-! ## Runs -/

def Progress.state : Progress V → LoopState V
  | .running st => st
  | .ended st => st

/-- What was handed out and is not yet said. -/
def Progress.pending : Progress V → List (AgentMessage V)
  | .running st => st.pendingMessages
  | .ended _ => []

def Progress.closing : Progress V → List (Mark V)
  | .running _ => []
  | .ended st => [.agentEnd st.newMessages]

section Runs
variable (world : World V) {config : AgentLoopConfig V} {t : Nat}

/-- What the loop leaves in the log, after the polls before it: turns, and the last polls. -/
def Turns (st : LoopState V) (turns : List (Turn V)) (out : Progress V) (ms : List (Mark V)) : Prop :=
  ∃ polls : List (List (AgentMessage V)), AllSound world.signal st.lastCompletedTurn.isNone turns ∧
    ms = timeline st.lastCompletedTurn.isNone turns ++ (polls.map .handed ++ out.closing) ∧
    polls.flatten = out.pending ∧ Grown st out.state (turns.flatMap Turn.messages)

variable {world} in
/-- One more turn in front. -/
theorem Turns.cons {st st' : LoopState V} {out : Progress V} {turn : Turn V} {turns : List (Turn V)}
    {ms : List (Mark V)} (hturn : turn.Sound world.signal st.lastCompletedTurn.isNone)
    (hgrown : Grown st st' turn.messages)
    (hlast : st'.lastCompletedTurn.isNone = false) (h : Turns world st' turns out ms) :
    Turns world st (turn :: turns) out (turn.marks st.lastCompletedTurn.isNone ++ ms) := by
  obtain ⟨polls, hsound, rfl, hpending, hrest⟩ := h
  rw [hlast] at hsound
  refine ⟨polls, ⟨hturn, hsound⟩, ?_, hpending, ?_⟩
  · rw [hlast, timeline, append_assoc]
  · rw [flatMap_cons]
    exact hgrown.trans hrest

variable (I : List (Nat × Happening V) → Prop)

end Runs

/-! ## Two runs -/

def call (id : String) : AssistantContent Unit := .toolCall ⟨JsText.ofString id, JsText.ofString "read", ()⟩

/-- A system message that would remove a tool that is not declared. -/
def removal : Transcript.SystemMessage AgentToolFields :=
  ⟨.text [], none, none, some [⟨JsText.ofString "grep"⟩], JsNumber.ofInt 0⟩

end Shuvpi.AgentLoop
