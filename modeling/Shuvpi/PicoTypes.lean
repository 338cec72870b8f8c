import Shuvpi.DeltaApply

/-!
# The records of a pico3 session

The types of `agent/harness/pico3/types.ts` that are stored: conversations, entries, tasks,
inputs and the operations on documents. Ids are numbers minted from one counter for all records.
What the session only passes on is JSON.
-/
namespace Shuvpi.Pico

open Delta (Op)


/-! ## Comparing JSON -/

section Compare

mutual

/-- Two values are the same tree, which is what comparing their texts decides. -/
def decEqJson : (a b : Json) → Decidable (a = b)
  | .null, .null => isTrue rfl
  | .boolean a, .boolean b => if h : a = b then isTrue (by rw [h]) else isFalse fun e => h (Json.boolean.inj e)
  | .number a, .number b => if h : a = b then isTrue (by rw [h]) else isFalse fun e => h (Json.number.inj e)
  | .string a, .string b => if h : a = b then isTrue (by rw [h]) else isFalse fun e => h (Json.string.inj e)
  | .array as, .array bs =>
    match decEqItems as bs with
    | isTrue h => isTrue (by rw [h])
    | isFalse h => isFalse fun e => h (Json.array.inj e)
  | .object as, .object bs =>
    match decEqProps as bs with
    | isTrue h => isTrue (by rw [h])
    | isFalse h => isFalse fun e => h (Json.object.inj e)
  | .null, .boolean _ | .null, .number _ | .null, .string _ | .null, .array _ | .null, .object _
  | .boolean _, .null | .boolean _, .number _ | .boolean _, .string _ | .boolean _, .array _ | .boolean _, .object _
  | .number _, .null | .number _, .boolean _ | .number _, .string _ | .number _, .array _ | .number _, .object _
  | .string _, .null | .string _, .boolean _ | .string _, .number _ | .string _, .array _ | .string _, .object _
  | .array _, .null | .array _, .boolean _ | .array _, .number _ | .array _, .string _ | .array _, .object _
  | .object _, .null | .object _, .boolean _ | .object _, .number _ | .object _, .string _ | .object _, .array _ =>
    isFalse fun e => by cases e

def decEqItems : (as bs : List Json) → Decidable (as = bs)
  | [], [] => isTrue rfl
  | [], _ :: _ | _ :: _, [] => isFalse fun e => by cases e
  | a :: as, b :: bs =>
    match decEqJson a b, decEqItems as bs with
    | isTrue h, isTrue h' => isTrue (by rw [h, h'])
    | isFalse h, _ => isFalse fun e => h (List.cons.inj e).1
    | _, isFalse h => isFalse fun e => h (List.cons.inj e).2

def decEqProps : (as bs : List (JsString × Json)) → Decidable (as = bs)
  | [], [] => isTrue rfl
  | [], _ :: _ | _ :: _, [] => isFalse fun e => by cases e
  | (k, a) :: as, (l, b) :: bs =>
    match decEq k l, decEqJson a b, decEqProps as bs with
    | isTrue hk, isTrue h, isTrue h' => isTrue (by rw [hk, h, h'])
    | isFalse hk, _, _ => isFalse fun e => hk (congrArg Prod.fst (List.cons.inj e).1)
    | _, isFalse h, _ => isFalse fun e => h (congrArg Prod.snd (List.cons.inj e).1)
    | _, _, isFalse h => isFalse fun e => h (List.cons.inj e).2

end

instance : DecidableEq Json := decEqJson

end Compare

/-! ## Messages and entries -/

structure StoredToolCall where
  id : String
  name : String
  arguments : Json
  deriving DecidableEq

inductive ContentBlock where
  | toolCall (call : StoredToolCall)
  | other (block : Json)
  deriving DecidableEq

structure StoredToolResult where
  toolCallId : String
  toolName : String
  content : Json
  isError : Bool
  details : Option Json
  timestamp : Nat
  deriving DecidableEq

inductive Message where
  | system (content : Json) (timestamp : Nat)
  | user (content : Json) (timestamp : Nat)
  | assistant (content : List ContentBlock) (timestamp : Nat)
  | toolResult (result : StoredToolResult)
  deriving DecidableEq

inductive EditAction where
  | omit
  | replace (messages : List Message)
  deriving DecidableEq

structure ContextEdit where
  target : Nat
  action : EditAction
  deriving DecidableEq

structure Entry where
  id : Nat
  conversationId : Nat
  kind : String
  /-- What the model sees; without it the entry is for display. -/
  model : Option (List Message) := none
  data : Option Json := none
  head : Option Nat := none
  edits : List ContextEdit := []
  byTaskId : Option Nat := none
  deriving DecidableEq

structure Conversation where
  id : Nat
  /-- The conversation it was forked from and the last entry it shares. -/
  parent : Option (Nat × Nat) := none
  owner : Option Nat := none
  deriving DecidableEq

/-! ## Tasks and inputs -/

inductive TaskStatus where
  | pending
  | running
  | terminal
  deriving DecidableEq

inductive Outcome where
  | completed (result : Json)
  | failed (failure : Json)
  | aborted (result : Json)
  | orphaned
  | faulted (error : String)
  deriving DecidableEq

structure Task where
  id : Nat
  conversationId : Nat
  kind : String
  input : Json
  status : TaskStatus
  checkpoint : Option Json := none
  abort : Bool := false
  outcome : Option Outcome := none
  after : List Nat := []
  owns : List Nat := []
  background : Bool := false
  deriving DecidableEq

/-- The fields that a patch changes. A checkpoint of `none` clears it; the other fields cannot be cleared. -/
structure TaskPatch where
  id : Nat
  status : Option TaskStatus := none
  checkpoint : Option (Option Json) := none
  abort : Option Bool := none
  outcome : Option Outcome := none
  owns : Option (List Nat) := none
  deriving DecidableEq

inductive InputStatus where
  | queued
  | placed
  | done
  | unanswered
  deriving DecidableEq

structure Input where
  id : Nat
  conversationId : Nat
  requestId : Option String := none
  status : InputStatus
  entry : Option Nat := none
  answer : Option Nat := none
  reason : Option String := none
  detail : Option String := none
  deriving DecidableEq

/-! ## Documents and writes -/

inductive DocRef where
  | session
  | rewindable (conversationId : Nat)
  | sticky (conversationId : Nat)
  deriving DecidableEq

inductive Write where
  | conversation (conversation : Conversation)
  | entry (entry : Entry)
  | task (task : Task)
  | taskPatch (patch : TaskPatch)
  | input (input : Input)
  | doc (ref : DocRef) (ops : List Op)

end Shuvpi.Pico
