import Mathlib.Data.List.Basic
import Mathlib.Tactic
import Shuvpi.JsMap

/-!
# The file mutation queue

`withFileMutationQueue` runs the mutations of one file one after the other. A call first waits for
the registrations of the calls before it, then asks the environment for the key of its path, enters
the chain of that key, and runs when the chain before it is settled.
-/
namespace Shuvpi.FileMutationQueue

inductive FileErrorCode where
  | aborted
  | notFound
  | permissionDenied
  | notDirectory
  | isDirectory
  | invalid
  | notSupported
  | unknown
  deriving Repr, DecidableEq

variable {P : Type}

/-- What the environment answers at one moment. -/
structure FileSystem (P : Type) where
  absolutePath : P → Except FileErrorCode P
  canonicalPath : P → Except FileErrorCode P

/-- `getMutationQueueKey` once it has the absolute path. -/
def getMutationQueueKey (fs : FileSystem P) (absolutePath : P) : Except FileErrorCode P :=
  match fs.canonicalPath absolutePath with
  | .ok canonicalPath => .ok canonicalPath
  | .error .notFound => .ok absolutePath
  | .error .notSupported => .ok absolutePath
  | .error code => .error code

/-- How paths are made of directories and names. -/
structure PathNames (P : Type) where
  /-- The directories that a path lies in, the nearest one first. -/
  directories : P → List P
  /-- The path, with the first argument in place of its directory that is the second one. -/
  moved : P → P → P → P

/-- A path that does not exist yet, in the canonical path of its directory. -/
def PathNames.below (names : PathNames P) (fs : FileSystem P) (absolutePath directory : P) : Option P :=
  match fs.canonicalPath directory with
  | .ok canonicalPath => some (names.moved canonicalPath directory absolutePath)
  | .error _ => none

/-- The file that an absolute path denotes: its canonical path, and for a file that does not exist
yet its names below the canonical path of the nearest directory that does. -/
def PathNames.file (names : PathNames P) (fs : FileSystem P) (absolutePath : P) : P :=
  match fs.canonicalPath absolutePath with
  | .ok canonicalPath => canonicalPath
  | .error _ => ((names.directories absolutePath).findSome? (names.below fs absolutePath)).getD absolutePath

/-! ## States -/

/-- How far a call is. The file is what the path denoted when it was resolved; no step looks at it. -/
inductive Phase (P : Type) where
  /-- The registration waits for the ones before it. -/
  | waiting
  | resolving
  | canonicalizing (absolutePath : P)
  | resolved (key file : P)
  /-- In the chain of its key, behind the call whose chained queue was there. -/
  | queued (key file : P) (currentQueue : Option Nat)
  | running (key file : P)
  /-- The mutation has returned or thrown. -/
  | finished (key file : P) (ok : Bool)
  /-- The resolution has failed. -/
  | failed (code : FileErrorCode)
  deriving DecidableEq

namespace Phase

/-- The registration is settled. -/
def registered : Phase P → Bool
  | .queued _ _ _ => true
  | .running _ _ => true
  | .finished _ _ _ => true
  | .failed _ => true
  | _ => false

/-- The key under which the call is in the table's chains. -/
def key? : Phase P → Option P
  | .queued key _ _ => some key
  | .running key _ => some key
  | .finished key _ _ => some key
  | _ => none

/-- The file that the path of the call denotes. -/
def file? : Phase P → Option P
  | .resolved _ file => some file
  | .queued _ file _ => some file
  | .running _ file => some file
  | .finished _ file _ => some file
  | _ => none

def isRunning : Phase P → Bool
  | .running _ _ => true
  | _ => false

def isFinished : Phase P → Bool
  | .finished _ _ _ => true
  | _ => false

/-- The call has returned. -/
def settled : Phase P → Bool
  | .finished _ _ _ => true
  | .failed _ => true
  | _ => false

/-- How many steps the call has before it at most. -/
def rank : Phase P → Nat
  | .waiting => 6
  | .resolving => 5
  | .canonicalizing _ => 4
  | .resolved _ _ => 3
  | .queued _ _ _ => 2
  | .running _ _ => 1
  | .finished _ _ _ => 0
  | .failed _ => 0

end Phase

structure Call (P : Type) where
  path : P
  phase : Phase P := .waiting

/-- The state of one environment's queue. A chained queue is named by the number of its call. -/
structure MutationQueueState (P : Type) where
  fs : FileSystem P
  queues : JsMap P Nat := []
  calls : List (Call P) := []

namespace MutationQueueState

def phase (s : MutationQueueState P) (i : Nat) : Option (Phase P) := s.calls[i]?.map Call.phase

def setPhase (s : MutationQueueState P) (i : Nat) (phase : Phase P) : MutationQueueState P :=
  { s with calls := s.calls.modify i fun call => { call with phase := phase } }

/-- A chained queue settles when its call has let the next one go: the call itself has awaited the
chain before it. -/
def released (s : MutationQueueState P) : Option Nat → Bool
  | none => true
  | some i => ((s.phase i).map Phase.isFinished).getD false

end MutationQueueState

/-! ## Steps -/

inductive Action (P : Type) where
  | call (path : P)
  /-- Files are created, removed or linked, by the mutations or by anybody else. -/
  | change (fs : FileSystem P)
  | beginRegistration (i : Nat)
  | absolutePath (i : Nat)
  | canonicalPath (i : Nat)
  | register (i : Nat)
  | start (i : Nat)
  | finish (i : Nat) (ok : Bool)

/-- The action is a step of a call that has been made. -/
def Action.ofCall : Action P → Bool
  | .call _ => false
  | .change _ => false
  | _ => true

section Steps

variable [DecidableEq P] (names : PathNames P)

open MutationQueueState

def step (s : MutationQueueState P) : Action P → Option (MutationQueueState P)
  | .call path => some { s with calls := s.calls ++ [{ path := path }] }
  | .change fs => some { s with fs := fs }
  | .beginRegistration i =>
    match s.phase i with
    | some .waiting =>
      if (s.calls.take i).all fun call => call.phase.registered then some (s.setPhase i .resolving) else none
    | _ => none
  | .absolutePath i =>
    match s.calls[i]? with
    | some ⟨path, .resolving⟩ =>
      match s.fs.absolutePath path with
      | .ok absolutePath => some (s.setPhase i (.canonicalizing absolutePath))
      | .error code => some (s.setPhase i (.failed code))
    | _ => none
  | .canonicalPath i =>
    match s.phase i with
    | some (.canonicalizing absolutePath) =>
      match getMutationQueueKey s.fs absolutePath with
      | .ok key => some (s.setPhase i (.resolved key (names.file s.fs absolutePath)))
      | .error code => some (s.setPhase i (.failed code))
    | _ => none
  | .register i =>
    match s.phase i with
    | some (.resolved key file) =>
      some { s.setPhase i (.queued key file (s.queues.get key)) with queues := s.queues.set key i }
    | _ => none
  | .start i =>
    match s.phase i with
    | some (.queued key file currentQueue) =>
      if s.released currentQueue then some (s.setPhase i (.running key file)) else none
    | _ => none
  | .finish i ok =>
    match s.phase i with
    | some (.running key file) =>
      some { s.setPhase i (.finished key file ok) with
        queues := if s.queues.get key = some i then s.queues.delete key else s.queues }
    | _ => none

def run (s : MutationQueueState P) : List (Action P) → Option (MutationQueueState P)
  | [] => some s
  | action :: actions => (step names s action).bind fun s' => run s' actions

end Steps

end Shuvpi.FileMutationQueue
