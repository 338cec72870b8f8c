import Shuvpi.SessionTree

/-!
# Mutations of a session

`StorageBackedSession` and its `MutationLine`. A call that writes waits on the line; the
mutation at its head runs a callback that is suspended at every `await`, may commit once,
and releases the line when its commit has settled. Calls, steps of the callback, the work
of the storage and `close` interleave in any order, which is the relation `Step`. The
session starts on any storage state and the storage is the one in memory.
-/
namespace Shuvpi.SessionTree

open JsText (ofString)

/-- Values that hold the tip of a branch. -/
class TipValue (Val : Type) where
  ofTip : Option JsString → Val
  toTip : Val → Option JsString
  toTip_ofTip : ∀ tip, toTip (ofTip tip) = tip

/-- `role === "assistant" && stopReason === "pending"` of the message in a body. -/
class PendingMessage (Body : Type) where
  isPending : Body → Bool

def branchTip (name : JsString) : Address := ⟨ofString "shuvpi.branch.tip", name⟩

inductive SessionError where
  | closed
  | emptyBranchName (name : JsString)
  | branchNameWithNul (name : JsString)
  | branchExists (name : JsString)
  | unknownBranch (name : JsString)
  | unknownTarget (id : JsString)
  | pendingMessage
  | storage (error : StorageError)
  | thrown
  deriving DecidableEq, Repr

variable {Body Val Use : Type}

/-! ## Calls -/

/-- The entry that `appendToBranch` is given. -/
inductive AppendedEntry (Body : Type) where
  | message (body : Body)
  | custom (customType : JsString) (body : Body)
  deriving DecidableEq

def AppendedEntry.toNewEntry (id : JsString) (parentId : Option JsString) : AppendedEntry Body → NewEntry Body
  | .message body => ⟨id, parentId, .message, none, body⟩
  | .custom customType body => ⟨id, parentId, .custom, some customType, body⟩

/-- `appendToBranch` with the id it generates, `createBranch`, and `mutate` with a callback of its caller. -/
inductive Job (Body : Type) where
  | append (name id : JsString) (entry : AppendedEntry Body)
  | create (name : JsString) (target : Option JsString)
  | callback
  deriving DecidableEq

inductive Reply where
  | id (id : JsString)
  | branch (name : JsString)
  | returned
  deriving DecidableEq, Repr

def Job.reply : Job Body → Reply
  | .append _ id _ => .id id
  | .create name _ => .branch name
  | .callback => .returned

/-- `assertValidBranchName` -/
def invalidBranchName (name : JsString) : Option SessionError :=
  if name.length = 0 then some (.emptyBranchName name)
  else if name.contains 0 then some (.branchNameWithNul name)
  else none

/-- What a call throws before it waits for the line; an open session is checked first. -/
def Job.refused [PendingMessage Body] : Job Body → Option SessionError
  | .append _ _ (.message body) => if PendingMessage.isPending body then some .pendingMessage else none
  | .append _ _ (.custom _ _) => none
  | .create name _ => invalidBranchName name
  | .callback => none

/-! ## The mutation -/

abbrev Outcome := Except SessionError Unit

/-- `commitResult`: the promise of the storage, or one that was rejected before. -/
inductive CommitState (Body Val Use : Type) where
  | pending (writes : List (Write Body Val Use))
  | settled (outcome : Outcome)

/-- Where the callback is suspended. -/
inductive Point where
  | start
  | tipRead (tip : Option (Option JsString))
  | targetRead (found : Bool)
  | committing
  | settled (outcome : Outcome)

/-- `StorageBackedSessionMutation` and its callback; `active` is false once `end` was called. -/
structure Mutation (Body Val Use : Type) where
  call : Nat
  job : Job Body
  point : Point
  commitResult : Option (CommitState Body Val Use)
  active : Bool

def pendingWrite [PendingMessage Body] : Write Body Val Use → Bool
  | .entry e => e.type = .message && PendingMessage.isPending e.body
  | _ => false

/-- `commit` while the mutation is active; a second attempt is rejected and changes nothing. -/
def Mutation.commit [PendingMessage Body] (m : Mutation Body Val Use) (writes : List (Write Body Val Use)) :
    Mutation Body Val Use :=
  match m.commitResult with
  | some _ => m
  | none =>
    if writes.any pendingWrite then { m with commitResult := some (.settled (.error .pendingMessage)) }
    else { m with commitResult := some (.pending writes) }

variable (m : Mutation Body Val Use) (writes : List (Write Body Val Use))

@[simp] theorem Mutation.commit_call [PendingMessage Body] : (m.commit writes).call = m.call := by
  unfold Mutation.commit
  split
  · rfl
  · split
    · rfl
    · rfl

@[simp] theorem Mutation.commit_job [PendingMessage Body] : (m.commit writes).job = m.job := by
  unfold Mutation.commit
  split
  · rfl
  · split
    · rfl
    · rfl

def Mutation.settle (m : Mutation Body Val Use) (outcome : Outcome) : Mutation Body Val Use :=
  { m with point := .settled outcome }

variable [TipValue Val]

/-- The tip that `getValue` finds for a branch. -/
def StorageState.tip (s : StorageState Body Val Use) (name : JsString) : Option (Option JsString) :=
  (s.getValue (branchTip name)).map fun stored => TipValue.toTip stored.value

def appendWrites (name id : JsString) (entry : AppendedEntry Body) (tip : Option JsString) : List (Write Body Val Use) :=
  [.entry (entry.toNewEntry id tip), .setValue (branchTip name) (TipValue.ofTip (some id))]

def createWrites (name : JsString) (target : Option JsString) : List (Write Body Val Use) :=
  [.setValue (branchTip name) (TipValue.ofTip target)]

/-- `await mutator.getValue(branchTip(name))`; the address is checked when it is made. -/
def Mutation.readTip (m : Mutation Body Val Use) (storage : StorageState Body Val Use) (name : JsString) :
    Mutation Body Val Use :=
  match (branchTip name).validateAddress with
  | .error error => m.settle (.error (.storage error))
  | .ok () => { m with point := .tipRead (storage.tip name) }

def Mutation.commitAndWait [PendingMessage Body] (m : Mutation Body Val Use) (writes : List (Write Body Val Use)) :
    Mutation Body Val Use :=
  { m.commit writes with point := .committing }

/-- The callbacks of `appendToBranch` and `createBranch` up to their next `await`; nothing while they wait for the storage. -/
def Mutation.resume [PendingMessage Body] (storage : StorageState Body Val Use) (m : Mutation Body Val Use) :
    Option (Mutation Body Val Use) :=
  match m.job, m.point with
  | .append name _ _, .start => some (m.readTip storage name)
  | .append name _ _, .tipRead none => some (m.settle (.error (.unknownBranch name)))
  | .append name id entry, .tipRead (some tip) => some (m.commitAndWait (appendWrites name id entry tip))
  | .create name _, .start => some (m.readTip storage name)
  | .create name _, .tipRead (some _) => some (m.settle (.error (.branchExists name)))
  | .create name none, .tipRead none => some (m.commitAndWait (createWrites name none))
  | .create _ (some target), .tipRead none => some { m with point := .targetRead (storage.entries.has target) }
  | .create name target, .targetRead true => some (m.commitAndWait (createWrites name target))
  | .create _ target, .targetRead false => some (m.settle (.error (.unknownTarget (target.getD []))))
  | .append _ _ _, .committing | .create _ _, .committing =>
    match m.commitResult with
    | some (.settled outcome) => some (m.settle outcome)
    | _ => none
  | _, _ => none

/-! ## The session -/

/-- A commit that the storage has carried out, with the state before and after it. -/
structure Record (Body Val Use : Type) where
  call : Nat
  job : Job Body
  writes : List (Write Body Val Use)
  timestamp : Nat
  before : StorageState Body Val Use
  after : StorageState Body Val Use
  outcome : Outcome

/-- `sealed` stands for the state `closing` and the sealed line. The calls made, those started and the commits carried
out are recorded. -/
structure Session (Body Val Use : Type) where
  storage : StorageState Body Val Use
  waiting : List (Nat × Job Body)
  running : Option (Mutation Body Val Use)
  sealed : Bool
  closeResolved : Bool
  results : Nat → Option (Except SessionError Reply)
  jobs : List (Job Body)
  started : List Nat
  history : List (Record Body Val Use)

namespace Session

def opened (storage : StorageState Body Val Use) : Session Body Val Use :=
  ⟨storage, [], none, false, false, fun _ => none, [], [], []⟩

def result (s : Session Body Val Use) (call : Nat) (outcome : Except SessionError Reply) : Session Body Val Use :=
  { s with results := Function.update s.results call (some outcome) }

/-- A call up to its first `await`. -/
def call [PendingMessage Body] (s : Session Body Val Use) (job : Job Body) : Session Body Val Use :=
  let called := { s with jobs := s.jobs ++ [job] }
  if s.sealed then called.result s.jobs.length (.error .closed)
  else
    match job.refused with
    | some error => called.result s.jobs.length (.error error)
    | none => { called with waiting := s.waiting ++ [(s.jobs.length, job)] }

/-- The head of the line: `run` looks at the seal again before it starts a mutation. -/
def start (s : Session Body Val Use) (call : Nat) (job : Job Body) (rest : List (Nat × Job Body)) : Session Body Val Use :=
  if s.sealed then { s.result call (.error .closed) with waiting := rest }
  else { s with waiting := rest, running := some ⟨call, job, .start, none, true⟩, started := s.started ++ [call] }

/-- `storage.commit` of a pending commit. -/
def store [UsageSum Use] (s : Session Body Val Use) (m : Mutation Body Val Use) (writes : List (Write Body Val Use))
    (timestamp : Nat) : Session Body Val Use :=
  let done := s.storage.offer (.writes writes timestamp)
  let outcome : Outcome := match done.2 with
    | .ok _ => .ok ()
    | .error error => .error (.storage error)
  { s with
    storage := done.1
    running := some { m with commitResult := some (.settled outcome) }
    history := s.history ++ [⟨m.call, m.job, writes, timestamp, s.storage, done.1, outcome⟩] }

/-- The end of a mutation: its place on the line is released and its caller gets the outcome of its callback. -/
def release (s : Session Body Val Use) (m : Mutation Body Val Use) (outcome : Outcome) : Session Body Val Use :=
  { s.result m.call (outcome.map fun _ => m.job.reply) with running := none }

/-- One step of the program. A callback of `mutate` may attempt to commit as long as it is active, also when it has
returned, and settles as it likes. -/
inductive Step [UsageSum Use] [PendingMessage Body] : Session Body Val Use → Session Body Val Use → Prop where
  | call (s) (job : Job Body) : Step s (s.call job)
  | start (s) {call : Nat} {job : Job Body} {rest : List (Nat × Job Body)} (hidle : s.running = none)
      (hhead : s.waiting = (call, job) :: rest) : Step s (s.start call job rest)
  | resume (s) {m m' : Mutation Body Val Use} (hrun : s.running = some m) (hresume : m.resume s.storage = some m') :
      Step s { s with running := some m' }
  | attempt (s) {m : Mutation Body Val Use} (writes : List (Write Body Val Use)) (hrun : s.running = some m)
      (hjob : m.job = .callback) (hactive : m.active = true) : Step s { s with running := some (m.commit writes) }
  | settle (s) {m : Mutation Body Val Use} (outcome : Outcome) (hrun : s.running = some m) (hjob : m.job = .callback)
      (hpoint : m.point = .start) : Step s { s with running := some (m.settle outcome) }
  | store (s) {m : Mutation Body Val Use} {writes : List (Write Body Val Use)} (timestamp : Nat)
      (hrun : s.running = some m) (hpending : m.commitResult = some (.pending writes)) :
      Step s (s.store m writes timestamp)
  | finish (s) {m : Mutation Body Val Use} {outcome : Outcome} (hrun : s.running = some m)
      (hpoint : m.point = .settled outcome) : Step s { s with running := some { m with active := false } }
  | release (s) {m : Mutation Body Val Use} {outcome : Outcome} (hrun : s.running = some m)
      (hpoint : m.point = .settled outcome) (hended : m.active = false)
      (hcommit : ∀ writes, m.commitResult ≠ some (.pending writes)) : Step s (s.release m outcome)
  | close (s) : Step s { s with sealed := true }
  | closed (s) (hsealed : s.sealed = true) (hidle : s.running = none) (hempty : s.waiting = []) :
      Step s { s with closeResolved := true }

/-- A run of the program. -/
abbrev Steps [UsageSum Use] [PendingMessage Body] : Session Body Val Use → Session Body Val Use → Prop :=
  Relation.ReflTransGen Step

/-! ## A scheduler -/

/-- The choices of a scheduler. -/
inductive Move (Body Val Use : Type) where
  | call (job : Job Body)
  | start
  | resume
  | attempt (writes : List (Write Body Val Use))
  | settle (outcome : Outcome)
  | store (timestamp : Nat)
  | finish
  | release
  | close
  | closed

variable [UsageSum Use] [PendingMessage Body]

/-- A move of the running mutation. -/
def runningMove (s : Session Body Val Use) (m : Mutation Body Val Use) : Move Body Val Use → Option (Session Body Val Use)
  | .resume => (m.resume s.storage).map fun m' => { s with running := some m' }
  | .attempt writes =>
    match m.job, m.active with
    | .callback, true => some { s with running := some (m.commit writes) }
    | _, _ => none
  | .settle outcome =>
    match m.job, m.point with
    | .callback, .start => some { s with running := some (m.settle outcome) }
    | _, _ => none
  | .store timestamp =>
    match m.commitResult with
    | some (.pending writes) => some (s.store m writes timestamp)
    | _ => none
  | .finish =>
    match m.point with
    | .settled _ => some { s with running := some { m with active := false } }
    | _ => none
  | .release =>
    match m.point, m.active, m.commitResult with
    | .settled _, false, some (.pending _) => none
    | .settled outcome, false, _ => some (s.release m outcome)
    | _, _, _ => none
  | _ => none

def move (s : Session Body Val Use) (choice : Move Body Val Use) : Option (Session Body Val Use) :=
  match choice, s.running with
  | .call job, _ => some (s.call job)
  | .close, _ => some { s with sealed := true }
  | .start, none =>
    match s.waiting with
    | (call, job) :: rest => some (s.start call job rest)
    | [] => none
  | .closed, none => if s.sealed && s.waiting.isEmpty then some { s with closeResolved := true } else none
  | choice, some m => s.runningMove m choice
  | _, none => none

def play (s : Session Body Val Use) : List (Move Body Val Use) → Option (Session Body Val Use)
  | [] => some s
  | choice :: choices => (s.move choice).bind fun s' => s'.play choices

variable {s s' : Session Body Val Use} {choice : Move Body Val Use}

theorem runningMove_step {m : Mutation Body Val Use} (hrun : s.running = some m)
    (h : s.runningMove m choice = some s') : Step s s' := by
  cases choice with
  | resume =>
    obtain ⟨m', hm', rfl⟩ := Option.map_eq_some_iff.mp h
    exact .resume s hrun hm'
  | attempt writes =>
    rw [runningMove] at h
    split at h
    · rename_i hjob hactive
      cases h
      exact .attempt s writes hrun hjob hactive
    · cases h
  | settle outcome =>
    rw [runningMove] at h
    split at h
    · rename_i hjob hpoint
      cases h
      exact .settle s outcome hrun hjob hpoint
    · cases h
  | store timestamp =>
    rw [runningMove] at h
    split at h
    · rename_i writes hpending
      cases h
      exact .store s timestamp hrun hpending
    · cases h
  | finish =>
    rw [runningMove] at h
    split at h
    · rename_i outcome hpoint
      cases h
      exact .finish s hrun hpoint
    · cases h
  | release =>
    rw [runningMove] at h
    split at h
    · cases h
    · rename_i outcome hpoint hended hcommit
      cases h
      exact .release s hrun hpoint hended hcommit
    · cases h
  | _ => cases h

/-- The scheduler takes steps of the program only. -/
theorem move_step (h : s.move choice = some s') : Step s s' := by
  unfold move at h
  split at h
  · cases h
    exact .call s _
  · cases h
    exact .close s
  · rename_i hidle
    split at h
    · rename_i hhead
      cases h
      exact .start s hidle hhead
    · cases h
  · rename_i hidle
    split at h
    · rename_i hcond
      cases h
      rw [Bool.and_eq_true, List.isEmpty_iff] at hcond
      exact .closed s hcond.1 hidle hcond.2
    · cases h
  · rename_i hrun
    exact runningMove_step hrun h
  · cases h

theorem play_steps {choices : List (Move Body Val Use)} (h : s.play choices = some s') :
    Steps s s' := by
  induction choices generalizing s with
  | nil =>
    cases h
    exact .refl
  | cons choice choices ih =>
    obtain ⟨t, ht, hrest⟩ := Option.bind_eq_some_iff.mp h
    exact .head (move_step ht) (ih hrest)

end Session

end Shuvpi.SessionTree
