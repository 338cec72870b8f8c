import Shuvpi.PicoScope

/-!
# The files of a pico3 session

`JsonlStorage` of `pico3/jsonl.ts`. A commit is spread over a main file, one file for each
sticky document and one for each live task; the record of the main file comes last and lists
the other files, so that it publishes the commit. A process can end between any two
operations on files and in the middle of an append.

A file is the list of its lines, where a line that is not a record is `none`, and whether
bytes follow the last newline.
-/
namespace Shuvpi.Pico

open Delta (Op isBase)
open Function (update)

/-! ## Files -/

inductive FileName where
  | main
  | sticky (conversationId : Nat)
  | task (id : Nat)
  /-- `sticky-<conversation>.jsonl.tmp` -/
  | temporary (conversationId : Nat)
  deriving DecidableEq

/-- One line of any file. Only those of the main file list others. -/
structure Record where
  seq : Nat
  maxId : Nat
  writes : List Write
  refs : List FileName := []

structure File where
  lines : List (Option Record)
  torn : Bool := false

abbrev Disk := FileName → Option File

/-- What a process does to files. -/
inductive FileOp where
  | append (name : FileName) (record : Record)
  /-- The temporary file is opened anew and written. -/
  | rewrite (conversationId : Nat) (lines : List (Option Record))
  | rename (conversationId : Nat)
  | unlink (name : FileName)

def File.append (file : File) (record : Record) : File where
  -- what follows torn bytes is on their line
  lines := file.lines ++ [if file.torn then none else some record]

def FileOp.run (d : Disk) : FileOp → Disk
  | .append name record => update d name (some (((d name).getD ⟨[], false⟩).append record))
  | .rewrite c lines => update d (.temporary c) (some ⟨lines, false⟩)
  | .rename c => update (update d (.sticky c) (d (.temporary c))) (.temporary c) none
  | .unlink name => update d name none

/-- What a process leaves that ends during an operation. -/
inductive FileOp.Cut (d : Disk) : FileOp → Disk → Prop
  | before (op : FileOp) : Cut d op d
  /-- Nothing has been written to a file that was opened. -/
  | opened (name : FileName) (record : Record) : Cut d (.append name record) (update d name (some ((d name).getD ⟨[], false⟩)))
  | torn (name : FileName) (record : Record) :
      Cut d (.append name record) (update d name (some { (d name).getD ⟨[], false⟩ with torn := true }))
  | rewriting (c n : Nat) (torn : Bool) (lines : List (Option Record)) :
      Cut d (.rewrite c lines) (update d (.temporary c) (some ⟨lines.take n, torn⟩))

/-! ## Commits -/

/-- The file other than the main one that a write goes to. -/
def sidecarOf : Write → Option FileName
  | .doc (.sticky c) _ => some (.sticky c)
  | .taskPatch p => if p.status = some .terminal then none else some (.task p.id)
  | _ => none

def writesOf (name : FileName) (writes : List Write) : List Write := writes.filter fun w => sidecarOf w = some name

def mainWrites (writes : List Write) : List Write := writes.filter fun w => (sidecarOf w).isNone

/-- The files that a commit writes before the main one: those of tasks, then those of sticky documents, each in the order of
their first writes. -/
def sidecars (writes : List Write) : List FileName :=
  let names := (writes.filterMap sidecarOf).reverse.dedup.reverse
  (names.filter fun name => name matches .task _) ++ names.filter fun name => name matches .sticky _

def retired (writes : List Write) : List Nat :=
  writes.filterMap fun w => match w with
    | .taskPatch p => if p.status = some .terminal then some p.id else none
    | _ => none

/-- `nextIdAfter` -/
def Write.createdId : Write → Nat
  | .conversation c => c.id
  | .entry e => e.id
  | .task t => t.id
  | .input i => i.id
  | _ => 0

def nextIdAfter (m : MemoryStorage) (writes : List Write) : Nat := (writes.map Write.createdId).foldl max (m.nextIdValue - 1)

def sidecarRecord (seq maxId : Nat) (writes : List Write) (name : FileName) : Record := ⟨seq, maxId, writesOf name writes, []⟩

def mainRecord (seq maxId : Nat) (writes : List Write) : Record := ⟨seq, maxId, mainWrites writes, sidecars writes⟩

/-- The operations of `commit` on files, after the batch has been checked. -/
def commitOps (m : MemoryStorage) (writes : List Write) : List FileOp :=
  let seq := m.seq + 1
  let maxId := nextIdAfter m writes
  (sidecars writes).map (fun name => .append name (sidecarRecord seq maxId writes name)) ++
    .append .main (mainRecord seq maxId writes) :: (retired writes).map fun id => .unlink (.task id)

def docOps : Write → List Op
  | .doc _ ops => ops
  | _ => []

/-- The record replaces its document. -/
def Record.isBase (record : Record) : Bool := Delta.isBase (record.writes.flatMap docOps)

/-- The operations of `truncate` of a sticky document on files. -/
def truncateOps (d : Disk) (c : Nat) : List FileOp :=
  match d (.sticky c) with
  | none => []
  | some file =>
    match (file.lines.zipIdx.filter fun p => p.1.any Record.isBase).getLast? with
    | none => []
    | some (_, start) => if start = 0 then [] else [.rewrite c (file.lines.drop start), .rename c]

def runOps (d : Disk) (ops : List FileOp) : Disk := ops.foldl FileOp.run d

/-- What a process leaves that ends during some operations: `done` of them are complete. -/
def CutOps (d : Disk) (ops : List FileOp) (done : Nat) (d' : Disk) : Prop :=
  match ops.drop done with
  | [] => d' = runOps d ops
  | op :: _ => op.Cut (runOps d (ops.take done)) d'

/-! ## Opening -/

inductive ReplayError where
  | malformed (name : FileName)
  | notIncreasing (name : FileName) (seq : Nat)
  | confirmedAfterTail (name : FileName)
  | missing (name : FileName) (seq : Nat)
  | storage (error : StorageError)
  deriving DecidableEq

/-- The records of the lines of a file, after one numbered `last`. -/
def readLines (name : FileName) : Nat → List (Option Record) → Except ReplayError (List Record)
  | _, [] => .ok []
  | _, none :: _ => .error (.malformed name)
  | last, some record :: lines =>
    if record.seq ≤ last then .error (.notIncreasing name record.seq) else (readLines name record.seq lines).map (record :: ·)

def linesOf (d : Disk) (name : FileName) : List (Option Record) := (d name).elim [] File.lines

/-- The main file has a marker for the record of the other file. -/
def confirmed (main : List Record) (name : FileName) (record : Record) : Bool :=
  (main.find? fun r => r.seq = record.seq).any fun r => r.refs.contains name

structure Sidecar where
  name : FileName
  records : List Record
  /-- Where a file that begins with a replacement begins. -/
  retainedFrom : Option Nat
  tail : Bool

def retainedStickyBase (name : FileName) (first : Option Record) : Option Nat :=
  match name with
  | .sticky _ => (first.filter Record.isBase).map Record.seq
  | _ => none

/-- One file other than the main one, up to its unconfirmed tail. -/
def readSidecar (d : Disk) (main : List Record) (name : FileName) : Except ReplayError Sidecar := do
  let records ← readLines name 0 (linesOf d name)
  let rest := records.dropWhile (confirmed main name)
  if rest.any (confirmed main name) then .error (.confirmedAfterTail name)
  else .ok {
    name := name
    records := records.takeWhile (confirmed main name)
    retainedFrom := retainedStickyBase name records.head?
    tail := !rest.isEmpty }

/-- When a task's terminal record was published. -/
def retiredAt (main : List Record) (id : Nat) : Option Nat :=
  ((main.filter fun r => (retired r.writes).contains id).getLast?).map Record.seq

/-- The absence of a record is accounted for. -/
def accounted (main : List Record) (files : List Sidecar) (seq : Nat) (name : FileName) : Bool :=
  (files.any fun f => f.name = name && f.records.any fun r => r.seq = seq) ||
    (files.any fun f => f.name = name && f.retainedFrom.any fun n => seq < n) ||
    match name with
    | .task id => (retiredAt main id).any fun n => seq < n
    | _ => false

/-- The writes of a commit: of the main file, then of the others. -/
def batchOf (files : List Sidecar) (record : Record) : List Write :=
  record.writes ++ files.flatMap fun f => (f.records.filter fun r => r.seq = record.seq).flatMap Record.writes

def replayRecord (files : List Sidecar) (m : MemoryStorage) (record : Record) : Except ReplayError MemoryStorage :=
  match { m with seq := record.seq - 1 }.commit (batchOf files record) with
  | .ok m' => .ok m'
  | .error e => .error (.storage e)

/-- What opening leaves of a file: torn bytes and unconfirmed records are cut off, and the files of tasks that are not
live are removed. -/
def cleaned (d : Disk) (files : List Sidecar) (m : MemoryStorage) (name : FileName) : Option File :=
  match files.find? fun f => f.name = name with
  | none => (d name).map fun file => { file with torn := false }
  | some f =>
    let file : Option File := (d name).map fun file =>
      if f.tail then ⟨f.records.map some, false⟩
      else match name with
        | .temporary _ => file
        | _ => { file with torn := false }
    match name with
    | .task id => if (m.tasksById id).any fun t => t.status ≠ .terminal then file else none
    | _ => file

/-- `open`, with the names of the files other than the main one as they are listed. -/
def openStorage (d : Disk) (order : List FileName) : Except ReplayError (MemoryStorage × Disk) := do
  let main ← readLines .main 0 (linesOf d .main)
  let files ← order.mapM (readSidecar d main)
  match (main.flatMap fun r => r.refs.map fun name => (r.seq, name)).find? fun p => !accounted main files p.1 p.2 with
  | some (seq, name) => .error (.missing name seq)
  | none => do
    let m ← main.foldlM (replayRecord files) .empty
    let maxId := ((main ++ files.flatMap Sidecar.records).map Record.maxId).foldl max 0
    let m := m.setNextId (maxId + 1)
    .ok (m, update (cleaned d files m) .main (some ⟨linesOf d .main, false⟩))

end Shuvpi.Pico
