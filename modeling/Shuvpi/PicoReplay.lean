import Shuvpi.PicoJsonl

/-!
# What a replayed batch does

A commit that is read back has its writes in another order, and without what has been cut off
a file. The tables fall into slots: what the main file alone decides, the row of each task
and the log of each sticky document. A batch acts on each slot through the writes of that
slot, so that it is enough to compare these.
-/
namespace Shuvpi.Pico

open Delta (Op isBase)
open Function (update)
open MemoryStorage (applyWrite stageWrite patchTask sinceBase)
open List Option Except

variable {m m' : MemoryStorage} {writes : List Write} {seq : Nat}

/-! ## Slots -/

/-- What only the main file decides. -/
def MemoryStorage.base (m : MemoryStorage) : MemoryStorage :=
  { m with tasksById := fun _ => none, stickyLog := fun _ => none, nextIdValue := 0, seq := 0 }

def Write.isBase : Write → Bool
  | .task _ => false
  | .taskPatch _ => false
  | .doc (.sticky _) _ => false
  | _ => true

theorem applyWrite_base (seq : Nat) (m : MemoryStorage) (w : Write) :
    (applyWrite seq m w).map MemoryStorage.base = if w.isBase then applyWrite seq m.base w else .ok m.base := by
  cases w with
  | doc ref ops =>
    cases ref with
    | session =>
      have hdoc : m.base.sessionDoc = m.sessionDoc := rfl
      unfold applyWrite
      dsimp only
      rw [hdoc]
      cases Delta.applyImmutable (some (m.sessionDoc.getD MemoryStorage.emptySession)) ops with
      | ok | error => rfl
    | rewindable | sticky => rfl
  | _ => rfl

theorem foldlM_base (seq : Nat) (writes : List Write) (m : MemoryStorage) :
    (writes.foldlM (applyWrite seq) m).map MemoryStorage.base = (writes.filter Write.isBase).foldlM (applyWrite seq) m.base := by
  induction writes generalizing m with
  | nil => rfl
  | cons w writes ih =>
    have hw := applyWrite_base seq m w
    rw [foldlM_cons, filter_cons]
    cases happly : applyWrite seq m w with
    | error e =>
      rw [happly] at hw
      split at hw
      · rename_i hbase
        rw [if_pos hbase, foldlM_cons, ← hw]
        rfl
      · cases hw
    | ok m₁ =>
      rw [happly] at hw
      split at hw
      · rename_i hbase
        rw [if_pos hbase, foldlM_cons, ← hw]
        exact ih m₁
      · rename_i hbase
        rw [if_neg hbase]
        have hbase' : m₁.base = m.base := ok.inj hw
        rw [← hbase']
        exact ih m₁

/-- The writes of a task. -/
def Write.isTask (id : Nat) : Write → Bool
  | .task t => t.id = id
  | .taskPatch p => p.id = id
  | _ => false

def rowWrite (row : Option Task) : Write → Option Task
  | .task t => some t
  | .taskPatch p => row.map fun t => patchTask t p
  | _ => row

theorem taskWrite_row (writes : List Write) (rows : Nat → Option Task) (id : Nat) :
    writes.foldl taskWrite rows id = (writes.filter (Write.isTask id)).foldl rowWrite (rows id) := by
  induction writes generalizing rows with
  | nil => rfl
  | cons w writes ih =>
    rw [foldl_cons, ih, filter_cons]
    have hrow : taskWrite rows w id = if w.isTask id then rowWrite (rows id) w else rows id := by
      cases w with
      | task t =>
        by_cases heq : t.id = id
        · simp [taskWrite, Write.isTask, rowWrite, heq]
        · simp [taskWrite, Write.isTask, heq, Function.update_of_ne (Ne.symm heq)]
      | taskPatch p =>
        by_cases heq : p.id = id
        · simp [taskWrite, Write.isTask, rowWrite, heq]
        · simp [taskWrite, Write.isTask, heq, Function.update_of_ne (Ne.symm heq)]
      | _ => rfl
    rw [hrow]
    split
    · rw [foldl_cons]
    · rfl

/-- The batch of a sticky document. -/
def Write.stickyOps (c : Nat) : Write → Option (List Op)
  | .doc (.sticky c') ops => if c' = c then some ops else none
  | _ => none

/-- Batches are added to a log. -/
def pushAll (log : Option (List (List Op))) (batches : List (List Op)) : Option (List (List Op)) :=
  if batches.isEmpty then log else some (log.getD [] ++ batches)

theorem pushAll_append (log : Option (List (List Op))) (b b' : List (List Op)) :
    pushAll log (b ++ b') = pushAll (pushAll log b) b' := by
  unfold pushAll
  cases b with
  | nil => rfl
  | cons ops b =>
    cases b' with
    | nil | cons => simp

variable {w : Write}

theorem applyWrite_sticky (h : applyWrite seq m w = .ok m') (c : Nat) :
    m'.stickyLog c = pushAll (m.stickyLog c) (w.stickyOps c).toList := by
  cases w with
  | doc ref ops =>
    cases ref with
    | session =>
      simp only [applyWrite] at h
      split at h
      · cases h
        rfl
      · cases h
    | rewindable c' => cases h; rfl
    | sticky c' =>
      cases h
      by_cases heq : c' = c
      · subst heq
        simp [Write.stickyOps, pushAll]
      · simp [Write.stickyOps, pushAll, heq, Function.update_of_ne (Ne.symm heq)]
  | _ => cases h; rfl

theorem foldlM_sticky (h : writes.foldlM (applyWrite seq) m = .ok m') (c : Nat) :
    m'.stickyLog c = pushAll (m.stickyLog c) (writes.filterMap (Write.stickyOps c)) := by
  induction writes generalizing m with
  | nil => cases h; rfl
  | cons w writes ih =>
    obtain ⟨m₁, hw, h⟩ := bind_ok.mp h
    rw [ih h, applyWrite_sticky hw, ← pushAll_append]
    rw [filterMap_cons]
    cases w.stickyOps c <;> rfl

/-! ## Checks -/

/-- The writes that claim an id. -/
def Write.isClaim : Write → Bool
  | .taskPatch _ => false
  | .doc _ _ => false
  | _ => true

/-- The task of a patch is known. -/
def Known (m : MemoryStorage) (batch : List Write) (id : Nat) : Bool :=
  (m.tasksById id).isSome || MemoryStorage.createsTask batch id

variable {batch : List Write} {created : List Nat}

variable {created' : List Nat}

theorem stageWrite_other (hclaim : w.isClaim = false)
    (h : stageWrite m batch created w = .ok created') :
    created' = created ∧ ∀ p, w = .taskPatch p → Known m batch p.id := by
  cases w with
  | taskPatch p =>
    unfold stageWrite at h
    dsimp only at h
    split at h
    · rename_i hknown
      refine ⟨(ok.inj h).symm, ?_⟩
      rintro _ ⟨⟩
      exact hknown
    · cases h
  | doc ref ops => exact ⟨(ok.inj h).symm, fun p hp => by cases hp⟩
  | _ => cases hclaim

theorem stageWrite_known (hclaim : w.isClaim = false) (hknown : ∀ p, w = .taskPatch p → Known m batch p.id) :
    stageWrite m batch created w = .ok created := by
  cases w with
  | taskPatch p => exact if_pos (hknown p rfl)
  | doc ref ops => rfl
  | _ => cases hclaim

theorem stage_known (h : writes.foldlM (stageWrite m batch) created = .ok created') :
    ∀ p, .taskPatch p ∈ writes → Known m batch p.id := by
  induction writes generalizing created with
  | nil => exact fun _ hp => by cases hp
  | cons w writes ih =>
    obtain ⟨c, hw, h⟩ := bind_ok.mp h
    intro p hp
    rcases mem_cons.mp hp with rfl | hp
    · exact (stageWrite_other rfl hw).2 p rfl
    · exact ih h p hp

theorem stage_filter (hknown : ∀ p, .taskPatch p ∈ writes → Known m batch p.id) (created : List Nat) :
    writes.foldlM (stageWrite m batch) created = (writes.filter Write.isClaim).foldlM (stageWrite m batch) created := by
  induction writes generalizing created with
  | nil => rfl
  | cons w writes ih =>
    have hrest := fun created => ih (fun p hp => hknown p (.tail _ hp)) created
    rw [foldlM_cons, filter_cons]
    split
    · rw [foldlM_cons]
      exact congrArg _ (funext hrest)
    · rename_i hclaim
      rw [stageWrite_known (by simpa using hclaim) fun p hp => hknown p (hp ▸ .head _)]
      exact hrest created

/-- The same rows, and the same of everything that only the main file decides. -/
structure SameKeys (m m' : MemoryStorage) : Prop where
  base : m.base = m'.base
  rows : ∀ id, (m.tasksById id).isSome = (m'.tasksById id).isSome

theorem stageWrite_claim (h : SameKeys m m') (hclaim : w.isClaim) (batch batch' : List Write) (created : List Nat) :
    stageWrite m batch created w = stageWrite m' batch' created w := by
  have hconversations : m.conversationsById = m'.conversationsById :=
    (congrArg MemoryStorage.conversationsById h.base : m.base.conversationsById = m'.base.conversationsById)
  have hentries : m.entriesById = m'.entriesById :=
    (congrArg MemoryStorage.entriesById h.base : m.base.entriesById = m'.base.entriesById)
  have hinputs : m.inputsById = m'.inputsById :=
    (congrArg MemoryStorage.inputsById h.base : m.base.inputsById = m'.base.inputsById)
  cases w with
  | conversation c =>
    unfold stageWrite
    rw [hconversations]
  | entry e =>
    unfold stageWrite
    rw [hentries]
  | task t =>
    unfold stageWrite
    dsimp only
    rw [h.rows]
  | input i =>
    unfold stageWrite
    rw [hinputs]
  | taskPatch | doc => cases hclaim

variable {batch' : List Write}

/-- A batch that claims the same ids is accepted if the tasks of its patches are known. -/
theorem stage_of (hstage : m.stage batch = .ok created) (h : SameKeys m m')
    (hclaims : batch'.filter Write.isClaim = batch.filter Write.isClaim)
    (hknown : ∀ p, .taskPatch p ∈ batch' → Known m' batch' p.id) :
    m'.stage batch' = .ok created := by
  unfold MemoryStorage.stage at hstage ⊢
  rw [stage_filter (stage_known hstage)] at hstage
  rw [stage_filter hknown, hclaims, ← hstage]
  have hclaim : ∀ w ∈ batch.filter Write.isClaim, w.isClaim := fun w hw => (mem_filter.mp hw).2
  clear hstage
  generalize batch.filter Write.isClaim = claims at hclaim
  generalize ([] : List Nat) = created
  induction claims generalizing created with
  | nil => rfl
  | cons w claims ih =>
    rw [foldlM_cons, foldlM_cons, stageWrite_claim h (hclaim w (.head _)) batch batch' created]
    exact congrArg _ (funext fun created => ih (fun w hw => hclaim w (.tail _ hw)) created)

/-! ## Commits -/

theorem commit_slots (h : m.commit writes = .ok m') : m'.tasksById = writes.foldl taskWrite m.tasksById ∧
      (∀ c, m'.stickyLog c = pushAll (m.stickyLog c) (writes.filterMap (Write.stickyOps c))) ∧ m'.seq = m.seq + 1 := by
  refine ⟨(commit_tables h).1, ?_⟩
  obtain ⟨created, -, h⟩ := bind_ok.mp h
  obtain ⟨m₁, happly, h⟩ := bind_ok.mp h
  obtain rfl := ok.inj h
  have hstick := foldlM_sticky happly
  exact ⟨hstick, rfl⟩

/-- A batch with the same writes of the main file is committed alike. -/
theorem commit_of {m₁ : MemoryStorage} (hcommit : m.commit batch = .ok m₁) (h : SameKeys m m')
    (hseq : m.seq = m'.seq)
    (hmain : ∀ p : Write → Bool, (∀ w, p w → (sidecarOf w).isNone) → batch'.filter p = batch.filter p)
    (hknown : ∀ p, .taskPatch p ∈ batch' → Known m' batch' p.id) :
    ∃ m₁', m'.commit batch' = .ok m₁' ∧ m₁.base = m₁'.base := by
  obtain ⟨created, hstage, hcommit⟩ := bind_ok.mp hcommit
  obtain ⟨m₂, happly, hcommit⟩ := bind_ok.mp hcommit
  have hclaims : batch'.filter Write.isClaim = batch.filter Write.isClaim := by
    refine hmain _ fun w hw => ?_
    cases w <;> first | rfl | cases hw
  have hbases : batch'.filter Write.isBase = batch.filter Write.isBase := by
    refine hmain _ fun w hw => ?_
    cases w with
    | doc ref ops => cases ref <;> first | rfl | cases hw
    | taskPatch p => cases hw
    | _ => rfl
  have hstage' := stage_of hstage h hclaims hknown
  have hfold := foldlM_base (m.seq + 1) batch m
  rw [happly, h.base, ← hbases, ← foldlM_base, hseq] at hfold
  cases happly' : batch'.foldlM (applyWrite (m'.seq + 1)) m' with
  | error e =>
    rw [happly'] at hfold
    cases hfold
  | ok m₂' =>
    rw [happly'] at hfold
    obtain rfl := ok.inj hcommit
    refine ⟨{ m₂'.setNextId (MemoryStorage.maxOf created + 1) with seq := m'.seq + 1 }, ?_, ?_⟩
    · unfold MemoryStorage.commit
      rw [hstage']
      rw [happly']
      rfl
    · have hbase : m₂.base = m₂'.base := ok.inj hfold
      exact hbase

/-! ## The rows of tasks -/

/-- What holds of the task writes of a transaction. -/
structure Transacted (m : MemoryStorage) (writes : List Write) : Prop where
  created : ∀ t, .task t ∈ writes → m.tasksById t.id = none ∧ t.status ≠ .terminal
  /-- No patch comes before its task. -/
  ordered : writes.Pairwise fun a b => ∀ p t, a = .taskPatch p → b = .task t → p.id ≠ t.id
  live : ∀ p, .taskPatch p ∈ writes →
    (∃ r, m.tasksById p.id = some r ∧ r.status ≠ .terminal) ∨ m.tasksById p.id = none ∧ ∃ t, .task t ∈ writes ∧ t.id = p.id
  mark : ∀ p, .taskPatch p ∈ writes → p.abort ≠ some false
  /-- A terminal patch has all that can change. -/
  complete : ∀ p, .taskPatch p ∈ writes → p.status = some .terminal → p.checkpoint = some none ∧ p.outcome.isSome ∧ p.owns.isSome

/-- No task has both a terminal patch and another one. -/
def Separate (writes : List Write) : Prop :=
  ∀ p q, .taskPatch p ∈ writes → .taskPatch q ∈ writes → p.id = q.id → p.status = some .terminal → q.status = some .terminal

/-- The terminal patch of a marked task has the mark. -/
def CarriesMark (m : MemoryStorage) (writes : List Write) : Prop :=
  ∀ p, .taskPatch p ∈ writes → p.status = some .terminal → ∀ r, m.tasksById p.id = some r → r.abort = true → p.abort = some true

/-- A row that misses patches that are not terminal. -/
def Behind (a b : Task) : Prop :=
  { b with status := a.status, checkpoint := a.checkpoint, abort := a.abort, outcome := a.outcome, owns := a.owns } = a ∧
    (a.abort = true → b.abort = true)

theorem Behind.refl (a : Task) : Behind a a := ⟨rfl, id⟩

variable {a b : Task}

theorem Behind.patch (h : Behind a b) {p : TaskPatch} (hmark : p.abort ≠ some false) : Behind a (patchTask b p) := by
  refine ⟨h.1, fun habort => ?_⟩
  change p.abort.getD b.abort = true
  cases hp : p.abort with
  | none => exact h.2 habort
  | some mark =>
    cases mark with
    | true => rfl
    | false => exact absurd hp hmark

/-- The terminal patch makes up for what is missing. -/
theorem Behind.complete (h : Behind a b) {p : TaskPatch} (hterm : p.status = some .terminal)
    (hcheck : p.checkpoint = some none) (houtcome : p.outcome.isSome) (howns : p.owns.isSome)
    (hcarries : b.abort = true → p.abort = some true) : patchTask a p = patchTask b p := by
  obtain ⟨outcome, houtcome⟩ := isSome_iff_exists.mp houtcome
  obtain ⟨owns, howns⟩ := isSome_iff_exists.mp howns
  have habort : p.abort.getD a.abort = p.abort.getD b.abort := by
    cases hp : p.abort with
    | some mark => rfl
    | none =>
      have hb : b.abort = false := by
        cases hb : b.abort with
        | false => rfl
        | true =>
          rw [hcarries hb] at hp
          cases hp
      rw [hb]
      cases ha : a.abort with
      | false => rfl
      | true => exact absurd (h.2 ha) (by rw [hb]; decide)
  rw [← h.1] at habort ⊢
  unfold patchTask
  rw [hterm, hcheck, houtcome, howns, habort]
  rfl

theorem filter_append_filter_not {α : Type} {p : α → Bool} {l : List α} (h : l.Pairwise fun a b => p b → p a) :
    l.filter p ++ l.filter (fun a => !p a) = l := by
  induction h with
  | nil => rfl
  | @cons a l hrel _ ih =>
    by_cases ha : p a
    · rw [filter_cons_of_pos ha, filter_cons_of_neg (by simpa using ha), cons_append, ih]
    · -- nothing after `a` satisfies `p`
      have hnone : l.filter p = [] := filter_eq_nil_iff.mpr fun b hb hpb => ha (hrel b hb hpb)
      rw [hnone, nil_append] at ih
      rw [filter_cons_of_neg ha, hnone, filter_cons_of_pos (by simpa using ha), ih]
      rfl

variable {id : Nat}

theorem sidecarOf_task : sidecarOf w = some (.task id) ↔ w.isTask id ∧ (sidecarOf w).isSome := by
  cases w with
  | taskPatch p =>
    unfold sidecarOf Write.isTask
    dsimp only
    split <;> simp
  | doc ref ops => cases ref <;> simp [sidecarOf, Write.isTask]
  | conversation | entry | input => simp [sidecarOf, Write.isTask]
  | task t => simp [sidecarOf]

/-- A write of a task that goes to its own file. -/
theorem sidecarOf_patch (h : sidecarOf w = some (.task id)) :
    ∃ p, w = .taskPatch p ∧ p.id = id ∧ p.status ≠ some .terminal := by
  cases w with
  | taskPatch p =>
    unfold sidecarOf at h
    dsimp only at h
    split at h
    · cases h
    · rename_i hstat
      exact ⟨p, rfl, by simpa using h, hstat⟩
  | doc ref ops => cases ref <;> simp [sidecarOf] at h
  | _ => simp [sidecarOf] at h

/-- A write of a task that goes to the main file. -/
theorem main_task (hmain : (sidecarOf w).isNone) (htask : w.isTask id) :
    (∃ t, w = .task t ∧ t.id = id) ∨ ∃ p, w = .taskPatch p ∧ p.id = id ∧ p.status = some .terminal := by
  cases w with
  | task t => exact .inl ⟨t, rfl, of_decide_eq_true htask⟩
  | taskPatch p =>
    refine .inr ⟨p, rfl, of_decide_eq_true htask, ?_⟩
    unfold sidecarOf at hmain
    dsimp only at hmain
    split at hmain
    · assumption
    · cases hmain
  | _ => cases htask

/-- What the main file has of a task comes before the rest. -/
theorem filter_task (htransacted : Transacted m writes) (hseparate : Separate writes) (id : Nat) :
    writes.filter (Write.isTask id) = (mainWrites writes).filter (Write.isTask id) ++ writesOf (.task id) writes := by
  have hpairwise : (writes.filter (Write.isTask id)).Pairwise fun a b => (sidecarOf b).isNone → (sidecarOf a).isNone := by
    have hsub := (htransacted.ordered.sublist List.filter_sublist : (writes.filter (Write.isTask id)).Pairwise _)
    refine hsub.imp_of_mem fun {a b} ha hb hrel hmain => ?_
    obtain ⟨hamem, ha⟩ := List.mem_filter.mp ha
    obtain ⟨hbmem, hb⟩ := List.mem_filter.mp hb
    by_contra hside
    obtain ⟨p, rfl, hpid, hlive⟩ := sidecarOf_patch (sidecarOf_task.mpr ⟨ha, by simpa [Option.isSome_iff_ne_none] using hside⟩)
    rcases main_task hmain hb with ⟨t, rfl, htid⟩ | ⟨q, rfl, hqid, hterm⟩
    · exact hrel p t rfl rfl (hpid.trans htid.symm)
    · exact hlive (hseparate q p hbmem hamem (hqid.trans hpid.symm) hterm)
  have hsplit := filter_append_filter_not hpairwise
  rw [List.filter_filter, List.filter_filter] at hsplit
  refine hsplit.symm.trans ?_
  unfold mainWrites writesOf
  rw [List.filter_filter]
  congr 1
  · exact List.filter_congr fun w _ => Bool.and_comm _ _
  · refine List.filter_congr fun w _ => ?_
    rw [Bool.eq_iff_iff, decide_eq_true_iff, sidecarOf_task, Bool.and_eq_true, and_comm]
    simp [Option.isSome_iff_ne_none]

/-- How a row that is read back compares. Where the file of a task is gone, it may be behind until the task has ended. -/
def RowRel (gone : Bool) (row' row : Option Task) : Prop :=
  row' = row ∨ gone = true ∧ ∃ a b, row' = some a ∧ row = some b ∧ b.status ≠ .terminal ∧ Behind a b

/-- Patches that are not terminal. -/
theorem foldl_patches {patches : List Write}
    (h : ∀ w ∈ patches, sidecarOf w = some (.task id) ∧ ∀ p, w = .taskPatch p → p.abort ≠ some false)
    (hbehind : Behind a b) (hlive : b.status ≠ .terminal) :
    ∃ b', patches.foldl rowWrite (some b) = some b' ∧ b'.status ≠ .terminal ∧ Behind a b' := by
  induction patches generalizing b with
  | nil => exact ⟨b, rfl, hlive, hbehind⟩
  | cons w patches ih =>
    obtain ⟨hside, hmark⟩ := h w (.head _)
    obtain ⟨p, rfl, -, hstat⟩ := sidecarOf_patch hside
    refine ih (fun w hw => h w (.tail _ hw)) (hbehind.patch (hmark p rfl)) ?_
    change p.status.getD b.status ≠ .terminal
    cases hp : p.status with
    | none => exact hlive
    | some status => exact fun heq => hstat (hp.trans (congrArg some heq))

theorem mem_writesOf {name : FileName} : w ∈ writesOf name writes ↔ w ∈ writes ∧ sidecarOf w = some name := by
  unfold writesOf
  rw [mem_filter, decide_eq_true_iff]

/-- What the main file has of a task evens rows out. -/
theorem foldl_main {ws : List Write} (hmain : ∀ w ∈ ws, (sidecarOf w).isNone ∧ w.isTask id)
    (hmem : ∀ w ∈ ws, w ∈ writes) (htransacted : Transacted m writes) (hcarries : CarriesMark m writes)
    (hrow : m.tasksById id = some b) (hbehind : Behind a b) :
    ws = [] ∨ ws.foldl rowWrite (some a) = ws.foldl rowWrite (some b) := by
  cases ws with
  | nil => exact .inl rfl
  | cons w ws =>
    refine .inr ?_
    rw [foldl_cons, foldl_cons]
    congr 1
    obtain ⟨hnone, htask⟩ := hmain w (.head _)
    rcases main_task hnone htask with ⟨t, rfl, -⟩ | ⟨p, rfl, hid, hterm⟩
    · rfl
    · have hp := hmem _ (.head _)
      obtain ⟨hcheck, houtcome, howns⟩ := htransacted.complete p hp hterm
      exact congrArg some (hbehind.complete hterm hcheck houtcome howns
        fun habort => hcarries p hp hterm b (hid ▸ hrow) habort)

theorem RowRel.step {gone : Bool} {row' : Option Task} (h : RowRel gone row' (m.tasksById id)) (present : Bool)
    (htransacted : Transacted m writes) (hseparate : Separate writes) (hcarries : CarriesMark m writes)
    (hpresent : present = !gone ∨ writesOf (.task id) writes = []) :
    RowRel gone (((mainWrites writes).filter (Write.isTask id) ++ if present then writesOf (.task id) writes else []).foldl rowWrite row')
      ((writes.filter (Write.isTask id)).foldl rowWrite (m.tasksById id)) := by
  rw [filter_task htransacted hseparate id]
  have hmain : ∀ w ∈ (mainWrites writes).filter (Write.isTask id), (sidecarOf w).isNone ∧ w.isTask id := fun w hw =>
    ⟨(mem_filter.mp (mem_filter.mp hw).1).2, (mem_filter.mp hw).2⟩
  have hmem : ∀ w ∈ (mainWrites writes).filter (Write.isTask id), w ∈ writes := fun w hw =>
    (mem_filter.mp (mem_filter.mp hw).1).1
  have hside : ∀ w ∈ writesOf (.task id) writes, sidecarOf w = some (.task id) ∧ ∀ p, w = .taskPatch p → p.abort ≠ some false := by
    intro w hw
    obtain ⟨hmem, hside⟩ := mem_writesOf.mp hw
    exact ⟨hside, fun p hp => htransacted.mark p (hp ▸ hmem)⟩
  have hcreate : ∀ t, .task t ∈ writes → t.id = id → .task t ∈ (mainWrites writes).filter (Write.isTask id) := fun t ht hid =>
    mem_filter.mpr ⟨mem_filter.mpr ⟨ht, rfl⟩, decide_eq_true hid⟩
  generalize (mainWrites writes).filter (Write.isTask id) = ws at hmain hmem hcreate
  by_cases hnil : writesOf (.task id) writes = []
  · -- the main file has all of it
    rw [hnil, ite_self, append_nil]
    rcases h with rfl | ⟨hgone, a, b, rfl, hb, hlive, hbehind⟩
    · exact .inl rfl
    · rcases foldl_main hmain hmem htransacted hcarries hb hbehind with rfl | heq
      · exact .inr ⟨hgone, a, b, rfl, hb, hlive, hbehind⟩
      · rw [hb]
        exact .inl heq
  · have hpresent := hpresent.resolve_right hnil
    cases gone with
    | false =>
      rw [hpresent]
      rcases h with rfl | ⟨hgone, -⟩
      · exact .inl rfl
      · cases hgone
    | true =>
      rw [hpresent, foldl_append, foldl_append]
      -- a task with such a patch has no terminal one in the batch, so that the main file can only create it
      obtain ⟨w, hw⟩ := exists_mem_of_ne_nil _ hnil
      obtain ⟨hwmem, hwside⟩ := mem_writesOf.mp hw
      obtain ⟨p, rfl, hpid, hplive⟩ := sidecarOf_patch hwside
      have hcreates : ∀ w ∈ ws, ∃ t, w = .task t ∧ t.status ≠ .terminal := by
        intro w hw
        rcases main_task (hmain w hw).1 (hmain w hw).2 with ⟨t, rfl, -⟩ | ⟨q, rfl, hqid, hterm⟩
        · exact ⟨t, rfl, (htransacted.created t (hmem _ hw)).2⟩
        · exact absurd (hseparate q p (hmem _ hw) hwmem (hqid.trans hpid.symm) hterm) hplive
      have hrows : ∃ a b, ws.foldl rowWrite row' = some a ∧ ws.foldl rowWrite (m.tasksById id) = some b ∧ b.status ≠ .terminal ∧ Behind a b := by
        rcases eq_nil_or_concat ws with rfl | ⟨l, w, rfl⟩
        · rcases htransacted.live p hwmem with ⟨r, hr, hlive⟩ | ⟨-, t, ht, htid⟩
          · rw [hpid] at hr
            rcases h with rfl | ⟨-, a, b, rfl, hb, hlive, hbehind⟩
            · exact ⟨r, r, hr, hr, hlive, .refl r⟩
            · exact ⟨a, b, rfl, hb, hlive, hbehind⟩
          · cases hcreate t ht (htid.trans hpid)
        · obtain ⟨t, rfl, hlive⟩ := hcreates w (by simp)
          refine ⟨t, t, ?_, ?_, hlive, .refl t⟩
          · rw [concat_eq_append, foldl_append]
            rfl
          · rw [concat_eq_append, foldl_append]
            rfl
      obtain ⟨a, b, ha, hb, hlive, hbehind⟩ := hrows
      obtain ⟨b', hb', hlive', hbehind'⟩ := foldl_patches hside hbehind hlive
      rw [ha, hb, hb']
      exact .inr ⟨rfl, a, b', rfl, rfl, hlive', hbehind'⟩

end Shuvpi.Pico
