import Shuvpi.PicoReplay

/-!
# Reading the files back

The files of a session that has published some batches hold the records of these, less what has
been cut off the front of a sticky document's file and less the files of tasks that have ended,
and perhaps records of a batch that was not published. Such files can be opened, and the tables
are those that the batches lead to.
-/
namespace Shuvpi.Pico

open Delta (Op isBase)
open Function (update)
open MemoryStorage (applyWrite stageWrite patchTask sinceBase)
open List hiding concat cons nil
open Option hiding none some

variable {m m' : MemoryStorage} {writes : List Write}

/-! ## The records of a log -/

/-- A batch that the main file has a record of, with the high-water mark of its records. -/
structure Published where
  maxId : Nat
  writes : List Write

def mainFrom (n : Nat) : List Published → List Record
  | [] => []
  | p :: log => mainRecord (n + 1) p.maxId p.writes :: mainFrom (n + 1) log

/-- The records of a file other than the main one. -/
def recordsFrom (n : Nat) (name : FileName) : List Published → List Record
  | [] => []
  | p :: log =>
    (if name ∈ sidecars p.writes then [sidecarRecord (n + 1) p.maxId p.writes name] else []) ++ recordsFrom (n + 1) name log

theorem mainFrom_append (n : Nat) (log log' : List Published) :
    mainFrom n (log ++ log') = mainFrom n log ++ mainFrom (n + log.length) log' := by
  induction log generalizing n with
  | nil => rfl
  | cons p log ih =>
    rw [cons_append, mainFrom, mainFrom, ih, cons_append, length_cons, Nat.add_right_comm, Nat.add_assoc]

theorem recordsFrom_append (n : Nat) (name : FileName) (log log' : List Published) :
    recordsFrom n name (log ++ log') = recordsFrom n name log ++ recordsFrom (n + log.length) name log' := by
  induction log generalizing n with
  | nil => rfl
  | cons p log ih =>
    rw [cons_append, recordsFrom, recordsFrom, ih, append_assoc, length_cons, Nat.add_right_comm, Nat.add_assoc]

variable {name : FileName}

variable {w : Write}

theorem sidecarOf_name (h : sidecarOf w = some name) :
    (∃ id, name = .task id) ∨ ∃ c, name = .sticky c := by
  cases w with
  | taskPatch p =>
    unfold sidecarOf at h
    dsimp only at h
    split at h
    · cases h
    · exact .inl ⟨_, (Option.some.inj h).symm⟩
  | doc ref ops =>
    cases ref with
    | sticky c => exact .inr ⟨c, (Option.some.inj h).symm⟩
    | session | rewindable => cases h
  | _ => cases h

theorem mem_sidecars : name ∈ sidecars writes ↔ ∃ w ∈ writes, sidecarOf w = some name := by
  unfold sidecars
  have hmem : name ∈ (writes.filterMap sidecarOf).reverse.dedup.reverse ↔ ∃ w ∈ writes, sidecarOf w = some name := by
    rw [mem_reverse, mem_dedup, mem_reverse, mem_filterMap]
  rw [mem_append, mem_filter, mem_filter, hmem, ← and_or_left]
  refine and_iff_left_of_imp ?_
  rintro ⟨w, -, hw⟩
  rcases sidecarOf_name hw with ⟨id, rfl⟩ | ⟨c, rfl⟩
  · exact .inl rfl
  · exact .inr rfl

theorem sidecars_nodup (writes : List Write) : (sidecars writes).Nodup := by
  unfold sidecars
  have hnodup : (writes.filterMap sidecarOf).reverse.dedup.reverse.Nodup := nodup_reverse.mpr (nodup_dedup _)
  refine nodup_append.mpr ⟨hnodup.filter _, hnodup.filter _, ?_⟩
  rintro a ha _ hb rfl
  have ha := (mem_filter.mp ha).2
  have hb := (mem_filter.mp hb).2
  cases a <;> simp at ha hb

theorem writesOf_eq_nil (h : name ∉ sidecars writes) : writesOf name writes = [] :=
  filter_eq_nil_iff.mpr fun w hw hside => h (mem_sidecars.mpr ⟨w, hw, of_decide_eq_true hside⟩)

variable {log : List Published} {r : Record} {n : Nat}

/-- A record of a log is that of one of its batches. -/
theorem mem_recordsFrom (h : r ∈ recordsFrom n name log) :
    ∃ i p, log[i]? = some p ∧ name ∈ sidecars p.writes ∧ r = sidecarRecord (n + i + 1) p.maxId p.writes name := by
  induction log generalizing n with
  | nil => cases h
  | cons p log ih =>
    rcases mem_append.mp h with h | h
    · split at h
      · rename_i hname
        exact ⟨0, p, rfl, hname, mem_singleton.mp h⟩
      · cases h
    · obtain ⟨i, q, hq, hname, rfl⟩ := ih h
      refine ⟨i + 1, q, hq, hname, ?_⟩
      rw [Nat.add_right_comm n 1 i, Nat.add_assoc n i 1]

theorem recordsFrom_bounds (h : r ∈ recordsFrom n name log) : n < r.seq ∧ r.seq ≤ n + log.length := by
  obtain ⟨i, p, hp, -, rfl⟩ := mem_recordsFrom h
  obtain ⟨hi, -⟩ := List.getElem?_eq_some_iff.mp hp
  change n < n + i + 1 ∧ n + i + 1 ≤ _
  omega

theorem mainFrom_bounds (h : r ∈ mainFrom n log) : n < r.seq ∧ r.seq ≤ n + log.length := by
  induction log generalizing n with
  | nil => cases h
  | cons p log ih =>
    rw [length_cons]
    rcases mem_cons.mp h with rfl | h
    · change n < n + 1 ∧ n + 1 ≤ _
      omega
    · have := ih h
      omega

def Increasing (records : List Record) : Prop := records.Pairwise fun a b => a.seq < b.seq

theorem recordsFrom_increasing (n : Nat) (name : FileName) (log : List Published) : Increasing (recordsFrom n name log) := by
  induction log generalizing n with
  | nil => exact .nil
  | cons p log ih =>
    refine pairwise_append.mpr ⟨?_, ih (n + 1), fun a ha b hb => ?_⟩
    · split
      · exact pairwise_singleton _ _
      · exact .nil
    · split at ha
      · rw [mem_singleton.mp ha]
        exact (recordsFrom_bounds hb).1
      · cases ha

theorem mainFrom_increasing (n : Nat) (log : List Published) : Increasing (mainFrom n log) := by
  induction log generalizing n with
  | nil => exact .nil
  | cons p log ih => exact .cons (fun b hb => (mainFrom_bounds hb).1) (ih (n + 1))

/-- Lines with increasing numbers are read. -/
theorem readLines_ok (name : FileName) {records : List Record} (h : Increasing records) {last : Nat} (hlast : ∀ r ∈ records, last < r.seq) :
    readLines name last (records.map some) = .ok records := by
  induction h generalizing last with
  | nil => rfl
  | @cons r records hrel _ ih =>
    rw [map_cons, readLines, if_neg (Nat.not_le.mpr (hlast r (.head _))), ih hrel]
    rfl

/-! ## Confirmed records -/

theorem confirmed_of_mem (h : r ∈ recordsFrom n name log) : confirmed (mainFrom n log) name r = true := by
  induction log generalizing n with
  | nil => cases h
  | cons p log ih =>
    unfold confirmed
    rw [mainFrom, find?_cons]
    rcases mem_append.mp h with h | h
    · split at h
      · rename_i hname
        rw [List.mem_singleton.mp h]
        change (Option.any _ (match decide (n + 1 = n + 1) with | true => _ | false => _)) = true
        rw [decide_eq_true rfl]
        exact contains_iff_mem.mpr hname
      · cases h
    · have hne : ¬(mainRecord (n + 1) p.maxId p.writes).seq = r.seq := by
        have hlt := (recordsFrom_bounds h).1
        change ¬n + 1 = r.seq
        omega
      rw [decide_eq_false hne]
      exact ih h

theorem confirmed_late (h : n + log.length < r.seq) : confirmed (mainFrom n log) name r = false := by
  have hnone : (mainFrom n log).find? (fun r' => r'.seq = r.seq) = none := by
    refine find?_eq_none.mpr fun r' hr' => ?_
    have hbound := (mainFrom_bounds hr').2
    simp only [decide_eq_true_eq]
    omega
  unfold confirmed
  rw [hnone]
  rfl

theorem confirmed_temporary {c : Nat} : confirmed (mainFrom n log) (.temporary c) r = false := by
  unfold confirmed
  cases hfind : (mainFrom n log).find? fun r' => r'.seq = r.seq with
  | none => rfl
  | some r' =>
    have hmem := mem_of_find?_eq_some hfind
    have hrefs : .temporary c ∉ r'.refs := by
      clear hfind
      induction log generalizing n with
      | nil => cases hmem
      | cons p log ih =>
        rcases mem_cons.mp hmem with rfl | hmem
        · intro hname
          obtain ⟨w, -, hw⟩ := mem_sidecars.mp hname
          rcases sidecarOf_name hw with ⟨_, heq⟩ | ⟨_, heq⟩
          · cases heq
          · cases heq
        · exact ih hmem
    simpa using hrefs

/-! ## Replaying -/

/-- Batches whose tasks are in order, and the tables that they lead to. -/
inductive LogOk : List Published → MemoryStorage → Prop
  | nil : LogOk [] .empty
  | concat {log : List Published} {m m' : MemoryStorage} {p : Published} (h : LogOk log m) (hcommit : m.commit p.writes = .ok m')
      (htransacted : Transacted m p.writes) (hseparate : Separate p.writes) (hcarries : CarriesMark m p.writes) :
      LogOk (log ++ [p]) m'

/-- The batches of a sticky document that are kept. -/
def batchesFrom (keeps : Nat → Bool) (c n : Nat) : List Published → List (List Op)
  | [] => []
  | p :: log => (if keeps (n + 1) then p.writes.filterMap (Write.stickyOps c) else []) ++ batchesFrom keeps c (n + 1) log

theorem batchesFrom_append (keeps : Nat → Bool) (c n : Nat) (log log' : List Published) :
    batchesFrom keeps c n (log ++ log') = batchesFrom keeps c n log ++ batchesFrom keeps c (n + log.length) log' := by
  induction log generalizing n with
  | nil => rfl
  | cons p log ih =>
    rw [cons_append, batchesFrom, batchesFrom, ih, append_assoc, length_cons, Nat.add_right_comm, Nat.add_assoc]

theorem LogOk.seq (h : LogOk log m) : m.seq = log.length := by
  induction h with
  | nil => rfl
  | concat _ hcommit _ _ _ ih => rw [(commit_slots hcommit).2.2, ih, length_append, length_singleton]

theorem LogOk.sticky (h : LogOk log m) (c : Nat) :
    m.stickyLog c = pushAll none (batchesFrom (fun _ => true) c 0 log) := by
  induction h with
  | nil => rfl
  | concat _ hcommit _ _ _ ih =>
    rw [(commit_slots hcommit).2.1, ih, batchesFrom_append, pushAll_append]
    simp [batchesFrom]

/-- What has been cut off: of a sticky document all before a record, of a task the file. -/
structure Retention where
  start : Nat → Nat
  gone : Nat → Bool

def Retention.keeps (ret : Retention) (name : FileName) (seq : Nat) : Bool :=
  match name with
  | .sticky c => ret.start c ≤ seq
  | .task id => !ret.gone id
  | _ => true

/-- A batch as it is read back. -/
def replayedWrites (ret : Retention) (order : List FileName) (seq : Nat) (writes : List Write) : List Write :=
  mainWrites writes ++ order.flatMap fun name => if ret.keeps name seq then writesOf name writes else []

theorem flatMap_single {α β : Type} [DecidableEq α] {l : List α} (hnodup : l.Nodup) {f : α → List β} {a : α}
    (h : ∀ x, x ≠ a → f x = []) : l.flatMap f = if a ∈ l then f a else [] := by
  induction hnodup with
  | nil => rfl
  | @cons x l hx _ ih =>
    rw [flatMap_cons, ih]
    by_cases heq : x = a
    · subst heq
      have hnot : x ∉ l := fun hmem => hx x hmem rfl
      rw [if_neg hnot, if_pos (.head _), append_nil]
    · rw [h x heq, nil_append]
      simp [Ne.symm heq]

variable {ret : Retention} {order : List FileName}

/-- The writes that are read back from other files. -/
theorem mem_replayed (h : w ∈ replayedWrites ret order n writes) : w ∈ writes := by
  rcases mem_append.mp h with h | h
  · exact (mem_filter.mp h).1
  · obtain ⟨name, -, hw⟩ := mem_flatMap.mp h
    split at hw
    · exact (mem_writesOf.mp hw).1
    · cases hw

theorem replayed_main (n : Nat) (p : Write → Bool) (hp : ∀ w, p w → (sidecarOf w).isNone) :
    (replayedWrites ret order n writes).filter p = writes.filter p := by
  have hside : ∀ name, (writesOf name writes).filter p = [] := fun name =>
    List.filter_eq_nil_iff.mpr fun w hw hpw => by
      have hnone := hp w hpw
      rw [(mem_writesOf.mp hw).2] at hnone
      cases hnone
  unfold replayedWrites
  rw [List.filter_append, List.filter_flatMap]
  have hrest : (order.flatMap fun name => (if ret.keeps name n then writesOf name writes else []).filter p) = [] := by
    refine List.flatMap_eq_nil_iff.mpr fun name _ => ?_
    split
    · exact hside name
    · rfl
  rw [hrest, List.append_nil]
  unfold mainWrites
  rw [List.filter_filter]
  refine List.filter_congr fun w _ => ?_
  cases hpw : p w with
  | false => rfl
  | true => rw [hp w hpw]; rfl

theorem replayed_task (hnodup : order.Nodup) (n id : Nat) :
    (replayedWrites ret order n writes).filter (Write.isTask id) = (mainWrites writes).filter (Write.isTask id) ++
        if .task id ∈ order ∧ ret.keeps (.task id) n then writesOf (.task id) writes else [] := by
  unfold replayedWrites
  rw [filter_append, filter_flatMap]
  congr 1
  rw [flatMap_single hnodup (a := .task id)]
  · by_cases hmem : .task id ∈ order
    · by_cases hkeeps : ret.keeps (.task id) n
      · rw [if_pos hmem, if_pos hkeeps, if_pos ⟨hmem, hkeeps⟩]
        exact filter_eq_self.mpr fun w hw => (sidecarOf_task.mp (mem_writesOf.mp hw).2).1
      · rw [if_pos hmem, if_neg hkeeps, if_neg (fun h => hkeeps h.2)]
        rfl
    · rw [if_neg hmem, if_neg (fun h => hmem h.1)]
  · intro name hne
    split
    · refine filter_eq_nil_iff.mpr fun w hw htask => hne ?_
      have hside := (mem_writesOf.mp hw).2
      have htask' := sidecarOf_task.mpr ⟨htask, by rw [hside]; rfl⟩
      exact Option.some.inj (hside.symm.trans htask')
    · rfl

theorem stickyOps_isSome {c : Nat} : (w.stickyOps c).isSome ↔ sidecarOf w = some (.sticky c) := by
  cases w with
  | taskPatch p =>
    unfold sidecarOf Write.stickyOps
    dsimp only
    split <;> simp
  | doc ref ops =>
    cases ref with
    | sticky c' =>
      unfold sidecarOf Write.stickyOps
      dsimp only
      split <;> simp [*]
    | session | rewindable => simp [sidecarOf, Write.stickyOps]
  | _ => simp [sidecarOf, Write.stickyOps]

theorem replayed_sticky (hnodup : order.Nodup) (n c : Nat) :
    (replayedWrites ret order n writes).filterMap (Write.stickyOps c) =
      if .sticky c ∈ order ∧ ret.keeps (.sticky c) n then writes.filterMap (Write.stickyOps c) else [] := by
  have hother : ∀ name (ws : List Write), name ≠ .sticky c → (∀ w ∈ ws, sidecarOf w = some name) → ws.filterMap (Write.stickyOps c) = [] := by
    intro name ws hne hws
    refine filterMap_eq_nil_iff.mpr fun w hw => ?_
    rw [← not_isSome_iff_eq_none, stickyOps_isSome, hws w hw]
    simpa using hne
  have hmain : (mainWrites writes).filterMap (Write.stickyOps c) = [] := by
    refine filterMap_eq_nil_iff.mpr fun w hw => ?_
    have hnone := (mem_filter.mp hw).2
    rw [← not_isSome_iff_eq_none, stickyOps_isSome]
    intro hside
    rw [hside] at hnone
    cases hnone
  have hself : (writesOf (.sticky c) writes).filterMap (Write.stickyOps c) = writes.filterMap (Write.stickyOps c) := by
    unfold writesOf
    rw [filterMap_filter]
    refine filterMap_congr fun w _ => ?_
    split
    · rfl
    · rename_i hside
      rw [decide_eq_true_iff, ← stickyOps_isSome, not_isSome_iff_eq_none] at hside
      exact hside.symm
  unfold replayedWrites
  rw [filterMap_append, hmain, nil_append, filterMap_flatMap, flatMap_single hnodup (a := .sticky c)]
  · by_cases hmem : .sticky c ∈ order
    · by_cases hkeeps : ret.keeps (.sticky c) n
      · rw [if_pos hmem, if_pos hkeeps, if_pos ⟨hmem, hkeeps⟩, hself]
      · rw [if_pos hmem, if_neg hkeeps, if_neg (fun h => hkeeps h.2)]
        rfl
    · rw [if_neg hmem, if_neg (fun h => hmem h.1)]
  · intro name hne
    split
    · exact hother name _ hne fun w hw => (mem_writesOf.mp hw).2
    · rfl

/-- How the tables that are read back compare with those that the batches lead to. -/
structure Replayed (ret : Retention) (log : List Published) (m' m : MemoryStorage) : Prop where
  base : m.base = m'.base
  seq : m.seq = m'.seq
  rows : ∀ id, RowRel (ret.gone id) (m'.tasksById id) (m.tasksById id)
  sticky : ∀ c, m'.stickyLog c = pushAll none (batchesFrom (fun n => ret.keeps (.sticky c) n) c 0 log)

theorem RowRel.isSome {gone : Bool} {row' row : Option Task} (h : RowRel gone row' row) : row.isSome = row'.isSome := by
  rcases h with rfl | ⟨-, a, b, rfl, rfl, -⟩
  · rfl
  · rfl

/-- Files that records were kept in are there. -/
def Listed (ret : Retention) (order : List FileName) (seq : Nat) (writes : List Write) : Prop :=
  ∀ name ∈ sidecars writes, ret.keeps name seq → name ∈ order

theorem Replayed.commit {p : Published} {m₁ : MemoryStorage} (h : Replayed ret log m' m) (hnodup : order.Nodup)
    (hlist : Listed ret order (log.length + 1) p.writes) (hcommit : m.commit p.writes = .ok m₁)
    (htransacted : Transacted m p.writes) (hseparate : Separate p.writes) (hcarries : CarriesMark m p.writes) :
    ∃ m₁', m'.commit (replayedWrites ret order (log.length + 1) p.writes) = .ok m₁' ∧ Replayed ret (log ++ [p]) m₁' m₁ := by
  have hkeys : SameKeys m m' := ⟨h.base, fun id => (h.rows id).isSome⟩
  have hknown : ∀ q, .taskPatch q ∈ replayedWrites ret order (log.length + 1) p.writes →
      Known m' (replayedWrites ret order (log.length + 1) p.writes) q.id := by
    intro q hq
    unfold Known
    rcases htransacted.live q (mem_replayed hq) with ⟨r, hr, -⟩ | ⟨-, t, ht, hid⟩
    · rw [← hkeys.rows, hr]
      rfl
    · refine Bool.or_eq_true_iff.mpr (.inr ?_)
      have hmem : .task t ∈ replayedWrites ret order (log.length + 1) p.writes :=
        mem_append_left _ (mem_filter.mpr ⟨ht, rfl⟩)
      exact any_eq_true.mpr ⟨_, hmem, decide_eq_true hid⟩
  obtain ⟨m₁', hcommit', hbase⟩ := commit_of hcommit hkeys h.seq (replayed_main (log.length + 1)) hknown
  obtain ⟨htasks, hstick, hseq⟩ := commit_slots hcommit
  obtain ⟨htasks', hstick', hseq'⟩ := commit_slots hcommit'
  refine ⟨m₁', hcommit', hbase, by rw [hseq, hseq', h.seq], fun id => ?_, fun c => ?_⟩
  · rw [htasks, htasks', taskWrite_row, taskWrite_row, replayed_task hnodup]
    by_cases hgone : ret.gone id
    · have hkeeps : ¬(.task id ∈ order ∧ ret.keeps (.task id) (log.length + 1)) := fun h => by
        have := h.2
        simp [Retention.keeps, hgone] at this
      rw [if_neg hkeeps]
      exact (h.rows id).step false htransacted hseparate hcarries (.inl (by rw [hgone]; rfl))
    · by_cases hside : .task id ∈ sidecars p.writes
      · have hkeeps : ret.keeps (.task id) (log.length + 1) = true := by simpa [Retention.keeps] using hgone
        rw [if_pos ⟨hlist _ hside hkeeps, hkeeps⟩]
        exact (h.rows id).step true htransacted hseparate hcarries (.inl (by simpa using hgone))
      · have hnil := writesOf_eq_nil hside
        have hstep := (h.rows id).step true htransacted hseparate hcarries (.inr hnil)
        rw [hnil, ite_self] at hstep ⊢
        exact hstep
  · rw [hstick', h.sticky, batchesFrom_append, pushAll_append, replayed_sticky hnodup]
    congr 1
    rw [batchesFrom, batchesFrom, append_nil, Nat.zero_add]
    by_cases hkeeps : ret.keeps (.sticky c) (log.length + 1)
    · rw [if_pos hkeeps]
      by_cases hmem : .sticky c ∈ order
      · rw [if_pos ⟨hmem, hkeeps⟩]
      · rw [if_neg fun h => hmem h.1]
        refine (filterMap_eq_nil_iff.mpr fun w hw => ?_).symm
        rw [← not_isSome_iff_eq_none, stickyOps_isSome]
        exact fun hside => hmem (hlist _ (mem_sidecars.mpr ⟨w, hw, hside⟩) hkeeps)
    · rw [if_neg hkeeps, if_neg fun h => hkeeps h.2]

/-- A log is replayed from files that give each batch as it is read back. -/
theorem LogOk.replay {files : List Sidecar} (h : LogOk log m) (hnodup : order.Nodup)
    (hbatch : ∀ i p, log[i]? = some p →
      batchOf files (mainRecord (i + 1) p.maxId p.writes) = replayedWrites ret order (i + 1) p.writes ∧ Listed ret order (i + 1) p.writes) :
    ∃ m', (mainFrom 0 log).foldlM (replayRecord files) .empty = .ok m' ∧ Replayed ret log m' m := by
  induction h with
  | nil => exact ⟨.empty, rfl, rfl, rfl, fun _ => .inl rfl, fun _ => rfl⟩
  | @concat log m m₁ p h hcommit htransacted hseparate hcarries ih =>
    obtain ⟨m', hrepl, hreplayed⟩ := ih fun i q hq => hbatch i q (by
      rw [List.getElem?_append_left (List.getElem?_eq_some_iff.mp hq).1]
      exact hq)
    obtain ⟨hwrs, hlist⟩ := hbatch log.length p (by simp)
    obtain ⟨m₁', hcommit', hrepl'⟩ := hreplayed.commit hnodup hlist hcommit htransacted hseparate hcarries
    refine ⟨m₁', ?_, hrepl'⟩
    rw [mainFrom_append, List.foldlM_append, hrepl, Nat.zero_add]
    change (replayRecord files m' (mainRecord (log.length + 1) p.maxId p.writes) >>= _) = _
    have hseq : { m' with seq := (mainRecord (log.length + 1) p.maxId p.writes).seq - 1 } = m' := by
      have : m'.seq = log.length := hreplayed.seq.symm.trans h.seq
      change { m' with seq := log.length } = m'
      rw [← this]
    unfold replayRecord
    rw [hwrs, hseq, hcommit']
    rfl

/-! ## Tasks that have ended -/

theorem mem_retired {id : Nat} : id ∈ retired writes ↔ ∃ p, .taskPatch p ∈ writes ∧ p.id = id ∧ p.status = some .terminal := by
  unfold retired
  rw [mem_filterMap]
  constructor
  · rintro ⟨w, hw, hid⟩
    cases w with
    | taskPatch p =>
      dsimp only at hid
      split at hid
      · rename_i hterm
        exact ⟨p, hw, Option.some.inj hid, hterm⟩
      · cases hid
    | _ => cases hid
  · rintro ⟨p, hp, hid, hterm⟩
    refine ⟨_, hp, ?_⟩
    dsimp only
    rw [if_pos hterm, hid]

theorem retired_main (writes : List Write) (id : Nat) : id ∈ retired (mainWrites writes) ↔ id ∈ retired writes := by
  rw [mem_retired, mem_retired]
  constructor
  · rintro ⟨p, hp, h⟩
    exact ⟨p, (mem_filter.mp hp).1, h⟩
  · rintro ⟨p, hp, hid, hterm⟩
    refine ⟨p, mem_filter.mpr ⟨hp, ?_⟩, hid, hterm⟩
    unfold sidecarOf
    dsimp only
    rw [if_pos hterm]
    rfl

theorem retiredAt_concat (main : List Record) (r : Record) (id : Nat) :
    retiredAt (main ++ [r]) id = if id ∈ retired r.writes then some r.seq else retiredAt main id := by
  unfold retiredAt
  rw [filter_append]
  split
  · rename_i hmem
    have hone : [r].filter (fun r => (retired r.writes).contains id) = [r] := by simpa using hmem
    rw [hone, getLast?_concat]
    rfl
  · rename_i hmem
    have hnone : [r].filter (fun r => (retired r.writes).contains id) = [] := by simpa using hmem
    rw [hnone, append_nil]

/-- Without a terminal patch a task does not end. -/
theorem row_live {ws : List Write} (hws : ∀ w ∈ ws, (∀ t, w = .task t → t.status ≠ .terminal) ∧ ∀ p, w = .taskPatch p → p.status ≠ some .terminal)
    {row : Option Task} (hrow : ∀ r, row = some r → r.status ≠ .terminal) : ∀ r, ws.foldl rowWrite row = some r → r.status ≠ .terminal := by
  induction ws generalizing row with
  | nil => exact hrow
  | cons w ws ih =>
    refine ih (fun w hw => hws w (.tail _ hw)) fun r hr => ?_
    obtain ⟨htask, hpatch⟩ := hws w (.head _)
    cases w with
    | task t =>
      obtain rfl := Option.some.inj hr
      exact htask t rfl
    | taskPatch p =>
      obtain ⟨t, ht, rfl⟩ := map_eq_some_iff.mp hr
      change p.status.getD t.status ≠ .terminal
      cases hp : p.status with
      | none => exact hrow t ht
      | some status => exact fun heq => hpatch p rfl (hp.trans (congrArg some heq))
    | _ => exact hrow r hr

theorem row_isSome {ws : List Write} {row : Option Task} (h : row.isSome) : (ws.foldl rowWrite row).isSome := by
  induction ws generalizing row with
  | nil => exact h
  | cons w ws ih =>
    refine ih ?_
    cases w with
    | taskPatch p => simpa [rowWrite] using h
    | task t => rfl
    | _ => exact h

/-- A task that has ended has its terminal record after all that its own file has had. -/
theorem LogOk.retiredAt (h : LogOk log m) {id : Nat} {r : Task} (hrow : m.tasksById id = some r)
    (hterm : r.status = .terminal) :
    ∃ n, Pico.retiredAt (mainFrom 0 log) id = some n ∧ ∀ i p, log[i]? = some p → .task id ∈ sidecars p.writes → i + 1 < n := by
  induction h generalizing r with
  | nil => cases hrow
  | @concat log m m₁ p h hcommit htransacted hseparate hcarries ih =>
    rw [mainFrom_append, mainFrom, mainFrom, retiredAt_concat]
    have hgone : id ∈ retired (mainRecord (0 + log.length + 1) p.maxId p.writes).writes ↔ id ∈ retired p.writes := retired_main p.writes id
    by_cases hmem : id ∈ retired p.writes
    · rw [if_pos (hgone.mpr hmem)]
      refine ⟨_, rfl, fun i q hq hside => ?_⟩
      change i + 1 < 0 + log.length + 1
      obtain ⟨w, hw, hwside⟩ := mem_sidecars.mp hside
      obtain ⟨q', rfl, hqid, hlive⟩ := sidecarOf_patch hwside
      obtain ⟨p', hp', hpid, hpterminal⟩ := mem_retired.mp hmem
      have hi : i ≠ log.length := by
        rintro rfl
        obtain rfl : p = q := by simpa using hq
        exact hlive (hseparate p' q' hp' hw (hpid.trans hqid.symm) hpterminal)
      have hlen := (List.getElem?_eq_some_iff.mp hq).1
      rw [List.length_append, List.length_singleton] at hlen
      omega
    · rw [if_neg (fun h => hmem (hgone.mp h))]
      have hbef : ∃ r₀, m.tasksById id = some r₀ ∧ r₀.status = .terminal := by
        by_contra hnot
        rw [(commit_slots hcommit).1, taskWrite_row] at hrow
        refine row_live (fun w hw => ⟨?_, ?_⟩) (fun r₀ hr₀ hstat => hnot ⟨r₀, hr₀, hstat⟩) r hrow hterm
        · rintro t rfl
          exact (htransacted.created t (List.mem_filter.mp hw).1).2
        · rintro q rfl hstat
          exact hmem (mem_retired.mpr ⟨q, (List.mem_filter.mp hw).1, of_decide_eq_true (List.mem_filter.mp hw).2, hstat⟩)
      obtain ⟨r₀, hr₀, hstat⟩ := hbef
      obtain ⟨n, hn, hbelow⟩ := ih hr₀ hstat
      refine ⟨n, hn, fun i q hq hside => ?_⟩
      by_cases hi : i < log.length
      · rw [List.getElem?_append_left hi] at hq
        exact hbelow i q hq hside
      · -- the batch has no patch of a task that has ended
        have hlen := (List.getElem?_eq_some_iff.mp hq).1
        rw [List.length_append, List.length_singleton] at hlen
        obtain rfl : i = log.length := by omega
        obtain rfl : p = q := by simpa using hq
        obtain ⟨w, hw, hwside⟩ := mem_sidecars.mp hside
        obtain ⟨q', rfl, hqid, -⟩ := sidecarOf_patch hwside
        rcases htransacted.live q' hw with ⟨r', hr', hlive⟩ | ⟨hnone, -⟩
        · rw [hqid, hr₀] at hr'
          exact absurd (Option.some.inj hr' ▸ hstat) hlive
        · rw [hqid, hr₀] at hnone
          cases hnone

/-- A task of which there are records has a row. -/
theorem LogOk.row (h : LogOk log m) {i : Nat} {p : Published} (hp : log[i]? = some p) {id : Nat}
    (hside : .task id ∈ sidecars p.writes) : (m.tasksById id).isSome := by
  induction h with
  | nil => cases hp
  | @concat log m m₁ q h hcommit htransacted hseparate hcarries ih =>
    rw [(commit_slots hcommit).1, taskWrite_row]
    by_cases hi : i < log.length
    · rw [List.getElem?_append_left hi] at hp
      exact row_isSome (ih hp)
    · have hlen := (List.getElem?_eq_some_iff.mp hp).1
      rw [List.length_append, List.length_singleton] at hlen
      obtain rfl : i = log.length := by omega
      obtain rfl : q = p := by simpa using hp
      obtain ⟨w, hw, hwside⟩ := mem_sidecars.mp hside
      obtain ⟨q', rfl, hqid, -⟩ := sidecarOf_patch hwside
      rcases htransacted.live q' hw with ⟨r, hr, -⟩ | ⟨-, t, ht, htid⟩
      · exact row_isSome (by rw [← hqid, hr]; rfl)
      · -- it is created in the batch
        obtain ⟨l₁, l₂, hsplit⟩ := List.append_of_mem (List.mem_filter.mpr ⟨ht, decide_eq_true (htid.trans hqid)⟩ :
          Write.task t ∈ q.writes.filter (Write.isTask id))
        rw [hsplit, List.foldl_append, List.foldl_cons]
        exact row_isSome rfl

/-! ## Sticky documents -/

/-- The last of those that satisfy `p`, and what follows. -/
theorem exists_last {α : Type} {p : α → Bool} {l : List α} (h : l.any p) : ∃ a b c, l = a ++ b :: c ∧ p b ∧ ∀ x ∈ c, ¬p x := by
  induction l with
  | nil => cases h
  | cons x l ih =>
    by_cases hl : l.any p
    · obtain ⟨a, b, c, rfl, hb, hc⟩ := ih hl
      exact ⟨x :: a, b, c, rfl, hb, hc⟩
    · refine ⟨[], x, l, rfl, ?_, ?_⟩
      · rw [any_cons, Bool.or_eq_true] at h
        exact h.resolve_right hl
      · simpa using hl

theorem getLast?_zipIdx {α : Type} {p : α → Bool} {a c : List α} {b : α} (hb : p b) (hc : ∀ x ∈ c, ¬p x) :
    ((a ++ b :: c).zipIdx.filter fun q => p q.1).getLast? = some (b, a.length) := by
  have hnone : (c.zipIdx (0 + a.length + 1)).filter (fun q => p q.1) = [] := by
    refine filter_eq_nil_iff.mpr fun q hq => ?_
    obtain ⟨x, i⟩ := q
    obtain ⟨-, -, hget⟩ := mem_zipIdx hq
    exact hc x (hget ▸ getElem_mem _)
  have hone : ((b, 0 + a.length) :: c.zipIdx (0 + a.length + 1)).filter (fun q => p q.1) = [(b, 0 + a.length)] := by
    rw [filter_cons, hnone]
    exact if_pos hb
  rw [zipIdx_append, zipIdx_cons, filter_append, hone, Nat.zero_add, getLast?_concat]

theorem sinceBase_last {a c : List (List Op)} {b : List Op} (hb : isBase b) (hc : ∀ x ∈ c, ¬isBase x) :
    sinceBase (a ++ b :: c) = b :: c := by
  unfold sinceBase
  rw [getLast?_zipIdx hb hc]
  exact drop_left

/-- What comes before a replacement does not count. -/
theorem sinceBase_append {a b : List (List Op)} (h : b.any isBase) : sinceBase (a ++ b) = sinceBase b := by
  obtain ⟨l, x, r, rfl, hx, hr⟩ := exists_last h
  rw [← append_assoc, sinceBase_last hx hr, sinceBase_last hx hr]

theorem isBase_flatten {batches : List (List Op)} (h : isBase batches.flatten) : batches.any isBase := by
  induction batches with
  | nil => cases h
  | cons ops batches ih =>
    cases ops with
    | nil => exact Bool.or_eq_true_iff.mpr (.inr (ih h))
    | cons op ops => exact Bool.or_eq_true_iff.mpr (.inl h)

/-- The operations of the record of a sticky document. -/
theorem docOps_sticky (c : Nat) (writes : List Write) :
    (writesOf (.sticky c) writes).flatMap docOps = (writes.filterMap (Write.stickyOps c)).flatten := by
  induction writes with
  | nil => rfl
  | cons w writes ih =>
    unfold writesOf at ih ⊢
    rw [filter_cons, filterMap_cons]
    by_cases hside : sidecarOf w = some (.sticky c)
    · rw [decide_eq_true hside, if_pos rfl, flatMap_cons, ih]
      obtain ⟨ops, hops⟩ := isSome_iff_exists.mp (stickyOps_isSome.mpr hside)
      rw [hops]
      have hdoc : docOps w = ops := by
        cases w with
        | doc ref ops' =>
          cases ref with
          | sticky c' =>
            unfold Write.stickyOps at hops
            dsimp only at hops
            split at hops
            · exact Option.some.inj hops
            · cases hops
          | session | rewindable => cases hops
        | _ => cases hops
      rw [hdoc]
      rfl
    · rw [decide_eq_false hside, if_neg (by decide), ih]
      have hnone := not_isSome_iff_eq_none.mp fun h => hside (stickyOps_isSome.mp h)
      rw [hnone]

/-- Cutting off what comes before a replacement leaves the document as it is. -/
theorem batchesFrom_since {c start : Nat} (hr : r ∈ recordsFrom 0 (.sticky c) log) (hseq : r.seq = start)
    (hbase : r.isBase) :
    (pushAll none (batchesFrom (fun n => start ≤ n) c 0 log)).map sinceBase =
      (pushAll none (batchesFrom (fun _ => true) c 0 log)).map sinceBase := by
  obtain ⟨i, p, hp, -, rfl⟩ := mem_recordsFrom hr
  obtain ⟨hi, rfl⟩ := List.getElem?_eq_some_iff.mp hp
  have hsplit : log = log.take i ++ log.drop i := (List.take_append_drop i log).symm
  have hbef : ∀ (log : List Published) (n : Nat), n + log.length < start → batchesFrom (fun n => start ≤ n) c n log = [] := by
    intro log
    induction log with
    | nil => exact fun _ _ => rfl
    | cons q log ih =>
      intro n hn
      rw [List.length_cons] at hn
      rw [batchesFrom, ih (n + 1) (by omega), decide_eq_false (by omega)]
      rfl
  have hafter : ∀ (log : List Published) (n : Nat), start ≤ n + 1 →
      batchesFrom (fun n => start ≤ n) c n log = batchesFrom (fun _ => true) c n log := by
    intro log
    induction log with
    | nil => exact fun _ _ => rfl
    | cons q log ih =>
      intro n hn
      rw [batchesFrom, batchesFrom, ih (n + 1) (by omega), decide_eq_true (by omega)]
  have hstart : start = i + 1 := by
    rw [← hseq]
    exact congrArg (· + 1) (Nat.zero_add i)
  have hlen : (log.take i).length = i := List.length_take_of_le (Nat.le_of_lt hi)
  have hbatches : (batchesFrom (fun _ => true) c i (log.drop i)).any isBase := by
    rw [List.drop_eq_getElem_cons hi, batchesFrom, List.any_append, Bool.or_eq_true]
    refine .inl (isBase_flatten ?_)
    rw [if_pos rfl, ← docOps_sticky]
    exact hbase
  rw [hsplit, batchesFrom_append, batchesFrom_append, hlen, Nat.zero_add, hbef _ 0 (by omega), hafter _ i (by omega), List.nil_append]
  have hpush : ∀ batches : List (List Op), batches.any isBase → pushAll none batches = some batches := by
    intro batches h
    cases batches with
    | nil => cases h
    | cons ops batches => rfl
  rw [hpush _ hbatches, hpush _ (by rw [List.any_append, hbatches, Bool.or_true]), Option.map_some, Option.map_some, sinceBase_append hbatches]

end Shuvpi.Pico
