import Shuvpi.DurableMemory

/-!
# The tables of durable sessions

Each table with its sorted id lists, over the writes that touch it, and what the check of
the ids of a batch says of every one of its writes.
-/
open List hiding cons nil
open Option hiding or_assoc some
open Function

namespace Shuvpi.Durable

open Function (update)
open SortedIds (insertSorted removeSorted Lists)

variable {P : Type}

namespace MemoryStorage

/-- The id is a key of the table. -/
def holds (s : MemoryStorage P) : TableName → Id → Bool
  | .conversation, id => (s.conversations id).isSome
  | .entry, id => (s.entries id).isSome
  | .task, id => (s.tasks id).isSome
  | .submission, id => (s.submissions id).isSome
  | .document, id => (s.documents id).isSome

/-- No id stands in two tables. -/
def Exclusive (s : MemoryStorage P) : Prop := ∀ id t t', s.holds t id = true → s.holds t' id = true → t = t'

/-- The next id is above every id in use. -/
def Below (s : MemoryStorage P) : Prop := ∀ id t, s.holds t id = true → id < s.nextId

structure ConversationTable (s : MemoryStorage P) : Prop where
  keyed : ∀ id value, s.conversations id = some value → value.id = id
  listed : Lists s.conversationIds fun id => (s.conversations id).isSome = true

structure EntryTable (s : MemoryStorage P) : Prop where
  keyed : ∀ id value, s.entries id = some value → value.id = id
  listed : ∀ c, Lists (s.entryIds c) fun id => ∃ e, s.entries id = some e ∧ e.conversationId = c
  heads : ∀ c, Lists (s.headEntryIds c) fun id =>
    ∃ e, s.entries id = some e ∧ e.conversationId = c ∧ e.head.isSome = true
  seqs : ∀ id, (s.entryCommitSeqs id).isSome = (s.entries id).isSome

structure TaskTable (s : MemoryStorage P) : Prop where
  keyed : ∀ id value, s.tasks id = some value → value.id = id
  listed : Lists s.taskIds fun id => (s.tasks id).isSome = true
  byStatus : ∀ status, Lists (s.taskIdsByStatus status) fun id =>
    ∃ t, s.tasks id = some t ∧ t.status = status

structure SubmissionTable (s : MemoryStorage P) : Prop where
  keyed : ∀ id value, s.submissions id = some value → value.id = id
  requests : ∀ request id, s.submissionIdsByRequest request = some id →
    ∃ v, s.submissions id = some v ∧ v.request? = some request

variable {s : MemoryStorage P}

theorem tableContaining_holds {id : Id} {t : TableName}
    (h : s.tableContaining id = some t) : s.holds t id = true := by
  unfold tableContaining at h
  repeat' split at h
  all_goals first | (obtain rfl := Option.some.inj h; assumption) | cases h

theorem holds_tableContaining (hs : s.Exclusive) {id : Id} {t : TableName}
    (h : s.holds t id = true) : s.tableContaining id = some t := by
  cases hc : s.tableContaining id with
  | some t' => rw [hs id t' t (tableContaining_holds hc) h]
  | none =>
    unfold tableContaining at hc
    repeat' split at hc
    all_goals first | (exact noConfusion hc) | (cases t <;> contradiction)

/-! ## The check of the ids -/

/-- The claims of a batch agree with the tables and with one another. -/
structure Claimable (s : MemoryStorage P) (writes : List (StorageWrite P)) : Prop where
  stored : ∀ w ∈ writes, ∀ id t, w.claim? = some (id, t) → ∀ t', s.holds t' id = true → t' = t ∧ t.immutable = false
  batch : writes.Pairwise fun a b => ∀ id t t', a.claim? = some (id, t) →
    b.claim? = some (id, t') → t = t' ∧ t'.immutable = false

end MemoryStorage

theorem checkClaim_ok {existing earlier : Option TableName} {id : Id} {table : TableName}
    (h : checkClaim existing earlier id table = .ok ()) :
    (∀ t, existing = some t → t = table ∧ table.immutable = false) ∧
      ∀ t, earlier = some t → t = table ∧ table.immutable = false := by
  unfold checkClaim at h
  cases hi : table.immutable with
  | true =>
    rw [hi] at h
    cases existing <;> cases earlier <;> cases h
    exact ⟨fun t ht => (by cases ht), fun t ht => (by cases ht)⟩
  | false =>
    rw [hi] at h
    cases existing with
    | none =>
      refine ⟨fun t ht => (by cases ht), fun t ht => ?_⟩
      subst ht
      by_cases hne : t = table
      · exact ⟨hne, rfl⟩
      · simp [hne] at h
    | some t =>
      have ht : t = table := by
        by_contra hne
        cases earlier <;> simp [hne] at h
      refine ⟨fun t' ht' => ⟨(Option.some.inj ht').symm.trans ht, rfl⟩, fun t' ht' => ?_⟩
      subst ht'
      by_cases hne : t' = table
      · exact ⟨hne, rfl⟩
      · simp [ht, hne] at h

/-- What the check lets through: every claim fits the tables and the claims before it. -/
theorem checkGlobalIds_ok {existing claimed : Id → Option TableName} {writes : List (StorageWrite P)}
    (h : checkGlobalIds existing claimed writes = .ok ()) :
    (∀ w ∈ writes, ∀ id t, w.claim? = some (id, t) →
      ∀ t', existing id = some t' ∨ claimed id = some t' → t' = t ∧ t.immutable = false) ∧
      writes.Pairwise fun a b => ∀ id t t', a.claim? = some (id, t) →
        b.claim? = some (id, t') → t = t' ∧ t'.immutable = false := by
  induction writes generalizing claimed with
  | nil => exact ⟨fun w hw => (by cases hw), .nil⟩
  | cons write writes ih =>
    unfold checkGlobalIds at h
    cases hc : write.claim? with
    | none =>
      rw [hc] at h
      obtain ⟨hstor, hbatch⟩ := ih h
      refine ⟨?_, pairwise_cons.mpr ⟨fun b _ id t t' ha => ?_, hbatch⟩⟩
      · intro w hw id t hwc
        rcases mem_cons.mp hw with rfl | hw
        · rw [hc] at hwc
          cases hwc
        · exact hstor w hw id t hwc
      · rw [hc] at ha
        cases ha
    | some claim =>
      obtain ⟨i, table⟩ := claim
      rw [hc] at h
      dsimp only at h
      cases hok : checkClaim (existing i) (claimed i) i table with
      | error e => rw [hok] at h; cases h
      | ok u =>
        rw [hok] at h
        obtain ⟨hex, hcl⟩ := checkClaim_ok hok
        obtain ⟨hstor, hbatch⟩ := ih h
        refine ⟨?_, pairwise_cons.mpr ⟨fun b hb id t t' ha hbc => ?_, hbatch⟩⟩
        · intro w hw id t hwc t' ht'
          rcases mem_cons.mp hw with rfl | hw
          · rw [hc] at hwc
            obtain ⟨rfl, rfl⟩ := Prod.mk.inj (Option.some.inj hwc)
            exact ht'.elim (hex t') (hcl t')
          · by_cases hi : id = i
            · subst hi
              obtain ⟨rfl, himm⟩ := hstor w hw id t hwc table (.inr (update_self ..))
              exact ⟨(ht'.elim (hex t') (hcl t')).1, himm⟩
            · refine hstor w hw id t hwc t' (ht'.imp_right fun h' => ?_)
              rw [update_of_ne hi, h']
        · rw [hc] at ha
          obtain ⟨rfl, rfl⟩ := Prod.mk.inj (Option.some.inj ha)
          exact hstor b hb i t' hbc table (.inr (update_self ..))

namespace MemoryStorage

theorem claimable {s : MemoryStorage P} (hs : s.Exclusive) {writes : List (StorageWrite P)}
    (h : checkGlobalIds s.tableContaining (fun _ => none) writes = .ok ()) : s.Claimable writes where
  stored w hw id t hc t' ht' := (checkGlobalIds_ok h).1 w hw id t hc t' (.inl (holds_tableContaining hs ht'))
  batch := (checkGlobalIds_ok h).2

/-! ## One write -/

variable (s : MemoryStorage P)

variable (value : TaskRecord P)

@[simp] theorem applyTask_frame :
    (s.applyTask value).conversations = s.conversations ∧ (s.applyTask value).conversationIds = s.conversationIds ∧
      (s.applyTask value).entries = s.entries ∧ (s.applyTask value).entryIds = s.entryIds ∧
      (s.applyTask value).headEntryIds = s.headEntryIds ∧
      (s.applyTask value).entryCommitSeqs = s.entryCommitSeqs ∧
      (s.applyTask value).submissions = s.submissions ∧
      (s.applyTask value).submissionIdsByRequest = s.submissionIdsByRequest ∧
      (s.applyTask value).documents = s.documents ∧
      (s.applyTask value).documentAddresses = s.documentAddresses ∧
      (s.applyTask value).documentIdsByScope = s.documentIdsByScope ∧
      (s.applyTask value).nextId = s.nextId ∧ (s.applyTask value).nextSeq = s.nextSeq := by
  unfold applyTask
  split
  · exact ⟨rfl, rfl, rfl, rfl, rfl, rfl, rfl, rfl, rfl, rfl, rfl, rfl, rfl⟩
  · split <;> exact ⟨rfl, rfl, rfl, rfl, rfl, rfl, rfl, rfl, rfl, rfl, rfl, rfl, rfl⟩

@[simp] theorem applyTask_tasks :
    (s.applyTask value).tasks = update s.tasks value.id (some value) := rfl

end MemoryStorage

/-- The table that a write fills at once; documents come after the others. -/
def StorageWrite.record? (w : StorageWrite P) : Option (Id × TableName) := w.claim?.filter (·.2 ≠ .document)

namespace MemoryStorage

theorem holds_applyWrite (s : MemoryStorage P) (seq : Seq) (w : StorageWrite P) (t : TableName)
    (id : Id) : (applyWrite seq s w).holds t id = true ↔
      s.holds t id = true ∨ w.record? = some (id, t) := by
  have hput : ∀ {α : Type} (table : Id → Option α) (key : Id) (value : α),
      (update table key (some value) id).isSome = true ↔ (table id).isSome = true ∨ key = id := by
    intro α table key value
    rw [update_apply]
    split
    · rename_i heq
      simp [heq]
    · rename_i hne
      simp [Ne.symm hne]
  cases w <;> cases t <;>
    simp [applyWrite, reserve, applyConversation, applyEntry, applySubmission, holds, hput,
      StorageWrite.record?, StorageWrite.claim?]

theorem nextId_applyWrite (s : MemoryStorage P) (seq : Seq) (w : StorageWrite P) :
    s.nextId ≤ (applyWrite seq s w).nextId ∧
      ∀ id t, w.record? = some (id, t) → id < (applyWrite seq s w).nextId := by
  cases w <;>
    simp [applyWrite, reserve, applyConversation, applyEntry, applySubmission,
      StorageWrite.record?, StorageWrite.claim?]

variable {w : StorageWrite P} {id : Id}

theorem record?_claim? {t : TableName} (h : w.record? = some (id, t)) :
    w.claim? = some (id, t) ∧ t ≠ .document := by
  obtain ⟨hc, ht⟩ := filter_eq_some_iff.mp h
  exact ⟨hc, of_decide_eq_true ht⟩

variable {s : MemoryStorage P} {writes : List (StorageWrite P)}

/-- The rest of a batch fits the storage that its first write leaves. -/
theorem Claimable.step (h : s.Claimable (w :: writes)) (seq : Seq) : (applyWrite seq s w).Claimable writes where
  stored b hb id t hc t' ht' := by
    rcases (holds_applyWrite s seq w t' id).mp ht' with ht' | hr
    · exact h.stored b (.tail _ hb) id t hc t' ht'
    · exact (pairwise_cons.mp h.batch).1 b hb id t' t (record?_claim? hr).1 hc
  batch := (pairwise_cons.mp h.batch).2

theorem Exclusive.step (hs : s.Exclusive) (h : s.Claimable (w :: writes)) (seq : Seq) :
    (applyWrite seq s w).Exclusive := by
  intro id t t' ht ht'
  rcases (holds_applyWrite s seq w t id).mp ht with ht | hr <;>
    rcases (holds_applyWrite s seq w t' id).mp ht' with ht' | hr'
  · exact hs id t t' ht ht'
  · exact (h.stored w (.head _) id t' (record?_claim? hr').1 t ht).1
  · exact (h.stored w (.head _) id t (record?_claim? hr).1 t' ht').1.symm
  · exact (Prod.mk.inj (Option.some.inj (hr.symm.trans hr'))).2

theorem Below.step (hs : s.Below) (seq : Seq) (w : StorageWrite P) : (applyWrite seq s w).Below := by
  intro id t ht
  rcases (holds_applyWrite s seq w t id).mp ht with ht | hr
  · exact (hs id t ht).trans_le (nextId_applyWrite s seq w).1
  · exact (nextId_applyWrite s seq w).2 id t hr

/-- A record that may be written only once is not there before. -/
theorem Claimable.absent (h : s.Claimable (w :: writes)) {t : TableName} (hc : w.claim? = some (id, t))
    (himm : t.immutable = true) (t' : TableName) : s.holds t' id = false := by
  cases ht : s.holds t' id with
  | false => rfl
  | true =>
    have := (h.stored w (.head _) id t hc t' ht).2
    rw [himm] at this
    cases this

/-! ## The id lists -/

variable {α : Type} {ids : List Id}

variable {table : Id → Option α}

/-- A table after one more record, by the kind of records that a list shows. -/
theorem listed_insert {p : α → Prop}
    (h : Lists ids fun id => ∃ value, table id = some value ∧ p value) {value : α} (hnew : table id = none)
    (hp : p value) :
    Lists (insertSorted ids id) fun i => ∃ v, update table id (some value) i = some v ∧ p v := by
  have hout : ¬∃ v, table id = some v ∧ p v := by
    rintro ⟨v, hv, -⟩
    rw [hnew] at hv
    cases hv
  refine (h.insert hout).congr fun i => ?_
  by_cases hi : i = id
  · subst hi
    simpa using hp
  · simp [hi]

/-- A record that the list does not show, and did not show before. -/
theorem listed_skip {p : α → Prop}
    (h : Lists ids fun id => ∃ value, table id = some value ∧ p value) {value : α}
    (hold : ∀ v, table id = some v → ¬p v) (hp : ¬p value) :
    Lists ids fun i => ∃ v, update table id (some value) i = some v ∧ p v := by
  refine h.congr fun i => ?_
  by_cases hi : i = id
  · subst hi
    constructor
    · rintro ⟨v, hv, hpv⟩
      exact absurd hpv (hold v hv)
    · rintro ⟨v, hv, hpv⟩
      rw [update_self] at hv
      exact absurd (Option.some.inj hv ▸ hpv) hp
  · rw [update_of_ne hi]

theorem isSome_listed : (Lists ids fun id => (table id).isSome = true) ↔
      Lists ids fun id => ∃ value, table id = some value ∧ True :=
  ⟨fun h => h.congr fun id => by rw [isSome_iff_exists]; simp,
    fun h => h.congr fun id => by rw [isSome_iff_exists]; simp⟩

theorem keyed_update {key : α → Id} (h : ∀ id value, table id = some value → key value = id)
    (value : α) :
    ∀ id v, update table (key value) (some value) id = some v → key v = id := by
  intro id v hv
  rw [update_apply] at hv
  split at hv
  · rename_i hi
    rw [← Option.some.inj hv, hi]
  · exact h id v hv

theorem ConversationTable.step {w : StorageWrite P} {s : MemoryStorage P} {writes : List (StorageWrite P)}
    (hs : s.ConversationTable) (h : s.Claimable (w :: writes)) (seq : Seq) :
    (applyWrite seq s w).ConversationTable := by
  cases w with
  | conversation value =>
    have hnew : s.conversations value.id = none := by
      simpa [holds] using h.absent rfl rfl .conversation
    exact ⟨keyed_update hs.keyed value, isSome_listed.mpr (listed_insert (isSome_listed.mp hs.listed) hnew trivial)⟩
  | task value =>
    have hframe := applyTask_frame s value
    refine ⟨?_, ?_⟩
    · simpa [applyWrite, reserve, hframe] using hs.keyed
    · simpa [applyWrite, reserve, hframe] using hs.listed
  | entry _ | submission _ => exact ⟨hs.keyed, hs.listed⟩
  | documentCreate _ _ | documentChange _ _ | documentRetire _ => exact hs

theorem EntryTable.step {w : StorageWrite P} {s : MemoryStorage P} {writes : List (StorageWrite P)}
    (hs : s.EntryTable) (h : s.Claimable (w :: writes)) (seq : Seq) :
    (applyWrite seq s w).EntryTable := by
  cases w with
  | entry value =>
    have hnew : s.entries value.id = none := by simpa [holds] using h.absent rfl rfl .entry
    refine ⟨keyed_update hs.keyed value, fun c => ?_, fun c => ?_, fun id => ?_⟩
    · change Lists (update s.entryIds value.conversationId _ c) _
      by_cases hc : c = value.conversationId
      · subst hc
        rw [update_self]
        exact listed_insert (hs.listed _) hnew rfl
      · rw [update_of_ne hc]
        exact listed_skip (hs.listed c) (fun v hv => by rw [hnew] at hv; cases hv) (Ne.symm hc)
    · change Lists ((if value.head.isSome = true then update s.headEntryIds value.conversationId _
        else s.headEntryIds) c) _
      by_cases hhead : value.head.isSome = true
      · rw [if_pos hhead]
        by_cases hc : c = value.conversationId
        · subst hc
          rw [update_self]
          exact listed_insert (hs.heads _) hnew ⟨rfl, hhead⟩
        · rw [update_of_ne hc]
          exact listed_skip (hs.heads c) (fun v hv => by rw [hnew] at hv; cases hv)
            fun hp => hc hp.1.symm
      · rw [if_neg hhead]
        exact listed_skip (hs.heads c) (fun v hv => by rw [hnew] at hv; cases hv)
          fun hp => hhead hp.2
    · change (update s.entryCommitSeqs value.id (some seq) id).isSome =
        (update s.entries value.id (some value) id).isSome
      by_cases hi : id = value.id
      · rw [hi, update_self, update_self]
        rfl
      · rw [update_of_ne hi, update_of_ne hi]
        exact hs.seqs id
  | task value =>
    have hframe := applyTask_frame s value
    refine ⟨?_, ?_, ?_, ?_⟩
    · simpa [applyWrite, reserve, hframe] using hs.keyed
    · simpa [applyWrite, reserve, hframe] using hs.listed
    · simpa [applyWrite, reserve, hframe] using hs.heads
    · simpa [applyWrite, reserve, hframe] using hs.seqs
  | conversation _ | submission _ => exact ⟨hs.keyed, hs.listed, hs.heads, hs.seqs⟩
  | documentCreate _ _ | documentChange _ _ | documentRetire _ => exact hs

theorem TaskTable.apply {s : MemoryStorage P} (hs : s.TaskTable) (value : TaskRecord P) :
    (s.applyTask value).TaskTable := by
  refine ⟨keyed_update hs.keyed value, ?_, fun status => ?_⟩
  · rw [isSome_listed, applyTask_tasks]
    unfold applyTask
    cases hold : s.tasks value.id with
    | none => exact listed_insert (isSome_listed.mp hs.listed) hold trivial
    | some previous =>
      have hin : Lists s.taskIds fun id => ∃ v, update s.tasks value.id (some value) id = some v ∧
          True := by
        refine (isSome_listed.mp hs.listed).congr fun id => ?_
        by_cases hi : id = value.id
        · rw [hi, update_self, hold]
          simp
        · rw [update_of_ne hi]
      dsimp only
      split <;> exact hin
  · rw [applyTask_tasks]
    unfold applyTask
    cases hold : s.tasks value.id with
    | none =>
      change Lists (update s.taskIdsByStatus value.status _ status) _
      by_cases hst : status = value.status
      · subst hst
        rw [update_self]
        exact listed_insert (hs.byStatus _) hold rfl
      · rw [update_of_ne hst]
        exact listed_skip (hs.byStatus status) (fun v hv => by rw [hold] at hv; cases hv) (Ne.symm hst)
    | some previous =>
      have hprev : previous.id = value.id := hs.keyed _ _ hold
      dsimp only
      split
      · rename_i hsame
        -- the lists stay as they are: the task is of the same status
        refine (hs.byStatus status).congr fun id => ?_
        by_cases hi : id = value.id
        · subst hi
          rw [update_self, hold]
          simp [hsame]
        · rw [update_of_ne hi]
      · rename_i hmoved
        have hrem : ∀ st, Lists (update s.taskIdsByStatus previous.status
            (removeSorted (s.taskIdsByStatus previous.status) value.id) st) fun id =>
              id ≠ value.id ∧ ∃ t, s.tasks id = some t ∧ t.status = st := by
          intro st
          by_cases hst : st = previous.status
          · subst hst
            rw [update_self]
            exact (hs.byStatus _).remove value.id
          · rw [update_of_ne hst]
            refine (hs.byStatus st).congr fun id => ⟨fun h => ⟨fun hi => ?_, h⟩, And.right⟩
            obtain ⟨t, ht, hts⟩ := h
            rw [hi, hold] at ht
            exact hst (hts.symm.trans (congrArg TaskRecord.status (Option.some.inj ht)).symm)
        by_cases hst : status = value.status
        · subst hst
          change Lists (update (update s.taskIdsByStatus _ _) value.status _ value.status) _
          rw [update_self]
          refine ((hrem value.status).insert fun h => h.1 rfl).congr fun id => ?_
          by_cases hi : id = value.id
          · subst hi
            rw [update_self]
            simp
          · rw [update_of_ne hi]
            simp [hi]
        · change Lists (update (update s.taskIdsByStatus _ _) value.status _ status) _
          rw [update_of_ne hst]
          refine (hrem status).congr fun id => ?_
          by_cases hi : id = value.id
          · subst hi
            rw [update_self]
            simp [Ne.symm hst]
          · rw [update_of_ne hi]
            simp [hi]

theorem TaskTable.step {s : MemoryStorage P} (hs : s.TaskTable) (seq : Seq) (w : StorageWrite P) :
    (applyWrite seq s w).TaskTable := by
  cases w with
  | task value => exact ⟨(hs.apply value).keyed, (hs.apply value).listed, (hs.apply value).byStatus⟩
  | conversation _ | entry _ | submission _ => exact ⟨hs.keyed, hs.listed, hs.byStatus⟩
  | documentCreate _ _ | documentChange _ _ | documentRetire _ => exact hs

/-! ## Requests -/

/-- Every request of a submission is found. -/
def Answered (s : MemoryStorage P) : Prop := ∀ id v request, s.submissions id = some v → v.request? = some request →
    (s.submissionIdsByRequest request).isSome = true

/-- No other submission has the request that a write takes from the index. -/
def Keeps (s : MemoryStorage P) : StorageWrite P → Prop
  | .submission value => ∀ request, s.submissionIdsByRequest request = some value.id → value.request? ≠ some request →
      ∀ id v, s.submissions id = some v → v.request? = some request → id = value.id
  | _ => True

theorem forgetRequest_some {index : Id × JsString → Option Id} {previous : Option (SubmissionRecord P)}
    {request : Id × JsString} {i : Id} :
    forgetRequest index previous id request = some i ↔ index request = some i ∧
      (i = id → ∀ v, previous = some v → v.request? ≠ some request) := by
  unfold forgetRequest
  cases hp : previous.bind SubmissionRecord.request? with
  | none =>
    refine ⟨fun h => ⟨h, fun _ v hv hr => ?_⟩, And.left⟩
    rw [hv, bind_some, hr] at hp
    cases hp
  | some r =>
    obtain ⟨v, hv, hvr⟩ := bind_eq_some_iff.mp hp
    dsimp only
    by_cases hat : index r = some id
    · rw [if_pos hat, update_apply]
      by_cases hr : request = r
      · rw [if_pos hr, hr]
        refine ⟨fun h => (by cases h), fun ⟨hi, hnot⟩ => ?_⟩
        exact absurd hvr (hnot (Option.some.inj (hi.symm.trans hat)) v hv)
      · rw [if_neg hr]
        refine ⟨fun h => ⟨h, fun _ v' hv' hr' => hr ?_⟩, And.left⟩
        obtain rfl := Option.some.inj (hv'.symm.trans hv)
        exact Option.some.inj (hr'.symm.trans hvr)
    · rw [if_neg hat]
      refine ⟨fun h => ⟨h, fun hi v' hv' hr' => hat ?_⟩, And.left⟩
      obtain rfl := Option.some.inj (hv'.symm.trans hv)
      rw [hvr] at hr'
      rw [← hi, ← h, Option.some.inj hr']

theorem applySubmission_some (s : MemoryStorage P) (value : SubmissionRecord P)
    (request : Id × JsString) (i : Id) :
    (s.applySubmission value).submissionIdsByRequest request = some i ↔
      (value.request? = some request ∧ i = value.id) ∨
        value.request? ≠ some request ∧ s.submissionIdsByRequest request = some i ∧
          (i = value.id → ∀ v, s.submissions value.id = some v → v.request? ≠ some request) := by
  unfold applySubmission
  cases hv : value.request? with
  | none => simpa using forgetRequest_some
  | some r =>
    dsimp only
    rw [update_apply]
    by_cases hr : request = r
    · rw [if_pos hr]
      simp [hr, eq_comm]
    · rw [if_neg hr, forgetRequest_some]
      simp [Ne.symm hr]

theorem SubmissionTable.apply {s : MemoryStorage P} (hs : s.SubmissionTable) (value : SubmissionRecord P) :
    (s.applySubmission value).SubmissionTable := by
  refine ⟨keyed_update hs.keyed value, fun request id h => ?_⟩
  change ∃ v, update s.submissions value.id (some value) id = some v ∧ _
  rcases (applySubmission_some s value request id).mp h with ⟨hr, rfl⟩ | ⟨-, hi, hnot⟩
  · exact ⟨value, update_self .., hr⟩
  · obtain ⟨v, hv, hvr⟩ := hs.requests request id hi
    by_cases heq : id = value.id
    · exact absurd hvr (hnot heq v (heq ▸ hv))
    · exact ⟨v, by rw [update_of_ne heq, hv], hvr⟩

/-- Where nothing else needs the request a write lets go of, all requests are still found. -/
theorem Answered.apply {s : MemoryStorage P} (ha : s.Answered) (value : SubmissionRecord P)
    (hkeeps : s.Keeps (.submission value)) : (s.applySubmission value).Answered := by
  intro id v request hv hvr
  rw [isSome_iff_exists]
  by_cases hr : value.request? = some request
  · exact ⟨value.id, (applySubmission_some s value request _).mpr (.inl ⟨hr, rfl⟩)⟩
  · have hne : id ≠ value.id := by
      rintro rfl
      change update s.submissions value.id (some value) value.id = some v at hv
      rw [update_self] at hv
      exact hr (Option.some.inj hv ▸ hvr)
    have hold : s.submissions id = some v := by
      change update s.submissions value.id (some value) id = some v at hv
      rwa [update_of_ne hne] at hv
    obtain ⟨i, hi⟩ := isSome_iff_exists.mp (ha id v request hold hvr)
    refine ⟨i, (applySubmission_some s value request i).mpr (.inr ⟨hr, hi, fun heq => ?_⟩)⟩
    exact absurd (hkeeps request (heq ▸ hi) hr id v hold hvr) hne

theorem SubmissionTable.step {s : MemoryStorage P} (hs : s.SubmissionTable) (seq : Seq) (w : StorageWrite P) :
    (applyWrite seq s w).SubmissionTable := by
  cases w with
  | submission value => exact ⟨(hs.apply value).keyed, (hs.apply value).requests⟩
  | task value =>
    have hframe := applyTask_frame s value
    refine ⟨?_, ?_⟩
    · simpa [applyWrite, reserve, hframe] using hs.keyed
    · simpa [applyWrite, reserve, hframe] using hs.requests
  | conversation _ | entry _ => exact ⟨hs.keyed, hs.requests⟩
  | documentCreate _ _ | documentChange _ _ | documentRetire _ => exact hs

theorem Answered.step {w : StorageWrite P} {s : MemoryStorage P} (ha : s.Answered) (seq : Seq) (hkeeps : s.Keeps w) :
    (applyWrite seq s w).Answered := by
  cases w with
  | submission value => exact Answered.apply ha value hkeeps
  | task value =>
    have hframe := applyTask_frame s value
    simpa [Answered, applyWrite, reserve, hframe] using ha
  | conversation _ | entry _ => exact ha
  | documentCreate _ _ | documentChange _ _ | documentRetire _ => exact ha

/-! ## The writes of a batch -/

/-- What holds of the tables while the writes of a batch are applied. -/
structure Tables (s : MemoryStorage P) : Prop where
  conversations : s.ConversationTable
  entries : s.EntryTable
  tasks : s.TaskTable
  submissions : s.SubmissionTable
  exclusive : s.Exclusive
  below : s.Below

theorem Tables.step {w : StorageWrite P} {s : MemoryStorage P} {writes : List (StorageWrite P)} (hs : s.Tables)
    (h : s.Claimable (w :: writes)) (seq : Seq) : (applyWrite seq s w).Tables :=
  ⟨hs.conversations.step h seq, hs.entries.step h seq, hs.tasks.step seq w, hs.submissions.step seq w,
    hs.exclusive.step h seq, hs.below.step seq w⟩

theorem Tables.batch {s : MemoryStorage P} {writes : List (StorageWrite P)} (hs : s.Tables) (h : s.Claimable writes)
    (seq : Seq) :
    (writes.foldl (applyWrite seq) s).Tables := by
  induction writes generalizing s with
  | nil => exact hs
  | cons w writes ih => exact ih (hs.step h seq) (h.step seq)

/-- The condition above for each write of a batch, where the writes before it are applied. -/
def KeepsAll (seq : Seq) : MemoryStorage P → List (StorageWrite P) → Prop
  | _, [] => True
  | s, w :: writes => s.Keeps w ∧ KeepsAll seq (applyWrite seq s w) writes

theorem Answered.batch {s : MemoryStorage P} {writes : List (StorageWrite P)} (hs : s.Tables) (ha : s.Answered)
    (h : s.Claimable writes) (seq : Seq) (hkeeps : KeepsAll seq s writes) :
    (writes.foldl (applyWrite seq) s).Answered := by
  induction writes generalizing s with
  | nil => exact ha
  | cons w writes ih =>
    exact ih (hs.step h seq) (Answered.step ha seq hkeeps.1) (h.step seq) hkeeps.2

theorem holds_writes (s : MemoryStorage P) (seq : Seq) (writes : List (StorageWrite P))
    (t : TableName) (id : Id) : (writes.foldl (applyWrite seq) s).holds t id = true ↔
      s.holds t id = true ∨ ∃ w ∈ writes, w.record? = some (id, t) := by
  induction writes generalizing s with
  | nil => simp
  | cons w writes ih =>
    rw [List.foldl_cons, ih, holds_applyWrite, or_assoc]
    simp

/-- Every entry comes from the tables before the batch or from the batch. -/
theorem entries_writes (s : MemoryStorage P) (seq : Seq) (writes : List (StorageWrite P)) {value : EntryRecord P}
    (h : (writes.foldl (applyWrite seq) s).entries id = some value) :
    s.entries id = some value ∨ .entry value ∈ writes := by
  induction writes generalizing s with
  | nil => exact .inl h
  | cons w writes ih =>
    rcases ih _ h with hstep | hmem
    · cases w with
      | entry v =>
        change update s.entries v.id (some v) id = some value at hstep
        rw [update_apply] at hstep
        split at hstep
        · rw [Option.some.inj hstep]
          exact .inr (.head _)
        · exact .inl hstep
      | task v => exact .inl (by simpa [applyWrite, reserve] using hstep)
      | conversation _ | submission _ | documentCreate _ _ | documentChange _ _ | documentRetire _ =>
        exact .inl hstep
    · exact .inr (.tail _ hmem)

/-- Conversations and entries stay as they are, and documents are left to their actions. -/
theorem writes_frame {s : MemoryStorage P} {writes : List (StorageWrite P)} (h : s.Claimable writes) (seq : Seq) :
    (∀ id value, s.conversations id = some value →
      (writes.foldl (applyWrite seq) s).conversations id = some value) ∧
    (∀ id value, s.entries id = some value → (writes.foldl (applyWrite seq) s).entries id = some value ∧
        (writes.foldl (applyWrite seq) s).entryCommitSeqs id = s.entryCommitSeqs id) ∧
    (writes.foldl (applyWrite seq) s).documents = s.documents ∧
    (writes.foldl (applyWrite seq) s).documentAddresses = s.documentAddresses ∧
    (writes.foldl (applyWrite seq) s).documentIdsByScope = s.documentIdsByScope ∧
    (writes.foldl (applyWrite seq) s).nextSeq = s.nextSeq := by
  induction writes generalizing s with
  | nil => exact ⟨fun _ _ h => h, fun _ _ h => ⟨h, rfl⟩, rfl, rfl, rfl, rfl⟩
  | cons w writes ih =>
    obtain ⟨hconv, hentry, hdocs, haddr, hscope, hseq⟩ := ih (h.step seq)
    rw [foldl_cons]
    have hne : ∀ {id i : Id} {t : TableName}, s.holds t id = true → w.claim? = some (i, t) →
        t.immutable = true → id ≠ i := by
      rintro id i t ht hc himm rfl
      rw [h.absent hc himm t] at ht
      cases ht
    refine ⟨fun id value hid => hconv id value ?_, fun id value hid => ?_, hdocs.trans ?_,
      haddr.trans ?_, hscope.trans ?_, hseq.trans ?_⟩
    · cases w with
      | conversation v =>
        have : id ≠ v.id := hne (t := .conversation) (by rw [holds, hid]; rfl) rfl rfl
        exact (update_of_ne this ..).trans hid
      | task v => simpa [applyWrite, reserve, applyTask_frame s v] using hid
      | entry _ | submission _ | documentCreate _ _ | documentChange _ _ | documentRetire _ => exact hid
    · have hstep : (applyWrite seq s w).entries id = some value ∧
          (applyWrite seq s w).entryCommitSeqs id = s.entryCommitSeqs id := by
        cases w with
        | entry v =>
          have : id ≠ v.id := hne (t := .entry) (by rw [holds, hid]; rfl) rfl rfl
          exact ⟨(update_of_ne this ..).trans hid, update_of_ne this ..⟩
        | task v => simpa [applyWrite, reserve, applyTask_frame s v] using hid
        | conversation _ | submission _ | documentCreate _ _ | documentChange _ _ | documentRetire _ =>
          exact ⟨hid, rfl⟩
      obtain ⟨he, hes⟩ := hentry id value hstep.1
      exact ⟨he, hes.trans hstep.2⟩
    all_goals
      cases w with
      | task v => simp [applyWrite, reserve]
      | conversation _ | entry _ | submission _ => rfl
      | documentCreate _ _ | documentChange _ _ | documentRetire _ => rfl

end MemoryStorage

end Shuvpi.Durable
