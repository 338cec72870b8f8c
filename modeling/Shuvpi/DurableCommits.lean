import Shuvpi.DurableIncarnations

/-!
# Runs of the reference storage

A commit either is rejected by its checks and changes nothing, or is applied as a whole.
Over a run of commits and minted ids the tables, the id lists and the documents agree.
-/
namespace Shuvpi.Durable

open Function (update)
open SortedIds (Lists)

variable {P : Type}

namespace MemoryStorage

/-- What holds between the calls of a storage. -/
structure Inv (s : MemoryStorage P) : Prop where
  tables : s.Tables
  incarnations : s.Incarnations

theorem inv_initial : (initial : MemoryStorage P).Inv := by
  have hempty : ∀ t id, (initial : MemoryStorage P).holds t id = false := by
    intro t id
    cases t <;> rfl
  refine ⟨⟨⟨fun _ _ h => (by cases h), .nil fun _ h => (by cases h)⟩,
    ⟨fun _ _ h => (by cases h), fun _ => .nil fun _ ⟨_, h, _⟩ => (by cases h),
      fun _ => .nil fun _ ⟨_, h, _⟩ => (by cases h), fun _ => rfl⟩,
    ⟨fun _ _ h => (by cases h), .nil fun _ h => (by cases h), fun _ => .nil fun _ ⟨_, h, _⟩ => (by cases h)⟩,
    ⟨fun _ _ h => (by cases h), fun _ _ h => (by cases h)⟩, ?_, ?_⟩,
    ⟨fun _ _ h => (by cases h), fun _ => .nil fun _ ⟨_, h, _⟩ => (by cases h),
      fun _ => .nil fun _ ⟨_, h, _⟩ => (by cases h)⟩, ?_, fun _ _ h => (by cases h),
    fun _ _ _ _ h => (by cases h)⟩
  · intro id t t' h
    rw [hempty] at h
    cases h
  · intro id t h
    rw [hempty] at h
    cases h
  · intro address id
    exact ⟨fun h => (by cases h), fun ⟨_, h, _⟩ => (by cases h)⟩

/-! ## One commit -/

/-- An accepted batch: its checks, and the storage `m` that its actions leave. -/
structure Accepted (s : MemoryStorage P) (writes : List (StorageWrite P)) (actions : DocumentActions P)
    (m : MemoryStorage P) : Prop where
  claimable : s.Claimable writes
  prepared : Prepared writes actions
  checked : s.Checked actions
  acted : ActedAll s.nextSeq actions (writes.foldl (applyWrite s.nextSeq) s) m

variable {s : MemoryStorage P}

theorem checkCommit_ok (hs : s.Inv) {writes : List (StorageWrite P)}
    {actions : DocumentActions P} (h : s.checkCommit writes = .ok actions) :
    s.Claimable writes ∧ Prepared writes actions ∧ s.Checked actions := by
  unfold checkCommit at h
  obtain ⟨u, hids, h⟩ := bind_ok.mp h
  obtain ⟨actions', hacts, h⟩ := bind_ok.mp h
  cases hcheck : s.checkDocumentActions actions' with
  | error e => simp [bind, Except.bind, hcheck] at h
  | ok u' =>
    simp only [bind, Except.bind, hcheck, pure, Except.pure, Except.ok.injEq] at h
    subst h
    have hprep := Durable.prepared hacts
    exact ⟨claimable hs.tables.exclusive hids, hprep, checked hprep hcheck⟩

/-- A commit is rejected and changes nothing, or is applied whole. -/
theorem commit_cases (hs : s.Inv) (writes : List (StorageWrite P)) :
    (∃ e, s.checkCommit writes = .error e ∧ s.commit writes = (.error e, s)) ∨
      ∃ actions m, s.checkCommit writes = .ok actions ∧
        s.commit writes = (.ok s.nextSeq, { m with nextSeq := s.nextSeq + 1 }) ∧
        Accepted s writes actions m := by
  cases hcheck : s.checkCommit writes with
  | error e => exact .inl ⟨e, rfl, by rw [commit, hcheck]⟩
  | ok actions =>
    obtain ⟨hclaim, hprep, hchk⟩ := checkCommit_ok hs hcheck
    obtain ⟨-, -, hdocs, haddr, hscope, -⟩ := writes_frame hclaim s.nextSeq
    have hindex : (writes.foldl (applyWrite s.nextSeq) s).DocumentIndex := by
      refine ⟨?_, fun address => ?_, fun scope => ?_⟩
      · rw [hdocs]
        exact hs.incarnations.index.keyed
      · rw [addressIds, haddr, hdocs]
        exact hs.incarnations.index.addressed address
      · rw [hscope, hdocs]
        exact hs.incarnations.index.inScope scope
    obtain ⟨m, hm, hacted⟩ := applyDocumentActions_ok hindex s.nextSeq hprep.nodup
      (by rw [hdocs]; exact hchk.fits)
    refine .inr ⟨actions, m, rfl, ?_, hclaim, hprep, hchk, hacted⟩
    rw [commit, hcheck]
    dsimp only
    rw [hm]

section Accepted
variable {s m : MemoryStorage P} {writes : List (StorageWrite P)} {actions : DocumentActions P}

/-- The ids in the tables after an accepted batch: those before it and those it claims. -/
theorem Accepted.holds (h : Accepted s writes actions m) {t : TableName} {id : Id}
    (hold : m.holds t id = true) :
    s.holds t id = true ∨ ∃ w ∈ writes, w.claim? = some (id, t) := by
  obtain ⟨-, -, hdocs, -⟩ := writes_frame h.claimable s.nextSeq
  by_cases ht : t = .document
  · subst ht
    obtain ⟨stored, hstor⟩ := Option.isSome_iff_exists.mp hold
    have hc := h.checked.congr hdocs (writes_frame h.claimable s.nextSeq).2.2.2.1
    rcases h.acted.cases hc hstor with ⟨-, hold⟩ | ⟨action, create, hmem, hcreate, -⟩ |
      ⟨action, old, -, -, hold, -⟩
    · rw [hdocs] at hold
      exact .inl (by rw [MemoryStorage.holds, hold]; rfl)
    · rw [h.prepared.create id action hmem] at hcreate
      exact .inr (create?_some hcreate).2.2
    · rw [hdocs] at hold
      exact .inl (by rw [MemoryStorage.holds, hold]; rfl)
  · have hsame : m.holds t id = (writes.foldl (applyWrite s.nextSeq) s).holds t id := by
      obtain ⟨hconv, -, hentries, -, -, -, htasks, -, -, hsubs, -⟩ := h.acted.frame
      cases t with
      | document => exact absurd rfl ht
      | conversation | entry | task | submission =>
        simp only [MemoryStorage.holds, hconv, hentries, htasks, hsubs]
    rw [hsame] at hold
    rcases (holds_writes s s.nextSeq writes t id).mp hold with hold | ⟨w, hw, hr⟩
    · exact .inl hold
    · exact .inr ⟨w, hw, (record?_claim? hr).1⟩

theorem Claimable.agree (h : s.Claimable writes) {w w' : StorageWrite P} {id : Id} {t t' : TableName}
    (hw : w ∈ writes) (hw' : w' ∈ writes) (hc : w.claim? = some (id, t))
    (hc' : w'.claim? = some (id, t')) : t = t' := by
  have hpair : writes.Pairwise fun a b => (∀ id t t', a.claim? = some (id, t) →
      b.claim? = some (id, t') → t = t') ∧ ∀ id t t', b.claim? = some (id, t) →
      a.claim? = some (id, t') → t = t' :=
    h.batch.imp fun hab => ⟨fun id t t' ha hb => (hab id t t' ha hb).1,
      fun id t t' hb ha => (hab id t' t ha hb).1.symm⟩
  have hself : ∀ a ∈ writes, (∀ id t t', a.claim? = some (id, t) →
      a.claim? = some (id, t') → t = t') ∧ ∀ id t t', a.claim? = some (id, t) →
      a.claim? = some (id, t') → t = t' :=
    fun a _ => ⟨fun i t t' ha hb => (Prod.mk.inj (Option.some.inj (ha.symm.trans hb))).2,
      fun i t t' ha hb => (Prod.mk.inj (Option.some.inj (ha.symm.trans hb))).2⟩
  have hall := List.Pairwise.forall_of_forall_of_flip hself hpair (hpair.imp And.symm)
  exact (hall hw hw').1 id t t' hc hc'

variable (h : Accepted s writes actions m)
include h

theorem Accepted.exclusive (hs : s.Inv) : m.Exclusive := by
  intro id t t' ht ht'
  rcases h.holds ht with ht | ⟨w, hw, hc⟩ <;> rcases h.holds ht' with ht' | ⟨w', hw', hc'⟩
  · exact hs.tables.exclusive id t t' ht ht'
  · exact (h.claimable.stored w' hw' id t' hc' t ht).1
  · exact (h.claimable.stored w hw id t hc t' ht').1.symm
  · exact h.claimable.agree hw hw' hc hc'

theorem Accepted.below (hs : s.Inv) : m.Below := by
  have htabs := hs.tables.batch h.claimable s.nextSeq
  intro id t ht
  by_cases hdoc : t = .document
  · subst hdoc
    obtain ⟨stored, hstor⟩ := Option.isSome_iff_exists.mp ht
    obtain ⟨-, -, hdocs, haddr, -⟩ := writes_frame h.claimable s.nextSeq
    have hc := h.checked.congr hdocs haddr
    have hold : ∀ stored, (writes.foldl (applyWrite s.nextSeq) s).documents id = some stored →
        id < m.nextId := fun stored hstor => by
      have := htabs.below id .document (by rw [MemoryStorage.holds, hstor]; rfl)
      exact this.trans_le h.acted.nextId.1
    rcases h.acted.cases hc hstor with ⟨-, hs'⟩ | ⟨action, create, hmem, hcreate, -⟩ |
      ⟨action, old, -, -, hs', -⟩
    · exact hold _ hs'
    · exact h.acted.nextId.2 id action hmem (by rw [hcreate]; rfl)
    · exact hold _ hs'
  · have hsame : m.holds t id = (writes.foldl (applyWrite s.nextSeq) s).holds t id := by
      obtain ⟨hconv, -, hentries, -, -, -, htasks, -, -, hsubs, -⟩ := h.acted.frame
      cases t with
      | document => exact absurd rfl hdoc
      | conversation | entry | task | submission =>
        simp only [MemoryStorage.holds, hconv, hentries, htasks, hsubs]
    rw [hsame] at ht
    exact (htabs.below id t ht).trans_le h.acted.nextId.1

theorem Accepted.inv (hs : s.Inv) :
    ({ m with nextSeq := s.nextSeq + 1 } : MemoryStorage P).Inv := by
  obtain ⟨hconv, hentry, htask, hsub, -, -⟩ := hs.tables.batch h.claimable s.nextSeq
  obtain ⟨-, -, hdocs, haddr, hscope, hseq⟩ := writes_frame h.claimable s.nextSeq
  obtain ⟨h₁, h₂, h₃, h₄, h₅, h₆, h₇, h₈, h₉, h₁₀, h₁₁, -⟩ := h.acted.frame
  have hmid : (writes.foldl (applyWrite s.nextSeq) s).Incarnations := by
    refine ⟨⟨?_, ?_, ?_⟩, ?_, ?_, ?_⟩
    · rw [hdocs]
      exact hs.incarnations.index.keyed
    · simp only [addressIds, haddr, hdocs]
      exact hs.incarnations.index.addressed
    · rw [hscope, hdocs]
      exact hs.incarnations.index.inScope
    · simp only [currentId, haddr, OpenAt, hdocs]
      exact hs.incarnations.current
    · rw [hdocs, hseq]
      exact hs.incarnations.times
    · rw [hdocs]
      exact hs.incarnations.apart
  refine ⟨⟨⟨?_, ?_⟩, ⟨?_, ?_, ?_, ?_⟩, ⟨?_, ?_, ?_⟩, ⟨?_, ?_⟩, h.exclusive hs, h.below hs⟩, ?_⟩
  · exact h₁ ▸ hconv.keyed
  · simpa only [h₁, h₂] using hconv.listed
  · exact h₃ ▸ hentry.keyed
  · simpa only [h₃, h₄] using hentry.listed
  · simpa only [h₃, h₅] using hentry.heads
  · simpa only [h₃, h₆] using hentry.seqs
  · exact h₇ ▸ htask.keyed
  · simpa only [h₇, h₈] using htask.listed
  · simpa only [h₇, h₉] using htask.byStatus
  · exact h₁₀ ▸ hsub.keyed
  · simpa only [h₁₀, h₁₁] using hsub.requests
  · have hacted : ActedAll (writes.foldl (applyWrite s.nextSeq) s).nextSeq actions
        (writes.foldl (applyWrite s.nextSeq) s) m := by
      rw [hseq]
      exact h.acted
    have hbatch := hmid.batch (h.checked.congr hdocs haddr) hacted
    rwa [hseq] at hbatch

end Accepted

theorem Inv.commit (hs : s.Inv) (writes : List (StorageWrite P)) :
    (s.commit writes).2.Inv := by
  rcases commit_cases hs writes with ⟨e, -, h⟩ | ⟨actions, m, -, h, hacc⟩
  · rw [h]
    exact hs
  · rw [h]
    exact hacc.inv hs

theorem Inv.mintId {s m : MemoryStorage P} (hs : s.Inv) {id : Id} (h : s.mintId = .ok (id, m)) :
    m.Inv ∧ ∀ t, s.holds t id = false := by
  unfold MemoryStorage.mintId at h
  split at h
  · cases h
    refine ⟨⟨⟨⟨hs.tables.conversations.keyed, hs.tables.conversations.listed⟩,
      ⟨hs.tables.entries.keyed, hs.tables.entries.listed, hs.tables.entries.heads, hs.tables.entries.seqs⟩,
      ⟨hs.tables.tasks.keyed, hs.tables.tasks.listed, hs.tables.tasks.byStatus⟩,
      ⟨hs.tables.submissions.keyed, hs.tables.submissions.requests⟩, hs.tables.exclusive, ?_⟩,
      ⟨hs.incarnations.index.keyed, hs.incarnations.index.addressed, hs.incarnations.index.inScope⟩,
      hs.incarnations.current, hs.incarnations.times, hs.incarnations.apart⟩, fun t => ?_⟩
    · exact fun id t ht => (hs.tables.below id t ht).trans (Int.lt_succ _)
    · cases ht : s.holds t s.nextId with
      | false => rfl
      | true => exact absurd (hs.tables.below _ t ht) (lt_irrefl _)
  · cases h

end MemoryStorage

/-! ## Runs -/

inductive StorageCall (P : Type) where
  | commit (writes : List (StorageWrite P))
  | mintId

namespace MemoryStorage

def call (s : MemoryStorage P) : StorageCall P → MemoryStorage P
  | .commit writes => (s.commit writes).2
  | .mintId => s.mintId.toOption.elim s Prod.snd

def run (calls : List (StorageCall P)) : MemoryStorage P := calls.foldl call initial

variable {s : MemoryStorage P}

theorem Inv.call (hs : s.Inv) (c : StorageCall P) : (s.call c).Inv := by
  cases c with
  | commit writes => exact hs.commit writes
  | mintId =>
    cases h : s.mintId with
    | error e => rwa [MemoryStorage.call, h]
    | ok r =>
      rw [MemoryStorage.call, h]
      exact (hs.mintId h).1

theorem Inv.calls (hs : s.Inv) (calls : List (StorageCall P)) :
    (calls.foldl MemoryStorage.call s).Inv := by
  induction calls generalizing s with
  | nil => exact hs
  | cons c calls ih => exact ih (hs.call c)

/-- In the accepted commits, no write takes a request from the index that another submission has. -/
def KeepsRequests (s : MemoryStorage P) : List (StorageCall P) → Prop
  | [] => True
  | .commit writes :: calls =>
    ((s.commit writes).1.isOk = true → KeepsAll s.nextSeq s writes) ∧ KeepsRequests (s.call (.commit writes)) calls
  | .mintId :: calls => KeepsRequests (s.call .mintId) calls

theorem Answered.commit (hs : s.Inv) (ha : s.Answered)
    (writes : List (StorageWrite P))
    (hkeeps : (s.commit writes).1.isOk = true → KeepsAll s.nextSeq s writes) :
    (s.commit writes).2.Answered := by
  rcases commit_cases hs writes with ⟨e, -, h⟩ | ⟨actions, m, -, h, hacc⟩
  · rw [h]
    exact ha
  · rw [h] at hkeeps ⊢
    have hmid := Answered.batch hs.tables ha hacc.claimable s.nextSeq (hkeeps rfl)
    obtain ⟨-, -, -, -, -, -, -, -, -, hsub, hindex, -⟩ := hacc.acted.frame
    intro id v request hv hr
    rw [hindex]
    exact hmid id v request (hsub ▸ hv) hr

theorem Answered.calls (hs : s.Inv) (ha : s.Answered)
    (calls : List (StorageCall P)) (hkeeps : KeepsRequests s calls) :
    (calls.foldl MemoryStorage.call s).Answered := by
  induction calls generalizing s with
  | nil => exact ha
  | cons c calls ih =>
    cases c with
    | commit writes => exact ih (hs.call _) (Answered.commit hs ha writes hkeeps.1) hkeeps.2
    | mintId =>
      refine ih (hs.call _) ?_ hkeeps
      rw [MemoryStorage.call, MemoryStorage.mintId]
      split <;> exact ha

/-- Every id list and index shows just the records it is for. -/
structure Exact (s : MemoryStorage P) : Prop where
  conversations : s.ConversationTable
  entries : s.EntryTable
  tasks : s.TaskTable
  submissions : s.SubmissionTable
  documents : s.DocumentIndex
  current : ∀ address id, s.currentId address = some id ↔ s.OpenAt address id

theorem Inv.exact (hs : s.Inv) : s.Exact :=
  ⟨hs.tables.conversations, hs.tables.entries, hs.tables.tasks, hs.tables.submissions,
    hs.incarnations.index, hs.incarnations.current⟩

/-- An accepted commit leaves the conversations and entries that are there as they are. -/
theorem commit_keeps (hs : s.Inv) (writes : List (StorageWrite P)) : (∀ id value, s.conversations id = some value →
      (s.commit writes).2.conversations id = some value) ∧
    ∀ id value, s.entries id = some value → (s.commit writes).2.entries id = some value ∧
      (s.commit writes).2.entryCommitSeqs id = s.entryCommitSeqs id := by
  rcases commit_cases hs writes with ⟨e, -, h⟩ | ⟨actions, m, -, h, hacc⟩
  · rw [h]
    exact ⟨fun _ _ h => h, fun _ _ h => ⟨h, rfl⟩⟩
  · rw [h]
    obtain ⟨hconv, hentry, -⟩ := writes_frame hacc.claimable s.nextSeq
    obtain ⟨h₁, -, h₃, -, -, h₆, -⟩ := hacc.acted.frame
    refine ⟨fun id value hid => ?_, fun id value hid => ⟨?_, ?_⟩⟩
    · change m.conversations id = some value
      rw [h₁]
      exact hconv id value hid
    · change m.entries id = some value
      rw [h₃]
      exact (hentry id value hid).1
    · change m.entryCommitSeqs id = s.entryCommitSeqs id
      rw [h₆]
      exact (hentry id value hid).2

/-- After any run: a rejected commit changes nothing, the ids are of one table each, commits
leave conversations and entries as they are, the indices are exact, a minted id is new; and
every request of a submission is found where no write took one that another still had. -/
theorem commits_of_run (calls : List (StorageCall P)) :
    (∀ writes e, ((run calls).commit writes).1 = .error e → ((run calls).commit writes).2 = run calls) ∧
    (∀ writes, (∀ id value, (run calls).conversations id = some value →
      ((run calls).commit writes).2.conversations id = some value) ∧
      ∀ id value, (run calls).entries id = some value → ((run calls).commit writes).2.entries id = some value ∧
          ((run calls).commit writes).2.entryCommitSeqs id = (run calls).entryCommitSeqs id) ∧
    (run calls).Exclusive ∧ (run calls).Exact ∧
    (∀ id s, (run calls).mintId = .ok (id, s) → ∀ t, (run calls).holds t id = false) ∧
    (KeepsRequests initial calls → (run calls).Answered) := by
  have hinv : (run calls).Inv := inv_initial.calls calls
  refine ⟨fun writes e h => ?_, fun writes => commit_keeps hinv writes, hinv.tables.exclusive,
    hinv.exact, fun id s h => (hinv.mintId h).2, fun hkeeps => ?_⟩
  · rcases commit_cases hinv writes with ⟨e', -, hc⟩ | ⟨actions, m, -, hc, -⟩
    · rw [hc]
    · rw [hc] at h
      cases h
  · exact Answered.calls inv_initial (fun id v request h => by cases h) calls hkeeps

/-- A submission that is alone with its request may change it. -/
theorem commits_of_run_moved : (run (P := Unit) [.commit [.submission ⟨2, 1, some [114], ()⟩],
    .commit [.submission ⟨2, 1, some [115], ()⟩]]).Answered := by
  refine (commits_of_run _).2.2.2.2.2 ⟨fun _ => ⟨?_, trivial⟩, fun _ => ⟨?_, trivial⟩, trivial⟩
  · intro request h
    cases h
  · intro request h _ id v hv
    change update (fun _ => none) (2 : Id) (some _) id = some v at hv
    rw [Function.update_apply] at hv
    split at hv
    · rename_i hid
      exact fun _ => hid
    · cases hv

/-- Two submissions share a request, and the second takes it along when it gives it up. -/
theorem request_lost : ¬∀ (calls : List (StorageCall Unit)) (id : Id) (v : SubmissionRecord Unit)
    (request : Id × JsString), (run calls).submissions id = some v → v.request? = some request →
      ((run calls).submissionIdsByRequest request).isSome = true := by
  intro h
  have := h [.commit [.submission ⟨2, 1, some [114], ()⟩],
    .commit [.submission ⟨3, 1, some [114], ()⟩], .commit [.submission ⟨3, 1, none, ()⟩]]
    2 ⟨2, 1, some [114], ()⟩ (1, [114]) (by decide) (by decide)
  revert this
  decide

end MemoryStorage

end Shuvpi.Durable
