import Shuvpi.SqliteScan

/-!
# The SQLite storage beside the storage in memory

A session of the SQLite storage next to one in memory that takes the same entries, commit
by commit. Both hold the same forest; a scan in one follows the index, a scan in the other
the parents.
-/
open List

namespace Shuvpi.Sqlite

open SessionTree

variable {Body Val Use : Type}

/-! ## Entries in memory -/

/-- The ids that a validation takes for known are those of the entries. -/
structure Mirrors (state : CommitValidationState) (seen : Seen) (entries : List (Entry Body)) : Prop where
  ids : ∀ id, (state.hasEntryOrUsageId id || seen.transactionIds.contains id) = true → ∃ e ∈ entries, e.id = id
  entryIds : ∀ e ∈ entries, (state.hasEntryId e.id || seen.transactionEntryIds.contains e.id) = true

variable {e : Entry Body} {older rest : List (Entry Body)}

/-- Of an ordered forest the older entries do not have the id of the next one, and have its parent. -/
theorem next_of_forest (hforest : EntryForest (older ++ e :: rest))
    (hord : (older ++ e :: rest).Pairwise fun a b => a.seq < b.seq) :
    (∀ x ∈ older, x.id ≠ e.id) ∧ ∀ p, e.parentId = some p → ∃ x ∈ older, x.id = p := by
  obtain ⟨-, hnewer, hacross⟩ := pairwise_append.mp hord
  have hmem : e ∈ older ++ e :: rest := mem_append_right _ mem_cons_self
  constructor
  · intro x hx hid
    have heq := hforest.unique x (mem_append_left _ hx) e hmem hid
    have hlt := hacross x hx e mem_cons_self
    rw [heq] at hlt
    exact Nat.lt_irrefl _ hlt
  · intro p hp
    obtain ⟨b, hb, hid, hlt⟩ := hforest.parents e hmem p hp
    rcases mem_append.mp hb with hb | hb
    · exact ⟨b, hb, hid⟩
    · rcases mem_cons.mp hb with rfl | hb
      · exact absurd hlt (Nat.lt_irrefl _)
      · exact absurd hlt (Nat.lt_asymm ((pairwise_cons.mp hnewer).1 b hb))

variable {state : CommitValidationState}

/-- The next entry of an ordered forest passes validation. -/
theorem Mirrors.validate (Val Use : Type) {seen : Seen} (h : Mirrors state seen older)
    (hid : ∀ x ∈ older, x.id ≠ e.id) (hparent : ∀ p, e.parentId = some p → ∃ x ∈ older, x.id = p)
    (hseq : seen.previousSeq < e.seq) :
    ∃ seen', validateWrite state seen (.entry e : CommittedWrite Body Val Use) = .ok seen' ∧
      Mirrors state seen' (older ++ [e]) ∧ seen'.previousSeq = e.seq := by
  refine ⟨⟨e.seq, e.id :: seen.transactionIds, e.id :: seen.transactionEntryIds⟩, ?_, ⟨?_, ?_⟩, rfl⟩
  · have hnew : (state.hasEntryOrUsageId e.id || seen.transactionIds.contains e.id) = false := by
      rw [← Bool.not_eq_true]
      intro hknown
      obtain ⟨x, hx, hxid⟩ := h.ids e.id hknown
      exact hid x hx hxid
    have hfound : state.missingParent seen e = none := by
      unfold CommitValidationState.missingParent
      cases hp : e.parentId with
      | none => rfl
      | some p =>
        obtain ⟨x, hx, rfl⟩ := hparent p hp
        exact if_pos (h.entryIds x hx)
    have hafter : ¬ (CommittedWrite.entry e : CommittedWrite Body Val Use).seq ≤ seen.previousSeq := Nat.not_le_of_lt hseq
    unfold validateWrite
    rw [if_neg hafter]
    dsimp only
    rw [hnew, hfound]
    rfl
  · intro id hknown
    simp only [Bool.or_eq_true, contains_iff_mem, mem_cons] at hknown
    rcases hknown with hknown | rfl | hknown
    · obtain ⟨x, hx, hxid⟩ := h.ids id (by rw [hknown]; rfl)
      exact ⟨x, mem_append_left _ hx, hxid⟩
    · exact ⟨e, mem_append_right _ (mem_singleton.mpr rfl), rfl⟩
    · obtain ⟨x, hx, hxid⟩ := h.ids id (by rw [Bool.or_eq_true, contains_iff_mem]; exact .inr hknown)
      exact ⟨x, mem_append_left _ hx, hxid⟩
  · intro x hx
    simp only [Bool.or_eq_true, contains_iff_mem, mem_cons]
    rcases mem_append.mp hx with hx | hx
    · have hknown := h.entryIds x hx
      rw [Bool.or_eq_true, contains_iff_mem] at hknown
      exact hknown.imp_right .inr
    · exact .inr (.inl (congrArg (·.id) (mem_singleton.mp hx)))

/-- The rest of an ordered forest passes validation. -/
theorem Mirrors.validateAll {seen : Seen} (h : Mirrors state seen older) (hforest : EntryForest (older ++ rest))
    (hord : (older ++ rest).Pairwise fun a b => a.seq < b.seq) (hseq : ∀ x ∈ rest, seen.previousSeq < x.seq) :
    validateWrites state seen (rest.map (.entry : Entry Body → CommittedWrite Body Val Use)) = .ok () := by
  induction rest generalizing seen older with
  | nil => rfl
  | cons e rest ih =>
    obtain ⟨hid, hparent⟩ := next_of_forest hforest hord
    obtain ⟨seen', hval, hmirrors, hprev⟩ := h.validate Val Use hid hparent (hseq e mem_cons_self)
    have hsplit : older ++ e :: rest = (older ++ [e]) ++ rest := by rw [append_assoc]; rfl
    rw [map_cons, validateWrites, hval]
    rw [hsplit] at hforest
    refine ih hmirrors hforest (hsplit ▸ hord) ?_
    rw [hprev]
    exact (pairwise_cons.mp (pairwise_append.mp hord).2.1).1

variable {writes : List (Write Body Val Use)} {timestamp : Nat}

theorem prepared_above {firstSeq : Nat} (hsafe : firstSeq + writes.length ≤ 2 ^ 53) :
    ∀ w ∈ prepareStorageCommit writes firstSeq timestamp, firstSeq ≤ w.seq := by
  induction writes generalizing firstSeq with
  | nil => simp [prepareStorageCommit]
  | cons write writes ih =>
    rw [length_cons] at hsafe
    intro w hw
    rw [prepareStorageCommit_cons] at hw
    rcases mem_cons.mp hw with rfl | hw
    · rw [commitWrite_seq, nearestDouble_of_le (by omega)]
    · have hle := ih (by omega) w hw
      omega

theorem inserted_above {firstSeq : Nat} (hsafe : firstSeq + writes.length ≤ 2 ^ 53)
    (he : e ∈ insertedEntries (prepareStorageCommit writes firstSeq timestamp)) : firstSeq ≤ e.seq := by
  obtain ⟨w, hw, hinserted⟩ := mem_filterMap.mp he
  have hle := prepared_above hsafe w hw
  cases w with
  | entry e' =>
    cases hinserted
    exact hle
  | usage row | setValue seq address value | deleteValue seq address | appendList seq address value | deleteList seq address =>
    cases hinserted

variable [UsageSum Use]

/-- Applying entries. -/
theorem applyValidated_entries (s : StorageState Body Val Use) (entries : List (Entry Body)) {bound : Nat}
    (hbelow : ∀ x ∈ entries, x.seq < bound) (hnext : s.nextSeq ≤ bound) (hbound : bound ≤ 2 ^ 53) :
    ∃ s', s.applyValidated (entries.map .entry) = (s', none) ∧ s'.entriesBySeq = s.entriesBySeq ++ entries ∧
      s'.usage = s.usage ∧ s'.nextSeq ≤ bound := by
  induction entries generalizing s with
  | nil => exact ⟨s, rfl, (append_nil _).symm, rfl, hnext⟩
  | cons e entries ih =>
    have hlt := hbelow e mem_cons_self
    have hdouble : nearestDouble (e.seq + 1) = e.seq + 1 := nearestDouble_of_le (by omega)
    obtain ⟨s', happly, hentries, husage, hnext'⟩ :=
      ih { s.insertEntry e with nextSeq := nearestDouble (e.seq + 1) } (fun x hx => hbelow x (mem_cons_of_mem _ hx))
        (by dsimp only; omega)
    refine ⟨s', happly, ?_, husage, hnext'⟩
    rw [hentries]
    exact append_assoc _ [e] entries

/-! ## Runs -/

/-- The entry writes of a commit. -/
def entryWrites (writes : List (CommittedWrite Body Val Use)) : List (CommittedWrite Body Val Use) :=
  (insertedEntries writes).map .entry

namespace Database

/-- A commit and its outcome; one that fails is rolled back. -/
def offer (db : Database Body Val Use) (bound : Binding Body) (writes : List (Write Body Val Use)) (timestamp : Nat) :
    Database Body Val Use × Except SqliteError (List (CommittedWrite Body Val Use)) :=
  match db.applyCommit bound writes timestamp with
  | .ok db' => (db', .ok (prepareStorageCommit writes db.nextSeq timestamp))
  | .error error => (db, .error error)

/-- The database after a sequence of commits, and those that were accepted. -/
def run (db : Database Body Val Use) (bound : Binding Body) :
    List (List (Write Body Val Use) × Nat) → Database Body Val Use × List (List (CommittedWrite Body Val Use))
  | [] => (db, [])
  | commit :: commits =>
    let rest := (db.offer bound commit.1 commit.2).1.run bound commits
    match (db.offer bound commit.1 commit.2).2 with
    | .ok writes => (rest.1, writes :: rest.2)
    | .error _ => rest

/-- The rows give back the texts and payloads of a commit; where it is accepted, its sequences are safe integers,
and of its entries those that are custom, and only those, have a custom type. -/
def Plain (db : Database Body Val Use) (bound : Binding Body) (writes : List (Write Body Val Use)) (timestamp : Nat) :
    Prop :=
  (prepareStorageCommit writes db.nextSeq timestamp).map bound.write = prepareStorageCommit writes db.nextSeq timestamp ∧
    ∀ db', db.applyCommit bound writes timestamp = .ok db' →
      db.nextSeq + writes.length ≤ JsNumber.MAX_SAFE_INTEGER + 1 ∧
        ∀ e ∈ insertedEntries (prepareStorageCommit writes db.nextSeq timestamp), e.type = .custom ↔ e.customType ≠ none

def PlainRun (db : Database Body Val Use) (bound : Binding Body) : List (List (Write Body Val Use) × Nat) → Prop
  | [] => True
  | commit :: commits => db.Plain bound commit.1 commit.2 ∧ (db.offer bound commit.1 commit.2).1.PlainRun bound commits

end Database

/-- The two storages after the same commits. -/
structure Parallel (db : Database Body Val Use) (memory : StorageState Body Val Use) : Prop where
  index : IndexedBelow db db.nextSeq
  tree : memory.Tree
  entries : memory.entriesBySeq = db.entries
  usage : memory.usage = []
  next : memory.nextSeq ≤ db.nextSeq
  custom : ∀ x ∈ db.entries, x.type = .custom → x.customType ≠ none

theorem empty_parallel : Parallel (Database.empty : Database Body Val Use) StorageState.empty where
  index := ⟨empty_indexed, by simp [Database.empty], by simp [Database.empty], Nat.one_pos⟩
  tree := StorageState.empty_tree
  entries := rfl
  usage := rfl
  next := Nat.le_refl _
  custom := by simp [Database.empty]

variable {memory : StorageState Body Val Use} {bound : Binding Body}

variable {db : Database Body Val Use}

omit [UsageSum Use] in
theorem Parallel.mirrors (h : Parallel db memory) :
    Mirrors memory.validation ⟨nearestDouble (memory.nextSeq - 1), [], []⟩ db.entries where
  ids := by
    intro id hknown
    have husage : memory.usage.has id = false := by
      rw [h.usage]
      rfl
    simp only [StorageState.validation, husage, Bool.or_false, contains_nil] at hknown
    rw [← h.entries]
    exact h.tree.has_entry.mp hknown
  entryIds := by
    intro e he
    rw [← h.entries] at he
    simp only [StorageState.validation, contains_nil, Bool.or_false]
    exact h.tree.has_entry.mpr ⟨e, he, rfl⟩

theorem toRow_eq (h : e.type = .custom ↔ e.customType ≠ none) : Database.toRow e = e := by
  unfold Database.toRow
  split
  · rfl
  · rename_i htype
    have hnone : e.customType = none := by
      by_contra hsome
      exact htype (h.mpr hsome)
    rw [← hnone]

/-- An accepted commit is accepted in memory too. -/
theorem Parallel.commit {db db' : Database Body Val Use} (h : Parallel db memory)
    (hplain : db.Plain bound writes timestamp) (hc : db.applyCommit bound writes timestamp = .ok db') :
    ∃ memory', Parallel db' memory' ∧ memory.offer (.committed (entryWrites (prepareStorageCommit writes db.nextSeq timestamp))) =
      (memory', .ok (entryWrites (prepareStorageCommit writes db.nextSeq timestamp))) := by
  obtain ⟨hkept, hplain⟩ := hplain
  obtain ⟨hsafe, hcustom⟩ := hplain db' hc
  obtain ⟨hindex, hentries⟩ := h.index.commit hc hkept hsafe
  have hnext : db'.nextSeq = db.nextSeq + writes.length := by
    obtain ⟨written, -, hc⟩ := bind_ok.mp hc
    cases hc
    exact nearestDouble_of_le hsafe
  obtain ⟨added, hadded⟩ : ∃ added, added = insertedEntries (prepareStorageCommit writes db.nextSeq timestamp) := ⟨_, rfl⟩
  unfold entryWrites
  rw [← hadded] at hcustom hentries ⊢
  have hrows : added.map Database.toRow = added := by
    rw [map_congr_left fun e he => toRow_eq (hcustom e he), map_id']
  rw [hrows] at hentries
  have hforest := hindex.indexed.forest
  have hord := hindex.ordered
  have hbelow : ∀ x ∈ added, x.seq < db'.nextSeq := by
    intro x hx
    refine hindex.below x ?_
    rw [hentries]
    exact mem_append_right _ hx
  rw [hentries] at hforest hord
  have hval : memory.validateCommitted (added.map .entry) = .ok () := by
    refine h.mirrors.validateAll hforest hord ?_
    intro x hx
    have hle := h.next
    have hpos := h.tree.positive
    have hsafe' := h.tree.safe
    have hge := inserted_above hsafe (hadded ▸ hx)
    dsimp only
    rw [nearestDouble_of_le (by omega)]
    omega
  obtain ⟨memory', happly, hadds, husage, hbound⟩ :=
    applyValidated_entries memory added hbelow (by have hle := h.next; omega) (hnext ▸ hsafe)
  have hsafeAll : ∀ w ∈ added.map (.entry : Entry Body → CommittedWrite Body Val Use), w.seq ≤ JsNumber.MAX_SAFE_INTEGER := by
    intro w hw
    obtain ⟨x, hx, rfl⟩ := mem_map.mp hw
    have hlt := hbelow x hx
    show x.seq ≤ JsNumber.MAX_SAFE_INTEGER
    omega
  obtain ⟨memory'', happly', htree, -⟩ := h.tree.reaches.batch hval hsafeAll (by rw [happly])
  have hsame : memory'' = memory' := congrArg Prod.fst (happly'.symm.trans happly)
  rw [hsame] at htree
  refine ⟨memory', ⟨hindex, htree, ?_, husage.trans h.usage, hbound, ?_⟩, ?_⟩
  · rw [hadds, h.entries, hentries]
  · rw [hentries]
    intro x hx
    rcases mem_append.mp hx with hx | hx
    · exact h.custom x hx
    · exact (hcustom x hx).mp
  · rw [StorageState.offer, hval]
    simp only [StorageState.applied, happly]

/-- All commits of a run. -/
theorem Parallel.run (h : Parallel db memory)
    {commits : List (List (Write Body Val Use) × Nat)} (hplain : db.PlainRun bound commits) :
    ∃ memory', Parallel (db.run bound commits).1 memory' ∧
      memory.run ((db.run bound commits).2.map fun writes => .committed (entryWrites writes)) =
        (memory', (db.run bound commits).2.map entryWrites) := by
  induction commits generalizing db memory with
  | nil => exact ⟨memory, h, rfl⟩
  | cons commit commits ih =>
    obtain ⟨hhead, hrest⟩ := hplain
    rw [Database.run]
    cases hc : db.applyCommit bound commit.1 commit.2 with
    | error error =>
      have hoffer : db.offer bound commit.1 commit.2 = (db, .error error) := by rw [Database.offer, hc]
      rw [hoffer] at hrest ⊢
      exact ih h hrest
    | ok db' =>
      have hoffer : db.offer bound commit.1 commit.2 =
          (db', .ok (prepareStorageCommit commit.1 db.nextSeq commit.2)) := by
        rw [Database.offer, hc]
      rw [hoffer] at hrest ⊢
      obtain ⟨memory₁, h₁, hoffer₁⟩ := h.commit hhead hc
      obtain ⟨memory', h', hrun⟩ := ih h₁ hrest
      refine ⟨memory', h', ?_⟩
      rw [map_cons, StorageState.run, hoffer₁]
      rw [hrun]
      rfl

/-! ## Scans -/

omit [UsageSum Use] in
/-- Following the parents in memory gives the path. -/
theorem Parallel.walk (h : Parallel db memory) {path : List (Entry Body)}
    (hpath : EntryPath db.entries e path) :
    ∀ fuel, e.seq < fuel → memory.walk fuel e = some (.ok path) := by
  induction hpath with
  | root hmem hparent =>
    intro fuel hfuel
    cases fuel with
    | zero => omega
    | succ fuel => rw [StorageState.walk, hparent]
  | @step a b l hmem hparent hpath ih =>
    intro fuel hfuel
    have hlt := h.index.indexed.forest.parent_eq hmem hparent hpath
    have hb : b ∈ memory.entriesBySeq := by
      rw [h.entries]
      exact hpath.mem_nodes b hpath.self_mem
    cases fuel with
    | zero => omega
    | succ fuel =>
      rw [StorageState.walk, hparent]
      dsimp only
      rw [h.tree.get_entry hb]
      dsimp only
      rw [ih fuel (by omega)]
      rfl

variable {query : BranchScan}

omit [UsageSum Use] in
/-- Neither storage finds a start that no entry has. -/
theorem Parallel.unknown (h : Parallel db memory)
    (hstart : ∀ e ∈ db.entries, e.id ≠ query.start) (fuel : Nat) :
    memory.scanBranch fuel query = some (.error (.unknownStart query.start)) ∧
      db.scanBranchEntries query = .error (.cacheMissing query.start) := by
  constructor
  · have hget : memory.entries.get query.start = none := by
      cases hget : memory.entries.get query.start with
      | none => rfl
      | some e =>
        obtain ⟨he, hid⟩ := h.tree.of_get hget
        rw [h.entries] at he
        exact absurd hid (hstart e he)
    rw [StorageState.scanBranch, hget]
  · have hnone : db.memberships query.start = [] := by
      rw [eq_nil_iff_forall_not_mem]
      intro q hq
      simp only [Database.memberships, mem_mergeSort, mem_filter, mem_flatMap, mem_map] at hq
      obtain ⟨⟨b, hb, m, -, rfl⟩, hcond⟩ := hq
      rw [Bool.and_eq_true, Bool.and_eq_true, decide_eq_true_eq] at hcond
      obtain ⟨x, hx, hbx⟩ := h.index.indexed.rows b hb
      refine hstart x hx ?_
      rw [← hcond.1.1, hbx]
      rfl
    rw [Database.scanBranchEntries, Database.readBranchSegmentsNewestFirst, Database.readBranchMembership, hnone]

/-- A limit that is absent, an integer of 64 bits, or not positive. -/
def Counted : Option Limit → Prop
  | none => True
  | some (.finite value) => value ≤ 0 ∨ value.den = 1 ∧ value.num < 2 ^ 63
  | some _ => False

omit [UsageSum Use] in
/-- A limit that is not positive ends both scans before they begin. -/
theorem scanSegments_spent {oldestFirst : Bool} {limit : Option Limit}
    (h : Database.spent limit = true) (segments : List BranchSegment) :
    db.scanSegments query oldestFirst limit segments = .ok [] := by
  cases segments with
  | nil => rw [Database.scanSegments]
  | cons segment segments => rw [Database.scanSegments, if_pos h]

omit [UsageSum Use] in
/-- From an entry both storages find the same. -/
theorem Parallel.scan (h : Parallel db memory) (he : e ∈ db.entries)
    (hstart : query.start = e.id) (hlimit : Counted query.limit) :
    ∃ found, db.scanBranchEntries query = .ok found ∧
      ∀ fuel, e.seq < fuel → memory.scanBranch fuel query = some (.ok found) := by
  obtain ⟨path, hpath⟩ := h.index.indexed.forest.path_exists he
  refine ⟨query.select path, ?_, ?_⟩
  · cases hl : query.limit with
    | none =>
      refine h.index.scanBranchEntries_eq hpath h.custom hstart (show query.limit = whole none from hl) ?_
      intro n hn
      cases hn
    | some limit =>
      rw [hl] at hlimit
      cases limit with
      | infinite | notANumber => exact hlimit.elim
      | finite value =>
        rcases hlimit with hle | ⟨hden, hfits⟩
        · obtain ⟨segments, hsegs, -⟩ := h.index.indexed.segments hpath
          have hselect : query.select path = [] := by
            unfold BranchScan.select
            rw [hl]
            exact if_pos hle
          have hspent : Database.spent query.limit = true := by
            rw [hl]
            exact decide_eq_true hle
          rw [Database.scanBranchEntries, hstart, hsegs]
          dsimp only
          rw [scanSegments_spent hspent, hselect]
          rfl
        · have hvalue : value = (value.num : Rat) := (Rat.den_eq_one_iff value).mp hden |>.symm
          refine h.index.scanBranchEntries_eq hpath h.custom hstart (show query.limit = whole (some value.num) from ?_) ?_
          · rw [hl]
            exact congrArg (fun v => some (Limit.finite v)) hvalue
          · intro n hn
            cases hn
            exact hfits
  · intro fuel hfuel
    have hget : memory.entries.get query.start = some e := by
      rw [hstart]
      exact h.tree.get_entry (h.entries ▸ he)
    rw [StorageState.scanBranch, hget]
    dsimp only
    rw [h.walk hpath fuel hfuel]
    rfl

/-- After every run of plain commits, a storage in memory that takes the same entries finds, by following the
parents, what the SQLite storage finds in its index, for every query whose texts a statement keeps. -/
theorem scan_of_plain (bound : Binding Body) {commits : List (List (Write Body Val Use) × Nat)}
    {db : Database Body Val Use} {accepted : List (List (CommittedWrite Body Val Use))}
    (hplain : (Database.empty : Database Body Val Use).PlainRun bound commits)
    (hrun : (Database.empty : Database Body Val Use).run bound commits = (db, accepted)) :
    ∃ memory : StorageState Body Val Use,
      StorageState.empty.run (accepted.map fun writes => .committed (entryWrites writes)) =
        (memory, accepted.map entryWrites) ∧
      (∀ query : BranchScan, bound.query query = query → (∀ e ∈ db.entries, e.id ≠ query.start) →
        db.scanBranch bound query = .error (.cacheMissing query.start) ∧
          ∀ fuel, memory.scanBranch fuel query = some (.error (.unknownStart query.start))) ∧
      ∀ query : BranchScan, bound.query query = query → (∃ e ∈ db.entries, e.id = query.start) →
        Counted query.limit →
        ∃ rounds found, db.scanBranch bound query = .ok found ∧
          ∀ fuel, rounds < fuel → memory.scanBranch fuel query = some (.ok found) := by
  obtain ⟨memory, hparallel, hmemory⟩ := empty_parallel.run hplain
  rw [hrun] at hparallel hmemory
  refine ⟨memory, hmemory, ?_, ?_⟩
  · intro query hkept hstart
    rw [Database.scanBranch, hkept]
    exact ⟨(hparallel.unknown hstart 0).2, fun fuel => (hparallel.unknown hstart fuel).1⟩
  · rintro query hkept ⟨e, he, hid⟩ hlimit
    rw [Database.scanBranch, hkept]
    obtain ⟨found, hfound, hscan⟩ := hparallel.scan he hid.symm hlimit
    exact ⟨e.seq, found, hfound, hscan⟩

/-! A root, a compaction under it, and a branch that leaves at the root. -/

def forked : List (List (Write Unit Nat Nat) × Nat) :=
  [([.entry (sampleEntry 1 none)], 100), ([.entry ⟨[2], some [1], .compaction, none, ()⟩, .entry (sampleEntry 3 (some 2))], 101),
    ([.entry (sampleEntry 4 (some 1)), .setValue ⟨[97], []⟩ 1], 102)]

/-- The branch of the last entry, newest first. -/
def forkedQuery : BranchScan := ⟨[4], .newestFirst, none, none, none, none, none, some (.finite 2)⟩

/-- A text ends at its first NUL, and a lone surrogate becomes a replacement character. -/
def sampleBinding : Binding Unit :=
  ⟨fun text => (text.takeWhile fun unit => unit ≠ 0).map fun unit => if 0xD800 ≤ unit ∧ unit < 0xE000 then 0xFFFD else unit,
    id⟩

theorem forked_plain : (Database.empty : Database Unit Nat Nat).PlainRun sampleBinding forked := by
  refine ⟨⟨rfl, ?_⟩, ⟨rfl, ?_⟩, ⟨rfl, ?_⟩, trivial⟩
  · intro db' _
    decide
  · intro db' _
    decide
  · intro db' _
    decide

theorem scan_of_plain_forked : ∃ memory : StorageState Unit Nat Nat, ∃ rounds found,
    ((Database.empty : Database Unit Nat Nat).run sampleBinding forked).1.scanBranch sampleBinding forkedQuery =
        .ok found ∧
      ∀ fuel, rounds < fuel → memory.scanBranch fuel forkedQuery = some (.ok found) := by
  obtain ⟨memory, -, -, hscan⟩ := scan_of_plain sampleBinding forked_plain rfl
  exact ⟨memory, hscan forkedQuery rfl (by decide +kernel) (.inr ⟨rfl, by decide⟩)⟩

/-- A message with a custom type, and a query for it. -/
def typed : List (List (Write Unit Nat Nat) × Nat) := [([.entry ⟨[1], none, .message, some [120], ()⟩], 100)]

def typedQuery (limit : Option Limit) : BranchScan := ⟨[1], .newestFirst, none, none, none, some [120], none, limit⟩

def typedMemory : StorageState Unit Nat Nat :=
  (StorageState.empty.run (((Database.empty : Database Unit Nat Nat).run sampleBinding typed).2.map fun writes =>
    .committed (entryWrites writes))).1

/-- The index has lost the custom type of the message, and it refuses a limit of three halves. -/
theorem custom_type_dropped :
    (((Database.empty : Database Unit Nat Nat).run sampleBinding typed).1.scanBranch sampleBinding
        (typedQuery none)).toOption = some [] ∧
      typedMemory.scanBranch 5 (typedQuery none) = some (.ok [⟨⟨[1], none, .message, some [120], ()⟩, 1, 100⟩]) ∧
      (((Database.empty : Database Unit Nat Nat).run sampleBinding typed).1.scanBranch sampleBinding
        (typedQuery (some (.finite (3 / 2))))).toOption = none ∧
      (typedMemory.scanBranch 5 (typedQuery (some (.finite (3 / 2))))).map (·.toOption.map List.length) = some (some 1) := by
  refine ⟨?_, rfl, ?_, ?_⟩
  · decide +kernel
  · decide +kernel
  · decide +kernel

end Shuvpi.Sqlite
