import Shuvpi.SqliteIndex

/-!
# Commits and the branch index

A commit numbers its writes above everything that is stored, inserts its entries one after
the other, and changes the index for each of them.
-/
namespace Shuvpi.Sqlite

open SessionTree
open List

variable {Body Val Use : Type} {db : Database Body Val Use} (e : Entry Body)

@[simp] theorem toRow_id : (Database.toRow e).id = e.id := by
  unfold Database.toRow
  split
  · rfl
  · rfl

@[simp] theorem toRow_parentId : (Database.toRow e).parentId = e.parentId := by
  unfold Database.toRow
  split
  · rfl
  · rfl

@[simp] theorem toRow_seq : (Database.toRow e).seq = e.seq := by
  unfold Database.toRow
  split
  · rfl
  · rfl

@[simp] theorem toRow_type : (Database.toRow e).type = e.type := by
  unfold Database.toRow
  split
  · rfl
  · rfl

/-- The index looks at the id, the parent, the sequence and the type of an entry only. -/
theorem appendEntryToBranchIndex_toRow (db : Database Body Val Use) (e : Entry Body) :
    db.appendEntryToBranchIndex (Database.toRow e) = db.appendEntryToBranchIndex e := by
  simp only [Database.appendEntryToBranchIndex, Database.createRootBranchForEntry, Database.createDivergentBranchForEntry,
    Database.appendEntryToExistingBranch, Database.insertBranchEntry, toRow_id, toRow_parentId, toRow_seq, toRow_type]

theorem insertEntryRow_ok {e : Entry Body} {db' : Database Body Val Use} (h : db.insertEntryRow e = .ok db') :
    db' = { db with entries := db.entries ++ [Database.toRow e] } ∧ (∀ x ∈ db.entries, x.id ≠ e.id) ∧
      ∀ p, e.parentId = some p → ∃ x ∈ db.entries, x.id = p := by
  unfold Database.insertEntryRow at h
  split at h
  · cases h
  · rename_i hparent
    split at h
    · cases h
    · split at h
      · cases h
      · rename_i hid
        cases h
        refine ⟨rfl, ?_, ?_⟩
        · intro x hx heq
          apply hid
          rw [any_eq_true]
          exact ⟨x, hx, by simp [heq]⟩
        · intro p hp
          rw [hp] at hparent
          simpa using hparent

/-- The index of the entries below a sequence. -/
structure IndexedBelow (db : Database Body Val Use) (bound : Nat) : Prop where
  indexed : Indexed db
  ordered : db.entries.Pairwise fun a b => a.seq < b.seq
  below : ∀ x ∈ db.entries, x.seq < bound
  positive : 0 < bound

/-- Tables that the index does not read may change. -/
theorem Indexed.frame {db' : Database Body Val Use} (h : Indexed db) (he : db'.entries = db.entries)
    (hm : db'.branchMeta = db.branchMeta) (hr : db'.branchEntries = db.branchEntries) : Indexed db' where
  forest := he ▸ h.forest
  positive := he ▸ h.positive
  rows := by
    rw [he, hr]
    exact h.rows
  once := hr ▸ h.once
  metaOnce := hm ▸ h.metaOnce
  branches := by
    rw [hm]
    intro m hmem
    obtain ⟨tip, path, hb⟩ := h.branches m hmem
    refine ⟨tip, path, he ▸ hb.isPath, hb.tipId, hb.tipSeq, ?_, ?_⟩
    · unfold Stores
      rw [he, hr]
      exact hb.stores
    · unfold Stores
      rw [hr]
      exact hb.base
  owned := by
    rw [hm, hr]
    exact h.owned
  covered := by
    unfold Stores
    rw [he, hr]
    exact h.covered

/-- An accepted entry. -/
theorem Indexed.entry {e : Entry Body} {db' : Database Body Val Use} (h : Indexed db) (hf : Fresh db e)
    (hc : ({ db with entries := db.entries ++ [e] } : Database Body Val Use).appendEntryToBranchIndex e = .ok db') :
    Indexed db' := by
  unfold Database.appendEntryToBranchIndex at hc
  split at hc
  · rename_i hroot
    exact h.createRoot hf hroot hc
  · rename_i parentId hparent
    split at hc
    · exact h.createDivergent hf hparent hc
    · rename_i branch hfound
      have htip : branch.tipEntryId = parentId := by simpa using find?_some hfound
      rw [← htip] at hparent
      exact h.appendExisting hf (mem_of_find?_eq_some hfound) hparent hc

variable {target : JsString}

theorem copyRows_frame {db db' : Database Body Val Use} {rows : List BranchEntryRow}
    (h : db.copyRows target rows = .ok db') :
    db' = { db with branchEntries := db'.branchEntries } := by
  rw [(copyRows_ok h).1]

theorem copySegments_frame {db db' : Database Body Val Use} {after : Nat}
    {segments : List BranchSegment} (h : db.copySegments target after segments = .ok db') :
    db' = { db with branchEntries := db'.branchEntries } := by
  induction segments generalizing db with
  | nil =>
    cases h
    rfl
  | cons s segments ih =>
    rw [Database.copySegments] at h
    split at h
    · exact ih h
    · obtain ⟨db₁, h₁, h₂⟩ := bind_ok.mp h
      rw [ih h₂, copyRows_frame h₁]

/-- An index operation changes the tables of the index only. -/
theorem appendEntryToBranchIndex_frame {e : Entry Body} {db db' : Database Body Val Use}
    (h : db.appendEntryToBranchIndex e = .ok db') :
    db' = { db with branchMeta := db'.branchMeta, branchEntries := db'.branchEntries } := by
  unfold Database.appendEntryToBranchIndex at h
  split at h
  · obtain ⟨db₁, h₁, h₂⟩ := bind_ok.mp h
    rw [(insertBranchEntryRow_ok h₂).1, (insertBranchMeta_ok h₁).1]
  · split at h
    · obtain ⟨segments, -, h⟩ := bind_ok.mp h
      obtain ⟨db₁, h₁, h⟩ := bind_ok.mp h
      obtain ⟨db₂, h₂, h₃⟩ := bind_ok.mp h
      rw [(insertBranchEntryRow_ok h₃).1, copySegments_frame h₂, (insertBranchMeta_ok h₁).1]
    · obtain ⟨db₁, h₁, h₂⟩ := bind_ok.mp h
      split at h₂
      · cases h₂
      · cases h₂
        rw [(insertBranchEntryRow_ok h₁).1]

/-- The entry that a write inserts. -/
def insertedEntry : CommittedWrite Body Val Use → Option (Entry Body)
  | .entry e => some e
  | _ => none

variable [UsageSum Use]

/-- One write of a commit, numbered above all entries. -/
theorem IndexedBelow.write {db db' : Database Body Val Use} {bound : Nat}
    (h : IndexedBelow db bound) {w : CommittedWrite Body Val Use} (hc : db.applyWrite w = .ok db')
    (hseq : bound ≤ w.seq) :
    IndexedBelow db' (w.seq + 1) ∧ db'.entries = db.entries ++ ((insertedEntry w).map Database.toRow).toList := by
  have hframe : db'.entries = db.entries → db'.branchMeta = db.branchMeta → db'.branchEntries = db.branchEntries →
      IndexedBelow db' (w.seq + 1) := by
    intro he hm hr
    refine ⟨h.indexed.frame he hm hr, he ▸ h.ordered, ?_, Nat.succ_pos _⟩
    rw [he]
    intro x hx
    have hlt := h.below x hx
    omega
  cases w with
  | entry e =>
    obtain ⟨db₁, h₁, hc⟩ := bind_ok.mp hc
    obtain ⟨db₂, h₂, hc⟩ := bind_ok.mp hc
    obtain ⟨hdb₁, hid, hparent⟩ := insertEntryRow_ok h₁
    have hf : Fresh db (Database.toRow e) := {
      id := by simpa using hid
      seq := by
        intro x hx
        rw [toRow_seq]
        exact (h.below x hx).trans_le hseq
      positive := by
        rw [toRow_seq]
        exact h.positive.trans_le hseq
      parent := by simpa using hparent }
    rw [hdb₁, ← appendEntryToBranchIndex_toRow] at h₂
    have hindexed := h.indexed.entry hf h₂
    have hentries : db₂.entries = db.entries ++ [Database.toRow e] := by rw [appendEntryToBranchIndex_frame h₂]
    have hdb' : db'.entries = db₂.entries ∧ db'.branchMeta = db₂.branchMeta ∧ db'.branchEntries = db₂.branchEntries := by
      cases hc
      split
      · exact ⟨rfl, rfl, rfl⟩
      · exact ⟨rfl, rfl, rfl⟩
    refine ⟨⟨hindexed.frame hdb'.1 hdb'.2.1 hdb'.2.2, ?_, ?_, Nat.succ_pos _⟩, hdb'.1.trans hentries⟩
    · rw [hdb'.1, hentries, pairwise_append]
      refine ⟨h.ordered, pairwise_singleton _ _, ?_⟩
      intro x hx y hy
      rw [mem_singleton.mp hy]
      exact hf.seq x hx
    · rw [hdb'.1, hentries]
      intro x hx
      rcases mem_append.mp hx with hx | hx
      · have hlt := h.below x hx
        have hle : bound ≤ e.seq := hseq
        omega
      · rw [mem_singleton.mp hx, toRow_seq]
        exact Nat.lt_succ_self _
  | usage row =>
    obtain ⟨db₁, h₁, hc⟩ := bind_ok.mp hc
    have hdb₁ : db₁.entries = db.entries ∧ db₁.branchMeta = db.branchMeta ∧ db₁.branchEntries = db.branchEntries := by
      unfold Database.insertUsageRow at h₁
      split at h₁
      · cases h₁
      · split at h₁
        · cases h₁
        · cases h₁
          exact ⟨rfl, rfl, rfl⟩
    cases hc
    exact ⟨hframe hdb₁.1 hdb₁.2.1 hdb₁.2.2, by simp [insertedEntry, hdb₁.1]⟩
  | setValue seq address value =>
    cases hc
    have hset : ∀ stored : StoredValue Val, db.setScalarValueRow stored =
        { db with scalarValues := (db.setScalarValueRow stored).scalarValues } := by
      intro stored
      unfold Database.setScalarValueRow
      split
      · rfl
      · rfl
    refine ⟨hframe ?_ ?_ ?_, ?_⟩
    · rw [hset]
    · rw [hset]
    · rw [hset]
    · rw [hset]
      simp [insertedEntry]
  | deleteValue | deleteList =>
    cases hc
    exact ⟨hframe rfl rfl rfl, by simp [insertedEntry]⟩
  | appendList seq address value =>
    rw [Database.applyWrite, Database.appendListValueRow] at hc
    split at hc
    · cases hc
    · cases hc
      exact ⟨hframe rfl rfl rfl, by simp [insertedEntry]⟩

/-- The entries that a list of writes inserts. -/
def insertedEntries (writes : List (CommittedWrite Body Val Use)) : List (Entry Body) := writes.filterMap insertedEntry

omit [UsageSum Use] in
theorem insertedEntries_cons (w : CommittedWrite Body Val Use) (writes : List (CommittedWrite Body Val Use)) :
    insertedEntries (w :: writes) = (insertedEntry w).toList ++ insertedEntries writes := by
  rw [insertedEntries, filterMap_cons]
  cases insertedEntry w with
  | none | some => rfl

/-- All writes of a commit. -/
theorem IndexedBelow.writes {db db' : Database Body Val Use}
    {writes : List (Write Body Val Use)} {firstSeq timestamp : Nat} (h : IndexedBelow db firstSeq)
    (hc : db.applyWrites (prepareStorageCommit writes firstSeq timestamp) = .ok db')
    (hsafe : firstSeq + writes.length ≤ 2 ^ 53) :
    IndexedBelow db' (firstSeq + writes.length) ∧ db'.entries =
      db.entries ++ (insertedEntries (prepareStorageCommit writes firstSeq timestamp)).map Database.toRow := by
  induction writes generalizing firstSeq db with
  | nil =>
    cases hc
    exact ⟨h, by simp [insertedEntries, prepareStorageCommit]⟩
  | cons write writes ih =>
    rw [length_cons] at hsafe
    rw [prepareStorageCommit_cons, nearestDouble_of_le (by omega)] at hc ⊢
    obtain ⟨db₁, h₁, hrest⟩ := bind_ok.mp hc
    obtain ⟨hbelow, hentries⟩ := h.write h₁ (by rw [commitWrite_seq])
    rw [commitWrite_seq] at hbelow
    obtain ⟨hbelow', hents'⟩ := ih hbelow hrest (by omega)
    refine ⟨?_, ?_⟩
    · have heq : firstSeq + (writes.length + 1) = firstSeq + 1 + writes.length := by omega
      rw [length_cons, heq]
      exact hbelow'
    · rw [hents', hentries, insertedEntries_cons, map_append, append_assoc]
      congr 2
      cases insertedEntry (commitWrite write firstSeq timestamp) with
      | none | some => rfl

/-- A commit that the storage accepts. -/
theorem IndexedBelow.commit {db db' : Database Body Val Use} {bound : Binding Body}
    {writes : List (Write Body Val Use)} {timestamp : Nat} (h : IndexedBelow db db.nextSeq)
    (hc : db.applyCommit bound writes timestamp = .ok db')
    (hkept : (prepareStorageCommit writes db.nextSeq timestamp).map bound.write =
      prepareStorageCommit writes db.nextSeq timestamp)
    (hsafe : db.nextSeq + writes.length ≤ 2 ^ 53) :
    IndexedBelow db' db'.nextSeq ∧ db'.entries =
      db.entries ++ (insertedEntries (prepareStorageCommit writes db.nextSeq timestamp)).map Database.toRow := by
  obtain ⟨written, hwrit, hc⟩ := bind_ok.mp hc
  cases hc
  rw [hkept] at hwrit
  obtain ⟨hbelow, hentries⟩ := h.writes hwrit hsafe
  refine ⟨?_, hentries⟩
  rw [nearestDouble_of_le hsafe]
  exact ⟨hbelow.indexed.frame rfl rfl rfl, hbelow.ordered, hbelow.below, hbelow.positive⟩

end Shuvpi.Sqlite
