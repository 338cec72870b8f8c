import Shuvpi.Ancestry
import Shuvpi.ExceptOk
import Shuvpi.SqliteStorage

/-!
# The branch index and the paths of the tree

Each branch of the index stores the part of the path to its tip that is newer than its
base, and its base stores the entry where that part begins. The segments that are read from
an entry then tile the path of the entry. An insert changes one branch only, which keeps
this for the others.
-/
namespace Shuvpi.Sqlite

open SessionTree
open Ancestry (Path Forest)
open List

variable {Body Val Use : Type}

/-- The path of an entry by its parents, newest first. -/
abbrev EntryPath (entries : List (Entry Body)) (e : Entry Body) (path : List (Entry Body)) : Prop :=
  Path (fun x : Entry Body => x.id) (fun x => x.parentId) entries e path

abbrev EntryForest (entries : List (Entry Body)) : Prop :=
  Forest (fun x : Entry Body => x.id) (fun x => x.parentId) (fun x => x.seq) entries

def rowOf (branchId : JsString) (x : Entry Body) : BranchEntryRow := ⟨branchId, x.id, x.seq, x.type⟩

def Stores (db : Database Body Val Use) (branchId : JsString) (x : Entry Body) : Prop := rowOf branchId x ∈ db.branchEntries

/-- A branch stores the path to its tip after its base. -/
structure Branch (db : Database Body Val Use) (m : BranchMetaRow) (tip : Entry Body) (path : List (Entry Body)) : Prop where
  isPath : EntryPath db.entries tip path
  tipId : tip.id = m.tipEntryId
  tipSeq : tip.seq = m.tipSeq
  stores : ∀ x ∈ db.entries, Stores db m.branchId x ↔ x ∈ path ∧ m.baseSeq.getD 0 < x.seq
  base : (m.baseBranchId = none ∧ m.baseSeq = none) ∨
    ∃ branchId, ∃ x ∈ path, m.baseBranchId = some branchId ∧ m.baseSeq = some x.seq ∧ Stores db branchId x

structure Indexed (db : Database Body Val Use) : Prop where
  forest : EntryForest db.entries
  positive : ∀ x ∈ db.entries, 0 < x.seq
  rows : ∀ b ∈ db.branchEntries, ∃ x ∈ db.entries, b = rowOf b.branchId x
  once : db.branchEntries.Nodup
  metaOnce : ∀ m ∈ db.branchMeta, ∀ m' ∈ db.branchMeta, m.branchId = m'.branchId → m = m'
  branches : ∀ m ∈ db.branchMeta, ∃ tip path, Branch db m tip path
  owned : ∀ b ∈ db.branchEntries, ∃ m ∈ db.branchMeta, m.branchId = b.branchId
  covered : ∀ x ∈ db.entries, ∃ branchId, Stores db branchId x

theorem empty_indexed [UsageSum Use] : Indexed (Database.empty : Database Body Val Use) where
  forest := ⟨by simp [Database.empty], by simp [Database.empty]⟩
  positive := by simp [Database.empty]
  rows := by simp [Database.empty]
  once := by simp [Database.empty]
  metaOnce := by simp [Database.empty]
  branches := by simp [Database.empty]
  owned := by simp [Database.empty]
  covered := by simp [Database.empty]

variable {db : Database Body Val Use}

/-! ## Segments -/

/-- The segments tile the part of a path up to a sequence. -/
def Tiles (db : Database Body Val Use) (path : List (Entry Body)) : Nat → List BranchSegment → Prop
  | upper, [] => upper = 0
  | upper, segment :: segments => segment.upperSeq = upper ∧ segment.lowerSeq < upper ∧
      (∃ m ∈ db.branchMeta, m.branchId = segment.branchId) ∧
      (∀ x ∈ db.entries, segment.lowerSeq < x.seq → x.seq ≤ upper → (Stores db segment.branchId x ↔ x ∈ path)) ∧
      Tiles db path segment.lowerSeq segments

variable {branchId : JsString} {m : BranchMetaRow}

theorem readBranchMeta_ok (hm : m ∈ db.branchMeta) (hid : m.branchId = branchId) :
    ∃ m' ∈ db.branchMeta, m'.branchId = branchId ∧ db.readBranchMeta branchId = .ok m' := by
  unfold Database.readBranchMeta
  cases hf : db.branchMeta.find? fun m => m.branchId = branchId with
  | none => exact absurd (find?_eq_none.mp hf m hm) (by simp [hid])
  | some m' => exact ⟨m', mem_of_find?_eq_some hf, by simpa using find?_some hf, rfl⟩

variable {e : Entry Body} {path : List (Entry Body)}

/-- The bases of a branch that stores an entry of a path tile the path up to that entry. -/
theorem Indexed.segmentsFrom (h : Indexed db) (hpath : EntryPath db.entries e path) {y : Entry Body} (hy : y ∈ path)
    (hs : Stores db branchId y) {fuel : Nat} (hfuel : y.seq < fuel) :
    ∃ segments, db.segmentsFrom fuel branchId y.seq = .ok segments ∧ Tiles db path y.seq segments := by
  induction fuel generalizing y branchId with
  | zero => omega
  | succ fuel ih =>
    obtain ⟨m₀, hm₀, hid₀⟩ := h.owned _ hs
    obtain ⟨m, hm, hid, hread⟩ := readBranchMeta_ok hm₀ hid₀
    have hread' : db.readBranchMeta branchId = .ok m := hread
    have hmid : m.branchId = branchId := hid
    obtain ⟨tip, p, hb⟩ := h.branches m hm
    have hyEntry : y ∈ db.entries := hpath.mem_nodes y hy
    have hyStored := (hb.stores y hyEntry).mp (hmid ▸ hs)
    -- both paths go through `y`, and below it they are the path of `y`
    obtain ⟨below, hbelow, hbelowIff⟩ := h.forest.path_below hpath hy
    have hbelowIff' := h.forest.path_between hb.isPath hyStored.1 hbelow
    have hrange : ∀ x ∈ db.entries, m.baseSeq.getD 0 < x.seq → x.seq ≤ y.seq → (Stores db branchId x ↔ x ∈ path) := by
      intro x hx hlower hupper
      rw [← hmid, hb.stores x hx]
      constructor
      · intro hx'
        exact ((hbelowIff x).mp ((hbelowIff' x).mpr ⟨hx'.1, hupper⟩)).1
      · intro hx'
        exact ⟨((hbelowIff' x).mp ((hbelowIff x).mpr ⟨hx', hupper⟩)).1, hlower⟩
    rw [Database.segmentsFrom, hread']
    rcases hb.base with ⟨hnone, hseq⟩ | ⟨base, x, hx, hbase, hseq, hstor⟩
    · refine ⟨[⟨branchId, 0, y.seq⟩], ?_, ?_⟩
      · simp only [hnone, hseq, Option.getD_none]
      · rw [hseq] at hrange
        exact ⟨rfl, h.positive y hyEntry, ⟨m, hm, hmid⟩, hrange, rfl⟩
    · have hlt : x.seq < y.seq := by
        have hlower := hyStored.2
        rw [hseq] at hlower
        exact hlower
      have hxPath : x ∈ path := ((hbelowIff x).mp ((hbelowIff' x).mpr ⟨hx, hlt.le⟩)).1
      obtain ⟨segments, hsegs, htiles⟩ := ih hxPath hstor (by omega)
      refine ⟨⟨branchId, x.seq, y.seq⟩ :: segments, ?_, ?_⟩
      · simp only [hbase, hseq, Option.getD_some, hsegs]
        rfl
      · rw [hseq] at hrange
        exact ⟨rfl, hlt, ⟨m, hm, hmid⟩, hrange, htiles⟩

/-- Every entry is stored by a branch that the membership query finds. -/
theorem Indexed.membership (h : Indexed db) (he : e ∈ db.entries) :
    ∃ b, db.readBranchMembership e.id = .ok b ∧ b.entrySeq = e.seq ∧ Stores db b.branchId e := by
  obtain ⟨branchId, hs⟩ := h.covered e he
  obtain ⟨m, hm, hid⟩ := h.owned _ hs
  have hmid : m.branchId = branchId := hid
  obtain ⟨tip, p, hb⟩ := h.branches m hm
  have hstor := (hb.stores e he).mp (hmid ▸ hs)
  have htip : e.seq ≤ m.tipSeq := hb.tipSeq ▸ (h.forest.path_rank hb.isPath).2 e hstor.1
  have hmem : (rowOf branchId e, m) ∈ db.memberships e.id := by
    simp only [Database.memberships, mem_mergeSort, mem_filter, mem_flatMap, mem_map]
    refine ⟨⟨rowOf branchId e, hs, m, ⟨hm, by simp [rowOf, hmid]⟩, rfl⟩, ?_⟩
    simp [rowOf, hstor.2, htip]
  cases hfound : db.memberships e.id with
  | nil =>
    rw [hfound] at hmem
    cases hmem
  | cons q found =>
    have hq : q ∈ db.memberships e.id := hfound ▸ mem_cons_self
    simp only [Database.memberships, mem_mergeSort, mem_filter, mem_flatMap, mem_map] at hq
    obtain ⟨⟨b, hbRow, m', ⟨hm', -⟩, hqeq⟩, hcond⟩ := hq
    have hqb : q.1 = b := by rw [← hqeq]
    have hbId : b.entryId = e.id := by
      rw [Bool.and_eq_true, Bool.and_eq_true, decide_eq_true_eq, hqb] at hcond
      exact hcond.1.1
    obtain ⟨x, hx, hbx⟩ := h.rows b hbRow
    have hxe : x = e := by
      refine h.forest.unique x hx e he ?_
      rw [hbx] at hbId
      exact hbId
    refine ⟨b, ?_, ?_, ?_⟩
    · unfold Database.readBranchMembership
      rw [hfound]
      exact congrArg _ hqb
    · rw [hbx, hxe]
      rfl
    · unfold Stores
      rw [← hxe, ← hbx]
      exact hbRow

/-- The segments that are read from an entry tile its path. -/
theorem Indexed.segments (h : Indexed db) (hpath : EntryPath db.entries e path) :
    ∃ segments, db.readBranchSegmentsNewestFirst e.id = .ok segments ∧ Tiles db path e.seq segments := by
  obtain ⟨b, hread, hseq, hstores⟩ := h.membership (hpath.mem_nodes e hpath.self_mem)
  obtain ⟨segments, hsegs, htiles⟩ := h.segmentsFrom hpath hpath.self_mem hstores (Nat.lt_succ_self _)
  refine ⟨segments, ?_, htiles⟩
  unfold Database.readBranchSegmentsNewestFirst
  rw [hread]
  dsimp only
  rw [hseq]
  exact hsegs

/-! ## A new entry -/

/-- An entry that is newer than all others, under a parent that is there. -/
structure Fresh (db : Database Body Val Use) (e : Entry Body) : Prop where
  id : ∀ x ∈ db.entries, x.id ≠ e.id
  seq : ∀ x ∈ db.entries, x.seq < e.seq
  positive : 0 < e.seq
  parent : ∀ p, e.parentId = some p → ∃ x ∈ db.entries, x.id = p

variable {x : Entry Body}

theorem rowOf_inj {branchId' : JsString} {y : Entry Body} (h : rowOf branchId x = rowOf branchId' y) :
    branchId = branchId' ∧ x.id = y.id := by
  simp only [rowOf, BranchEntryRow.mk.injEq] at h
  exact ⟨h.1, h.2.1⟩

theorem Fresh.forest (hf : Fresh db e) (h : EntryForest db.entries) : EntryForest (db.entries ++ [e]) where
  unique := by
    intro a ha b hb hid
    rcases mem_append.mp ha with ha | ha
    · rcases mem_append.mp hb with hb | hb
      · exact h.unique a ha b hb hid
      · rw [mem_singleton.mp hb] at hid
        exact absurd hid (hf.id a ha)
    · rcases mem_append.mp hb with hb | hb
      · rw [mem_singleton.mp ha] at hid
        exact absurd hid.symm (hf.id b hb)
      · rw [mem_singleton.mp ha, mem_singleton.mp hb]
  parents := by
    intro a ha p hp
    rcases mem_append.mp ha with ha | ha
    · obtain ⟨b, hb, hid, hlt⟩ := h.parents a ha p hp
      exact ⟨b, mem_append_left _ hb, hid, hlt⟩
    · rw [mem_singleton.mp ha] at hp ⊢
      obtain ⟨b, hb, hid⟩ := hf.parent p hp
      exact ⟨b, mem_append_left _ hb, hid, hf.seq b hb⟩

/-- What an insert does to the tables: it adds the entry, and rows of one branch. -/
structure Inserts (db db' : Database Body Val Use) (e : Entry Body) (target : JsString) (added : List BranchEntryRow) :
    Prop where
  entries : db'.entries = db.entries ++ [e]
  rows : db'.branchEntries = db.branchEntries ++ added
  targets : ∀ b ∈ added, b.branchId = target ∧ ∃ x ∈ db'.entries, b = rowOf target x
  self : rowOf target e ∈ added
  once : db'.branchEntries.Nodup
  metaOnce : ∀ m ∈ db'.branchMeta, ∀ m' ∈ db'.branchMeta, m.branchId = m'.branchId → m = m'
  others : ∀ m ∈ db'.branchMeta, m.branchId ≠ target → m ∈ db.branchMeta
  kept : ∀ m ∈ db.branchMeta, ∃ m' ∈ db'.branchMeta, m'.branchId = m.branchId
  owner : ∃ m ∈ db'.branchMeta, m.branchId = target

variable {db' : Database Body Val Use} {added : List BranchEntryRow} {target : JsString}
variable (hi : Inserts db db' e target added)
include hi

theorem Inserts.mem (hx : x ∈ db'.entries) : x ∈ db.entries ∨ x = e := by
  rw [hi.entries] at hx
  rcases mem_append.mp hx with hx | hx
  · exact .inl hx
  · exact .inr (mem_singleton.mp hx)

theorem Inserts.stores_iff (branchId : JsString) (x : Entry Body) :
    Stores db' branchId x ↔ Stores db branchId x ∨ rowOf branchId x ∈ added := by
  unfold Stores
  rw [hi.rows, mem_append]

theorem Inserts.stores_mono (hs : Stores db branchId x) : Stores db' branchId x :=
  (hi.stores_iff branchId x).mpr (.inl hs)

/-- Branches other than the one that is changed keep what they store. -/
theorem Inserts.stores_other (hne : branchId ≠ target) (x : Entry Body) :
    Stores db' branchId x ↔ Stores db branchId x := by
  rw [hi.stores_iff, or_iff_left]
  intro hs
  exact hne (hi.targets _ hs).1

omit hi

/-- A fresh entry is not stored before. -/
theorem Indexed.not_stored (h : Indexed db) (hf : Fresh db e) (branchId : JsString) :
    ¬ Stores db branchId e := by
  intro hs
  obtain ⟨x, hx, heq⟩ := h.rows _ hs
  exact hf.id x hx (rowOf_inj heq).2.symm

variable {tip : Entry Body}

theorem Fresh.not_on_path (hf : Fresh db e) (hp : EntryPath db.entries tip path) : e ∉ path := by
  intro he
  exact hf.id e (hp.mem_nodes e he) rfl

theorem Indexed.branch_other (h : Indexed db) (hf : Fresh db e) (hi : Inserts db db' e target added)
    (hne : m.branchId ≠ target) (hb : Branch db m tip path) :
    Branch db' m tip path where
  isPath := hb.isPath.mono (by intro x hx; rw [hi.entries]; exact mem_append_left _ hx)
  tipId := hb.tipId
  tipSeq := hb.tipSeq
  stores := by
    intro x hx
    rw [hi.stores_other hne]
    rcases hi.mem hx with hx | rfl
    · exact hb.stores x hx
    · exact ⟨fun hs => absurd hs (h.not_stored hf _), fun hs => absurd hs.1 (hf.not_on_path hb.isPath)⟩
  base := by
    rcases hb.base with hnone | ⟨branchId, x, hx, hbase, hseq, hs⟩
    · exact .inl hnone
    · exact .inr ⟨branchId, x, hx, hbase, hseq, hi.stores_mono hs⟩

/-- An insert keeps the index when the branch it changes is right. -/
theorem Indexed.insert (h : Indexed db) (hf : Fresh db e) (hi : Inserts db db' e target added)
    (htgt : ∀ m ∈ db'.branchMeta, m.branchId = target → ∃ tip path, Branch db' m tip path) : Indexed db' where
  forest := by
    rw [hi.entries]
    exact hf.forest h.forest
  positive := by
    intro x hx
    rcases hi.mem hx with hx | rfl
    · exact h.positive x hx
    · exact hf.positive
  rows := by
    intro b hb
    rw [hi.rows] at hb
    rcases mem_append.mp hb with hb | hb
    · obtain ⟨x, hx, heq⟩ := h.rows b hb
      refine ⟨x, ?_, heq⟩
      rw [hi.entries]
      exact mem_append_left _ hx
    · obtain ⟨hbranch, x, hx, heq⟩ := hi.targets b hb
      exact ⟨x, hx, hbranch ▸ heq⟩
  once := hi.once
  metaOnce := hi.metaOnce
  branches := by
    intro m hm
    by_cases hid : m.branchId = target
    · exact htgt m hm hid
    · obtain ⟨tip, path, hb⟩ := h.branches m (hi.others m hm hid)
      exact ⟨tip, path, h.branch_other hf hi hid hb⟩
  owned := by
    intro b hb
    rw [hi.rows] at hb
    rcases mem_append.mp hb with hb | hb
    · obtain ⟨m, hm, hid⟩ := h.owned b hb
      obtain ⟨m', hm', hid'⟩ := hi.kept m hm
      exact ⟨m', hm', hid'.trans hid⟩
    · obtain ⟨m, hm, hid⟩ := hi.owner
      exact ⟨m, hm, hid.trans (hi.targets b hb).1.symm⟩
  covered := by
    intro x hx
    rcases hi.mem hx with hx | rfl
    · obtain ⟨branchId, hs⟩ := h.covered x hx
      exact ⟨branchId, hi.stores_mono hs⟩
    · exact ⟨target, (hi.stores_iff target x).mpr (.inr hi.self)⟩

/-! ## Statements -/

theorem insertBranchEntryRow_ok {row : BranchEntryRow} (h : db.insertBranchEntryRow row = .ok db') :
    db' = { db with branchEntries := db.branchEntries ++ [row] } ∧ row ∉ db.branchEntries := by
  unfold Database.insertBranchEntryRow at h
  split at h
  · cases h
  · rename_i hnone
    cases h
    refine ⟨rfl, ?_⟩
    intro hmem
    apply hnone
    rw [any_eq_true]
    exact ⟨row, hmem, by simp⟩

theorem insertBranchMeta_ok (h : db.insertBranchMeta m = .ok db') :
    db' = { db with branchMeta := db.branchMeta ++ [m] } ∧ ∀ m' ∈ db.branchMeta, m'.branchId ≠ m.branchId := by
  unfold Database.insertBranchMeta at h
  split at h
  · cases h
  · rename_i hnone
    split at h
    · cases h
    · cases h
      refine ⟨rfl, ?_⟩
      intro m' hm' hid
      apply hnone
      rw [any_eq_true]
      exact ⟨m', hm', by simp [hid]⟩

theorem nodup_snoc {α : Type} {l : List α} {a : α} (hl : l.Nodup) (ha : a ∉ l) : (l ++ [a]).Nodup := by
  rw [nodup_append]
  refine ⟨hl, nodup_singleton a, ?_⟩
  intro x hx y hy heq
  rw [mem_singleton.mp hy] at heq
  exact ha (heq ▸ hx)

/-- The rows of new branches keep the ids of branches distinct. -/
theorem metaOnce_snoc {metas : List BranchMetaRow} (h : ∀ a ∈ metas, ∀ b ∈ metas, a.branchId = b.branchId → a = b)
    (hm : ∀ a ∈ metas, a.branchId ≠ m.branchId) :
    ∀ a ∈ metas ++ [m], ∀ b ∈ metas ++ [m], a.branchId = b.branchId → a = b := by
  intro a ha b hb hid
  rcases mem_append.mp ha with ha | ha
  · rcases mem_append.mp hb with hb | hb
    · exact h a ha b hb hid
    · rw [mem_singleton.mp hb] at hid
      exact absurd hid (hm a ha)
  · rcases mem_append.mp hb with hb | hb
    · rw [mem_singleton.mp ha] at hid
      exact absurd hid.symm (hm b hb)
    · rw [mem_singleton.mp ha, mem_singleton.mp hb]

/-! ## A root -/

theorem Indexed.no_rows (h : Indexed db) (hnew : ∀ m ∈ db.branchMeta, m.branchId ≠ branchId) (x : Entry Body) :
    ¬ Stores db branchId x := by
  intro hs
  obtain ⟨m, hm, hid⟩ := h.owned _ hs
  exact hnew m hm hid

theorem Indexed.createRoot (h : Indexed db) (hf : Fresh db e) (hroot : e.parentId = none)
    (hc : ({ db with entries := db.entries ++ [e] } : Database Body Val Use).createRootBranchForEntry e = .ok db') :
    Indexed db' := by
  obtain ⟨db₁, h₁, h₂⟩ := bind_ok.mp hc
  obtain ⟨rfl, hnew⟩ := insertBranchMeta_ok h₁
  obtain ⟨hdb', hrow⟩ := insertBranchEntryRow_ok h₂
  have hi : Inserts db db' e e.id [rowOf e.id e] := by
    subst hdb'
    exact {
      entries := rfl
      rows := rfl
      targets := by
        intro b hb
        rw [mem_singleton.mp hb]
        exact ⟨rfl, e, mem_append_right _ (mem_singleton.mpr rfl), rfl⟩
      self := mem_singleton.mpr rfl
      once := nodup_snoc h.once hrow
      metaOnce := metaOnce_snoc h.metaOnce hnew
      others := by
        intro m hm hne
        rcases mem_append.mp hm with hm | hm
        · exact hm
        · rw [mem_singleton.mp hm] at hne
          exact absurd rfl hne
      kept := fun m hm => ⟨m, mem_append_left _ hm, rfl⟩
      owner := ⟨_, mem_append_right _ (mem_singleton.mpr rfl), rfl⟩ }
  refine h.insert hf hi ?_
  subst hdb'
  intro m hm hid
  have hm' : m = ⟨e.id, e.id, e.seq, none, none⟩ := by
    rcases mem_append.mp hm with hm | hm
    · exact absurd hid (hnew m hm)
    · exact mem_singleton.mp hm
  subst hm'
  refine ⟨e, [e], .root (mem_append_right _ (mem_singleton.mpr rfl)) hroot, rfl, rfl, ?_, .inl ⟨rfl, rfl⟩⟩
  intro x hx
  rw [hi.stores_iff]
  constructor
  · rintro (hs | hs)
    · exact absurd hs (h.no_rows hnew x)
    · have hxid := (rowOf_inj (mem_singleton.mp hs)).2
      have hxe : x = e := by
        rcases hi.mem hx with hx | hx
        · exact absurd hxid (hf.id x hx)
        · exact hx
      rw [hxe]
      exact ⟨mem_singleton.mpr rfl, hf.positive⟩
  · rintro ⟨hxe, -⟩
    rw [mem_singleton.mp hxe]
    exact .inr hi.self

/-! ## A new tip -/

theorem Indexed.appendExisting (h : Indexed db) (hf : Fresh db e) {branch : BranchMetaRow}
    (hbranch : branch ∈ db.branchMeta) (hparent : e.parentId = some branch.tipEntryId)
    (hc : ({ db with entries := db.entries ++ [e] } : Database Body Val Use).appendEntryToExistingBranch branch.branchId e =
      .ok db') : Indexed db' := by
  obtain ⟨db₁, h₁, h₂⟩ := bind_ok.mp hc
  obtain ⟨rfl, hrow⟩ := insertBranchEntryRow_ok h₁
  split at h₂
  · cases h₂
  · have hdb' := Except.ok.inj h₂
    have hmem : ∀ m', m' ∈ db.branchMeta.map (fun m : BranchMetaRow => if m.branchId = branch.branchId then
        { m with tipEntryId := e.id, tipSeq := e.seq } else m) → (m'.branchId ≠ branch.branchId ∧ m' ∈ db.branchMeta) ∨
        m' = { branch with tipEntryId := e.id, tipSeq := e.seq } := by
      intro m' hm'
      obtain ⟨m, hm, rfl⟩ := mem_map.mp hm'
      by_cases hid : m.branchId = branch.branchId
      · rw [if_pos hid, h.metaOnce m hm branch hbranch hid]
        exact .inr rfl
      · rw [if_neg hid]
        exact .inl ⟨hid, hm⟩
    have hi : Inserts db db' e branch.branchId [rowOf branch.branchId e] := by
      subst hdb'
      exact {
        entries := rfl
        rows := rfl
        targets := by
          intro b hb
          rw [mem_singleton.mp hb]
          exact ⟨rfl, e, mem_append_right _ (mem_singleton.mpr rfl), rfl⟩
        self := mem_singleton.mpr rfl
        once := nodup_snoc h.once hrow
        metaOnce := by
          intro a ha b hb hid
          rcases hmem a ha with ⟨hane, ha⟩ | ha
          · rcases hmem b hb with ⟨-, hb⟩ | hb
            · exact h.metaOnce a ha b hb hid
            · rw [hb] at hid
              exact absurd hid hane
          · rcases hmem b hb with ⟨hbne, -⟩ | hb
            · rw [ha] at hid
              exact absurd hid.symm hbne
            · rw [ha, hb]
        others := by
          intro m hm hne
          rcases hmem m hm with ⟨-, hm⟩ | hm
          · exact hm
          · rw [hm] at hne
            exact absurd rfl hne
        kept := by
          intro m hm
          refine ⟨_, mem_map_of_mem hm, ?_⟩
          split
          · rfl
          · rfl
        owner := by
          refine ⟨_, mem_map_of_mem hbranch, ?_⟩
          rw [if_pos rfl] }
    refine h.insert hf hi ?_
    subst hdb'
    intro m hm hid
    have hm' : m = { branch with tipEntryId := e.id, tipSeq := e.seq } := by
      rcases hmem m hm with ⟨hne, -⟩ | hm
      · exact absurd hid hne
      · exact hm
    subst hm'
    obtain ⟨tip, path, hb⟩ := h.branches branch hbranch
    have hold : EntryPath (db.entries ++ [e]) tip path := hb.isPath.mono fun x hx => mem_append_left _ hx
    have hpath : EntryPath (db.entries ++ [e]) e (e :: path) :=
      .step (mem_append_right _ (mem_singleton.mpr rfl)) (hparent.trans (congrArg some hb.tipId.symm)) hold
    have hbase : branch.baseSeq.getD 0 < e.seq := by
      rcases hb.base with ⟨-, hnone⟩ | ⟨branchId, x, hx, -, hseq, -⟩
      · rw [hnone]
        exact hf.positive
      · rw [hseq]
        exact hf.seq x (hb.isPath.mem_nodes x hx)
    refine ⟨e, e :: path, hpath, rfl, rfl, ?_, ?_⟩
    · intro x hx
      rcases hi.mem hx with hx | rfl
      · have hxe : x ≠ e := fun heq => hf.id x hx (by rw [heq])
        have hnot : rowOf branch.branchId x ∉ [rowOf branch.branchId e] := fun hs =>
          hf.id x hx (rowOf_inj (mem_singleton.mp hs)).2
        rw [hi.stores_iff, or_iff_left hnot, hb.stores x hx, mem_cons, or_iff_right hxe]
      · exact ⟨fun _ => ⟨mem_cons_self, hbase⟩, fun _ => (hi.stores_iff _ x).mpr (.inr hi.self)⟩
    · rcases hb.base with hnone | ⟨branchId, x, hx, hbid, hseq, hs⟩
      · exact .inl hnone
      · exact .inr ⟨branchId, x, mem_cons_of_mem _ hx, hbid, hseq, hi.stores_mono hs⟩

/-! ## A divergent branch -/

variable {segment : BranchSegment} {b : BranchEntryRow}

/-- The rows of a segment, in terms of the entries they stand for. -/
theorem Indexed.mem_segmentRows (h : Indexed db) :
    b ∈ db.segmentRows segment ↔ ∃ x ∈ db.entries, Stores db segment.branchId x ∧ b = rowOf segment.branchId x ∧
      segment.lowerSeq < x.seq ∧ x.seq ≤ segment.upperSeq := by
  simp only [Database.segmentRows, mem_filter, Bool.and_eq_true, decide_eq_true_eq]
  constructor
  · rintro ⟨hb, ⟨hid, hlower⟩, hupper⟩
    obtain ⟨x, hx, hbx⟩ := h.rows b hb
    rw [hid] at hbx
    rw [hbx] at hlower hupper hb
    exact ⟨x, hx, hb, hbx, hlower, hupper⟩
  · rintro ⟨x, hx, hs, rfl, hlower, hupper⟩
    exact ⟨hs, ⟨rfl, hlower⟩, hupper⟩

variable {segments : List BranchSegment} {upper : Nat}

/-- The rows of tiling segments stand for the entries of the path. -/
theorem Tiles.rows (h : Indexed db) (ht : Tiles db path upper segments) (hseg : segment ∈ segments)
    (hb : b ∈ db.segmentRows segment) :
    ∃ x ∈ path, Stores db segment.branchId x ∧ b = rowOf segment.branchId x := by
  induction segments generalizing upper with
  | nil => cases hseg
  | cons s segments ih =>
    obtain ⟨hupper, hlt, -, hrange, hrest⟩ := ht
    rcases mem_cons.mp hseg with rfl | hseg
    · obtain ⟨x, hx, hs, rfl, hlower, hle⟩ := h.mem_segmentRows.mp hb
      exact ⟨x, (hrange x hx hlower (hupper ▸ hle)).mp hs, hs, rfl⟩
    · exact ih hrest hseg

/-- Every entry of the path is in one of the segments. -/
theorem Tiles.covers (h : Indexed db) (hpath : ∀ x ∈ path, x ∈ db.entries) (ht : Tiles db path upper segments)
    (hx : x ∈ path) (hle : x.seq ≤ upper) :
    ∃ segment ∈ segments, rowOf segment.branchId x ∈ db.segmentRows segment := by
  induction segments generalizing upper with
  | nil =>
    have hpos := h.positive x (hpath x hx)
    have hzero : upper = 0 := ht
    omega
  | cons s segments ih =>
    obtain ⟨hupper, hlt, -, hrange, hrest⟩ := ht
    by_cases hlower : s.lowerSeq < x.seq
    · refine ⟨s, mem_cons_self, h.mem_segmentRows.mpr ⟨x, hpath x hx, ?_, rfl, hlower, hupper ▸ hle⟩⟩
      exact (hrange x (hpath x hx) hlower hle).mpr hx
    · obtain ⟨segment, hseg, hrow⟩ := ih hrest (by omega)
      exact ⟨segment, mem_cons_of_mem _ hseg, hrow⟩

variable {seq after : Nat}

theorem readNewestCompactionBoundary_some
    (h : db.readNewestCompactionBoundary segments = some (branchId, seq)) :
    ∃ segment ∈ segments, segment.branchId = branchId ∧ ∃ b ∈ db.segmentRows segment, b.entrySeq = seq := by
  induction segments with
  | nil => cases h
  | cons s segments ih =>
    rw [Database.readNewestCompactionBoundary] at h
    split at h
    · rename_i seq' hmax
      cases h
      obtain ⟨b, hb, hseq⟩ := mem_map.mp (max?_mem hmax)
      exact ⟨s, mem_cons_self, rfl, b, (mem_filter.mp hb).1, hseq⟩
    · obtain ⟨segment, hseg, hrest⟩ := ih h
      exact ⟨segment, mem_cons_of_mem _ hseg, hrest⟩

variable {db : Database Body Val Use}

/-- Copied rows. -/
theorem copyRows_ok {rows : List BranchEntryRow} (h : db.copyRows target rows = .ok db') :
    db' = { db with branchEntries := db.branchEntries ++ rows.map fun b => { b with branchId := target } } ∧
      (db.branchEntries.Nodup → db'.branchEntries.Nodup) := by
  induction rows generalizing db with
  | nil =>
    cases h
    refine ⟨?_, fun hn => hn⟩
    rw [map_nil, append_nil]
  | cons b rows ih =>
    obtain ⟨db₁, h₁, h₂⟩ := bind_ok.mp h
    obtain ⟨hdb₁, hnew⟩ := insertBranchEntryRow_ok h₁
    obtain ⟨hdb', hnodup⟩ := ih h₂
    subst hdb₁
    refine ⟨?_, fun hn => hnodup (nodup_snoc hn hnew)⟩
    rw [hdb', map_cons]
    simp only [append_assoc, singleton_append]

theorem segmentRows_append (hadded : ∀ b ∈ added, b.branchId = target) (hne : segment.branchId ≠ target) :
    ({ db with branchEntries := db.branchEntries ++ added } : Database Body Val Use).segmentRows segment =
      db.segmentRows segment := by
  unfold Database.segmentRows
  rw [filter_append]
  have hnone : added.filter (fun b => b.branchId = segment.branchId && segment.lowerSeq < b.entrySeq &&
      b.entrySeq ≤ segment.upperSeq) = [] := by
    rw [filter_eq_nil_iff]
    intro b hb hcond
    rw [Bool.and_eq_true, Bool.and_eq_true, decide_eq_true_eq] at hcond
    exact hne (hcond.1.1.symm.trans (hadded b hb))
  rw [hnone, append_nil]

theorem mem_segmentRows_after :
    b ∈ db.segmentRows { segment with lowerSeq := max segment.lowerSeq after } ↔
      b ∈ db.segmentRows segment ∧ after < b.entrySeq := by
  simp only [Database.segmentRows, mem_filter, Bool.and_eq_true, decide_eq_true_eq]
  constructor
  · rintro ⟨hb, ⟨hid, hlower⟩, hupper⟩
    exact ⟨⟨hb, ⟨hid, by omega⟩, hupper⟩, by omega⟩
  · rintro ⟨⟨hb, ⟨hid, hlower⟩, hupper⟩, hafter⟩
    exact ⟨hb, ⟨hid, by omega⟩, hupper⟩

/-- The rows that a divergent branch copies. -/
theorem copySegments_ok (h : db.copySegments target after segments = .ok db')
    (hne : ∀ segment ∈ segments, segment.branchId ≠ target) :
    ∃ added, db' = { db with branchEntries := db.branchEntries ++ added } ∧
      (∀ row, row ∈ added ↔ ∃ segment ∈ segments, ∃ b ∈ db.segmentRows segment, after < b.entrySeq ∧
        row = { b with branchId := target }) ∧
      (db.branchEntries.Nodup → db'.branchEntries.Nodup) := by
  induction segments generalizing db with
  | nil =>
    cases h
    refine ⟨[], ?_, by simp, fun hn => hn⟩
    rw [append_nil]
  | cons s segments ih =>
    have hnes := hne s mem_cons_self
    have hnerest : ∀ segment ∈ segments, segment.branchId ≠ target := fun segment hseg =>
      hne segment (mem_cons_of_mem _ hseg)
    rw [Database.copySegments] at h
    split at h
    · -- nothing of this segment is newer
      rename_i hold
      obtain ⟨added, hdb', hmem, hnodup⟩ := ih h hnerest
      refine ⟨added, hdb', ?_, hnodup⟩
      intro row
      rw [hmem]
      constructor
      · rintro ⟨segment, hseg, hrest⟩
        exact ⟨segment, mem_cons_of_mem _ hseg, hrest⟩
      · rintro ⟨segment, hseg, b, hb, hafter, hrow⟩
        rcases mem_cons.mp hseg with rfl | hseg
        · simp only [Database.segmentRows, mem_filter, Bool.and_eq_true, decide_eq_true_eq] at hb
          omega
        · exact ⟨segment, hseg, b, hb, hafter, hrow⟩
    · obtain ⟨db₁, h₁, h₂⟩ := bind_ok.mp h
      obtain ⟨hdb₁, hnodup₁⟩ := copyRows_ok h₁
      obtain ⟨copied, hcopiedEq⟩ : ∃ copied, copied = (db.segmentRows { s with lowerSeq := max s.lowerSeq after }).map
        fun b => ({ b with branchId := target } : BranchEntryRow) := ⟨_, rfl⟩
      rw [← hcopiedEq] at hdb₁
      have hcopied : ∀ b ∈ copied, b.branchId = target := by
        intro b hb
        rw [hcopiedEq] at hb
        obtain ⟨b', -, rfl⟩ := mem_map.mp hb
        rfl
      obtain ⟨added, hdb', hmem, hnodup⟩ := ih h₂ hnerest
      refine ⟨copied ++ added, ?_, ?_, fun hn => hnodup (hnodup₁ hn)⟩
      · rw [hdb', hdb₁]
        simp only [append_assoc]
      · intro row
        rw [mem_append, hmem, hcopiedEq, mem_map]
        constructor
        · rintro (⟨b, hb, rfl⟩ | ⟨segment, hseg, b, hb, hafter, hrow⟩)
          · obtain ⟨hb, hafter⟩ := mem_segmentRows_after.mp hb
            exact ⟨s, mem_cons_self, b, hb, hafter, rfl⟩
          · rw [hdb₁, segmentRows_append hcopied (hnerest segment hseg)] at hb
            exact ⟨segment, mem_cons_of_mem _ hseg, b, hb, hafter, hrow⟩
        · rintro ⟨segment, hseg, b, hb, hafter, hrow⟩
          rcases mem_cons.mp hseg with rfl | hseg
          · exact .inl ⟨b, mem_segmentRows_after.mpr ⟨hb, hafter⟩, hrow.symm⟩
          · refine .inr ⟨segment, hseg, b, ?_, hafter, hrow⟩
            rw [hdb₁, segmentRows_append hcopied (hnerest segment hseg)]
            exact hb

variable {db₁ : Database Body Val Use}

/-- The index is read from its own tables only. -/
theorem segmentsFrom_congr (hmeta : db₁.branchMeta = db.branchMeta) (fuel : Nat) (branchId : JsString) (upper : Nat) :
    db₁.segmentsFrom fuel branchId upper = db.segmentsFrom fuel branchId upper := by
  induction fuel generalizing branchId upper with
  | zero => rfl
  | succ fuel ih =>
    simp only [Database.segmentsFrom, Database.readBranchMeta, hmeta, ih]

theorem readBranchSegments_congr (hmeta : db₁.branchMeta = db.branchMeta)
    (hrows : db₁.branchEntries = db.branchEntries) (start : JsString) :
    db₁.readBranchSegmentsNewestFirst start = db.readBranchSegmentsNewestFirst start := by
  simp only [Database.readBranchSegmentsNewestFirst, Database.readBranchMembership, Database.memberships, hmeta, hrows,
    segmentsFrom_congr hmeta]

theorem readNewestCompactionBoundary_congr (hrows : db₁.branchEntries = db.branchEntries)
    (segments : List BranchSegment) :
    db₁.readNewestCompactionBoundary segments = db.readNewestCompactionBoundary segments := by
  induction segments with
  | nil => rfl
  | cons s segments ih =>
    simp only [Database.readNewestCompactionBoundary, Database.segmentRows, hrows, ih]

theorem Tiles.known (ht : Tiles db path upper segments) (hseg : segment ∈ segments) :
    ∃ m ∈ db.branchMeta, m.branchId = segment.branchId := by
  induction segments generalizing upper with
  | nil => cases hseg
  | cons s segments ih =>
    obtain ⟨-, -, hknown, -, hrest⟩ := ht
    rcases mem_cons.mp hseg with rfl | hseg
    · exact hknown
    · exact ih hrest hseg

/-- The base of a divergent branch, if it gets one, stores the compaction on the path. -/
theorem Indexed.boundary (h : Indexed db) (ht : Tiles db path upper segments)
    (hc : db.readNewestCompactionBoundary segments = some (branchId, seq)) :
    ∃ x ∈ path, x.seq = seq ∧ Stores db branchId x := by
  obtain ⟨segment, hseg, hid, b, hb, hbseq⟩ := readNewestCompactionBoundary_some hc
  obtain ⟨x, hx, hs, hbx⟩ := ht.rows h hseg hb
  refine ⟨x, hx, ?_, hid ▸ hs⟩
  rw [hbx] at hbseq
  exact hbseq

theorem Indexed.createDivergent (h : Indexed db) (hf : Fresh db e) {parentId : JsString}
    (hparent : e.parentId = some parentId)
    (hc : ({ db with entries := db.entries ++ [e] } : Database Body Val Use).createDivergentBranchForEntry e parentId =
      .ok db') : Indexed db' := by
  obtain ⟨p, hp, rfl⟩ := hf.parent parentId hparent
  obtain ⟨path, hpath⟩ := h.forest.path_exists hp
  obtain ⟨segments, hsegs, htiles⟩ := h.segments hpath
  obtain ⟨db₁, hdb₁⟩ : ∃ db₁ : Database Body Val Use, db₁ = { db with entries := db.entries ++ [e] } := ⟨_, rfl⟩
  rw [← hdb₁] at hc
  have hmeta₁ : db₁.branchMeta = db.branchMeta := by rw [hdb₁]
  have hrows₁ : db₁.branchEntries = db.branchEntries := by rw [hdb₁]
  obtain ⟨segments', hread, hc⟩ := bind_ok.mp hc
  rw [readBranchSegments_congr hmeta₁ hrows₁, hsegs] at hread
  cases hread
  obtain ⟨db₂, hmeta, hc⟩ := bind_ok.mp hc
  obtain ⟨boundary, hbound⟩ : ∃ boundary, boundary = db.readNewestCompactionBoundary segments := ⟨_, rfl⟩
  rw [readNewestCompactionBoundary_congr hrows₁, ← hbound] at hmeta hc
  obtain ⟨hdb₂, hnew⟩ := insertBranchMeta_ok hmeta
  obtain ⟨db₃, hcopy, hrow⟩ := bind_ok.mp hc
  rw [hmeta₁] at hnew
  have hne : ∀ segment ∈ segments.reverse, segment.branchId ≠ e.id := by
    intro segment hseg hid
    obtain ⟨m, hm, hmid⟩ := htiles.known (mem_reverse.mp hseg)
    exact hnew m hm (hmid.trans hid)
  obtain ⟨copied, hdb₃, hcopied, hnodup⟩ := copySegments_ok hcopy hne
  obtain ⟨hdb', hrowNew⟩ := insertBranchEntryRow_ok hrow
  obtain ⟨after, hafter⟩ : ∃ after, after = (boundary.map Prod.snd).getD 0 := ⟨_, rfl⟩
  rw [← hafter] at hcopied
  have hpathLe : ∀ x ∈ path, x.seq ≤ p.seq := (h.forest.path_rank hpath).2
  -- the copied rows are the entries of the path after the boundary
  have hcopiedIff : ∀ row, row ∈ copied ↔ ∃ x ∈ path, after < x.seq ∧ row = rowOf e.id x := by
    intro row
    rw [hcopied]
    constructor
    · rintro ⟨segment, hseg, b, hb, hafterb, rfl⟩
      have hb' : b ∈ db.segmentRows segment := by
        rw [hdb₂, hdb₁] at hb
        exact hb
      obtain ⟨x, hx, -, hbx⟩ := htiles.rows h (mem_reverse.mp hseg) hb'
      refine ⟨x, hx, ?_, ?_⟩
      · rw [hbx] at hafterb
        exact hafterb
      · rw [hbx]
        rfl
    · rintro ⟨x, hx, hafterx, rfl⟩
      obtain ⟨segment, hseg, hb⟩ := htiles.covers h hpath.mem_nodes hx (hpathLe x hx)
      refine ⟨segment, mem_reverse.mpr hseg, rowOf segment.branchId x, ?_, hafterx, rfl⟩
      rw [hdb₂, hdb₁]
      exact hb
  have hafterLt : after < e.seq := by
    rw [hafter]
    cases hb : boundary with
    | none => exact hf.positive
    | some q =>
      obtain ⟨x, hx, hxseq, -⟩ := h.boundary htiles (hbound.symm.trans hb)
      have hlt := hf.seq x (hpath.mem_nodes x hx)
      rw [hxseq] at hlt
      exact hlt
  have hentries : db'.entries = db.entries ++ [e] := by rw [hdb', hdb₃, hdb₂, hdb₁]
  have hi : Inserts db db' e e.id (copied ++ [rowOf e.id e]) := {
    entries := hentries
    rows := by
      rw [hdb', hdb₃, hdb₂, hdb₁]
      simp only [append_assoc]
      rfl
    targets := by
      intro b hb
      rcases mem_append.mp hb with hb | hb
      · obtain ⟨x, hx, -, rfl⟩ := (hcopiedIff b).mp hb
        refine ⟨rfl, x, ?_, rfl⟩
        rw [hentries]
        exact mem_append_left _ (hpath.mem_nodes x hx)
      · rw [mem_singleton.mp hb]
        refine ⟨rfl, e, ?_, rfl⟩
        rw [hentries]
        exact mem_append_right _ (mem_singleton.mpr rfl)
    self := mem_append_right _ (mem_singleton.mpr rfl)
    once := by
      have hnodup₂ : db₂.branchEntries.Nodup := by
        rw [hdb₂, hdb₁]
        exact h.once
      rw [hdb']
      exact nodup_snoc (hnodup hnodup₂) hrowNew
    metaOnce := by
      rw [hdb', hdb₃, hdb₂, hdb₁]
      exact metaOnce_snoc h.metaOnce hnew
    others := by
      rw [hdb', hdb₃, hdb₂, hdb₁]
      intro m hm hmne
      rcases mem_append.mp hm with hm | hm
      · exact hm
      · rw [mem_singleton.mp hm] at hmne
        exact absurd rfl hmne
    kept := by
      rw [hdb', hdb₃, hdb₂, hdb₁]
      exact fun m hm => ⟨m, mem_append_left _ hm, rfl⟩
    owner := by
      rw [hdb', hdb₃, hdb₂, hdb₁]
      exact ⟨_, mem_append_right _ (mem_singleton.mpr rfl), rfl⟩ }
  refine h.insert hf hi ?_
  intro m hm hid
  have hm' : m = ⟨e.id, e.id, e.seq, boundary.map Prod.fst, boundary.map Prod.snd⟩ := by
    rw [hdb', hdb₃, hdb₂, hdb₁] at hm
    rcases mem_append.mp hm with hm | hm
    · exact absurd hid (hnew m hm)
    · exact mem_singleton.mp hm
  subst hm'
  have hold : EntryPath (db.entries ++ [e]) p path := hpath.mono fun x hx => mem_append_left _ hx
  refine ⟨e, e :: path, ?_, rfl, rfl, ?_, ?_⟩
  · rw [hentries]
    exact .step (mem_append_right _ (mem_singleton.mpr rfl)) hparent hold
  · intro x hx
    rw [hi.stores_iff, ← hafter, or_iff_right (h.no_rows hnew x), mem_append, hcopiedIff]
    rcases hi.mem hx with hx | rfl
    · have hxe : x ≠ e := fun heq => hf.id x hx (by rw [heq])
      have hnot : rowOf e.id x ∉ [rowOf e.id e] := fun hs => hf.id x hx (rowOf_inj (mem_singleton.mp hs)).2
      rw [or_iff_left hnot, mem_cons, or_iff_right hxe]
      constructor
      · rintro ⟨y, hy, hafty, heq⟩
        have hxy : x = y := h.forest.unique x hx y (hpath.mem_nodes y hy) (rowOf_inj heq).2
        rw [hxy]
        exact ⟨hy, hafty⟩
      · exact fun hxs => ⟨x, hxs.1, hxs.2, rfl⟩
    · exact ⟨fun _ => ⟨mem_cons_self, hafterLt⟩, fun _ => .inr (mem_singleton.mpr rfl)⟩
  · cases hb : boundary with
    | none => exact .inl ⟨rfl, rfl⟩
    | some q =>
      obtain ⟨x, hx, hxseq, hs⟩ := h.boundary htiles (hbound.symm.trans hb)
      exact .inr ⟨q.1, x, mem_cons_of_mem _ hx, rfl, congrArg some hxseq.symm, hi.stores_mono hs⟩

end Shuvpi.Sqlite
