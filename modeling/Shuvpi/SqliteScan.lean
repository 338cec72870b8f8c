import Shuvpi.SqliteCommits

/-!
# Scans of a branch

A scan over the segments of the index returns what a scan over the path of parents returns:
a segment holds its part of the path, the first row that stops a segment is where the scan
of that part stops, and the parts follow one another.
-/
namespace Shuvpi.Sqlite

open SessionTree
open SegmentScan
open List Option

variable {Body Val Use : Type} {db : Database Body Val Use}

/-! ## The parts of a path -/

/-- The part of a path in the range of a segment. -/
def part (path : List (Entry Body)) (segment : BranchSegment) : List (Entry Body) :=
  path.filter fun x => segment.lowerSeq < x.seq && x.seq ≤ segment.upperSeq

def orderedPart (oldestFirst : Bool) (path : List (Entry Body)) (segment : BranchSegment) : List (Entry Body) :=
  if oldestFirst then (part path segment).reverse else part path segment

variable {path : List (Entry Body)} {upper : Nat}

/-- Of a list with falling keys, what is at most a bound is what is above a lower one, and then the rest. -/
theorem filter_split (hsort : path.Pairwise fun x y => y.seq < x.seq) {lower : Nat} (hle : lower ≤ upper) :
    path.filter (fun x => decide (x.seq ≤ upper)) =
      path.filter (fun x => lower < x.seq && x.seq ≤ upper) ++ path.filter fun x => decide (x.seq ≤ lower) := by
  induction path with
  | nil => rfl
  | cons x path ih =>
    rw [pairwise_cons] at hsort
    have hrest := ih hsort.2
    by_cases hlower : x.seq ≤ lower
    · -- the rest is lower still
      have hnone : (x :: path).filter (fun x => lower < x.seq && x.seq ≤ upper) = [] := by
        rw [filter_eq_nil_iff]
        intro y hy hcond
        rw [Bool.and_eq_true, decide_eq_true_eq, decide_eq_true_eq] at hcond
        rcases mem_cons.mp hy with rfl | hy
        · omega
        · have hlt := hsort.1 y hy
          omega
      rw [hnone, nil_append]
      refine filter_congr ?_
      intro y hy
      rw [decide_eq_decide]
      rcases mem_cons.mp hy with rfl | hy
      · omega
      · have hlt := hsort.1 y hy
        omega
    · have hlt : lower < x.seq := Nat.lt_of_not_le hlower
      by_cases hupper : x.seq ≤ upper
      · simp only [filter_cons, hlt, hupper, hlower, decide_true, decide_false, Bool.and_self, if_true,
          Bool.false_eq_true, if_false, hrest, cons_append]
      · simp only [filter_cons, hlt, hupper, hlower, decide_true, decide_false, Bool.and_false,
          Bool.false_eq_true, if_false, hrest]

variable {segments : List BranchSegment}

variable (hsort : path.Pairwise fun x y => y.seq < x.seq)
include hsort

/-- The parts of tiling segments make up the path. -/
theorem Tiles.flatten (ht : Tiles db path upper segments)
    (hpos : ∀ x ∈ path, 0 < x.seq) :
    (segments.map (part path)).flatten = path.filter fun x => decide (x.seq ≤ upper) := by
  induction segments generalizing upper with
  | nil =>
    have hzero : upper = 0 := ht
    rw [map_nil, flatten_nil, eq_comm, filter_eq_nil_iff]
    intro x hx hle
    have hlt := hpos x hx
    rw [decide_eq_true_eq] at hle
    omega
  | cons s segments ih =>
    obtain ⟨hupper, hlt, -, -, hrest⟩ := ht
    rw [map_cons, flatten_cons, ih hrest, filter_split hsort hlt.le, ← hupper]
    rfl

theorem orderedPart_sorted (oldestFirst : Bool)
    (segment : BranchSegment) :
    (orderedPart oldestFirst path segment).Pairwise fun x y => lt oldestFirst x.seq y.seq = true := by
  have hpart : (part path segment).Pairwise fun x y => y.seq < x.seq := hsort.filter _
  unfold orderedPart
  cases oldestFirst with
  | true =>
    rw [if_pos rfl, pairwise_reverse]
    exact hpart.imp fun hxy => by simpa [lt] using hxy
  | false =>
    rw [if_neg Bool.false_ne_true]
    exact hpart.imp fun hxy => by simpa [lt] using hxy

omit hsort

variable {oldestFirst : Bool} {segment : BranchSegment}

theorem mem_orderedPart {x : Entry Body} :
    x ∈ orderedPart oldestFirst path segment ↔ x ∈ path ∧ segment.lowerSeq < x.seq ∧ x.seq ≤ segment.upperSeq := by
  unfold orderedPart part
  cases oldestFirst <;> simp

/-- The parts in the order of the scan. -/
theorem flatten_ordered (hflat : (segments.map (part path)).flatten = path) (oldestFirst : Bool) :
    ((if oldestFirst then segments.reverse else segments).map (orderedPart oldestFirst path)).flatten =
      if oldestFirst then path.reverse else path := by
  cases oldestFirst with
  | false =>
    have hpart : orderedPart false path = part path := by
      funext segment
      exact if_neg Bool.false_ne_true
    rw [if_neg Bool.false_ne_true, if_neg Bool.false_ne_true, hpart, hflat]
  | true =>
    have hpart : orderedPart true path = fun segment => (part path segment).reverse := by
      funext segment
      exact if_pos rfl
    rw [if_pos rfl, if_pos rfl, hpart, ← hflat, List.reverse_flatten, List.map_map, List.map_reverse, hflat]
    rfl

/-! ## One segment -/

theorem first_congr {ascending : Bool} {l l' : List Nat} (h : ∀ n, n ∈ l ↔ n ∈ l') : first ascending l = first ascending l' := by
  cases hl : first ascending l with
  | none =>
    rw [first_eq_none] at hl
    subst hl
    refine (first_eq_none.mpr ?_).symm
    exact eq_nil_iff_forall_not_mem.mpr fun n hn => nomatch (h n).mpr hn
  | some m =>
    obtain ⟨hmem, hleast⟩ := first_eq_some.mp hl
    exact (first_eq_some.mpr ⟨(h m).mp hmem, fun a ha => hleast a ((h a).mpr ha)⟩).symm

/-- A segment that stores its part of a path. -/
def StoresPart (db : Database Body Val Use) (path : List (Entry Body)) (segment : BranchSegment) : Prop :=
  ∀ x ∈ db.entries, segment.lowerSeq < x.seq → x.seq ≤ segment.upperSeq → (Stores db segment.branchId x ↔ x ∈ path)

theorem Tiles.storesPart (ht : Tiles db path upper segments) : ∀ segment ∈ segments, StoresPart db path segment := by
  induction segments generalizing upper with
  | nil => simp
  | cons s segments ih =>
    obtain ⟨hupper, -, -, hrange, hrest⟩ := ht
    intro segment hseg
    rcases mem_cons.mp hseg with rfl | hseg
    · intro x hx hlower hle
      exact hrange x hx hlower (hupper ▸ hle)
    · exact ih hrest segment hseg

theorem Indexed.mem_part_rows (h : Indexed db) (hpath : ∀ x ∈ path, x ∈ db.entries) (hs : StoresPart db path segment)
    (oldestFirst : Bool) {b : BranchEntryRow} :
    b ∈ db.segmentRows segment ↔ ∃ x ∈ orderedPart oldestFirst path segment, b = rowOf segment.branchId x := by
  rw [h.mem_segmentRows]
  constructor
  · rintro ⟨x, hx, hstor, hb, hlower, hupper⟩
    exact ⟨x, mem_orderedPart.mpr ⟨(hs x hx hlower hupper).mp hstor, hlower, hupper⟩, hb⟩
  · rintro ⟨x, hx, hb⟩
    obtain ⟨hxpath, hlower, hupper⟩ := mem_orderedPart.mp hx
    exact ⟨x, hpath x hxpath, (hs x (hpath x hxpath) hlower hupper).mpr hxpath, hb, hlower, hupper⟩

theorem stops_rowOf (query : BranchScan) (branchId : JsString) (x : Entry Body) :
    Database.stops query (rowOf branchId x) = query.stopsAt x := by
  simp only [Database.stops, BranchScan.stopsAt, rowOf]
  exact Bool.or_comm _ _

/-- The sequence at which the part of a segment stops. -/
theorem Indexed.readStopSeq_eq (h : Indexed db) (hpath : ∀ x ∈ path, x ∈ db.entries) (hs : StoresPart db path segment)
    (query : BranchScan) (oldestFirst : Bool) :
    db.readStopSeq segment query oldestFirst =
      first oldestFirst (((orderedPart oldestFirst path segment).filter query.stopsAt).map (·.seq)) := by
  refine first_congr ?_
  intro n
  simp only [List.mem_map, List.mem_filter]
  constructor
  · rintro ⟨b, ⟨hb, hstop⟩, rfl⟩
    obtain ⟨x, hx, rfl⟩ := (h.mem_part_rows hpath hs oldestFirst).mp hb
    rw [stops_rowOf] at hstop
    exact ⟨x, ⟨hx, hstop⟩, rfl⟩
  · rintro ⟨x, ⟨hx, hstop⟩, rfl⟩
    refine ⟨rowOf segment.branchId x, ⟨(h.mem_part_rows hpath hs oldestFirst).mpr ⟨x, hx, rfl⟩, ?_⟩, rfl⟩
    rw [stops_rowOf]
    exact hstop

variable {query : BranchScan}

/-- What a segment returns of its part, in terms of the sequence at which it stops. -/
theorem takeThrough_filter_eq {list : List (Entry Body)}
    (hsort : list.Pairwise fun x y => lt oldestFirst x.seq y.seq = true) {stopSeq : Option Nat}
    (hstop : first oldestFirst ((list.filter query.stopsAt).map (·.seq)) = stopSeq) :
    takeThrough query.stopsAt list = list.filter fun x => stopSeq.all fun seq => le oldestFirst x.seq seq := by
  cases stopSeq with
  | none =>
    have hnone : list.any query.stopsAt = false := by
      rw [first_eq_none, List.map_eq_nil_iff, List.filter_eq_nil_iff] at hstop
      rw [List.any_eq_false]
      exact hstop
    rw [takeThrough_of_not_any hnone]
    simp
  | some m =>
    rw [takeThrough_eq_filter hsort hstop]
    rfl

theorem scanMatches_rowOf (horder : oldestFirst = decide (query.order = .oldestFirst)) (stopSeq : Option Nat)
    (branchId : JsString) (x : Entry Body) :
    Database.scanMatches query oldestFirst stopSeq (rowOf branchId x) x =
      (stopSeq.all (fun seq => le oldestFirst x.seq seq) && query.matches_ x) := by
  have hcursor : (query.cursor.all fun seq => lt oldestFirst seq x.seq) = query.afterCursor x := by
    unfold BranchScan.afterCursor
    cases query.cursor with
    | none => rfl
    | some seq =>
      cases ho : query.order with
      | oldestFirst | newestFirst => simp [horder, ho, lt]
  simp only [Database.scanMatches, rowOf, BranchScan.matches_, hcursor, Bool.and_assoc]
  congr

theorem nodup_joined {entries : List (Entry Body)} (hentries : entries.Nodup) {rows : List BranchEntryRow} (hrows : rows.Nodup) :
    (rows.flatMap fun b => (entries.filter fun e => e.id = b.entryId).map fun e => (b, e)).Nodup := by
  rw [nodup_flatMap]
  constructor
  · intro b hb
    refine (hentries.filter _).map ?_
    intro x y hxy
    exact (Prod.mk.inj hxy).2
  · refine hrows.imp ?_
    intro a b hab p hpa hpb
    obtain ⟨x, -, rfl⟩ := mem_map.mp hpa
    obtain ⟨y, -, hy⟩ := mem_map.mp hpb
    exact hab (Prod.mk.inj hy).1.symm

/-- The rows of a segment are what a scan takes of its part. -/
theorem Indexed.segmentEntries_eq (h : Indexed db) (hnodup : db.entries.Nodup) (hpath : ∀ x ∈ path, x ∈ db.entries)
    (hsort : path.Pairwise fun x y => y.seq < x.seq) (hs : StoresPart db path segment)
    (horder : oldestFirst = decide (query.order = .oldestFirst)) :
    db.segmentEntries segment query oldestFirst (db.readStopSeq segment query oldestFirst) =
      (takeThrough query.stopsAt (orderedPart oldestFirst path segment)).filter query.matches_ := by
  obtain ⟨list, hlist⟩ : ∃ list, list = orderedPart oldestFirst path segment := ⟨_, rfl⟩
  obtain ⟨stopSeq, hstopSeq⟩ : ∃ stopSeq, stopSeq = db.readStopSeq segment query oldestFirst := ⟨_, rfl⟩
  have hlsort := orderedPart_sorted hsort oldestFirst segment
  have hrows := fun b => h.mem_part_rows hpath hs oldestFirst (b := b)
  have hstop := h.readStopSeq_eq hpath hs query oldestFirst
  rw [← hlist] at hlsort hrows hstop ⊢
  rw [← hstopSeq] at hstop ⊢
  rw [takeThrough_filter_eq hlsort hstop.symm, List.filter_filter]
  obtain ⟨target, htgt⟩ : ∃ target, target = list.filter fun x =>
    query.matches_ x && stopSeq.all fun seq => le oldestFirst x.seq seq := ⟨_, rfl⟩
  rw [← htgt]
  have hpairs : (target.map fun x => (rowOf segment.branchId x, x)).map Prod.snd = target := by
    rw [List.map_map]
    exact List.map_id target
  rw [← hpairs]
  unfold Database.segmentEntries
  refine congrArg _ (mergeSort_eq oldestFirst (fun p : BranchEntryRow × Entry Body => p.1.entrySeq) ?_ ?_ ?_)
  · exact (nodup_joined hnodup (h.once.filter _)).filter _
  · rw [List.pairwise_map, htgt]
    exact hlsort.filter _
  · rintro ⟨b, x⟩
    simp only [List.mem_filter, List.mem_flatMap, List.mem_map, Prod.mk.injEq, decide_eq_true_eq]
    constructor
    · rintro ⟨⟨b', hb', x', ⟨hx', hid⟩, rfl, rfl⟩, hmatch⟩
      obtain ⟨y, hy, rfl⟩ := (hrows b').mp hb'
      have hxy : x' = y := by
        refine h.forest.unique x' hx' y (hpath y ?_) hid
        rw [hlist] at hy
        exact (mem_orderedPart.mp hy).1
      subst hxy
      rw [scanMatches_rowOf horder, Bool.and_comm] at hmatch
      exact ⟨x', by rw [htgt]; exact List.mem_filter.mpr ⟨hy, hmatch⟩, rfl, rfl⟩
    · rintro ⟨y, hy, rfl, rfl⟩
      rw [htgt] at hy
      obtain ⟨hy, hmatch⟩ := List.mem_filter.mp hy
      have hyEntry : y ∈ db.entries := by
        rw [hlist] at hy
        exact hpath y (mem_orderedPart.mp hy).1
      refine ⟨⟨_, (hrows _).mpr ⟨y, hy, rfl⟩, y, ⟨hyEntry, rfl⟩, rfl, rfl⟩, ?_⟩
      rw [scanMatches_rowOf horder, Bool.and_comm]
      exact hmatch

/-! ## All segments -/

/-- A limit that is absent or an integer. -/
def whole (limit : Option Int) : Option Limit := limit.map fun n : Int => .finite (n : Rat)

/-- A limit that an integer of 64 bits holds. -/
def Fits (limit : Option Int) : Prop := ∀ n ∈ limit, n < 2 ^ 63

variable (limit : Option Int)

theorem spent_whole : Database.spent (whole limit) = decide (limit.map Int.toNat = some 0) := by
  cases limit with
  | none => rfl
  | some n =>
    simp only [whole, map_some, Database.spent, some.injEq, decide_eq_decide, Int.toNat_eq_zero]
    exact_mod_cast Iff.rfl

theorem boundLimit_whole (hfits : Fits limit) : Database.boundLimit (whole limit) = .ok (limit.map Int.toNat) := by
  cases limit with
  | none => rfl
  | some n => exact if_pos ⟨rfl, hfits n rfl⟩

theorem less_whole (k : Nat) : Database.less (whole limit) k = whole (limit.map (· - k)) := by
  cases limit with
  | none => rfl
  | some n => simp [whole, Database.less]

/-- The rows of the segments, one after the other, are the scan over their parts. -/
theorem Indexed.scanSegments_eq (h : Indexed db) (hnodup : db.entries.Nodup) (hpath : ∀ x ∈ path, x ∈ db.entries)
    (hsort : path.Pairwise fun x y => y.seq < x.seq) (horder : oldestFirst = decide (query.order = .oldestFirst))
    (limit : Option Int) (hfits : Fits limit) (hs : ∀ segment ∈ segments, StoresPart db path segment) :
    db.scanSegments query oldestFirst (whole limit) segments =
      .ok (scanChunks query.stopsAt query.matches_ (limit.map Int.toNat) (segments.map (orderedPart oldestFirst path))) := by
  induction segments generalizing limit with
  | nil => rfl
  | cons segment segments ih =>
    have hseg := hs segment mem_cons_self
    rw [Database.scanSegments, map_cons, scanChunks, spent_whole]
    by_cases hzero : limit.map Int.toNat = some 0
    · rw [if_pos hzero, if_pos (decide_eq_true hzero)]
    · rw [if_neg hzero, if_neg (by simpa using hzero), boundLimit_whole limit hfits]
      dsimp only
      rw [h.segmentEntries_eq hnodup hpath hsort hseg horder]
      obtain ⟨rows, hrows⟩ : ∃ rows, rows = limited (limit.map Int.toNat)
        ((takeThrough query.stopsAt (orderedPart oldestFirst path segment)).filter query.matches_) := ⟨_, rfl⟩
      rw [← hrows]
      have hstop := h.readStopSeq_eq hpath hseg query oldestFirst
      cases hread : db.readStopSeq segment query oldestFirst with
      | some seq =>
        -- a stop sequence is the one of an entry that stops
        rw [hread] at hstop
        obtain ⟨hmem, -⟩ := first_eq_some.mp hstop.symm
        obtain ⟨x, hx, -⟩ := mem_map.mp hmem
        obtain ⟨hx, hstops⟩ := mem_filter.mp hx
        have hany : (orderedPart oldestFirst path segment).any query.stopsAt = true := any_eq_true.mpr ⟨x, hx, hstops⟩
        rw [if_pos hany]
      | none =>
        rw [hread, eq_comm, first_eq_none, map_eq_nil_iff, filter_eq_nil_iff] at hstop
        have hany : ¬ (orderedPart oldestFirst path segment).any query.stopsAt = true := by
          rw [Bool.not_eq_true, List.any_eq_false]
          exact hstop
        rw [if_neg hany]
        have hless : Fits (limit.map (· - (rows.length : Int))) := by
          intro n hn
          obtain ⟨m, hm, rfl⟩ := Option.map_eq_some_iff.mp hn
          have hlt := hfits m hm
          omega
        rw [less_whole, ih _ hless fun s hs' => hs s (mem_cons_of_mem _ hs')]
        have hlimit : (limit.map (· - (rows.length : Int))).map Int.toNat = (limit.map Int.toNat).map (· - rows.length) := by
          cases limit with
          | none => rfl
          | some n =>
            simp only [map_some, some.injEq]
            omega
        rw [hlimit]
        rfl

/-- What is taken of a path, with a limit that is absent or an integer. -/
theorem select_whole {limit : Option Int} (hlimit : query.limit = whole limit) (path : List (Entry Body)) :
    query.select path = limited (limit.map Int.toNat) ((takeThrough query.stopsAt
      (if decide (query.order = .oldestFirst) then path.reverse else path)).filter query.matches_) := by
  have hslice : ∀ (n : Int) (l : List (Entry Body)), Limit.slice l (.finite n) = l.take n.toNat := by
    intro n l
    rw [Limit.slice]
    split
    · rename_i hle
      have hle' : n ≤ 0 := by exact_mod_cast hle
      rw [Int.toNat_of_nonpos hle', take_zero]
    · rw [Rat.floor_intCast]
  unfold BranchScan.select BranchScan.takeStopped
  rw [hlimit]
  cases limit with
  | none => cases query.order <;> rfl
  | some n => cases query.order <;> exact hslice n _

theorem mapM_decode {rows : List (Entry Body)} (h : ∀ e ∈ rows, e.type = .custom → e.customType ≠ none) :
    rows.mapM Database.decodeEntryRow = .ok rows := by
  induction rows with
  | nil => rfl
  | cons e rows ih =>
    have hhead : Database.decodeEntryRow e = .ok e := by
      unfold Database.decodeEntryRow
      rw [if_neg (fun hcond => h e mem_cons_self hcond.1 hcond.2)]
    rw [mapM_cons, hhead, ih fun x hx => h x (mem_cons_of_mem _ hx)]
    rfl

/-- A scan of the index from an entry is a selection from its path. -/
theorem IndexedBelow.scanBranchEntries_eq {limit : Option Int} {bound : Nat} (h : IndexedBelow db bound)
    {e : Entry Body} (hpath : EntryPath db.entries e path)
    (hcustom : ∀ x ∈ db.entries, x.type = .custom → x.customType ≠ none) (hstart : query.start = e.id)
    (hlimit : query.limit = whole limit) (hfits : Fits limit) :
    db.scanBranchEntries query = .ok (query.select path) := by
  have hmem := hpath.mem_nodes
  obtain ⟨hsort, hle⟩ := h.indexed.forest.path_rank hpath
  obtain ⟨segments, hsegs, htiles⟩ := h.indexed.segments hpath
  have hnodup : db.entries.Nodup := h.ordered.imp fun hlt heq => by
    rw [heq] at hlt
    exact Nat.lt_irrefl _ hlt
  have hflat : (segments.map (part path)).flatten = path := by
    rw [htiles.flatten hsort fun x hx => h.indexed.positive x (hmem x hx), filter_eq_self]
    intro x hx
    exact decide_eq_true (hle x hx)
  have hstores : ∀ segment ∈ if decide (query.order = .oldestFirst) then segments.reverse else segments,
      StoresPart db path segment := by
    intro segment hseg
    split at hseg
    · exact htiles.storesPart segment (mem_reverse.mp hseg)
    · exact htiles.storesPart segment hseg
  unfold Database.scanBranchEntries
  rw [hstart, hsegs]
  dsimp only
  rw [hlimit, h.indexed.scanSegments_eq hnodup hmem hsort rfl limit hfits hstores, scanChunks_eq, flatten_ordered hflat,
    select_whole hlimit]
  refine mapM_decode ?_
  intro x hx
  refine hcustom x (hmem x ?_)
  have hx' := mem_of_mem_limited hx
  have hx'' := mem_of_mem_takeThrough (mem_filter.mp hx').1
  split at hx''
  · exact mem_reverse.mp hx''
  · exact hx''

end Shuvpi.Sqlite
