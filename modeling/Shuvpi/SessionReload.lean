import Shuvpi.SessionManager
import Shuvpi.ToolLoadout

/-!
# Reloading a session

What a session file holds is what its manager holds. The index of a manager is the one that
its entries build, apart from the leaf; a session that is not yet written has no assistant
message; and what is read back are the entries as JSON keeps them, whose index is the same.
-/
namespace Shuvpi.SessionFile

open JsText (ofString ofString_injective)
open JsText (textEncode)
open JsonText (stringify parse)
open TextFile (readTextFile joinLines)
open Transcript (JsonNumbers Plain wire)
open List Option

/-! ## Entries that an operation makes -/

theorem lookupField_of_mem {fields : Fields} (h : (fields.map Prod.fst).Nodup) {key : String}
    {value : Option Value} (hmem : (key, value) ∈ fields) :
    lookupField fields key = value.map Subtype.val := by
  induction fields with
  | nil => cases hmem
  | cons p fields ih =>
    obtain ⟨hname, hrest⟩ := nodup_cons.mp h
    rcases mem_cons.mp hmem with rfl | hmem
    · rw [lookupField, find?_cons_of_pos (by simp)]
      rfl
    · have hne : p.1 ≠ key := fun he => hname (he ▸ mem_map_of_mem hmem)
      rw [lookupField, find?_cons_of_neg (by simpa using hne)]
      exact ih hrest hmem

variable {kind : String}

variable {v e : Json}

theorem isKind_iff :
    isKind v kind = true ↔ stringField v "type" = some (ofString kind) := decide_eq_true_iff

theorem isKind_of_ne {other : String} (h : isKind v kind = true) (hne : kind ≠ other) :
    isKind v other = false := by
  rw [Bool.eq_false_iff]
  intro h'
  have hsame := (isKind_iff.mp h).symm.trans (isKind_iff.mp h')
  exact hne (ofString_injective (some.inj hsame))

variable (v : Json)

@[simp] theorem isKind_wire (kind : String) : isKind (wire v) kind = isKind v kind := by
  rw [isKind, isKind, stringField_wire]

@[simp] theorem idOf_wire : idOf (wire v) = idOf v := by
  rw [idOf, idOf, stringField_wire]

@[simp] theorem parentOf_wire : parentOf (wire v) = parentOf v := stringField_wire v _

/-- An entry of a session other than its header. -/
structure Proper (e : Json) : Prop where
  plain : Plain e
  isObject : ∃ props, e = .object props
  entry : isKind e "session" = false

/-- An entry of this kind, with this stamp. -/
structure Stamped (kind : String) (s : Stamp) (e : Json) : Prop extends Proper e where
  kind : isKind e kind = true
  entryId : idOf e = s.entryId
  parent : parentOf e = s.parentId
  timestamp : stringField e "timestamp" = some s.timestamp

theorem stamped_entry {s : Stamp} {front back : Fields} (hkind : kind ≠ "session")
    (hkeys : ((entryFields kind s front back).map Prod.fst).Nodup) :
    Stamped kind s (objectOf (entryFields kind s front back)) := by
  have hfield : ∀ (key : String) (value : Value), (key, some value) ∈ entryFields kind s front back →
        field (objectOf (entryFields kind s front back)) key = some value.1 := fun key value hmem => by
    rw [field_objectOf hkeys, lookupField_of_mem hkeys hmem]
    rfl
  have htype : isKind (objectOf (entryFields kind s front back)) kind = true :=
    isKind_iff.mpr (stringField_eq.mpr (hfield "type" (str (ofString kind)) (by simp [entryFields])))
  have hid := hfield "id" (str s.entryId) (by simp [entryFields, Stamp.fields])
  have hparent := hfield "parentId" (strOrNull s.parentId) (by simp [entryFields, Stamp.fields])
  have htime := hfield "timestamp" (str s.timestamp) (by simp [entryFields, Stamp.fields])
  refine ⟨⟨objectOf_plain _, ⟨_, rfl⟩, isKind_of_ne htype hkind⟩, htype, ?_, ?_, stringField_eq.mpr htime⟩
  · rw [idOf, stringField_eq.mpr hid]
    rfl
  · cases hp : s.parentId with
    | none =>
      rw [hp] at hparent
      rw [parentOf, stringField, hparent]
      rfl
    | some id =>
      rw [hp] at hparent
      exact stringField_eq.mpr hparent

/-! ## The index -/

/-- Apart from the leaf, the index is the one of the entries. -/
structure Index.Indexes (index : Index) (entries : List Json) : Prop where
  byId : index.byId = (buildIndex entries).byId
  labelsById : index.labelsById = (buildIndex entries).labelsById
  labelTimestampsById : index.labelTimestampsById = (buildIndex entries).labelTimestampsById

variable (entries : List Json)

theorem buildIndex_concat (e : Json) : buildIndex (entries ++ [e]) = (buildIndex entries).add e := by
  rw [buildIndex, foldl_append]
  rfl

variable {index : Index}

theorem Index.Indexes.enter {entries : List Json} (h : index.Indexes entries) (e : Json) :
    index.enter e = (buildIndex entries).enter e := by
  rw [Index.enter, Index.enter, h.byId, h.labelsById, h.labelTimestampsById]

@[simp] theorem Index.setLabel_byId (index : Index) (targetId : JsString) (label : Option JsString)
    (timestamp : JsString) : (index.setLabel targetId label timestamp).byId = index.byId := by
  unfold Index.setLabel
  dsimp only
  split <;> rfl

@[simp] theorem Index.setLabel_leafId (index : Index) (targetId : JsString) (label : Option JsString)
    (timestamp : JsString) : (index.setLabel targetId label timestamp).leafId = index.leafId := by
  unfold Index.setLabel
  dsimp only
  split <;> rfl

theorem Index.add_entry (h : isKind e "session" = false) :
    (index.add e).byId = JsMap.set index.byId (idOf e) e ∧ (index.add e).leafId = some (idOf e) := by
  rw [Index.add, h, if_neg Bool.false_ne_true]
  split
  · exact ⟨Index.setLabel_byId _ _ _ _, Index.setLabel_leafId _ _ _ _⟩
  · exact ⟨rfl, rfl⟩

theorem Index.add_enter (h : isKind e "session" = false) (hlabel : isKind e "label" = false) :
    index.add e = index.enter e := by
  rw [Index.add, h, hlabel, if_neg Bool.false_ne_true, if_neg Bool.false_ne_true]

/-- The ids in the index are those of the entries. -/
theorem has_buildIndex (id : JsString) : JsMap.has (buildIndex entries).byId id = true ↔
      ∃ x ∈ entries, isKind x "session" = false ∧ idOf x = id := by
  induction entries using reverseRecOn with
  | nil => simp [buildIndex, Index.empty, JsMap.has, JsMap.get]
  | append_singleton entries e ih =>
    rw [buildIndex_concat]
    have hmem : (∃ x ∈ entries ++ [e], isKind x "session" = false ∧ idOf x = id) ↔
        (∃ x ∈ entries, isKind x "session" = false ∧ idOf x = id) ∨
          (isKind e "session" = false ∧ idOf e = id) := by
      simp only [mem_append, mem_singleton]
      constructor
      · rintro ⟨x, hx | rfl, h⟩
        · exact .inl ⟨x, hx, h⟩
        · exact .inr h
      · rintro (⟨x, hx, h⟩ | h)
        · exact ⟨x, .inl hx, h⟩
        · exact ⟨e, .inr rfl, h⟩
    rw [hmem, ← ih]
    cases hs : isKind e "session" with
    | true => simp [Index.add, hs]
    | false =>
      rw [(Index.add_entry hs).1, JsMap.has, JsMap.has, JsMap.get_set]
      by_cases hid : idOf e = id
      · simp [hid]
      · simp [hid]

/-- The index of what was read back. -/
def Index.wired (index : Index) : Index := { index with byId := index.byId.map fun p => (p.1, wire p.2) }

theorem map_set {κ α β : Type} [DecidableEq κ] (f : α → β) (m : JsMap κ α) (key : κ) (value : α) :
    (JsMap.set m key value).map (fun p => (p.1, f p.2)) =
      JsMap.set (m.map fun p => (p.1, f p.2)) key (f value) := by
  induction m with
  | nil => rfl
  | cons p m ih =>
    rw [JsMap.set, map_cons, JsMap.set]
    split
    · rfl
    · rw [map_cons, ih]

theorem Index.add_wired (index : Index) (e : Json) : index.wired.add (wire e) = (index.add e).wired := by
  have henter : index.wired.enter (wire e) = (index.enter e).wired := by
    rw [Index.enter, Index.wired, Index.wired, Index.enter, idOf_wire, map_set]
  have hlabel : ∀ (i : Index) (targetId : JsString) (label : Option JsString) (timestamp : JsString),
      i.wired.setLabel targetId label timestamp = (i.setLabel targetId label timestamp).wired := by
    intro i targetId label timestamp
    unfold Index.setLabel
    dsimp only
    split <;> rfl
  rw [Index.add, Index.add, isKind_wire, isKind_wire]
  split
  · rfl
  · split
    · rw [stringField_wire, stringField_wire, stringField_wire, henter, hlabel]
    · exact henter

theorem buildIndex_wire : buildIndex (entries.map wire) = (buildIndex entries).wired := by
  induction entries using reverseRecOn with
  | nil => rfl
  | append_singleton entries e ih =>
    rw [map_append, map_singleton, buildIndex_concat, buildIndex_concat, ih, Index.add_wired]

/-! ## Reading a file back -/

section Reading
variable (numbers : JsonNumbers)

theorem linesOf_wire (entries : List Json) :
    linesOf numbers (entries.map wire) = linesOf numbers entries := by
  rw [linesOf, linesOf, flatMap_map]
  exact congrArg (flatMap · entries) (funext fun e => by rw [lineOf, lineOf, Transcript.stringify_wire])

theorem linesOf_append (entries : List Json) (e : Json) :
    linesOf numbers (entries ++ [e]) = linesOf numbers entries ++ lineOf numbers e := by
  simp [linesOf]

variable {e : Json}

theorem text_line (h : Plain e) : JsonText.IsLine (stringify numbers.toNumberFormat e) := by
  rw [← Transcript.stringify_wire]
  exact JsonText.stringify_line (Transcript.wire_preserved h)

/-- The file is the text of its lines. -/
theorem linesOf_eq {entries : List Json} (h : ∀ e ∈ entries, Plain e) : linesOf numbers entries =
      textEncode (joinLines (entries.map (stringify numbers.toNumberFormat))) := by
  induction entries with
  | nil => rfl
  | cons e entries ih =>
    have hline : TextFile.IsText (stringify numbers.toNumberFormat e ++ [10]) :=
      (text_line numbers (h e mem_cons_self)).text.append (.unit (.inl (by decide)))
    have hrest : TextFile.IsText (joinLines (entries.map (stringify numbers.toNumberFormat))) := by
      refine TextFile.joinLines_isText fun line hl => ?_
      obtain ⟨x, hx, rfl⟩ := mem_map.mp hl
      exact (text_line numbers (h x (mem_cons_of_mem _ hx))).text
    have hsplit : joinLines ((e :: entries).map (stringify numbers.toNumberFormat)) =
        (stringify numbers.toNumberFormat e ++ [10]) ++
          joinLines (entries.map (stringify numbers.toNumberFormat)) := rfl
    rw [hsplit, TextFile.textEncode_append hline hrest, ← ih fun x hx => h x (mem_cons_of_mem _ hx)]
    rfl

theorem splitOn_joinLines {lines : List JsString} (h : ∀ line ∈ lines, (10 : UInt16) ∉ line) :
    (joinLines lines).splitOn 10 = lines ++ [[]] := by
  have hjoin : joinLines lines = [10].intercalate (lines ++ [[]]) := by
    cases lines with
    | nil => rfl
    | cons line lines =>
      rw [TextFile.joinLines_eq (cons_ne_nil line lines)]
      clear h
      induction lines generalizing line with
      | nil => simp [intercalate_cons_cons]
      | cons line' lines ih =>
        rw [cons_append, intercalate_cons_cons, cons_append, intercalate_cons_cons, ← cons_append, ← ih line']
        simp
  rw [hjoin]
  refine splitOn_intercalate (10 : UInt16) (fun line hl => ?_) (by simp)
  rcases mem_append.mp hl with hl | hl
  · exact h line hl
  · rw [mem_singleton.mp hl]
    exact not_mem_nil

theorem parse_line (h : Plain e) (hobj : ∃ props, e = .object props) :
    parseSessionEntryLine numbers (stringify numbers.toNumberFormat e) = some (wire e) := by
  have hparse := Transcript.parse_stringify_wire numbers h
  obtain ⟨props, rfl⟩ := hobj
  have htrim : trim (stringify numbers.toNumberFormat (.object props)) ≠ [] := by
    intro hnil
    have hstart : ∃ rest, stringify numbers.toNumberFormat (.object props) = 123 :: rest := by
      cases props with
      | nil | cons => exact ⟨_, rfl⟩
    obtain ⟨rest, hrest⟩ := hstart
    rw [hrest, trim, dropWhile_cons_of_neg (by decide), rdropWhile_eq_nil_iff] at hnil
    exact absurd (hnil 123 mem_cons_self) (by decide)
  rw [parseSessionEntryLine, if_neg htrim, hparse]
  rfl

/-- The header of a session of this version. -/
structure HeaderOk (h : Json) : Prop where
  plain : Plain h
  isObject : ∃ props, h = .object props
  isHeader : isHeader h = true
  version : field h "version" = some (.number CURRENT_SESSION_VERSION)

variable {h : Json}

theorem HeaderOk.wire (hh : HeaderOk h) : HeaderOk (wire h) := by
  obtain ⟨props, rfl⟩ := hh.isObject
  refine ⟨.of_preserved (Transcript.wire_preserved hh.plain), ⟨_, rfl⟩, ?_, ?_⟩
  · have hhdr := hh.isHeader
    rwa [SessionFile.isHeader, ← isKind_wire, ← stringField_wire] at hhdr
  · have hthree : Transcript.wireNumber CURRENT_SESSION_VERSION = .number CURRENT_SESSION_VERSION := by
      rw [Transcript.wireNumber, if_pos (by decide), if_neg (by decide)]
    rw [field_wire, hh.version]
    exact congrArg some hthree

theorem HeaderOk.current (hh : HeaderOk h) : versionBelow h 3 = false := by
  rw [versionBelow, hh.version]
  decide

theorem HeaderOk.session (hh : HeaderOk h) : isKind h "session" = true := by
  have hhdr := hh.isHeader
  rw [SessionFile.isHeader, Bool.and_eq_true] at hhdr
  exact hhdr.1

theorem newSession_header (header : SessionHeader) : HeaderOk (objectOf (headerFields header)) := by
  have hkeys : ((headerFields header).map Prod.fst).Nodup := by
    simp [headerFields]
  have hfield : ∀ (key : String) (value : Value), (key, some value) ∈ headerFields header →
      field (objectOf (headerFields header)) key = some value.1 := fun key value hmem => by
    rw [field_objectOf hkeys, lookupField_of_mem hkeys hmem]
    rfl
  have htype := hfield "type" (str (ofString "session")) (by simp [headerFields])
  have hid := hfield "id" (str header.sessionId) (by simp [headerFields])
  refine ⟨objectOf_plain _, ⟨_, rfl⟩, ?_, hfield "version" (num CURRENT_SESSION_VERSION) (by simp [
    headerFields])⟩
  rw [isHeader, Bool.and_eq_true]
  refine ⟨isKind_iff.mpr (stringField_eq.mpr htype), ?_⟩
  rw [stringField_eq.mpr hid]
  rfl

variable {header : Json}

theorem loadEntriesFromFile_linesOf {entries : List Json} (hhdr : HeaderOk header)
    (hentries : ∀ e ∈ entries, Proper e) :
    loadEntriesFromFile numbers (linesOf numbers (header :: entries)) =
      ((header :: entries).map wire, linesOf numbers (header :: entries)) := by
  have hplain : ∀ e ∈ header :: entries, Plain e :=
    forall_mem_cons.mpr ⟨hhdr.plain, fun e he => (hentries e he).plain⟩
  have hobj : ∀ e ∈ header :: entries, ∃ props, e = .object props :=
    forall_mem_cons.mpr ⟨hhdr.isObject, fun e he => (hentries e he).isObject⟩
  have hlines : ∀ line ∈ (header :: entries).map (stringify numbers.toNumberFormat),
      JsonText.IsLine line := fun line hl => by
    obtain ⟨e, he, rfl⟩ := mem_map.mp hl
    exact text_line numbers (hplain e he)
  have htext : readTextFile (linesOf numbers (header :: entries)) =
      joinLines ((header :: entries).map (stringify numbers.toNumberFormat)) := by
    have hread := TextFile.decodeLossy_text
      (TextFile.joinLines_isText fun line hl => (hlines line hl).text) []
    rw [append_nil] at hread
    rw [linesOf_eq numbers hplain, readTextFile, hread]
    exact append_nil _
  have hparse : ∀ es : List Json, (∀ e ∈ es, Plain e) → (∀ e ∈ es, ∃ props, e = .object props) →
      (es.map (stringify numbers.toNumberFormat)).filterMap (parseSessionEntryLine numbers) =
        es.map wire := by
    intro es hp ho
    induction es with
    | nil => rfl
    | cons e es ih =>
      rw [map_cons, filterMap_cons, parse_line numbers (hp e mem_cons_self) (ho e mem_cons_self)]
      exact congrArg (wire e :: ·) (ih (fun x hx => hp x (mem_cons_of_mem _ hx))
        fun x hx => ho x (mem_cons_of_mem _ hx))
  have hblank : [([] : JsString)].filterMap (parseSessionEntryLine numbers) = [] := rfl
  unfold loadEntriesFromFile
  rw [htext, splitOn_joinLines fun line hl => (hlines line hl).single]
  dsimp only
  rw [filterMap_append, hparse _ hplain hobj, hblank, append_nil, map_cons]
  dsimp only
  rw [if_pos hhdr.wire.isHeader, if_pos (by rw [getLast?_concat]; rfl)]

/-- A session file gives its entries back, as JSON keeps them. -/
theorem openSession_linesOf {entries : List Json} (m : Moment) (hhdr : HeaderOk header)
    (hentries : ∀ e ∈ entries, Proper e) :
    openSession numbers m (some (linesOf numbers (header :: entries))) =
      some ⟨⟨true, (header :: entries).map wire, (buildIndex (header :: entries)).wired⟩,
        some (linesOf numbers (header :: entries)), none⟩ := by
  have hcur : migrateToCurrentVersion m.randomUUID ((header :: entries).map wire) = none := by
    have hfirst : ((header :: entries).map wire).find? (fun e => isKind e "session") =
        some (wire header) := find?_cons_of_pos hhdr.wire.session
    have hcur : versionBelow ((some (wire header)).getD .null) 3 = false := hhdr.wire.current
    rw [migrateToCurrentVersion, hfirst, hcur]
    rfl
  rw [openSession, loadEntriesFromFile_linesOf numbers hhdr hentries, map_cons]
  dsimp only
  rw [loadEntries, ← map_cons, hcur, buildIndex_wire]

/-! ## What an operation keeps -/

theorem getEntries_concat (flushed : Bool) (entries : List Json) (index : Index) (he : isKind e "session" = false) :
    (SessionManager.mk flushed (entries ++ [e]) index).getEntries =
      (SessionManager.mk flushed entries index).getEntries ++ [e] := by
  rw [SessionManager.getEntries, SessionManager.getEntries, filter_append]
  exact congrArg _ (filter_cons_of_pos (by rw [he]; rfl))

variable {rest : List Json}

theorem getEntries_cons (flushed : Bool) (index : Index) (hhdr : HeaderOk header)
    (hrest : ∀ e ∈ rest, Proper e) :
    (SessionManager.mk flushed (header :: rest) index).getEntries = rest := by
  rw [SessionManager.getEntries, filter_cons_of_neg (by rw [hhdr.session]; decide)]
  exact filter_eq_self.mpr fun e he => by rw [(hrest e he).entry]; rfl

/-- Parents come before their children. -/
def ParentsPrecede (entries : List Json) : Prop := ∀ before e after, entries = before ++ e :: after →
    ∀ id, parentOf e = some id → ∃ x ∈ before, idOf x = id

theorem ParentsPrecede.concat {entries : List Json} (h : ParentsPrecede entries)
    (he : ∀ id, parentOf e = some id → ∃ x ∈ entries, idOf x = id) :
    ParentsPrecede (entries ++ [e]) := by
  intro before x after hsplit id hid
  rcases eq_nil_or_concat after with rfl | ⟨after, y, rfl⟩
  · obtain ⟨rfl, hx⟩ := append_inj' hsplit rfl
    obtain ⟨rfl, -⟩ := cons.inj hx
    exact he id hid
  · have hsplit : entries ++ [e] = (before ++ x :: after) ++ [y] := by simpa using hsplit
    exact h before x after (append_inj' hsplit rfl).1 id hid

theorem ParentsPrecede.map_wire {entries : List Json} (h : ParentsPrecede entries) :
    ParentsPrecede (entries.map wire) := by
  intro before e after hsplit id hid
  obtain ⟨before', rest, rfl, rfl, hrest⟩ := map_eq_append_iff.mp hsplit
  obtain ⟨e', after', rfl, rfl, rfl⟩ := map_eq_cons_iff.mp hrest
  rw [parentOf_wire] at hid
  obtain ⟨x, hx, hx'⟩ := h before' e' after' rfl id hid
  exact ⟨wire x, mem_map_of_mem hx, by rw [idOf_wire, hx']⟩

/-- What holds of the entries of a manager and of its index. -/
structure Kept (m : SessionManager) : Prop where
  entries : ∃ header rest, m.fileEntries = header :: rest ∧ HeaderOk header ∧ ∀ e ∈ rest, Proper e
  index : m.index.Indexes m.fileEntries
  leaf : ∀ id, m.index.leafId = some id → JsMap.has m.index.byId id = true
  parents : ParentsPrecede m.getEntries

variable {m : SessionManager}

theorem Kept.has (h : Kept m) {id : JsString} :
    JsMap.has m.index.byId id = true ↔ ∃ x ∈ m.getEntries, idOf x = id := by
  rw [h.index.byId, has_buildIndex]
  constructor
  · rintro ⟨x, hx, hkind, hid⟩
    exact ⟨x, mem_filter.mpr ⟨hx, by rw [hkind]; rfl⟩, hid⟩
  · rintro ⟨x, hx, hid⟩
    obtain ⟨hx, hkind⟩ := mem_filter.mp hx
    exact ⟨x, hx, by simpa using hkind, hid⟩

/-- An entry whose parent is known is kept with the index that it builds. -/
theorem Kept.concat (h : Kept m) (flushed : Bool) (he : Proper e)
    (hparent : ∀ id, parentOf e = some id → JsMap.has m.index.byId id = true) :
    Kept ⟨flushed, m.fileEntries ++ [e], buildIndex (m.fileEntries ++ [e])⟩ := by
  obtain ⟨header, rest, hfile, hhdr, hrest⟩ := h.entries
  refine ⟨⟨header, rest ++ [e], by rw [hfile]; rfl, hhdr, ?_⟩, ⟨rfl, rfl, rfl⟩, ?_, ?_⟩
  · intro x hx
    rcases mem_append.mp hx with hx | hx
    · exact hrest x hx
    · obtain rfl := mem_singleton.mp hx
      exact he
  · intro id hid
    rw [buildIndex_concat, (Index.add_entry he.entry).2] at hid
    obtain rfl := some.inj hid
    exact (has_buildIndex _ _).mpr ⟨e, by simp, he.entry, rfl⟩
  · rw [getEntries_concat _ _ _ he.entry]
    exact h.parents.concat fun id hid => h.has.mp (hparent id hid)

variable {leafId : Option JsString}

theorem Kept.moved (h : Kept m) (hleaf : ∀ id, leafId = some id → JsMap.has m.index.byId id = true) :
    Kept { m with index := { m.index with leafId := leafId } } :=
  ⟨h.entries, ⟨h.index.byId, h.index.labelsById, h.index.labelTimestampsById⟩, hleaf, h.parents⟩

/-- A session is written as a whole, or not at all before its first assistant message. -/
structure Written (w : World) : Prop where
  flushed : w.manager.flushed = true → w.file = some (linesOf numbers w.manager.fileEntries)
  deferred : w.manager.flushed = false → w.file = none ∧ w.manager.hasAssistant = false
  refused : w.refused = none

structure Inv (w : World) : Prop where
  kept : Kept w.manager
  written : Written numbers w

variable {w : World}

/-- An append succeeds, and writes what it must. -/
theorem appendEntry_written (h : Written numbers w) (e : Json) : ∃ flushed file, appendEntry numbers w e =
        (⟨⟨flushed, w.manager.fileEntries ++ [e], w.manager.index.enter e⟩, file, none⟩, true) ∧
      ∀ index, Written numbers ⟨⟨flushed, w.manager.fileEntries ++ [e], index⟩, file, none⟩ := by
  obtain ⟨⟨flushed, entries, index⟩, file, refused⟩ := w
  obtain rfl : refused = none := h.refused
  rw [appendEntry, persist, World.push]
  cases flushed with
  | true =>
    obtain rfl : file = some (linesOf numbers entries) := h.flushed rfl
    have hfile : (some (linesOf numbers entries)).getD [] ++ lineOf numbers e =
        linesOf numbers (entries ++ [e]) := (linesOf_append numbers entries e).symm
    refine ⟨true, some (linesOf numbers (entries ++ [e])), ?_, fun _ => ⟨fun _ => rfl, (fun h => by cases h), rfl⟩⟩
    rw [← hfile]
    split <;> rfl
  | false =>
    obtain ⟨hfile, -⟩ := h.deferred rfl
    obtain rfl : file = none := hfile
    split
    · rename_i hnone
      rw [Bool.not_eq_true'] at hnone
      exact ⟨false, none, rfl, fun _ => ⟨fun h => (by cases h), fun _ => ⟨rfl, hnone⟩, rfl⟩⟩
    · exact ⟨true, _, rfl, fun _ => ⟨fun _ => rfl, (fun h => by cases h), rfl⟩⟩

theorem stamp_parent {m : Moment} (h : Kept w.manager) (he : Stamped kind (w.stamp m) e) (id : JsString)
    (hid : parentOf e = some id) :
    JsMap.has w.manager.index.byId id = true := by
  rw [he.parent] at hid
  exact h.leaf id hid

theorem Inv.append {m : Moment} (h : Inv numbers w) (he : Stamped kind (w.stamp m) e) (hlabel : kind ≠ "label") :
    Inv numbers (appendEntry numbers w e).1 := by
  obtain ⟨flushed, file, hw, hwrit⟩ := appendEntry_written numbers h.written e
  have hindex : w.manager.index.enter e = buildIndex (w.manager.fileEntries ++ [e]) := by
    rw [h.kept.index.enter, buildIndex_concat, Index.add_enter he.entry (isKind_of_ne he.kind hlabel)]
  rw [hw, hindex]
  exact ⟨h.kept.concat flushed he.toProper (stamp_parent h.kept he), hwrit _⟩

theorem Inv.moved (h : Inv numbers w) (hleaf : ∀ id, leafId = some id → w.has id = true) :
    Inv numbers (w.moveLeaf leafId) :=
  ⟨h.kept.moved hleaf, h.written.flushed, h.written.deferred, h.written.refused⟩

theorem label_entry (s : Stamp) (targetId : JsString) (label : Option JsString) (index : Index) :
    index.add (labelEntry s targetId label) =
      (index.enter (labelEntry s targetId label)).setLabel targetId label s.timestamp := by
  have hkeys : ((entryFields "label" s [] [("targetId", some (str targetId)),
      ("label", label.map str)]).map Prod.fst).Nodup := by simp [entryFields, Stamp.fields]
  have hentry : Stamped "label" s (labelEntry s targetId label) := stamped_entry (by decide) hkeys
  have htargetField : ("targetId", some (str targetId)) ∈ entryFields "label" s []
      [("targetId", some (str targetId)), ("label", label.map str)] := by simp [entryFields, Stamp.fields]
  have hlabelField : ("label", label.map str) ∈ entryFields "label" s []
      [("targetId", some (str targetId)), ("label", label.map str)] := by simp [entryFields, Stamp.fields]
  have htgt : stringField (labelEntry s targetId label) "targetId" = some targetId :=
    stringField_eq.mpr (by
      rw [labelEntry, field_objectOf hkeys, lookupField_of_mem hkeys htargetField]
      rfl)
  have hlabel : stringField (labelEntry s targetId label) "label" = label := by
    rw [stringField, labelEntry, field_objectOf hkeys, lookupField_of_mem hkeys hlabelField]
    cases label <;> rfl
  rw [Index.add, hentry.entry, hentry.kind, if_neg Bool.false_ne_true, if_pos rfl, htgt, hlabel, hentry.timestamp]
  rfl

/-- Setting a label does to the index what rebuilding it from its entry does. -/
theorem Inv.label (h : Inv numbers w) (m : Moment) (targetId : JsString) (label : Option JsString) :
    ∃ flushed file, appendEntry numbers w (labelEntry (w.stamp m) targetId label) =
        (⟨⟨flushed, w.manager.fileEntries ++ [labelEntry (w.stamp m) targetId label],
          w.manager.index.enter (labelEntry (w.stamp m) targetId label)⟩, file, none⟩, true) ∧
      Inv numbers ⟨⟨flushed, w.manager.fileEntries ++ [labelEntry (w.stamp m) targetId label],
        (w.manager.index.enter (labelEntry (w.stamp m) targetId label)).setLabel targetId label
          m.timestamp⟩, file, none⟩ := by
  obtain ⟨flushed, file, hw, hwrit⟩ := appendEntry_written numbers h.written (labelEntry (w.stamp m) targetId label)
  have hentry : Stamped "label" (w.stamp m) (labelEntry (w.stamp m) targetId label) :=
    stamped_entry (by decide) (by simp [entryFields, Stamp.fields])
  have hindex : (w.manager.index.enter (labelEntry (w.stamp m) targetId label)).setLabel targetId label
      m.timestamp = buildIndex (w.manager.fileEntries ++ [labelEntry (w.stamp m) targetId label]) := by
    rw [buildIndex_concat, label_entry, h.kept.index.enter]
    rfl
  refine ⟨flushed, file, hw, ?_⟩
  rw [hindex]
  exact ⟨h.kept.concat flushed hentry.toProper (stamp_parent h.kept hentry), hwrit _⟩

/-! ## Runs -/

theorem new_inv (header : SessionHeader) : Inv numbers ⟨newSession header, none, none⟩ := by
  have hhdr := newSession_header header
  have hentries : (newSession header).getEntries = [] := getEntries_cons false Index.empty hhdr (forall_mem_nil _)
  refine ⟨⟨⟨_, [], rfl, hhdr, forall_mem_nil _⟩, ?_, fun id h => (by cases h), ?_⟩,
    fun h => (by cases h), fun _ => ⟨rfl, ?_⟩, rfl⟩
  · have hempty : buildIndex (newSession header).fileEntries = .empty := by
      rw [newSession, buildIndex, foldl_cons, Index.add, hhdr.session]
      rfl
    exact ⟨by rw [hempty]; rfl, by rw [hempty]; rfl, by rw [hempty]; rfl⟩
  · rw [hentries]
    intro before e after hsplit
    simp at hsplit
  · rw [SessionManager.hasAssistant, newSession, any_cons, isMessageOf, isKind_of_ne hhdr.session (by decide)]
    rfl

/-- The leaf of a rebuilt index is the last entry. -/
theorem buildIndex_leaf (entries : List Json) :
    (buildIndex entries).leafId = ((entries.filter fun e => !isKind e "session").getLast?).map idOf := by
  induction entries using reverseRecOn with
  | nil => rfl
  | append_singleton entries e ih =>
    rw [buildIndex_concat, filter_append]
    cases hs : isKind e "session" with
    | true => simpa [Index.add, hs] using ih
    | false => simp [(Index.add_entry hs).2, hs]

theorem buildIndex_kept {flushed : Bool} (hhdr : HeaderOk header) (hrest : ∀ e ∈ rest, Proper e)
    (hpars : ParentsPrecede rest) :
    Kept ⟨flushed, header :: rest, buildIndex (header :: rest)⟩ := by
  refine ⟨⟨header, rest, rfl, hhdr, hrest⟩, ⟨rfl, rfl, rfl⟩, fun id hid => ?_, ?_⟩
  · dsimp only at hid ⊢
    rw [buildIndex_leaf, map_eq_some_iff] at hid
    obtain ⟨x, hx, hid⟩ := hid
    obtain ⟨hmem, hkind⟩ := mem_filter.mp (mem_of_getLast? hx)
    exact (has_buildIndex _ _).mpr ⟨x, hmem, by simpa using hkind, hid⟩
  · rwa [getEntries_cons flushed _ hhdr hrest]

theorem Proper.map_wire {entries : List Json} (h : ∀ e ∈ entries, Proper e) : ∀ e ∈ entries.map wire, Proper e := by
  intro e he
  obtain ⟨x, hx, rfl⟩ := mem_map.mp he
  obtain ⟨props, rfl⟩ := (h x hx).isObject
  refine ⟨.of_preserved (Transcript.wire_preserved (h _ hx).plain), ⟨_, rfl⟩, ?_⟩
  rw [isKind_wire, (h _ hx).entry]

/-- The world that reopening a written session gives. -/
def reloaded (entries : List Json) : World :=
  ⟨⟨true, entries.map wire, buildIndex (entries.map wire)⟩, some (linesOf numbers entries), none⟩

theorem Inv.reopen (h : Inv numbers w) (hflushed : w.manager.flushed = true) (m : Moment) :
    openSession numbers m w.file = some (reloaded numbers w.manager.fileEntries) := by
  obtain ⟨header, rest, hfile, hhdr, hrest⟩ := h.kept.entries
  rw [h.written.flushed hflushed, hfile, openSession_linesOf numbers m hhdr hrest, reloaded, buildIndex_wire]

theorem Inv.reloaded (h : Inv numbers w) : Inv numbers (reloaded numbers w.manager.fileEntries) := by
  obtain ⟨header, rest, hfile, hhdr, hrest⟩ := h.kept.entries
  have hpars : ParentsPrecede rest := by
    have hkept := h.kept.parents
    obtain ⟨⟨flushed, entries, index⟩, file, refused⟩ := w
    dsimp only at hfile hkept
    rwa [hfile, getEntries_cons flushed index hhdr hrest] at hkept
  rw [SessionFile.reloaded, hfile]
  refine ⟨buildIndex_kept hhdr.wire (Proper.map_wire hrest) hpars.map_wire, fun _ => ?_, fun h => (by cases h), rfl⟩
  rw [linesOf_wire]

theorem reopen_inv (h : Inv numbers w) (m : Moment) :
    ∃ w', openSession numbers m w.file = some w' ∧ Inv numbers w' := by
  cases hflushed : w.manager.flushed with
  | true => exact ⟨_, h.reopen numbers hflushed m, h.reloaded numbers⟩
  | false =>
    rw [(h.written.deferred hflushed).1]
    exact ⟨_, rfl, new_inv numbers m.header⟩

variable (projectedSystem : SessionManager → Option Fields)

theorem step_inv (h : Inv numbers w) (m : Moment) {op : SessionOp} (hdata : op.isData) :
    Inv numbers (step numbers projectedSystem w m op) := by
  cases op with
  | appendContextEdit targetId replacement =>
    rw [step]
    split
    · exact h
    · split
      · exact h.append numbers (stamped_entry (by decide) (by simp [entryFields, Stamp.fields])) (by decide)
      · exact h
  | appendLabelChange targetId label =>
    rw [step]
    split
    · obtain ⟨flushed, file, hw, hinv⟩ := h.label numbers m targetId label
      rw [hw]
      exact hinv
    · exact h
  | branch branchFromId =>
    rw [step]
    split
    · rename_i hhas
      refine h.moved numbers fun id hid => ?_
      rwa [← some.inj hid]
    · exact h
  | resetLeaf => exact h.moved numbers fun id hid => (by cases hid)
  | branchWithSummary branchFromId summary details fromHook usage =>
    rw [step]
    split
    · rename_i hhas
      have hmoved : Inv numbers (w.moveLeaf branchFromId) := h.moved numbers fun id hid => by rwa [hid] at hhas
      exact hmoved.append numbers (stamped_entry (by decide) (by simp [entryFields, Stamp.fields]))
        (by decide)
    · exact h
  | reopen =>
    obtain ⟨w', hopen, hinv⟩ := reopen_inv numbers h m
    rw [step, hopen]
    exact hinv
  | appendRefused => cases hdata
  | _ =>
    exact h.append numbers (stamped_entry (by decide) (by simp [entryFields, Stamp.fields])) (by decide)

theorem run_inv (h : Inv numbers w) {calls : List (Moment × SessionOp)} (hdata : ∀ call ∈ calls, call.2.isData) :
    Inv numbers (run numbers projectedSystem w calls) := by
  induction calls generalizing w with
  | nil => exact h
  | cons call calls ih =>
    exact ih (step_inv numbers projectedSystem h call.1 (hdata call mem_cons_self)) fun c hc => hdata c (mem_cons_of_mem _ hc)

/-- A session starts with no file, or with an empty one. -/
theorem open_inv {m : Moment} {file : Option Bytes} (hfile : ∀ content ∈ file, content = [])
    (hopen : openSession numbers m file = some w) : Inv numbers w := by
  cases file with
  | none =>
    obtain rfl := some.inj hopen
    exact new_inv numbers m.header
  | some content =>
    obtain rfl := hfile content rfl
    have hnew := new_inv numbers m.header
    obtain rfl : _ = w := some.inj hopen
    exact ⟨⟨hnew.kept.entries, hnew.kept.index, hnew.kept.leaf, hnew.kept.parents⟩, fun _ => rfl,
      fun h => (by cases h), rfl⟩

/-- In every run that has an assistant message, and is given JSON data, the file holds the header and then the
entries; reopening it gives the entries, as JSON keeps them, their labels, and the last one as
leaf; and parents come before their children. -/
theorem reload_of_run (m₀ : Moment) (file₀ : Option Bytes) {w₀ : World}
    (hfile : ∀ content ∈ file₀, content = []) (hopen : openSession numbers m₀ file₀ = some w₀)
    (calls : List (Moment × SessionOp)) (hdata : ∀ call ∈ calls, call.2.isData) (m : Moment) {w : World}
    (hrun : run numbers projectedSystem w₀ calls = w) (hassistant : w.manager.hasAssistant = true) :
    (∃ header, isHeader header = true ∧ w.manager.fileEntries = header :: w.manager.getEntries ∧
      w.file = some (linesOf numbers (header :: w.manager.getEntries))) ∧
    (∃ w', openSession numbers m w.file = some w' ∧ w'.manager.getEntries = w.manager.getEntries.map wire ∧
      w'.manager.index.labelsById = w.manager.index.labelsById ∧
      w'.manager.index.labelTimestampsById = w.manager.index.labelTimestampsById ∧
      w'.manager.index.leafId = w.manager.getEntries.getLast?.map idOf ∧ w'.file = w.file) ∧
    ParentsPrecede w.manager.getEntries := by
  have hinv : Inv numbers w := hrun ▸ run_inv numbers projectedSystem (open_inv numbers hfile hopen) hdata
  have hflushed : w.manager.flushed = true := by
    by_contra hnot
    have hnone := (hinv.written.deferred (Bool.eq_false_of_not_eq_true hnot)).2
    rw [hassistant] at hnone
    cases hnone
  obtain ⟨header, rest, hentries, hheader, hrest⟩ := hinv.kept.entries
  have hget : w.manager.getEntries = rest := by
    rw [SessionManager.getEntries, hentries]
    exact getEntries_cons true w.manager.index hheader hrest
  refine ⟨⟨header, hheader.isHeader, by rw [hget, hentries], ?_⟩,
    ⟨_, hinv.reopen numbers hflushed m, ?_, ?_, ?_, ?_, ?_⟩, hinv.kept.parents⟩
  · rw [hinv.written.flushed hflushed, hentries, hget]
  · rw [hget, reloaded, hentries]
    exact getEntries_cons true _ hheader.wire (Proper.map_wire hrest)
  · rw [reloaded, buildIndex_wire, hinv.kept.index.labelsById]
    rfl
  · rw [reloaded, buildIndex_wire, hinv.kept.index.labelTimestampsById]
    rfl
  · rw [reloaded, buildIndex_wire, hget]
    have hleaf := buildIndex_leaf w.manager.fileEntries
    rw [← SessionManager.getEntries.eq_1, hget] at hleaf
    exact hleaf
  · rw [reloaded, hinv.written.flushed hflushed]

end Reading

/-- The moment of the `n`th operation. -/
def moment (n : UInt16) : Moment where
  timestamp := [n]
  time := JsNumber.ofInt 0
  randomUUID i := [n, i.toUInt16]
  header := ⟨[1], [n], [47], none⟩

def message (role : String) : Value := ⟨objectOf [("role", str (ofString role))], objectOf_plain _⟩

/-- A session with a message, and what is done to it then. -/
def afterMessage (calls : List (Moment × SessionOp)) : World :=
  run Transcript.integerNumbers (fun _ => none) ⟨newSession (moment 0).header, none, none⟩
    ((moment 2, .appendMessage (message "assistant")) :: calls)

/-- A custom entry may carry a number that JSON has no text for; and one that cannot be
written stays in memory. -/
theorem reload_other_data : (let w := afterMessage [(moment 3, .appendCustomEntry [] (some (num ⟨0x7ff8000000000000⟩)))]
      w.manager.hasAssistant = true ∧ ∃ w', openSession Transcript.integerNumbers (moment 4) w.file = some w' ∧
        w'.manager.getEntries ≠ w.manager.getEntries) ∧
      let w := afterMessage [(moment 3, .appendRefused "custom" [])]
      ∃ w', openSession Transcript.integerNumbers (moment 4) w.file = some w' ∧
        w'.manager.getEntries.length = 1 ∧ w.manager.getEntries.length = 2 := by
  constructor
  rotate_left
  · intro w
    have hinv : Inv Transcript.integerNumbers (afterMessage []) := run_inv _ _ (new_inv _ _) (by decide)
    exact ⟨_, hinv.reopen _ (by decide) _, by decide, by decide⟩
  intro w
  have hinv : Inv Transcript.integerNumbers w := run_inv _ _ (new_inv _ _) (by decide)
  have hflushed : w.manager.flushed = true := by decide
  refine ⟨by decide, _, hinv.reopen _ hflushed _, fun heq => ?_⟩
  have hlast := congrArg (fun es => es.getLast?.bind fun e => field e "data") heq
  have hdata : (w.manager.getEntries.getLast?.bind fun e => field e "data") =
      some (.number ⟨0x7ff8000000000000⟩) := rfl
  rw [hdata] at hlast
  have hread : ((reloaded Transcript.integerNumbers w.manager.fileEntries).manager.getEntries.getLast?.bind
      fun e => field e "data") = some .null := rfl
  rw [hread] at hlast
  cases hlast

/-- A label is set, a branch is made, and a summary is appended to it. -/
theorem reload_of_run_branch :
    let w := run Transcript.integerNumbers (fun _ => none) ⟨newSession (moment 0).header, none, none⟩
      [(moment 2, .appendMessage (message "user")), (moment 3, .appendLabelChange [2, 0] (some [9])),
        (moment 4, .appendMessage (message "assistant")), (moment 5, .branch [2, 0]),
        (moment 6, .branchWithSummary (some [2, 0]) [8] none none none)]
    w.manager.getEntries.map parentOf = [none, some [2, 0], some [3, 0], some [2, 0]] ∧
      ∃ w', openSession Transcript.integerNumbers (moment 7) w.file = some w' ∧
        w'.manager.getEntries = w.manager.getEntries.map wire ∧
        w'.manager.index.labelsById = [([2, 0], [9])] ∧ w'.manager.index.leafId = some [6, 0] := by
  intro w
  obtain ⟨-, ⟨w', hopen, hentries, hlabels, -, hleaf, -⟩, -⟩ :=
    reload_of_run Transcript.integerNumbers (fun _ => none) (moment 0) none (by simp)
      rfl _ (by decide) (moment 7) (w := w) rfl (by decide)
  exact ⟨by decide, w', hopen, hentries, hlabels.trans (by decide), hleaf.trans (by decide)⟩

end Shuvpi.SessionFile
