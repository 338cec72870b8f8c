import Shuvpi.SessionManager

/-!
# From version 1 to version 2

Entries of a session file of version 1 stand in one list, without ids, and a compaction names
the first entry that it keeps by its index. `migrateV1ToV2` gives each entry an id and its
predecessor as parent. The short ids are not compared with those given before, and an entry
after the compaction has no id yet when the index is looked up.
-/
open List

namespace Shuvpi.SessionFile

open JsText (ofString ofString_injective)

/-- An entry of version 1: an object, which has no id unless it is the header. -/
def VersionOne (e : Json) : Prop := (∃ props, e = .object props) ∧ (isKind e "session" = true ∨ field e "id" = none)

abbrev EntryV1 := {e : Json // VersionOne e}

/-- The entries without the header. -/
def branchOf (entries : List Json) : List Json := entries.filter fun e => !isKind e "session"

def migratedFields : List String := ["version", "id", "parentId", "firstKeptEntryId", "firstKeptEntryIndex"]

/-- The position that a number names in a list. -/
def indexOf (x : JsNumber) : Option Nat := if x.isInteger && 0 ≤ x.toInt then some x.toInt.toNat else none

/-- The index of a compaction is gone. -/
def Unindexed (e migrated : Json) : Prop :=
  isKind e "compaction" = true → ∀ x, field e "firstKeptEntryIndex" = some (.number x) → field migrated "firstKeptEntryIndex" = none

/-- The migrated entries are those of the list in its order; their ids differ, each has its
predecessor as parent, and a compaction has the id of the entry that its index names in place of
the index. -/
structure Migrated (entries migrated : List Json) : Prop where
  same : Forall₂ (fun e e' => ∀ key, key ∉ migratedFields → field e' key = field e key) entries migrated
  named : ∀ e ∈ branchOf migrated, field e "id" = some (.string (idOf e))
  distinct : ((branchOf migrated).map idOf).Nodup
  chain : (branchOf migrated).map (field · "parentId") =
    (Json.null :: (branchOf migrated).map fun e => .string (idOf e)).dropLast.map some
  kept : ∀ (i j : Nat) e e' x target, entries[i]? = some e → migrated[i]? = some e' → isKind e "compaction" = true →
    field e "firstKeptEntryIndex" = some (.number x) → indexOf x = some j → migrated[j]? = some target →
    isKind target "session" = false → field e' "firstKeptEntryId" = field target "id"
  unindexed : Forall₂ Unindexed entries migrated

section Entries
variable {e : Json} (randomUUID : Nat → JsString)

/-- One turn of the loop: the entry after it. -/
def migrateEntry (done : List Json) (prevId : Option JsString) (drawn : Nat) (e : Json) (rest : List Json) : Json :=
  if isKind e "session" then setField e "version" (.number (JsNumber.ofInt 2))
  else
    let chained := setField (setField e "id" (.string ((randomUUID drawn).take 8))) "parentId" (strOrNull prevId).1
    if isKind chained "compaction" then migrateCompaction (done ++ chained :: rest) chained else chained

theorem migrateV1From_cons (done : List Json) (prevId : Option JsString) (drawn : Nat) (e : Json) (rest : List Json) :
    migrateV1From randomUUID done prevId drawn (e :: rest) =
      if isKind e "session" then
        migrateV1From randomUUID (done ++ [migrateEntry randomUUID done prevId drawn e rest]) prevId drawn rest
      else migrateV1From randomUUID (done ++ [migrateEntry randomUUID done prevId drawn e rest])
        (some ((randomUUID drawn).take 8)) (drawn + 1) rest := by
  have hshort : generateId (fun _ => false) (fun i => randomUUID (drawn + i)) = (randomUUID drawn).take 8 := rfl
  rw [migrateV1From, migrateEntry, hshort]
  split
  · rfl
  · rfl

theorem setField_object {v : Json} (hv : ∃ props, v = .object props) (key : String) (value : Json) :
    ∃ props, setField v key value = .object props := by
  obtain ⟨props, rfl⟩ := hv
  exact ⟨_, rfl⟩

theorem field_setField {v : Json} (hv : ∃ props, v = .object props) (key other : String) (value : Json) :
    field (setField v key value) other = if key = other then some value else field v other := by
  obtain ⟨props, rfl⟩ := hv
  rw [setField, field, JsProps.get?_define, field]
  exact if_congr ofString_injective.eq_iff rfl rfl

theorem field_deleteField (v : Json) (key other : String) :
    field (deleteField v key) other = if key = other then none else field v other := by
  cases v with
  | object props =>
    rw [deleteField, field, JsProps.get?_erase, field]
    exact if_congr ofString_injective.eq_iff rfl rfl
  | _ => simp [deleteField, field]

theorem field_migrateCompaction (hv : ∃ props, e = .object props) (entries : List Json) {key : String}
    (h₁ : key ≠ "firstKeptEntryId") (h₂ : key ≠ "firstKeptEntryIndex") :
    field (migrateCompaction entries e) key = field e key := by
  rw [migrateCompaction]
  split
  · rw [field_deleteField, if_neg h₂.symm]
    split
    · rfl
    · split
      · rfl
      · split
        · rw [field_setField hv, if_neg h₁.symm]
        · rw [field_deleteField, if_neg h₁.symm]
  · rfl

theorem isKind_congr {e' : Json} (h : field e' "type" = field e "type") (kind : String) :
    isKind e' kind = isKind e kind := by rw [isKind, isKind, stringField, stringField, h]

theorem isKind_exclusive {kind : String} (h : isKind e kind = true) (hne : kind ≠ "session") :
    isKind e "session" = false := by
  refine Bool.eq_false_iff.mpr fun hs => hne (ofString_injective ?_)
  rw [isKind, decide_eq_true_eq] at h hs
  exact Option.some.inj (h.symm.trans hs)

section Turn
variable {done rest : List Json} {prevId : Option JsString} {drawn : Nat} (hv : ∃ props, e = .object props)
include hv

theorem migrateEntry_same {key : String} (hkey : key ∉ migratedFields) :
    field (migrateEntry randomUUID done prevId drawn e rest) key = field e key := by
  simp only [migratedFields, mem_cons, not_mem_nil, or_false, not_or] at hkey
  obtain ⟨hver, hid, hparent, hkept, hindex⟩ := hkey
  have hchain : ∀ id parent, field (setField (setField e "id" id) "parentId" parent) key = field e key :=
    fun id parent => by
      rw [field_setField (setField_object hv _ _), if_neg (Ne.symm hparent), field_setField hv, if_neg (Ne.symm hid)]
  rw [migrateEntry]
  split
  · rw [field_setField hv, if_neg (Ne.symm hver)]
  · dsimp only
    split
    · rw [field_migrateCompaction (setField_object (setField_object hv _ _) _ _) _ hkept hindex, hchain]
    · rw [hchain]

theorem migrateEntry_kind (kind : String) :
    isKind (migrateEntry randomUUID done prevId drawn e rest) kind = isKind e kind :=
  isKind_congr (migrateEntry_same randomUUID hv (by decide)) kind

theorem migrateEntry_named (h : isKind e "session" = false) :
    field (migrateEntry randomUUID done prevId drawn e rest) "id" = some (.string ((randomUUID drawn).take 8)) ∧
      field (migrateEntry randomUUID done prevId drawn e rest) "parentId" = some (strOrNull prevId).1 := by
  have hobj := fun id parent => setField_object (setField_object hv "id" id) "parentId" parent
  rw [migrateEntry, if_neg (by simp [h])]
  dsimp only
  split
  · rw [field_migrateCompaction (hobj _ _) _ (by decide) (by decide),
      field_migrateCompaction (hobj _ _) _ (by decide) (by decide)]
    constructor
    · rw [field_setField (setField_object hv _ _), if_neg (by decide), field_setField hv, if_pos rfl]
    · rw [field_setField (setField_object hv _ _), if_pos rfl]
  · constructor
    · rw [field_setField (setField_object hv _ _), if_neg (by decide), field_setField hv, if_pos rfl]
    · rw [field_setField (setField_object hv _ _), if_pos rfl]

theorem migrateEntry_unindexed : Unindexed e (migrateEntry randomUUID done prevId drawn e rest) := by
  intro h x hx
  have hfield : ∀ id parent key, key ≠ "id" → key ≠ "parentId" →
      field (setField (setField e "id" id) "parentId" parent) key = field e key := fun id parent key h₁ h₂ => by
    rw [field_setField (setField_object hv _ _), if_neg h₂.symm, field_setField hv, if_neg h₁.symm]
  rw [migrateEntry, if_neg (by simp [isKind_exclusive h (by decide)])]
  dsimp only
  rw [isKind_congr (hfield _ _ "type" (by decide) (by decide)), if_pos h, migrateCompaction, hfield _ _ _ (by decide) (by decide), hx]
  dsimp only
  rw [field_deleteField, if_pos rfl]

omit hv

theorem entryAt_number {x : JsNumber} {j : Nat} (h : indexOf x = some j) (entries : List Json) :
    entryAt entries (.number x) = entries[j]? := by
  rw [indexOf] at h
  split at h
  · rename_i hx
    cases h
    rw [entryAt, if_pos hx]
  · cases h

/-- What the loop sees at the index of a compaction: the entries before are migrated, those
after are not. -/
theorem migrateEntry_kept (hv : ∃ props, e = .object props) (h : isKind e "compaction" = true) {x : JsNumber}
    (hx : field e "firstKeptEntryIndex" = some (.number x)) {j : Nat} (hj : indexOf x = some j) {target : Json}
    (htgt : (done ++ migrateEntry randomUUID done prevId drawn e rest :: rest)[j]? = some target)
    (hkind : isKind target "session" = false) :
    field (migrateEntry randomUUID done prevId drawn e rest) "firstKeptEntryId" = field target "id" := by
  have hsess := isKind_exclusive h (by decide)
  obtain ⟨chained, hchain⟩ : ∃ chained, chained =
    setField (setField e "id" (.string ((randomUUID drawn).take 8))) "parentId" (strOrNull prevId).1 := ⟨_, rfl⟩
  have hobj : ∃ props, chained = .object props := hchain ▸ setField_object (setField_object hv _ _) _ _
  have hfield : ∀ key, key ≠ "id" → key ≠ "parentId" → field chained key = field e key := fun key h₁ h₂ => by
    rw [hchain, field_setField (setField_object hv _ _), if_neg h₂.symm, field_setField hv, if_neg h₁.symm]
  have hentry : migrateEntry randomUUID done prevId drawn e rest =
      migrateCompaction (done ++ chained :: rest) chained := by
    rw [migrateEntry, if_neg (by simp [hsess])]
    dsimp only
    rw [← hchain, isKind_congr (hfield "type" (by decide) (by decide)), if_pos h]
  -- The entry at the index has the id and the kind that it has in the end.
  obtain ⟨seen, hseen, hsame, hseenKind⟩ : ∃ seen, (done ++ chained :: rest)[j]? = some seen ∧
      field seen "id" = field target "id" ∧ isKind seen "session" = false := by
    by_cases hpos : j = done.length
    · subst hpos
      rw [getElem?_append_right (le_refl _), Nat.sub_self] at htgt ⊢
      obtain rfl : migrateEntry randomUUID done prevId drawn e rest = target := Option.some.inj htgt
      refine ⟨chained, rfl, ?_, ?_⟩
      · rw [hentry, field_migrateCompaction hobj _ (by decide) (by decide)]
      · rw [isKind_congr (hfield "type" (by decide) (by decide)), hsess]
    · refine ⟨target, ?_, rfl, hkind⟩
      rcases Nat.lt_or_gt_of_ne hpos with hlt | hgt
      · rwa [getElem?_append_left hlt] at htgt ⊢
      · obtain ⟨k, rfl⟩ := Nat.exists_eq_add_of_lt hgt
        rw [getElem?_append_right (by omega), show done.length + k + 1 - done.length = k + 1 by omega] at htgt ⊢
        exact htgt
  have hat : entryAt (done ++ chained :: rest) (.number x) = some seen := (entryAt_number hj _).trans hseen
  rw [hentry, migrateCompaction, hfield _ (by decide) (by decide), hx]
  dsimp only
  rw [hat]
  dsimp only
  rw [if_neg (by simp [hseenKind]), field_deleteField, if_neg (by decide)]
  cases hid : field seen "id" with
  | none => rw [← hsame, hid, field_deleteField, if_pos rfl]
  | some id => rw [← hsame, hid, field_setField hobj, if_pos rfl]

end Turn

/-- What the loop makes of `rest` after `done`. -/
structure Tail (done rest : List Json) (prevId : Option JsString) (drawn : Nat) (tail : List Json) : Prop where
  same : Forall₂ (fun e e' => ∀ key, key ∉ migratedFields → field e' key = field e key) rest tail
  ids : (branchOf tail).map (field · "id") =
    (range' drawn (branchOf rest).length).map fun i => some (.string ((randomUUID i).take 8))
  chain : (branchOf tail).map (field · "parentId") = ((strOrNull prevId).1 ::
    (range' drawn (branchOf rest).length).map fun i => .string ((randomUUID i).take 8)).dropLast.map some
  kept : ∀ (i j : Nat) e e' x target, rest[i]? = some e → tail[i]? = some e' → isKind e "compaction" = true →
    field e "firstKeptEntryIndex" = some (.number x) → indexOf x = some j → (done ++ tail)[j]? = some target →
    isKind target "session" = false →
    field e' "firstKeptEntryId" = if j ≤ done.length + i then field target "id" else none
  unindexed : Forall₂ Unindexed rest tail

variable {randomUUID}

theorem getElem?_same {rest tail : List Json}
    (h : Forall₂ (fun e e' => ∀ key, key ∉ migratedFields → field e' key = field e key) rest tail) {j : Nat} {target : Json}
    (htgt : tail[j]? = some target) :
    ∃ e, rest[j]? = some e ∧ ∀ kind, isKind target kind = isKind e kind := by
  obtain ⟨hj, rfl⟩ := List.getElem?_eq_some_iff.mp htgt
  have hlt : j < rest.length := h.length_eq ▸ hj
  exact ⟨rest[j], getElem?_eq_getElem hlt, isKind_congr (h.get hlt hj "type" (by decide))⟩

theorem tail_of_migrate {rest : List Json} (hrest : ∀ e ∈ rest, VersionOne e) (done : List Json)
    (prevId : Option JsString) (drawn : Nat) :
    ∃ tail, migrateV1From randomUUID done prevId drawn rest = done ++ tail ∧
      Tail randomUUID done rest prevId drawn tail := by
  induction rest generalizing done prevId drawn with
  | nil => exact ⟨[], by rw [migrateV1From, append_nil], .nil, rfl, rfl, nofun, .nil⟩
  | cons e rest ih =>
    have hv := (hrest e mem_cons_self).1
    have hlater := fun f hf => hrest f (mem_cons_of_mem _ hf)
    obtain ⟨e', he'⟩ : ∃ e', e' = migrateEntry randomUUID done prevId drawn e rest := ⟨_, rfl⟩
    have hkind : ∀ kind, isKind e' kind = isKind e kind := he' ▸ migrateEntry_kind randomUUID hv
    have hkept : ∀ {tail : List Json} {prev n}, Tail randomUUID (done ++ [e']) rest prev n tail →
        ∀ (i j : Nat) f f' x target, (e :: rest)[i]? = some f → (e' :: tail)[i]? = some f' →
          isKind f "compaction" = true → field f "firstKeptEntryIndex" = some (.number x) → indexOf x = some j →
          (done ++ e' :: tail)[j]? = some target → isKind target "session" = false →
          field f' "firstKeptEntryId" = if j ≤ done.length + i then field target "id" else none := by
      intro tail prev n htail i j f f' x target hf hf' hcomp hx hj htgt hsess
      rw [append_cons] at htgt
      cases i with
      | succ i =>
        rw [htail.kept i j f f' x target hf hf' hcomp hx hj htgt hsess, length_append, length_singleton,
          Nat.add_assoc, Nat.add_comm 1 i]
      | zero =>
        cases hf
        cases hf'
        rw [he', Nat.add_zero]
        by_cases hle : j ≤ done.length
        · rw [if_pos hle]
          refine migrateEntry_kept randomUUID hv hcomp hx hj ?_ hsess
          rw [← he', append_cons, getElem?_append_left (by simp; omega)]
          rwa [getElem?_append_left (by simp; omega)] at htgt
        · rw [if_neg hle]
          rw [getElem?_append_right (by simp; omega)] at htgt
          obtain ⟨seen, hseen, hseenKind⟩ := getElem?_same htail.same htgt
          have hat : (done ++ e' :: rest)[j]? = some seen := by
            rw [append_cons, getElem?_append_right (by simp; omega)]
            exact hseen
          rw [hseenKind] at hsess
          rw [migrateEntry_kept randomUUID hv hcomp hx hj (he' ▸ hat) hsess]
          rcases (hlater seen (mem_of_getElem? hseen)).2 with h | h
          · rw [h] at hsess
            cases hsess
          · exact h
    have hsame : ∀ key, key ∉ migratedFields → field e' key = field e key := fun key hkey => by
      rw [he', migrateEntry_same randomUUID hv hkey]
    have hunindexed : Unindexed e e' := he' ▸ migrateEntry_unindexed randomUUID hv
    rw [migrateV1From_cons, ← he']
    cases hsess : isKind e "session" with
    | true =>
      obtain ⟨tail, hmigrated, htail⟩ := ih hlater (done ++ [e']) prevId drawn
      refine ⟨e' :: tail, by rw [if_pos rfl, hmigrated, append_cons done e' tail], .cons hsame htail.same, ?_, ?_, hkept htail,
        .cons hunindexed htail.unindexed⟩
      · simpa [branchOf, hsess, hkind] using htail.ids
      · simpa [branchOf, hsess, hkind] using htail.chain
    | false =>
      obtain ⟨tail, hmigrated, htail⟩ := ih hlater (done ++ [e']) (some ((randomUUID drawn).take 8)) (drawn + 1)
      obtain ⟨hid, hparent⟩ : field e' "id" = some (.string ((randomUUID drawn).take 8)) ∧
          field e' "parentId" = some (strOrNull prevId).1 := he' ▸ migrateEntry_named randomUUID hv hsess
      refine ⟨e' :: tail, by rw [if_neg (by simp), hmigrated, append_cons done e' tail], .cons hsame htail.same, ?_, ?_, hkept htail,
        .cons hunindexed htail.unindexed⟩
      · have hids := htail.ids
        simp only [branchOf] at hids
        simp [branchOf, hsess, hkind, hid, hids, range'_succ]
      · have hchain := htail.chain
        simp only [branchOf] at hchain
        simp [branchOf, hsess, hkind, hparent, hchain, range'_succ, strOrNull, str]

end Entries

/-- A list of version 1 is migrated just when the short forms of the ids that are drawn for its
entries differ and no compaction has the index of an entry after it. -/
theorem migrated_iff (randomUUID : Nat → JsString) (entries : List EntryV1) :
    Migrated (entries.map Subtype.val) (migrateV1ToV2 randomUUID (entries.map Subtype.val)) ↔
      ((List.range (branchOf (entries.map Subtype.val)).length).map fun i => (randomUUID i).take 8).Nodup ∧
        ∀ (i j : Nat) (e target : EntryV1) x, entries[i]? = some e → isKind e.1 "compaction" = true →
          field e.1 "firstKeptEntryIndex" = some (.number x) → indexOf x = some j → entries[j]? = some target →
          isKind target.1 "session" = false → j ≤ i := by
  obtain ⟨tail, hmigrated, htail⟩ := @tail_of_migrate randomUUID _
    (List.forall_mem_map.mpr fun e _ => e.2 : ∀ e ∈ entries.map Subtype.val, VersionOne e) [] none 0
  rw [migrateV1ToV2, hmigrated, nil_append]
  have hnamed : ∀ e ∈ branchOf tail, field e "id" = some (.string (idOf e)) := fun e he => by
    have hmem : field e "id" ∈ (branchOf tail).map (field · "id") := mem_map_of_mem he
    rw [htail.ids] at hmem
    obtain ⟨i, _, hi⟩ := mem_map.mp hmem
    rw [← hi, idOf, stringField_eq.mpr hi.symm, Option.getD_some]
  have hids : (branchOf tail).map idOf =
      (List.range (branchOf (entries.map Subtype.val)).length).map fun i => (randomUUID i).take 8 := by
    have hinj : Function.Injective fun s : JsString => some (Json.string s) := fun _ _ h => by cases h; rfl
    refine map_injective_iff.mpr hinj ?_
    rw [map_map, map_map, range_eq_range']
    exact (map_congr_left hnamed).symm.trans htail.ids
  have hseen : ∀ (i : Nat) e, (entries.map Subtype.val)[i]? = some e → ∃ e' : EntryV1, entries[i]? = some e' ∧ e'.1 = e :=
    fun i e he => by rwa [getElem?_map, Option.map_eq_some_iff] at he
  constructor
  · intro h
    refine ⟨hids ▸ h.distinct, fun i j e target x he hcomp hx hj htarget hsession => ?_⟩
    have hat : ∀ (k : Nat) (f : EntryV1), entries[k]? = some f → ∃ f', tail[k]? = some f' ∧
        ∀ kind, isKind f' kind = isKind f.1 kind := fun k f hf => by
      have hk : k < tail.length := by
        rw [← htail.same.length_eq, length_map]
        exact (List.getElem?_eq_some_iff.mp hf).1
      obtain ⟨f', hf', hkind⟩ := getElem?_same htail.same (List.getElem?_eq_getElem hk)
      rw [getElem?_map, hf] at hf'
      exact ⟨tail[k], List.getElem?_eq_getElem hk, by cases hf'; exact hkind⟩
    obtain ⟨e', he', _⟩ := hat i e he
    obtain ⟨target', htarget', hkind⟩ := hat j target htarget
    rw [← hkind] at hsession
    have hentry : (entries.map Subtype.val)[i]? = some e.1 := by rw [getElem?_map, he]; rfl
    have hclaim := h.kept i j e.1 e' x target' hentry he' hcomp hx hj htarget' hsession
    by_contra hlt
    rw [htail.kept i j e.1 e' x target' hentry he' hcomp hx hj htarget' hsession, if_neg (by simpa using hlt),
      hnamed target' (mem_filter.mpr ⟨mem_of_getElem? htarget', by simp [hsession]⟩)] at hclaim
    cases hclaim
  · rintro ⟨hdistinct, hearlier⟩
    refine ⟨htail.same, hnamed, hids ▸ hdistinct, ?_, fun i j e e' x target he he' hcomp hx hj htarget hsession => ?_, htail.unindexed⟩
    · have hstrings : ((branchOf tail).map fun e => Json.string (idOf e)) =
          (range' 0 (branchOf (entries.map Subtype.val)).length).map fun i => .string ((randomUUID i).take 8) := by
        rw [← range_eq_range']
        simpa [Function.comp_def] using congrArg (map Json.string) hids
      rw [hstrings]
      exact htail.chain
    · obtain ⟨seen, hat, hkind⟩ := getElem?_same htail.same htarget
      obtain ⟨f, hf, rfl⟩ := hseen i e he
      obtain ⟨g, hg, rfl⟩ := hseen j seen hat
      have hle := hearlier i j f g x hf hcomp hx hj hg (hkind "session" ▸ hsession)
      rw [htail.kept i j f.1 e' x target he he' hcomp hx hj htarget hsession, if_pos (by simpa using hle)]

/-- Two messages that draw the same short form get one id. -/
theorem migrated_repeated : let message := Json.object [(ofString "type", .string (ofString "message"))]
    ¬ Migrated [message, message]
      (migrateV1ToV2 (fun _ => ofString "00000000-0000-4000-8000-000000000000") [message, message]) := by
  intro message h
  have hdistinct := h.distinct
  revert hdistinct
  decide

end Shuvpi.SessionFile
