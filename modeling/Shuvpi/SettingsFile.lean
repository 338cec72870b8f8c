import Shuvpi.DeltaOps
import Shuvpi.JsMap

/-!
# The settings file

Settings are an object whose fields hold values; a few fields hold an object whose keys are set one
by one. A key names a field that is set as a whole or one of these nested keys. `persist` puts what is
marked of a snapshot over the current content of the file.
-/
namespace Shuvpi.SettingsFile

open JsText (ofString)
open Option

abbrev Settings := JsProps Json

@[ext] structure Key where
  field : JsString
  nestedKey : Option JsString := none
  deriving DecidableEq

/-- The fields of which single keys are set. -/
def nestedFields : List JsString :=
  ["compaction", "retry", "terminal", "images", "markdown", "modelThinkingLevels"].map ofString

/-- The fields of which single keys are set, but that are marked and written as a whole. -/
def wholeFields : List JsString := ["modelThinkingLevels"].map ofString

/-- A nested key names a key of a nested field. -/
def Key.Valid (k : Key) : Prop := k.nestedKey.isSome = true ↔ k.field ∈ nestedFields

instance (k : Key) : Decidable k.Valid := inferInstanceAs (Decidable (_ ↔ _))

/-! ## Reading and assigning -/

/-- The own properties of a value: what `{ ...value }` copies and `value[key]` reads. -/
def ownProps : Json → JsProps Json
  | .object props => props
  | .array items => items.zipIdx.map fun p => (Delta.decimal p.2, p.1)
  | .string text => text.zipIdx.map fun p => (Delta.decimal p.2, .string [p.1])
  | _ => []

/-- Assignment; an undefined value is one that `JSON.stringify` leaves out. -/
def put (props : JsProps Json) (key : JsString) : Option Json → JsProps Json
  | some value => props.define key value
  | none => props.erase key

@[simp] theorem get?_put (props : JsProps Json) (key : JsString) (value : Option Json) (other : JsString) :
    (put props key value).get? other = if key = other then value else props.get? other := by
  cases value with
  | some value => exact JsProps.get?_define props key value other
  | none => exact JsProps.get?_erase props key other

def read (settings : Settings) (k : Key) : Option Json :=
  match k.nestedKey with
  | none => settings.get? k.field
  | some key => (settings.get? k.field).bind fun value => (ownProps value).get? key

theorem read_nil (k : Key) : read [] k = none := by
  rw [read]
  split <;> rfl

/-- `settings.field = value`, or `settings.field.key = value` on a nested object. A field that is
marked as a whole is deleted with its last key. -/
def putKey (settings : Settings) (k : Key) (value : Option Json) : Settings :=
  match k.nestedKey with
  | none => put settings k.field value
  | some key =>
    let props := put (((settings.get? k.field).map ownProps).getD []) key value
    put settings k.field (if k.field ∈ wholeFields ∧ props = [] then none else some (.object props))

theorem get?_props (props : JsProps Json) (p : Prop) [Decidable p] (key : JsString) :
    ((if p ∧ props = [] then none else some (Json.object props)).bind fun value => (ownProps value).get? key) =
      props.get? key := by
  split
  · rename_i h
    rw [h.2]
    rfl
  · rfl

theorem read_putKey (settings : Settings) {k k' : Key} (hk : k.Valid) (hk' : k'.Valid) (value : Option Json) :
    read (putKey settings k value) k' = if k = k' then value else read settings k' := by
  obtain ⟨field, nested⟩ := k
  obtain ⟨field', nested'⟩ := k'
  by_cases hfield : field = field'
  · subst hfield
    have hsame : nested.isSome = nested'.isSome := Bool.eq_iff_iff.mpr (hk.trans hk'.symm)
    cases nested with
    | none =>
      cases nested' with
      | none => simp [read, putKey]
      | some key' => cases hsame
    | some key =>
      cases nested' with
      | none => cases hsame
      | some key' =>
        simp only [read, putKey]
        rw [get?_put, if_pos rfl, get?_props, get?_put]
        by_cases hkey : key = key'
        · simp [hkey]
        · cases hget : settings.get? field <;> simp [hkey]
  · have hne : (⟨field, nested⟩ : Key) ≠ ⟨field', nested'⟩ := fun h => hfield (congrArg Key.field h)
    have hget : (putKey settings ⟨field, nested⟩ value).get? field' = settings.get? field' := by
      cases nested <;> simp [putKey, hfield]
    rw [if_neg hne, read, read]
    rw [hget]

/-! ## Migration -/

def migrateQueueMode (settings : Settings) : Settings :=
  match settings.get? (ofString "queueMode") with
  | some queueMode =>
    if settings.hasOwn (ofString "steeringMode") then settings
    else (settings.define (ofString "steeringMode") queueMode).erase (ofString "queueMode")
  | none => settings

def migrateWebsockets (settings : Settings) : Settings :=
  if settings.hasOwn (ofString "transport") then settings
  else
    match settings.get? (ofString "websockets") with
    | some (.boolean websockets) =>
      (settings.define (ofString "transport")
        (.string (if websockets then ofString "websocket" else ofString "sse"))).erase (ofString "websockets")
    | _ => settings

def migrateSkills (settings : Settings) : Settings :=
  match settings.get? (ofString "skills") with
  | some (.object skillsSettings) =>
    let commands :=
      match JsProps.get? skillsSettings (ofString "enableSkillCommands"),
          settings.get? (ofString "enableSkillCommands") with
      | some enable, none => settings.define (ofString "enableSkillCommands") enable
      | _, _ => settings
    match JsProps.get? skillsSettings (ofString "customDirectories") with
    | some (.array (directory :: directories)) =>
      commands.define (ofString "skills") (.array (directory :: directories))
    | _ => commands.erase (ofString "skills")
  | _ => settings

/-- `retry.provider` as far as it is an object. -/
def providerSettings (retry : JsProps Json) : Option (JsProps Json) :=
  match retry.get? (ofString "provider") with
  | some (.object props) => some props
  | some (.array items) => some (ownProps (.array items))
  | _ => none

def migrateRetry (settings : Settings) : Settings :=
  match settings.get? (ofString "retry") with
  | some (.object retrySettings) =>
    let provider := providerSettings retrySettings
    let moved : JsProps Json :=
      match JsProps.get? retrySettings (ofString "maxDelayMs"),
          provider.bind fun props => props.get? (ofString "maxRetryDelayMs") with
      | some (.number delay), none =>
        JsProps.define retrySettings (ofString "provider")
          (.object ((provider.getD []).define (ofString "maxRetryDelayMs") (.number delay)))
      | some (.number delay), some .null =>
        JsProps.define retrySettings (ofString "provider")
          (.object ((provider.getD []).define (ofString "maxRetryDelayMs") (.number delay)))
      | _, _ => retrySettings
    settings.define (ofString "retry") (.object (moved.erase (ofString "maxDelayMs")))
  | _ => settings

def migrateSettings (settings : Settings) : Settings :=
  migrateRetry (migrateSkills (migrateWebsockets (migrateQueueMode settings)))

/-! ## Marks -/

/-- The modified fields, and the nested keys modified of each. -/
structure Marks where
  modifiedFields : List JsString := []
  modifiedNestedFields : JsMap JsString (List JsString) := []

/-- `add` of a set. -/
def addTo (set : List JsString) (key : JsString) : List JsString := if key ∈ set then set else set ++ [key]

def Marks.markModified (marks : Marks) (k : Key) : Marks where
  modifiedFields := addTo marks.modifiedFields k.field
  modifiedNestedFields :=
    match k.nestedKey with
    | some key =>
      marks.modifiedNestedFields.set k.field (addTo ((marks.modifiedNestedFields.get k.field).getD []) key)
    | none => marks.modifiedNestedFields

/-- The key that a setter marks. -/
def Key.marked (k : Key) : Key := if k.field ∈ wholeFields then { k with nestedKey := none } else k

/-- The key is marked: with its field, or by itself. -/
def Marks.Marked (marks : Marks) (k : Key) : Prop :=
  match k.marked.nestedKey with
  | none => k.field ∈ marks.modifiedFields
  | some key => key ∈ (marks.modifiedNestedFields.get k.field).getD []

instance (marks : Marks) (k : Key) : Decidable (marks.Marked k) :=
  match h : k.marked.nestedKey with
  | none => decidable_of_iff (k.field ∈ marks.modifiedFields) (by rw [Marks.Marked, h])
  | some key => decidable_of_iff (key ∈ (marks.modifiedNestedFields.get k.field).getD []) (by rw [Marks.Marked, h])

/-- `typeof value === "object" && value !== null` -/
def isObject : Option Json → Bool
  | some (.object _) => true
  | some (.array _) => true
  | _ => false

/-! ## Persisting -/

/-- What the loop assigns to a modified field. -/
def persistedField (snapshot : Settings) (nested : JsMap JsString (List JsString)) (current : Settings)
    (field : JsString) : Option Json :=
  let value := snapshot.get? field
  match nested.get field with
  | some nestedModified =>
    if isObject value then
      let baseNested := ((current.get? field).map ownProps).getD []
      let inMemoryNested := (value.map ownProps).getD []
      some (.object (nestedModified.foldl
        (fun mergedNested nestedKey => put mergedNested nestedKey (inMemoryNested.get? nestedKey)) baseNested))
    else value
  | none => value

/-- The new content of the file; `current` is its migrated old content. -/
def persist (snapshot : Settings) (marks : Marks) (current : Settings) : Settings := marks.modifiedFields.foldl
    (fun merged field => put merged field (persistedField snapshot marks.modifiedNestedFields current field)) current

/-- Marks as the setters leave them: nested fields hold an object in the snapshot and have marked
keys, others have none. -/
structure WellMarked (marks : Marks) (snapshot : Settings) : Prop where
  nested : ∀ field ∈ marks.modifiedFields, field ∈ nestedFields → field ∉ wholeFields →
    (marks.modifiedNestedFields.get field).isSome = true ∧ isObject (snapshot.get? field) = true
  plain : ∀ field, field ∉ nestedFields ∨ field ∈ wholeFields → marks.modifiedNestedFields.get field = none
  fields : ∀ field, marks.modifiedNestedFields.get field ≠ none → field ∈ marks.modifiedFields

theorem get?_foldl_put (value : JsString → Option Json) (keys : List JsString) (props : JsProps Json)
    (key : JsString) :
    (keys.foldl (fun props key => put props key (value key)) props).get? key =
      if key ∈ keys then value key else props.get? key := by
  induction keys generalizing props with
  | nil => simp
  | cons first keys ih =>
    rw [List.foldl_cons, ih, get?_put]
    by_cases hmem : key ∈ keys
    · simp [hmem]
    · by_cases hfirst : first = key
      · simp [hfirst]
      · simp [hmem, hfirst, Ne.symm hfirst]

variable {k : Key}

/-- Persisting puts what is marked of the snapshot over the content, and nothing else. -/
theorem read_persist {snapshot : Settings} {marks : Marks} (hmarks : WellMarked marks snapshot)
    (current : Settings) (hk : k.Valid) :
    read (persist snapshot marks current) k = if marks.Marked k then read snapshot k else read current k := by
  obtain ⟨field, nested⟩ := k
  have hget := get?_foldl_put (persistedField snapshot marks.modifiedNestedFields current) marks.modifiedFields
    current field
  cases nested with
  | none =>
    have hplain := hmarks.plain field (.inl fun hmem => absurd (hk.mpr hmem) (by simp))
    have hmark : marks.Marked ⟨field, none⟩ ↔ field ∈ marks.modifiedFields := by
      simp [Marks.Marked, Key.marked]
    rw [if_congr hmark rfl rfl, read, read, read]
    rw [persist, hget, persistedField, hplain]
  | some key =>
    have hfield : field ∈ nestedFields := hk.mp rfl
    rw [read, read, read, persist, hget]
    by_cases hwhole : field ∈ wholeFields
    · have hmark : marks.Marked ⟨field, some key⟩ ↔ field ∈ marks.modifiedFields := by
        simp [Marks.Marked, Key.marked, hwhole]
      rw [if_congr hmark rfl rfl]
      by_cases hmem : field ∈ marks.modifiedFields
      · rw [if_pos hmem, if_pos hmem, persistedField, hmarks.plain field (.inr hwhole)]
      · rw [if_neg hmem, if_neg hmem]
    have hmark : marks.Marked ⟨field, some key⟩ ↔ key ∈ (marks.modifiedNestedFields.get field).getD [] := by
      simp [Marks.Marked, Key.marked, hwhole]
    rw [if_congr hmark rfl rfl]
    by_cases hmem : field ∈ marks.modifiedFields
    · obtain ⟨hsome, hobj⟩ := hmarks.nested field hmem hfield hwhole
      obtain ⟨keys, hkeys⟩ := isSome_iff_exists.mp hsome
      obtain ⟨value, hvalue⟩ : ∃ value, snapshot.get? field = some value := by
        cases h : snapshot.get? field with
        | none => rw [h] at hobj; cases hobj
        | some value => exact ⟨value, rfl⟩
      have hnest := get?_foldl_put (fun nestedKey => (ownProps value).get? nestedKey) keys
        (((current.get? field).map ownProps).getD []) key
      rw [if_pos hmem, persistedField, hkeys, hvalue]
      dsimp only
      rw [← hvalue, if_pos hobj, hvalue, bind_some, map_some, getD_some, ownProps, hnest, getD_some, bind_some]
      refine if_congr Iff.rfl rfl ?_
      cases current.get? field <;> rfl
    · have hnone : marks.modifiedNestedFields.get field = none := by
        by_contra hne
        exact hmem (hmarks.fields field hne)
      rw [if_neg hmem, hnone, getD_none, if_neg List.not_mem_nil]

/-! ## What migration leaves -/

/-- What a setter can assign: the old fields are not set any more, and what migration would fill in is
set to a value. -/
structure Settable (k : Key) (v : Option Json) : Prop where
  valid : k.Valid
  present : k.field ≠ ofString "queueMode" ∧ k.field ≠ ofString "websockets"
  defined : k.field = ofString "steeringMode" ∨ k.field = ofString "transport" ∨
    k.field = ofString "enableSkillCommands" → v ≠ none
  skills : k.field = ofString "skills" → ∃ items, v = some (.array items)
  retry : k.field = ofString "retry" →
    k.nestedKey ≠ some (ofString "provider") ∧ k.nestedKey ≠ some (ofString "maxDelayMs")

theorem read_congr {settings settings' : Settings}
    (h : settings'.get? k.field = settings.get? k.field) : read settings' k = read settings k := by
  rw [read, read, h]

theorem read_plain (hk : k.Valid) (hfield : k.field ∉ nestedFields) (settings : Settings) :
    read settings k = settings.get? k.field := by
  have hnone : k.nestedKey = none := by
    cases hn : k.nestedKey with
    | none => rfl
    | some key => exact absurd (hk.mp (by rw [hn]; rfl)) hfield
  rw [read, hnone]

variable {k : Key} {v : Option Json} {settings : Settings} (hk : Settable k v)
include hk

variable (h : read settings k = v)
include h

theorem read_migrateQueueMode :
    read (migrateQueueMode settings) k = v := by
  rw [migrateQueueMode]
  split
  · rename_i queueMode hqueue
    split
    · exact h
    · rename_i hmiss
      by_cases hfield : k.field = ofString "steeringMode"
      · have hget := read_plain hk.valid (by rw [hfield]; decide) settings
        have hne := hk.defined (.inl hfield)
        rw [h, hfield] at hget
        rw [JsProps.hasOwn, Bool.not_eq_true, isSome_eq_false_iff, isNone_iff_eq_none] at hmiss
        exact absurd (hget.trans hmiss) hne
      · rw [read_congr, h]
        rw [JsProps.get?_erase, if_neg (Ne.symm hk.present.1), JsProps.get?_define, if_neg (Ne.symm hfield)]
  · exact h

theorem read_migrateWebsockets :
    read (migrateWebsockets settings) k = v := by
  rw [migrateWebsockets]
  split
  · exact h
  · rename_i hmiss
    split
    · by_cases hfield : k.field = ofString "transport"
      · have hget := read_plain hk.valid (by rw [hfield]; decide) settings
        have hne := hk.defined (.inr (.inl hfield))
        rw [h, hfield] at hget
        rw [JsProps.hasOwn, Bool.not_eq_true, isSome_eq_false_iff, isNone_iff_eq_none] at hmiss
        exact absurd (hget.trans hmiss) hne
      · rw [read_congr, h]
        rw [JsProps.get?_erase, if_neg (Ne.symm hk.present.2), JsProps.get?_define, if_neg (Ne.symm hfield)]
    · exact h

theorem read_migrateSkills :
    read (migrateSkills settings) k = v := by
  rw [migrateSkills]
  split
  · rename_i skillsSettings hskills
    have hfield : k.field ≠ ofString "skills" := by
      intro hfield
      obtain ⟨items, rfl⟩ := hk.skills hfield
      rw [read_plain hk.valid (by rw [hfield]; decide), hfield, hskills] at h
      cases h
    have hcommands : ∀ enable, settings.get? (ofString "enableSkillCommands") = none →
        (settings.define (ofString "enableSkillCommands") enable).get? k.field = settings.get? k.field := by
      intro enable hnone
      by_cases henable : k.field = ofString "enableSkillCommands"
      · have hget := read_plain hk.valid (by rw [henable]; decide) settings
        rw [h, henable, hnone] at hget
        exact absurd hget (hk.defined (.inr (.inr henable)))
      · rw [JsProps.get?_define, if_neg (Ne.symm henable)]
    have hmoved : ∀ commands : Settings, commands.get? k.field = settings.get? k.field →
        read (match JsProps.get? skillsSettings (ofString "customDirectories") with
          | some (.array (directory :: directories)) =>
            commands.define (ofString "skills") (.array (directory :: directories))
          | _ => commands.erase (ofString "skills")) k = v := by
      intro commands hsame
      split
      · rw [read_congr, h]
        rw [JsProps.get?_define, if_neg (Ne.symm hfield), hsame]
      · rw [read_congr, h]
        rw [JsProps.get?_erase, if_neg (Ne.symm hfield), hsame]
    cases JsProps.get? skillsSettings (ofString "enableSkillCommands") with
    | none => exact hmoved _ rfl
    | some enable =>
      cases hnone : settings.get? (ofString "enableSkillCommands") with
      | none => exact hmoved _ (hcommands enable hnone)
      | some current => exact hmoved _ rfl
  · exact h

theorem read_migrateRetry :
    read (migrateRetry settings) k = v := by
  rw [migrateRetry]
  split
  · rename_i retrySettings hretry
    by_cases hfield : k.field = ofString "retry"
    · have hnest : k.field ∈ nestedFields := by rw [hfield]; decide
      obtain ⟨key, hkey⟩ := isSome_iff_exists.mp (hk.valid.mpr hnest)
      obtain ⟨hprov, hdelay⟩ := hk.retry hfield
      rw [hkey, ne_eq, some.injEq] at hprov hdelay
      have hread : JsProps.get? retrySettings key = v := by
        rw [read, hkey, hfield, hretry] at h
        exact h
      have hmoved : ∀ moved : JsProps Json, moved.get? key = JsProps.get? retrySettings key →
          read (settings.define (ofString "retry") (.object (moved.erase (ofString "maxDelayMs")))) k = v := by
        intro moved hsame
        rw [read, hkey]
        dsimp only
        rw [JsProps.get?_define, if_pos hfield.symm, bind_some, ownProps, JsProps.get?_erase,
          if_neg (Ne.symm hdelay), hsame, hread]
      have hdefine : ∀ value, (JsProps.define retrySettings (ofString "provider") value).get? key =
          JsProps.get? retrySettings key := by
        intro value
        rw [JsProps.get?_define, if_neg (Ne.symm hprov)]
      dsimp only
      split
      · exact hmoved _ (hdefine _)
      · exact hmoved _ (hdefine _)
      · exact hmoved _ rfl
    · rw [read_congr, h]
      rw [JsProps.get?_define, if_neg (Ne.symm hfield)]
  · exact h

/-- Migration leaves what a setter has assigned. -/
theorem read_migrateSettings : read (migrateSettings settings) k = v :=
  read_migrateRetry hk (read_migrateSkills hk (read_migrateWebsockets hk (read_migrateQueueMode hk h)))

end Shuvpi.SettingsFile
