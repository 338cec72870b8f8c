import Shuvpi.ToolDeclarations

/-!
# Entries of a session file

`core/session-manager.ts`: the entries of a session are objects that are written to the
session file as one line of JSON each, and are read back without validation. An entry is
therefore a JSON value here, and `entry.type` the own property of that name; a property
whose value is undefined is one that is not there.
-/
namespace Shuvpi.SessionFile

open JsText (ofString ofString_injective)
open Transcript (JsonNumbers Plain wire)

/-- A value, as far as JSON sees it. -/
abbrev Value := { v : Json // Plain v }

/-! ## Objects -/

/-- `value[key]` -/
def field (v : Json) (key : String) : Option Json :=
  match v with
  | .object props => JsProps.get? props (ofString key)
  | _ => none

def stringField (v : Json) (key : String) : Option JsString :=
  match field v key with
  | some (.string s) => some s
  | _ => none

/-- `value[key] = field`, which only objects keep. -/
def setField (v : Json) (key : String) (value : Json) : Json :=
  match v with
  | .object props => .object (JsProps.define props (ofString key) value)
  | v => v

def deleteField (v : Json) (key : String) : Json :=
  match v with
  | .object props => .object (JsProps.erase props (ofString key))
  | v => v

def str (s : JsString) : Value := ⟨.string s, .string s⟩
def strOrNull : Option JsString → Value
  | none => ⟨.null, .null⟩
  | some s => str s
def num (x : JsNumber) : Value := ⟨.number x, .number x⟩
def bool (b : Bool) : Value := ⟨.boolean b, .boolean b⟩

abbrev Fields := List (String × Option Value)

def defineField (props : JsProps Json) (p : String × Option Value) : JsProps Json :=
  match p.2 with
  | none => props
  | some v => JsProps.define props (ofString p.1) v.1

/-- An object literal. -/
def objectOf (fields : Fields) : Json := .object (fields.foldl defineField [])

def lookupField (fields : Fields) (key : String) : Option Json :=
  ((fields.find? fun p => p.1 = key).bind Prod.snd).map Subtype.val

theorem get?_foldl_defineField {fields : Fields} (h : (fields.map Prod.fst).Nodup)
    (props : JsProps Json) (key : String) :
    JsProps.get? (fields.foldl defineField props) (ofString key) =
      (lookupField fields key).or (JsProps.get? props (ofString key)) := by
  induction fields generalizing props with
  | nil => rfl
  | cons p fields ih =>
    obtain ⟨name, value⟩ := p
    obtain ⟨hname, hrest⟩ := List.nodup_cons.mp h
    rw [List.foldl_cons, ih hrest]
    by_cases hkey : name = key
    · subst hkey
      have hlater : lookupField fields name = none := by
        have hnone : fields.find? (fun p => p.1 = name) = none := List.find?_eq_none.mpr fun p hp => by
          intro heq
          obtain rfl : p.1 = name := of_decide_eq_true heq
          have hmem : p.1 ∈ fields.map Prod.fst := List.mem_map_of_mem hp
          exact hname hmem
        rw [lookupField, hnone]
        rfl
      rw [hlater, lookupField, List.find?_cons_of_pos (by simp)]
      cases value with
      | none => rfl
      | some v =>
        rw [defineField, JsProps.get?_define, if_pos rfl]
        rfl
    · have hother : JsProps.get? (defineField props (name, value)) (ofString key) =
          JsProps.get? props (ofString key) := by
        cases value with
        | none => rfl
        | some v =>
          rw [defineField, JsProps.get?_define, if_neg fun he => hkey (ofString_injective he)]
      rw [hother, lookupField, lookupField, List.find?_cons_of_neg (by simpa using hkey)]

/-- Reading a property of an object literal. -/
theorem field_objectOf {fields : Fields} (h : (fields.map Prod.fst).Nodup) (key : String) :
    field (objectOf fields) key = lookupField fields key := by
  rw [objectOf, field, get?_foldl_defineField h]
  exact Option.or_none

theorem objectOf_plain (fields : Fields) : Plain (objectOf fields) := by
  have hrun : ∀ props : JsProps Json, props.Wf → (∀ p ∈ props, Plain p.2) →
      JsProps.Wf (fields.foldl defineField props) ∧
        ∀ p ∈ fields.foldl defineField props, Plain p.2 := by
    induction fields with
    | nil => exact fun _ hwf hall => ⟨hwf, hall⟩
    | cons p fields ih =>
      intro props hwf hall
      rw [List.foldl_cons]
      cases hp : p.2 with
      | none => exact ih _ (by rwa [defineField, hp]) (by rwa [defineField, hp])
      | some v =>
        rw [defineField, hp]
        refine ih _ (JsProps.define_wf _ _ _ hwf) fun q hq => ?_
        have hq : q ∈ JsProps.define props (ofString p.1) v.1 := hq
        rw [JsProps.define] at hq
        split at hq
        · obtain ⟨r, hr, rfl⟩ := List.mem_map.mp hq
          split
          · exact v.2
          · exact hall r hr
        · rcases List.mem_cons.mp ((JsProps.insertNew_perm _ _ _).mem_iff.mp hq) with rfl | hq
          · exact v.2
          · exact hall q hq
  have hempty := hrun [] JsProps.wf_nil (by simp)
  exact .object hempty.1 hempty.2

/-! ## What JSON keeps of an object -/

theorem field_wire (v : Json) (key : String) : field (wire v) key = (field v key).map wire := by
  cases v with
  | object props =>
    rw [wire, Transcript.wireProps_eq]
    induction props with
    | nil => rfl
    | cons p props ih =>
      rw [field, field, List.map_cons, JsProps.get?_cons, JsProps.get?_cons]
      split
      · rfl
      · exact ih
  | number x =>
    rw [wire, Transcript.wireNumber]
    split
    · split <;> rfl
    · rfl
  | _ => rfl

theorem wire_string {v : Json} {s : JsString} : wire v = .string s ↔ v = .string s := by
  cases v with
  | number x =>
    rw [wire, Transcript.wireNumber]
    split
    · split <;> simp
    · simp
  | _ => simp [wire]

theorem stringField_eq {v : Json} {key : String} {s : JsString} :
    stringField v key = some s ↔ field v key = some (.string s) := by
  rw [stringField]
  split
  · rename_i s' h
    simp [h]
  · rename_i h
    exact ⟨fun h' => (by cases h'), fun h' => absurd h' (h s)⟩

@[simp] theorem stringField_wire (v : Json) (key : String) :
    stringField (wire v) key = stringField v key := by
  apply Option.ext
  intro s
  rw [stringField_eq, stringField_eq, field_wire, Option.map_eq_some_iff]
  constructor
  · rintro ⟨w, hw, hs⟩
    rw [hw, wire_string.mp hs]
  · exact fun h => ⟨_, h, wire_string.mpr rfl⟩

/-! ## Entries -/

/-- `entry.type === kind` -/
def isKind (v : Json) (kind : String) : Bool := stringField v "type" = some (ofString kind)

/-- Ids that are not strings count as empty. -/
def idOf (v : Json) : JsString := (stringField v "id").getD []

def parentOf (v : Json) : Option JsString := stringField v "parentId"

/-- `entry.type === "message" && entry.message.role === role` -/
def isMessageOf (v : Json) (role : String) : Bool := isKind v "message" &&
    ((field v "message").bind fun m => stringField m "role") = some (ofString role)

structure SessionHeader where
  sessionId : JsString
  timestamp : JsString
  cwd : JsString
  parentSession : Option JsString

def CURRENT_SESSION_VERSION : JsNumber := JsNumber.ofInt 3

def headerFields (h : SessionHeader) : Fields := [
  ("type", str (ofString "session")), ("version", num CURRENT_SESSION_VERSION), ("id", str h.sessionId),
  ("timestamp", str h.timestamp), ("cwd", str h.cwd), ("parentSession", h.parentSession.map str)]

/-- What an entry of any kind has. -/
structure Stamp where
  entryId : JsString
  parentId : Option JsString
  timestamp : JsString

def Stamp.fields (s : Stamp) : Fields := [
  ("id", str s.entryId), ("parentId", strOrNull s.parentId), ("timestamp", str s.timestamp)]

/-- The fields of an entry: its type, those before the stamp, the stamp, and the others. -/
def entryFields (kind : String) (s : Stamp) (front back : Fields) : Fields :=
  ("type", some (str (ofString kind))) :: (front ++ (s.fields ++ back))

def messageEntry (s : Stamp) (message : Value) : Json := objectOf (entryFields "message" s [] [("message", message)])

def thinkingLevelChangeEntry (s : Stamp) (thinkingLevel : JsString) : Json :=
  objectOf (entryFields "thinking_level_change" s [] [("thinkingLevel", str thinkingLevel)])

def modelChangeEntry (s : Stamp) (provider modelId : JsString) : Json := objectOf (entryFields "model_change" s []
    [("provider", str provider), ("modelId", str modelId)])

def usageEntry (s : Stamp) (kind provider model : JsString) (usage : Value) (note : JsString) : Json :=
  objectOf (entryFields "usage" s [] [("kind", str kind), ("provider", str provider),
    ("model", str model), ("usage", usage), ("note", if note = [] then none else str note)])

def compactionEntry (s : Stamp) (summary firstKeptEntryId : JsString) (tokensBefore : JsNumber)
    (details usage : Option Value) (fromHook : Option Bool) (systemMessage : Option Value) : Json :=
  objectOf (entryFields "compaction" s [] [("summary", str summary),
    ("firstKeptEntryId", str firstKeptEntryId), ("tokensBefore", num tokensBefore),
    ("details", details), ("usage", usage), ("fromHook", fromHook.map bool),
    ("systemMessage", systemMessage)])

def branchSummaryEntry (s : Stamp) (fromId summary : JsString) (details usage : Option Value)
    (fromHook : Option Bool) : Json :=
  objectOf (entryFields "branch_summary" s [] [("fromId", str fromId), ("summary", str summary),
    ("details", details), ("usage", usage), ("fromHook", fromHook.map bool)])

def customEntry (s : Stamp) (customType : JsString) (data : Option Value) : Json :=
  objectOf (entryFields "custom" s [("customType", str customType), ("data", data)] [])

def customMessageEntry (s : Stamp) (customType : JsString) (content : Value) (display : Bool)
    (details : Option Value) : Json :=
  objectOf (entryFields "custom_message" s [("customType", str customType), ("content", content),
    ("display", bool display), ("details", details)] [])

def contextEditEntry (s : Stamp) (targetId : JsString) (replacement : Value) : Json :=
  objectOf (entryFields "context_edit" s []
    [("targetId", str targetId), ("replacement", replacement)])

def labelEntry (s : Stamp) (targetId : JsString) (label : Option JsString) : Json :=
  objectOf (entryFields "label" s [] [("targetId", str targetId), ("label", label.map str)])

def sessionInfoEntry (s : Stamp) (name : JsString) : Json :=
  objectOf (entryFields "session_info" s [] [("name", str name)])

/-! ## Ids -/

/-- The short form of one of a hundred random UUIDs that is not taken, or the next UUID. -/
def generateId (has : JsString → Bool) (randomUUID : Nat → JsString) : JsString :=
  match (List.range 100).find? fun i => !has ((randomUUID i).take 8) with
  | some i => (randomUUID i).take 8
  | none => randomUUID 100

end Shuvpi.SessionFile
