import Shuvpi.SettingsFile

/-!
# Settings managers over one file

A setter changes the settings in memory, marks what it has changed and queues a write of a snapshot
with the marks of that moment. The writes of a manager run one after the other; each merges what its
marks name into the file under the file's lock, and clears the manager's marks when it succeeds.
-/
namespace Shuvpi.SettingsManager

open JsText (ofString ofString_injective)
open SettingsFile
open List Option

/-! ## Setters -/

/-- `Boolean(value)` -/
def truthy : Option Json → Bool
  | none => false
  | some .null => false
  | some (.boolean b) => b
  | some (.number x) => x ≠ JsNumber.ofInt 0 ∧ x ≠ JsNumber.negZero
  | some (.string text) => text ≠ []
  | some (.array _) => true
  | some (.object _) => true

/-- What a call assigns, in order; nothing where the assignment throws. -/
abbrev Assignments := Option (List (Key × Option Json))

def setField (field : String) (value : Option Json) : Assignments := some [(⟨ofString field, none⟩, value)]

/-- The object of a nested field, which is created where there is none. -/
def nestedObject (settings : Settings) (field : String) : Option (JsProps Json) :=
  match settings.get? (ofString field) with
  | some (.object props) => some props
  | value => if truthy value then none else some []

/-- `settings.field.key = value`, once the field holds an object. -/
def setNested (settings : Settings) (field key : String) (value : Json) : Assignments :=
  (nestedObject settings field).map fun _ => [(⟨ofString field, some (ofString key)⟩, some value)]

def strings (texts : List JsString) : Json := .array (texts.map .string)

def modelKey (provider modelId : JsString) : JsString := provider ++ ofString "/" ++ modelId

/-- The calls that change global settings. Numbers are those that the setter stores. -/
inductive SetterCall where
  | setLastChangelogVersion (version : JsString)
  | setDefaultProvider (provider : JsString)
  | setDefaultModel (modelId : JsString)
  | setDefaultModelAndProvider (provider modelId : JsString)
  | setSteeringMode (mode : JsString)
  | setFollowUpMode (mode : JsString)
  | setTheme (theme : JsString)
  | setDefaultThinkingLevel (level : JsString)
  | setModelThinkingLevel (provider modelId level : JsString)
  | removeModelThinkingLevel (provider modelId : JsString)
  | setTransport (transport : JsString)
  | setCompactionEnabled (enabled : Bool)
  | setRetryEnabled (enabled : Bool)
  | setHttpIdleTimeoutMs (timeoutMs : JsNumber)
  | setCacheWarmingMode (mode : JsString)
  | setHideThinkingBlock (hide : Bool)
  | setShowCacheMissNotices (show' : Bool)
  | setShellPath (path : Option JsString)
  | setQuietStartup (quiet : Bool)
  | setDefaultProjectTrust (defaultProjectTrust : JsString)
  | setShellCommandPrefix (commandPrefix : Option JsString)
  | setNpmCommand (command : Option (List JsString))
  | setCollapseChangelog (collapse : Bool)
  | setEnableInstallTelemetry (enabled : Bool)
  | setEnableAnalytics (enabled : Bool) (randomUUID : JsString)
  | setPackages (packages : List Json)
  | setExtensionPaths (paths : List JsString)
  | setSkillPaths (paths : List JsString)
  | setPromptTemplatePaths (paths : List JsString)
  | setThemePaths (paths : List JsString)
  | setEnableSkillCommands (enabled : Bool)
  | setShowImages (show' : Bool)
  | setImageWidthCells (width : JsNumber)
  | setClearOnShrink (enabled : Bool)
  | setShowTerminalProgress (enabled : Bool)
  | setTuiMode (mode : JsString)
  | setFullscreenExitOutput (output : JsString)
  | setFullscreenScrollbar (mode : JsString)
  | setFullscreenCopyOnSelect (enabled : Bool)
  | setImageAutoResize (enabled : Bool)
  | setBlockImages (blocked : Bool)
  | setEnabledModels (patterns : Option (List JsString))
  | setDoubleEscapeAction (action : JsString)
  | setTreeFilterMode (mode : JsString)
  | setShowHardwareCursor (enabled : Bool)
  | setEditorPaddingX (padding : JsNumber)
  | setOutputPad (padding : JsNumber)
  | setAutocompleteMaxVisible (maxVisible : JsNumber)
  | setMermaidRenderingMode (mode : JsString)
  | setWarnings (warnings : JsProps Json)

def SetterCall.assignments (settings : Settings) : SetterCall → Assignments
  | .setLastChangelogVersion version => setField "lastChangelogVersion" (some (.string version))
  | .setDefaultProvider provider => setField "defaultProvider" (some (.string provider))
  | .setDefaultModel modelId => setField "defaultModel" (some (.string modelId))
  | .setDefaultModelAndProvider provider modelId =>
    some [(⟨ofString "defaultProvider", none⟩, some (.string provider)),
      (⟨ofString "defaultModel", none⟩, some (.string modelId))]
  | .setSteeringMode mode => setField "steeringMode" (some (.string mode))
  | .setFollowUpMode mode => setField "followUpMode" (some (.string mode))
  | .setTheme theme => setField "theme" (some (.string theme))
  | .setDefaultThinkingLevel level => setField "defaultThinkingLevel" (some (.string level))
  | .setModelThinkingLevel provider modelId level =>
    (nestedObject settings "modelThinkingLevels").map fun _ =>
      [(⟨ofString "modelThinkingLevels", some (modelKey provider modelId)⟩, some (.string level))]
  | .removeModelThinkingLevel provider modelId =>
    if truthy (settings.get? (ofString "modelThinkingLevels")) then
      (nestedObject settings "modelThinkingLevels").map fun _ =>
        [(⟨ofString "modelThinkingLevels", some (modelKey provider modelId)⟩, none)]
    else some []
  | .setTransport transport => setField "transport" (some (.string transport))
  | .setCompactionEnabled enabled => setNested settings "compaction" "enabled" (.boolean enabled)
  | .setRetryEnabled enabled => setNested settings "retry" "enabled" (.boolean enabled)
  | .setHttpIdleTimeoutMs timeoutMs => setField "httpIdleTimeoutMs" (some (.number timeoutMs))
  | .setCacheWarmingMode mode => setField "cacheWarming" (some (.string mode))
  | .setHideThinkingBlock hide => setField "hideThinkingBlock" (some (.boolean hide))
  | .setShowCacheMissNotices show' => setField "showCacheMissNotices" (some (.boolean show'))
  | .setShellPath path => setField "shellPath" (path.map .string)
  | .setQuietStartup quiet => setField "quietStartup" (some (.boolean quiet))
  | .setDefaultProjectTrust trust => setField "defaultProjectTrust" (some (.string trust))
  | .setShellCommandPrefix commandPrefix => setField "shellCommandPrefix" (commandPrefix.map .string)
  | .setNpmCommand command => setField "npmCommand" (command.map strings)
  | .setCollapseChangelog collapse => setField "collapseChangelog" (some (.boolean collapse))
  | .setEnableInstallTelemetry enabled => setField "enableInstallTelemetry" (some (.boolean enabled))
  | .setEnableAnalytics enabled randomUUID =>
    if enabled ∧ truthy (settings.get? (ofString "trackingId")) = false then
      some [(⟨ofString "enableAnalytics", none⟩, some (.boolean enabled)),
        (⟨ofString "trackingId", none⟩, some (.string randomUUID))]
    else setField "enableAnalytics" (some (.boolean enabled))
  | .setPackages packages => setField "packages" (some (.array packages))
  | .setExtensionPaths paths => setField "extensions" (some (strings paths))
  | .setSkillPaths paths => setField "skills" (some (strings paths))
  | .setPromptTemplatePaths paths => setField "prompts" (some (strings paths))
  | .setThemePaths paths => setField "themes" (some (strings paths))
  | .setEnableSkillCommands enabled => setField "enableSkillCommands" (some (.boolean enabled))
  | .setShowImages show' => setNested settings "terminal" "showImages" (.boolean show')
  | .setImageWidthCells width => setNested settings "terminal" "imageWidthCells" (.number width)
  | .setClearOnShrink enabled => setNested settings "terminal" "clearOnShrink" (.boolean enabled)
  | .setShowTerminalProgress enabled => setNested settings "terminal" "showTerminalProgress" (.boolean enabled)
  | .setTuiMode mode => setField "tuiMode" (some (.string mode))
  | .setFullscreenExitOutput output => setField "fullscreenExitOutput" (some (.string output))
  | .setFullscreenScrollbar mode => setField "fullscreenScrollbar" (some (.string mode))
  | .setFullscreenCopyOnSelect enabled => setField "fullscreenCopyOnSelect" (some (.boolean enabled))
  | .setImageAutoResize enabled => setNested settings "images" "autoResize" (.boolean enabled)
  | .setBlockImages blocked => setNested settings "images" "blockImages" (.boolean blocked)
  | .setEnabledModels patterns => setField "enabledModels" (patterns.map strings)
  | .setDoubleEscapeAction action => setField "doubleEscapeAction" (some (.string action))
  | .setTreeFilterMode mode => setField "treeFilterMode" (some (.string mode))
  | .setShowHardwareCursor enabled => setField "showHardwareCursor" (some (.boolean enabled))
  | .setEditorPaddingX padding => setField "editorPaddingX" (some (.number padding))
  | .setOutputPad padding => setField "outputPad" (some (.number padding))
  | .setAutocompleteMaxVisible maxVisible => setField "autocompleteMaxVisible" (some (.number maxVisible))
  | .setMermaidRenderingMode mode => setNested settings "markdown" "mermaid" (.string mode)
  | .setWarnings warnings => setField "warnings" (some (.object warnings))

/-! ## What setters assign -/

/-- The fields that are set as a whole and that migration does not touch. -/
def plainFields : List String :=
  ["lastChangelogVersion", "defaultProvider", "defaultModel", "followUpMode", "theme", "defaultThinkingLevel",
    "httpIdleTimeoutMs", "cacheWarming", "hideThinkingBlock", "showCacheMissNotices",
    "shellPath", "quietStartup", "defaultProjectTrust", "shellCommandPrefix", "npmCommand", "collapseChangelog",
    "enableInstallTelemetry", "enableAnalytics", "trackingId", "packages", "extensions", "prompts", "themes",
    "tuiMode", "fullscreenExitOutput", "fullscreenScrollbar", "fullscreenCopyOnSelect", "enabledModels",
    "doubleEscapeAction", "treeFilterMode", "showHardwareCursor", "editorPaddingX", "outputPad",
    "autocompleteMaxVisible", "warnings"]

/-- All assignments are settable. -/
def Assigns (assignments : Assignments) : Prop := ∀ list, assignments = some list → ∀ p ∈ list, Settable p.1 p.2

variable {field : String}

theorem mem_nestedFields :
    ofString field ∈ nestedFields ↔
      field ∈ ["compaction", "retry", "terminal", "images", "markdown", "modelThinkingLevels"] :=
  mem_map_of_injective ofString_injective

theorem settable_plain (h : field ∈ plainFields) (value : Option Json) :
    Settable ⟨ofString field, none⟩ value := by
  have hall : ∀ field ∈ plainFields, ofString field ∉ nestedFields ∧ ofString field ≠ ofString "queueMode" ∧
      ofString field ≠ ofString "websockets" ∧ ofString field ≠ ofString "steeringMode" ∧
      ofString field ≠ ofString "transport" ∧ ofString field ≠ ofString "enableSkillCommands" ∧
      ofString field ≠ ofString "skills" ∧ ofString field ≠ ofString "retry" := by
    simp only [mem_nestedFields, ne_eq, ofString_injective.eq_iff]
    decide
  obtain ⟨hnest, hqueue, hsocks, hsteering, htrans, hcommands, hskills, hretry⟩ := hall field h
  refine ⟨?_, ⟨hqueue, hsocks⟩, ?_, fun h => absurd h hskills, fun h => absurd h hretry⟩
  · simpa [Key.Valid] using hnest
  · rintro (h | h | h)
    · exact absurd h hsteering
    · exact absurd h htrans
    · exact absurd h hcommands

theorem assigns_plain (h : field ∈ plainFields) (value : Option Json) :
    Assigns (setField field value) := by
  rintro list ⟨⟩ p hp
  rw [mem_singleton.mp hp]
  exact settable_plain h value

/-- A field that migration would fill in is set to a value. -/
theorem assigns_filled (h : field ∈ ["steeringMode", "transport", "enableSkillCommands"])
    (value : Json) : Assigns (setField field (some value)) := by
  have hall : ∀ field ∈ ["steeringMode", "transport", "enableSkillCommands"], ofString field ∉ nestedFields ∧
      ofString field ≠ ofString "queueMode" ∧ ofString field ≠ ofString "websockets" ∧
      ofString field ≠ ofString "skills" ∧ ofString field ≠ ofString "retry" := by
    simp only [mem_nestedFields, ne_eq, ofString_injective.eq_iff]
    decide
  obtain ⟨hnest, hqueue, hsocks, hskills, hretry⟩ := hall field h
  rintro list ⟨⟩ p hp
  rw [mem_singleton.mp hp]
  exact ⟨by simpa [Key.Valid] using hnest, ⟨hqueue, hsocks⟩, fun _ => some_ne_none _,
    fun hs => absurd hs hskills, fun hr => absurd hr hretry⟩

theorem assigns_skills (items : List Json) : Assigns (setField "skills" (some (.array items))) := by
  have hall : ofString "skills" ∉ nestedFields ∧ ofString "skills" ≠ ofString "queueMode" ∧
      ofString "skills" ≠ ofString "websockets" ∧ ofString "skills" ≠ ofString "retry" := by
    simp only [mem_nestedFields, ne_eq, ofString_injective.eq_iff]
    decide
  obtain ⟨hnest, hqueue, hsocks, hretry⟩ := hall
  rintro list ⟨⟩ p hp
  rw [mem_singleton.mp hp]
  exact ⟨by simpa [Key.Valid] using hnest, ⟨hqueue, hsocks⟩, fun _ => some_ne_none _,
    fun _ => ⟨items, rfl⟩, fun hr => absurd hr hretry⟩

/-- The nested keys that are set. -/
def nestedKeys : List (String × String) :=
  [("compaction", "enabled"), ("retry", "enabled"), ("terminal", "showImages"), ("terminal", "imageWidthCells"),
    ("terminal", "clearOnShrink"), ("terminal", "showTerminalProgress"), ("images", "autoResize"),
    ("images", "blockImages"), ("markdown", "mermaid")]

theorem assigns_nested {field key : String} (h : (field, key) ∈ nestedKeys) (settings : Settings) (value : Json) :
    Assigns (setNested settings field key value) := by
  have hall : ∀ p ∈ nestedKeys, ofString p.1 ∈ nestedFields ∧ ofString p.1 ≠ ofString "queueMode" ∧
      ofString p.1 ≠ ofString "websockets" ∧ ofString p.1 ≠ ofString "skills" ∧
      ofString p.2 ≠ ofString "provider" ∧ ofString p.2 ≠ ofString "maxDelayMs" := by
    simp only [mem_nestedFields, ne_eq, ofString_injective.eq_iff]
    decide
  obtain ⟨hnest, hqueue, hsocks, hskills, hprov, hdelay⟩ := hall _ h
  intro list hlist p hp
  rw [setNested, map_eq_some_iff] at hlist
  obtain ⟨props, -, rfl⟩ := hlist
  rw [mem_singleton.mp hp]
  exact ⟨iff_of_true rfl hnest, ⟨hqueue, hsocks⟩, fun _ => some_ne_none _, fun hs => absurd hs hskills,
    fun _ => ⟨by simpa using hprov, by simpa using hdelay⟩⟩

theorem assigns_level (key : JsString) (value : Option Json) :
    Assigns (some [(⟨ofString "modelThinkingLevels", some key⟩, value)]) := by
  have hall : ofString "modelThinkingLevels" ∈ nestedFields ∧ ofString "modelThinkingLevels" ≠ ofString "queueMode" ∧
      ofString "modelThinkingLevels" ≠ ofString "websockets" ∧
      ofString "modelThinkingLevels" ≠ ofString "steeringMode" ∧
      ofString "modelThinkingLevels" ≠ ofString "transport" ∧
      ofString "modelThinkingLevels" ≠ ofString "enableSkillCommands" ∧
      ofString "modelThinkingLevels" ≠ ofString "skills" ∧ ofString "modelThinkingLevels" ≠ ofString "retry" := by
    simp only [mem_nestedFields, ne_eq, ofString_injective.eq_iff]
    decide
  obtain ⟨hnest, hqueue, hsocks, hsteering, htrans, hcommands, hskills, hretry⟩ := hall
  rintro list ⟨⟩ p hp
  rw [mem_singleton.mp hp]
  refine ⟨iff_of_true rfl hnest, ⟨hqueue, hsocks⟩, ?_, fun h => absurd h hskills, fun h => absurd h hretry⟩
  rintro (h | h | h)
  · exact absurd h hsteering
  · exact absurd h htrans
  · exact absurd h hcommands

/-- Every setter assigns what is settable. -/
theorem assigns_call (settings : Settings) (call : SetterCall) : Assigns (call.assignments settings) := by
  cases call with
  | setSteeringMode | setTransport | setEnableSkillCommands => exact assigns_filled (by decide) _
  | setSkillPaths paths => exact assigns_skills _
  | setDefaultModelAndProvider provider modelId =>
    rintro list ⟨⟩ p hp
    obtain rfl | rfl : p = _ ∨ p = _ := by simpa using hp
    · exact settable_plain (by decide) _
    · exact settable_plain (by decide) _
  | setModelThinkingLevel provider modelId level =>
    intro list hlist
    obtain ⟨levels, -, rfl⟩ := map_eq_some_iff.mp hlist
    exact assigns_level _ _ _ rfl
  | removeModelThinkingLevel provider modelId =>
    intro list hlist
    rw [SetterCall.assignments] at hlist
    split at hlist
    · obtain ⟨levels, -, rfl⟩ := map_eq_some_iff.mp hlist
      exact assigns_level _ _ _ rfl
    · cases hlist
      exact fun p hp => absurd hp not_mem_nil
  | setEnableAnalytics enabled randomUUID =>
    intro list hlist
    rw [SetterCall.assignments] at hlist
    split at hlist
    · cases hlist
      intro p hp
      obtain rfl | rfl : p = _ ∨ p = _ := by simpa using hp
      · exact settable_plain (by decide) _
      · exact settable_plain (by decide) _
    · exact assigns_plain (by decide) _ list hlist
  | setCompactionEnabled | setRetryEnabled | setShowImages | setImageWidthCells | setClearOnShrink | setShowTerminalProgress
  | setImageAutoResize | setBlockImages | setMermaidRenderingMode => exact assigns_nested (by decide) settings _
  | _ => exact assigns_plain (by decide) _

/-! ## States -/

/-- What the file holds. -/
inductive FileText where
  | empty
  | malformed
  | settings (settings : Settings)

/-- A queued write: the snapshot of the settings and of the marks. -/
structure Write where
  snapshot : Settings
  marks : Marks

/-- A manager. `missed` is set while its first write has found no file and has not taken the lock
yet. `lastWrite` tells how the last write has ended, and `touched` which keys its setters have
assigned; no step reads these two. -/
structure Manager where
  globalSettings : Settings := []
  marks : Marks := {}
  globalSettingsLoadError : Bool := false
  writeQueue : List Write := []
  missed : Bool := false
  lastWrite : Option Bool := none
  touched : List Key := []

/-- The file, its managers, and for each key who has changed it last (a manager, or somebody else)
and to what; no step reads the latter. -/
structure State (M : Type) where
  file : Option FileText
  managers : M → Manager
  latest : Key → Option (Option M × Option Json)

/-- `loadFromStorage` -/
def load : Option FileText → Option Settings
  | none => some []
  | some .empty => some []
  | some .malformed => none
  | some (.settings settings) => some (migrateSettings settings)

/-- The managers load the file when they are created. -/
def init {M : Type} (file : Option FileText) : State M where
  file := file
  managers _ :=
    match load file with
    | some settings => { globalSettings := settings }
    | none => { globalSettingsLoadError := true }
  latest _ := none

/-! ## Steps -/

/-- What is left of the file by a write that throws: `writeFileSync` empties the file first, and a part
of the text is no JSON. -/
inductive Damage where
  | untouched
  | emptied
  | cut
  deriving DecidableEq

def Damage.file (file : Option FileText) : Damage → Option FileText
  | .untouched => file
  | .emptied => some .empty
  | .cut => some .malformed

inductive Action (M : Type) where
  | set (m : M) (call : SetterCall)
  /-- The first queued write, on a file that exists; without `released` it throws at the end, when it
  gives the lock back. -/
  | write (m : M) (released : Bool)
  /-- The first queued write finds no file: `current` is undefined. -/
  | miss (m : M)
  /-- It takes the lock and writes. -/
  | create (m : M) (released : Bool)
  /-- The first queued write throws, before `writeFileSync` or in it. -/
  | fail (m : M) (damage : Damage)
  | reload (m : M)
  /-- Another program changes some keys; a nested object is changed key by key. -/
  | edit (assignments : List (Key × Option Json))

def Action.manager {M : Type} : Action M → Option M
  | .set m _ => some m
  | .write m _ => some m
  | .miss m => some m
  | .create m _ => some m
  | .fail m _ => some m
  | .reload m => some m
  | .edit _ => none

/-- Assignments in order. -/
def assign (settings : Settings) (assignments : List (Key × Option Json)) : Settings :=
  assignments.foldl (fun settings p => putKey settings p.1 p.2) settings

def record {M : Type} (latest : Key → Option (Option M × Option Json)) (author : Option M)
    (assignments : List (Key × Option Json)) : Key → Option (Option M × Option Json) :=
  assignments.foldl (fun latest p => Function.update latest p.1 (some (author, p.2))) latest

/-- A setter's assignments, marks and `save`. -/
def Manager.set (manager : Manager) (assignments : List (Key × Option Json)) : Manager :=
  let globalSettings := assign manager.globalSettings assignments
  let marks := assignments.foldl (fun marks p => marks.markModified p.1.marked) manager.marks
  { manager with
    globalSettings := globalSettings
    marks := marks
    writeQueue :=
      if manager.globalSettingsLoadError then manager.writeQueue
      else manager.writeQueue ++ [{ snapshot := globalSettings, marks := marks }]
    touched := manager.touched ++ assignments.map Prod.fst }

/-- A write has ended; `clearModifiedScope` when it has succeeded. -/
def Manager.ended (manager : Manager) (rest : List Write) (ok : Bool) : Manager :=
  { manager with
    writeQueue := rest
    marks := if ok then {} else manager.marks
    missed := false
    lastWrite := some ok }

section Steps

variable {M : Type} [DecidableEq M]

def State.update (s : State M) (m : M) (manager : Manager) : State M :=
  { s with managers := Function.update s.managers m manager }

def step (s : State M) : Action M → Option (State M)
  | .set m call =>
    match call.assignments (s.managers m).globalSettings with
    | none => none
    | some [] => some s
    | some (first :: others) =>
      some { s.update m ((s.managers m).set (first :: others)) with
        latest := record s.latest (some m) (first :: others) }
  | .write m released =>
    match (s.managers m).writeQueue, (s.managers m).missed, s.file with
    | w :: rest, false, some .empty =>
      some { s.update m ((s.managers m).ended rest released) with
        file := some (.settings (persist w.snapshot w.marks [])) }
    | w :: rest, false, some (.settings current) =>
      some { s.update m ((s.managers m).ended rest released) with
        file := some (.settings (persist w.snapshot w.marks (migrateSettings current))) }
    | _, _, _ => none
  | .miss m =>
    match (s.managers m).writeQueue, (s.managers m).missed, s.file with
    | _ :: _, false, none => some (s.update m { s.managers m with missed := true })
    | _, _, _ => none
  | .create m released =>
    match (s.managers m).writeQueue, (s.managers m).missed with
    | w :: rest, true =>
      some { s.update m ((s.managers m).ended rest released) with
        file := some (.settings (persist w.snapshot w.marks [])) }
    | _, _ => none
  | .fail m damage =>
    match (s.managers m).writeQueue with
    | _ :: rest => some { s.update m ((s.managers m).ended rest false) with file := damage.file s.file }
    | [] => none
  | .reload m =>
    match load s.file with
    | some settings =>
      some (s.update m { s.managers m with
        globalSettings := settings, globalSettingsLoadError := false, marks := {} })
    | none => some (s.update m { s.managers m with globalSettingsLoadError := true, marks := {} })
  | .edit assignments =>
    if ∀ p ∈ assignments, p.1.Valid then
      some { s with
        file := some (.settings (assign
          (match s.file with
          | some (.settings settings) => settings
          | _ => []) assignments))
        latest := record s.latest none assignments }
    else none

def run (s : State M) : List (Action M) → Option (State M)
  | [] => some s
  | action :: actions => (step s action).bind fun s' => run s' actions

end Steps

end Shuvpi.SettingsManager
