import Shuvpi.JsMap
import Shuvpi.JsonText

/-!
# Tool declarations

`toToolDeclaration`, `declarationsEqual` and `getToolStateChanges` of
`utils/transcript.ts`. A declaration is a tool without its executable fields, its
parameters copied through JSON; two tools are compared by the JSON texts of their
declarations, and these say everything about them.
-/
namespace Shuvpi.Transcript

open JsText (ofString)
open JsonText (NumberFormat Preserved stringify stringifyItems stringifyProps parse)
open List hiding lookup
open Option hiding some

/-! ## A copy through JSON -/

/-- How numbers are written, the two zeros alike. -/
structure JsonNumbers extends NumberFormat where
  zero : toText JsNumber.negZero = toText (JsNumber.ofInt 0)

/-- A value whose objects all have their properties in listing order, as objects have. -/
inductive Plain : Json → Prop
  | null : Plain .null
  | boolean (b : Bool) : Plain (.boolean b)
  | number (x : JsNumber) : Plain (.number x)
  | string (s : JsString) : Plain (.string s)
  | array {items : List Json} : (∀ item ∈ items, Plain item) → Plain (.array items)
  | object {props : JsProps Json} : props.Wf → (∀ p ∈ props, Plain p.2) → Plain (.object props)

def wireNumber (x : JsNumber) : Json :=
  if x.isFinite then if x.isNegZero then .number (JsNumber.ofInt 0) else .number x else .null

mutual

/-- What is left of a value after it was written as JSON. -/
def wire : Json → Json
  | .null => .null
  | .boolean b => .boolean b
  | .number x => wireNumber x
  | .string s => .string s
  | .array items => .array (wireItems items)
  | .object props => .object (wireProps props)

def wireItems : List Json → List Json
  | [] => []
  | item :: items => wire item :: wireItems items

def wireProps : List (JsString × Json) → List (JsString × Json)
  | [] => []
  | (key, value) :: props => (key, wire value) :: wireProps props

end

theorem wireItems_eq (items : List Json) : wireItems items = items.map wire := by
  induction items with
  | nil => rfl
  | cons item items ih => rw [wireItems, ih]; rfl

theorem wireProps_eq (props : List (JsString × Json)) :
    wireProps props = props.map fun p => (p.1, wire p.2) := by
  induction props with
  | nil => rfl
  | cons p props ih =>
    obtain ⟨key, value⟩ := p
    rw [wireProps, ih]
    rfl

section Wire
variable (numbers : JsonNumbers)

theorem stringify_wireNumber (x : JsNumber) :
    stringify numbers.toNumberFormat (wireNumber x) = stringify numbers.toNumberFormat (.number x) := by
  unfold wireNumber
  split
  · rename_i hfinite
    split
    · rename_i hzero
      obtain rfl : x = .negZero := by simpa [JsNumber.isNegZero] using hzero
      have hzeroFinite : (JsNumber.ofInt 0).isFinite = true := by decide
      rw [stringify, stringify, if_pos hzeroFinite, if_pos hfinite, numbers.zero]
    · rfl
  · rename_i hfinite
    rw [stringify, stringify, if_neg hfinite]

mutual

theorem stringify_wire : ∀ v : Json, stringify numbers.toNumberFormat (wire v) = stringify numbers.toNumberFormat v
  | .null => rfl
  | .boolean _ => rfl
  | .number x => stringify_wireNumber numbers x
  | .string _ => rfl
  | .array [] => rfl
  | .array (item :: items) => by
    rw [wire, wireItems, stringify, stringify, stringify_wire item, stringifyItems_wire items]
  | .object [] => rfl
  | .object ((key, value) :: props) => by
    rw [wire, wireProps, stringify, stringify, stringify_wire value, stringifyProps_wire props]

theorem stringifyItems_wire : ∀ items : List Json, stringifyItems numbers.toNumberFormat (wireItems items) =
      stringifyItems numbers.toNumberFormat items
  | [] => rfl
  | item :: items => by
    rw [wireItems, stringifyItems, stringifyItems, stringify_wire item, stringifyItems_wire items]

theorem stringifyProps_wire : ∀ props : List (JsString × Json),
    stringifyProps numbers.toNumberFormat (wireProps props) = stringifyProps numbers.toNumberFormat props
  | [] => rfl
  | (key, value) :: props => by
    rw [wireProps, stringifyProps, stringifyProps, stringify_wire value, stringifyProps_wire props]

end

end Wire

theorem wireNumber_preserved (x : JsNumber) : Preserved (wireNumber x) := by
  unfold wireNumber
  split
  · rename_i hfinite
    split
    · exact .number (by decide) (by decide)
    · rename_i hzero
      exact .number hfinite (by simpa using hzero)
  · exact .null

theorem wf_map_values {α β : Type} {props : JsProps α} (h : props.Wf) (f : α → β) :
    JsProps.Wf (props.map fun p => (p.1, f p.2)) := by
  have hkeys : JsProps.keys props = JsProps.keys (props.map fun p => (p.1, f p.2)) := by
    simp [JsProps.keys]
  exact ⟨hkeys ▸ h.nodup, JsProps.listed_of_keys hkeys h.listed⟩

variable {v : Json}

theorem wire_preserved (h : Plain v) : Preserved (wire v) := by
  induction h with
  | null => exact .null
  | boolean b => exact .boolean b
  | number x => exact wireNumber_preserved x
  | string s => exact .string s
  | array _ ih =>
    rw [wire, wireItems_eq]
    refine .array fun item hitem => ?_
    obtain ⟨v, hv, rfl⟩ := mem_map.mp hitem
    exact ih v hv
  | object hwf _ ih =>
    rw [wire, wireProps_eq]
    refine .object (wf_map_values hwf wire) fun p hp => ?_
    obtain ⟨q, hq, rfl⟩ := mem_map.mp hp
    exact ih q hq

theorem Plain.of_preserved (h : Preserved v) : Plain v := by
  induction h with
  | null => exact .null
  | boolean b => exact .boolean b
  | number => exact .number _
  | string s => exact .string s
  | array _ ih => exact .array ih
  | object hwf _ ih => exact .object hwf ih

theorem parse_stringify_wire (numbers : JsonNumbers) (h : Plain v) :
    parse numbers.toNumberFormat (stringify numbers.toNumberFormat v) = some (wire v) := by
  rw [← stringify_wire]
  exact JsonText.parse_stringify (wire_preserved h)

/-! ## Tools -/

/-- A JSON schema, as far as JSON sees it. -/
abbrev Schema := { v : Json // Plain v }

/-- `false`, or a configuration of strings. -/
abbrev ConstrainedSampling := { v : Json // Preserved v }

/-- A tool; `extra` holds its executable and display-only fields. -/
structure Tool (E : Type) where
  name : JsString
  description : JsString
  parameters : Schema
  constrainedSampling : Option ConstrainedSampling
  extra : Option E

structure ToolReference where
  name : JsString
  deriving DecidableEq

section Declarations
variable {E : Type} (numbers : JsonNumbers)

/-- `JSON.parse(JSON.stringify(parameters))`, which does not throw. -/
def jsonCopy (v : Schema) : Schema :=
  ⟨(parse numbers.toNumberFormat (stringify numbers.toNumberFormat v.1)).getD .null, by
    rw [parse_stringify_wire numbers v.2]
    exact .of_preserved (wire_preserved v.2)⟩

def toToolDeclaration (tool : Tool E) : Tool E where
  name := tool.name
  description := tool.description
  parameters := jsonCopy numbers tool.parameters
  constrainedSampling := tool.constrainedSampling
  extra := none

/-- The own properties of a declaration, in the order in which they are written. -/
def declarationProps (tool : Tool E) : JsProps Json :=
  [(ofString "name", .string tool.name), (ofString "description", .string tool.description),
    (ofString "parameters", tool.parameters.1)] ++
    tool.constrainedSampling.toList.map fun c => (ofString "constrainedSampling", c.1)

/-- `JSON.stringify(toToolDeclaration(tool))` -/
def declarationText (tool : Tool E) : JsString :=
  stringify numbers.toNumberFormat (.object (declarationProps (toToolDeclaration numbers tool)))

def declarationsEqual (left right : Tool E) : Bool := declarationText numbers left = declarationText numbers right

structure ToolStateChanges (E : Type) where
  toolsAdded : List (Tool E)
  toolsRemoved : List ToolReference

def toolMap (tools : List (Tool E)) : JsMap JsString (Tool E) := tools.foldl (fun m tool => m.set tool.name tool) []

/-- Whether the map has no tool of this name, or one with another declaration. -/
def differs (m : JsMap JsString (Tool E)) (tool : Tool E) : Bool :=
  match m.get tool.name with
  | none => true
  | some other => !declarationsEqual numbers other tool

def getToolStateChanges (previous current : List (Tool E)) : ToolStateChanges E where
  toolsAdded := (current.filter (differs numbers (toolMap previous))).map (toToolDeclaration numbers)
  toolsRemoved := (previous.filter (differs numbers (toolMap current))).map fun tool => ⟨tool.name⟩

/-! ## What the text of a declaration says -/

theorem jsonCopy_val (v : Schema) : (jsonCopy numbers v).1 = wire v.1 := by
  simp only [jsonCopy, parse_stringify_wire numbers v.2, getD_some]

theorem jsonCopy_idem (v : Schema) : jsonCopy numbers (jsonCopy numbers v) = jsonCopy numbers v := by
  apply Subtype.ext
  have htext : stringify numbers.toNumberFormat (jsonCopy numbers v).1 =
      stringify numbers.toNumberFormat v.1 := by
    rw [jsonCopy_val, stringify_wire]
  have hparse := parse_stringify_wire numbers (jsonCopy numbers v).2
  rw [htext, parse_stringify_wire numbers v.2] at hparse
  rw [jsonCopy_val, ← Option.some.inj hparse, jsonCopy_val]

variable (tool : Tool E)

@[simp] theorem toToolDeclaration_name : (toToolDeclaration numbers tool).name = tool.name := rfl

@[simp] theorem toToolDeclaration_idem :
    toToolDeclaration numbers (toToolDeclaration numbers tool) = toToolDeclaration numbers tool := by
  simp only [toToolDeclaration, jsonCopy_idem]

def keyed (keys : List String) : JsProps Unit := keys.map fun key => (ofString key, ())

theorem wf_of_keyed {keys : List String} {props : JsProps Json}
    (h : JsProps.keys (keyed keys) = props.keys) (hnodup : (JsProps.keys (keyed keys)).Nodup)
    (hlist : (keyed keys).Pairwise fun p q => JsProps.listedBefore q.1 p.1 = false) : props.Wf :=
  ⟨h ▸ hnodup, JsProps.listed_of_keys h hlist⟩

theorem declarationProps_preserved :
    Preserved (.object (declarationProps (toToolDeclaration numbers tool))) := by
  have hcopy : Preserved (jsonCopy numbers tool.parameters).1 := by
    rw [jsonCopy_val]
    exact wire_preserved tool.parameters.2
  refine .object ?_ fun p hp => ?_
  · cases hc : tool.constrainedSampling with
    | none =>
      refine @wf_of_keyed ["name", "description", "parameters"] _ ?_ (by decide)
        (by decide)
      simp [declarationProps, toToolDeclaration, hc, JsProps.keys, keyed]
    | some c =>
      refine @wf_of_keyed ["name", "description", "parameters", "constrainedSampling"] _ ?_
        (by decide) (by decide)
      simp [declarationProps, toToolDeclaration, hc, JsProps.keys, keyed]
  · rcases mem_append.mp hp with hp | hp
    · simp only [mem_cons, not_mem_nil, or_false] at hp
      rcases hp with rfl | rfl | rfl
      · exact .string _
      · exact .string _
      · exact hcopy
    · obtain ⟨c, -, rfl⟩ := mem_map.mp hp
      exact c.2

variable {right left : Tool E}

theorem toToolDeclaration_eq_of_props
    (h : declarationProps (toToolDeclaration numbers left) = declarationProps (toToolDeclaration numbers right)) :
    toToolDeclaration numbers left = toToolDeclaration numbers right := by
  obtain ⟨hhead, htail⟩ := append_inj h rfl
  simp only [toToolDeclaration, cons.injEq, Prod.mk.injEq, true_and, Json.string.injEq, and_true] at hhead htail ⊢
  have hcs : left.constrainedSampling = right.constrainedSampling := by
    cases hl : left.constrainedSampling <;> cases hr : right.constrainedSampling <;>
      simp [hl, hr] at htail ⊢
    exact Subtype.ext htail
  rw [hhead.1, hhead.2.1, Subtype.ext hhead.2.2, hcs]

/-- Equal texts come from equal declarations. -/
theorem declarationText_inj : declarationText numbers left = declarationText numbers right ↔
      toToolDeclaration numbers left = toToolDeclaration numbers right := by
  constructor
  · intro h
    have hparse := congrArg (parse numbers.toNumberFormat) h
    simp only [declarationText] at hparse
    rw [JsonText.parse_stringify (declarationProps_preserved numbers left),
      JsonText.parse_stringify (declarationProps_preserved numbers right)] at hparse
    exact toToolDeclaration_eq_of_props numbers (Json.object.inj (Option.some.inj hparse))
  · intro h
    rw [declarationText, declarationText, h]

theorem declarationsEqual_iff : declarationsEqual numbers left right = true ↔
    toToolDeclaration numbers left = toToolDeclaration numbers right := by
  rw [declarationsEqual, decide_eq_true_eq, declarationText_inj]

/-! ## The difference of two tool states -/

/-- The first tool of a name. -/
def lookup (tools : List (Tool E)) (name : JsString) : Option (Tool E) := tools.find? fun tool => tool.name = name

variable (tools : List (Tool E))

variable (name : JsString)

theorem lookup_cons :
    lookup (tool :: tools) name = if tool.name = name then some tool else lookup tools name := by
  by_cases h : tool.name = name
  · simp [lookup, h]
  · simp [lookup, h]

variable {tools : List (Tool E)}

variable {name : JsString}

theorem lookup_eq_none : lookup tools name = none ↔ name ∉ tools.map Tool.name := by
  simp [lookup]

theorem lookup_some {tool : Tool E} (h : lookup tools name = some tool) :
    tool ∈ tools ∧ tool.name = name :=
  ⟨mem_of_find?_eq_some h, by simpa using find?_some h⟩

theorem lookup_of_mem (hnodup : (tools.map Tool.name).Nodup) {tool : Tool E} (h : tool ∈ tools) :
    lookup tools tool.name = some tool := by
  cases hl : lookup tools tool.name with
  | none => exact absurd (mem_map_of_mem h) (lookup_eq_none.mp hl)
  | some other =>
    obtain ⟨hmem, hname⟩ := lookup_some hl
    rw [inj_on_of_nodup_map hnodup hmem h hname]

theorem lookup_filter (hnodup : (tools.map Tool.name).Nodup) (keep : Tool E → Bool) (name : JsString) :
    lookup (tools.filter keep) name = (lookup tools name).filter keep := by
  cases hl : lookup tools name with
  | none =>
    refine lookup_eq_none.mpr fun h => lookup_eq_none.mp hl ?_
    obtain ⟨tool, htool, rfl⟩ := mem_map.mp h
    exact mem_map_of_mem (mem_of_mem_filter htool)
  | some tool =>
    obtain ⟨hmem, rfl⟩ := lookup_some hl
    have hsub : ((tools.filter keep).map Tool.name).Nodup := hnodup.sublist (filter_sublist.map Tool.name)
    by_cases hkeep : keep tool = true
    · rw [lookup_of_mem hsub (mem_filter.mpr ⟨hmem, hkeep⟩), filter_some, if_pos hkeep]
    · rw [filter_some, if_neg hkeep]
      refine lookup_eq_none.mpr fun h => hkeep ?_
      obtain ⟨other, hother, hname⟩ := mem_map.mp h
      obtain ⟨hin, hk⟩ := mem_filter.mp hother
      rwa [← inj_on_of_nodup_map hnodup hin hmem hname]

theorem lookup_declarations : lookup (tools.map (toToolDeclaration numbers)) name =
      (lookup tools name).map (toToolDeclaration numbers) := by
  induction tools with
  | nil => rfl
  | cons tool tools ih =>
    rw [map_cons, lookup_cons, lookup_cons, toToolDeclaration_name, ih]
    split <;> rfl

variable (h : (tools.map Tool.name).Nodup)
include h

/-- Setting tools of distinct names one after the other. -/
theorem get_foldl_set (m : JsMap JsString (Tool E)) (name : JsString) :
    (tools.foldl (fun m tool => m.set tool.name tool) m).get name =
      (lookup tools name).or (m.get name) := by
  induction tools generalizing m with
  | nil => rfl
  | cons tool tools ih =>
    obtain ⟨hnew, hnodup⟩ := nodup_cons.mp h
    rw [foldl_cons, ih hnodup, JsMap.get_set, lookup_cons]
    by_cases hname : tool.name = name
    · rw [if_pos hname, if_pos hname, lookup_eq_none.mpr (hname ▸ hnew)]
      rfl
    · rw [if_neg hname, if_neg hname]

theorem get_toolMap :
    (toolMap tools).get name = lookup tools name := by
  rw [toolMap, get_foldl_set h]
  simp

theorem differs_eq (tool : Tool E) : differs numbers (toolMap tools) tool = false ↔
      (lookup tools tool.name).map (toToolDeclaration numbers) =
        some (toToolDeclaration numbers tool) := by
  rw [differs, get_toolMap h]
  cases lookup tools tool.name with
  | none => simp
  | some other => simp [declarationsEqual_iff]

omit h

variable {previous current : List (Tool E)}

theorem mem_toolsRemoved (hp : (previous.map Tool.name).Nodup) (name : JsString) :
    name ∈ (getToolStateChanges numbers previous current).toolsRemoved.map ToolReference.name ↔
      ∃ tool, lookup previous name = some tool ∧ differs numbers (toolMap current) tool = true := by
  simp only [getToolStateChanges, List.map_map, List.mem_map, List.mem_filter, Function.comp_apply]
  constructor
  · rintro ⟨tool, ⟨hmem, hdiff⟩, rfl⟩
    exact ⟨tool, lookup_of_mem hp hmem, hdiff⟩
  · rintro ⟨tool, hl, hdiff⟩
    obtain ⟨hmem, rfl⟩ := lookup_some hl
    exact ⟨tool, ⟨hmem, hdiff⟩, rfl⟩

theorem lookup_toolsAdded (hc : (current.map Tool.name).Nodup) (name : JsString) :
    lookup (getToolStateChanges numbers previous current).toolsAdded name =
      ((lookup current name).filter (differs numbers (toolMap previous))).map
        (toToolDeclaration numbers) := by
  rw [getToolStateChanges, lookup_declarations, lookup_filter hc]

/-- The changes carry the declarations of one tool state to those of the other. -/
theorem changes_exact (hp : (previous.map Tool.name).Nodup) (hc : (current.map Tool.name).Nodup) (name : JsString) :
    ((lookup (getToolStateChanges numbers previous current).toolsAdded name).or
      (if name ∈ (getToolStateChanges numbers previous current).toolsRemoved.map ToolReference.name
        then none else lookup previous name)).map (toToolDeclaration numbers) =
      (lookup current name).map (toToolDeclaration numbers) := by
  rw [lookup_toolsAdded numbers hc]
  cases hcur : lookup current name with
  | none =>
    rw [filter_none, map_none, none_or]
    split
    · rfl
    · rename_i hkept
      cases hprev : lookup previous name with
      | none => rfl
      | some tool =>
        refine absurd ((mem_toolsRemoved numbers hp name).mpr ⟨tool, hprev, ?_⟩) hkept
        have hname := (lookup_some hprev).2
        rw [differs, get_toolMap hc, hname, hcur]
  | some tool =>
    obtain ⟨-, rfl⟩ := lookup_some hcur
    cases hd : differs numbers (toolMap previous) tool with
    | true =>
      rw [filter_some, if_pos hd]
      simp
    | false =>
      -- the tool is declared as it is: nothing is added, and nothing of its name removed
      have hsame := (differs_eq numbers hp tool).mp hd
      rw [filter_some, if_neg (by simp [hd]), map_none, none_or]
      cases hprev : lookup previous tool.name with
      | none => rw [hprev] at hsame; cases hsame
      | some old =>
        rw [hprev] at hsame
        have hold := (lookup_some hprev).2
        have hkept : ¬tool.name ∈
            (getToolStateChanges numbers previous current).toolsRemoved.map ToolReference.name := by
          rw [mem_toolsRemoved numbers hp]
          rintro ⟨other, hother, hdiff⟩
          obtain rfl := Option.some.inj (hprev.symm.trans hother)
          have hnot : differs numbers (toolMap current) old = false := by
            rw [differs_eq numbers hc, hold, hcur]
            exact hsame.symm
          rw [hnot] at hdiff
          cases hdiff
        rw [if_neg hkept]
        exact hsame

/-- Two lists of distinct names with the same tool for every name hold the same tools. -/
theorem perm_of_lookup {others : List (Tool E)} (ht : (tools.map Tool.name).Nodup) (ho : (others.map Tool.name).Nodup)
    (h : ∀ name, lookup tools name = lookup others name) :
    tools.Perm others := by
  refine (perm_ext_iff_of_nodup ht.of_map ho.of_map).mpr fun tool => ⟨fun hm => ?_, fun hm => ?_⟩
  · exact (lookup_some ((h tool.name) ▸ lookup_of_mem ht hm)).1
  · exact (lookup_some ((h tool.name).symm ▸ lookup_of_mem ho hm)).1

/-- Where the declarations agree name by name, there is nothing to change. -/
theorem no_changes (hp : (previous.map Tool.name).Nodup)
    (hc : (current.map Tool.name).Nodup)
    (h : ∀ name, (lookup previous name).map (toToolDeclaration numbers) =
      (lookup current name).map (toToolDeclaration numbers)) :
    (getToolStateChanges numbers previous current).toolsAdded = [] ∧
    (getToolStateChanges numbers previous current).toolsRemoved = [] := by
  constructor
  · refine map_eq_nil_iff.mpr (filter_eq_nil_iff.mpr fun tool hm => ?_)
    rw [(differs_eq numbers hp tool).mpr (by rw [h, lookup_of_mem hc hm]; rfl)]
    simp
  · refine map_eq_nil_iff.mpr (filter_eq_nil_iff.mpr fun tool hm => ?_)
    rw [(differs_eq numbers hc tool).mpr (by rw [← h, lookup_of_mem hp hm]; rfl)]
    simp

end Declarations

end Shuvpi.Transcript
