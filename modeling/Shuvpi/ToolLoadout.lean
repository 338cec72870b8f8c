import Shuvpi.JsonlDurability
import Shuvpi.Transcript

/-!
# The declared tools are the executable ones

Replay of a transcript as a map from names to tools, the collapse of its system messages
into one, and what `declareToolChanges` adds to it.
-/
namespace Shuvpi.Transcript

open List hiding cons nil
open Option hiding some

variable {E M : Type}

/-! ## The map of a replay -/

/-- No name occurs twice, and every tool stands under its own. -/
structure ToolsFit (m : JsMap JsString (Tool E)) : Prop where
  nodup : (m.map Prod.fst).Nodup
  named : ∀ p ∈ m, p.2.name = p.1

theorem ToolsFit.nil : ToolsFit ([] : JsMap JsString (Tool E)) := ⟨nodup_nil, by simp⟩

variable {m : JsMap JsString (Tool E)}

theorem ToolsFit.set (h : ToolsFit m) (tool : Tool E) : ToolsFit (m.set tool.name tool) := by
  refine ⟨JsMap.nodup_set h.nodup _ _, fun p hp => ?_⟩
  rcases JsMap.mem_set hp with rfl | hp
  · rfl
  · exact h.named p hp

theorem ToolsFit.delete (h : ToolsFit m) (name : JsString) : ToolsFit (m.delete name) :=
  ⟨JsMap.nodup_delete h.nodup name, fun p hp => h.named p (mem_of_mem_filter hp)⟩

theorem ToolsFit.replayTools (h : ToolsFit m) (s : SystemMessage E) : ToolsFit (replayTools m s) := by
  have hset : ∀ (tools : List (Tool E)) {m : JsMap JsString (Tool E)}, ToolsFit m →
      ToolsFit (tools.foldl (fun m tool => m.set tool.name tool) m) := fun tools => by
    induction tools with
    | nil => exact id
    | cons tool tools ih => exact fun hm => ih (hm.set tool)
  have hdelete : ∀ (names : List ToolReference) {m : JsMap JsString (Tool E)}, ToolsFit m →
      ToolsFit (names.foldl (fun m tool => m.delete tool.name) m) := fun names => by
    induction names with
    | nil => exact id
    | cons name names ih => exact fun hm => ih (hm.delete name.name)
  exact hset s.added (hdelete s.removed h)

theorem toolsFit_foldl (ss : List (SystemMessage E)) (h : ToolsFit m) : ToolsFit (ss.foldl replayTools m) := by
  induction ss generalizing m with
  | nil => exact h
  | cons s ss ih => exact ih (h.replayTools s)

variable (messages : List (Message E M))

theorem currentToolMap_fits : ToolsFit (currentToolMap messages) := toolsFit_foldl _ .nil

theorem ToolsFit.names (h : ToolsFit m) : (m.map Prod.snd).map Tool.name = m.map Prod.fst := by
  rw [List.map_map]
  exact List.map_congr_left h.named

theorem ToolsFit.lookup (h : ToolsFit m) (name : JsString) : lookup (m.map Prod.snd) name = m.get name := by
  cases hg : m.get name with
  | none =>
    rw [lookup_eq_none, h.names]
    exact JsMap.get_eq_none.mp hg
  | some tool =>
    have hmem := JsMap.mem_of_get hg
    have hname : tool.name = name := h.named _ hmem
    have hnodup : ((m.map Prod.snd).map Tool.name).Nodup := by rw [h.names]; exact h.nodup
    rw [← hname]
    exact lookup_of_mem hnodup (mem_map_of_mem hmem)

theorem getCurrentTools_nodup : ((getCurrentTools messages).map Tool.name).Nodup := by
  rw [getCurrentTools, (currentToolMap_fits messages).names]
  exact (currentToolMap_fits messages).nodup

theorem get_foldl_delete (names : List ToolReference) (m : JsMap JsString (Tool E))
    (name : JsString) : (names.foldl (fun m tool => m.delete tool.name) m).get name =
      if name ∈ names.map ToolReference.name then none else m.get name := by
  induction names generalizing m with
  | nil => rfl
  | cons r names ih =>
    rw [foldl_cons, ih, JsMap.get_delete]
    by_cases hlater : name ∈ names.map ToolReference.name
    · have hmem : name ∈ (r :: names).map ToolReference.name := mem_cons_of_mem _ hlater
      rw [if_pos hlater, if_pos hmem]
    · rw [if_neg hlater]
      by_cases hr : r.name = name
      · rw [if_pos hr, if_pos (by simp [hr])]
      · rw [if_neg hr, if_neg (by simpa [hr, Ne.symm hr] using hlater)]

theorem get_replayTools (m : JsMap JsString (Tool E)) (s : SystemMessage E) (h : (s.added.map Tool.name).Nodup)
    (name : JsString) :
    (replayTools m s).get name = (lookup s.added name).or
      (if name ∈ s.removed.map ToolReference.name then none else m.get name) := by
  rw [replayTools, get_foldl_set h, get_foldl_delete]

variable (ms ms' : List (Message E M))

theorem systemMessages_append :
    systemMessages (ms ++ ms') = systemMessages ms ++ systemMessages ms' := filterMap_append

theorem currentToolMap_append :
    currentToolMap (ms ++ ms') = (systemMessages ms').foldl replayTools (currentToolMap ms) := by
  rw [currentToolMap, systemMessages_append, foldl_append]
  rfl

/-! ## The last system message -/

variable {ms : List (Message E M)}

theorem lastSystem?_none (h : lastSystem? ms = none) : systemMessages ms = [] := by
  induction ms with
  | nil => rfl
  | cons m ms ih =>
    cases hl : lastSystem? ms with
    | some found => simp [lastSystem?, hl] at h
    | none =>
      cases m with
      | system m => simp [lastSystem?, hl] at h
      | other m => exact ih hl

theorem lastSystem?_some {before after : List (Message E M)} {pending : SystemMessage E}
    (h : lastSystem? ms = some (before, pending, after)) :
    ms = before ++ .system pending :: after ∧ systemMessages after = [] := by
  induction ms generalizing before with
  | nil => cases h
  | cons m ms ih =>
    cases hl : lastSystem? ms with
    | some found =>
      obtain ⟨before', pending', after'⟩ := found
      obtain ⟨rfl, rfl, rfl⟩ : m :: before' = before ∧ pending' = pending ∧ after' = after := by
        simpa [lastSystem?, hl] using h
      obtain ⟨rfl, hafter⟩ := ih hl
      exact ⟨rfl, hafter⟩
    | none =>
      cases m with
      | other m => simp [lastSystem?, hl] at h
      | system m =>
        obtain ⟨rfl, rfl, rfl⟩ : [] = before ∧ m = pending ∧ ms = after := by
          simpa [lastSystem?, hl] using h
        exact ⟨rfl, lastSystem?_none hl⟩

/-! ## What the agent declares -/

@[simp] theorem removed_withToolChanges (m : SystemMessage E) (changes : ToolStateChanges E) :
    (withToolChanges m changes).removed = changes.toolsRemoved := by
  unfold withToolChanges SystemMessage.removed
  by_cases h : changes.toolsRemoved = [] <;> simp [h]

@[simp] theorem added_withToolChanges (m : SystemMessage E) (changes : ToolStateChanges E) :
    (withToolChanges m changes).added = changes.toolsAdded := by
  unfold withToolChanges SystemMessage.added
  by_cases h : changes.toolsAdded = [] <;> simp [h]

theorem replayTools_nothing (m : JsMap JsString (Tool E)) {s : SystemMessage E} (ha : s.added = [])
    (hr : s.removed = []) : replayTools m s = m := by
  rw [replayTools, ha, hr]; rfl

section Declare
variable (numbers : JsonNumbers)

theorem toolsAdded_nodup (previous : List (Tool E)) {current : List (Tool E)} (hc : (current.map Tool.name).Nodup) :
    ((getToolStateChanges numbers previous current).toolsAdded.map Tool.name).Nodup := by
  have hnames : (getToolStateChanges numbers previous current).toolsAdded.map Tool.name =
      (current.filter (differs numbers (toolMap previous))).map Tool.name := by
    rw [getToolStateChanges, List.map_map]
    rfl
  rw [hnames]
  exact hc.sublist (filter_sublist.map Tool.name)

/-- Name by name, the transcript declares these tools. -/
def Declares (messages : List (Message E M)) (tools : List (Tool E)) : Prop :=
  ∀ name, (lookup (getCurrentTools messages) name).map (toToolDeclaration numbers) =
    (lookup tools name).map (toToolDeclaration numbers)

variable {tools : List (Tool E)}

/-- The changes against a transcript, appended to it, make it declare the tools. -/
theorem declares_of_replay {base out : List (Message E M)}
    (ht : (tools.map Tool.name).Nodup) (pending : SystemMessage E)
    (hout : currentToolMap out = replayTools (currentToolMap base) (withToolChanges pending
      (getToolStateChanges numbers (getCurrentTools base)
        (tools.map (toToolDeclaration numbers))))) : Declares numbers out tools := by
  intro name
  have hc : ((tools.map (toToolDeclaration numbers)).map Tool.name).Nodup := by
    rw [List.map_map]; exact ht
  have hadded := toolsAdded_nodup numbers (getCurrentTools base) hc
  rw [getCurrentTools, (currentToolMap_fits out).lookup, hout,
    get_replayTools _ _ (by rw [added_withToolChanges]; exact hadded), added_withToolChanges,
    removed_withToolChanges, ← (currentToolMap_fits base).lookup]
  have hexact := changes_exact numbers (getCurrentTools_nodup base) hc name
  rw [lookup_declarations, Option.map_map] at hexact
  refine hexact.trans ?_
  congr 1
  funext tool
  exact toToolDeclaration_idem numbers tool

variable (now : JsNumber) (context : AgentContext E M) (pendingMessages : List (Message E M))

theorem declareToolChanges_replay : ∃ (base : List (Message E M)) (pending : SystemMessage E),
    currentToolMap (context.messages ++ declareToolChanges numbers now context pendingMessages) =
      replayTools (currentToolMap base) (withToolChanges pending
        (getToolStateChanges numbers (getCurrentTools base)
          ((context.tools.getD []).map (toToolDeclaration numbers)))) := by
  unfold declareToolChanges
  cases hl : lastSystem? pendingMessages with
  | some found =>
    obtain ⟨before, pending, after⟩ := found
    obtain ⟨rfl, hafter⟩ := lastSystem?_some hl
    have hrepl : ∀ s : SystemMessage E, currentToolMap (context.messages ++ (before ++ .system s :: after)) =
          replayTools (currentToolMap (context.messages ++ before)) s := fun s => by
      have hsys : systemMessages (.system s :: after) = [s] := congrArg (List.cons s) hafter
      rw [← append_assoc, currentToolMap_append, hsys]
      rfl
    have hbase := (hrepl (withToolChanges pending NO_CHANGES)).trans
      (replayTools_nothing _ (added_withToolChanges _ _) (removed_withToolChanges _ _))
    refine ⟨context.messages ++ (before ++ .system (withToolChanges pending NO_CHANGES) :: after), pending, ?_⟩
    dsimp only
    split
    · rename_i hsame
      rw [hrepl, hbase, replayTools_nothing _ hsame.2.2.1 hsame.2.2.2,
        replayTools_nothing _ ((added_withToolChanges _ _).trans hsame.1)
          ((removed_withToolChanges _ _).trans hsame.2.1)]
    · rw [hrepl, hbase]
  | none =>
    have hnone := lastSystem?_none hl
    have hbase : currentToolMap (context.messages ++ pendingMessages) =
        currentToolMap context.messages := by
      rw [currentToolMap_append, hnone]; rfl
    refine ⟨context.messages ++ pendingMessages, ⟨.text [], none, none, none, now⟩, ?_⟩
    dsimp only
    split
    · rename_i hsame
      rw [replayTools_nothing _ ((added_withToolChanges _ _).trans hsame.1)
        ((removed_withToolChanges _ _).trans hsame.2)]
    · rw [currentToolMap_append, systemMessages_append, hbase]
      have hsplit : systemMessages (pendingMessages.takeWhile Message.isSystem) ++
          systemMessages (pendingMessages.dropWhile Message.isSystem) = [] := by
        rw [← systemMessages_append, takeWhile_append_dropWhile, hnone]
      obtain ⟨htake, hdrop⟩ := append_eq_nil_iff.mp hsplit
      rw [htake, nil_append]
      exact congrArg (fun ss => foldl replayTools _ (_ :: ss)) hdrop

theorem declareToolChanges_declares
    (ht : ((context.tools.getD []).map Tool.name).Nodup) (pendingMessages : List (Message E M)) :
    Declares numbers (context.messages ++ declareToolChanges numbers now context pendingMessages)
      (context.tools.getD []) := by
  obtain ⟨base, pending, hrepl⟩ := declareToolChanges_replay numbers now context pendingMessages
  exact declares_of_replay numbers ht pending hrepl

theorem Declares.perm {messages : List (Message E M)}
    (h : Declares numbers messages tools) (ht : (tools.map Tool.name).Nodup) :
    ((getCurrentTools messages).map (toToolDeclaration numbers)).Perm
      (tools.map (toToolDeclaration numbers)) := by
  refine perm_of_lookup ?_ ?_ fun name => ?_
  · rw [List.map_map]; exact getCurrentTools_nodup messages
  · rw [List.map_map]; exact ht
  · rw [lookup_declarations, lookup_declarations, h name]

/-- A transcript that declares the tools needs no further declaration. -/
theorem Declares.settled
    (h : Declares numbers context.messages (context.tools.getD []))
    (ht : ((context.tools.getD []).map Tool.name).Nodup) (now : JsNumber) :
    declareToolChanges numbers now context [] = [] := by
  have hnames : (((context.tools.getD []).map (toToolDeclaration numbers)).map Tool.name).Nodup := by
    rw [List.map_map]; exact ht
  have hnothing := no_changes numbers (getCurrentTools_nodup context.messages) hnames fun name => by
    rw [h name, lookup_declarations, Option.map_map]
    congr 1
    funext tool
    exact (toToolDeclaration_idem numbers tool).symm
  rw [declareToolChanges, lastSystem?]
  rw [List.append_nil, if_pos hnothing]

theorem otherMessages_declareToolChanges : otherMessages (declareToolChanges numbers now context pendingMessages) =
      otherMessages pendingMessages := by
  have hsystem : ∀ (before after : List (Message E M)) (s : SystemMessage E),
      otherMessages (before ++ .system s :: after) = otherMessages (before ++ after) :=
    fun before after s => by
      rw [otherMessages, otherMessages, filterMap_append, filterMap_append]
      rfl
  unfold declareToolChanges
  cases hl : lastSystem? pendingMessages with
  | some found =>
    obtain ⟨before, pending, after⟩ := found
    obtain ⟨rfl, -⟩ := lastSystem?_some hl
    dsimp only
    split
    · rfl
    · rw [hsystem, hsystem]
  | none =>
    dsimp only
    split
    · rfl
    · rw [hsystem, takeWhile_append_dropWhile]

end Declare

/-! ## One system message for all -/

/-- Setting new keys one after the other appends them. -/
theorem foldl_set_append {κ α : Type} [DecidableEq κ] {entries done : JsMap κ α}
    (h : ((done ++ entries).map Prod.fst).Nodup) :
    entries.foldl (fun m p => m.set p.1 p.2) done = done ++ entries := by
  induction entries generalizing done with
  | nil => simp
  | cons p entries ih =>
    have hmove : done ++ p :: entries = done ++ [p] ++ entries := by simp
    have hnew : p.1 ∉ done.map Prod.fst := fun hmem => by
      rw [map_append, map_cons] at h
      exact (nodup_append.mp h).2.2 _ hmem _ (.head _) rfl
    rw [foldl_cons, JsMap.set_of_not_mem hnew, hmove]
    exact ih (hmove ▸ h)

variable {tools : List (Tool E)}

theorem toolMap_eq (h : (tools.map Tool.name).Nodup) :
    toolMap tools = tools.map fun tool => (tool.name, tool) := by
  have hnodup : (([] ++ tools.map fun tool : Tool E => (tool.name, tool)).map Prod.fst).Nodup := by
    simpa [Function.comp_def] using h
  rw [toolMap, ← nil_append (tools.map _), ← foldl_set_append hnodup, foldl_map]

theorem toolMap_values (h : (tools.map Tool.name).Nodup) : (toolMap tools).map Prod.snd = tools := by
  rw [toolMap_eq h]
  simp [Function.comp_def]

variable (entries : JsMap JsString JsString)

theorem fromEntries_wf : (fromEntries entries).Wf := by
  have hrun : ∀ props : JsProps (Option JsString), props.Wf →
      JsProps.Wf (entries.foldl (fun props p => JsProps.define props p.1 (some p.2)) props) := by
    induction entries with
    | nil => exact fun _ h => h
    | cons p entries ih => exact fun props h => ih _ (JsProps.define_wf props p.1 (some p.2) h)
  exact hrun [] JsProps.wf_nil

theorem mem_define {α : Type} {props : JsProps α} {key : JsString} {value : α} {p : JsString × α}
    (h : p ∈ JsProps.define props key value) : p = (key, value) ∨ p ∈ props := by
  rw [JsProps.define] at h
  split at h
  · obtain ⟨q, hq, rfl⟩ := mem_map.mp h
    by_cases hk : q.1 = key
    · exact .inl (if_pos hk)
    · rw [if_neg hk]; exact .inr hq
  · exact mem_cons.mp ((JsProps.insertNew_perm props key value).mem_iff.mp h)

/-- An object made from a map has no removed section. -/
theorem fromEntries_some : ∃ listed : JsMap JsString JsString,
      fromEntries entries = listed.map fun p => (p.1, some p.2) := by
  have hrun : ∀ props : JsProps (Option JsString), (∀ p ∈ props, p.2.isSome = true) →
      ∀ p ∈ entries.foldl (fun props p => JsProps.define props p.1 (some p.2)) props,
        p.2.isSome = true := by
    induction entries with
    | nil => exact fun _ h => h
    | cons q entries ih =>
      refine fun props h => ih _ fun p hp => ?_
      rcases mem_define hp with rfl | hp
      · rfl
      · exact h p hp
  have hsome := hrun [] (by simp)
  refine ⟨(fromEntries entries).map fun p => (p.1, p.2.getD []), ?_⟩
  rw [List.map_map]
  refine (List.map_id' _).symm.trans (List.map_congr_left fun p hp => ?_)
  obtain ⟨value, hvalue⟩ := Option.isSome_iff_exists.mp (hsome p hp)
  exact Prod.ext rfl (by simp [hvalue])

theorem fromEntries_listed {listed : JsMap JsString JsString}
    (h : JsProps.Wf (listed.map fun p => (p.1, some p.2))) :
    fromEntries listed = listed.map fun p => (p.1, some p.2) := by
  have hrun : ∀ (rest done : JsMap JsString JsString), JsProps.Wf ((done ++ rest).map fun p => (p.1, some p.2)) →
      rest.foldl (fun props p => JsProps.define props p.1 (some p.2))
        (done.map fun p => (p.1, some p.2)) = (done ++ rest).map fun p => (p.1, some p.2) := by
    intro rest
    induction rest with
    | nil => intro done _; simp
    | cons p rest ih =>
      intro done hwf
      have hmove : done ++ p :: rest = done ++ [p] ++ rest := by simp
      rw [hmove] at hwf ⊢
      have hlast : JsProps.Wf (done.map (fun p => (p.1, some p.2)) ++ [(p.1, some p.2)]) := by
        rw [map_append] at hwf
        simpa using JsProps.wf_append_left hwf
      rw [foldl_cons, JsProps.define_last hlast, ← ih (done ++ [p]) hwf]
      simp
  exact hrun listed [] h

/-- The sections of a collapsed message are read back as they are. -/
theorem fromEntries_replay :
    fromEntries ((fromEntries entries).foldl replaySection []) = fromEntries entries := by
  obtain ⟨listed, hlist⟩ := fromEntries_some entries
  have hwf := fromEntries_wf entries
  rw [hlist] at hwf ⊢
  have hkeys : (([] ++ listed).map Prod.fst).Nodup := by
    have := hwf.nodup
    simpa [JsProps.keys, Function.comp_def] using this
  have hrepl : (listed.map fun p => (p.1, some p.2)).foldl replaySection [] = listed := by
    rw [foldl_map]
    exact @foldl_set_append _ _ _ listed [] hkeys
  rw [hrepl, fromEntries_listed hwf]

theorem fromEntries_eq_nil {entries : JsMap JsString JsString} : fromEntries entries = [] ↔ entries = [] := by
  have hne : ∀ (props : JsProps (Option JsString)) (rest : JsMap JsString JsString), props ≠ [] →
      rest.foldl (fun props p => JsProps.define props p.1 (some p.2)) props ≠ [] := by
    intro props rest
    induction rest generalizing props with
    | nil => exact id
    | cons p rest ih =>
      intro h
      refine ih _ fun hnil => ?_
      have hget := JsProps.get?_define props p.1 (some p.2) p.1
      dsimp only at hnil
      rw [hnil, if_pos rfl] at hget
      cases hget
  constructor
  · intro h
    cases entries with
    | nil => rfl
    | cons p entries => exact absurd h (hne _ entries (by simp [JsProps.define, JsProps.keys, JsProps.insertNew]))
  · rintro rfl
    rfl

theorem systemMessages_others : systemMessages (messages.filter (!·.isSystem)) = [] := by
  refine filterMap_eq_nil_iff.mpr fun m hm => ?_
  have hother := (mem_filter.mp hm).2
  cases m with
  | system m => cases hother
  | other m => rfl

/-- The head of a collapsed transcript is all that its replay reads. -/
theorem systemMessages_collapse :
    systemMessages (collapseSystemMessages messages) = (getCurrentSystemMessage messages).toList := by
  unfold collapseSystemMessages
  cases getCurrentSystemMessage messages with
  | none => exact systemMessages_others messages
  | some head => exact congrArg (List.cons head) (systemMessages_others messages)

theorem promptState_timestamp : (promptState messages).timestamp = none ↔ systemMessages messages = [] := by
  have hrun : ∀ (ss : List (SystemMessage E)) (st : PromptState), st.timestamp ≠ none →
      (ss.foldl replayPrompt st).timestamp ≠ none := by
    intro ss
    induction ss with
    | nil => exact fun _ h => h
    | cons s ss ih => exact fun st _ => ih _ (by simp [replayPrompt])
  rw [promptState]
  cases systemMessages messages with
  | nil => simp
  | cons s ss => simpa using hrun ss _ (by simp [replayPrompt])

/-- The replayed message: present exactly when there are system messages, with these fields. -/
theorem getCurrentSystemMessage_cases : (systemMessages messages = [] ∧ getCurrentSystemMessage messages = none) ∨
    ∃ head, getCurrentSystemMessage messages = some head ∧ head.added = getCurrentTools messages ∧ head.removed = [] ∧
      head.content = .text ([10, 10].intercalate (promptState messages).content) ∧
      head.sections.getD [] = fromEntries (promptState messages).sections ∧
      (promptState messages).timestamp = some head.timestamp ∧
      head = ⟨head.content, if fromEntries (promptState messages).sections = [] then none
          else some (fromEntries (promptState messages).sections),
        if getCurrentTools messages = [] then none else some (getCurrentTools messages), none,
        head.timestamp⟩ := by
  unfold getCurrentSystemMessage
  by_cases hs : systemMessages messages = []
  · refine .inl ⟨hs, if_pos ⟨(promptState_timestamp messages).mpr hs, ?_⟩⟩
    rw [getCurrentTools, currentToolMap, hs]
    rfl
  · refine .inr ?_
    have hstamp : (promptState messages).timestamp ≠ none := fun h => hs ((promptState_timestamp messages).mp h)
    obtain ⟨t, ht⟩ := ne_none_iff_exists'.mp hstamp
    rw [if_neg (fun h => hstamp h.1)]
    refine ⟨_, rfl, ?_, rfl, rfl, ?_, ?_, ?_⟩
    · simp only [SystemMessage.added]
      by_cases htools : getCurrentTools messages = [] <;> simp [htools]
    · by_cases hsects : (promptState messages).sections = []
      · simp [hsects, fromEntries]
      · simp [hsects]
    · simp [ht]
    · simp [fromEntries_eq_nil]

theorem getCurrentTools_collapse :
    getCurrentTools (collapseSystemMessages messages) = getCurrentTools messages := by
  rw [getCurrentTools, currentToolMap, systemMessages_collapse]
  rcases getCurrentSystemMessage_cases messages with ⟨hs, hnone⟩ | ⟨head, hsome, ha, hr, -⟩
  · rw [hnone, getCurrentTools, currentToolMap, hs]
    rfl
  · rw [hsome]
    have hrepl : replayTools [] head = toolMap (getCurrentTools messages) := by
      rw [replayTools, ha, hr]
      rfl
    rw [toList_some, foldl_cons, foldl_nil, hrepl, toolMap_values (getCurrentTools_nodup messages)]

/-- Replaying the replayed message gives it back. -/
theorem getCurrentSystemMessage_collapse :
    getCurrentSystemMessage (collapseSystemMessages messages) = getCurrentSystemMessage messages := by
  have hsys := systemMessages_collapse messages
  have htools := getCurrentTools_collapse messages
  rcases getCurrentSystemMessage_cases messages with
    ⟨-, hnone⟩ | ⟨head, hsome, -, -, hcont, hsects, hstamp, hhead⟩
  · rw [hnone] at hsys ⊢
    rcases getCurrentSystemMessage_cases (collapseSystemMessages messages) with
      ⟨-, h⟩ | ⟨head, -, -, -, -, -, h, -⟩
    · exact h
    · rw [(promptState_timestamp _).mpr hsys] at h
      cases h
  · rw [hsome] at hsys ⊢
    have hstate : promptState (collapseSystemMessages messages) = replayPrompt ⟨[], [], none⟩ head := by
      rw [promptState, hsys]
      rfl
    rcases getCurrentSystemMessage_cases (collapseSystemMessages messages) with
      ⟨h, -⟩ | ⟨head', hsome', -, -, hcont', -, hstamp', hhead'⟩
    · rw [hsys] at h
      cases h
    · rw [hsome', hhead', hhead]
      have hst : head'.timestamp = head.timestamp := by
        rw [hstate] at hstamp'
        exact (Option.some.inj hstamp').symm
      have hjoin : head'.content = head.content := by
        rw [hcont', hstate, replayPrompt]
        split
        · rename_i hempty
          rw [hcont] at hempty ⊢
          exact congrArg SystemContent.text hempty.symm
        · rw [hcont]
          simp [contentText]
      have hsec : fromEntries (promptState (collapseSystemMessages messages)).sections =
          fromEntries (promptState messages).sections := by
        rw [hstate, replayPrompt]
        rw [hsects, fromEntries_replay]
      rw [hst, hjoin, hsec, htools]

theorem collapseSystemMessages_idem :
    collapseSystemMessages (collapseSystemMessages messages) = collapseSystemMessages messages := by
  have hothers : (collapseSystemMessages messages).filter (!·.isSystem) =
      messages.filter (!·.isSystem) := by
    unfold collapseSystemMessages
    cases getCurrentSystemMessage messages with
    | none => rw [List.filter_filter]; simp
    | some head =>
      rw [List.filter_cons_of_neg (by simp [Message.isSystem]), List.filter_filter]
      simp
  rw [collapseSystemMessages, hothers, getCurrentSystemMessage_collapse]
  rfl

/-! ## Additions where they stand -/

variable {declared : List JsString}

theorem declareOnce_some {declared' : List JsString} (h : declareOnce declared tools = some declared') :
    (tools.map Tool.name).Nodup ∧ (∀ name ∈ tools.map Tool.name, name ∉ declared) ∧
      ∀ name, name ∈ declared' ↔ name ∈ tools.map Tool.name ∨ name ∈ declared := by
  induction tools generalizing declared with
  | nil =>
    obtain rfl := Option.some.inj h
    simp
  | cons tool tools ih =>
    rw [declareOnce] at h
    split at h
    · cases h
    · rename_i hnew
      obtain ⟨hnodup, hdisjoint, hmem⟩ := ih h
      refine ⟨nodup_cons.mpr ⟨fun hm => hdisjoint _ hm (.head _), hnodup⟩, ?_, fun name => ?_⟩
      · intro name hname
        rcases mem_cons.mp hname with rfl | hname
        · exact hnew
        · exact fun hd => hdisjoint name hname (.tail _ hd)
      · rw [hmem, map_cons, mem_cons, mem_cons]
        tauto

/-- Without a removal or a repeated name, every declared tool is current. -/
theorem additive_of_not {messages : List (Message E M)} (h : nonAdditiveFrom declared messages = false) :
    (∀ s ∈ systemMessages messages, s.removed = []) ∧
    (((systemMessages messages).flatMap SystemMessage.added).map Tool.name).Nodup ∧
    ∀ name ∈ ((systemMessages messages).flatMap SystemMessage.added).map Tool.name,
      name ∉ declared := by
  induction messages generalizing declared with
  | nil => simp [systemMessages]
  | cons m messages ih =>
    cases m with
    | other m => exact ih h
    | system s =>
      rw [nonAdditiveFrom] at h
      split at h
      · cases h
      · rename_i hrem
        cases hd : declareOnce declared s.added with
        | none => rw [hd] at h; cases h
        | some declared' =>
          rw [hd] at h
          obtain ⟨hnodup, hnew, hmem⟩ := declareOnce_some hd
          obtain ⟨hrest, hrestNodup, hrestNew⟩ := ih h
          have hcons : systemMessages (.system s :: messages) = s :: systemMessages messages := rfl
          rw [hcons, flatMap_cons, map_append]
          refine ⟨?_, nodup_append.mpr ⟨hnodup, hrestNodup, ?_⟩, fun name hname => ?_⟩
          · intro s' hs'
            rcases mem_cons.mp hs' with rfl | hs'
            · exact not_not.mp hrem
            · exact hrest s' hs'
          · rintro name hname _ hname' rfl
            exact hrestNew name hname' ((hmem name).mpr (.inl hname))
          · rcases mem_append.mp hname with hname | hname
            · exact hnew name hname
            · exact fun hdeclared => hrestNew name hname ((hmem name).mpr (.inr hdeclared))

theorem getCurrentTools_additive {messages : List (Message E M)} (h : hasNonAdditiveToolChanges messages = false) :
    getCurrentTools messages = (systemMessages messages).flatMap SystemMessage.added := by
  obtain ⟨hrem, hnodup, -⟩ := additive_of_not h
  have hrun : ∀ (ss : List (SystemMessage E)) (m : JsMap JsString (Tool E)),
      (∀ s ∈ ss, s.removed = []) → ss.foldl replayTools m =
        (ss.flatMap SystemMessage.added).foldl (fun m tool => JsMap.set m tool.name tool) m := by
    intro ss
    induction ss with
    | nil => exact fun _ _ => rfl
    | cons s ss ih =>
      intro m hs
      simp only [mem_cons, forall_eq_or_imp] at hs
      rw [foldl_cons, ih _ hs.2, flatMap_cons, foldl_append, replayTools, hs.1]
      rfl
  rw [getCurrentTools, currentToolMap, hrun _ [] hrem]
  exact toolMap_values hnodup

theorem requestTools_append {messages : List (Message E M)} {supports : Bool}
    (h : (resolveTranscriptTools messages supports).anchorsAdditions = true) :
    (resolveTranscriptTools messages supports).requestTools ++
      (systemMessages messages.tail).flatMap SystemMessage.added = getCurrentTools messages := by
  have hadditive : hasNonAdditiveToolChanges messages = false := by
    simp only [resolveTranscriptTools, Bool.and_eq_true, Bool.not_eq_true'] at h
    exact h.2
  have hanchors : (supports && !hasNonAdditiveToolChanges messages) = true := h
  rw [getCurrentTools_additive hadditive]
  simp only [resolveTranscriptTools, hanchors, if_true]
  cases messages with
  | nil => rfl
  | cons m messages => cases m <;> rfl

/-- For every transcript, pending messages and tools of distinct names: after the
declaration the transcript declares just the executable tools, the other pending messages
are all there in their order, and there is nothing left to declare. Collapsing keeps the
tools and the prompt and does nothing the second time, and where additions are anchored,
the requested tools and the additions that follow are the current ones. -/
theorem declared_tools (numbers : JsonNumbers) (now : JsNumber) (context : AgentContext E M)
    (ht : ((context.tools.getD []).map Tool.name).Nodup) (pendingMessages : List (Message E M)) :
    let out := declareToolChanges numbers now context pendingMessages
    (((getCurrentTools (context.messages ++ out)).map (toToolDeclaration numbers)).Perm
      ((context.tools.getD []).map (toToolDeclaration numbers)) ∧
    otherMessages out = otherMessages pendingMessages ∧
    ∀ later, declareToolChanges numbers later { context with messages := context.messages ++ out } []
      = []) ∧
    ∀ messages : List (Message E M), getCurrentTools (collapseSystemMessages messages) = getCurrentTools messages ∧
      getCurrentSystemPrompt (collapseSystemMessages messages) = getCurrentSystemPrompt messages ∧
      collapseSystemMessages (collapseSystemMessages messages) = collapseSystemMessages messages ∧
      ∀ supports, (resolveTranscriptTools messages supports).anchorsAdditions = true →
        (resolveTranscriptTools messages supports).requestTools ++
          (systemMessages messages.tail).flatMap SystemMessage.added = getCurrentTools messages := by
  have hdeclares := declareToolChanges_declares numbers now context ht pendingMessages
  let extended : AgentContext E M := { context with
    messages := context.messages ++ declareToolChanges numbers now context pendingMessages }
  have hsettled : ∀ later, declareToolChanges numbers later extended [] = [] :=
    Declares.settled numbers extended hdeclares ht
  refine ⟨⟨hdeclares.perm numbers ht, otherMessages_declareToolChanges numbers now context _,
    hsettled⟩, fun messages =>
    ⟨getCurrentTools_collapse messages, ?_, collapseSystemMessages_idem messages,
      fun supports h => requestTools_append h⟩⟩
  rw [getCurrentSystemPrompt, getCurrentSystemMessage_collapse]
  rfl

/-- Safe integers as they are written; both zeros are. -/
def integerNumbers : JsonNumbers := { Jsonl.integerFormat with zero := by decide +kernel }

def namedTool (name : String) (properties : List (String × Nat)) : Tool Unit where
  name := JsText.ofString name
  description := []
  parameters := ⟨.array (properties.map fun p => .number (JsNumber.ofInt p.2)),
    .array fun item hitem => by
      obtain ⟨p, -, rfl⟩ := List.mem_map.mp hitem
      exact .number _⟩
  constrainedSampling := none
  extra := some ()

/-- One tool is redefined and one is gone, and a pending message asks for a third. -/
def redefined : AgentContext Unit Unit where
  messages := [.system ⟨.text [], none, some [namedTool "read" [], namedTool "write" []], none, JsNumber.ofInt 0⟩]
  tools := some [namedTool "read" [("path", 1)]]

def intent : List (Message Unit Unit) :=
  [.other (), .system ⟨.text [], none, some [namedTool "grep" []], none, JsNumber.ofInt 0⟩, .other ()]

theorem declared_tools_redefined :
    let out := declareToolChanges integerNumbers (JsNumber.ofInt 0) redefined intent
    (systemMessages out).map (fun s => (s.removed.map ToolReference.name, s.added.map Tool.name)) =
      [([JsText.ofString "read", JsText.ofString "write"], [JsText.ofString "read"])] ∧
    ((getCurrentTools (redefined.messages ++ out)).map (toToolDeclaration integerNumbers)).Perm
      ((redefined.tools.getD []).map (toToolDeclaration integerNumbers)) :=
  ⟨by decide, (declared_tools integerNumbers (JsNumber.ofInt 0) redefined
    (by decide) intent).1.1⟩

end Shuvpi.Transcript
