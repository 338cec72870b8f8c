import Shuvpi.TransformMessages

/-!
# Every call has its result

What the transcript for a provider looks like: each assistant message is followed at once
by one result for each of its calls, given or invented, and by no other. The first pass is
reduced to a pass that knows the assistant whose calls are open; the second one is a fold
whose state says what is still owed to that assistant.
-/
namespace Shuvpi.Transform

open List

variable {R : Type}

/-! ## The messages of one role -/

def Message.system? : Message R → Option (SystemMessage R)
  | .system m => some m
  | _ => none

def Message.user? : Message R → Option (UserMessage R)
  | .user m => some m
  | _ => none

def Message.assistant? : Message R → Option (AssistantMessage R)
  | .assistant m => some m
  | _ => none

def Message.toolResult? : Message R → Option (ToolResultMessage R)
  | .toolResult m => some m
  | _ => none

def systems (ms : List (Message R)) : List (SystemMessage R) := ms.filterMap Message.system?
def users (ms : List (Message R)) : List (UserMessage R) := ms.filterMap Message.user?
def assistants (ms : List (Message R)) : List (AssistantMessage R) := ms.filterMap Message.assistant?
def toolResults (ms : List (Message R)) : List (ToolResultMessage R) := ms.filterMap Message.toolResult?

/-! ## What each message is sent as -/

def SystemMessage.sent (m : SystemMessage R) : SystemMessage R := { m with content := m.content.normalize }

def UserMessage.sent (model : Model) (m : UserMessage R) : UserMessage R :=
  { m with content := if Modality.image ∈ model.input then m.content.normalize
      else downgradeUserContent m.content.normalize }

def AssistantMessage.normalize (m : AssistantMessage R) : AssistantMessage R := { m with content := some m.blocks }

/-- The id under which a call of `a` reaches the provider. -/
def AssistantMessage.sentId (normalizer : Normalizer R) (model : Model) (a : AssistantMessage R)
    (id : String) : String := normalizedId normalizer model a.normalize id

def AssistantMessage.sent (normalizer : Normalizer R) (model : Model) (a : AssistantMessage R) :
    AssistantMessage R := transformAssistant normalizer model a.normalize

def ToolResultMessage.normalize (model : Model) (r : ToolResultMessage R) : ToolResultMessage R :=
  { r with content := some (if Modality.image ∈ model.input then r.content.getD []
      else replaceImagesWithPlaceholder (r.content.getD []) NON_VISION_TOOL_IMAGE_PLACEHOLDER) }

def ToolResultMessage.sent (normalizer : Normalizer R) (model : Model) (a : AssistantMessage R)
    (r : ToolResultMessage R) : ToolResultMessage R :=
  { r.normalize model with toolCallId := a.sentId normalizer model r.toolCallId }

/-! ## Which call a result answers -/

/-- Each result with the assistant message that is open where it stands: the nearest one
before it with only system messages and other results between them. -/
def openAt : Option (AssistantMessage R) → List (Message R) → List (Option (AssistantMessage R) × ToolResultMessage R)
  | _, [] => []
  | a, .system _ :: ms => openAt a ms
  | a, .toolResult r :: ms => (a, r) :: openAt a ms
  | _, .user _ :: ms => openAt none ms
  | _, .assistant a :: ms => openAt (if a.skipped then none else some a) ms

/-- The results that were supplied, as they are sent. -/
def supplied (normalizer : Normalizer R) (model : Model) (a : Option (AssistantMessage R))
    (ms : List (Message R)) : List (ToolResultMessage R) :=
  (openAt a ms).filterMap fun p => p.1.map fun a => p.2.sent normalizer model a

/-- The message lists in question. -/
structure Answered (normalizer : Normalizer R) (model : Model) (ms : List (Message R)) : Prop where
  answers : ∀ p ∈ openAt none ms, ∃ a, p.1 = some a ∧ p.2.toolCallId ∈ a.callIds
  distinct : ((assistants ms).flatMap AssistantMessage.callIds).Nodup
  injective : ∀ a ∈ assistants ms, ∀ i ∈ a.callIds, ∀ j ∈ a.callIds,
    a.sentId normalizer model i = a.sentId normalizer model j → i = j

/-- No call is answered twice. -/
def AnsweredOnce (ms : List (Message R)) : Prop := ((toolResults ms).map ToolResultMessage.toolCallId).Nodup

instance (ms : List (Message R)) : Decidable (AnsweredOnce ms) := inferInstanceAs (Decidable (List.Nodup _))

/-- The normaliser does not erase the id of a call that has a result. -/
def IdsKept (normalizer : Normalizer R) (model : Model) (ms : List (Message R)) : Prop :=
  ∀ a r, (some a, r) ∈ openAt none ms → a.sentId normalizer model r.toolCallId = "" → r.toolCallId = ""

/-- A transcript in which every assistant message that was not skipped is followed by one
result for each call: first those of the second list, in their order, then invented ones. -/
inductive Paired (now : R) : List (Message R) → List (ToolResultMessage R) → Prop
  | nil : Paired now [] []
  | system (m : SystemMessage R) {ms given} : Paired now ms given → Paired now (.system m :: ms) given
  | user (m : UserMessage R) {ms given} : Paired now ms given → Paired now (.user m :: ms) given
  | assistant (a : AssistantMessage R) (answers invented : List (ToolResultMessage R)) {ms given} :
      a.skipped = false →
      (∀ r ∈ invented, ∃ tc ∈ a.toolCalls, r = noResult now tc) →
      ((answers ++ invented).map ToolResultMessage.toolCallId).Perm a.callIds →
      Paired now ms given →
      Paired now (.assistant a :: ((answers ++ invented).map .toolResult ++ ms)) (answers ++ given)

variable {now : R}

/-- The results of such a transcript are as many as its calls. -/
theorem Paired.ids_perm {ms given} (h : Paired now ms given) :
    ((toolResults ms).map ToolResultMessage.toolCallId).Perm
      ((assistants ms).flatMap AssistantMessage.callIds) := by
  have hall : ∀ rs : List (ToolResultMessage R), (rs.map Message.toolResult).filterMap Message.toolResult? = rs ∧
      (rs.map Message.toolResult).filterMap Message.assistant? = [] := fun rs => by
    induction rs with
    | nil => exact ⟨rfl, rfl⟩
    | cons r rs ih =>
      exact ⟨congrArg (cons r) ih.1, ih.2⟩
  induction h with
  | nil => exact .nil
  | system m _ ih => exact ih
  | user m _ ih => exact ih
  | @assistant a answers invented ms given hskip hinv hids hms ih =>
    have hres : toolResults (.assistant a :: ((answers ++ invented).map .toolResult ++ ms)) =
        answers ++ invented ++ toolResults ms := by
      simp only [toolResults, filterMap_cons, Message.toolResult?, filterMap_append]
      rw [(hall _).1]
    have hass : assistants (.assistant a :: ((answers ++ invented).map .toolResult ++ ms)) =
        a :: assistants ms := by
      simp only [assistants, filterMap_cons, Message.assistant?, filterMap_append]
      rw [(hall _).2, nil_append]
    rw [hres, hass, map_append, flatMap_cons]
    exact hids.append ih

/-! ## The first pass -/

def prepare (model : Model) (m : Message R) : Message R :=
  if Modality.image ∈ model.input then normalizeContent m else downgradeMessage (normalizeContent m)

theorem imageAwareMessages_eq (ms : List (Message R)) (model : Model) :
    imageAwareMessages ms model = ms.map (prepare model) := by
  unfold imageAwareMessages downgradeUnsupportedImages prepare
  split
  · rfl
  · rw [map_map]; rfl

variable (model : Model)

theorem prepare_system (m : SystemMessage R) : prepare model (.system m) = .system m.sent := by
  unfold prepare; split <;> rfl

theorem prepare_user (m : UserMessage R) : prepare model (.user m) = .user (m.sent model) := by
  unfold prepare UserMessage.sent; split <;> rfl

variable (a : AssistantMessage R)

theorem prepare_assistant : prepare model (.assistant a) = .assistant a.normalize := by
  unfold prepare; split <;> rfl

theorem prepare_toolResult (r : ToolResultMessage R) :
    prepare model (.toolResult r) = .toolResult (r.normalize model) := by
  unfold prepare ToolResultMessage.normalize; split <;> rfl

/-- The first pass with the open assistant in place of the map. -/
def sentMessages (normalizer : Normalizer R) (model : Model) :
    Option (AssistantMessage R) → List (Message R) → List (Message R)
  | _, [] => []
  | a, .system m :: ms => .system m.sent :: sentMessages normalizer model a ms
  | _, .user m :: ms => .user (m.sent model) :: sentMessages normalizer model none ms
  | a, .toolResult r :: ms =>
    .toolResult (match a with | some a => r.sent normalizer model a | none => r.normalize model) ::
      sentMessages normalizer model a ms
  | _, .assistant a :: ms =>
    .assistant (a.sent normalizer model) :: sentMessages normalizer model (if a.skipped then none else some a) ms

theorem get_recordIds (normalizer : Normalizer R) (model : Model) (a : AssistantMessage R)
    (ids : JsMap String String) (id : String) :
    (recordIds normalizer model a ids).get id =
      if id ∈ a.callIds ∧ normalizedId normalizer model a id ≠ id then
        some (normalizedId normalizer model a id)
      else ids.get id := by
  unfold recordIds
  induction a.callIds generalizing ids with
  | nil => simp
  | cons i is ih =>
    rw [foldl_cons, ih]
    by_cases hlater : id ∈ is ∧ normalizedId normalizer model a id ≠ id
    · rw [if_pos hlater, if_pos ⟨.tail _ hlater.1, hlater.2⟩]
    · rw [if_neg hlater]
      by_cases hi : id = i
      · subst hi
        split
        · rename_i hne
          rw [JsMap.get_set, if_pos rfl, if_pos ⟨.head _, hne⟩]
        · rename_i heq
          rw [if_neg (fun h => heq h.2)]
      · have hnot : ¬(id ∈ i :: is ∧ normalizedId normalizer model a id ≠ id) :=
          fun h => hlater ⟨(mem_cons.mp h.1).resolve_left hi, h.2⟩
        rw [if_neg hnot]
        split
        · rw [JsMap.get_set, if_neg (Ne.symm hi)]
        · rfl

/-- The map knows the calls of the open assistant and nothing of the calls to come. -/
structure IdsFit (normalizer : Normalizer R) (model : Model) (ids : JsMap String String)
    (a : Option (AssistantMessage R)) (ms : List (Message R)) : Prop where
  current : ∀ b, a = some b → ∀ id ∈ b.callIds, ids.get id =
    if b.sentId normalizer model id = id then none else some (b.sentId normalizer model id)
  fresh : ∀ id ∈ (assistants ms).flatMap AssistantMessage.callIds, ids.get id = none

theorem renameResult_eq {model : Model} {a : AssistantMessage R} {normalizer : Normalizer R}
    {ids : JsMap String String} {r : ToolResultMessage R}
    (hget : ids.get r.toolCallId = if a.sentId normalizer model r.toolCallId = r.toolCallId then none
      else some (a.sentId normalizer model r.toolCallId))
    (hkept : a.sentId normalizer model r.toolCallId = "" → r.toolCallId = "") :
    renameResult ids (r.normalize model) = r.sent normalizer model a := by
  have hid : (r.normalize model).toolCallId = r.toolCallId := rfl
  unfold renameResult ToolResultMessage.sent
  rw [hid, hget]
  by_cases heq : a.sentId normalizer model r.toolCallId = r.toolCallId
  · rw [if_pos heq, heq]; rfl
  · have hne : a.sentId normalizer model r.toolCallId ≠ "" := fun h => heq (h.trans (hkept h).symm)
    rw [if_neg heq]
    simp [hne, heq]

variable {ms : List (Message R)}

theorem firstPass_eq {model : Model} {normalizer : Normalizer R} {ids : JsMap String String}
    {a : Option (AssistantMessage R)} (hfit : IdsFit normalizer model ids a ms)
    (hans : ∀ p ∈ openAt a ms, ∃ b, p.1 = some b ∧ p.2.toolCallId ∈ b.callIds)
    (hdist : ((assistants ms).flatMap AssistantMessage.callIds).Nodup)
    (hkept : ∀ b r, (some b, r) ∈ openAt a ms → b.sentId normalizer model r.toolCallId = "" → r.toolCallId = "") :
    firstPass normalizer model ids (ms.map (prepare model)) = sentMessages normalizer model a ms := by
  induction ms generalizing ids a with
  | nil => rfl
  | cons m ms ih =>
    cases m with
    | system m =>
      rw [map_cons, prepare_system]
      exact congrArg _ (ih ⟨hfit.current, hfit.fresh⟩ hans hdist hkept)
    | user m =>
      rw [map_cons, prepare_user]
      have hans' : ∀ p ∈ openAt none ms, ∃ b, p.1 = some b ∧ p.2.toolCallId ∈ b.callIds := hans
      have hfit' : IdsFit normalizer model ids none ms := ⟨fun b hb => (by cases hb), hfit.fresh⟩
      exact congrArg _ (ih hfit' hans' hdist hkept)
    | toolResult r =>
      rw [map_cons, prepare_toolResult]
      obtain ⟨b, rfl, hmem⟩ := hans (a, r) (.head _)
      rw [firstPass, sentMessages, renameResult_eq (hfit.current b rfl _ hmem) (hkept b r (.head _))]
      exact congrArg _ (ih ⟨hfit.current, hfit.fresh⟩ (fun p hp => hans p (.tail _ hp)) hdist
        (fun b' r' h => hkept b' r' (.tail _ h)))
    | assistant b =>
      rw [map_cons, prepare_assistant]
      have hids : ((b.callIds) ++ (assistants ms).flatMap AssistantMessage.callIds).Nodup := hdist
      have hfresh : ∀ id ∈ b.callIds ++ (assistants ms).flatMap AssistantMessage.callIds,
          ids.get id = none := hfit.fresh
      refine congrArg _ (ih ⟨?_, fun id hid => ?_⟩ hans hids.of_append_right hkept)
      · intro c hc id hid
        split at hc
        · cases hc
        · obtain rfl := Option.some.inj hc
          rw [get_recordIds, hfresh id (mem_append_left _ hid)]
          by_cases hne : normalizedId normalizer model b.normalize id = id
          · rw [if_neg (fun h => h.2 hne)]
            exact (if_pos hne).symm
          · rw [if_pos ⟨hid, hne⟩]
            exact (if_neg hne).symm
      · have hnot : id ∉ b.callIds := fun h => (disjoint_of_nodup_append hids) h hid
        rw [get_recordIds, if_neg (fun h => hnot h.1)]
        exact hfresh id (mem_append_right _ hid)

/-! ## The second pass -/

theorem toolCall_transformToolCall_id (normalizer : Normalizer R) (model : Model)
    (a : AssistantMessage R) (call : ToolCall R) :
    (transformToolCall normalizer model a call).id = normalizedId normalizer model a call.id := by
  unfold transformToolCall
  by_cases h : normalizedId normalizer model a call.id = call.id
  · simp only [h, ne_eq, not_true_eq_false, if_false]
    split <;> rfl
  · simp only [h, ne_eq, not_false_eq_true, if_true]

theorem toolCalls_transformBlock (normalizer : Normalizer R) (model : Model)
    (a : AssistantMessage R) (block : AssistantBlock R) :
    ((transformBlock normalizer model a block).filterMap AssistantBlock.toolCall?).map ToolCall.id =
      ([block].filterMap AssistantBlock.toolCall?).map
        fun tc => normalizedId normalizer model a tc.id := by
  cases block with
  | text block => rfl
  | thinking block =>
    simp only [transformBlock, transformThinking]
    split_ifs <;> rfl
  | toolCall call =>
    exact congrArg (fun id => [id]) (toolCall_transformToolCall_id normalizer model a call)

/-- The calls of a message are sent under their normalised ids, in their order. -/
theorem callIds_sent (normalizer : Normalizer R) (model : Model) (a : AssistantMessage R) :
    (a.sent normalizer model).callIds = a.callIds.map (a.sentId normalizer model) := by
  have hblocks : ∀ bs : List (AssistantBlock R), ((bs.flatMap (transformBlock normalizer model a.normalize)).filterMap
        AssistantBlock.toolCall?).map ToolCall.id =
        ((bs.filterMap AssistantBlock.toolCall?).map ToolCall.id).map
          (a.sentId normalizer model) := fun bs => by
    induction bs with
    | nil => rfl
    | cons block bs ih =>
      rw [flatMap_cons, filterMap_append, map_append, ih, toolCalls_transformBlock]
      cases block <;> rfl
  exact hblocks a.blocks

@[simp] theorem skipped_sent (normalizer : Normalizer R) (model : Model) (a : AssistantMessage R) :
    (a.sent normalizer model).skipped = a.skipped := rfl

/-- The ids of the pending calls that have no result yet. -/
def PassState.owed (st : PassState R) : List String :=
  (st.pendingToolCalls.map ToolCall.id).filter (· ∉ st.existingToolResultIds)

theorem missingResults_ids (now : R) (calls : List (ToolCall R)) (existing : List String) :
    (missingResults now calls existing).map ToolResultMessage.toolCallId =
      (calls.map ToolCall.id).filter (· ∉ existing) := by
  rw [missingResults, map_map, filter_map]
  rfl

theorem owed_perm {ids existing : List String} (hids : ids.Nodup) {id : String} (hid : id ∈ ids)
    (hnew : id ∉ existing) :
    (id :: ids.filter (· ∉ id :: existing)).Perm (ids.filter (· ∉ existing)) := by
  have hnodup : (id :: ids.filter (· ∉ id :: existing)).Nodup := by
    refine nodup_cons.mpr ⟨fun h => ?_, hids.filter _⟩
    simpa using (mem_filter.mp h).2
  refine (perm_ext_iff_of_nodup hnodup (hids.filter _)).mpr fun i => ?_
  simp only [mem_cons, mem_filter, decide_eq_true_eq, not_or]
  constructor
  · rintro (rfl | ⟨hi, -, hold⟩)
    · exact ⟨hid, hnew⟩
    · exact ⟨hi, hold⟩
  · rintro ⟨hi, hold⟩
    by_cases heq : i = id
    · exact .inl heq
    · exact .inr ⟨hi, heq, hold⟩

def openCalls (normalizer : Normalizer R) (model : Model) : Option (AssistantMessage R) → List (ToolCall R)
  | none => []
  | some a => (a.sent normalizer model).toolCalls

/-- The state of the second pass when `a` is open and the calls `answered` have a result. -/
structure PassFits (normalizer : Normalizer R) (model : Model) (a : Option (AssistantMessage R))
    (answered : List String) (st : PassState R) : Prop where
  pending : st.pendingToolCalls = openCalls normalizer model a
  held : st.pendingToolCalls = [] → st.heldSystemMessages = []
  existing : st.pendingToolCalls ≠ [] → ∀ b, a = some b →
    st.existingToolResultIds = answered.map (b.sentId normalizer model)

/-- What the messages to come must satisfy for it. -/
structure Answerable (normalizer : Normalizer R) (model : Model) (a : Option (AssistantMessage R))
    (answered : List String) (ms : List (Message R)) : Prop where
  answers : ∀ p ∈ openAt a ms, ∃ b, p.1 = some b ∧ p.2.toolCallId ∈ b.callIds
  once : (answered ++ (toolResults ms).map ToolResultMessage.toolCallId).Nodup
  known : ∀ b, a = some b → ∀ i ∈ answered, i ∈ b.callIds
  distinct : ∀ b ∈ a.toList ++ assistants ms, (b.callIds.map (b.sentId normalizer model)).Nodup

theorem closed_fits (normalizer : Normalizer R) (model : Model) (now : R) (st : PassState R) :
    PassFits normalizer model none [] (closePendingToolCalls now st) :=
  ⟨rfl, fun _ => rfl, fun h => absurd rfl h⟩

variable {st : PassState R}

/-- With nothing owed, what follows the state holds no result of an open turn. -/
theorem nil_of_owed {answers invented : List (ToolResultMessage R)}
    (hperm : ((answers ++ invented).map ToolResultMessage.toolCallId).Perm st.owed)
    (hpending : st.pendingToolCalls = []) : answers = [] ∧ invented = [] := by
  rw [PassState.owed, hpending] at hperm
  exact append_eq_nil_iff.mp (map_eq_nil_iff.mp hperm.eq_nil)

/-- From a state of the pass, the rest of the transcript first pays what is owed, then
releases the system messages held back, and is paired from there. -/
def Completes (now : R) (st : PassState R) (tail : List (Message R))
    (given : List (ToolResultMessage R)) : Prop :=
  ∃ answers invented rest later,
    tail = (answers ++ invented).map .toolResult ++ (st.heldSystemMessages.map .system ++ rest) ∧
    given = answers ++ later ∧
    (∀ r ∈ invented, ∃ tc ∈ st.pendingToolCalls, r = noResult now tc) ∧
    ((answers ++ invented).map ToolResultMessage.toolCallId).Perm st.owed ∧ Paired now rest later

variable {tail : List (Message R)}

theorem Completes.paired {given} (h : Completes now st tail given) (hpending : st.pendingToolCalls = [])
    (hheld : st.heldSystemMessages = []) : Paired now tail given := by
  obtain ⟨answers, invented, rest, later, rfl, rfl, -, hperm, hrest⟩ := h
  obtain ⟨rfl, rfl⟩ := nil_of_owed hperm hpending
  rw [hheld]
  exact hrest

/-- Closing the turn pays everything at once. -/
theorem completes_close (now : R) (st : PassState R) {rest : List (Message R)} {given}
    (hrest : Paired now rest given) :
    Completes now st ((missingResults now st.pendingToolCalls st.existingToolResultIds).map
      .toolResult ++ (st.heldSystemMessages.map .system ++ rest)) given := by
  refine ⟨[], missingResults now st.pendingToolCalls st.existingToolResultIds, rest, given, rfl,
    rfl, fun r hr => ?_, ?_, hrest⟩
  · obtain ⟨tc, htc, rfl⟩ := mem_map.mp hr
    exact ⟨tc, mem_of_mem_filter htc, rfl⟩
  · rw [nil_append, missingResults_ids]
    exact .rfl

theorem completes_system {model : Model} {normalizer : Normalizer R} {a : Option (AssistantMessage R)}
    {answered : List String} (hst : PassFits normalizer model a answered st) (m : SystemMessage R) {given}
    (h : Completes now (secondStep now st (.system m)) tail given) :
    ∃ tail', Completes now st tail' given ∧
      (secondStep now st (.system m)).result ++ tail = st.result ++ tail' := by
  simp only [secondStep] at h ⊢
  split at h
  · rename_i hpending
    have hpaired : Paired now tail given := h.paired hpending (hst.held hpending)
    refine ⟨.system m :: tail, ⟨[], [], .system m :: tail, given, ?_, rfl, by simp, ?_, .system m hpaired⟩, ?_⟩
    · rw [hst.held hpending]; rfl
    · rw [PassState.owed, hpending]; exact .rfl
    · rw [if_pos hpending]
      simp [PassState.push]
  · rename_i hpending
    rw [if_neg hpending]
    obtain ⟨answers, invented, rest, later, rfl, rfl, hinv, hperm, hrest⟩ := h
    refine ⟨_, ⟨answers, invented, .system m :: rest, later, ?_, rfl, hinv, hperm, .system m hrest⟩, rfl⟩
    simp

variable (st : PassState R)

theorem completes_user (m : UserMessage R) {given}
    (h : Completes now (secondStep now st (.user m)) tail given) :
    ∃ tail', Completes now st tail' given ∧
      (secondStep now st (.user m)).result ++ tail = st.result ++ tail' := by
  have hpaired : Paired now tail given := h.paired rfl rfl
  refine ⟨_, completes_close now st (.user m hpaired), ?_⟩
  simp [secondStep, PassState.push, closePendingToolCalls]

theorem completes_skipped {a : AssistantMessage R} (hskip : a.skipped = true) {given}
    (h : Completes now (secondStep now st (.assistant a)) tail given) :
    ∃ tail', Completes now st tail' given ∧
      (secondStep now st (.assistant a)).result ++ tail = st.result ++ tail' := by
  simp only [secondStep, if_pos hskip] at h ⊢
  have hpaired : Paired now tail given := h.paired rfl rfl
  refine ⟨_, completes_close now st hpaired, ?_⟩
  simp [closePendingToolCalls]

theorem owed_track (now : R) (st : PassState R) (a : AssistantMessage R) :
    (((closePendingToolCalls now st).track a.toolCalls).push (.assistant a)).owed = a.callIds ∧
    (((closePendingToolCalls now st).track a.toolCalls).push (.assistant a)).pendingToolCalls = a.toolCalls ∧
    (((closePendingToolCalls now st).track a.toolCalls).push (.assistant a)).heldSystemMessages =
      [] := by
  unfold PassState.track PassState.push PassState.owed AssistantMessage.callIds
  split
  · rename_i hnone
    rw [hnone]
    exact ⟨rfl, rfl, rfl⟩
  · exact ⟨filter_eq_self.mpr (by simp), rfl, rfl⟩

theorem completes_assistant {a : AssistantMessage R} (hskip : a.skipped = false) {given}
    (h : Completes now (secondStep now st (.assistant a)) tail given) :
    ∃ tail', Completes now st tail' given ∧
      (secondStep now st (.assistant a)).result ++ tail = st.result ++ tail' := by
  simp only [secondStep, hskip, Bool.false_eq_true, if_false] at h ⊢
  obtain ⟨howed, hpending, hheld⟩ := owed_track now st a
  obtain ⟨answers, invented, rest, later, rfl, rfl, hinv, hperm, hrest⟩ := h
  rw [howed] at hperm
  rw [hpending] at hinv
  refine ⟨_, completes_close now st (.assistant a answers invented hskip hinv hperm hrest), ?_⟩
  rw [hheld]
  simp only [PassState.push, PassState.track]
  split <;> simp [closePendingToolCalls]

theorem completes_toolResult (r : ToolResultMessage R)
    (hids : (st.pendingToolCalls.map ToolCall.id).Nodup) (hcall : r.toolCallId ∈ st.pendingToolCalls.map ToolCall.id)
    (hnew : r.toolCallId ∉ st.existingToolResultIds) {given}
    (h : Completes now (secondStep now st (.toolResult r)) tail given) :
    ∃ tail', Completes now st tail' (r :: given) ∧
      (secondStep now st (.toolResult r)).result ++ tail = st.result ++ tail' := by
  obtain ⟨answers, invented, rest, later, rfl, rfl, hinv, hperm, hrest⟩ := h
  have hpaid : ((r :: answers ++ invented).map ToolResultMessage.toolCallId).Perm st.owed :=
    (List.Perm.cons r.toolCallId hperm).trans (owed_perm hids hcall hnew)
  refine ⟨_, ⟨r :: answers, invented, rest, later, rfl, rfl, hinv, hpaid, hrest⟩, ?_⟩
  simp [secondStep]

section Run
variable {normalizer : Normalizer R} {model : Model} (now : R) {a : Option (AssistantMessage R)}
  {answered : List String} {st : PassState R} {ms : List (Message R)}

theorem PassFits.system (hst : PassFits normalizer model a answered st) (m : SystemMessage R) :
    PassFits normalizer model a answered (secondStep now st (.system m)) := by
  simp only [secondStep]
  split
  · exact ⟨hst.pending, hst.held, hst.existing⟩
  · rename_i hpending
    exact ⟨hst.pending, fun h => absurd h hpending, hst.existing⟩

theorem PassFits.toolResult {b : AssistantMessage R}
    (hst : PassFits normalizer model (some b) answered st) (r : ToolResultMessage R) :
    PassFits normalizer model (some b) (r.toolCallId :: answered)
      (secondStep now st (.toolResult (r.sent normalizer model b))) := by
  refine ⟨hst.pending, hst.held, fun hpending b' hb' => ?_⟩
  rw [map_cons, ← hst.existing hpending b' hb']
  obtain rfl := Option.some.inj hb'
  rfl

theorem passFits_assistant (st : PassState R) (b : AssistantMessage R) :
    PassFits normalizer model (if b.skipped then none else some b) []
      (secondStep now st (.assistant (b.sent normalizer model))) := by
  cases hskip : b.skipped with
  | true =>
    simp only [secondStep, skipped_sent, hskip, if_true]
    exact closed_fits normalizer model now st
  | false =>
    simp only [secondStep, skipped_sent, hskip, Bool.false_eq_true, if_false]
    obtain ⟨-, hpending, hheld⟩ := owed_track now st (b.sent normalizer model)
    refine ⟨hpending, fun _ => hheld, fun hne b' _ => ?_⟩
    rw [hpending] at hne
    simp only [PassState.push, PassState.track, if_neg hne, map_nil]

theorem Answerable.later {a' : Option (AssistantMessage R)} {m : Message R}
    (h : Answerable normalizer model a answered (m :: ms)) (hopen : openAt a (m :: ms) = openAt a' ms)
    (hmem : ∀ b ∈ a'.toList ++ assistants ms, b ∈ a.toList ++ assistants (m :: ms))
    (honce : ((toolResults ms).map ToolResultMessage.toolCallId).Sublist
      ((toolResults (m :: ms)).map ToolResultMessage.toolCallId)) :
    Answerable normalizer model a' [] ms :=
  ⟨hopen ▸ h.answers, h.once.of_append_right.sublist honce, by simp, fun b hb => h.distinct b (hmem b hb)⟩

/-- The state's promise carried from the end of the list to its start. -/
theorem completes_foldl (hst : PassFits normalizer model a answered st)
    (hms : Answerable normalizer model a answered ms) :
    ∃ tail, Completes now st tail (supplied normalizer model a ms) ∧ (closePendingToolCalls now
        ((sentMessages normalizer model a ms).foldl (secondStep now) st)).result =
        st.result ++ tail := by
  induction ms generalizing a answered st with
  | nil =>
    refine ⟨_, completes_close now st .nil, ?_⟩
    simp [sentMessages, closePendingToolCalls]
  | cons m ms ih =>
    cases m with
    | system m =>
      obtain ⟨tail, htail, hrun⟩ := ih (hst.system now m.sent)
        ⟨hms.answers, hms.once, hms.known, hms.distinct⟩
      obtain ⟨tail', htail', happend⟩ := completes_system hst m.sent htail
      exact ⟨tail', htail', hrun.trans happend⟩
    | user m =>
      have hlater : Answerable normalizer model none [] ms :=
        hms.later rfl (fun b hb => mem_append_right _ hb) (List.Sublist.refl _)
      have hfits : PassFits normalizer model none [] (secondStep now st (.user (m.sent model))) :=
        ⟨rfl, fun _ => rfl, fun h => absurd rfl h⟩
      obtain ⟨tail, htail, hrun⟩ := ih hfits hlater
      obtain ⟨tail', htail', happend⟩ := completes_user st (m.sent model) htail
      exact ⟨tail', htail', hrun.trans happend⟩
    | assistant b =>
      have hlater : Answerable normalizer model (if b.skipped then none else some b) [] ms := by
        refine hms.later rfl (fun c hc => mem_append_right _ ?_) (List.Sublist.refl _)
        rcases mem_append.mp hc with hc | hc
        · split at hc
          · cases hc
          · obtain rfl := mem_singleton.mp hc
            exact .head _
        · exact .tail _ hc
      obtain ⟨tail, htail, hrun⟩ := ih (passFits_assistant now st b) hlater
      cases hskip : b.skipped with
      | true =>
        obtain ⟨tail', htail', happend⟩ := completes_skipped st (a := b.sent normalizer model) hskip htail
        exact ⟨tail', htail', hrun.trans happend⟩
      | false =>
        obtain ⟨tail', htail', happend⟩ := completes_assistant st (a := b.sent normalizer model) hskip htail
        exact ⟨tail', htail', hrun.trans happend⟩
    | toolResult r =>
      obtain ⟨b, rfl, hcall⟩ := hms.answers (a, r) (.head _)
      have hcons : (answered ++ r.toolCallId :: (toolResults ms).map ToolResultMessage.toolCallId).Nodup := hms.once
      have honce : (r.toolCallId :: answered ++ (toolResults ms).map ToolResultMessage.toolCallId).Nodup :=
        perm_middle.nodup_iff.mp hcons
      have hlater : Answerable normalizer model (some b) (r.toolCallId :: answered) ms := by
        refine ⟨fun p hp => hms.answers p (.tail _ hp), honce, fun c hc i hi => ?_, hms.distinct⟩
        rcases mem_cons.mp hi with rfl | hi
        · obtain rfl := Option.some.inj hc
          exact hcall
        · exact hms.known c hc i hi
      obtain ⟨tail, htail, hrun⟩ := ih (hst.toolResult now r) hlater
      have hids : st.pendingToolCalls.map ToolCall.id =
          b.callIds.map (b.sentId normalizer model) := by
        rw [hst.pending]
        exact callIds_sent normalizer model b
      have hnodup := hms.distinct b (mem_append_left _ (.head _))
      have hpending : st.pendingToolCalls ≠ [] := fun h => by
        rw [h] at hids
        rw [map_eq_nil_iff.mp hids.symm] at hcall
        cases hcall
      have hnew : (r.sent normalizer model b).toolCallId ∉ st.existingToolResultIds := by
        rw [hst.existing hpending b rfl]
        intro h
        obtain ⟨i, hi, heq⟩ := mem_map.mp h
        obtain rfl := inj_on_of_nodup_map hnodup (hms.known b rfl i hi) hcall heq
        exact (nodup_cons.mp honce).1 (mem_append_left _ hi)
      obtain ⟨tail', htail', happend⟩ := completes_toolResult st (r.sent normalizer model b)
        (by rw [hids]; exact hnodup) (by rw [hids]; exact mem_map_of_mem hcall) hnew htail
      exact ⟨tail', htail', hrun.trans happend⟩

end Run

/-! ## The messages of one role survive -/

section Roles
variable {β : Type} {f : Message R → Option β}

theorem filterMap_toolResult (hf : ∀ r, f (.toolResult r) = none)
    (rs : List (ToolResultMessage R)) : (rs.map Message.toolResult).filterMap f = [] :=
  filterMap_eq_nil_iff.mpr fun m hm => by
    obtain ⟨r, -, rfl⟩ := mem_map.mp hm
    exact hf r

theorem filterMap_close (hf : ∀ r, f (.toolResult r) = none) (now : R) (st : PassState R) :
    (closePendingToolCalls now st).result.filterMap f =
      st.result.filterMap f ++ (st.heldSystemMessages.map .system).filterMap f := by
  simp only [closePendingToolCalls, filterMap_append]
  rw [filterMap_toolResult hf, append_nil]

theorem result_track (st : PassState R) (calls : List (ToolCall R)) :
    (st.track calls).result = st.result := by
  unfold PassState.track; split <;> rfl

/-- The second pass drops the assistant messages that are not replayed, and nothing else. -/
def Message.kept : Message R → Bool
  | .assistant a => !a.skipped
  | _ => true

/-- What a step adds of a role, counting the system messages it holds back as added. -/
theorem filterMap_step (hf : ∀ r, f (.toolResult r) = none) (now : R) {st : PassState R}
    (hst : st.pendingToolCalls = [] → st.heldSystemMessages = []) (m : Message R) :
    (secondStep now st m).result.filterMap f ++ ((secondStep now st m).heldSystemMessages.map .system).filterMap f =
      st.result.filterMap f ++ (st.heldSystemMessages.map .system).filterMap f ++
        ([m].filter Message.kept).filterMap f := by
  cases m with
  | system m =>
    simp only [secondStep]
    split
    · rename_i hpending
      rw [hst hpending]
      simp [PassState.push, hst hpending]
      rfl
    · simp
      rfl
  | user m =>
    have hres : (secondStep now st (.user m)).result = (closePendingToolCalls now st).result ++ [.user m] := rfl
    have hheld : (secondStep now st (.user m)).heldSystemMessages = [] := rfl
    rw [hres, hheld, filterMap_append, filterMap_close hf]
    simp
    rfl
  | toolResult r =>
    have hres : (secondStep now st (.toolResult r)).result = st.result ++ [.toolResult r] := rfl
    have hheld : (secondStep now st (.toolResult r)).heldSystemMessages = st.heldSystemMessages := rfl
    rw [hres, hheld, filterMap_append]
    simp [Message.kept, hf]
  | assistant a =>
    obtain ⟨-, -, hheld⟩ := owed_track now st a
    cases hskip : a.skipped with
    | true =>
      simp only [secondStep, hskip, if_true]
      rw [filterMap_close hf]
      simp [closePendingToolCalls, Message.kept, hskip]
    | false =>
      simp only [secondStep, hskip, Bool.false_eq_true, if_false]
      rw [hheld, PassState.push, result_track, filterMap_append, filterMap_close hf]
      simp [Message.kept, hskip]

theorem held_step (now : R) {st : PassState R}
    (hst : st.pendingToolCalls = [] → st.heldSystemMessages = []) (m : Message R) :
    (secondStep now st m).pendingToolCalls = [] → (secondStep now st m).heldSystemMessages = [] := by
  cases m with
  | system m =>
    simp only [secondStep]
    split
    · exact hst
    · rename_i hpending
      exact fun h => absurd h hpending
  | user m => exact fun _ => rfl
  | toolResult r => exact hst
  | assistant a =>
    simp only [secondStep]
    split
    · exact fun _ => rfl
    · exact fun _ => (owed_track now st a).2.2

theorem filterMap_secondPass (hf : ∀ r, f (.toolResult r) = none) (now : R)
    (ms : List (Message R)) :
    (secondPass now ms).filterMap f = (ms.filter Message.kept).filterMap f := by
  have hrun : ∀ st : PassState R, (st.pendingToolCalls = [] → st.heldSystemMessages = []) →
      (closePendingToolCalls now (ms.foldl (secondStep now) st)).result.filterMap f =
        st.result.filterMap f ++ (st.heldSystemMessages.map .system).filterMap f ++
          (ms.filter Message.kept).filterMap f := by
    induction ms with
    | nil => intro st _; rw [foldl_nil, filterMap_close hf]; simp
    | cons m ms ih =>
      intro st hst
      rw [foldl_cons, ih _ (held_step now hst m), filterMap_step hf now hst m,
        append_assoc, ← filterMap_append (l := (filter _ [m])), ← filter_append,
        singleton_append]
  exact hrun .initial fun _ => rfl

end Roles

section Sent
variable (normalizer : Normalizer R) (model : Model) (a : Option (AssistantMessage R)) (ms : List (Message R))

theorem systems_sentMessages : systems ((sentMessages normalizer model a ms).filter Message.kept) =
      (systems ms).map SystemMessage.sent := by
  induction ms generalizing a with
  | nil => rfl
  | cons m ms ih =>
    cases m with
    | system m => exact congrArg (cons m.sent) (ih a)
    | user m => exact ih none
    | toolResult r => exact ih a
    | assistant b =>
      rw [sentMessages, filter_cons]
      split
      · exact ih _
      · exact ih _

theorem users_sentMessages : users ((sentMessages normalizer model a ms).filter Message.kept) =
      (users ms).map (UserMessage.sent model) := by
  induction ms generalizing a with
  | nil => rfl
  | cons m ms ih =>
    cases m with
    | system | toolResult => exact ih a
    | user m => exact congrArg (cons (m.sent model)) (ih none)
    | assistant b =>
      rw [sentMessages, filter_cons]
      split
      · exact ih _
      · exact ih _

theorem assistants_sentMessages : assistants ((sentMessages normalizer model a ms).filter Message.kept) =
      ((assistants ms).filter (!·.skipped)).map (AssistantMessage.sent normalizer model) := by
  induction ms generalizing a with
  | nil => rfl
  | cons m ms ih =>
    cases m with
    | system | toolResult => exact ih a
    | user m => exact ih none
    | assistant b =>
      have hcons : assistants (.assistant b :: ms) = b :: assistants ms := rfl
      rw [sentMessages, filter_cons, hcons, filter_cons]
      cases hskip : b.skipped with
      | true =>
        simp only [Message.kept, skipped_sent, hskip, Bool.not_true, Bool.false_eq_true, if_false]
        exact ih _
      | false =>
        simp only [Message.kept, skipped_sent, hskip, Bool.not_false, if_true]
        exact congrArg (cons (b.sent normalizer model)) (ih _)

end Sent

/-! ## The transcript -/

/-- For every message list whose results each answer a call of the open assistant message,
no call twice and none whose id the normaliser erases: after each assistant message that is
replayed comes one result per call, the supplied ones as they came, and no message of
another role is lost, repeated or moved past one of its own role. -/
theorem transformMessages_paired (now : R) (messages : List (Message R)) (model : Model)
    (normalizer : Normalizer R) (h : Answered normalizer model messages)
    (honce : AnsweredOnce messages) (hkept : IdsKept normalizer model messages) :
    let out := transformMessages now messages model normalizer
    Paired now out (supplied normalizer model none messages) ∧
    systems out = (systems messages).map SystemMessage.sent ∧
    users out = (users messages).map (UserMessage.sent model) ∧
    assistants out = ((assistants messages).filter (!·.skipped)).map
      (AssistantMessage.sent normalizer model) := by
  have hids : IdsFit normalizer model [] none messages := ⟨fun b hb => (by cases hb), fun _ _ => rfl⟩
  have hfirst : firstPass normalizer model [] (imageAwareMessages messages model) =
      sentMessages normalizer model none messages := by
    rw [imageAwareMessages_eq]
    exact firstPass_eq hids h.answers h.distinct hkept
  have hanswerable : Answerable normalizer model none [] messages := by
    refine ⟨h.answers, honce, fun b hb => (by cases hb), fun b hb => ?_⟩
    have hnodup : b.callIds.Nodup := (List.nodup_flatMap.mp h.distinct).1 b hb
    exact (List.nodup_map_iff_inj_on hnodup).mpr (h.injective b hb)
  have hfits : PassFits normalizer model none [] (.initial : PassState R) :=
    ⟨rfl, fun _ => rfl, fun hne => absurd rfl hne⟩
  obtain ⟨tail, htail, hrun⟩ := completes_foldl now hfits hanswerable
  simp only [transformMessages, hfirst]
  refine ⟨?_, ?_, ?_, ?_⟩
  · rw [secondPass, hrun]
    exact htail.paired rfl rfl
  · rw [systems, filterMap_secondPass (fun _ => rfl)]
    exact systems_sentMessages normalizer model none messages
  · rw [users, filterMap_secondPass (fun _ => rfl)]
    exact users_sentMessages normalizer model none messages
  · rw [assistants, filterMap_secondPass (fun _ => rfl)]
    exact assistants_sentMessages normalizer model none messages

def target : Model := ⟨"claude", "anthropic-messages", "anthropic", [.text]⟩

def caller (ids : List String) : AssistantMessage Unit :=
  ⟨some (ids.map fun id => .toolCall ⟨id, "read", none, ()⟩), "openai-responses", "openai", "gpt", .toolUse, ()⟩

def answer (id : String) : ToolResultMessage Unit := ⟨id, "read", some [.text ⟨"done", none⟩], false, ()⟩

/-- A system message and a missing result between a call and the next turn. -/
def interrupted : List (Message Unit) :=
  [.assistant (caller ["a|1", "b|2"]), .system ⟨.text "note", ()⟩, .toolResult (answer "b|2"),
    .user ⟨.text "go on", ()⟩]

def sanitize (id : String) (_ : Model) (_ : AssistantMessage Unit) : String :=
  String.ofList (id.toList.filter (· ≠ '|'))

theorem interrupted_answered : Answered (some sanitize) target interrupted where
  answers := by
    intro p hp
    obtain rfl := mem_singleton.mp hp
    exact ⟨_, rfl, by decide⟩
  distinct := by decide
  injective := by decide

theorem transformMessages_paired_interrupted :
    (toolResults (transformMessages () interrupted target (some sanitize))).map
      ToolResultMessage.toolCallId = ["b2", "a1"] ∧
    Paired () (transformMessages () interrupted target (some sanitize))
      (supplied (some sanitize) target none interrupted) :=
  ⟨by decide, (transformMessages_paired () interrupted target (some sanitize) interrupted_answered
    (by decide) (fun a r hmem hid => by
      have hpair : (some a, r) = (some (caller ["a|1", "b|2"]), answer "b|2") := List.mem_singleton.mp hmem
      obtain ⟨ha, rfl⟩ := Prod.mk.inj hpair
      obtain rfl := Option.some.inj ha
      exact absurd hid (by decide))).1⟩

/-- The only call of this list loses its whole id. -/
def erased : List (Message Unit) := [.assistant (caller ["|"]), .toolResult (answer "|")]

/-- The only call of this list has two results. -/
def answeredTwice : List (Message Unit) :=
  [.assistant (caller ["a"]), .toolResult (answer "a"), .toolResult (answer "a")]

theorem not_paired_of_length {given}
    (h : (toolResults ms).length ≠ ((assistants ms).flatMap AssistantMessage.callIds).length) :
    ¬Paired now ms given := fun hp =>
  h (by rw [← hp.ids_perm.length_eq, length_map])

/-- An id that is normalised to the empty string is not renamed in its result, which then
stands beside an invented one; and both results of a call answered twice are sent. -/
theorem results_unpaired : (Answered (some sanitize) target erased ∧ AnsweredOnce erased ∧
      ¬Paired () (transformMessages () erased target (some sanitize))
        (supplied (some sanitize) target none erased)) ∧
    (Answered none target answeredTwice ∧ IdsKept none target answeredTwice ∧
      ¬Paired () (transformMessages () answeredTwice target none)
        (supplied none target none answeredTwice)) := by
  refine ⟨⟨⟨fun p hp => ?_, by decide, by decide⟩, by decide, not_paired_of_length (by decide)⟩,
    ⟨fun p hp => ?_, by decide, by decide⟩, fun a r hmem hid => ?_,
    not_paired_of_length (by decide)⟩
  · obtain rfl := List.mem_singleton.mp hp
    exact ⟨_, rfl, by decide⟩
  · have hpair : p = (some (caller ["a"]), answer "a") := by
      rcases List.mem_cons.mp hp with rfl | hp
      · rfl
      · exact List.mem_singleton.mp hp
    rw [hpair]
    exact ⟨_, rfl, by decide⟩
  · have hsame : a.sentId none target r.toolCallId = r.toolCallId := by
      unfold AssistantMessage.sentId normalizedId; split <;> rfl
    exact hsame.symm.trans hid

end Shuvpi.Transform
