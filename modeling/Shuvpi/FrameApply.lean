import Shuvpi.FrameCodec

/-!
# Frames applied as they come

`pico3/kinds/frames.ts`: `applyFrame` changes the tracked message with each frame, without the
reducer's states. Beside `reduceAssistantMessageFrames`, which it is to agree with.
-/
namespace Shuvpi.Frames

open JsonText (parse)
open List Option

variable {U D H : Type}

def safeParse (json : StreamingJson) (text : JsString) : Json := (parse json.numbers text).getD (.object [])

/-- `c[contentIndex] = block`; a hole before the block is in no list of blocks. -/
def putBlock (message : AssistantMessage U D H) (contentIndex : Int) (block : Block) :
    Except String (AssistantMessage U D H) :=
  if contentIndex = message.content.length then .ok { message with content := message.content ++ [block] }
  else if 0 ≤ contentIndex ∧ contentIndex < message.content.length then .ok (message.setBlock contentIndex block)
  else .error "hole"

/-- A change of `c[contentIndex]`, whatever kind of block that is: properties that its kind does
not have are not shown. -/
def changeBlock (message : AssistantMessage U D H) (contentIndex : Int) (change : Block → Block) :
    Except String (AssistantMessage U D H) :=
  match blockAt message.content contentIndex with
  | none => .error "TypeError"
  | some block => .ok (message.setBlock contentIndex (change block))

def applyFrame (json : StreamingJson) (message : Option (AssistantMessage U D H)) (frame : AssistantMessageFrame U D H) :
    Except String (Option (AssistantMessage U D H)) :=
  match frame, message with
  | .start shared, _ => .ok (some shared)
  | frame, none => .error (frame.type ++ " before start")
  | .textStart i content, some m => (putBlock m i (.text content)).map some
  | .textDelta i delta, some m => (changeBlock m i fun
      | .text b => .text { b with text := b.text ++ delta }
      | b => b).map some
  | .textEnd i content textSignature, some m => (changeBlock m i fun
      | .text _ => .text ⟨content, textSignature⟩
      | b => b).map some
  | .thinkingStart i content, some m => (putBlock m i (.thinking content)).map some
  | .thinkingDelta i delta, some m => (changeBlock m i fun
      | .thinking b => .thinking { b with thinking := b.thinking ++ delta }
      | b => b).map some
  | .thinkingEnd i content thinkingSignature redacted, some m => (changeBlock m i fun
      | .thinking _ => .thinking ⟨content, thinkingSignature, redacted⟩
      | b => b).map some
  | .toolcallStart i toolCall, some m => (putBlock m i (.toolCall toolCall)).map some
  | .toolcallCheckpoint i text, some m => (changeBlock m i fun
      | .toolCall b => .toolCall { b with arguments := safeParse json text }
      | b => b).map some
  | .toolcallDelta _ _, some m => .ok (some m)
  | .toolcallEnd i id name arguments thoughtSignature namespace_, some m => (changeBlock m i fun
      | .toolCall b =>
        .toolCall ⟨id, name, arguments, thoughtSignature.or b.thoughtSignature, namespace_.or b.namespace_⟩
      | b => b).map some

def applyFrames (json : StreamingJson) (frames : List (AssistantMessageFrame U D H)) :
    Except String (Option (AssistantMessage U D H)) :=
  frames.foldlM (applyFrame json) none

/-! ## What frames say of a tool call -/

def AssistantMessageFrame.index : AssistantMessageFrame U D H → Option Int
  | .start _ => none
  | .textStart i _ => some i
  | .textDelta i _ => some i
  | .textEnd i _ _ => some i
  | .thinkingStart i _ => some i
  | .thinkingDelta i _ => some i
  | .thinkingEnd i _ _ _ => some i
  | .toolcallStart i _ => some i
  | .toolcallCheckpoint i _ => some i
  | .toolcallDelta i _ => some i
  | .toolcallEnd i _ _ _ _ _ => some i

structure Said where
  ended : Bool
  /-- the arguments of the start or of the last checkpoint, if its text is JSON -/
  arguments : Option Json
  /-- the deltas since -/
  deltas : JsString

def Said.add (json : StreamingJson) (said : Said) : AssistantMessageFrame U D H → Said
  | .toolcallStart _ toolCall => ⟨false, some toolCall.arguments, []⟩
  | .toolcallCheckpoint _ text => { said with arguments := parse json.numbers text, deltas := [] }
  | .toolcallDelta _ delta => { said with deltas := said.deltas ++ delta }
  | .toolcallEnd .. => { said with ended := true }
  | _ => said

/-- What the frames say of the tool call at an index. -/
def saidOf (json : StreamingJson) (i : Int) (frames : List (AssistantMessageFrame U D H)) : Said :=
  frames.foldl (fun said frame => if frame.index = some i then said.add json frame else said) ⟨false, none, []⟩

/-- A tool call of the reducer, and as it is applied. -/
structure CallAgrees (said : Said) (reduced applied : ToolCall) : Prop where
  id : applied.id = reduced.id
  name : applied.name = reduced.name
  thoughtSignature : ∀ s, reduced.thoughtSignature = some s → applied.thoughtSignature = some s
  namespace_ : ∀ s, reduced.namespace_ = some s → applied.namespace_ = some s
  ended : said.ended = true → applied.arguments = reduced.arguments
  fields : said.ended = false →
    applied.thoughtSignature = reduced.thoughtSignature ∧ applied.namespace_ = reduced.namespace_
  arguments : said.ended = false → ∀ value, said.arguments = some value →
    applied.arguments = value ∧ (said.deltas = [] → reduced.arguments = value)

def BlockAgrees (said : Said) : Option Block → Option Block → Prop
  | some (.toolCall reduced), some (.toolCall applied) => CallAgrees said reduced applied
  | reduced, applied => reduced = applied

/-- A message of the reducer, and as it is applied. -/
structure Agrees (json : StreamingJson) (frames : List (AssistantMessageFrame U D H))
    (reduced applied : AssistantMessage U D H) : Prop where
  fields : { applied with content := [] } = { reduced with content := [] }
  length : applied.content.length = reduced.content.length
  blocks : ∀ i, BlockAgrees (saidOf json i frames) (blockAt reduced.content i) (blockAt applied.content i)

/-! ## One frame -/

theorem activeBlock_inv {message : AssistantMessage U D H} {states : JsMap Int ReducerBlockState} {i : Int} {kind : Kind}
    {type : String} {α : Type} {next : Block × ReducerBlockState → Except String α} {result : α}
    (h : activeBlock message states i kind type >>= next = .ok result) : ∃ block state, next (block, state) = .ok result ∧
      0 ≤ i ∧ JsMap.get states i = some state ∧ blockAt message.content i = some block ∧ block.kind = kind ∧
      state.kind = kind ∧ state.ended = false := by
  simp only [activeBlock, bind, Except.bind] at h
  cases hassert : assertContentIndex i with
  | error e =>
    rw [hassert] at h
    cases h
  | ok _ =>
    rw [hassert] at h
    have hi : 0 ≤ i := by
      by_contra hneg
      rw [assertContentIndex, if_neg fun hle => hneg hle.1] at hassert
      cases hassert
    cases hs : JsMap.get states i with
    | none =>
      rw [hs] at h
      cases h
    | some state =>
      cases hb : blockAt message.content i with
      | none =>
        rw [hs, hb] at h
        cases h
      | some block =>
        rw [hs, hb] at h
        dsimp only at h
        split at h
        · cases h
        · rename_i value hchk
          split at hchk
          · cases hchk
          · rename_i hkind
            split at hchk
            · cases hchk
            · rename_i hended
              cases hchk
              rw [not_or, not_not, not_not] at hkind
              exact ⟨block, state, h, hi, rfl, rfl, hkind.2, hkind.1, Bool.eq_false_iff.mpr hended⟩

theorem appendBlock_inv {message message' : AssistantMessage U D H} {states states' : JsMap Int ReducerBlockState} {i : Int}
    {block : Block} {state : ReducerBlockState} (h : appendBlock message states i block state = .ok (message', states')) :
    i = message.content.length ∧ message' = { message with content := message.content ++ [block] } ∧
      states' = JsMap.set states i state := by
  simp only [appendBlock, bind, Except.bind] at h
  cases hassert : assertContentIndex i with
  | error e =>
    rw [hassert] at h
    cases h
  | ok _ =>
    rw [hassert] at h
    dsimp only at h
    split at h
    · cases h
    · rename_i hi
      cases h
      exact ⟨not_not.mp hi, rfl, rfl⟩

/-- The message of the reducer and its states, and the message as it is applied. -/
structure Follows (json : StreamingJson) (frames : List (AssistantMessageFrame U D H)) (reduced : AssistantMessage U D H)
    (states : JsMap Int ReducerBlockState) (applied : AssistantMessage U D H) : Prop extends
    Agrees json frames reduced applied where
  keys : (states.map Prod.fst).Nodup
  texts : ∀ i text, JsMap.get states i = some (.toolCall false text) → (saidOf json i frames).ended = false ∧
    ∀ value, (saidOf json i frames).arguments = some value → (saidOf json i frames).deltas = [] →
      text = [] ∨ parseStreamingJson json text = value

theorem saidOf_concat (json : StreamingJson) (i : Int) (frames : List (AssistantMessageFrame U D H))
    (frame : AssistantMessageFrame U D H) : saidOf json i (frames ++ [frame]) =
      if frame.index = some i then (saidOf json i frames).add json frame else saidOf json i frames := by
  rw [saidOf, foldl_append]
  rfl

section Step
variable {json : StreamingJson} {frames : List (AssistantMessageFrame U D H)} {frame : AssistantMessageFrame U D H}
  {reduced applied reduced' applied' : AssistantMessage U D H} {states states' : JsMap Int ReducerBlockState} {i : Int}

/-- A frame of one block leaves the others as they are. -/
theorem Follows.step (h : Follows json frames reduced states applied) (hindex : frame.index = some i)
    (hfields : { applied' with content := [] } = { reduced' with content := [] })
    (hlen : applied'.content.length = reduced'.content.length)
    (hreduced : ∀ j, j ≠ i → blockAt reduced'.content j = blockAt reduced.content j)
    (happlied : ∀ j, j ≠ i → blockAt applied'.content j = blockAt applied.content j)
    (hsts : ∀ j, j ≠ i → JsMap.get states' j = JsMap.get states j) (hkeys : (states'.map Prod.fst).Nodup)
    (hblock : BlockAgrees ((saidOf json i frames).add json frame) (blockAt reduced'.content i) (blockAt applied'.content i))
    (htext : ∀ text, JsMap.get states' i = some (.toolCall false text) →
      ((saidOf json i frames).add json frame).ended = false ∧
      ∀ value, ((saidOf json i frames).add json frame).arguments = some value →
        ((saidOf json i frames).add json frame).deltas = [] → text = [] ∨ parseStreamingJson json text = value) :
    Follows json (frames ++ [frame]) reduced' states' applied' := by
  have hother : ∀ j, j ≠ i → saidOf json j (frames ++ [frame]) = saidOf json j frames := fun j hj => by
    rw [saidOf_concat, hindex, if_neg fun he => hj (some.inj he).symm]
  have hself : saidOf json i (frames ++ [frame]) = (saidOf json i frames).add json frame := by
    rw [saidOf_concat, if_pos hindex]
  refine ⟨⟨hfields, hlen, fun j => ?_⟩, hkeys, fun j text hj => ?_⟩
  · rcases eq_or_ne j i with rfl | hne
    · rw [hself]
      exact hblock
    · rw [hother j hne, hreduced j hne, happlied j hne]
      exact h.blocks j
  · rcases eq_or_ne j i with rfl | hne
    · rw [hself]
      exact htext text hj
    · rw [hother j hne]
      exact h.texts j text (by rw [← hsts j hne]; exact hj)

variable {state : ReducerBlockState} (h : Follows json frames reduced states applied)
include h

/-- A new block. -/
theorem Follows.put (hindex : frame.index = some i) {block : Block}
    (happend : appendBlock reduced states i block state = .ok (reduced', states'))
    (hblock : BlockAgrees ((saidOf json i frames).add json frame) (some block) (some block))
    (htext : ∀ text, state = .toolCall false text → ((saidOf json i frames).add json frame).ended = false ∧ text = []) :
    ∃ applied', putBlock applied i block = .ok applied' ∧ Follows json (frames ++ [frame]) reduced' states' applied' := by
  obtain ⟨rfl, rfl, rfl⟩ := appendBlock_inv happend
  have hat : ∀ content : List Block, content.length = reduced.content.length →
      blockAt (content ++ [block]) reduced.content.length = some block := fun content hlen => by
    rw [blockAt_natCast, ← hlen, getElem?_concat_length]
  refine ⟨{ applied with content := applied.content ++ [block] }, ?_, ?_⟩
  · rw [putBlock, if_pos (by rw [h.length])]
  · refine h.step hindex h.fields (by simp [h.length]) (fun j hj => blockAt_append block hj)
      (fun j hj => blockAt_append block (by rw [h.length]; exact hj)) (fun j hj => ?_) (JsMap.nodup_set h.keys _ _) ?_
      fun text hs => ?_
    · rw [JsMap.get_set, if_neg hj.symm]
    · rw [hat _ rfl, hat _ h.length]
      exact hblock
    · rw [JsMap.get_set, if_pos rfl] at hs
      obtain ⟨hended, rfl⟩ := htext text (some.inj hs)
      exact ⟨hended, fun _ _ _ => .inl rfl⟩

/-- A block that has started, changed. -/
theorem Follows.change (hindex : frame.index = some i) (hi : 0 ≤ i)
    {block block' new new' : Block} (hblock : blockAt reduced.content i = some block)
    (hblock' : blockAt applied.content i = some block')
    (hnew : BlockAgrees ((saidOf json i frames).add json frame) (some new) (some new'))
    (hsts : states' = JsMap.set states i state ∨ states' = states ∧ JsMap.get states i = some state)
    (htext : ∀ text, state = .toolCall false text → ((saidOf json i frames).add json frame).ended = false ∧
      ∀ value, ((saidOf json i frames).add json frame).arguments = some value →
        ((saidOf json i frames).add json frame).deltas = [] → text = [] ∨ parseStreamingJson json text = value) :
    Follows json (frames ++ [frame]) (reduced.setBlock i new) states' (applied.setBlock i new') := by
  refine h.step hindex h.fields (by simp [AssistantMessage.setBlock, h.length]) (fun j hj => blockAt_set new hi hj)
    (fun j hj => blockAt_set new' hi hj) (fun j hj => ?_) ?_ ?_ fun text hs => ?_
  · rcases hsts with rfl | ⟨rfl, -⟩
    · rw [JsMap.get_set, if_neg hj.symm]
    · rfl
  · rcases hsts with rfl | ⟨rfl, -⟩
    · exact JsMap.nodup_set h.keys _ _
    · exact h.keys
  · rw [AssistantMessage.setBlock, AssistantMessage.setBlock, blockAt_set_self hblock, blockAt_set_self hblock']
    exact hnew
  · refine htext text ?_
    rcases hsts with rfl | ⟨rfl, hget⟩
    · rw [JsMap.get_set, if_pos rfl] at hs
      exact some.inj hs
    · rw [hget] at hs
      exact some.inj hs

theorem Follows.chars {content : TextContent}
    (hblock : blockAt reduced.content i = some (.text content)) : blockAt applied.content i = some (.text content) := by
  have hsame := h.blocks i
  rw [hblock] at hsame
  exact hsame.symm

theorem Follows.thinking {content : ThinkingContent}
    (hblock : blockAt reduced.content i = some (.thinking content)) : blockAt applied.content i = some (.thinking content) := by
  have hsame := h.blocks i
  rw [hblock] at hsame
  exact hsame.symm

theorem Follows.call {call : ToolCall}
    (hblock : blockAt reduced.content i = some (.toolCall call)) :
    ∃ call', blockAt applied.content i = some (.toolCall call') ∧ CallAgrees (saidOf json i frames) call call' := by
  have hsame := h.blocks i
  rw [hblock] at hsame
  cases hat : blockAt applied.content i with
  | none =>
    rw [hat] at hsame
    cases hsame
  | some block =>
    rw [hat] at hsame
    cases block with
    | toolCall call' => exact ⟨call', rfl, hsame⟩
    | text _ | thinking _ => cases hsame

omit h

variable {text : JsString}

theorem parse_blank (numbers : JsonText.NumberFormat) (h : text.all isBlank = true) :
    parse numbers text = none := by
  have hvalue : ∀ fuel, JsonText.parseValue numbers fuel (JsonText.skipSpace text) = none := by
    rintro (_ | fuel)
    · rfl
    · cases hskip : JsonText.skipSpace text with
      | nil => rfl
      | cons u rest =>
        have hu : isBlank u = true := by
          refine all_eq_true.mp h u ((dropWhile_suffix JsonText.isSpace).subset ?_)
          rw [JsonText.skipSpace] at hskip
          rw [hskip]
          exact mem_cons_self
        have hplain : ∀ w, isBlank w = false → u ≠ w := by
          rintro w hw rfl
          rw [hu] at hw
          cases hw
        have hword : ∀ (n : Nat) (w : UInt16) (ws : JsString), isBlank w = false → ¬(u :: rest).take (n + 1) = w :: ws :=
          fun n w ws hw he => hplain w hw (cons_eq_cons.mp he).1
        have hnumber : JsonText.isNumberUnit u = false := by
          have hblank : u.toNat ≤ 0x20 ∨ 0xa0 ≤ u.toNat := by
            simp only [isBlank, Bool.or_eq_true, decide_eq_true_eq, Bool.and_eq_true, mem_cons, not_mem_nil, or_false] at hu
            omega
          by_contra hunit
          simp only [Bool.not_eq_false, JsonText.isNumberUnit, JsonText.isDigit, Bool.or_eq_true, Bool.and_eq_true, decide_eq_true_eq,
            beq_iff_eq, ← UInt16.toNat_inj, UInt16.reduceToNat] at hunit
          omega
        rw [JsonText.parseValue, if_neg (hplain 34 rfl), if_neg (hplain 91 rfl), if_neg (hplain 123 rfl), JsonText.parseWord,
          JsonText.null_units, JsonText.true_units, JsonText.false_units, if_neg (hword _ _ _ rfl), if_neg (hword _ _ _ rfl), if_neg (hword _ _ _ rfl),
          JsonText.parseNumber, takeWhile_cons_of_neg (by rw [hnumber]; exact Bool.false_ne_true)]
        rfl
  rw [parse, hvalue]
  rfl

/-- The value of JSON text, read as it streams. -/
theorem parseStreamingJson_json {value : Json} (h : parse json.numbers text = some value) :
    parseStreamingJson json text = value := by
  rw [parseStreamingJson, if_neg fun hblank => ?_, parseJsonWithRepair, h]
  rw [parse_blank json.numbers hblank] at h
  cases h

/-- A frame that the reducer takes is applied. -/
theorem Follows.one (h : Follows json frames reduced states applied) (hindex : frame.index = some i)
    (hstep : reduceBlockFrame json reduced states frame = .ok (reduced', states')) :
    ∃ applied', applyFrame json (some applied) frame = .ok (some applied') ∧
      Follows json (frames ++ [frame]) reduced' states' applied' := by
  cases frame with
  | start _ => cases hindex
  | textStart | thinkingStart =>
    obtain rfl := some.inj hindex
    obtain ⟨applied', hput, hfoll⟩ := h.put hindex hstep rfl fun _ hs => (by cases hs)
    exact ⟨applied', by rw [applyFrame, hput]; rfl, hfoll⟩
  | toolcallStart j call =>
    have hblock : CallAgrees ((saidOf json j frames).add json (.toolcallStart j call : AssistantMessageFrame U D H)) call call :=
      ⟨rfl, rfl, fun _ h => h, fun _ h => h, fun _ => rfl, fun _ => ⟨rfl, rfl⟩,
        fun _ value hv => ⟨some.inj hv, fun _ => some.inj hv⟩⟩
    obtain ⟨applied', hput, hfoll⟩ := h.put rfl hstep hblock fun _ hs => ⟨rfl, (by cases hs; rfl)⟩
    exact ⟨applied', by rw [applyFrame, hput]; rfl, hfoll⟩
  | textDelta j delta =>
    obtain ⟨block, state, hnext, hj, hstate, hblock, hkind, hskind, -⟩ := activeBlock_inv hstep
    cases block <;> cases hkind
    cases hnext
    have hblock' := h.chars hblock
    exact ⟨_, by rw [applyFrame, changeBlock, hblock']; rfl, h.change rfl hj hblock hblock' rfl (.inr ⟨rfl, hstate⟩)
      fun text hs => (by rw [hs] at hskind; cases hskind)⟩
  | thinkingDelta j delta =>
    obtain ⟨block, state, hnext, hj, hstate, hblock, hkind, hskind, -⟩ := activeBlock_inv hstep
    cases block <;> cases hkind
    cases hnext
    have hblock' := h.thinking hblock
    exact ⟨_, by rw [applyFrame, changeBlock, hblock']; rfl, h.change rfl hj hblock hblock' rfl (.inr ⟨rfl, hstate⟩)
      fun text hs => (by rw [hs] at hskind; cases hskind)⟩
  | textEnd j content textSignature =>
    obtain ⟨block, state, hnext, hj, hstate, hblock, hkind, -, -⟩ := activeBlock_inv hstep
    cases block <;> cases hkind
    cases hnext
    have hblock' := h.chars hblock
    exact ⟨_, by rw [applyFrame, changeBlock, hblock']; rfl, h.change rfl hj hblock hblock' rfl (.inl rfl)
      fun text hs => (by cases hs)⟩
  | thinkingEnd j content thinkingSignature redacted =>
    obtain ⟨block, state, hnext, hj, hstate, hblock, hkind, -, -⟩ := activeBlock_inv hstep
    cases block <;> cases hkind
    cases hnext
    have hblock' := h.thinking hblock
    exact ⟨_, by rw [applyFrame, changeBlock, hblock']; rfl, h.change rfl hj hblock hblock' rfl (.inl rfl)
      fun text hs => (by cases hs)⟩
  | toolcallCheckpoint j text =>
    obtain ⟨block, state, hnext, hj, hstate, hblock, hkind, hskind, hended⟩ := activeBlock_inv hstep
    cases block <;> cases hkind
    cases state <;> cases hskind
    cases hnext
    obtain ⟨call', hblock', hcall⟩ := h.call hblock
    obtain ⟨hopen, -⟩ := h.texts j _ (by rw [hstate]; cases hended; rfl)
    refine ⟨_, by rw [applyFrame, changeBlock, hblock']; rfl, h.change rfl hj hblock hblock' ?_ (.inl rfl) ?_⟩
    · refine ⟨hcall.id, hcall.name, hcall.thoughtSignature, hcall.namespace_, fun he => ?_, fun _ => hcall.fields hopen,
        fun _ value hv => ?_⟩
      · rw [Said.add, hopen] at he
        cases he
      · have hv' : parse json.numbers text = some value := hv
        exact ⟨by rw [safeParse, hv']; rfl, fun _ => parseStreamingJson_json hv'⟩
    · rintro text' hs
      cases hs
      exact ⟨hopen, fun value hv _ => .inr (parseStreamingJson_json hv)⟩
  | toolcallDelta j delta =>
    obtain ⟨block, state, hnext, hj, hstate, hblock, hkind, hskind, hended⟩ := activeBlock_inv hstep
    cases block <;> cases hkind
    cases state <;> cases hskind
    cases hnext
    obtain ⟨call', hblock', hcall⟩ := h.call hblock
    obtain ⟨hopen, htext⟩ := h.texts j _ (by rw [hstate]; cases hended; rfl)
    refine ⟨applied, rfl, h.step rfl h.fields h.length (fun _ _ => rfl) (fun _ _ => rfl) (fun k hk => ?_)
      (JsMap.nodup_set h.keys _ _) ?_ fun text' hs => ⟨hopen, fun value hv hdeltas => ?_⟩⟩
    · rw [JsMap.get_set, if_neg hk.symm]
    · rw [hblock, hblock']
      refine ⟨hcall.id, hcall.name, hcall.thoughtSignature, hcall.namespace_, hcall.ended, hcall.fields, fun ho value hv => ?_⟩
      obtain ⟨happlied, hreduced⟩ := hcall.arguments ho value hv
      exact ⟨happlied, fun hd => hreduced (append_eq_nil_iff.mp hd).1⟩
    · obtain ⟨hnone, rfl⟩ := append_eq_nil_iff.mp hdeltas
      rw [JsMap.get_set, if_pos rfl, append_nil] at hs
      cases hs
      exact htext value hv hnone
  | toolcallEnd j id name arguments thoughtSignature namespace_ =>
    obtain ⟨block, state, hnext, hj, hstate, hblock, hkind, hskind, -⟩ := activeBlock_inv hstep
    cases block <;> cases hkind
    cases state <;> cases hskind
    cases hnext
    obtain ⟨call', hblock', hcall⟩ := h.call hblock
    refine ⟨_, by rw [applyFrame, changeBlock, hblock']; rfl, h.change rfl hj hblock hblock' ?_ (.inl rfl)
      fun text hs => (by cases hs)⟩
    exact ⟨rfl, rfl, fun s hs => (by cases hs; rfl), fun s hs => (by cases hs; rfl), fun _ => rfl, nofun, nofun⟩

end Step

/-! ## Streams -/

section Run
variable {json : StreamingJson} {frames : List (AssistantMessageFrame U D H)} {reduced applied message : AssistantMessage U D H}

theorem Follows.run {rest : List (AssistantMessageFrame U D H)} {r r' : Reduction U D H} (hmsg : r.message = some reduced)
    (h : Follows json frames reduced r.states applied) (hred : rest.foldlM (reduceFrame json) r = .ok r') :
    ∃ reduced' applied', r'.message = some reduced' ∧ rest.foldlM (applyFrame json) (some applied) = .ok (some applied') ∧
      Follows json (frames ++ rest) reduced' r'.states applied' := by
  induction rest generalizing frames r reduced applied with
  | nil =>
    cases hred
    rw [append_nil]
    exact ⟨reduced, applied, hmsg, rfl, h⟩
  | cons frame rest ih =>
    obtain ⟨_, beforeStart, states⟩ := r
    cases hmsg
    rw [foldlM_cons] at hred
    cases hindex : frame.index with
    | none =>
      cases frame <;> cases hindex
      cases hred
    | some i =>
      have hframe : reduceFrame json ⟨some reduced, beforeStart, states⟩ frame =
          (reduceBlockFrame json reduced states frame >>= fun p => .ok ⟨some p.1, beforeStart, p.2⟩) := by
        cases frame <;> first | rfl | cases hindex
      cases hstep : reduceBlockFrame json reduced states frame with
      | error e =>
        rw [hframe, hstep] at hred
        cases hred
      | ok next =>
        rw [hframe, hstep] at hred
        obtain ⟨applied', happly, hfoll⟩ := h.one hindex hstep
        obtain ⟨reduced', applied'', hr, hrest, hall⟩ := ih rfl hfoll hred
        rw [append_assoc] at hall
        refine ⟨reduced', applied'', hr, ?_, hall⟩
        rw [foldlM_cons, happly]
        exact hrest

/-- The arguments that the reducer reads at the end. -/
theorem Agrees.finish {states : JsMap Int ReducerBlockState} (h : Agrees json frames reduced applied)
    (htexts : ∀ i text, (i, .toolCall false text) ∈ states → (saidOf json i frames).ended = false ∧
      ∀ value, (saidOf json i frames).arguments = some value → (saidOf json i frames).deltas = [] →
        text = [] ∨ parseStreamingJson json text = value)
    (hfin : finishStates json reduced states = .ok message) : Agrees json frames message applied := by
  induction states generalizing reduced with
  | nil =>
    cases hfin
    exact h
  | cons p states ih =>
    obtain ⟨i, state⟩ := p
    have hrest := fun j text hmem => htexts j text (.tail _ hmem)
    cases state with
    | text _ | thinking _ => exact ih h hrest hfin
    | toolCall ended text =>
      cases ended with
      | true => exact ih h hrest hfin
      | false =>
        obtain ⟨hopen, htext⟩ := htexts i text (.head _)
        rw [finishStates] at hfin
        split at hfin
        · exact ih h hrest hfin
        · rename_i hsome
          split at hfin
          · rename_i call hcall
            refine @ih (reduced.setBlock i _) ⟨h.fields, h.length.trans (length_set ..).symm, fun j => ?_⟩ hrest hfin
            rcases eq_or_ne j i with rfl | hne
            · have hsame := h.blocks j
              rw [hcall] at hsame
              rw [AssistantMessage.setBlock, blockAt_set_self hcall]
              cases hat : blockAt applied.content j with
              | none =>
                rw [hat] at hsame
                cases hsame
              | some block =>
                rw [hat] at hsame
                cases block with
                | text _ | thinking _ => cases hsame
                | toolCall call' =>
                  refine ⟨hsame.id, hsame.name, hsame.thoughtSignature, hsame.namespace_, fun he => ?_, hsame.fields,
                    fun _ value hv => ⟨(hsame.arguments hopen value hv).1, fun hd => ?_⟩⟩
                  · rw [hopen] at he
                    cases he
                  · refine (htext value hv hd).resolve_left fun hnil => hsome ?_
                    rw [hnil]
                    rfl
            · have hi : 0 ≤ i := by
                by_contra hneg
                rw [blockAt, if_neg hneg] at hcall
                cases hcall
              rw [AssistantMessage.setBlock, blockAt_set _ hi hne]
              exact h.blocks j
          · cases hfin

/-- The first frame is the start. -/
theorem encodeAll_start {events : List (AssistantMessageEvent U D H)} {e e' : Encoder} (hstart : e.started = false)
    (h : e.encodeAll json events = .ok (frames, e')) : frames = [] ∨ ∃ shared rest, frames = .start shared :: rest := by
  induction events generalizing e frames with
  | nil =>
    cases h
    exact .inl rfl
  | cons event events ih =>
    simp only [Encoder.encodeAll, bind, Except.bind] at h
    split at h
    · cases h
    · rename_i result henc
      obtain ⟨frame, next⟩ := result
      split at h
      · cases h
      · rename_i result' hrest
        cases h
        unfold Encoder.encode at henc
        by_cases hterm : e.terminal = true
        · rw [if_pos hterm] at henc
          cases henc
        · rw [if_neg hterm] at henc
          cases event with
          | start shared =>
            simp only [hstart, Bool.false_eq_true, if_false] at henc
            cases henc
            exact .inr ⟨_, _, rfl⟩
          | error message =>
            cases henc
            exact @ih result'.1 { e with terminal := true } hstart hrest
          | _ =>
            simp only [hstart, Bool.not_false, if_true] at henc
            cases henc

end Run

/-- Whatever events an encoder takes: the frames of any first part of them that the reducer takes
are applied as well, and but for the arguments of tool calls that have not ended, and the optional
fields that such a call starts with and does not end with, both have the same message. -/
theorem applyFrames_agrees (json : StreamingJson) {events : List (AssistantMessageEvent U D H)}
    {frames p : List (AssistantMessageFrame U D H)} {e : Encoder} (hencode : Encoder.initial.encodeAll json events = .ok (frames, e))
    (hp : p <+: frames) {reduced : Option (AssistantMessage U D H)} (hreduce : reduceAssistantMessageFrames json p = .ok reduced) :
    ∃ applied, applyFrames json p = .ok applied ∧ Option.Rel (Agrees json p) reduced applied := by
  have hstart : p = [] ∨ ∃ shared rest, p = .start shared :: rest := by
    rcases encodeAll_start rfl hencode with rfl | ⟨shared, rest, rfl⟩
    · exact .inl (List.prefix_nil.mp hp)
    · exact (List.prefix_cons_iff.mp hp).imp_right fun ⟨rest, hrest, _⟩ => ⟨shared, rest, hrest⟩
  rcases hstart with rfl | ⟨shared, rest, rfl⟩
  · cases hreduce
    exact ⟨none, rfl, .none⟩
  · have hinitial : Follows json [.start shared] shared [] shared := by
      refine ⟨⟨rfl, rfl, fun i => ?_⟩, .nil, fun _ _ hs => (by cases hs)⟩
      cases blockAt shared.content i with
      | none => rfl
      | some block =>
        cases block with
        | text _ | thinking _ => rfl
        | toolCall call => exact ⟨rfl, rfl, fun _ h => h, fun _ h => h, fun _ => rfl, fun _ => ⟨rfl, rfl⟩, fun _ _ h => (by cases h)⟩
    simp only [reduceAssistantMessageFrames, bind, Except.bind] at hreduce
    split at hreduce
    · cases hreduce
    · rename_i r hfold
      rw [List.foldlM_cons] at hfold
      obtain ⟨m, applied, hmessage, happly, hfollows⟩ := hinitial.run rfl hfold
      rw [hmessage] at hreduce
      dsimp only at hreduce
      cases hfinish : finishStates json m r.states with
      | error e =>
        rw [hfinish] at hreduce
        cases hreduce
      | ok message =>
        rw [hfinish] at hreduce
        cases hreduce
        refine ⟨some applied, ?_, .some (hfollows.toAgrees.finish (fun i text hmem => ?_) hfinish)⟩
        · rw [applyFrames, List.foldlM_cons]
          exact happly
        · exact hfollows.texts i text (JsMap.get_of_mem hfollows.keys hmem)

def emptyCall : ToolCall := ⟨[105], [110], .object [], none, none⟩

/-- A message with one tool call. -/
def callMessage (call : ToolCall) : AssistantMessage Unit Unit Unit :=
  { textMessage [] with content := [.toolCall call] }

def callEvents : List (AssistantMessageEvent Unit Unit Unit) :=
  [.start (textMessage []), .toolcallStart 0 (callMessage emptyCall),
    .toolcallDelta 0 [123, 34, 97, 34, 58, 91, 93, 125] (callMessage emptyCall)]

def listCall : ToolCall := { emptyCall with arguments := .object [([97], .array [])] }

theorem applyFrames_agrees_ended : ∃ frames e reduced applied,
    Encoder.initial.encodeAll ⟨Jsonl.integerFormat, fun _ => none⟩
      (callEvents ++ [.toolcallEnd 0 listCall (callMessage listCall)]) = .ok (frames, e) ∧
    reduceAssistantMessageFrames ⟨Jsonl.integerFormat, fun _ => none⟩ frames = .ok (some reduced) ∧
    applyFrames ⟨Jsonl.integerFormat, fun _ => none⟩ frames = .ok (some applied) ∧
    Agrees ⟨Jsonl.integerFormat, fun _ => none⟩ frames reduced applied := by
  obtain ⟨frames, e, hencode⟩ : ∃ frames e, Encoder.initial.encodeAll ⟨Jsonl.integerFormat, fun _ => none⟩
      (callEvents ++ [.toolcallEnd 0 listCall (callMessage listCall)]) = .ok (frames, e) := ⟨_, _, rfl⟩
  have hreduce : reduceAssistantMessageFrames ⟨Jsonl.integerFormat, fun _ => none⟩ frames = .ok (some (callMessage listCall)) := by
    cases hencode
    rfl
  obtain ⟨applied, happly, hagrees⟩ := applyFrames_agrees _ hencode List.prefix_rfl hreduce
  cases hagrees with
  | some hagrees => exact ⟨frames, e, _, _, hencode, hreduce, happly, hagrees⟩

/-- The arguments of a tool call that streams: the reducer reads them, applied they stay empty. -/
theorem applyFrames_delta : ∃ frames e,
    Encoder.initial.encodeAll ⟨Jsonl.integerFormat, fun _ => none⟩ callEvents = .ok (frames, e) ∧
    reduceAssistantMessageFrames ⟨Jsonl.integerFormat, fun _ => none⟩ frames = .ok (some (callMessage listCall)) ∧
    applyFrames ⟨Jsonl.integerFormat, fun _ => none⟩ frames = .ok (some (callMessage emptyCall)) ∧
    callMessage emptyCall ≠ callMessage listCall := by
  refine ⟨_, _, rfl, rfl, rfl, fun h => ?_⟩
  have hcontent : [Block.toolCall emptyCall] = [Block.toolCall listCall] := congrArg AssistantMessage.content h
  cases hcontent

end Shuvpi.Frames
