import Shuvpi.AssistantFrames
import Shuvpi.JsonlDurability

/-!
# Frames say what the stream said

Whatever the shared message already holds when an event is encoded, the frames of the
events so far reduce to a message whose ended blocks are those of the final message, and
whose open blocks hold at least the deltas that were encoded and nothing that the stream
does not say.
-/
namespace Shuvpi.Frames

open Function (update)

variable {U D H : Type}

/-! ## Streams -/

/-- What an event adds to the characters of a block. -/
def AssistantMessageEvent.deltaOf (i : Int) : AssistantMessageEvent U D H → JsString
  | .textDelta contentIndex delta _ => if contentIndex = i then delta else []
  | .thinkingDelta contentIndex delta _ => if contentIndex = i then delta else []
  | _ => []

def deltasOf (i : Int) (events : List (AssistantMessageEvent U D H)) : JsString := events.flatMap (·.deltaOf i)

/-- The block that an event starts. -/
def AssistantMessageEvent.starts : AssistantMessageEvent U D H → Option (Int × Kind)
  | .textStart contentIndex _ => some (contentIndex, .text)
  | .thinkingStart contentIndex _ => some (contentIndex, .thinking)
  | .toolcallStart contentIndex _ => some (contentIndex, .toolCall)
  | _ => none

/-- The block as it is when an event ends it. -/
def AssistantMessageEvent.endsWith : AssistantMessageEvent U D H → Option (Int × Block)
  | .textEnd contentIndex content shared =>
    match blockAt shared.content contentIndex with
    | some (.text block) => some (contentIndex, .text ⟨content, block.textSignature⟩)
    | _ => none
  | .thinkingEnd contentIndex content shared =>
    match blockAt shared.content contentIndex with
    | some (.thinking block) =>
      some (contentIndex, .thinking ⟨content, block.thinkingSignature, block.redacted⟩)
    | _ => none
  | .toolcallEnd contentIndex toolCall shared =>
    match blockAt shared.content contentIndex with
    | some (.toolCall _) => some (contentIndex, .toolCall toolCall)
    | _ => none
  | _ => none

/-- The characters of a block of characters. -/
def Block.carries : Block → Kind → JsString → Prop
  | .text content, .text, chars => content.text = chars
  | .thinking content, .thinking, chars => content.thinking = chars
  | .toolCall _, .toolCall, _ => True
  | _, _, _ => False

/-- The blocks of a stream so far, each open with its kind or ended. -/
abbrev Blocks := List (Option Kind)

def OpenAt (blocks : Blocks) (i : Int) (kind : Kind) : Prop := ∃ n : Nat, i = n ∧ blocks[n]? = some (some kind)

def EndedAt (blocks : Blocks) (i : Int) : Prop := ∃ n : Nat, i = n ∧ blocks[n]? = some none

/-- A block starts after the others, and the shared message, which is an array, holds of it
some of the deltas to come. -/
def Starts (final : List Block) (blocks : Blocks) (i : Int) (kind : Kind)
    (shared : AssistantMessage U D H) (rest : List (AssistantMessageEvent U D H)) : Prop :=
  i = blocks.length ∧ shared.content.length < 2 ^ 32 ∧ blocks.length < final.length ∧
    ∃ block chars, blockAt shared.content i = some block ∧ block.carries kind chars ∧ chars <+: deltasOf i rest

/-- An open block ends as it is in the final message. -/
def Ends (final : List Block) (blocks : Blocks) (i : Int) (kind : Kind)
    (event : AssistantMessageEvent U D H) : Prop :=
  OpenAt blocks i kind ∧ ∃ block, event.endsWith = some (i, block) ∧ block.kind = kind ∧ blockAt final i = some block

/-- The events of a stream after its start, where the final message has the given content. -/
def Valid (final : List Block) : Blocks → List (AssistantMessageEvent U D H) → Prop
  | _, [] => True
  | _, .start _ :: _ => False
  | _, .done message :: rest => rest = [] ∧ message.content = final
  | _, .error _ :: rest => rest = []
  | blocks, .textStart i shared :: rest =>
    Starts final blocks i .text shared rest ∧ Valid final (blocks ++ [some .text]) rest
  | blocks, .thinkingStart i shared :: rest =>
    Starts final blocks i .thinking shared rest ∧ Valid final (blocks ++ [some .thinking]) rest
  | blocks, .toolcallStart i shared :: rest =>
    Starts final blocks i .toolCall shared rest ∧ Valid final (blocks ++ [some .toolCall]) rest
  | blocks, .textDelta i _ _ :: rest => OpenAt blocks i .text ∧ Valid final blocks rest
  | blocks, .thinkingDelta i _ _ :: rest => OpenAt blocks i .thinking ∧ Valid final blocks rest
  | blocks, .toolcallDelta i _ _ :: rest => OpenAt blocks i .toolCall ∧ Valid final blocks rest
  | blocks, .textEnd i content shared :: rest =>
    Ends final blocks i .text (.textEnd i content shared) ∧ Valid final (blocks.set i.toNat none) rest
  | blocks, .thinkingEnd i content shared :: rest =>
    Ends final blocks i .thinking (.thinkingEnd i content shared) ∧ Valid final (blocks.set i.toNat none) rest
  | blocks, .toolcallEnd i toolCall shared :: rest =>
    Ends final blocks i .toolCall (.toolcallEnd i toolCall shared) ∧ Valid final (blocks.set i.toNat none) rest

/-! ## Characters -/

/-- What a block shows of which a first part was shown at its start. -/
def longer (snapshot done : JsString) : JsString :=
  if done.length ≤ snapshot.length then snapshot else done

theorem longer_nil (snapshot : JsString) : longer snapshot [] = snapshot := if_pos (Nat.zero_le _)

variable {snapshot done : JsString}

/-- A delta that the start already showed adds nothing. -/
theorem longer_covered {delta : JsString} (hcov : delta.length ≤ snapshot.length - done.length) :
    longer snapshot (done ++ delta) = longer snapshot done := by
  unfold longer
  rw [List.length_append]
  split
  · rename_i hle
    rw [if_pos (by omega)]
  · rename_i hle
    by_cases hdone : done.length ≤ snapshot.length
    · omega
    · have hempty : delta = [] := List.eq_nil_of_length_eq_zero (by omega)
      rw [if_neg hdone, hempty, List.append_nil]

/-- Of a delta that the start showed a part of, the rest is added. -/
theorem longer_uncovered {delta rest : JsString} (h : snapshot <+: done ++ (delta ++ rest))
    (hcov : ¬delta.length ≤ snapshot.length - done.length) :
    longer snapshot (done ++ delta) =
      longer snapshot done ++ delta.drop (snapshot.length - done.length) := by
  have hlong : ¬(done ++ delta).length ≤ snapshot.length := by
    rw [List.length_append]
    omega
  unfold longer
  rw [if_neg hlong]
  by_cases hdone : done.length ≤ snapshot.length
  · rw [if_pos hdone]
    have hsnap : snapshot = done ++ delta.take (snapshot.length - done.length) := by
      obtain ⟨tail, htail⟩ := h
      have htake := congrArg (List.take snapshot.length) htail
      rw [List.take_left, List.take_append, List.take_of_length_le hdone,
        List.take_append_of_le_length (by omega)] at htake
      exact htake
    conv_rhs => rw [hsnap]
    rw [List.append_assoc]
    congr 1
    have hlen : (done ++ delta.take (snapshot.length - done.length)).length - done.length =
        snapshot.length - done.length := by rw [← hsnap]
    rw [hlen, List.take_append_drop]
  · rw [if_neg hdone]
    have hzero : snapshot.length - done.length = 0 := by omega
    rw [hzero, List.drop_zero]

theorem longer_bounds {rest : JsString} (h : snapshot <+: done ++ rest) :
    done <+: longer snapshot done ∧ longer snapshot done <+: done ++ rest := by
  unfold longer
  split
  · rename_i hle
    exact ⟨List.prefix_of_prefix_length_le (List.prefix_append _ _) h hle, h⟩
  · exact ⟨List.prefix_rfl, List.prefix_append _ _⟩

/-! ## The invariant -/

def TextKind.reducerState (kind : TextKind) (ended : Bool) : ReducerBlockState :=
  match kind with
  | .text => .text ended
  | .thinking => .thinking ended

/-- An open block, in the encoder and in the message that the frames so far reduce to. -/
inductive Shown (past rest : List (AssistantMessageEvent U D H)) (e : Encoder)
    (message : AssistantMessage U D H) (states : JsMap Int ReducerBlockState) (i : Int) : Kind → Prop
  | chars (kind : TextKind) (snapshot : JsString) (block : Block)
    (encoder : e.blocks i = some (.chars kind snapshot.length (deltasOf i past).length))
    (within : snapshot <+: deltasOf i past ++ deltasOf i rest)
    (state : JsMap.get states i = some (kind.reducerState false))
    (at_ : blockAt message.content i = some block)
    (carries : block.carries kind.kind (longer snapshot (deltasOf i past))) :
    Shown past rest e message states i kind.kind
  | toolCall (caughtUp : Bool) (catchupJson snapshotArguments text : JsString) (toolCall : ToolCall)
    (encoder : e.blocks i = some (.toolCall caughtUp catchupJson snapshotArguments))
    (state : JsMap.get states i = some (.toolCall false text))
    (at_ : blockAt message.content i = some (.toolCall toolCall)) :
    Shown past rest e message states i .toolCall

/-- The encoder and the message after the events of `past`, with those of `rest` to come. -/
structure Inv (final : List Block) (past rest : List (AssistantMessageEvent U D H)) (blocks : Blocks)
    (e : Encoder) (message : AssistantMessage U D H) (states : JsMap Int ReducerBlockState) : Prop where
  length : message.content.length = blocks.length
  small : blocks.length ≤ 2 ^ 32
  within : blocks.length ≤ final.length
  fresh : ∀ n : Nat, blocks.length ≤ n → e.blocks n = none
  quiet : ∀ n : Nat, blocks.length ≤ n → deltasOf n past = []
  shown : ∀ i kind, OpenAt blocks i kind → Shown past rest e message states i kind
  keys : (states.map Prod.fst).Nodup
  tools : ∀ i text, JsMap.get states i = some (.toolCall false text) → OpenAt blocks i .toolCall
  started : ∀ event ∈ past, ∀ i kind, event.starts = some (i, kind) → OpenAt blocks i kind ∨ EndedAt blocks i
  ended : ∀ i, EndedAt blocks i → ∃ event ∈ past, ∃ block, event.endsWith = some (i, block)
  finished : ∀ event ∈ past, ∀ i block, event.endsWith = some (i, block) →
    EndedAt blocks i ∧ blockAt message.content i = some block ∧ blockAt final i = some block

@[simp] theorem blockAt_natCast (content : List Block) (n : Nat) : blockAt content n = content[n]? := by
  rw [blockAt, if_pos (Int.natCast_nonneg n), Int.toNat_natCast]

variable {blocks : Blocks} {kind : Kind} {i : Int}

theorem OpenAt.not_ended (h : OpenAt blocks i kind) : ¬EndedAt blocks i := by
  rintro ⟨m, him, hm⟩
  obtain ⟨n, hin, hn⟩ := h
  obtain rfl : n = m := by omega
  rw [hn] at hm
  cases hm

variable {kind' : Kind}

theorem OpenAt.unique (h : OpenAt blocks i kind) (h' : OpenAt blocks i kind') : kind = kind' := by
  obtain ⟨n, hin, hn⟩ := h
  obtain ⟨m, him, hm⟩ := h'
  obtain rfl : n = m := by omega
  rw [hn] at hm
  cases hm
  rfl

theorem OpenAt.assert (h : OpenAt blocks i kind) (hsmall : blocks.length ≤ 2 ^ 32) : assertContentIndex i = .ok () := by
  obtain ⟨n, rfl, hn⟩ := h
  have hlt : n < blocks.length := (List.getElem?_eq_some_iff.mp hn).1
  rw [assertContentIndex, if_pos]
  constructor
  · omega
  · rw [MAX_SAFE_INTEGER]
    omega

/-! ### One more block -/

theorem openAt_append :
    OpenAt (blocks ++ [some kind']) i kind ↔ OpenAt blocks i kind ∨ i = blocks.length ∧ kind = kind' := by
  constructor
  · rintro ⟨n, rfl, hn⟩
    rcases Nat.lt_trichotomy n blocks.length with hlt | rfl | hgt
    · rw [List.getElem?_append_left hlt] at hn
      exact .inl ⟨n, rfl, hn⟩
    · rw [List.getElem?_concat_length] at hn
      exact .inr ⟨rfl, Option.some.inj (Option.some.inj hn.symm)⟩
    · rw [List.getElem?_eq_none (by simp; omega)] at hn
      cases hn
  · rintro (⟨n, rfl, hn⟩ | ⟨rfl, rfl⟩)
    · exact ⟨n, rfl, by rw [List.getElem?_append_left (List.getElem?_eq_some_iff.mp hn).1, hn]⟩
    · exact ⟨_, rfl, List.getElem?_concat_length⟩

theorem endedAt_append : EndedAt (blocks ++ [some kind]) i ↔ EndedAt blocks i := by
  constructor
  · rintro ⟨n, rfl, hn⟩
    rcases Nat.lt_trichotomy n blocks.length with hlt | rfl | hgt
    · rw [List.getElem?_append_left hlt] at hn
      exact ⟨n, rfl, hn⟩
    · rw [List.getElem?_concat_length] at hn
      cases hn
    · rw [List.getElem?_eq_none (by simp; omega)] at hn
      cases hn
  · rintro ⟨n, rfl, hn⟩
    exact ⟨n, rfl, by rw [List.getElem?_append_left (List.getElem?_eq_some_iff.mp hn).1, hn]⟩

/-! ### A block ended -/

theorem openAt_set {j : Int} (h : OpenAt blocks i kind) :
    OpenAt (blocks.set i.toNat none) j kind' ↔ OpenAt blocks j kind' ∧ j ≠ i := by
  obtain ⟨n, rfl, hn⟩ := h
  have hlt := (List.getElem?_eq_some_iff.mp hn).1
  rw [Int.toNat_natCast]
  constructor
  · rintro ⟨m, rfl, hm⟩
    rw [List.getElem?_set] at hm
    split at hm
    · cases hm
    · rename_i hne
      exact ⟨⟨m, rfl, hm⟩, by omega⟩
  · rintro ⟨⟨m, rfl, hm⟩, hne⟩
    refine ⟨m, rfl, ?_⟩
    rw [List.getElem?_set, if_neg (by omega), hm]

theorem endedAt_set {j : Int} (h : OpenAt blocks i kind) :
    EndedAt (blocks.set i.toNat none) j ↔ EndedAt blocks j ∨ j = i := by
  obtain ⟨n, rfl, hn⟩ := h
  have hlt := (List.getElem?_eq_some_iff.mp hn).1
  rw [Int.toNat_natCast]
  constructor
  · rintro ⟨m, rfl, hm⟩
    rw [List.getElem?_set] at hm
    split at hm
    · rename_i heq
      exact .inr (by omega)
    · exact .inl ⟨m, rfl, hm⟩
  · rintro (⟨m, rfl, hm⟩ | rfl)
    · refine ⟨m, rfl, ?_⟩
      rw [List.getElem?_set]
      split
      · rfl
      · exact hm
    · refine ⟨n, rfl, ?_⟩
      rw [List.getElem?_set, if_pos rfl, if_pos hlt]

theorem deltasOf_append (i : Int) (past rest : List (AssistantMessageEvent U D H)) :
    deltasOf i (past ++ rest) = deltasOf i past ++ deltasOf i rest := List.flatMap_append

theorem deltasOf_cons (i : Int) (event : AssistantMessageEvent U D H)
    (rest : List (AssistantMessageEvent U D H)) :
    deltasOf i (event :: rest) = event.deltaOf i ++ deltasOf i rest := List.flatMap_cons

/-! ## One event -/

/-- An event of one block leaves the others as they are. -/
structure Local (i : Int) (event : AssistantMessageEvent U D H) (e e' : Encoder)
    (message message' : AssistantMessage U D H) (states states' : JsMap Int ReducerBlockState) : Prop where
  encoder : ∀ j, j ≠ i → e'.blocks j = e.blocks j
  content : ∀ j, j ≠ i → blockAt message'.content j = blockAt message.content j
  state : ∀ j, j ≠ i → JsMap.get states' j = JsMap.get states j
  keys : (states.map Prod.fst).Nodup → (states'.map Prod.fst).Nodup
  deltas : ∀ j, j ≠ i → event.deltaOf j = []

section Step
variable {final : List Block} {past rest : List (AssistantMessageEvent U D H)} {blocks : Blocks}
  {event : AssistantMessageEvent U D H} {e e' : Encoder} {message message' : AssistantMessage U D H}
  {states states' : JsMap Int ReducerBlockState} {i : Int} {kind : Kind}

theorem deltasOf_past (j : Int) : deltasOf j (past ++ [event]) = deltasOf j past ++ event.deltaOf j := by
  rw [deltasOf_append, deltasOf_cons]
  exact congrArg _ (List.append_nil _)

theorem Shown.frame (hl : Local i event e e' message message' states states') {j : Int} (hj : j ≠ i)
    (h : Shown past (event :: rest) e message states j kind) :
    Shown (past ++ [event]) rest e' message' states' j kind := by
  have hdelta := hl.deltas j hj
  have hpast : deltasOf j (past ++ [event]) = deltasOf j past := by
    rw [deltasOf_past, hdelta, List.append_nil]
  have hrest : deltasOf j (event :: rest) = deltasOf j rest := by
    rw [deltasOf_cons, hdelta, List.nil_append]
  cases h with
  | chars kind snapshot block encoder within state at_ carries =>
    refine .chars kind snapshot block ?_ ?_ ?_ ?_ ?_
    · rw [hl.encoder j hj, hpast, encoder]
    · rwa [hpast, ← hrest]
    · rw [hl.state j hj, state]
    · rw [hl.content j hj, at_]
    · rwa [hpast]
  | toolCall caughtUp catchupJson snapshotArguments text toolCall encoder state at_ =>
    refine .toolCall caughtUp catchupJson snapshotArguments text toolCall ?_ ?_ ?_
    · rw [hl.encoder j hj, encoder]
    · rw [hl.state j hj, state]
    · rw [hl.content j hj, at_]

theorem Shown.kind_toolCall {text : JsString} (h : Shown past rest e message states i kind)
    (hs : JsMap.get states i = some (.toolCall false text)) : kind = .toolCall := by
  cases h with
  | chars kind _ _ _ _ state _ _ =>
    rw [state] at hs
    cases kind <;> cases hs
  | toolCall => rfl

variable (h : Inv final past (event :: rest) blocks e message states)
include h

theorem Inv.start
    (hl : Local i event e e' message message' states states') (hi : i = blocks.length)
    (hstarts : event.starts = some (i, kind)) (hends : event.endsWith = none)
    (hlength : message'.content.length = message.content.length + 1)
    (hbound : blocks.length < 2 ^ 32) (hfinal : blocks.length < final.length)
    (hnew : Shown (past ++ [event]) rest e' message' states' i kind) :
    Inv final (past ++ [event]) rest (blocks ++ [some kind]) e' message' states' := by
  have hlen : (blocks ++ [some kind]).length = blocks.length + 1 := by simp
  refine ⟨by rw [hlength, hlen, h.length], by omega, by omega, fun n hn => ?_, fun n hn => ?_,
    fun j k hopen => ?_, hl.keys h.keys, fun j text hs => ?_, fun event' hmem j k hs => ?_,
    fun j hended => ?_, fun event' hmem j block he => ?_⟩
  · rw [hl.encoder n (by omega)]
    exact h.fresh n (by omega)
  · rw [deltasOf_past, hl.deltas n (by omega), h.quiet n (by omega)]
    rfl
  · rcases openAt_append.mp hopen with hopen | ⟨rfl, rfl⟩
    · have hj : j ≠ i := by
        obtain ⟨n, rfl, hn⟩ := hopen
        have := (List.getElem?_eq_some_iff.mp hn).1
        omega
      exact (h.shown j k hopen).frame hl hj
    · exact hi ▸ hnew
  · by_cases hj : j = i
    · subst hj
      exact openAt_append.mpr (.inr ⟨hi, (hnew.kind_toolCall hs).symm⟩)
    · rw [hl.state j hj] at hs
      exact openAt_append.mpr (.inl (h.tools j text hs))
  · rcases List.mem_append.mp hmem with hmem | hmem
    · rcases h.started event' hmem j k hs with hopen | hended
      · exact .inl (openAt_append.mpr (.inl hopen))
      · exact .inr (endedAt_append.mpr hended)
    · rw [List.mem_singleton.mp hmem, hstarts] at hs
      cases hs
      exact .inl (openAt_append.mpr (.inr ⟨hi, rfl⟩))
  · obtain ⟨event', hmem, block, he⟩ := h.ended j (endedAt_append.mp hended)
    exact ⟨event', List.mem_append_left _ hmem, block, he⟩
  · rcases List.mem_append.mp hmem with hmem | hmem
    · obtain ⟨hended, hat, hf⟩ := h.finished event' hmem j block he
      have hj : j ≠ i := by
        obtain ⟨n, rfl, hn⟩ := hended
        have := (List.getElem?_eq_some_iff.mp hn).1
        omega
      exact ⟨endedAt_append.mpr hended, by rw [hl.content j hj, hat], hf⟩
    · rw [List.mem_singleton.mp hmem, hends] at he
      cases he

theorem Inv.delta
    (hl : Local i event e e' message message' states states') (hopen : OpenAt blocks i kind)
    (hstarts : event.starts = none) (hends : event.endsWith = none)
    (hlen : message'.content.length = message.content.length)
    (hnew : Shown (past ++ [event]) rest e' message' states' i kind) :
    Inv final (past ++ [event]) rest blocks e' message' states' := by
  have hat : ∀ n : Nat, blocks.length ≤ n → (n : Int) ≠ i := by
    intro n hn heq
    obtain ⟨m, rfl, hm⟩ := hopen
    have := (List.getElem?_eq_some_iff.mp hm).1
    omega
  refine ⟨by rw [hlen, h.length], h.small, h.within, fun n hn => ?_, fun n hn => ?_,
    fun j k hopen' => ?_, hl.keys h.keys, fun j text hs => ?_, fun event' hmem j k hs => ?_,
    fun j hended => ?_, fun event' hmem j block he => ?_⟩
  · rw [hl.encoder n (hat n hn)]
    exact h.fresh n hn
  · rw [deltasOf_past, hl.deltas n (hat n hn), h.quiet n hn]
    rfl
  · by_cases hj : j = i
    · subst hj
      rwa [hopen'.unique hopen]
    · exact (h.shown j k hopen').frame hl hj
  · by_cases hj : j = i
    · subst hj
      rwa [hnew.kind_toolCall hs] at hopen
    · rw [hl.state j hj] at hs
      exact h.tools j text hs
  · rcases List.mem_append.mp hmem with hmem | hmem
    · exact h.started event' hmem j k hs
    · rw [List.mem_singleton.mp hmem, hstarts] at hs
      cases hs
  · obtain ⟨event', hmem, block, he⟩ := h.ended j hended
    exact ⟨event', List.mem_append_left _ hmem, block, he⟩
  · rcases List.mem_append.mp hmem with hmem | hmem
    · obtain ⟨hended, hat, hf⟩ := h.finished event' hmem j block he
      have hj : j ≠ i := fun heq => hopen.not_ended (heq ▸ hended)
      exact ⟨hended, by rw [hl.content j hj, hat], hf⟩
    · rw [List.mem_singleton.mp hmem, hends] at he
      cases he

omit h

variable {block : Block}

theorem Inv.finish (h : Inv final past (event :: rest) blocks e message states)
    (hl : Local i event e e' message message' states states') (hopen : OpenAt blocks i kind)
    (hstarts : event.starts = none) (hends : event.endsWith = some (i, block))
    (hlength : message'.content.length = message.content.length) (hat : blockAt message'.content i = some block)
    (hfinal : blockAt final i = some block) (hstate : ∀ text, JsMap.get states' i ≠ some (.toolCall false text)) :
    Inv final (past ++ [event]) rest (blocks.set i.toNat none) e' message' states' := by
  have hlen : (blocks.set i.toNat none).length = blocks.length := List.length_set
  have hin : ∀ n : Nat, blocks.length ≤ n → (n : Int) ≠ i := by
    intro n hn heq
    obtain ⟨m, rfl, hm⟩ := hopen
    have := (List.getElem?_eq_some_iff.mp hm).1
    omega
  refine ⟨by rw [hlength, hlen, h.length], by rw [hlen]; exact h.small, by rw [hlen]; exact h.within,
    fun n hn => ?_, fun n hn => ?_, fun j k hopen' => ?_, hl.keys h.keys, fun j text hs => ?_,
    fun event' hmem j k hs => ?_, fun j hended => ?_, fun event' hmem j block' he => ?_⟩
  · rw [hlen] at hn
    rw [hl.encoder n (hin n hn)]
    exact h.fresh n hn
  · rw [hlen] at hn
    rw [deltasOf_past, hl.deltas n (hin n hn), h.quiet n hn]
    rfl
  · obtain ⟨hopen', hj⟩ := (openAt_set hopen).mp hopen'
    exact (h.shown j k hopen').frame hl hj
  · have hj : j ≠ i := by
      rintro rfl
      exact hstate text hs
    rw [hl.state j hj] at hs
    exact (openAt_set hopen).mpr ⟨h.tools j text hs, hj⟩
  · rcases List.mem_append.mp hmem with hmem | hmem
    · by_cases hj : j = i
      · exact .inr ((endedAt_set hopen).mpr (.inr hj))
      · rcases h.started event' hmem j k hs with hopen' | hended
        · exact .inl ((openAt_set hopen).mpr ⟨hopen', hj⟩)
        · exact .inr ((endedAt_set hopen).mpr (.inl hended))
    · rw [List.mem_singleton.mp hmem, hstarts] at hs
      cases hs
  · rcases (endedAt_set hopen).mp hended with hended | rfl
    · obtain ⟨event', hmem, block', he⟩ := h.ended j hended
      exact ⟨event', List.mem_append_left _ hmem, block', he⟩
    · exact ⟨event, List.mem_append_right _ (.head _), block, hends⟩
  · rcases List.mem_append.mp hmem with hmem | hmem
    · obtain ⟨hended, hat', hf⟩ := h.finished event' hmem j block' he
      have hj : j ≠ i := fun heq => hopen.not_ended (heq ▸ hended)
      exact ⟨(endedAt_set hopen).mpr (.inl hended), by rw [hl.content j hj, hat'], hf⟩
    · rw [List.mem_singleton.mp hmem, hends] at he
      cases he
      exact ⟨(endedAt_set hopen).mpr (.inr rfl), hat, hfinal⟩

/-! ### The operations on a block -/

variable {shared : AssistantMessage U D H}

theorem eventBlock_ok {type : String} (hi : assertContentIndex i = .ok ())
    (hb : blockAt shared.content i = some block) :
    eventBlock type i shared = .ok block := by
  simp only [eventBlock, hi, bind, Except.bind, hb]

variable {state : EncoderBlockState} (hi : assertContentIndex i = .ok ())
include hi

theorem Encoder.block_ok (hs : e.blocks i = some state) (hk : state.kind = kind) :
    e.block i kind = .ok state := by
  simp only [Encoder.block, hi, bind, Except.bind, hs, hk, ne_eq, not_true_eq_false, if_false]

theorem Encoder.startBlock_ok (hs : e.blocks i = none)
    (state : EncoderBlockState) :
    e.startBlock i state = .ok { e with blocks := update e.blocks i (some state) } := by
  simp only [Encoder.startBlock, hi, bind, Except.bind, hs, Option.isSome_none, Bool.false_eq_true, if_false]

theorem Encoder.endBlock_ok (hs : e.blocks i = some state)
    (hk : state.kind = kind) :
    e.endBlock i kind = .ok { e with blocks := update e.blocks i none } := by
  simp only [Encoder.endBlock, Encoder.block_ok hi hs hk, bind, Except.bind]

theorem appendBlock_ok (hlen : i = message.content.length)
    (block : Block) (state : ReducerBlockState) : appendBlock message states i block state =
      .ok ({ message with content := message.content ++ [block] }, JsMap.set states i state) := by
  simp only [appendBlock, hi, bind, Except.bind]
  rw [if_neg (not_not.mpr hlen)]

theorem activeBlock_ok {state : ReducerBlockState} {type : String}
    (hs : JsMap.get states i = some state) (hb : blockAt message.content i = some block) (hsk : state.kind = kind)
    (hbk : block.kind = kind) (hended : state.ended = false) :
    activeBlock message states i kind type = .ok (block, state) := by
  simp only [activeBlock, hi, bind, Except.bind, hs, hb, hsk, hbk, hended, ne_eq, not_true_eq_false,
    or_self, if_false, Bool.false_eq_true]

omit hi

variable {chars : JsString}

theorem Block.carries_kind (h : block.carries kind chars) : block.kind = kind := by
  cases block <;> cases kind <;> first | rfl | exact h.elim

variable {content : List Block}

theorem blockAt_append (block : Block) {j : Int} (hj : j ≠ content.length) :
    blockAt (content ++ [block]) j = blockAt content j := by
  unfold blockAt
  split
  · rcases Nat.lt_trichotomy j.toNat content.length with hlt | heq | hgt
    · rw [List.getElem?_append_left hlt]
    · omega
    · rw [List.getElem?_eq_none (by simp; omega), List.getElem?_eq_none (by omega)]
  · rfl

theorem blockAt_set (block : Block) {i j : Int} (hi : 0 ≤ i) (hj : j ≠ i) :
    blockAt (content.set i.toNat block) j = blockAt content j := by
  unfold blockAt
  split
  · rw [List.getElem?_set, if_neg (by omega)]
  · rfl

theorem blockAt_set_self {old : Block} (h : blockAt content i = some old) (block : Block) :
    blockAt (content.set i.toNat block) i = some block := by
  unfold blockAt at h ⊢
  split at h
  · rename_i hi
    rw [if_pos hi, List.getElem?_set_self (List.getElem?_eq_some_iff.mp h).1]
  · cases h

theorem OpenAt.nonneg (h : OpenAt blocks i kind) : 0 ≤ i := by
  obtain ⟨n, rfl, -⟩ := h
  exact Int.natCast_nonneg n

theorem deltaOf_none (hs : event.starts = some (i, kind)) (j : Int) : event.deltaOf j = [] := by
  cases event <;> first | rfl | cases hs

theorem endsWith_none (hs : event.starts = some (i, kind)) : event.endsWith = none := by
  cases event <;> first | rfl | cases hs

/-! ### A block starts -/

variable (h : Inv final past (event :: rest) blocks e message states)
include h

/-- What the encoder and the reducer do with the frame that starts a block. -/
theorem Inv.started_block
    (hval : Starts final blocks i kind shared rest)
    (hstarts : event.starts = some (i, kind)) (encoderState : EncoderBlockState)
    (reducerState : ReducerBlockState) (block : Block) (hblock : blockAt shared.content i = some block)
    (hshown : Shown (past ++ [event]) rest { e with blocks := update e.blocks i (some encoderState) }
      { message with content := message.content ++ [block] } (JsMap.set states i reducerState) i kind) :
    assertContentIndex i = .ok () ∧ e.blocks i = none ∧ i = message.content.length ∧
      Inv final (past ++ [event]) rest (blocks ++ [some kind])
        { e with blocks := update e.blocks i (some encoderState) }
        { message with content := message.content ++ [block] } (JsMap.set states i reducerState) := by
  obtain ⟨hi, harray, hfinal, -⟩ := hval
  have hbound : blocks.length < 2 ^ 32 := by
    rw [hi, blockAt_natCast] at hblock
    exact (List.getElem?_eq_some_iff.mp hblock).1.trans harray
  refine ⟨?_, ?_, by rw [hi, h.length], ?_⟩
  · rw [assertContentIndex, if_pos]
    rw [hi, MAX_SAFE_INTEGER]
    omega
  · rw [hi]
    exact h.fresh _ le_rfl
  · refine h.start ⟨fun j hj => ?_, fun j hj => ?_, fun j hj => ?_, fun hk => JsMap.nodup_set hk _ _,
      fun j _ => deltaOf_none hstarts j⟩ hi hstarts (endsWith_none hstarts) (by simp) hbound hfinal hshown
    · exact Function.update_of_ne hj ..
    · exact blockAt_append block (by rw [h.length, ← hi]; exact hj)
    · rw [JsMap.get_set, if_neg (Ne.symm hj)]

theorem Shown.start_chars (k : TextKind)
    (hi : i = blocks.length) (hstarts : event.starts = some (i, k.kind)) (block : Block)
    (hcarries : block.carries k.kind chars) (hopens : chars <+: deltasOf i rest) :
    Shown (past ++ [event]) rest { e with blocks := update e.blocks i (some (.chars k chars.length 0)) }
      { message with content := message.content ++ [block] }
      (JsMap.set states i (k.reducerState false)) i k.kind := by
  have hquiet : deltasOf i (past ++ [event]) = [] := by
    rw [deltasOf_past, deltaOf_none hstarts, hi, h.quiet _ le_rfl]
    rfl
  refine .chars k chars block ?_ ?_ ?_ ?_ ?_
  · rw [hquiet]
    exact Function.update_self ..
  · rw [hquiet, List.nil_append]
    exact hopens
  · rw [JsMap.get_set, if_pos rfl]
  · rw [hi, ← h.length, blockAt_natCast]
    exact List.getElem?_concat_length
  · rw [hquiet, longer_nil]
    exact hcarries

omit h

/-- An event is encoded, and its frame reduced. -/
def Steps (json : StreamingJson) (final : List Block) (past rest : List (AssistantMessageEvent U D H))
    (event : AssistantMessageEvent U D H) (blocks : Blocks) (e : Encoder)
    (message : AssistantMessage U D H) (states : JsMap Int ReducerBlockState) : Prop :=
  ∃ frame e' message' states', e.encodeBlockEvent json event = .ok (frame, e') ∧
    e'.started = e.started ∧ e'.terminal = e.terminal ∧
    (∀ beforeStart, frame.toList.foldlM (reduceFrame json) ⟨some message, beforeStart, states⟩ =
      .ok ⟨some message', beforeStart, states'⟩) ∧
    Inv final (past ++ [event]) rest blocks e' message' states'

variable {json : StreamingJson}

theorem reduce_one {frame : AssistantMessageFrame U D H} (hframe : ∀ shared, frame ≠ .start shared)
    (h : reduceBlockFrame json message states frame = .ok (message', states')) (beforeStart : Option String) :
    (some frame).toList.foldlM (reduceFrame json) ⟨some message, beforeStart, states⟩ =
      .ok ⟨some message', beforeStart, states'⟩ := by
  have hred : reduceFrame json ⟨some message, beforeStart, states⟩ frame =
      .ok ⟨some message', beforeStart, states'⟩ := by
    unfold reduceFrame
    cases frame
    case start shared => exact absurd rfl (hframe shared)
    all_goals
      dsimp only
      rw [h]
      rfl
  simp only [Option.toList_some, List.foldlM_cons, List.foldlM_nil, hred]
  rfl

theorem Inv.textStart (h : Inv final past (.textStart i shared :: rest) blocks e message states)
    (hval : Starts final blocks i .text shared rest) :
    Steps json final past rest (.textStart i shared) (blocks ++ [some .text]) e message states := by
  obtain ⟨block, chars, hblock, hcarries, hopens⟩ := hval.2.2.2
  cases block with
  | thinking _ | toolCall _ => exact hcarries.elim
  | text content =>
    obtain rfl : content.text = chars := hcarries
    obtain ⟨hassert, hfresh, hlen, hinv⟩ := h.started_block hval rfl _ _ _ hblock
      (Shown.start_chars h .text hval.1 rfl (.text content) rfl hopens)
    refine ⟨some (.textStart i content), _, _, _, ?_, ?_, ?_, reduce_one (fun _ h => by cases h) ?_, hinv⟩
    · simp only [Encoder.encodeBlockEvent, eventBlock_ok hassert hblock, Encoder.startBlock_ok hassert hfresh,
        bind, Except.bind]
    · rfl
    · rfl
    · exact appendBlock_ok hassert hlen _ _

theorem Inv.thinkingStart (h : Inv final past (.thinkingStart i shared :: rest) blocks e message states)
    (hval : Starts final blocks i .thinking shared rest) :
    Steps json final past rest (.thinkingStart i shared) (blocks ++ [some .thinking]) e message states := by
  obtain ⟨block, chars, hblock, hcarries, hopens⟩ := hval.2.2.2
  cases block with
  | text _ | toolCall _ => exact hcarries.elim
  | thinking content =>
    obtain rfl : content.thinking = chars := hcarries
    obtain ⟨hassert, hfresh, hlen, hinv⟩ := h.started_block hval rfl _ _ _ hblock
      (Shown.start_chars h .thinking hval.1 rfl (.thinking content) rfl hopens)
    refine ⟨some (.thinkingStart i content), _, _, _, ?_, ?_, ?_, reduce_one (fun _ h => by cases h) ?_, hinv⟩
    · simp only [Encoder.encodeBlockEvent, eventBlock_ok hassert hblock, Encoder.startBlock_ok hassert hfresh,
        bind, Except.bind]
    · rfl
    · rfl
    · exact appendBlock_ok hassert hlen _ _

theorem Inv.toolcallStart (h : Inv final past (.toolcallStart i shared :: rest) blocks e message states)
    (hval : Starts final blocks i .toolCall shared rest) :
    Steps json final past rest (.toolcallStart i shared) (blocks ++ [some .toolCall]) e message states := by
  obtain ⟨block, chars, hblock, hcarries, -⟩ := hval.2.2.2
  cases block with
  | text _ | thinking _ => exact hcarries.elim
  | toolCall toolCall =>
    obtain ⟨hassert, hfresh, hlen, hinv⟩ := h.started_block hval rfl
      (.toolCall (decide (serializedArguments json toolCall.arguments = EMPTY_PARSED_TOOL_ARGUMENTS json)) []
        (if decide (serializedArguments json toolCall.arguments = EMPTY_PARSED_TOOL_ARGUMENTS json) then []
          else serializedArguments json toolCall.arguments))
      (.toolCall false []) (.toolCall toolCall) hblock
      (.toolCall _ _ _ [] toolCall (Function.update_self ..) (by rw [JsMap.get_set, if_pos rfl])
        (by rw [hval.1, ← h.length, blockAt_natCast]; exact List.getElem?_concat_length))
    refine ⟨some (.toolcallStart i toolCall), _, _, _, ?_, ?_, ?_, reduce_one (fun _ h => by cases h) ?_, hinv⟩
    · simp only [Encoder.encodeBlockEvent, eventBlock_ok hassert hblock, Encoder.startBlock_ok hassert hfresh,
        bind, Except.bind]
    · rfl
    · rfl
    · exact appendBlock_ok hassert hlen _ _

/-! ### Characters are added -/

/-- The frame of a delta. -/
def deltaFrame (k : TextKind) (i : Int) (delta : JsString) : AssistantMessageFrame U D H :=
  match k with
  | .text => .textDelta i delta
  | .thinking => .thinkingDelta i delta

def Block.addChars : Block → JsString → Block
  | .text content, delta => .text { content with text := content.text ++ delta }
  | .thinking content, delta => .thinking { content with thinking := content.thinking ++ delta }
  | .toolCall call, _ => .toolCall call

theorem Block.carries_addChars {k : TextKind} (h : block.carries k.kind chars) (delta : JsString) :
    (block.addChars delta).carries k.kind (chars ++ delta) := by
  cases k with
  | text =>
    cases block with
    | text content => exact congrArg (· ++ delta) h
    | thinking _ | toolCall _ => cases h
  | thinking =>
    cases block with
    | thinking content => exact congrArg (· ++ delta) h
    | text _ | toolCall _ => cases h

theorem reduce_delta {k : TextKind} (hi : assertContentIndex i = .ok ())
    (hs : JsMap.get states i = some (k.reducerState false)) (hb : blockAt message.content i = some block)
    (hcarries : block.carries k.kind chars) (delta : JsString) :
    reduceBlockFrame json message states (deltaFrame k i delta) =
      .ok (message.setBlock i (block.addChars delta), states) := by
  cases k with
  | text =>
    cases block with
    | text content =>
      simp only [deltaFrame, reduceBlockFrame, bind, Except.bind, Block.addChars,
        activeBlock_ok hi hs hb (rfl : _ = Kind.text) rfl rfl]
    | thinking _ | toolCall _ => cases hcarries
  | thinking =>
    cases block with
    | thinking content =>
      simp only [deltaFrame, reduceBlockFrame, bind, Except.bind, Block.addChars,
        activeBlock_ok hi hs hb (rfl : _ = Kind.thinking) rfl rfl]
    | text _ | toolCall _ => cases hcarries

variable {delta : JsString}

/-- A delta of characters: what the start of the block did not show of it is added. -/
theorem Inv.charsDelta (json : StreamingJson) (k : TextKind)
    (h : Inv final past (event :: rest) blocks e message states) (hopen : OpenAt blocks i k.kind)
    (hstarts : event.starts = none) (hends : event.endsWith = none) (hdelta : event.deltaOf i = delta)
    (hother : ∀ j, j ≠ i → event.deltaOf j = []) :
    ∃ frame e' message' states', e.encodeTextDelta i delta k = .ok (frame, e') ∧
      e'.started = e.started ∧ e'.terminal = e.terminal ∧
      (∀ beforeStart, frame.toList.foldlM (reduceFrame json) ⟨some message, beforeStart, states⟩ =
        .ok ⟨some message', beforeStart, states'⟩) ∧
      Inv final (past ++ [event]) rest blocks e' message' states' := by
  have hi := hopen.assert h.small
  have hshown := h.shown i k.kind hopen
  generalize hkind : k.kind = kind at hshown
  cases hshown with
  | toolCall => cases k <;> cases hkind
  | chars k' snapshot block henc hwithin hstate hat hcarries =>
    obtain rfl : k = k' := by cases k <;> cases k' <;> first | rfl | cases hkind
    have hpast : deltasOf i (past ++ [event]) = deltasOf i past ++ delta := by
      rw [deltasOf_past, hdelta]
    rw [deltasOf_cons, hdelta] at hwithin
    have hnext : snapshot <+: deltasOf i (past ++ [event]) ++ deltasOf i rest := by
      rw [hpast, List.append_assoc]
      exact hwithin
    let state := EncoderBlockState.chars k snapshot.length ((deltasOf i past).length + delta.length)
    let e' : Encoder := { e with blocks := update e.blocks i (some state) }
    have henc' : e'.blocks i =
        some (.chars k snapshot.length (deltasOf i (past ++ [event])).length) := by
      rw [hpast, List.length_append]
      exact Function.update_self ..
    by_cases hcov : delta.length ≤ snapshot.length - (deltasOf i past).length
    · -- the start already showed this delta
      refine ⟨none, e', message, states, ?_, rfl, rfl, fun _ => rfl, ?_⟩
      · simp only [Encoder.encodeTextDelta, Encoder.block_ok hi henc (rfl : _ = k.kind), bind, Except.bind]
        rw [if_pos hcov]
      · refine h.delta ⟨fun j hj => Function.update_of_ne hj .., fun _ _ => rfl, fun _ _ => rfl, fun hk => hk,
          hother⟩ hopen hstarts hends rfl
          (.chars k snapshot block henc' hnext hstate hat ?_)
        rw [hpast, longer_covered hcov]
        exact hcarries
    · refine ⟨some (deltaFrame k i (delta.drop (snapshot.length - (deltasOf i past).length))), e',
        message.setBlock i (block.addChars (delta.drop (snapshot.length - (deltasOf i past).length))),
        states, ?_, rfl, rfl, reduce_one (fun _ h => by cases k <;> cases h)
          (reduce_delta hi hstate hat hcarries _), ?_⟩
      · simp only [Encoder.encodeTextDelta, Encoder.block_ok hi henc (rfl : _ = k.kind), bind, Except.bind]
        rw [if_neg hcov]
        cases k <;> rfl
      · refine h.delta ⟨fun j hj => Function.update_of_ne hj .., fun j hj => ?_, fun _ _ => rfl, fun hk => hk,
          hother⟩ hopen hstarts hends (List.length_set ..)
          (.chars k snapshot (block.addChars _) henc' hnext hstate
            (blockAt_set_self hat _) ?_)
        · exact blockAt_set _ hopen.nonneg hj
        · rw [hpast, longer_uncovered hwithin hcov]
          exact Block.carries_addChars hcarries _

theorem Inv.textDelta (h : Inv final past (.textDelta i delta shared :: rest) blocks e message states)
    (hopen : OpenAt blocks i .text) :
    Steps json final past rest (.textDelta i delta shared) blocks e message states :=
  h.charsDelta json .text hopen rfl rfl (if_pos rfl) fun _ hj => if_neg (Ne.symm hj)

theorem Inv.thinkingDelta (h : Inv final past (.thinkingDelta i delta shared :: rest) blocks e message states)
    (hopen : OpenAt blocks i .thinking) :
    Steps json final past rest (.thinkingDelta i delta shared) blocks e message states :=
  h.charsDelta json .thinking hopen rfl rfl (if_pos rfl) fun _ hj => if_neg (Ne.symm hj)

/-! ### Arguments of a tool call arrive -/

/-- Whatever an open tool call changes, it stays one. -/
theorem Inv.toolDelta (h : Inv final past (.toolcallDelta i delta shared :: rest) blocks e message states)
    (hopen : OpenAt blocks i .toolCall) {caughtUp : Bool} {catchupJson snapshotArguments text : JsString}
    {toolCall : ToolCall} (hlocal : Local i (.toolcallDelta i delta shared) e e' message message' states states')
    (henc : e'.blocks i = some (.toolCall caughtUp catchupJson snapshotArguments))
    (hstate : JsMap.get states' i = some (.toolCall false text))
    (hat : blockAt message'.content i = some (.toolCall toolCall))
    (hlen : message'.content.length = message.content.length) :
    Inv final (past ++ [.toolcallDelta i delta shared]) rest blocks e' message' states' :=
  h.delta hlocal hopen rfl rfl hlen
    (.toolCall caughtUp catchupJson snapshotArguments text toolCall henc hstate hat)

theorem Inv.toolcallDelta (h : Inv final past (.toolcallDelta i delta shared :: rest) blocks e message states)
    (hopen : OpenAt blocks i .toolCall) :
    Steps json final past rest (.toolcallDelta i delta shared) blocks e message states := by
  have hi := hopen.assert h.small
  have hshown := h.shown i .toolCall hopen
  generalize hkind : Kind.toolCall = kind at hshown
  cases hshown with
  | chars k => cases k <;> cases hkind
  | toolCall caughtUp catchupJson snapshotArguments text call henc hstate hat =>
    have hblock := Encoder.block_ok hi henc (rfl : _ = Kind.toolCall)
    have hactive : ∀ type, activeBlock message states i .toolCall type = .ok (.toolCall call, .toolCall false text) :=
      fun type => activeBlock_ok hi hstate hat rfl rfl rfl
    have hsame : Local i (.toolcallDelta i delta shared) e e message message states states :=
      ⟨fun _ _ => rfl, fun _ _ => rfl, fun _ _ => rfl, fun hk => hk, fun _ _ => rfl⟩
    have hupd : ∀ state, Local i (.toolcallDelta i delta shared) e
        { e with blocks := update e.blocks i (some state) } message message states states :=
      fun state => { hsame with encoder := fun j hj => Function.update_of_ne hj .. }
    cases caughtUp with
    | true =>
      by_cases hempty : delta.length = 0
      · refine ⟨none, e, message, states, ?_, rfl, rfl, fun _ => rfl, h.toolDelta hopen hsame henc hstate hat rfl⟩
        simp only [Encoder.encodeBlockEvent, Encoder.encodeToolcallDelta, hblock, bind, Except.bind]
        rw [if_pos hempty]
      · refine ⟨some (.toolcallDelta i delta), e, message, JsMap.set states i (.toolCall false (text ++ delta)),
          ?_, rfl, rfl, reduce_one (fun _ h => by cases h) ?_,
          h.toolDelta hopen { hsame with
            state := fun j hj => by rw [JsMap.get_set, if_neg (Ne.symm hj)]
            keys := fun hk => JsMap.nodup_set hk _ _ } henc (by rw [JsMap.get_set, if_pos rfl]) hat rfl⟩
        · simp only [Encoder.encodeBlockEvent, Encoder.encodeToolcallDelta, hblock, bind, Except.bind]
          rw [if_neg hempty]
        · simp only [reduceBlockFrame, hactive, bind, Except.bind]
    | false =>
      by_cases hbehind : serializedArguments json (parseStreamingJson json (catchupJson ++ delta)) ≠
          snapshotArguments ∧ !isJsonPrefix (parseStreamingJson json snapshotArguments)
            (parseStreamingJson json (catchupJson ++ delta))
      · -- the deltas do not yet say what the start of the block showed
        refine ⟨none, _, message, states, ?_, ?_, ?_, fun _ => rfl,
          h.toolDelta hopen (hupd (.toolCall false (catchupJson ++ delta) snapshotArguments))
            (Function.update_self ..) hstate hat rfl⟩
        · simp only [Encoder.encodeBlockEvent, Encoder.encodeToolcallDelta, hblock, bind, Except.bind]
          rw [if_pos hbehind]
        · rfl
        · rfl
      · by_cases hempty : (catchupJson ++ delta).length = 0
        · refine ⟨none, _, message, states, ?_, ?_, ?_, fun _ => rfl,
            h.toolDelta hopen (hupd (.toolCall true [] [])) (Function.update_self ..) hstate hat rfl⟩
          · simp only [Encoder.encodeBlockEvent, Encoder.encodeToolcallDelta, hblock, bind, Except.bind]
            rw [if_neg hbehind, if_pos hempty]
          · rfl
          · rfl
        · have hset : Local i (.toolcallDelta i delta shared) e
              { e with blocks := update e.blocks i (some (.toolCall true [] [])) } message
              (message.setBlock i (.toolCall { call with
                arguments := parseStreamingJson json (catchupJson ++ delta) })) states
              (JsMap.set states i (.toolCall false (catchupJson ++ delta))) :=
            ⟨(hupd (.toolCall true [] [])).encoder, fun j hj => blockAt_set _ hopen.nonneg hj,
              fun j hj => by rw [JsMap.get_set, if_neg (Ne.symm hj)], fun hk => JsMap.nodup_set hk _ _,
              fun _ _ => rfl⟩
          refine ⟨some (.toolcallCheckpoint i (catchupJson ++ delta)), _, _, _, ?_, ?_, ?_,
            reduce_one (fun _ h => by cases h) ?_,
            h.toolDelta hopen hset (Function.update_self ..) (by rw [JsMap.get_set, if_pos rfl])
              (blockAt_set_self hat _) (List.length_set ..)⟩
          · simp only [Encoder.encodeBlockEvent, Encoder.encodeToolcallDelta, hblock, bind, Except.bind]
            rw [if_neg hbehind, if_neg hempty]
          · rfl
          · rfl
          · simp only [reduceBlockFrame, hactive, bind, Except.bind]

/-! ### A block ends -/

theorem Shown.parts (h : Shown past rest e message states i kind) :
    (∃ state, e.blocks i = some state ∧ state.kind = kind) ∧
      (∃ state, JsMap.get states i = some state ∧ state.kind = kind ∧ state.ended = false) ∧
      ∃ block, blockAt message.content i = some block ∧ block.kind = kind := by
  cases h with
  | chars k snapshot block encoder within state at_ carries =>
    exact ⟨⟨_, encoder, rfl⟩, ⟨_, state, by cases k <;> rfl, by cases k <;> rfl⟩, block, at_,
      Block.carries_kind carries⟩
  | toolCall _ _ _ _ call encoder state at_ =>
    exact ⟨⟨_, encoder, rfl⟩, ⟨_, state, rfl, rfl⟩, _, at_, rfl⟩

theorem Inv.ended_block (h : Inv final past (event :: rest) blocks e message states) (hopen : OpenAt blocks i kind)
    (hstarts : event.starts = none) (hdelta : ∀ j, event.deltaOf j = []) (hends : event.endsWith = some (i, block))
    (hfinal : blockAt final i = some block) (state : ReducerBlockState) (hstate : state.ended = true) :
    Inv final (past ++ [event]) rest (blocks.set i.toNat none) { e with blocks := update e.blocks i none }
      (message.setBlock i block) (JsMap.set states i state) := by
  obtain ⟨-, -, old, hold, -⟩ := (h.shown i kind hopen).parts
  refine h.finish ⟨fun j hj => Function.update_of_ne hj .., fun j hj => blockAt_set _ hopen.nonneg hj,
    fun j hj => ?_, fun hk => JsMap.nodup_set hk _ _, fun j _ => hdelta j⟩ hopen hstarts hends
    (List.length_set ..) (blockAt_set_self hold _) hfinal fun text ht => ?_
  · rw [JsMap.get_set, if_neg (Ne.symm hj)]
  · rw [JsMap.get_set, if_pos rfl] at ht
    rw [Option.some.inj ht] at hstate
    cases hstate

theorem Inv.ends (h : Inv final past (event :: rest) blocks e message states) (hval : Ends final blocks i kind event) :
    Steps json final past rest event (blocks.set i.toNat none) e message states := by
  obtain ⟨hopen, block, hends, hkind, hfinal⟩ := hval
  have hi := hopen.assert h.small
  obtain ⟨⟨state, hstate, hsk⟩, ⟨rstate, hrstate, hrk, hre⟩, old, hold, hok⟩ := (h.shown i kind hopen).parts
  have hsteps : ∀ (frame : AssistantMessageFrame U D H) (next : ReducerBlockState), event.starts = none →
      (∀ j, event.deltaOf j = []) → next.ended = true → (∀ shared, frame ≠ .start shared) →
      e.encodeBlockEvent json event = .ok (some frame, { e with blocks := update e.blocks i none }) →
      reduceBlockFrame json message states frame = .ok (message.setBlock i block, JsMap.set states i next) →
      Steps json final past rest event (blocks.set i.toNat none) e message states :=
    fun frame next hstarts hdelta hended hframe henc hred => ⟨some frame, _, _, _, henc, rfl, rfl,
      reduce_one hframe hred, h.ended_block hopen hstarts hdelta hends hfinal next hended⟩
  cases event with
  | textEnd j content shared =>
    simp only [AssistantMessageEvent.endsWith] at hends
    split at hends <;> cases hends
    rename_i shown hshared
    obtain rfl : kind = .text := hkind.symm
    refine hsteps (.textEnd i content shown.textSignature) (.text true) rfl (fun _ => rfl) rfl (fun _ h => by cases h) ?_ ?_
    · simp only [Encoder.encodeBlockEvent, eventBlock_ok hi hshared, Encoder.endBlock_ok hi hstate hsk, bind, Except.bind]
    · simp only [reduceBlockFrame, activeBlock_ok hi hrstate hold hrk hok hre, bind, Except.bind]
      cases old <;> first | rfl | cases hok
  | thinkingEnd j content shared =>
    simp only [AssistantMessageEvent.endsWith] at hends
    split at hends <;> cases hends
    rename_i shown hshared
    obtain rfl : kind = .thinking := hkind.symm
    refine hsteps (.thinkingEnd i content shown.thinkingSignature shown.redacted) (.thinking true) rfl (fun _ => rfl) rfl
      (fun _ h => by cases h) ?_ ?_
    · simp only [Encoder.encodeBlockEvent, eventBlock_ok hi hshared, Encoder.endBlock_ok hi hstate hsk, bind, Except.bind]
    · simp only [reduceBlockFrame, activeBlock_ok hi hrstate hold hrk hok hre, bind, Except.bind]
      cases old <;> first | rfl | cases hok
  | toolcallEnd j call shared =>
    simp only [AssistantMessageEvent.endsWith] at hends
    split at hends <;> cases hends
    rename_i shown hshared
    obtain rfl : kind = .toolCall := hkind.symm
    cases rstate with
    | text _ | thinking _ => cases hrk
    | toolCall ended text =>
      refine hsteps (.toolcallEnd i call.id call.name call.arguments call.thoughtSignature call.namespace_) (.toolCall true text)
        rfl (fun _ => rfl) rfl (fun _ h => by cases h) ?_ ?_
      · simp only [Encoder.encodeBlockEvent, eventBlock_ok hi hshared, Encoder.endBlock_ok hi hstate hsk, bind, Except.bind]
      · simp only [reduceBlockFrame, activeBlock_ok hi hrstate hold hrk hok hre, bind, Except.bind]
        cases old <;> first | rfl | cases hok
  | _ => cases hends

/-- The last event changes no block. -/
theorem Inv.terminal (h : Inv final past (event :: rest) blocks e message states)
    (hblocks : e'.blocks = e.blocks) (hstarts : event.starts = none) (hends : event.endsWith = none)
    (hdelta : ∀ j, event.deltaOf j = []) : Inv final (past ++ [event]) rest blocks e' message states := by
  have hl : Local (-1) event e e' message message states states :=
    ⟨fun j _ => by rw [hblocks], fun _ _ => rfl, fun _ _ => rfl, fun hk => hk, fun j _ => hdelta j⟩
  refine ⟨h.length, h.small, h.within, fun n hn => by rw [hblocks]; exact h.fresh n hn, fun n hn => ?_,
    fun j k hopen => ?_, h.keys, h.tools, fun event' hmem j k hs => ?_, fun j hended => ?_,
    fun event' hmem j block he => ?_⟩
  · rw [deltasOf_past, hdelta, h.quiet n hn]
    rfl
  · have hj : j ≠ -1 := by
      have := hopen.nonneg
      omega
    exact (h.shown j k hopen).frame hl hj
  · rcases List.mem_append.mp hmem with hmem | hmem
    · exact h.started event' hmem j k hs
    · rw [List.mem_singleton.mp hmem, hstarts] at hs
      cases hs
  · obtain ⟨event', hmem, block, he⟩ := h.ended j hended
    exact ⟨event', List.mem_append_left _ hmem, block, he⟩
  · rcases List.mem_append.mp hmem with hmem | hmem
    · exact h.finished event' hmem j block he
    · rw [List.mem_singleton.mp hmem, hends] at he
      cases he

end Step

/-! ## Runs -/

/-- The events of a stream up to any point are encoded, and the frames reduced. -/
theorem Inv.run (json : StreamingJson) {final : List Block} {past later : List (AssistantMessageEvent U D H)}
    {e : Encoder} {message : AssistantMessage U D H} {states : JsMap Int ReducerBlockState}
    (seen : List (AssistantMessageEvent U D H)) (h : Inv final past (seen ++ later) blocks e message states)
    (hstart : e.started = true) (hlive : e.terminal = false) (hval : Valid final blocks (seen ++ later)) :
    ∃ frames e' message' states' blocks', e.encodeAll json seen = .ok (frames, e') ∧
      (∀ beforeStart, frames.foldlM (reduceFrame json) ⟨some message, beforeStart, states⟩ =
        .ok ⟨some message', beforeStart, states'⟩) ∧
      Inv final (past ++ seen) later blocks' e' message' states' := by
  induction seen generalizing past blocks e message states with
  | nil => exact ⟨[], e, message, states, blocks, rfl, fun _ => rfl, by rwa [List.append_nil]⟩
  | cons event seen ih =>
    have hstep : (∃ blocks', Steps json final past (seen ++ later) event blocks' e message states ∧
        e.encode json event = e.encodeBlockEvent json event ∧ Valid final blocks' (seen ++ later)) ∨
        (seen ++ later = [] ∧ e.encode json event = .ok (none, { e with terminal := true }) ∧
          event.starts = none ∧ event.endsWith = none ∧ ∀ j, event.deltaOf j = []) := by
      cases event with
      | start shared => exact hval.elim
      | textStart i shared => exact .inl ⟨_, h.textStart hval.1, by simp [Encoder.encode, hlive, hstart], hval.2⟩
      | thinkingStart i shared =>
        exact .inl ⟨_, h.thinkingStart hval.1, by simp [Encoder.encode, hlive, hstart], hval.2⟩
      | toolcallStart i shared =>
        exact .inl ⟨_, h.toolcallStart hval.1, by simp [Encoder.encode, hlive, hstart], hval.2⟩
      | textDelta i delta shared =>
        exact .inl ⟨_, h.textDelta hval.1, by simp [Encoder.encode, hlive, hstart], hval.2⟩
      | thinkingDelta i delta shared =>
        exact .inl ⟨_, h.thinkingDelta hval.1, by simp [Encoder.encode, hlive, hstart], hval.2⟩
      | toolcallDelta i delta shared =>
        exact .inl ⟨_, h.toolcallDelta hval.1, by simp [Encoder.encode, hlive, hstart], hval.2⟩
      | textEnd | thinkingEnd | toolcallEnd => exact .inl ⟨_, h.ends hval.1, by simp [Encoder.encode, hlive, hstart], hval.2⟩
      | done message =>
        exact .inr ⟨hval.1, by simp [Encoder.encode, hlive, hstart], rfl, rfl, fun _ => rfl⟩
      | error error => exact .inr ⟨hval, by simp [Encoder.encode, hlive], rfl, rfl, fun _ => rfl⟩
    rcases hstep with ⟨blocks', ⟨frame, e', message', states', henc, hs, ht, hred, hinv⟩, hblock, hrest⟩ |
      ⟨hnil, henc, hstarts, hends, hdelta⟩
    · obtain ⟨frames, e'', message'', states'', blocks'', hframes, hreduces, hinv'⟩ :=
        ih hinv (by rw [hs, hstart]) (by rw [ht, hlive]) hrest
      refine ⟨frame.toList ++ frames, e'', message'', states'', blocks'', ?_, fun beforeStart => ?_, ?_⟩
      · simp only [Encoder.encodeAll, hblock, henc, hframes, bind, Except.bind]
      · rw [List.foldlM_append, hred]
        exact hreduces beforeStart
      · rwa [List.append_assoc] at hinv'
    · -- a terminal event is the last one, and has no frame
      obtain ⟨rfl, rfl⟩ := List.append_eq_nil_iff.mp hnil
      refine ⟨[], { e with terminal := true }, message, states, blocks, ?_, fun _ => rfl, ?_⟩
      · simp only [Encoder.encodeAll, henc, bind, Except.bind]
        rfl
      · exact h.terminal rfl hstarts hends hdelta

/-! ## The reduced message -/

/-- The last pass changes only the arguments of open tool calls. -/
theorem finishStates_ok (json : StreamingJson) (blocks : Blocks) (message : AssistantMessage U D H)
    (states : JsMap Int ReducerBlockState)
    (htools : ∀ i text, (i, .toolCall false text) ∈ states → OpenAt blocks i .toolCall ∧
      ∃ call, blockAt message.content i = some (.toolCall call)) :
    ∃ message', finishStates json message states = .ok message' ∧ message'.content.length = message.content.length ∧
      ∀ i, ¬OpenAt blocks i .toolCall → blockAt message'.content i = blockAt message.content i := by
  induction states generalizing message with
  | nil => exact ⟨message, rfl, rfl, fun _ _ => rfl⟩
  | cons p states ih =>
    obtain ⟨j, state⟩ := p
    have hskip := ih message fun i text hmem => htools i text (.tail _ hmem)
    cases state with
    | text _ | thinking _ => exact hskip
    | toolCall ended text =>
      cases ended with
      | true => exact hskip
      | false =>
        rw [finishStates]
        by_cases hempty : text.length = 0
        · rw [if_pos hempty]
          exact hskip
        · obtain ⟨hopen, call, hcall⟩ := htools j text (.head _)
          rw [if_neg hempty, hcall]
          obtain ⟨message', hfin, hlen, hsame⟩ := ih
            (message.setBlock j (.toolCall { call with arguments := parseStreamingJson json text }))
            fun i t hmem => by
              obtain ⟨hi, c, hc⟩ := htools i t (.tail _ hmem)
              refine ⟨hi, ?_⟩
              by_cases hij : i = j
              · subst hij
                exact ⟨_, blockAt_set_self hcall _⟩
              · exact ⟨c, (blockAt_set _ hopen.nonneg hij).trans hc⟩
          refine ⟨message', hfin, hlen.trans (List.length_set ..), fun i hi => ?_⟩
          rw [hsame i hi]
          exact blockAt_set _ hopen.nonneg fun heq => hi (heq ▸ hopen)

/-- In every stream, whatever the shared message already holds: no event fails to be encoded, the
frames of the events up to any point reduce to a message, an ended block is in it as it ended, an
open block of characters holds all deltas so far and nothing the stream does not say, and with
all blocks ended the content is that of the final message. -/
theorem frames_of_stream (json : StreamingJson) (final : List Block) (shared : AssistantMessage U D H)
    (events : List (AssistantMessageEvent U D H)) (hvalid : Valid final [] events)
    (seen later : List (AssistantMessageEvent U D H)) (hseen : events = seen ++ later) :
    ∃ frames e message, Encoder.initial.encodeAll json (.start shared :: seen) = .ok (frames, e) ∧
      reduceAssistantMessageFrames json frames = .ok (some message) ∧
      (∀ event ∈ seen, ∀ i block, event.endsWith = some (i, block) → blockAt message.content i = some block) ∧
      (∀ event ∈ seen, ∀ i (kind : TextKind), event.starts = some (i, kind.kind) →
        (∀ event' ∈ seen, ∀ block, event'.endsWith ≠ some (i, block)) →
        ∃ block chars, blockAt message.content i = some block ∧ block.carries kind.kind chars ∧
          deltasOf i seen <+: chars ∧ chars <+: deltasOf i events) ∧
      ((∀ n : Nat, n < final.length → ∃ event ∈ seen, ∃ block, event.endsWith = some ((n : Int), block)) →
        message.content = final) := by
  subst hseen
  have hinitial : Inv final [] (seen ++ later) [] { Encoder.initial with started := true }
      (cloneStartMessage shared) [] :=
    ⟨rfl, Nat.zero_le _, Nat.zero_le _, fun _ _ => rfl, fun _ _ => rfl,
      fun _ _ ⟨_, _, h⟩ => (by cases h), .nil, fun _ _ h => (by cases h), fun _ h => (by cases h),
      fun _ ⟨_, _, h⟩ => (by cases h), fun _ h => (by cases h)⟩
  obtain ⟨frames, e, m, states, blocks, hencode, hreduce, hinv⟩ := hinitial.run json seen rfl rfl hvalid
  rw [List.nil_append] at hinv
  obtain ⟨message, hfinish, hlength, hsame⟩ := finishStates_ok json blocks m states
    fun i text hmem => by
      have hopen := hinv.tools i text (JsMap.get_of_mem hinv.keys hmem)
      obtain ⟨-, -, block, hblock, hkind⟩ := (hinv.shown i _ hopen).parts
      cases block with
      | toolCall call => exact ⟨hopen, call, hblock⟩
      | text _ | thinking _ => cases hkind
  have hended : ∀ event ∈ seen, ∀ i block, event.endsWith = some (i, block) →
      blockAt message.content i = some block ∧ blockAt final i = some block := by
    intro event hmem i block he
    obtain ⟨hend, hat, hfinal⟩ := hinv.finished event hmem i block he
    exact ⟨(hsame i fun hopen => hopen.not_ended hend).trans hat, hfinal⟩
  refine ⟨.start (cloneStartMessage shared) :: frames, e, message, ?_, ?_, fun event hmem i block he =>
    (hended event hmem i block he).1, fun event hmem i kind hs hopen => ?_, fun hall => ?_⟩
  · simp only [Encoder.encodeAll, Encoder.encode, Encoder.initial, bind, Except.bind]
    simp only [Bool.false_eq_true, if_false]
    rw [show ({ started := true, terminal := false, blocks := fun _ => none } : Encoder) =
      { Encoder.initial with started := true } from rfl, hencode]
    rfl
  · have hfold : (.start (cloneStartMessage shared) :: frames).foldlM (reduceFrame json) Reduction.initial =
        .ok ⟨some m, none, states⟩ := by
      rw [List.foldlM_cons]
      exact hreduce none
    simp only [reduceAssistantMessageFrames, hfold, bind, Except.bind, hfinish, Except.map]
  · rcases hinv.started event hmem i _ hs with hopen' | hend
    · have hshown := hinv.shown i _ hopen'
      generalize hkind : kind.kind = k at hshown
      cases hshown with
      | toolCall => cases kind <;> cases hkind
      | chars k' snapshot block hencoder hwithin hstate hat hcarries =>
        obtain rfl : kind = k' := by cases kind <;> cases k' <;> first | rfl | cases hkind
        obtain ⟨hlow, hhigh⟩ := longer_bounds hwithin
        refine ⟨block, _, ?_, hcarries, hlow, by rw [deltasOf_append]; exact hhigh⟩
        refine (hsame i fun htool => ?_).trans hat
        have := hopen'.unique htool
        cases kind <;> cases this
    · obtain ⟨event', hmem', block, he⟩ := hinv.ended i hend
      exact absurd he (hopen event' hmem' block)
  · refine List.ext_getElem? fun n => ?_
    by_cases hn : n < final.length
    · obtain ⟨event, hmem, block, he⟩ := hall n hn
      obtain ⟨hat, hfinal⟩ := hended event hmem n block he
      rw [blockAt_natCast] at hat hfinal
      rw [hat, hfinal]
    · rw [List.getElem?_eq_none (by rw [hlength, hinv.length]; exact hinv.within.trans (by omega)),
        List.getElem?_eq_none (by omega)]

/-- A message with one block of text. -/
def textMessage (text : JsString) : AssistantMessage Unit Unit Unit :=
  ⟨[.text ⟨text, none⟩], "", "", "", none, none, none, none, (), .pending, none, none, none, none, 0⟩

/-- The text `abc` in two deltas, the first half of which is there when the block starts. -/
def laggingEvents : List (AssistantMessageEvent Unit Unit Unit) :=
  [.textStart 0 (textMessage [97]), .textDelta 0 [97, 98] (textMessage [97, 98, 99]),
    .textDelta 0 [99] (textMessage [97, 98, 99]), .textEnd 0 [97, 98, 99] (textMessage [97, 98, 99])]

theorem frames_of_stream_lagging : ∃ frames e message, Encoder.initial.encodeAll ⟨Jsonl.integerFormat, fun _ => none⟩
      (.start (textMessage []) :: laggingEvents) = .ok (frames, e) ∧
    reduceAssistantMessageFrames ⟨Jsonl.integerFormat, fun _ => none⟩ frames = .ok (some message) ∧
    message.content = [.text ⟨[97, 98, 99], none⟩] := by
  have hvalid : Valid [.text ⟨[97, 98, 99], none⟩] [] laggingEvents :=
    ⟨⟨rfl, by decide, by decide, _, _, rfl, rfl, [98, 99], rfl⟩, ⟨0, rfl, rfl⟩, ⟨0, rfl, rfl⟩,
      ⟨⟨0, rfl, rfl⟩, _, rfl, rfl, rfl⟩, trivial⟩
  obtain ⟨frames, e, message, hencode, hreduce, -, -, hfinal⟩ :=
    frames_of_stream ⟨Jsonl.integerFormat, fun _ => none⟩ _ (textMessage []) laggingEvents hvalid
      laggingEvents [] rfl
  refine ⟨frames, e, message, hencode, hreduce, hfinal fun n hn => ?_⟩
  obtain rfl : n = 0 := by simpa using hn
  exact ⟨_, .tail _ (.tail _ (.tail _ (.head _))), _, rfl⟩

end Shuvpi.Frames
