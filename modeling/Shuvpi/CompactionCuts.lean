import Mathlib.Algebra.BigOperators.Intervals
import Shuvpi.Compaction
import Shuvpi.ToolLoadout

/-!
# Where a compaction cuts

The cut divides the compactable entries, it never separates a tool result from its call, and
what a projector makes of a custom entry is on neither side of it.
-/
namespace Shuvpi.Compaction

open Transcript (JsonNumbers)
open List Option

variable {R : Type}

/-! ## The loops -/

variable {entries : List (Entry R)}

theorem findTurnStartFrom_some {startIndex count k : Nat} (h : findTurnStartFrom entries startIndex count = some k) :
    startIndex ≤ k ∧ k < startIndex + count ∧ (entries[k]?).any startsTurn = true ∧
      ∀ j, k < j → j < startIndex + count → (entries[j]?).any startsTurn = false := by
  induction count with
  | zero => cases h
  | succ count ih =>
    rw [findTurnStartFrom] at h
    split at h
    · rename_i hstarts
      obtain rfl := some.inj h
      exact ⟨Nat.le_add_right _ _, by omega, hstarts, fun j hj hlt => by omega⟩
    · rename_i hnot
      obtain ⟨hle, hlt, hstarts, hlater⟩ := ih h
      refine ⟨hle, by omega, hstarts, fun j hj hbound => ?_⟩
      rcases Nat.lt_or_ge j (startIndex + count) with hj' | hj'
      · exact hlater j hj hj'
      · obtain rfl : j = startIndex + count := by omega
        exact Bool.eq_false_of_not_eq_true hnot

/-- The entries over which the cut goes back are not messages, and it stops after one. -/
theorem moveBack_spec (entries : List (Entry R)) (startIndex cutIndex : Nat)
    (hlen : cutIndex ≤ entries.length) :
    moveBack entries startIndex cutIndex ≤ cutIndex ∧ (∀ j, moveBack entries startIndex cutIndex ≤ j → j < cutIndex →
        (entries[j]?).any Entry.isMessage = false) ∧
      (moveBack entries startIndex cutIndex ≤ startIndex ∨ ∃ e,
        entries[moveBack entries startIndex cutIndex - 1]? = some e ∧ (e.isMessage ∨ e.isCompaction)) ∧
      (startIndex ≤ cutIndex → startIndex ≤ moveBack entries startIndex cutIndex) := by
  induction cutIndex with
  | zero => exact ⟨le_rfl, fun j _ hj => absurd hj (Nat.not_lt_zero j), .inl (Nat.zero_le _), fun h => h⟩
  | succ cutIndex ih =>
    rw [moveBack]
    split
    · rename_i hle
      exact ⟨le_rfl, fun j hj hlt => absurd hlt (by omega), .inl hle, fun h => h⟩
    · rename_i hgt
      obtain ⟨e, he⟩ : ∃ e, entries[cutIndex]? = some e := ⟨entries[cutIndex], getElem?_eq_getElem (by omega)⟩
      have hstop : e.isMessage ∨ e.isCompaction → cutIndex + 1 ≤ cutIndex + 1 ∧
          (∀ j, cutIndex + 1 ≤ j → j < cutIndex + 1 → (entries[j]?).any Entry.isMessage = false) ∧
          (cutIndex + 1 ≤ startIndex ∨ ∃ e, entries[cutIndex + 1 - 1]? = some e ∧ (e.isMessage ∨ e.isCompaction)) ∧
          (startIndex ≤ cutIndex + 1 → startIndex ≤ cutIndex + 1) := fun h =>
        ⟨le_rfl, fun j hj hlt => absurd hlt (by omega), .inr ⟨e, by simpa using he, h⟩, fun h => h⟩
      have hgo : e.isMessage = false → moveBack entries startIndex cutIndex ≤ cutIndex + 1 ∧
          (∀ j, moveBack entries startIndex cutIndex ≤ j → j < cutIndex + 1 →
            (entries[j]?).any Entry.isMessage = false) ∧
          (moveBack entries startIndex cutIndex ≤ startIndex ∨ ∃ e,
            entries[moveBack entries startIndex cutIndex - 1]? = some e ∧ (e.isMessage ∨ e.isCompaction)) ∧
          (startIndex ≤ cutIndex + 1 → startIndex ≤ moveBack entries startIndex cutIndex) := fun h => by
        obtain ⟨hle, hover, hafter, hstart⟩ := ih (by omega)
        refine ⟨by omega, fun j hj hlt => ?_, hafter, fun _ => hstart (by omega)⟩
        rcases Nat.lt_or_ge j cutIndex with hj' | hj'
        · exact hover j hj hj'
        · obtain rfl : j = cutIndex := by omega
          rw [he, any_some, h]
      rw [he]
      cases e with
      | message m => exact hstop (.inl rfl)
      | compaction c => exact hstop (.inr rfl)
      | branchSummary | custom => exact hgo rfl

theorem mem_findValidCutPoints {startIndex endIndex c : Nat} : c ∈ findValidCutPoints entries startIndex endIndex ↔
      startIndex ≤ c ∧ c < endIndex ∧ (entries[c]?).any isCutPoint = true := by
  rw [findValidCutPoints, mem_filter, mem_range'_1]
  constructor
  · rintro ⟨⟨hle, hlt⟩, hcut⟩
    exact ⟨hle, by omega, hcut⟩
  · rintro ⟨hle, hlt, hcut⟩
    exact ⟨⟨hle, by omega⟩, hcut⟩

theorem findValidCutPoints_sorted (entries : List (Entry R)) (startIndex endIndex : Nat) :
    (findValidCutPoints entries startIndex endIndex).Pairwise (· < ·) :=
  (pairwise_lt_range' ..).filter _

section Cut
variable (numbers : JsonNumbers)

theorem chosenCut_mem (entries : List (Entry R)) (startIndex endIndex : Nat) (budget : TokenBudget)
    (first : Nat) (rest : List Nat) :
    chosenCut numbers entries startIndex endIndex budget first (first :: rest) ∈ first :: rest := by
  rw [chosenCut]
  split
  · exact mem_cons_self
  · rename_i i _
    cases hfind : (first :: rest).find? (i ≤ ·) with
    | none => exact mem_cons_self
    | some c => exact mem_of_find?_eq_some hfind

/-- What is known of the cut of all the entries of a list. -/
structure CutOk (entries : List (Entry R)) (r : CutPointResult) : Prop where
  bound : r.firstKeptEntryIndex ≤ entries.length
  start : ∀ k, r.turnStartIndex = some k → k ≤ r.firstKeptEntryIndex ∧ (entries[k]?).any startsTurn = true ∧
      ∀ j, k < j → j ≤ r.firstKeptEntryIndex → (entries[j]?).any startsTurn = false
  split : r.isSplitTurn = r.turnStartIndex.isSome
  /-- Between the cut and the entry that it was chosen at there is no message, and that entry
  is a message that is no tool result, or a branch summary; nothing is cut off otherwise. -/
  chosen : r.firstKeptEntryIndex = 0 ∨ ∃ c, r.firstKeptEntryIndex ≤ c ∧ (entries[c]?).any isCutPoint = true ∧
    ∀ j, r.firstKeptEntryIndex ≤ j → j < c → (entries[j]?).any Entry.isMessage = false

theorem findCutPoint_ok (entries : List (Entry R)) (budget : TokenBudget) :
    CutOk entries (findCutPoint numbers entries 0 entries.length budget) := by
  rw [findCutPoint]
  split
  · exact ⟨Nat.zero_le _, fun k hk => (by cases hk), rfl, .inl rfl⟩
  · rename_i first rest hcuts
    have hmem := chosenCut_mem numbers entries 0 entries.length budget first rest
    generalize chosenCut numbers entries 0 entries.length budget first (first :: rest) = c at hmem ⊢
    rw [← hcuts, mem_findValidCutPoints] at hmem
    obtain ⟨-, hlt, hcut⟩ := hmem
    obtain ⟨hle, hover, -, -⟩ := moveBack_spec entries 0 c hlt.le
    dsimp only
    refine ⟨hle.trans hlt.le, fun k hk => ?_, ?_, .inr ⟨c, hle, hcut, hover⟩⟩
    · split at hk
      · cases hk
      · obtain ⟨-, hbound, hstarts, hlater⟩ := findTurnStartFrom_some hk
        dsimp only
        exact ⟨by omega, hstarts, fun j hj hle => hlater j hj (by omega)⟩
    · split
      · rename_i huser
        rw [huser]
        rfl
      · rename_i huser
        rw [Bool.eq_false_of_not_eq_true huser]
        rfl

/-! ## The parts of a preparation -/

theorem messagesOf_append (a b : List (Entry R)) : messagesOf (a ++ b) = messagesOf a ++ messagesOf b :=
  filterMap_append

theorem messagesOf_message (messages : List (AgentMessage R)) : messagesOf (messages.map .message) = messages := by
  induction messages with
  | nil => rfl
  | cons m messages ih =>
    rw [map_cons, messagesOf, filterMap_cons]
    exact congrArg (m :: ·) ih

variable {pathEntries : List (Entry R)} {settings : CompactionSettings} {p : CompactionPreparation R}
variable (h : prepareCompaction numbers pathEntries settings = some p)
include h

/-- The parts of a preparation, over the cut that it was made with. -/
theorem prepareCompaction_parts :
    ∃ r, r = findCutPoint numbers (compactableEntries pathEntries) 0 (compactableEntries pathEntries).length
        settings.keepRecentTokens ∧
      p.retainedTail = messagesOf ((compactableEntries pathEntries).drop r.firstKeptEntryIndex) ∧
      ((r.turnStartIndex = none ∧
          p.messagesToSummarize = messagesOf ((compactableEntries pathEntries).take r.firstKeptEntryIndex) ∧
          p.turnPrefixMessages = []) ∨
        ∃ k, r.turnStartIndex = some k ∧
          p.messagesToSummarize = messagesOf ((compactableEntries pathEntries).take k) ∧
          p.turnPrefixMessages =
            messagesOf (((compactableEntries pathEntries).take r.firstKeptEntryIndex).drop k)) := by
  rw [prepareCompaction] at h
  split at h
  · cases h
  · have hok := findCutPoint_ok numbers (compactableEntries pathEntries) settings.keepRecentTokens
    dsimp only at h
    generalize findCutPoint numbers (compactableEntries pathEntries) 0 (compactableEntries pathEntries).length
      settings.keepRecentTokens = r at h hok ⊢
    obtain rfl := some.inj h
    refine ⟨r, rfl, rfl, ?_⟩
    cases hstart : r.turnStartIndex with
    | none =>
      have hsplit : r.isSplitTurn = false := by rw [hok.split, hstart]; rfl
      exact .inl ⟨rfl, by rw [hsplit]; rfl, by rw [hsplit]; rfl⟩
    | some k =>
      have hsplit : r.isSplitTurn = true := by rw [hok.split, hstart]; rfl
      exact .inr ⟨k, rfl, by rw [hsplit]; rfl, by rw [hsplit]; rfl⟩

/-- What is summarised is what comes before the cut. -/
theorem summarized_eq : p.messagesToSummarize ++ p.turnPrefixMessages =
      messagesOf ((compactableEntries pathEntries).take (findCutPoint numbers (compactableEntries pathEntries)
        0 (compactableEntries pathEntries).length settings.keepRecentTokens).firstKeptEntryIndex) := by
  obtain ⟨r, hr, -, hparts⟩ := prepareCompaction_parts numbers h
  have hok := findCutPoint_ok numbers (compactableEntries pathEntries) settings.keepRecentTokens
  rw [← hr] at hok ⊢
  rcases hparts with ⟨-, hsumm, hturn⟩ | ⟨k, hk, hsumm, hturn⟩
  · rw [hsumm, hturn, append_nil]
  · have htake : (compactableEntries pathEntries).take k =
        ((compactableEntries pathEntries).take r.firstKeptEntryIndex).take k := by
      rw [take_take, min_eq_left (hok.start k hk).1]
    rw [hsumm, hturn, htake, ← messagesOf_append, take_append_drop]

/-- The parts make up the messages of the compactable entries. -/
theorem parts_append : p.messagesToSummarize ++ p.turnPrefixMessages ++ p.retainedTail =
      messagesOf (compactableEntries pathEntries) := by
  obtain ⟨r, hr, htail, -⟩ := prepareCompaction_parts numbers h
  rw [summarized_eq numbers h, htail, ← hr, ← messagesOf_append, take_append_drop]

omit h

/-- The messages that the last compaction retained. -/
def previousTail (pathEntries : List (Entry R)) : List (AgentMessage R) :=
  (lastCompaction pathEntries).elim [] fun found => found.1.retainedTail

/-- The entries after the last compaction. -/
def laterEntries (pathEntries : List (Entry R)) : List (Entry R) :=
  (lastCompaction pathEntries).elim pathEntries Prod.snd

theorem compactableEntries_eq (pathEntries : List (Entry R)) :
    compactableEntries pathEntries = (previousTail pathEntries).map .message ++ laterEntries pathEntries := by
  rw [compactableEntries, previousTail, laterEntries]
  cases lastCompaction pathEntries <;> rfl

theorem lastCompaction_none (h : lastCompaction pathEntries = none) :
    ∀ e ∈ pathEntries, e.isCompaction = false := by
  induction pathEntries with
  | nil => exact forall_mem_nil _
  | cons e rest ih =>
    cases hrest : lastCompaction rest with
    | some found => simp [lastCompaction, hrest] at h
    | none =>
      cases e with
      | compaction entry => simp [lastCompaction, hrest] at h
      | message | branchSummary | custom => exact forall_mem_cons.mpr ⟨rfl, ih hrest⟩

/-- The last compaction splits the path, and there is none after it. -/
theorem lastCompaction_some {later : List (Entry R)} {entry : CompactionEntry R}
    (h : lastCompaction pathEntries = some (entry, later)) :
    (∃ front, pathEntries = front ++ .compaction entry :: later) ∧ ∀ e ∈ later, e.isCompaction = false := by
  induction pathEntries with
  | nil => cases h
  | cons e rest ih =>
    cases hrest : lastCompaction rest with
    | some found =>
      simp only [lastCompaction, hrest, some.injEq] at h
      obtain ⟨⟨front, rfl⟩, hlater⟩ := ih (hrest.trans (congrArg some h))
      exact ⟨⟨e :: front, rfl⟩, hlater⟩
    | none =>
      cases e with
      | compaction entry' =>
        simp only [lastCompaction, hrest, some.injEq, Prod.mk.injEq] at h
        obtain ⟨rfl, rfl⟩ := h
        exact ⟨⟨[], rfl⟩, lastCompaction_none hrest⟩
      | message | branchSummary | custom => simp [lastCompaction, hrest] at h

/-- Every tool result comes after an assistant message with its call, with only tool results
between them. -/
def ToolResultsFollow (entries : List (Entry R)) : Prop := ∀ before toolCallId content rest after,
    entries = before ++ .message (.toolResult toolCallId content rest) :: after →
    ∃ front assistant results, before = front ++ .message assistant :: results ∧
      (∃ call ∈ assistant.toolCalls, call.callId = toolCallId) ∧
      ∀ e ∈ results, ∃ m, e = .message m ∧ m.isToolResult = true

variable {m : AgentMessage R}

theorem mem_messagesOf {entries : List (Entry R)} : m ∈ messagesOf entries ↔ .message m ∈ entries ∨
      ∃ summary fromId timestamp, .branchSummary summary fromId timestamp ∈ entries ∧
        m = .branchSummary summary fromId timestamp := by
  rw [messagesOf, mem_filterMap]
  constructor
  · rintro ⟨e, he, hm⟩
    cases e with
    | message m' =>
      obtain rfl := some.inj hm
      exact .inl he
    | branchSummary s f t => exact .inr ⟨s, f, t, he, (some.inj hm).symm⟩
    | compaction | custom => cases hm
  · rintro (he | ⟨s, f, t, he, rfl⟩)
    · exact ⟨_, he, rfl⟩
    · exact ⟨_, he, rfl⟩

/-- The cut leaves a tool result with its call. -/
theorem retained_calls {entries : List (Entry R)} (hfollow : ToolResultsFollow entries) {r : CutPointResult}
    (hok : CutOk entries r) {toolCallId : JsString} {content : Content} {rest : R}
    (hm : .toolResult toolCallId content rest ∈ messagesOf (entries.drop r.firstKeptEntryIndex)) :
    ∃ m ∈ messagesOf (entries.drop r.firstKeptEntryIndex), ∃ call ∈ m.toolCalls, call.callId = toolCallId := by
  rcases mem_messagesOf.mp hm with he | ⟨s, f, t, -, heq⟩
  · obtain ⟨before, after, hdrop⟩ := append_of_mem he
    have hwhole : entries = (entries.take r.firstKeptEntryIndex ++ before) ++
        .message (.toolResult toolCallId content rest) :: after := by
      rw [append_assoc, ← hdrop, take_append_drop]
    obtain ⟨front, assistant, results, hsplit, hcall, hress⟩ := hfollow _ _ _ _ _ hwhole
    have hlen : (entries.take r.firstKeptEntryIndex).length = r.firstKeptEntryIndex := by
      rw [length_take, min_eq_left hok.bound]
    rcases Nat.lt_or_ge front.length r.firstKeptEntryIndex with hcut | hcut
    · -- the cut would be at one of the tool results that follow the assistant
      exfalso
      rcases hok.chosen with hzero | ⟨c, hle, hc, hover⟩
      · omega
      · have hat : ∀ j, front.length < j → j ≤ (front ++ .message assistant :: results).length →
            ∃ m, entries[j]? = some (.message m) ∧ m.isToolResult = true := by
          intro j hj hbound
          rw [hwhole, hsplit]
          rcases Nat.lt_or_ge j (front ++ .message assistant :: results).length with hlt | hge
          · rw [getElem?_append_left hlt, getElem?_append_right hj.le]
            obtain ⟨n, hn⟩ := Nat.exists_eq_add_of_lt hj
            rw [show j - front.length = n + 1 by omega, getElem?_cons_succ]
            have hbound : n < results.length := by
              rw [length_append, length_cons] at hlt
              omega
            rw [getElem?_eq_getElem hbound]
            obtain ⟨m, hm, htool⟩ := hress _ (getElem_mem hbound)
            exact ⟨m, by rw [hm], htool⟩
          · obtain rfl : j = (front ++ .message assistant :: results).length := by omega
            rw [getElem?_append_right le_rfl, Nat.sub_self, getElem?_cons_zero]
            exact ⟨_, rfl, rfl⟩
        have hposition : r.firstKeptEntryIndex ≤ (front ++ .message assistant :: results).length := by
          rw [← hsplit, length_append, hlen]
          omega
        obtain ⟨m, hfirst, htool⟩ := hat r.firstKeptEntryIndex hcut hposition
        rcases Nat.lt_or_ge r.firstKeptEntryIndex c with hlt | hge
        · have hnone := hover r.firstKeptEntryIndex le_rfl hlt
          rw [hfirst] at hnone
          cases hnone
        · obtain rfl : r.firstKeptEntryIndex = c := by omega
          rw [hfirst, any_some, isCutPoint, htool] at hc
          cases hc
    · obtain ⟨call, hmem, hid⟩ := hcall
      refine ⟨assistant, mem_messagesOf.mpr (.inl ?_), call, hmem, hid⟩
      have hkept : entries.drop r.firstKeptEntryIndex =
          (front.drop r.firstKeptEntryIndex ++ .message assistant :: results) ++
            .message (.toolResult toolCallId content rest) :: after := by
        rw [hwhole, hsplit, append_assoc, drop_append_of_le_length hcut, append_assoc]
      rw [hkept]
      simp
  · cases heq

theorem toolResultsFollow_compactable (hpath : ToolResultsFollow pathEntries)
    (htail : ToolResultsFollow ((previousTail pathEntries).map Entry.message)) :
    ToolResultsFollow (compactableEntries pathEntries) := by
  cases hlast : lastCompaction pathEntries with
  | none =>
    rw [compactableEntries, hlast]
    exact hpath
  | some found =>
    obtain ⟨entry, later⟩ := found
    obtain ⟨⟨front, hsplit⟩, -⟩ := lastCompaction_some hlast
    rw [previousTail, hlast] at htail
    rw [compactableEntries, hlast]
    intro before toolCallId content rest after hres
    rcases append_eq_append_iff.mp hres with ⟨before', rfl, hlater⟩ | ⟨rest', htails, hrest⟩
    · -- the result is after the compaction, and so is its assistant
      have hwhole : pathEntries = (front ++ .compaction entry :: before') ++
          .message (.toolResult toolCallId content rest) :: after := by
        rw [hsplit, hlater]
        simp
      obtain ⟨front', assistant, results, hbef, hcall, hress⟩ := hpath _ _ _ _ _ hwhole
      rcases append_eq_append_iff.mp hbef with ⟨a, -, ha⟩ | ⟨c, -, hc⟩
      · cases a with
        | nil => cases (cons.inj ha).1
        | cons x a =>
          obtain ⟨-, rfl⟩ := cons.inj ha
          exact ⟨entry.retainedTail.map .message ++ a, assistant, results,
          (append_assoc _ a (.message assistant :: results)).symm, hcall, hress⟩
      · cases c with
        | nil => cases (cons.inj hc).1
        | cons x c =>
          obtain ⟨m, hm, -⟩ := hress (.compaction entry) (by rw [(cons.inj hc).2]; simp)
          cases hm
    · cases rest' with
      | nil =>
        rw [append_nil] at htails
        have hlater : .message (.toolResult toolCallId content rest) :: after = later := hrest
        have hwhole : pathEntries = (front ++ [.compaction entry]) ++
            .message (.toolResult toolCallId content rest) :: after := by
          rw [hsplit, ← hlater]
          simp
        obtain ⟨front', assistant, results, hbef, -, hress⟩ := hpath _ _ _ _ _ hwhole
        exfalso
        rcases eq_nil_or_concat results with rfl | ⟨results, e, rfl⟩
        · cases (cons.inj (append_inj' hbef rfl).2).1
        · rw [concat_eq_append] at hbef hress
          have hends : front ++ [.compaction entry] = (front' ++ .message assistant :: results) ++ [e] := by
            rw [hbef]
            simp
          obtain ⟨m, hm, -⟩ := hress e (by simp)
          have hlast := (cons.inj (append_inj' hends rfl).2).1
          rw [hm] at hlast
          cases hlast
      | cons x rest' =>
        obtain ⟨rfl, hafter⟩ := cons.inj hrest
        exact htail _ _ _ _ _ htails

/-- A preparation divides the messages of the previous retained tail and of the entries after
it, keeps tool results with their calls, and its prefix is the opening of a turn. -/
theorem prepareCompaction_partition {pathEntries : List (Entry R)} {settings : CompactionSettings}
    {p : CompactionPreparation R} (h : prepareCompaction numbers pathEntries settings = some p)
    (hpath : ToolResultsFollow pathEntries)
    (htail : ToolResultsFollow ((previousTail pathEntries).map Entry.message)) :
    p.messagesToSummarize ++ p.turnPrefixMessages ++ p.retainedTail =
      previousTail pathEntries ++ messagesOf (laterEntries pathEntries) ∧
    (∀ toolCallId content rest, .toolResult toolCallId content rest ∈ p.retainedTail →
      ∃ m ∈ p.retainedTail, ∃ call ∈ m.toolCalls, call.callId = toolCallId) ∧
    (p.turnPrefixMessages ≠ [] → ∃ front first turn back,
      compactableEntries pathEntries = front ++ first :: (turn ++ back) ∧ startsTurn first = true ∧
      (∀ e ∈ turn, startsTurn e = false) ∧ p.messagesToSummarize = messagesOf front ∧
      p.turnPrefixMessages = messagesOf (first :: turn) ∧ p.retainedTail = messagesOf back ∧
      p.turnPrefixMessages.head? = getMessageFromEntryForCompaction first) := by
  refine ⟨?_, fun toolCallId content rest hm => ?_, fun hprefix => ?_⟩
  · rw [parts_append numbers h, compactableEntries_eq, messagesOf_append, messagesOf_message]
  · obtain ⟨r, hr, hretained, -⟩ := prepareCompaction_parts numbers h
    have hok := findCutPoint_ok numbers (compactableEntries pathEntries) settings.keepRecentTokens
    rw [← hr] at hok
    rw [hretained] at hm ⊢
    exact retained_calls (toolResultsFollow_compactable hpath htail) hok hm
  · obtain ⟨r, hr, hretained, hparts⟩ := prepareCompaction_parts numbers h
    have hok := findCutPoint_ok numbers (compactableEntries pathEntries) settings.keepRecentTokens
    rw [← hr] at hok
    rcases hparts with ⟨-, -, hempty⟩ | ⟨k, hk, hsummarize, hturn⟩
    · exact absurd hempty hprefix
    · obtain ⟨hle, hstarts, hlater⟩ := hok.start k hk
      generalize compactableEntries pathEntries = entries at *
      obtain ⟨first, hfirst, hfirststarts⟩ : ∃ first, entries[k]? = some first ∧ startsTurn first = true := by
        cases hget : entries[k]? with
        | none =>
          rw [hget] at hstarts
          cases hstarts
        | some first =>
          rw [hget] at hstarts
          exact ⟨first, rfl, hstarts⟩
      have hlt : k < r.firstKeptEntryIndex := by
        by_contra hnot
        rw [hturn, List.drop_of_length_le (by rw [List.length_take]; omega)] at hprefix
        exact hprefix rfl
      obtain ⟨hbound, hget⟩ := List.getElem?_eq_some_iff.mp hfirst
      have hdrop : (entries.take r.firstKeptEntryIndex).drop k =
          first :: (entries.take r.firstKeptEntryIndex).drop (k + 1) := by
        rw [List.drop_eq_getElem_cons (by rw [List.length_take]; omega), List.getElem_take, hget]
      have hmessage : ∃ m, getMessageFromEntryForCompaction first = some m := by
        cases first with
        | message m => exact ⟨m, rfl⟩
        | branchSummary s f t => exact ⟨_, rfl⟩
        | compaction | custom => cases hfirststarts
      obtain ⟨m, hm⟩ := hmessage
      refine ⟨entries.take k, first, (entries.take r.firstKeptEntryIndex).drop (k + 1),
        entries.drop r.firstKeptEntryIndex, ?_, hfirststarts, fun e he => ?_, hsummarize,
        by rw [hturn, hdrop], hretained, ?_⟩
      · rw [← List.cons_append, ← hdrop]
        have htake : entries.take k = (entries.take r.firstKeptEntryIndex).take k := by
          rw [List.take_take, min_eq_left hle]
        rw [htake, ← List.append_assoc, List.take_append_drop, List.take_append_drop]
      · obtain ⟨n, hn, rfl⟩ := List.getElem_of_mem he
        rw [List.length_drop, List.length_take] at hn
        have hnone := hlater (k + 1 + n) (by omega) (by omega)
        rw [List.getElem?_eq_getElem (by omega), Option.any_some] at hnone
        rwa [List.getElem_drop, List.getElem_take]
      · rw [hturn, hdrop, messagesOf, List.filterMap_cons, hm]
        rfl

/-- After a compaction that retained a message and the beginning of a turn, a call with its result, and an answer. -/
def compactedCall : List (Entry Unit) := [
  .compaction ⟨[115], [.user (.string [97]) (), .user (.string [98]) (), .assistant [.text [99]] .stop none ()], 9, none, 0⟩,
  .message (.assistant [.toolCall ⟨[49], [114], .null⟩] .toolUse none ()),
  .message (.toolResult [49] (.string [100]) ()),
  .message (.assistant [.text [101]] .stop none ())]

theorem compactedCall_follows : ToolResultsFollow compactedCall := by
  intro before toolCallId content rest after h
  match before, h with
  | [], h => cases h
  | [_], h => cases h
  | [a, b], h =>
    cases h
    exact ⟨[_], _, [], rfl, ⟨_, mem_singleton_self _, rfl⟩, forall_mem_nil _⟩
  | [_, _, _], h => cases h
  | _ :: _ :: _ :: _ :: before, h => cases before <;> cases h

theorem prepareCompaction_partition_split : ∃ p,
    prepareCompaction Transcript.integerNumbers compactedCall ⟨true, 0, some 3⟩ = some p ∧
      p.messagesToSummarize ++ p.turnPrefixMessages ++ p.retainedTail = messagesOf (compactableEntries compactedCall) ∧
      p.messagesToSummarize.length = 1 ∧ p.turnPrefixMessages.length = 2 ∧
      ∃ m ∈ p.retainedTail, ∃ call ∈ m.toolCalls, call.callId = [49] := by
  have htail : ToolResultsFollow ((previousTail compactedCall).map Entry.message) := by
    intro before _ _ _ after h
    match before, h with
    | [], h => cases h
    | [_], h => cases h
    | [_, _], h => cases h
    | _ :: _ :: _ :: before, h => cases before <;> cases h
  have hparts := prepareCompaction_partition Transcript.integerNumbers
    (show prepareCompaction _ compactedCall ⟨true, 0, some 3⟩ = some _ from rfl) compactedCall_follows htail
  refine ⟨_, rfl, ?_, by decide, by decide, hparts.2.1 [49] (.string [100]) () ?_⟩
  · exact hparts.1
  · exact .tail _ (.head _)

/-! ## Progress -/

def tokensAt (entries : List (Entry R)) (i : Nat) : Nat :=
  match entries[i]? with
  | some (.message message) => estimateTokens numbers message
  | _ => 0

/-- The estimated tokens of the message entries from `i` on, before `j`. -/
def tokensIn (entries : List (Entry R)) (i j : Nat) : Nat := ∑ k ∈ Finset.Ico i j, tokensAt numbers entries k

/-- The last message from which on the messages reach the budget, with `accumulated` after them. -/
structure BudgetReached (entries : List (Entry R)) (startIndex endIndex : Nat) (budget : TokenBudget)
    (accumulated i : Nat) : Prop where
  start : startIndex ≤ i
  bound : i < endIndex
  message : (entries[i]?).any Entry.isMessage = true
  reached : reaches (accumulated + tokensIn numbers entries i endIndex) budget = true
  last : ∀ j, i < j → j < endIndex → (entries[j]?).any Entry.isMessage = true →
    reaches (accumulated + tokensIn numbers entries j endIndex) budget = false

theorem tokensIn_succ (entries : List (Entry R)) {i j : Nat} (h : i ≤ j) :
    tokensIn numbers entries i (j + 1) = tokensIn numbers entries i j + tokensAt numbers entries j :=
  Finset.sum_Ico_succ_top h _

theorem budgetIndex_eq {entries : List (Entry R)} {budget : TokenBudget} {startIndex count accumulated i : Nat}
    (h : BudgetReached numbers entries startIndex (startIndex + count) budget accumulated i) :
    budgetIndex numbers entries budget startIndex count accumulated = some i := by
  induction count generalizing accumulated with
  | zero =>
    have hstart := h.start
    have hbound := h.bound
    omega
  | succ count ih =>
    have hbound := h.bound
    rw [← Nat.add_assoc] at h hbound
    rcases Nat.lt_or_ge i (startIndex + count) with hlt | hge
    · have hnext : BudgetReached numbers entries startIndex (startIndex + count) budget
          (accumulated + tokensAt numbers entries (startIndex + count)) i := by
        refine ⟨h.start, hlt, h.message, ?_, fun j hj hlt hm => ?_⟩
        · have hreach := h.reached
          rwa [tokensIn_succ numbers entries hlt.le, ← Nat.add_assoc, Nat.add_right_comm] at hreach
        · have hlast := h.last j hj (by omega) hm
          rwa [tokensIn_succ numbers entries hlt.le, ← Nat.add_assoc, Nat.add_right_comm] at hlast
      have hrest := ih hnext
      have hat : tokensAt numbers entries (startIndex + count) =
          tokensIn numbers entries (startIndex + count) (startIndex + count + 1) := by
        rw [tokensIn_succ numbers entries le_rfl, tokensIn, Finset.Ico_self, Finset.sum_empty, Nat.zero_add]
      unfold budgetIndex
      split
      · rename_i message hmsg
        have hlast := h.last (startIndex + count) hlt (by omega) (by rw [hmsg]; rfl)
        rw [← hat] at hlast
        have htokens : tokensAt numbers entries (startIndex + count) = estimateTokens numbers message := by
          rw [tokensAt, hmsg]
        rw [htokens] at hlast hrest
        dsimp only
        rw [hlast, if_neg Bool.false_ne_true, hrest]
      · rename_i hnot
        have htokens : tokensAt numbers entries (startIndex + count) = 0 := by
          rw [tokensAt]
          split
          · rename_i m hm
            exact (hnot m hm).elim
          · rfl
        rwa [htokens, Nat.add_zero] at hrest
    · obtain rfl : i = startIndex + count := by omega
      have hreach := h.reached
      rw [tokensIn_succ numbers entries le_rfl, tokensIn, Finset.Ico_self, Finset.sum_empty, Nat.zero_add]
        at hreach
      have hmsg := h.message
      unfold budgetIndex
      split
      · rename_i message hm
        rw [tokensAt, hm] at hreach
        rw [if_pos hreach]
      · rename_i hnot
        cases hget : entries[startIndex + count]? with
        | none =>
          rw [hget] at hmsg
          cases hmsg
        | some e =>
          cases e with
          | message m => exact (hnot m hget).elim
          | compaction | branchSummary | custom =>
            rw [hget] at hmsg
            cases hmsg

/-- The first number of a sorted list that is at least `i`. -/
theorem find?_least {l : List Nat} (hsort : l.Pairwise (· < ·)) {i c : Nat} (hc : c ∈ l) (hic : i ≤ c)
    (hleast : ∀ c' ∈ l, i ≤ c' → c ≤ c') : l.find? (i ≤ ·) = some c := by
  induction l with
  | nil => cases hc
  | cons a l ih =>
    obtain ⟨ha, hrest⟩ := pairwise_cons.mp hsort
    by_cases hia : i ≤ a
    · have hca := hleast a mem_cons_self hia
      rcases mem_cons.mp hc with rfl | hc
      · exact find?_cons_of_pos (by simpa using hia)
      · exact absurd (ha c hc) (by omega)
    · rw [find?_cons_of_neg (by simpa using hia)]
      rcases mem_cons.mp hc with rfl | hc
      · exact absurd hic hia
      · exact ih hrest hc fun c' hc' => hleast c' (mem_cons_of_mem _ hc')

/-- Where a valid cut point is at or after the message that reaches the budget, and a message
is at or after the first one and before it, the cut is later than the first valid cut point,
and a compaction summarises something. -/
theorem findCutPoint_later (entries : List (Entry R)) (startIndex endIndex : Nat) (budget : TokenBudget)
    {first c i j : Nat} (hcuts : (findValidCutPoints entries startIndex endIndex).head? = some first)
    (hi : BudgetReached numbers entries startIndex endIndex budget 0 i)
    (hc : c ∈ findValidCutPoints entries startIndex endIndex) (hic : i ≤ c)
    (hleast : ∀ c' ∈ findValidCutPoints entries startIndex endIndex, i ≤ c' → c ≤ c')
    (hj : (entries[j]?).any Entry.isMessage = true) (hfirst : first ≤ j) (hjc : j < c) :
    first < (findCutPoint numbers entries startIndex endIndex budget).firstKeptEntryIndex ∧
      ∀ pathEntries settings p, compactableEntries pathEntries = entries → startIndex = 0 →
        endIndex = entries.length → settings.keepRecentTokens = budget →
        prepareCompaction numbers pathEntries settings = some p →
        p.messagesToSummarize ++ p.turnPrefixMessages ≠ [] := by
  have hlater : first < (findCutPoint numbers entries startIndex endIndex budget).firstKeptEntryIndex := by
    obtain ⟨rest, hlist⟩ := List.head?_eq_some_iff.mp hcuts
    have hcount : startIndex + (endIndex - startIndex) = endIndex := by
      have hstart := hi.start
      have hbound := hi.bound
      omega
    have hchosen : chosenCut numbers entries startIndex endIndex budget first (first :: rest) = c := by
      rw [chosenCut, budgetIndex_eq numbers (by rw [hcount]; exact hi), ← hlist]
      dsimp only
      rw [find?_least (findValidCutPoints_sorted _ _ _) hc hic hleast]
      rfl
    obtain ⟨-, hlt, hcut⟩ := mem_findValidCutPoints.mp hc
    have hlength : c ≤ entries.length := by
      by_contra hnot
      rw [List.getElem?_eq_none (by omega)] at hcut
      cases hcut
    obtain ⟨-, hover, -, -⟩ := moveBack_spec entries startIndex c hlength
    rw [findCutPoint, hlist]
    dsimp only
    rw [hchosen]
    by_contra hnot
    rw [hover j (by omega) hjc] at hj
    cases hj
  refine ⟨hlater, fun pathEntries settings p hentries hstart hend hbudget h hempty => ?_⟩
  subst hstart hend hbudget hentries
  have hfirst := (mem_findValidCutPoints.mp (List.mem_of_mem_head? hcuts)).2.2
  rw [summarized_eq numbers h] at hempty
  cases hget : (compactableEntries pathEntries)[first]? with
  | none =>
    rw [hget] at hfirst
    cases hfirst
  | some e =>
    rw [hget, Option.any_some] at hfirst
    obtain ⟨m, hm⟩ : ∃ m, getMessageFromEntryForCompaction e = some m := by
      cases e with
      | message m => exact ⟨m, rfl⟩
      | branchSummary s f t => exact ⟨_, rfl⟩
      | compaction | custom => cases hfirst
    have hmem : e ∈ (compactableEntries pathEntries).take (findCutPoint numbers
        (compactableEntries pathEntries) 0 (compactableEntries pathEntries).length
        settings.keepRecentTokens).firstKeptEntryIndex := by
      refine List.mem_of_getElem? (i := first) ?_
      rw [List.getElem?_take_of_lt hlater, hget]
    have hin : m ∈ messagesOf ((compactableEntries pathEntries).take (findCutPoint numbers
        (compactableEntries pathEntries) 0 (compactableEntries pathEntries).length
        settings.keepRecentTokens).firstKeptEntryIndex) := List.mem_filterMap.mpr ⟨e, hmem, hm⟩
    rw [hempty] at hin
    cases hin

/-- A user message, a call with its result, and an answer. -/
def sampleCall : List (Entry Unit) := [
  .message (.user (.string [97]) ()),
  .message (.assistant [.toolCall ⟨[49], [114], .null⟩] .toolUse none ()),
  .message (.toolResult [49] (.string [98]) ()),
  .message (.assistant [.text [99]] .stop none ())]

/-- The last message alone reaches the budget, and an earlier one is a cut point. -/
theorem findCutPoint_later_sample : 0 < (findCutPoint Transcript.integerNumbers sampleCall 0 4 (some 1)).firstKeptEntryIndex := by
  refine (findCutPoint_later Transcript.integerNumbers sampleCall 0 4 (some 1) (c := 3) (i := 3) (j := 2)
    (by decide) ?_ (by decide) le_rfl (by decide) (by decide) (by decide) (by decide)).1
  exact ⟨by decide, by decide, by decide, by decide, fun j hj hlt => by omega⟩

/-- Only the first message reaches the budget: both messages are kept, although the second is
a valid cut point. -/
theorem findCutPoint_first : let entries : List (Entry Unit) :=
      [.message (.user (.string [97]) ()), .message (.assistant [.text [99]] .stop none ())]
    reaches (tokensIn Transcript.integerNumbers entries 0 2) (some 2) = true ∧
      findValidCutPoints entries 0 2 = [0, 1] ∧
      (findCutPoint Transcript.integerNumbers entries 0 2 (some 2)).firstKeptEntryIndex = 0 ∧
      ∃ p, prepareCompaction Transcript.integerNumbers entries ⟨true, 0, some 2⟩ = some p ∧
        p.messagesToSummarize ++ p.turnPrefixMessages = [] :=
  ⟨by decide, by decide, by decide, _, rfl, rfl⟩

/-! ## Projected entries -/

/-- What `buildSessionContext` makes of the custom entries of a path. -/
def projected (entryProjectors : EntryProjectors R) (pathEntries : List (Entry R)) : List (AgentMessage R) :=
  (buildContextEntries pathEntries).flatMap fun
    | .custom entry => project entryProjectors entry
    | _ => []

theorem mem_projected {entryProjectors : EntryProjectors R} : m ∈ projected entryProjectors pathEntries ↔
      ∃ entry, .custom entry ∈ laterEntries pathEntries ∧ m ∈ project entryProjectors entry := by
  have hmem : ∀ entry, Entry.custom entry ∈ buildContextEntries pathEntries ↔
      .custom entry ∈ laterEntries pathEntries := fun entry => by
    rw [buildContextEntries, laterEntries]
    cases lastCompaction pathEntries with
    | none => rfl
    | some found =>
      rw [mem_cons]
      exact or_iff_right fun h => by cases h
  rw [projected, mem_flatMap]
  constructor
  · rintro ⟨e, he, hm⟩
    cases e with
    | custom entry => exact ⟨entry, (hmem entry).mp he, hm⟩
    | message | compaction | branchSummary => cases hm
  · rintro ⟨entry, he, hm⟩
    exact ⟨.custom entry, (hmem entry).mpr he, hm⟩

/-- Projected messages survive a compaction if and only if each of them is also the message of
an entry of another kind, or of the previous retained tail. -/
theorem projected_survive {pathEntries : List (Entry R)} {settings : CompactionSettings}
    {p : CompactionPreparation R} (h : prepareCompaction numbers pathEntries settings = some p)
    (entryProjectors : EntryProjectors R) :
    (∀ m ∈ projected entryProjectors pathEntries,
        m ∈ p.messagesToSummarize ++ p.turnPrefixMessages ∨ m ∈ p.retainedTail) ↔
      ∀ entry, .custom entry ∈ laterEntries pathEntries → ∀ m ∈ project entryProjectors entry,
        m ∈ previousTail pathEntries ∨ .message m ∈ laterEntries pathEntries ∨
          ∃ summary fromId timestamp, .branchSummary summary fromId timestamp ∈ laterEntries pathEntries ∧
            m = .branchSummary summary fromId timestamp := by
  have hparts : ∀ m, (m ∈ p.messagesToSummarize ++ p.turnPrefixMessages ∨ m ∈ p.retainedTail) ↔
      m ∈ previousTail pathEntries ∨ .message m ∈ laterEntries pathEntries ∨
        ∃ summary fromId timestamp, .branchSummary summary fromId timestamp ∈ laterEntries pathEntries ∧
          m = .branchSummary summary fromId timestamp := fun m => by
    rw [← List.mem_append, parts_append numbers h, compactableEntries_eq, messagesOf_append,
      messagesOf_message, List.mem_append, mem_messagesOf]
  constructor
  · exact fun hall entry he m hm => (hparts m).mp (hall m (mem_projected.mpr ⟨entry, he, hm⟩))
  · intro hall m hm
    obtain ⟨entry, he, hm⟩ := mem_projected.mp hm
    exact (hparts m).mpr (hall entry he m hm)

end Cut

/-- A note before an answer, which a projector shows as a message. -/
def sampleNote : List (Entry Unit) := [
  .message (.user (.string [97]) ()), .custom ⟨[110], none⟩,
  .message (.assistant [.text [99]] .stop none ())]

def noteProjectors (content : Content) : EntryProjectors Unit := fun customType =>
  if customType = [110] then some fun _ => some [.user content ()] else none

/-- The note says what the user message says. -/
theorem projected_survive_same : ∃ p,
    prepareCompaction Transcript.integerNumbers sampleNote ⟨true, 0, some 1⟩ = some p ∧
      ∀ m ∈ projected (noteProjectors (.string [97])) sampleNote,
        m ∈ p.messagesToSummarize ++ p.turnPrefixMessages ∨ m ∈ p.retainedTail := by
  refine ⟨_, rfl, (projected_survive Transcript.integerNumbers rfl _).mpr fun entry he m hm => ?_⟩
  have hentry : entry = ⟨[110], none⟩ := by
    rcases he with _ | ⟨_, _ | ⟨_, _ | ⟨_, h⟩⟩⟩
    · rfl
    · cases h
  subst hentry
  obtain rfl := List.mem_singleton.mp hm
  exact .inr (.inl List.mem_cons_self)

/-- The note says something else: its message is in the context before the compaction, and
afterwards it is neither summarised nor retained. -/
theorem projected_lost : ∃ p, prepareCompaction Transcript.integerNumbers sampleNote ⟨true, 0, some 1⟩ = some p ∧
      .user (.string [120]) () ∈ buildSessionContext (noteProjectors (.string [120])) sampleNote ∧
      .user (.string [120]) () ∈ projected (noteProjectors (.string [120])) sampleNote ∧
      .user (.string [120]) () ∉ p.messagesToSummarize ++ p.turnPrefixMessages ∧
      .user (.string [120]) () ∉ p.retainedTail := by
  refine ⟨_, rfl, .tail _ (.head _), .head _, ?_, ?_⟩
  · intro h
    rcases h with _ | ⟨_, h⟩
    cases h
  · intro h
    rcases h with _ | ⟨_, h⟩
    cases h

end Shuvpi.Compaction
