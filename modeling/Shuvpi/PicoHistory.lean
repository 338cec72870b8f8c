import Mathlib.Data.List.Pairwise
import Mathlib.Logic.Relation
import Shuvpi.PicoContext

/-!
# Histories of conversations

What a conversation sees of the entries of a session, in order, and what the commits of a
session add to it: entries of turns, writes and handoffs, forks, and collapses.
-/
namespace Shuvpi.Pico

open Function (update)
open List Option Function

variable {s s' : MemoryStorage} {c : Nat}

/-- All that a conversation sees, newest first. -/
def MemoryStorage.transcript (s : MemoryStorage) (c : Nat) : List Entry := s.visible (c + 1) none c

/-! ## The steps of a history -/

/-- Heads are those of handoffs and of collapses; an edit names an entry that exists. -/
inductive HistoryStep : MemoryStorage → MemoryStorage → Prop
  /-- Other records are written, or ids are minted and not used. -/
  | other {s s' : MemoryStorage} (hconversations : s'.conversationsById = s.conversationsById)
      (hentries : s'.entriesByConversation = s.entriesByConversation) (hid : s.nextIdValue ≤ s'.nextIdValue) : HistoryStep s s'
  | conversation {s s' : MemoryStorage} (conversation : Conversation) (hid : s.nextIdValue ≤ conversation.id)
      (hparent : ∀ p ∈ conversation.parent, ∃ e ∈ s.transcript p.1, e.id = p.2)
      (h : s.commit [.conversation conversation] = .ok s') : HistoryStep s s'
  | append {s s' : MemoryStorage} (entry : Entry) (hid : s.nextIdValue ≤ entry.id)
      (hconversation : (s.conversationsById entry.conversationId).isSome)
      (hhead : entry.head = none ∨ entry.head = some entry.id) (hedits : ∀ edit ∈ entry.edits, edit.target < s.nextIdValue)
      (h : s.commit [.entry entry] = .ok s') : HistoryStep s s'
  | collapse {s s' : MemoryStorage} {conversationId through taskId now : Nat} {expectedHead : Option Nat} {summary : Json}
      {entry : Entry} (hconversation : (s.conversationsById conversationId).isSome)
      (hentry : collapseEntry s conversationId through expectedHead summary taskId now = some entry)
      (h : s.commit [.entry entry] = .ok s') : HistoryStep s s'

/-- The storage of a session after some history. -/
def IsHistory (s : MemoryStorage) : Prop := Relation.ReflTransGen HistoryStep .empty s

/-! ## What a commit leaves -/

/-- A batch of one write. -/
theorem commit_single {w : Write} (h : s.commit [w] = .ok s') :
    ∃ created s₁, s.stageWrite [w] [] w = .ok created ∧ MemoryStorage.applyWrite (s.seq + 1) s w = .ok s₁ ∧
      s' = { s₁.setNextId (MemoryStorage.maxOf created + 1) with seq := s.seq + 1 } := by
  obtain ⟨created, hstage, h⟩ := bind_ok.mp h
  obtain ⟨s₁, happly, h⟩ := bind_ok.mp h
  obtain ⟨_, hstage, ⟨⟩⟩ := bind_ok.mp hstage
  obtain ⟨_, happly, ⟨⟩⟩ := bind_ok.mp happly
  exact ⟨created, s₁, hstage, happly, (Except.ok.inj h).symm⟩

theorem claim_ok {what : String} {id : Nat} {created : List Nat} (h : MemoryStorage.claim what id [] = .ok created) :
    created = [id] := by
  unfold MemoryStorage.claim at h
  split at h
  · cases h
  · split at h
    · cases h
    · exact (Except.ok.inj h).symm

theorem maxOf_single (id : Nat) : MemoryStorage.maxOf [id] = id := by
  simp [MemoryStorage.maxOf]

theorem commit_entry {entry : Entry} (h : s.commit [.entry entry] = .ok s') :
    s'.conversationsById = s.conversationsById ∧ s'.entriesByConversation =
        update s.entriesByConversation entry.conversationId (s.entriesByConversation entry.conversationId ++ [entry]) ∧
      s'.nextIdValue = max s.nextIdValue (entry.id + 1) := by
  obtain ⟨created, s₁, hstage, happly, rfl⟩ := commit_single h
  simp only [MemoryStorage.stageWrite] at hstage
  split at hstage
  · cases hstage
  · obtain rfl := claim_ok hstage
    cases happly
    exact ⟨rfl, rfl, by rw [← maxOf_single entry.id]; rfl⟩

theorem commit_conversation {conversation : Conversation} (h : s.commit [.conversation conversation] = .ok s') :
    s'.conversationsById = update s.conversationsById conversation.id (some conversation) ∧
      s'.entriesByConversation = update s.entriesByConversation conversation.id [] ∧
      s'.nextIdValue = max s.nextIdValue (conversation.id + 1) := by
  obtain ⟨created, s₁, hstage, happly, rfl⟩ := commit_single h
  simp only [MemoryStorage.stageWrite] at hstage
  split at hstage
  · cases hstage
  · obtain rfl := claim_ok hstage
    cases happly
    exact ⟨rfl, rfl, by rw [← maxOf_single conversation.id]; rfl⟩

/-! ## The invariant of a history -/

/-- Entries stand in the order of their ids, and forks after what they share. -/
structure Ordered (s : MemoryStorage) : Prop where
  parent : ∀ c conversation, s.conversationsById c = some conversation → c < s.nextIdValue ∧
    ∀ p ∈ conversation.parent, p.1 < c ∧ p.2 < c ∧ ∀ e ∈ s.entriesByConversation c, p.2 < e.id
  missing : ∀ c, s.conversationsById c = none → s.entriesByConversation c = []
  below : ∀ c, ∀ e ∈ s.entriesByConversation c, e.id < s.nextIdValue
  sorted : ∀ c, (s.entriesByConversation c).Pairwise fun e e' => e.id < e'.id
  edits : ∀ c, ∀ e ∈ s.entriesByConversation c, ∀ edit ∈ e.edits, edit.target < e.id
  head : ∀ c, ∀ e ∈ s.entriesByConversation c, ∀ h ∈ e.head, h ≤ e.id

/-- Heads do not go back. -/
structure HistoryInv (s : MemoryStorage) : Prop extends Ordered s where
  monotone : ∀ c, ∀ e ∈ s.transcript c, ∀ e' ∈ s.transcript c, e.id ≤ e'.id → ∀ h ∈ e.head, ∀ h' ∈ e'.head, h ≤ h'

/-! ## What a conversation sees -/

/-- A cap keeps the entries below it. -/
theorem visible_cap (s : MemoryStorage) (rounds : Nat) (cap : Nat) (c : Nat) :
    s.visible rounds (some cap) c = (s.visible rounds none c).filter fun e => e.id < cap := by
  induction rounds generalizing cap c with
  | zero => rfl
  | succ rounds ih =>
    simp only [MemoryStorage.visible, all_some, all_none, filter_true, filter_append]
    congr 1
    cases (s.conversationsById c).bind Conversation.parent with
    | none => rfl
    | some p =>
      simp only [MemoryStorage.narrow]
      rw [ih, ih (p.2 + 1), List.filter_filter]
      refine List.filter_congr fun e _ => ?_
      rw [Bool.eq_iff_iff]
      simp only [decide_eq_true_eq, Bool.and_eq_true]
      omega

/-- Rounds beyond the id of a conversation make no difference. -/
theorem visible_rounds (h : Ordered s) {rounds rounds' : Nat} {cap : Option Nat} (hrounds : c < rounds)
    (hrounds' : c < rounds') : s.visible rounds cap c = s.visible rounds' cap c := by
  induction rounds generalizing rounds' c cap with
  | zero => omega
  | succ rounds ih =>
    cases rounds' with
    | zero => omega
    | succ rounds' =>
      simp only [MemoryStorage.visible]
      congr 1
      cases hp : (s.conversationsById c).bind Conversation.parent with
      | none => rfl
      | some p =>
        obtain ⟨conversation, hconversation, hparent⟩ := bind_eq_some_iff.mp hp
        have hlt := ((h.parent c conversation hconversation).2 p hparent).1
        exact ih (by omega) (by omega)

/-- What a conversation shares with its parent. -/
def MemoryStorage.shared (s : MemoryStorage) (c : Nat) : List Entry :=
  match (s.conversationsById c).bind Conversation.parent with
  | some p => (s.transcript p.1).filter fun e => e.id < p.2 + 1
  | none => []

theorem transcript_eq (h : Ordered s) (c : Nat) :
    s.transcript c = (s.entriesByConversation c).reverse ++ s.shared c := by
  unfold MemoryStorage.transcript MemoryStorage.shared
  rw [MemoryStorage.visible]
  congr 1
  · simp
  · cases hp : (s.conversationsById c).bind Conversation.parent with
    | none => rfl
    | some p =>
      obtain ⟨conversation, hconversation, hparent⟩ := bind_eq_some_iff.mp hp
      have hlt := ((h.parent c conversation hconversation).2 p hparent).1
      simp only [MemoryStorage.narrow]
      have hrounds : s.visible c none p.1 = s.transcript p.1 := visible_rounds h hlt (Nat.lt_succ_self _)
      rw [visible_cap, hrounds]

variable {e : Entry}

/-- An entry of the transcript is an entry of the conversation or of one it descends from. -/
theorem mem_transcript (h : Ordered s) (he : e ∈ s.transcript c) : ∃ c', e ∈ s.entriesByConversation c' := by
  induction c using Nat.strong_induction_on with
  | _ c ih =>
    rw [transcript_eq h, mem_append, mem_reverse] at he
    rcases he with he | he
    · exact ⟨c, he⟩
    · unfold MemoryStorage.shared at he
      cases hp : (s.conversationsById c).bind Conversation.parent with
      | none => rw [hp] at he; cases he
      | some p =>
        rw [hp] at he
        obtain ⟨conversation, hconversation, hparent⟩ := bind_eq_some_iff.mp hp
        exact ih p.1 ((h.parent c conversation hconversation).2 p hparent).1 (mem_filter.mp he).1

theorem transcript_below (h : Ordered s) (he : e ∈ s.transcript c) : e.id < s.nextIdValue := by
  obtain ⟨c', he'⟩ := mem_transcript h he
  exact h.below c' e he'

/-- The transcript is in the order of the ids, newest first. -/
theorem transcript_sorted (h : Ordered s) (c : Nat) : (s.transcript c).Pairwise fun e e' => e'.id < e.id := by
  induction c using Nat.strong_induction_on with
  | _ c ih =>
    rw [transcript_eq h, pairwise_append]
    refine ⟨pairwise_reverse.mpr (h.sorted c), ?_, ?_⟩
    · unfold MemoryStorage.shared
      cases hp : (s.conversationsById c).bind Conversation.parent with
      | none => exact .nil
      | some p =>
        obtain ⟨conversation, hconversation, hparent⟩ := bind_eq_some_iff.mp hp
        exact (ih p.1 ((h.parent c conversation hconversation).2 p hparent).1).filter _
    · intro e he e' he'
      rw [mem_reverse] at he
      unfold MemoryStorage.shared at he'
      cases hp : (s.conversationsById c).bind Conversation.parent with
      | none => rw [hp] at he'; cases he'
      | some p =>
        rw [hp] at he'
        obtain ⟨conversation, hconversation, hparent⟩ := bind_eq_some_iff.mp hp
        have hat := ((h.parent c conversation hconversation).2 p hparent).2.2 e he
        have hle := (mem_filter.mp he').2
        simp only [decide_eq_true_eq] at hle
        omega

/-! ## What the steps do to it -/

/-- Entries only come on top. -/
def Grows (s s' : MemoryStorage) (c : Nat) : Prop :=
  ∃ newer, s'.transcript c = newer ++ s.transcript c ∧ ∀ e ∈ newer, s.nextIdValue ≤ e.id

/-- Two storages with the same conversations and entries show the same. -/
theorem transcript_congr (hconversations : s'.conversationsById = s.conversationsById)
    (hentries : s'.entriesByConversation = s.entriesByConversation) (c : Nat) : s'.transcript c = s.transcript c := by
  have hvisible : ∀ rounds cap c, s'.visible rounds cap c = s.visible rounds cap c := by
    intro rounds
    induction rounds with
    | zero => exact fun _ _ => rfl
    | succ rounds ih =>
      intro cap c
      simp only [MemoryStorage.visible, hconversations, hentries]
      congr 1
      cases (s.conversationsById c).bind Conversation.parent with
      | none => rfl
      | some p => exact ih _ _
  exact hvisible _ _ _

/-- An entry that a commit adds comes on top of its conversation, and no other one sees it. -/
theorem transcript_entry {entry : Entry} (h : Ordered s) (h' : Ordered s') (hid : s.nextIdValue ≤ entry.id)
    (hconversations : s'.conversationsById = s.conversationsById)
    (hentries : s'.entriesByConversation =
      update s.entriesByConversation entry.conversationId (s.entriesByConversation entry.conversationId ++ [entry])) (c : Nat) :
    s'.transcript c = if c = entry.conversationId then entry :: s.transcript c else s.transcript c := by
  induction c using Nat.strong_induction_on with
  | _ c ih =>
    have hshared : s'.shared c = s.shared c := by
      unfold MemoryStorage.shared
      rw [hconversations]
      cases hp : (s.conversationsById c).bind Conversation.parent with
      | none => rfl
      | some p =>
        obtain ⟨conversation, hconversation, hparent⟩ := bind_eq_some_iff.mp hp
        obtain ⟨hbelow, hpars⟩ := h.parent c conversation hconversation
        obtain ⟨hlt, hat, -⟩ := hpars p hparent
        dsimp only
        rw [ih p.1 hlt]
        split
        · rw [filter_cons_of_neg]
          simp only [decide_eq_true_eq]
          omega
        · rfl
    rw [transcript_eq h', transcript_eq h, hshared, hentries]
    split
    · rename_i hc
      rw [hc, update_self, reverse_append]
      rfl
    · rename_i hc
      rw [update_of_ne hc]

/-- A new conversation shows what it shares, and the others show what they did. -/
theorem transcript_conversation {conversation : Conversation} (h : Ordered s) (h' : Ordered s')
    (hid : s.nextIdValue ≤ conversation.id)
    (hconversations : s'.conversationsById = update s.conversationsById conversation.id (some conversation))
    (hentries : s'.entriesByConversation = update s.entriesByConversation conversation.id [])
    (hc : c ≠ conversation.id) : s'.transcript c = s.transcript c := by
  induction c using Nat.strong_induction_on with
  | _ c ih =>
    have hshared : s'.shared c = s.shared c := by
      unfold MemoryStorage.shared
      rw [hconversations, update_of_ne hc]
      cases hp : (s.conversationsById c).bind Conversation.parent with
      | none => rfl
      | some p =>
        obtain ⟨other, hother, hparent⟩ := bind_eq_some_iff.mp hp
        obtain ⟨hbelow, hpars⟩ := h.parent c other hother
        obtain ⟨hlt, -, -⟩ := hpars p hparent
        dsimp only
        rw [ih p.1 hlt (by omega)]
    rw [transcript_eq h', transcript_eq h, hshared, hentries, update_of_ne hc]

/-! ## The context in terms of the transcript -/

/-- The entries before an id, or all of them. -/
def below (before : Option Nat) (entries : List Entry) : List Entry := entries.filter fun e => before.all fun before => e.id < before

theorem scanEntries_eq (s : MemoryStorage) (scan : MemoryStorage.EntryScan) :
    s.scanEntries scan = ((below scan.before (s.transcript scan.conversationId)).filter scan.selects).take scan.limit := by
  unfold MemoryStorage.scanEntries below MemoryStorage.transcript
  cases scan.before with
  | none => simp
  | some cap => rw [visible_cap]; rfl

variable {before : Option Nat}

/-- What follows a page is what is below its last entry. -/
theorem below_last {entries page rest : List Entry} {last : Entry}
    (hsort : entries.Pairwise fun e e' => e'.id < e.id) (hsplit : below before entries = page ++ rest)
    (hlast : page.getLast? = some last) : below (some last.id) entries = rest := by
  have hpairwise : (page ++ rest).Pairwise fun e e' => e'.id < e.id := hsplit ▸ hsort.filter _
  have hmem : last ∈ page := mem_of_getLast? hlast
  obtain ⟨hpage, -, hrest⟩ := pairwise_append.mp hpairwise
  have hbef : before.all (fun before => last.id < before) = true := by
    have : last ∈ below before entries := hsplit ▸ mem_append_left _ hmem
    exact (mem_filter.mp this).2
  have hnarrow : below (some last.id) entries = (below before entries).filter fun e => e.id < last.id := by
    unfold below
    rw [List.filter_filter]
    refine List.filter_congr fun e _ => ?_
    cases before with
    | none => simp
    | some cap =>
      simp only [all_some, decide_eq_true_eq] at hbef
      rw [Bool.eq_iff_iff]
      simp only [all_some, Bool.and_eq_true, decide_eq_true_eq]
      omega
  have hnone : page.filter (fun e => e.id < last.id) = [] := by
    refine filter_eq_nil_iff.mpr fun e he => ?_
    obtain ⟨older, holder⟩ := getLast?_eq_some_iff.mp hlast
    rw [holder, mem_append, mem_singleton] at he
    rw [holder] at hpage
    simp only [decide_eq_true_eq, Nat.not_lt]
    rcases he with he | rfl
    · exact Nat.le_of_lt ((pairwise_append.mp hpage).2.2 e he last (.head _))
    · exact Nat.le_refl _
  have hall : rest.filter (fun e => e.id < last.id) = rest :=
    filter_eq_self.mpr fun e he => by simpa using hrest last hmem e he
  rw [hnarrow, hsplit, filter_append, hnone, hall, nil_append]

/-- The walk reads the entries back to where the context starts. -/
theorem readRange_eq (hsort : (s.transcript c).Pairwise fun e e' => e'.id < e.id) (start : Option Nat) {rounds : Nat}
    (hrounds : (below before (s.transcript c)).length < rounds) :
    readRange s c start rounds before = (below before (s.transcript c)).takeWhile fun e => !isBefore start e := by
  induction rounds generalizing before with
  | zero => omega
  | succ rounds ih =>
    have hpage : s.scanEntries { conversationId := c, before := before, limit := 256 } =
        (below before (s.transcript c)).take 256 := by
      rw [scanEntries_eq]
      congr 1
      exact filter_eq_self.mpr fun e _ => by simp [MemoryStorage.EntryScan.selects]
    simp only [readRange, hpage]
    have hnext : ∀ last, ((below before (s.transcript c)).take 256).getLast? = some last →
        below (some last.id) (s.transcript c) = (below before (s.transcript c)).drop 256 :=
      fun last hlast => below_last hsort (take_append_drop _ _).symm hlast
    generalize below before (s.transcript c) = entries at hnext hrounds
    have hwhole := congrArg (takeWhile fun e => !isBefore start e) (take_append_drop 256 entries)
    rw [takeWhile_append] at hwhole
    rw [← hwhole]
    cases hlast : (entries.take 256).getLast? with
    | none =>
      have hnil : entries = [] := by simpa using getLast?_eq_none_iff.mp hlast
      simp [hnil]
    | some last =>
      dsimp only
      by_cases hall : ((entries.take 256).takeWhile fun e => !isBefore start e).length = (entries.take 256).length
      · rw [if_pos hall]
        -- the whole page is kept, so the walk stops here only if there is nothing more
        have hkept : (entries.take 256).takeWhile (fun e => !isBefore start e) = entries.take 256 :=
          (List.takeWhile_prefix _).eq_of_length hall
        rw [hkept]
        by_cases hshort : (entries.take 256).length < 256
        · have hdrop : entries.drop 256 = [] := drop_eq_nil_of_le (by rw [length_take] at hshort; omega)
          rw [if_pos (by rw [decide_eq_true hshort, Bool.true_or]), hdrop, takeWhile_nil, append_nil]
        · have hlen : (below (some last.id) (s.transcript c)).length < rounds := by
            rw [hnext last hlast, length_drop]
            rw [length_take] at hshort
            omega
          rw [if_neg (by simpa using hshort), ih hlen, hnext last hlast]
      · have hle : ((entries.take 256).takeWhile fun e => !isBefore start e).length ≤ (entries.take 256).length :=
          (List.takeWhile_prefix _).length_le
        have hstops : ((entries.take 256).takeWhile fun e => !isBefore start e).length < (entries.take 256).length := by omega
        rw [if_neg hall, if_pos (by rw [decide_eq_true hstops, Bool.or_true])]

/-! ## Reading a context -/

/-- The entries that a context can start from. -/
def seen (s : MemoryStorage) (c : Nat) (at_ : Option Nat) : List Entry := below (at_.map (· + 1)) (s.transcript c)

variable {at_ : Option Nat}

theorem mem_seen : e ∈ seen s c at_ ↔ e ∈ s.transcript c ∧ ∀ a ∈ at_, e.id ≤ a := by
  unfold seen below
  rw [mem_filter]
  cases at_ with
  | none | some => simp

theorem newestHead_eq (s : MemoryStorage) (c : Nat) (at_ : Option Nat) :
    newestHead s c at_ = (seen s c at_).find? fun e => e.head.isSome := by
  unfold newestHead
  rw [scanEntries_eq, head?_take, if_neg Nat.one_ne_zero, ← head?_filter]
  rfl

/-- Where a property is lost for good, what is taken before it is lost is all that has it. -/
theorem takeWhile_eq_filter {α : Type} {p : α → Bool} {l : List α} (h : l.Pairwise fun a b => p b = true → p a = true) :
    l.takeWhile p = l.filter p := by
  induction l with
  | nil => rfl
  | cons a l ih =>
    obtain ⟨hhead, htail⟩ := pairwise_cons.mp h
    by_cases ha : p a = true
    · rw [takeWhile_cons_of_pos ha, filter_cons_of_pos ha, ih htail]
    · rw [takeWhile_cons_of_neg ha, filter_cons_of_neg ha, filter_eq_nil_iff.mpr fun b hb hp => ha (hhead b hb hp)]

theorem contextRange_eq (h : Ordered s) (c : Nat) (at_ : Option Nat) : contextRange s c at_ =
    ((seen s c at_).filter fun e => !isBefore ((newestHead s c at_).bind Entry.head) e).reverse := by
  have hsort := transcript_sorted h c
  unfold contextRange
  rw [readRange_eq hsort]
  · congr 1
    refine takeWhile_eq_filter ((hsort.filter _).imp fun {e e'} hlt hkept => ?_)
    unfold isBefore at hkept ⊢
    generalize (newestHead s c at_).bind Entry.head = start at hkept ⊢
    cases start with
    | none => rfl
    | some start =>
      simp only [any_some, Bool.not_eq_true', decide_eq_false_iff_not] at hkept ⊢
      omega
  · exact Nat.lt_succ_of_le (length_filter_le _ _)

theorem eq_of_id (h : Ordered s) {e' : Entry} (he : e ∈ s.transcript c) (he' : e' ∈ s.transcript c)
    (hid : e.id = e'.id) :
    e = e' := by
  have hnodup : ((s.transcript c).map Entry.id).Nodup :=
    pairwise_map.mpr ((transcript_sorted h c).imp fun hlt heq => absurd heq (by omega))
  exact inj_on_of_nodup_map hnodup he he' hid

variable {head : Entry}

theorem newestHead_mem (h : newestHead s c at_ = some head) : head ∈ seen s c at_ ∧ head.head.isSome := by
  rw [newestHead_eq] at h
  have hsome := find?_some h
  exact ⟨mem_of_find?_eq_some h, hsome⟩

theorem newestHead_none (h : newestHead s c at_ = none) (he : e ∈ seen s c at_) : e.head = none := by
  rw [newestHead_eq, find?_eq_none] at h
  simpa using h e he

variable (h : Ordered s)
include h

/-- The newest head is the one with the greatest id. -/
theorem newestHead_max (hhead : newestHead s c at_ = some head) (he : e ∈ seen s c at_)
    (hsome : e.head.isSome) : e.id ≤ head.id := by
  rw [newestHead_eq] at hhead
  obtain ⟨-, newer, older, hsplit, hnewer⟩ := find?_eq_some_iff_append.mp hhead
  have hsort : (seen s c at_).Pairwise fun e e' => e'.id < e.id := (transcript_sorted h c).filter _
  rw [hsplit] at he hsort
  rcases mem_append.mp he with he | he
  · have hnot := hnewer e he
    rw [hsome] at hnot
    cases hnot
  · rcases mem_cons.mp he with rfl | he
    · exact Nat.le_refl _
    · exact Nat.le_of_lt ((pairwise_cons.mp (pairwise_append.mp hsort).2.1).1 e he)

theorem newestHead_of_max (hmem : head ∈ seen s c at_) (hsome : head.head.isSome)
    (hmax : ∀ e ∈ s.transcript c, e.head.isSome → e.id ≤ head.id) :
    newestHead s c at_ = some head := by
  cases hnew : newestHead s c at_ with
  | none => rw [newestHead_none hnew hmem] at hsome; cases hsome
  | some head' =>
    obtain ⟨hmem', hsome'⟩ := newestHead_mem hnew
    have hle := hmax head' (mem_seen.mp hmem').1 hsome'
    have hge := newestHead_max h hnew hmem hsome
    exact congrArg some (eq_of_id h (mem_seen.mp hmem').1 (mem_seen.mp hmem).1 (Nat.le_antisymm hle hge))

theorem mem_contextRange : e ∈ contextRange s c at_ ↔
    e ∈ seen s c at_ ∧ ∀ head ∈ newestHead s c at_, ∀ start ∈ head.head, start ≤ e.id := by
  rw [contextRange_eq h, mem_reverse, mem_filter]
  refine and_congr_right fun _ => ?_
  unfold isBefore
  cases newestHead s c at_ with
  | none => simp
  | some head => cases hstart : head.head <;> simp [hstart]

theorem mem_entries : e ∈ (deriveContext s c at_).entries ↔
    newestHead s c at_ = some e ∨ e ∈ contextRange s c at_ ∧ e.head = none := by
  unfold deriveContext contextEntries
  cases hhead : newestHead s c at_ with
  | none =>
    refine ⟨fun he => .inr ⟨he, newestHead_none hhead ((mem_contextRange h).mp he).1⟩, ?_⟩
    rintro (he | he)
    · cases he
    · exact he.1
  | some head =>
    rw [mem_cons, mem_filter, isNone_iff_eq_none, some_inj]
    exact or_congr_left eq_comm

/-! ## Every history keeps the invariant -/

omit h

theorem historyInv_empty : HistoryInv .empty where
  parent := fun _ _ h => by cases h
  missing := fun _ _ => rfl
  below := fun _ _ h => by cases h
  sorted := fun _ => .nil
  edits := fun _ _ h => by cases h
  head := fun _ _ h => by cases h
  monotone := fun c e he => by
    have : (MemoryStorage.empty).transcript c = [] := rfl
    rw [this] at he
    cases he

/-- What is asked of an entry that is added. -/
structure Fresh (s : MemoryStorage) (entry : Entry) : Prop where
  id : s.nextIdValue ≤ entry.id
  conversation : (s.conversationsById entry.conversationId).isSome
  edits : ∀ edit ∈ entry.edits, edit.target < s.nextIdValue
  head : ∀ h ∈ entry.head, h ≤ entry.id
  /-- Its head is not before those that are there. -/
  newest : ∀ h ∈ entry.head, ∀ e ∈ s.transcript entry.conversationId, ∀ h' ∈ e.head, h' ≤ h

theorem Ordered.entry {entry : Entry} (h : Ordered s) (hfresh : Fresh s entry) (hcommit : s.commit [.entry entry] = .ok s') :
    Ordered s' := by
  obtain ⟨hconversations, hentries, hnext⟩ := commit_entry hcommit
  have hle : s.nextIdValue ≤ s'.nextIdValue := hnext ▸ Nat.le_max_left _ _
  have hmem : ∀ c e, e ∈ s'.entriesByConversation c → e ∈ s.entriesByConversation c ∨ e = entry := by
    intro c e he
    rw [hentries] at he
    by_cases hc : c = entry.conversationId
    · subst hc
      rw [update_self, mem_append, mem_singleton] at he
      exact he
    · rw [update_of_ne hc] at he
      exact .inl he
  exact {
    parent := by
      intro c conversation hc
      rw [hconversations] at hc
      obtain ⟨hbelow, hpars⟩ := h.parent c conversation hc
      refine ⟨by omega, fun p hp => ?_⟩
      obtain ⟨hlt, hat, hown⟩ := hpars p hp
      refine ⟨hlt, hat, fun e he => ?_⟩
      rcases hmem c e he with he | rfl
      · exact hown e he
      · have := hfresh.id
        omega
    missing := by
      intro c hc
      rw [hconversations] at hc
      have hne : c ≠ entry.conversationId := by
        rintro rfl
        have := hfresh.conversation
        rw [hc] at this
        cases this
      rw [hentries, update_of_ne hne]
      exact h.missing c hc
    below := by
      intro c e he
      rcases hmem c e he with he | rfl
      · exact Nat.lt_of_lt_of_le (h.below c e he) hle
      · rw [hnext]
        omega
    sorted := by
      intro c
      rw [hentries]
      by_cases hc : c = entry.conversationId
      · subst hc
        rw [update_self, pairwise_append]
        refine ⟨h.sorted _, pairwise_singleton _ _, fun e he e' he' => ?_⟩
        rw [mem_singleton] at he'
        subst he'
        exact Nat.lt_of_lt_of_le (h.below _ e he) hfresh.id
      · rw [update_of_ne hc]
        exact h.sorted c
    edits := by
      intro c e he edit hedit
      rcases hmem c e he with he | rfl
      · exact h.edits c e he edit hedit
      · exact Nat.lt_of_lt_of_le (hfresh.edits edit hedit) hfresh.id
    head := by
      intro c e he head hhead
      rcases hmem c e he with he | rfl
      · exact h.head c e he head hhead
      · exact hfresh.head head hhead }

theorem HistoryInv.entry {entry : Entry} (h : HistoryInv s) (hfresh : Fresh s entry)
    (hcommit : s.commit [.entry entry] = .ok s') : HistoryInv s' := by
  have h' := h.toOrdered.entry hfresh hcommit
  obtain ⟨hconversations, hentries, -⟩ := commit_entry hcommit
  refine { toOrdered := h', monotone := fun c e he e' he' hle head hhead head' hhead' => ?_ }
  have htrans := transcript_entry h.toOrdered h' hfresh.id hconversations hentries c
  by_cases hc : c = entry.conversationId
  · subst hc
    rw [htrans, if_pos rfl, mem_cons] at he he'
    have hid := hfresh.id
    rcases he with rfl | he
    · rcases he' with rfl | he'
      · exact Nat.le_of_eq (some.inj (hhead.symm.trans hhead'))
      · have := transcript_below h.toOrdered he'
        omega
    · rcases he' with rfl | he'
      · exact hfresh.newest head' hhead' e he head hhead
      · exact h.monotone _ e he e' he' hle head hhead head' hhead'
  · rw [htrans, if_neg hc] at he he'
    exact h.monotone c e he e' he' hle head hhead head' hhead'

theorem HistoryInv.conversation {conversation : Conversation} (h : HistoryInv s) (hid : s.nextIdValue ≤ conversation.id)
    (hparent : ∀ p ∈ conversation.parent, ∃ e ∈ s.transcript p.1, e.id = p.2)
    (hcommit : s.commit [.conversation conversation] = .ok s') : HistoryInv s' := by
  obtain ⟨hconversations, hentries, hnext⟩ := commit_conversation hcommit
  have hbelow : ∀ p ∈ conversation.parent, p.1 < conversation.id ∧ p.2 < conversation.id := by
    intro p hp
    obtain ⟨e, he, heq⟩ := hparent p hp
    refine ⟨?_, Nat.lt_of_lt_of_le (heq ▸ transcript_below h.toOrdered he) hid⟩
    cases hconversation : s.conversationsById p.1 with
    | some other => exact Nat.lt_of_lt_of_le (h.parent _ other hconversation).1 hid
    | none =>
      rw [transcript_eq h.toOrdered, h.missing _ hconversation, MemoryStorage.shared, hconversation] at he
      cases he
  have h' : Ordered s' := {
    parent := by
      intro c other hc
      rw [hconversations] at hc
      rw [hentries, hnext]
      by_cases heq : c = conversation.id
      · subst heq
        rw [update_self] at hc
        obtain rfl := some.inj hc
        refine ⟨by omega, fun p hp => ⟨(hbelow p hp).1, (hbelow p hp).2, ?_⟩⟩
        rw [update_self]
        simp
      · rw [update_of_ne heq] at hc ⊢
        obtain ⟨hlt, hpars⟩ := h.parent c other hc
        exact ⟨by omega, hpars⟩
    missing := by
      intro c hc
      rw [hconversations] at hc
      rw [hentries]
      by_cases heq : c = conversation.id
      · subst heq; rw [update_self]
      · rw [update_of_ne heq] at hc ⊢
        exact h.missing c hc
    below := by
      intro c e he
      rw [hentries] at he
      by_cases heq : c = conversation.id
      · subst heq; rw [update_self] at he; cases he
      · rw [update_of_ne heq] at he
        exact hnext ▸ Nat.lt_of_lt_of_le (h.below c e he) (Nat.le_max_left _ _)
    sorted := by
      intro c
      rw [hentries]
      by_cases heq : c = conversation.id
      · subst heq; rw [update_self]; exact .nil
      · rw [update_of_ne heq]; exact h.sorted c
    edits := by
      intro c e he
      rw [hentries] at he
      by_cases heq : c = conversation.id
      · subst heq; rw [update_self] at he; cases he
      · rw [update_of_ne heq] at he; exact h.edits c e he
    head := by
      intro c e he
      rw [hentries] at he
      by_cases heq : c = conversation.id
      · subst heq; rw [update_self] at he; cases he
      · rw [update_of_ne heq] at he; exact h.head c e he }
  have hother : ∀ c, c ≠ conversation.id → s'.transcript c = s.transcript c :=
    fun c hc => transcript_conversation h.toOrdered h' hid hconversations hentries hc
  -- a fork sees part of what its parent sees
  have hpart : ∀ c, ∃ c', ∀ e ∈ s'.transcript c, e ∈ s.transcript c' := by
    intro c
    by_cases hc : c = conversation.id
    · subst hc
      rw [transcript_eq h', hentries, update_self, MemoryStorage.shared, hconversations, update_self, bind_some]
      cases hp : conversation.parent with
      | none => exact ⟨0, by simp⟩
      | some p =>
        refine ⟨p.1, fun e he => ?_⟩
        have he' : e ∈ s'.transcript p.1 := (mem_filter.mp he).1
        rwa [hother p.1 (Nat.ne_of_lt (hbelow p hp).1)] at he'
    · exact ⟨c, fun e he => hother c hc ▸ he⟩
  refine { toOrdered := h', monotone := fun c e he e' he' hle => ?_ }
  obtain ⟨c', hc'⟩ := hpart c
  exact h.monotone c' e (hc' e he) e' (hc' e' he') hle

variable {expectedHead : Option Nat}

variable {through taskId now : Nat}

/-- What a collapse keeps, if it keeps anything, is in the context. -/
theorem collapseEntry_some {summary : Json} {entry : Entry}
    (hentry : collapseEntry s c through expectedHead summary taskId now = some entry) :
    entry.id = s.nextIdValue ∧ entry.conversationId = c ∧ entry.edits = [] ∧
      entry.head = some (((((deriveContext s c none).entries.find? fun e => through < e.id).map Entry.id)).getD s.nextIdValue) := by
  unfold collapseEntry at hentry
  dsimp only at hentry
  split at hentry
  · cases hentry
  · obtain rfl := some.inj hentry
    exact ⟨rfl, rfl, rfl, rfl⟩

theorem mem_entries_transcript (h : Ordered s) (he : e ∈ (deriveContext s c at_).entries) :
    e ∈ seen s c at_ := by
  rcases (mem_entries h).mp he with hhead | ⟨hrange, -⟩
  · exact (newestHead_mem hhead).1
  · exact ((mem_contextRange h).mp hrange).1

/-- The context holds nothing from before the head. -/
theorem start_le (h : Ordered s) {start : Nat} (hhead : newestHead s c at_ = some head)
    (hstart : head.head = some start) (he : e ∈ (deriveContext s c at_).entries) : start ≤ e.id := by
  rcases (mem_entries h).mp he with heq | ⟨hrange, -⟩
  · obtain rfl := some.inj (hhead.symm.trans heq)
    obtain ⟨c', hc'⟩ := mem_transcript h (mem_seen.mp (newestHead_mem hhead).1).1
    exact h.head c' head hc' start hstart
  · exact ((mem_contextRange h).mp hrange).2 head hhead start hstart

theorem fresh_collapse {summary : Json} {entry : Entry} (h : HistoryInv s)
    (hconversation : (s.conversationsById c).isSome)
    (hentry : collapseEntry s c through expectedHead summary taskId now = some entry) : Fresh s entry := by
  obtain ⟨hid, hconv, hedits, hhead⟩ := collapseEntry_some hentry
  -- the head of the summary is an entry of the context or the summary itself
  have hcases : ∀ start ∈ entry.head, start = s.nextIdValue ∨ ∃ e ∈ (deriveContext s c none).entries, start = e.id := by
    intro start hstart
    obtain rfl := some.inj (hhead.symm.trans hstart)
    cases hfind : (deriveContext s c none).entries.find? fun e => through < e.id with
    | none => exact .inl rfl
    | some e => exact .inr ⟨e, mem_of_find?_eq_some hfind, rfl⟩
  refine ⟨hid.ge, hconv ▸ hconversation, by simp [hedits], fun start hstart => ?_, fun start hstart e he start' hstart' => ?_⟩
  · rcases hcases start hstart with rfl | ⟨e, he, rfl⟩
    · exact hid.ge
    · have := transcript_below h.toOrdered (mem_seen.mp (mem_entries_transcript h.toOrdered he)).1
      omega
  · rw [hconv] at he
    have hle : start' ≤ s.nextIdValue := by
      obtain ⟨c', hc'⟩ := mem_transcript h.toOrdered he
      exact Nat.le_trans (h.head c' e hc' start' hstart') (Nat.le_of_lt (h.below c' e hc'))
    rcases hcases start hstart with rfl | ⟨e', he', rfl⟩
    · exact hle
    · have hseen : e ∈ seen s c none := mem_seen.mpr ⟨he, by simp⟩
      have hsome : e.head.isSome := isSome_iff_exists.mpr ⟨start', hstart'⟩
      cases hnew : newestHead s c none with
      | none => rw [newestHead_none hnew hseen] at hsome; cases hsome
      | some head =>
        obtain ⟨hmem, hheadSome⟩ := newestHead_mem hnew
        obtain ⟨top, htop⟩ := isSome_iff_exists.mp hheadSome
        have hmax := newestHead_max h.toOrdered hnew hseen hsome
        exact Nat.le_trans (h.monotone c e he head (mem_seen.mp hmem).1 hmax start' hstart' top htop)
          (start_le h.toOrdered hnew htop he')

theorem fresh_append {entry : Entry} (h : HistoryInv s) (hid : s.nextIdValue ≤ entry.id)
    (hconversation : (s.conversationsById entry.conversationId).isSome)
    (hhead : entry.head = none ∨ entry.head = some entry.id) (hedits : ∀ edit ∈ entry.edits, edit.target < s.nextIdValue) :
    Fresh s entry := by
  have hself : ∀ head ∈ entry.head, head = entry.id := by
    intro head hh
    rcases hhead with hnone | hself
    · rw [hnone] at hh; cases hh
    · exact some.inj (hh.symm.trans hself)
  refine ⟨hid, hconversation, hedits, fun head hh => (hself head hh).le, fun head hh e he head' hh' => ?_⟩
  obtain ⟨c', hc'⟩ := mem_transcript h.toOrdered he
  have hle := h.head c' e hc' head' hh'
  have hlt := h.below c' e hc'
  have := hself head hh
  omega

theorem HistoryStep.inv (h : HistoryInv s) (hstep : HistoryStep s s') : HistoryInv s' := by
  cases hstep with
  | other hconversations hentries hid =>
    have htrans := transcript_congr hconversations hentries
    refine ⟨⟨?_, ?_, ?_, ?_, ?_, ?_⟩, ?_⟩
    · intro c conversation hc
      rw [hconversations] at hc
      rw [hentries]
      obtain ⟨hlt, hpars⟩ := h.parent c conversation hc
      exact ⟨by omega, hpars⟩
    · intro c hc
      rw [hconversations] at hc
      rw [hentries]
      exact h.missing c hc
    · intro c e he
      rw [hentries] at he
      have := h.below c e he
      omega
    · exact fun c => hentries ▸ h.sorted c
    · exact fun c => hentries ▸ h.edits c
    · exact fun c => hentries ▸ h.head c
    · exact fun c => htrans c ▸ h.monotone c
  | conversation conversation hid hparent hcommit => exact h.conversation hid hparent hcommit
  | append entry hid hconversation hhead hedits hcommit =>
    exact h.entry (fresh_append h hid hconversation hhead hedits) hcommit
  | collapse hconversation hentry hcommit => exact h.entry (fresh_collapse h hconversation hentry) hcommit

theorem IsHistory.inv (h : IsHistory s) : HistoryInv s := by
  induction h with
  | refl => exact historyInv_empty
  | tail _ hstep ih => exact hstep.inv ih

/-! ## Transcripts over a run -/

theorem HistoryStep.nextId (hstep : HistoryStep s s') : s.nextIdValue ≤ s'.nextIdValue := by
  cases hstep with
  | other _ _ hid => exact hid
  | conversation _ _ _ hcommit => exact (commit_conversation hcommit).2.2 ▸ Nat.le_max_left _ _
  | append _ _ _ _ _ hcommit => exact (commit_entry hcommit).2.2 ▸ Nat.le_max_left _ _
  | collapse _ _ hcommit => exact (commit_entry hcommit).2.2 ▸ Nat.le_max_left _ _

theorem HistoryStep.grows (h : HistoryInv s) (hc : (s.conversationsById c).isSome) (hstep : HistoryStep s s') :
    Grows s s' c ∧ (s'.conversationsById c).isSome := by
  have hentry : ∀ entry, Fresh s entry → s.commit [.entry entry] = .ok s' →
      Grows s s' c ∧ (s'.conversationsById c).isSome := by
    intro entry hfresh hcommit
    obtain ⟨hconversations, hentries, -⟩ := commit_entry hcommit
    have htrans := transcript_entry h.toOrdered (h.toOrdered.entry hfresh hcommit) hfresh.id hconversations hentries c
    refine ⟨?_, hconversations ▸ hc⟩
    split at htrans
    · exact ⟨[entry], htrans, by simpa using hfresh.id⟩
    · exact ⟨[], htrans, by simp⟩
  have h' := hstep.inv h
  cases hstep with
  | other hconversations hentries hid =>
    exact ⟨⟨[], transcript_congr hconversations hentries c, by simp⟩, hconversations ▸ hc⟩
  | conversation conversation hid hparent hcommit =>
    obtain ⟨hconversations, hentries, -⟩ := commit_conversation hcommit
    have hne : c ≠ conversation.id := by
      obtain ⟨other, hother⟩ := isSome_iff_exists.mp hc
      have := (h.parent c other hother).1
      omega
    refine ⟨⟨[], transcript_conversation h.toOrdered h'.toOrdered hid hconversations hentries hne, by simp⟩, ?_⟩
    rw [hconversations, update_of_ne hne]
    exact hc
  | append entry hid hconversation hhead hedits hcommit =>
    exact hentry entry (fresh_append h hid hconversation hhead hedits) hcommit
  | collapse hconversation hentry' hcommit => exact hentry _ (fresh_collapse h hconversation hentry') hcommit

/-- Over a run, entries only come on top. -/
theorem grows_run (h : HistoryInv s) (hc : (s.conversationsById c).isSome) (hrun : Relation.ReflTransGen HistoryStep s s') :
    HistoryInv s' ∧ Grows s s' c ∧ (s'.conversationsById c).isSome ∧ s.nextIdValue ≤ s'.nextIdValue := by
  induction hrun with
  | refl => exact ⟨h, ⟨[], rfl, by simp⟩, hc, Nat.le_refl _⟩
  | tail _ hstep ih =>
    obtain ⟨hinv, ⟨newer, hnewer, hids⟩, hc', hle⟩ := ih
    obtain ⟨⟨newer', hnewer', hids'⟩, hc''⟩ := hstep.grows hinv hc'
    refine ⟨hstep.inv hinv, ⟨newer' ++ newer, by rw [hnewer', hnewer, append_assoc], fun e he => ?_⟩, hc'',
      Nat.le_trans hle hstep.nextId⟩
    rcases mem_append.mp he with he | he
    · exact Nat.le_trans hle (hids' e he)
    · exact hids e he

end Shuvpi.Pico
