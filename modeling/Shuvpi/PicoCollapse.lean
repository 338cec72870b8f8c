import Shuvpi.PicoHistory

/-!
# Collapses and what they lose

A collapse appends a summary of the context at its cut and starts the context anew at the
first entry of the context whose id is after the cut. The context lists the summary of an
earlier collapse before the older entries it has retained. When the cut is among those, the
first entry after it by id is the earlier summary: what lies between is neither summarised
nor kept.
-/
namespace Shuvpi.Pico

open List Option

variable {s s₀ s₁ s' : MemoryStorage} {c through : Nat} {entry : Entry}

/-- The entry gives messages to the context of the conversation. -/
def Contributes (s : MemoryStorage) (c : Nat) (e : Entry) : Prop :=
  e ∈ (deriveContext s c none).entries ∧ contribution (contextRange s c none) e ≠ []

/-- Every entry that gave messages before is in the context at the cut, as it was when it was summarised, or still
gives the same messages afterwards. -/
def LosesNothing (c through : Nat) (summarised before after : MemoryStorage) : Prop :=
  ∀ e, Contributes before c e → e ∈ (deriveContext summarised c (some through)).entries ∨
    e ∈ (deriveContext after c none).entries ∧
      contribution (contextRange after c none) e = contribution (contextRange before c none) e

/-! ## The cut -/

variable {estimate : List Message → Nat} {entries : List Entry}

theorem exchanges_last {found : List Exchange} {isOpen : Bool}
    {exchange : Exchange} (h : exchange ∈ exchanges estimate found isOpen entries) :
    exchange ∈ found ∨ ∃ e ∈ entries, e.id = exchange.last := by
  induction entries generalizing found isOpen with
  | nil => exact .inl h
  | cons entry entries ih =>
    unfold exchanges at h
    dsimp only at h
    split at h
    · rcases ih h with h | ⟨e, he, heq⟩
      · rcases mem_cons.mp h with rfl | h
        · exact .inr ⟨entry, .head _, rfl⟩
        · exact .inl h
      · exact .inr ⟨e, .tail _ he, heq⟩
    · rcases ih h with h | ⟨e, he, heq⟩
      · rcases mem_cons.mp h with rfl | h
        · exact .inr ⟨entry, .head _, rfl⟩
        · exact .inl (.tail _ h)
      · exact .inr ⟨e, .tail _ he, heq⟩
    · rcases ih h with h | ⟨e, he, heq⟩
      · rcases mem_cons.mp h with rfl | h
        · exact .inr ⟨entry, .head _, rfl⟩
        · exact .inl h
      · exact .inr ⟨e, .tail _ he, heq⟩

theorem notRetained_suffix (keepRecent retained : Nat) (found : List Exchange) : notRetained keepRecent retained found <:+ found := by
  induction found generalizing retained with
  | nil => exact suffix_refl _
  | cons exchange older ih =>
    unfold notRetained
    split
    · exact (ih _).trans (suffix_cons _ _)
    · exact suffix_refl _

/-- A context is cut at one of its entries. -/
theorem chooseThrough_mem {keepRecent : Nat}
    (h : chooseThrough estimate entries keepRecent = some through) : ∃ e ∈ entries, e.id = through := by
  have hlast : ∀ exchange ∈ exchanges estimate [] false entries, ∃ e ∈ entries, e.id = exchange.last :=
    fun exchange hmem => (exchanges_last hmem).resolve_left (by simp)
  unfold chooseThrough at h
  dsimp only at h
  have hsub := (notRetained_suffix keepRecent 0 (exchanges estimate [] false entries)).subset
  split at h
  · cases h
  · rename_i exchange older heq
    rw [heq] at hsub
    split at h
    · cases older with
      | nil => cases h
      | cons next older =>
        obtain rfl := some.inj h
        exact hlast next (hsub (.tail _ (.head _)))
    · obtain rfl := some.inj h
      exact hlast exchange (hsub (.head _))

/-! ## Before and after -/

theorem editOf_filter {range : List Entry} {start id : Nat} (hedits : ∀ e ∈ range, ∀ edit ∈ e.edits, edit.target < e.id)
    (hle : start ≤ id) : editOf (range.filter fun e => start ≤ e.id) id = editOf range id := by
  unfold editOf
  congr 2
  induction range with
  | nil => rfl
  | cons e range ih =>
    have ih := ih fun e he => hedits e (.tail _ he)
    rw [flatMap_cons, filter_append, ← ih]
    by_cases hkept : start ≤ e.id
    · rw [filter_cons_of_pos (by simpa using hkept), flatMap_cons, filter_append]
    · have hnone : e.edits.filter (fun edit => edit.target = id) = [] := by
        refine filter_eq_nil_iff.mpr fun edit hedit => ?_
        have := hedits e (.head _) edit hedit
        simp only [decide_eq_true_eq]
        omega
      rw [filter_cons_of_neg (by simpa using hkept), hnone, nil_append]

variable {e : Entry}

theorem contribution_congr {range range' : List Entry} (h : editOf range' e.id = editOf range e.id) :
    contribution range' e = contribution range e := by
  rw [contribution, contribution, h]

section Collapse

variable (h : HistoryInv s)

include h

/-- The context at the cut does not change once it is chosen. -/
theorem entries_through (h₁ : HistoryInv s₁) (hgrows : Grows s₁ s c) (hthrough : through < s₁.nextIdValue) :
    (deriveContext s₁ c (some through)).entries = (deriveContext s c (some through)).entries := by
  have hseen : seen s₁ c (some through) = seen s c (some through) := by
    obtain ⟨newer, hnewer, hids⟩ := hgrows
    unfold seen below
    rw [hnewer, List.filter_append]
    have hnone : newer.filter (fun e => (Option.map (· + 1) (some through)).all fun before => e.id < before) = [] := by
      refine List.filter_eq_nil_iff.mpr fun e he => ?_
      have := hids e he
      simp only [map_some, all_some, decide_eq_true_eq]
      omega
    rw [hnone, nil_append]
  have hhead : newestHead s₁ c (some through) = newestHead s c (some through) := by
    rw [newestHead_eq, newestHead_eq, hseen]
  have hrange : contextRange s₁ c (some through) = contextRange s c (some through) := by
    rw [contextRange_eq h₁.toOrdered, contextRange_eq h.toOrdered, hseen, hhead]
  unfold deriveContext
  rw [hhead, hrange]

variable (hfresh : Fresh s entry) (hconversation : entry.conversationId = c) (hcommit : s.commit [.entry entry] = .ok s')

include hfresh hconversation hcommit

theorem transcript_after : s'.transcript c = entry :: s.transcript c := by
  obtain ⟨hconversations, hentries, -⟩ := commit_entry hcommit
  have h' := h.toOrdered.entry hfresh hcommit
  rw [transcript_entry h.toOrdered h' hfresh.id hconversations hentries c, if_pos hconversation.symm]

variable {start : Nat} (hhead : entry.head = some start)

include hhead

theorem newestHead_after : newestHead s' c none = some entry := by
  rw [newestHead_eq, seen, below, transcript_after h hfresh hconversation hcommit]
  simp [hhead]

theorem contextRange_after : contextRange s' c none = ((s.transcript c).filter fun e => start ≤ e.id).reverse ++ [entry] := by
  have hstart : start ≤ entry.id := hfresh.head start hhead
  rw [contextRange_eq (h.entry hfresh hcommit).toOrdered, newestHead_after h hfresh hconversation hcommit hhead, seen, below,
    transcript_after h hfresh hconversation hcommit]
  have hnot : ∀ e ∈ s.transcript c, (!decide (e.id < start)) = decide (start ≤ e.id) := by
    intro e _
    rw [Bool.eq_iff_iff]
    simp
  simp only [map_none, all_none, filter_true, bind_some, hhead, isBefore, any_some]
  rw [filter_cons_of_pos (by simpa using hstart), filter_congr hnot, reverse_cons]

/-- The new context holds the summary and what comes after its head. -/
theorem mem_entries_after : e ∈ (deriveContext s' c none).entries ↔
    e = entry ∨ e ∈ s.transcript c ∧ start ≤ e.id ∧ e.head = none := by
  rw [mem_entries (h.entry hfresh hcommit).toOrdered, newestHead_after h hfresh hconversation hcommit hhead,
    contextRange_after h hfresh hconversation hcommit hhead]
  constructor
  · rintro (heq | ⟨hmem, hnone⟩)
    · exact .inl (some.inj heq).symm
    · rw [mem_append, mem_reverse, mem_filter, mem_singleton] at hmem
      rcases hmem with ⟨hmem, hle⟩ | rfl
      · exact .inr ⟨hmem, by simpa using hle, hnone⟩
      · exact .inl rfl
  · rintro (rfl | ⟨hmem, hle, hnone⟩)
    · exact .inl rfl
    · refine .inr ⟨mem_append_left _ (mem_reverse.mpr (mem_filter.mpr ⟨hmem, by simpa using hle⟩)), hnone⟩

/-- What stays gives the same messages: the edits of an entry are younger than it. -/
theorem contribution_after (hedits : entry.edits = []) (hle : start ≤ e.id)
    (hold : ∀ head ∈ newestHead s c none, ∀ old ∈ head.head, old ≤ start) :
    contribution (contextRange s' c none) e = contribution (contextRange s c none) e := by
  refine contribution_congr ?_
  have hlast : editOf (contextRange s' c none) e.id =
      editOf (((s.transcript c).filter fun e => start ≤ e.id).reverse) e.id := by
    rw [contextRange_after h hfresh hconversation hcommit hhead, editOf, editOf, flatMap_append]
    simp [hedits]
  have hrange : (contextRange s c none).filter (fun e => start ≤ e.id) =
      ((s.transcript c).filter fun e => start ≤ e.id).reverse := by
    rw [contextRange_eq h.toOrdered, List.filter_reverse, List.filter_filter]
    congr 1
    unfold seen below
    rw [List.filter_filter]
    refine filter_congr fun e' _ => ?_
    unfold isBefore
    cases hnew : newestHead s c none with
    | none => simp
    | some head =>
      cases hh : head.head with
      | none => simp [hh]
      | some old =>
        have := hold head hnew old hh
        rw [Bool.eq_iff_iff]
        simp only [bind_some, hh, any_some, map_none, all_none, Bool.and_eq_true,
          decide_eq_true_eq, Bool.not_eq_true', decide_eq_false_iff_not, and_true]
        omega
  rw [hlast, ← hrange]
  refine editOf_filter (fun e he => ?_) hle
  obtain ⟨c', hc'⟩ := mem_transcript h.toOrdered (mem_seen.mp ((mem_contextRange h.toOrdered).mp he).1).1
  exact h.edits c' e hc'

end Collapse

/-! ## What is lost -/

/-- Of the context, what is not after the cut is in the context at the cut. -/
theorem mem_entries_through (h : HistoryInv s) (he : e ∈ (deriveContext s c none).entries) (hle : e.id ≤ through) :
    e ∈ (deriveContext s c (some through)).entries := by
  have hseen : e ∈ seen s c (some through) := by
    refine mem_seen.mpr ⟨(mem_seen.mp (mem_entries_transcript h.toOrdered he)).1, fun a ha => ?_⟩
    obtain rfl := some.inj ha
    exact hle
  rw [mem_entries h.toOrdered] at he ⊢
  rcases he with hhead | ⟨hrange, hnone⟩
  · refine .inl (newestHead_of_max h.toOrdered hseen (newestHead_mem hhead).2 fun e' he' hsome => ?_)
    exact newestHead_max h.toOrdered hhead (mem_seen.mpr ⟨he', by simp⟩) hsome
  · refine .inr ⟨(mem_contextRange h.toOrdered).mpr ⟨hseen, fun head hhead start hstart => ?_⟩, hnone⟩
    -- the head at the cut is not younger than the head of the whole context
    have hmem := (mem_seen.mp (newestHead_mem hhead).1).1
    have hsome : head.head.isSome := (newestHead_mem hhead).2
    have hmem' : head ∈ seen s c none := mem_seen.mpr ⟨hmem, by simp⟩
    cases hnew : newestHead s c none with
    | none => rw [newestHead_none hnew hmem'] at hsome; cases hsome
    | some newest =>
      obtain ⟨hnewestMem, hnewestSome⟩ := newestHead_mem hnew
      obtain ⟨top, htop⟩ := isSome_iff_exists.mp hnewestSome
      calc start ≤ top := h.monotone c head hmem newest (mem_seen.mp hnewestMem).1
            (newestHead_max h.toOrdered hnew hmem' hsome) start hstart top htop
        _ ≤ e.id := ((mem_contextRange h.toOrdered).mp hrange).2 newest hnew top htop

/-- The first entry after the cut is the oldest one in a range. -/
theorem find_le {first e : Entry} (hsort : entries.Pairwise fun e e' => e.id < e'.id)
    (hfind : entries.find? (fun e => decide (through < e.id)) = some first) (he : e ∈ entries) (hlt : through < e.id) :
    first.id ≤ e.id := by
  obtain ⟨-, older, newer, hsplit, holder⟩ := find?_eq_some_iff_append.mp hfind
  rw [hsplit] at he hsort
  rcases mem_append.mp he with he | he
  · have := holder e he
    simp only [Bool.not_eq_true', decide_eq_false_iff_not] at this
    exact absurd hlt this
  · rcases mem_cons.mp he with rfl | he
    · exact Nat.le_refl _
    · exact Nat.le_of_lt ((pairwise_cons.mp (pairwise_append.mp hsort).2.1).1 e he)

theorem contextRange_sorted (h : Ordered s) (c : Nat) (at_ : Option Nat) :
    (contextRange s c at_).Pairwise fun e e' => e.id < e'.id := by
  rw [contextRange_eq h, pairwise_reverse]
  exact ((transcript_sorted h c).filter _).filter _

/-- Where the new context starts. -/
def collapseStart (s : MemoryStorage) (c through : Nat) : Nat :=
  (((deriveContext s c none).entries.find? fun e => through < e.id).map Entry.id).getD s.nextIdValue

/-- A cut before the head makes the new context start at the head. -/
theorem collapseStart_head {head : Entry} (hhead : newestHead s c none = some head) (hlt : through < head.id) :
    collapseStart s c through = head.id := by
  unfold collapseStart deriveContext contextEntries
  rw [hhead]
  rw [find?_cons_of_pos (by simpa using hlt)]
  rfl

/-- What comes after both the cut and the head is kept. -/
theorem collapseStart_le (h : Ordered s) (he : e ∈ (deriveContext s c none).entries) (hlt : through < e.id)
    (hafter : ∀ head, newestHead s c none = some head → head.id < e.id) : collapseStart s c through ≤ e.id := by
  have hrange : e ∈ contextRange s c none ∧ e.head = none := by
    rcases (mem_entries h).mp he with heq | hrange
    · exact absurd (hafter e heq) (Nat.lt_irrefl _)
    · exact hrange
  cases hhead : newestHead s c none with
  | none =>
    have hentries : (deriveContext s c none).entries = contextRange s c none := by
      unfold deriveContext contextEntries
      rw [hhead]
    unfold collapseStart
    rw [hentries]
    cases hfind : (contextRange s c none).find? fun e => through < e.id with
    | none =>
      have := find?_eq_none.mp hfind e hrange.1
      simp only [decide_eq_true_eq] at this
      exact absurd hlt this
    | some first => exact find_le (contextRange_sorted h c none) hfind hrange.1 hlt
  | some head =>
    by_cases hcut : through < head.id
    · rw [collapseStart_head hhead hcut]
      exact Nat.le_of_lt (hafter head hhead)
    · have hentries : (deriveContext s c none).entries = head :: (contextRange s c none).filter fun e => e.head.isNone := by
        unfold deriveContext contextEntries
        rw [hhead]
      unfold collapseStart
      rw [hentries, find?_cons_of_neg (by simpa using hcut)]
      have hmem : e ∈ (contextRange s c none).filter fun e => e.head.isNone :=
        mem_filter.mpr ⟨hrange.1, by rw [hrange.2]; rfl⟩
      cases hfind : ((contextRange s c none).filter fun e => e.head.isNone).find? fun e => through < e.id with
      | none =>
        have := find?_eq_none.mp hfind e hmem
        simp only [decide_eq_true_eq] at this
        exact absurd hlt this
      | some first => exact find_le ((contextRange_sorted h c none).filter _) hfind hmem hlt

/-- The new context starts no earlier than the old one. -/
theorem le_collapseStart (h : Ordered s) {head : Entry} {old : Nat} (hhead : newestHead s c none = some head)
    (hold : head.head = some old) : old ≤ collapseStart s c through := by
  unfold collapseStart
  cases hfind : (deriveContext s c none).entries.find? fun e => through < e.id with
  | none =>
    obtain ⟨c', hc'⟩ := mem_transcript h (mem_seen.mp (newestHead_mem hhead).1).1
    exact Nat.le_trans (h.head c' head hc' old hold) (Nat.le_of_lt (h.below c' head hc'))
  | some first => exact start_le h hhead hold (mem_of_find?_eq_some hfind)

/-- A conversation that shows something exists. -/
theorem conversation_of_mem (h : Ordered s) (he : e ∈ s.transcript c) : (s.conversationsById c).isSome := by
  cases hconversation : s.conversationsById c with
  | some conversation => rfl
  | none =>
    rw [transcript_eq h, h.missing c hconversation, MemoryStorage.shared, hconversation] at he
    cases he

section Lost

variable {taskId now : Nat} {expectedHead : Option Nat} {summary : Json}

theorem losesNothing_of (h : HistoryInv s) (h₁ : HistoryInv s₁) (hconversation : (s.conversationsById c).isSome)
    (hgrows : Grows s₁ s c) (hthrough : through < s₁.nextIdValue)
    (hentry : collapseEntry s c through expectedHead summary taskId now = some entry) (hcommit : s.commit [.entry entry] = .ok s')
    (hafter : ∀ head, (deriveContext s c none).head = some head →
      ∀ e, Contributes s c e → ¬(through < e.id ∧ e.id ≤ head.id)) : LosesNothing c through s₁ s s' := by
  obtain ⟨-, hconv, hedits, hhead⟩ := collapseEntry_some hentry
  have hfresh := fresh_collapse h hconversation hentry
  intro e he
  rw [entries_through h h₁ hgrows hthrough]
  by_cases hle : e.id ≤ through
  · exact .inl (mem_entries_through h he.1 hle)
  · have hlater : ∀ head, newestHead s c none = some head → head.id < e.id :=
      fun head hnew => Nat.not_le.mp fun hbef => hafter head hnew e he ⟨Nat.not_le.mp hle, hbef⟩
    have hstart : collapseStart s c through ≤ e.id := collapseStart_le h.toOrdered he.1 (Nat.not_le.mp hle) hlater
    have hplain : e.head = none := by
      rcases (mem_entries h.toOrdered).mp he.1 with hnew | ⟨-, hnone⟩
      · exact absurd (hlater e hnew) (Nat.lt_irrefl _)
      · exact hnone
    have hmem := (mem_seen.mp (mem_entries_transcript h.toOrdered he.1)).1
    refine .inr ⟨(mem_entries_after h hfresh hconv hcommit hhead).mpr (.inr ⟨hmem, hstart, hplain⟩), ?_⟩
    exact contribution_after h hfresh hconv hcommit hhead hedits hstart
      fun head hnew old hold => le_collapseStart h.toOrdered hnew hold

theorem not_between_of (h : HistoryInv s) (h₁ : HistoryInv s₁) (hconversation : (s.conversationsById c).isSome)
    (hentry : collapseEntry s c through expectedHead summary taskId now = some entry) (hcommit : s.commit [.entry entry] = .ok s')
    (hloses : LosesNothing c through s₁ s s') {head : Entry} (hnew : (deriveContext s c none).head = some head)
    (he : Contributes s c e) : ¬(through < e.id ∧ e.id ≤ head.id) := by
  rintro ⟨hlt, hle⟩
  obtain ⟨hid, hconv, -, hhead⟩ := collapseEntry_some hentry
  have hfresh := fresh_collapse h hconversation hentry
  have hmem := (mem_seen.mp (mem_entries_transcript h.toOrdered he.1)).1
  rcases hloses e he with hsummarised | ⟨hkept, -⟩
  · have := (mem_seen.mp (mem_entries_transcript h₁.toOrdered hsummarised)).2 through rfl
    omega
  · rcases (mem_entries_after h hfresh hconv hcommit hhead).mp hkept with rfl | ⟨-, hstart, hplain⟩
    · have := transcript_below h.toOrdered hmem
      omega
    · -- the new context starts at the earlier summary, so the entry would be that summary
      have hstart' : collapseStart s c through = head.id := collapseStart_head hnew (by omega)
      have hge : head.id ≤ e.id := hstart' ▸ hstart
      obtain ⟨hheadMem, hheadSome⟩ := newestHead_mem hnew
      obtain rfl := eq_of_id h.toOrdered hmem (mem_seen.mp hheadMem).1 (Nat.le_antisymm hle hge)
      rw [hplain] at hheadSome
      cases hheadSome

/-- A collapse, chosen in one state, summarised in a later one and committed in a third, loses nothing if and only if
nothing that gives messages lies after its cut and not after the head of the context. -/
theorem collapse_losesNothing_iff {estimate : List Message → Nat} {keepRecent : Nat} (h₀ : IsHistory s₀)
    (hchosen : chooseThrough estimate (deriveContext s₀ c none).entries keepRecent = some through)
    (hrun₁ : Relation.ReflTransGen HistoryStep s₀ s₁) (hrun : Relation.ReflTransGen HistoryStep s₁ s)
    (hentry : collapseEntry s c through expectedHead summary taskId now = some entry) (hcommit : s.commit [.entry entry] = .ok s') :
    LosesNothing c through s₁ s s' ↔ ∀ head, (deriveContext s c none).head = some head →
        ∀ e, Contributes s c e → ¬(through < e.id ∧ e.id ≤ head.id) := by
  have hinv₀ := h₀.inv
  obtain ⟨cut, hcut, rfl⟩ := chooseThrough_mem hchosen
  have hmem := (mem_seen.mp (mem_entries_transcript hinv₀.toOrdered hcut)).1
  have hbelow := transcript_below hinv₀.toOrdered hmem
  obtain ⟨hinv₁, -, hconversation₁, hle₁⟩ := grows_run hinv₀ (conversation_of_mem hinv₀.toOrdered hmem) hrun₁
  obtain ⟨hinv, hgrows, hconversation, -⟩ := grows_run hinv₁ hconversation₁ hrun
  constructor
  · intro hloses head hnewest e he
    exact not_between_of hinv hinv₁ hconversation hentry hcommit hloses hnewest he
  · exact losesNothing_of hinv hinv₁ hconversation hgrows (by omega) hentry hcommit

/-! ### A session with two collapses -/

/-- What a user says in the first conversation. -/
def said (id : Nat) : Entry where
  id := id
  conversationId := 1
  kind := "user"
  model := some [.user .null id]

def MemoryStorage.after (s : MemoryStorage) (writes : List Write) : MemoryStorage := (s.commit writes).toOption.getD s

theorem commit_after {writes : List Write} (h : (s.commit writes).isOk) : s.commit writes = .ok (s.after writes) := by
  unfold MemoryStorage.after
  cases hcommit : s.commit writes with
  | error e => rw [hcommit] at h; cases h
  | ok s' => rfl

/-- Three things are said; with two of them kept, the cut is after the first. -/
def threeSaid : MemoryStorage :=
  (((MemoryStorage.empty.after [.conversation { id := 1 }]).after [.entry (said 2)]).after [.entry (said 3)]).after
    [.entry (said 4)]

def summaryOf (s : MemoryStorage) (through : Nat) : Entry :=
  (collapseEntry s 1 through ((deriveContext s 1 none).head.map Entry.id) .null 0 0).getD (said 0)

/-- The first collapse, and one more thing said. -/
def collapsedOnce : MemoryStorage := (threeSaid.after [.entry (summaryOf threeSaid 2)]).after [.entry (said 6)]

theorem IsHistory.said {id : Nat} (h : IsHistory s) (hid : s.nextIdValue ≤ id) (hconversation : (s.conversationsById 1).isSome)
    (hok : (s.commit [.entry (Pico.said id)]).isOk) : IsHistory (s.after [.entry (Pico.said id)]) :=
  h.tail (.append (Pico.said id) hid hconversation (.inl rfl) (by simp [Pico.said]) (commit_after hok))

theorem isHistory_threeSaid : IsHistory threeSaid := by
  have hconversation : HistoryStep .empty (MemoryStorage.empty.after [.conversation { id := 1 }]) :=
    .conversation { id := 1 } (by decide) (by simp) (commit_after (by decide))
  have h : IsHistory (MemoryStorage.empty.after [.conversation { id := 1 }]) := .tail .refl hconversation
  exact ((h.said (by decide) (by decide) (by decide)).said
    (by decide) (by decide) (by decide)).said
    (by decide) (by decide) (by decide)

theorem isHistory_collapsedOnce : IsHistory collapsedOnce := by
  have hentry : collapseEntry threeSaid 1 2 none .null 0 0 = some (summaryOf threeSaid 2) := by decide
  have hcollapse : HistoryStep threeSaid (threeSaid.after [.entry (summaryOf threeSaid 2)]) :=
    .collapse (by decide) hentry (commit_after (by decide))
  have h : IsHistory (threeSaid.after [.entry (summaryOf threeSaid 2)]) := isHistory_threeSaid.tail hcollapse
  exact h.said (by decide) (by decide) (by decide)

/-- The first collapse of the session loses nothing. -/
theorem collapse_losesNothing_iff_threeSaid :
    LosesNothing 1 2 threeSaid threeSaid (threeSaid.after [.entry (summaryOf threeSaid 2)]) ↔
      ∀ head, (deriveContext threeSaid 1 none).head = some head →
        ∀ e, Contributes threeSaid 1 e → ¬(2 < e.id ∧ e.id ≤ head.id) := by
  have hchosen : chooseThrough List.length (deriveContext threeSaid 1 none).entries 2 = some 2 := by decide
  have hentry : collapseEntry threeSaid 1 2 none .null 0 0 = some (summaryOf threeSaid 2) := by decide
  exact collapse_losesNothing_iff isHistory_threeSaid hchosen .refl .refl hentry (commit_after (by decide))

/-- The second collapse is cut after entry 3 and keeps only what is after the first summary, so that entry 4 is lost. -/
theorem collapse_loses :
    ∃ (s : MemoryStorage) (c through keepRecent : Nat) (entry : Entry) (s' : MemoryStorage), IsHistory s ∧
      chooseThrough List.length (deriveContext s c none).entries keepRecent = some through ∧
      collapseEntry s c through ((deriveContext s c none).head.map Entry.id) .null 0 0 = some entry ∧
      s.commit [.entry entry] = .ok s' ∧ ¬LosesNothing c through s s s' := by
  have hentry : collapseEntry collapsedOnce 1 3 ((deriveContext collapsedOnce 1 none).head.map Entry.id) .null 0 0 =
      some (summaryOf collapsedOnce 3) := by decide
  have hok : (collapsedOnce.commit [.entry (summaryOf collapsedOnce 3)]).isOk := by decide
  have hcommit := commit_after hok
  refine ⟨collapsedOnce, 1, 3, 2, _, _, isHistory_collapsedOnce, by decide, hentry, hcommit, fun hloses => ?_⟩
  have hinv := isHistory_collapsedOnce.inv
  have hhead : (deriveContext collapsedOnce 1 none).head = some (summaryOf threeSaid 2) := by decide
  have hsaid : Contributes collapsedOnce 1 (said 4) := ⟨by decide, by decide⟩
  exact not_between_of hinv hinv (by decide) hentry hcommit hloses hhead hsaid (by decide)

end Lost

end Shuvpi.Pico
