import Shuvpi.DurableCommits

/-!
# The history of a forked conversation

A conversation shows its own entries and, of each ancestor, those up to the least fork
point on the way. Reading it page by page gives that list, newest first, whatever newer
entries are committed between the pages.
-/
open List Option

namespace Shuvpi.Durable

open SortedIds (Lists upperBound take_upperBound takeWhile_eq_filter)

variable {P : Type}

/-! ## Bounds -/

/-- An id within the bound, where no bound is infinity. -/
def within (upper : Option Id) (id : Id) : Prop := ∀ bound, upper = some bound → id ≤ bound

theorem within_lower {upper : Option Id} {bound id : Id} :
    within (MemoryStorage.lower upper bound) id ↔ within upper id ∧ id ≤ bound := by
  cases upper with
  | none | some => simp [within, MemoryStorage.lower]

theorem lower_comm (upper : Option Id) (a b : Id) : MemoryStorage.lower (MemoryStorage.lower upper a) b =
      MemoryStorage.lower (MemoryStorage.lower upper b) a := by
  cases upper with
  | none => simp [MemoryStorage.lower, min_comm]
  | some u => simp [MemoryStorage.lower, min_assoc, min_comm a b]

namespace MemoryStorage

theorem upTo_eq {ids : List Id} (h : ids.Pairwise (· < ·)) (upper : Option Id) :
    upTo ids upper = ids.filter fun id => upper.all (id ≤ ·) := by
  cases upper with
  | none => simp [upTo]
  | some bound => simpa [upTo] using take_upperBound h bound

variable {id : Id}

theorem within_all {upper : Option Id} : upper.all (id ≤ ·) = true ↔ within upper id := by
  cases upper <;> simp [within]

theorem upTo_lists {ids : List Id} {p : Id → Prop} (h : Lists ids p) (upper : Option Id) :
    Lists (upTo ids upper) fun id => p id ∧ within upper id := by
  rw [upTo_eq h.sorted]
  refine ⟨h.sorted.filter _, fun id => ?_⟩
  rw [mem_filter, h.mem, within_all]

/-- Newest first. -/
def Descending (values : List (EntryRecord P)) : Prop := values.Pairwise fun a b => b.id < a.id

theorem Descending.unique {l l' : List (EntryRecord P)} (h : Descending l) (h' : Descending l')
    (hmem : ∀ e, e ∈ l ↔ e ∈ l') : l = l' :=
  List.Perm.eq_of_pairwise
    (fun _ _ _ _ hab hba => absurd hab (lt_asymm hba)) h h'
    ((perm_ext_iff_of_nodup (h.imp fun hab heq => by rw [heq] at hab; exact lt_irrefl _ hab)
      (h'.imp fun hab heq => by rw [heq] at hab; exact lt_irrefl _ hab)).mpr hmem)

/-! ## One conversation -/

variable {s : MemoryStorage P}

/-- The ids that a segment goes through. -/
theorem segment_ids (hs : s.EntryTable) (id : Id) (minEntryId upper : Option Id) :
    s.segment id minEntryId upper = ((s.entryIds id).filter fun e =>
      minEntryId.all (· ≤ e) && upper.all (e ≤ ·)).reverse.filterMap s.entries := by
  have hsort := (hs.listed id).sorted
  unfold segment
  congr 1
  rw [upTo_eq hsort, ← List.filter_reverse, (takeWhile_eq_filter ?_).1, List.filter_filter, List.filter_reverse]
  refine ((List.pairwise_reverse.mpr hsort).sublist List.filter_sublist).imp fun {a b} hab hb => ?_
  cases minEntryId with
  | none => rfl
  | some m =>
    simp only [Option.all_some, decide_eq_true_eq] at hb ⊢
    exact hb.trans hab.le

variable {minEntryId : Option Id}

variable {e : EntryRecord P}

theorem mem_segment (hs : s.EntryTable) {upper : Option Id} :
    e ∈ s.segment id minEntryId upper ↔ s.entries e.id = some e ∧ e.conversationId = id ∧
      (∀ m, minEntryId = some m → m ≤ e.id) ∧ within upper e.id := by
  have hall : ∀ (o : Option Id) (p : Id → Id → Bool), o.all (p e.id) = true ↔
      ∀ m, o = some m → p e.id m = true := by
    intro o p
    cases o <;> simp
  rw [segment_ids hs, mem_filterMap]
  constructor
  · rintro ⟨i, hi, he⟩
    obtain rfl := hs.keyed i e he
    obtain ⟨hlist, hbound⟩ := mem_filter.mp (mem_reverse.mp hi)
    obtain ⟨e', he', hconv⟩ := ((hs.listed id).mem e.id).mp hlist
    obtain rfl := some.inj (he.symm.trans he')
    obtain ⟨hmin, hupper⟩ := Bool.and_eq_true_iff.mp hbound
    exact ⟨he, hconv, fun m hm => of_decide_eq_true ((hall minEntryId fun e m => m ≤ e).mp hmin m hm),
      fun b hb => of_decide_eq_true ((hall upper fun e b => e ≤ b).mp hupper b hb)⟩
  · rintro ⟨he, hconv, hmin, hupper⟩
    refine ⟨e.id, mem_reverse.mpr (mem_filter.mpr ⟨((hs.listed id).mem e.id).mpr ⟨e, he, hconv⟩,
      Bool.and_eq_true_iff.mpr ⟨?_, ?_⟩⟩), he⟩
    · exact (hall minEntryId fun e m => m ≤ e).mpr fun m hm => decide_eq_true (hmin m hm)
    · exact (hall upper fun e b => e ≤ b).mpr fun b hb => decide_eq_true (hupper b hb)

theorem segment_descending (hs : s.EntryTable) (id : Id) (minEntryId upper : Option Id) :
    Descending (s.segment id minEntryId upper) := by
  rw [segment_ids hs]
  have hsort : (((s.entryIds id).filter fun e =>
      minEntryId.all (· ≤ e) && upper.all (e ≤ ·)).reverse).Pairwise (· > ·) :=
    pairwise_reverse.mpr ((hs.listed id).sorted.filter _)
  refine List.Pairwise.filterMap _ (fun i j hij e he e' he' => ?_) hsort
  rw [hs.keyed i e he, hs.keyed j e' he']
  exact hij

/-- The head marker that is found first is the largest id with one. -/
theorem segment_head (hs : s.EntryTable) (id : Id) (upper : Option Id) :
    (s.segment id none upper).find? (·.head.isSome) =
      (upTo (s.headEntryIds id) upper).getLast?.bind s.entries := by
  have hheads := upTo_lists (hs.heads id) upper
  have hdesc := segment_descending hs id none upper
  have hlist : ∀ e ∈ s.segment id none upper, e.head.isSome = true →
      e.id ∈ upTo (s.headEntryIds id) upper := by
    intro e he hhead
    obtain ⟨hstor, hconv, -, hupper⟩ := (mem_segment hs).mp he
    exact (hheads.mem e.id).mpr ⟨⟨e, hstor, hconv, hhead⟩, hupper⟩
  cases hlast : (upTo (s.headEntryIds id) upper).getLast? with
  | none =>
    have hnil := getLast?_eq_none_iff.mp hlast
    rw [bind_none, find?_eq_none]
    intro e he hhead
    have hmem := hlist e he hhead
    rw [hnil] at hmem
    cases hmem
  | some i =>
    obtain ⟨⟨e, he, hconv, hhead⟩, hupper⟩ := (hheads.mem i).mp (mem_of_getLast? hlast)
    obtain rfl := hs.keyed i e he
    have hmem : e ∈ s.segment id none upper := (mem_segment hs).mpr ⟨he, hconv, fun m hm => (by cases hm), hupper⟩
    rw [bind_some, he]
    obtain ⟨front, back, hsplit⟩ := append_of_mem hmem
    -- an earlier entry has a larger id, and no larger id has a marker
    have hnone : front.find? (·.head.isSome) = none := by
      rw [find?_eq_none]
      intro e' he' hhead'
      have hlt : e.id < e'.id := by
        rw [hsplit] at hdesc
        exact (pairwise_append.mp hdesc).2.2 e' he' e (.head _)
      have hmem' := hlist e' (hsplit ▸ mem_append_left _ he') hhead'
      obtain ⟨front', hfront⟩ := getLast?_eq_some_iff.mp hlast
      have hsort := hheads.sorted
      rw [hfront] at hmem' hsort
      rcases mem_append.mp hmem' with h | h
      · exact absurd ((pairwise_append.mp hsort).2.2 e'.id h e.id (.head _)) (lt_asymm hlt)
      · exact absurd (mem_singleton.mp h) hlt.ne'
    rw [hsplit, find?_append, hnone, none_or, find?_cons_of_pos (by exact hhead)]

/-! ## The chain of forks -/

/-- The forks from a conversation up to one that was not forked. -/
inductive Lineage (s : MemoryStorage P) : Id → List Fork → Prop where
  | root {id : Id} {conversation : ConversationRecord P} (h : s.conversations id = some conversation)
    (hp : conversation.parent = none) : Lineage s id []
  | fork {id : Id} {conversation : ConversationRecord P} {parent : Fork} {forks : List Fork}
    (h : s.conversations id = some conversation) (hp : conversation.parent = some parent)
    (rest : Lineage s parent.conversationId forks) : Lineage s id (parent :: forks)

/-- The conversations of a chain. -/
def chain (id : Id) (forks : List Fork) : List Id := id :: forks.map Fork.conversationId

variable {forks : List Fork} (h : Lineage s id forks)
include h

theorem Lineage.unique {forks' : List Fork} (h' : Lineage s id forks') : forks = forks' := by
  induction h generalizing forks' with
  | root h hp =>
    cases h' with
    | root _ _ => rfl
    | fork h' hp' _ =>
      obtain rfl := some.inj (h.symm.trans h')
      rw [hp] at hp'
      cases hp'
  | fork h hp _ ih =>
    cases h' with
    | root h' hp' =>
      obtain rfl := some.inj (h.symm.trans h')
      rw [hp] at hp'
      cases hp'
    | fork h' hp' rest' =>
      obtain rfl := some.inj (h.symm.trans h')
      obtain rfl := some.inj (hp.symm.trans hp')
      rw [ih rest']

/-- From each conversation of a chain goes the rest of the chain. -/
theorem Lineage.suffix {c : Id} (hc : c ∈ chain id forks) :
    ∃ rest, Lineage s c rest ∧ rest.length ≤ forks.length := by
  induction h with
  | root h hp =>
    obtain rfl := mem_singleton.mp hc
    exact ⟨[], .root h hp, le_rfl⟩
  | fork h hp rest ih =>
    rcases mem_cons.mp hc with rfl | hc
    · exact ⟨_, .fork h hp rest, le_rfl⟩
    · obtain ⟨forks', h', hle⟩ := ih hc
      exact ⟨forks', h', hle.trans (Nat.le_succ _)⟩

theorem Lineage.stored : (s.conversations id).isSome = true := by
  cases h with
  | root h _ => rw [h]; rfl
  | fork h _ _ => rw [h]; rfl

theorem Lineage.nodup : (chain id forks).Nodup := by
  induction h with
  | root _ _ => exact nodup_singleton _
  | fork h hp rest ih =>
    refine nodup_cons.mpr ⟨fun hmem => ?_, ih⟩
    obtain ⟨forks', h', hle⟩ := rest.suffix hmem
    rw [h'.unique (.fork h hp rest), length_cons] at hle
    omega

omit h

theorem Lineage.length_lt (hs : s.ConversationTable) (h : Lineage s id forks) : forks.length < s.chainFuel := by
  have hsub : chain id forks ⊆ s.conversationIds := fun c hc => by
    obtain ⟨rest, h', -⟩ := h.suffix hc
    exact (hs.listed.mem c).mpr h'.stored
  have hle := (h.nodup.subperm hsub).length_le
  rw [chain, length_cons, length_map] at hle
  unfold chainFuel
  omega

/-! ## The history of a conversation -/

/-- The entries of a chain from a conversation on, each within the bounds so far. -/
def historyFrom (s : MemoryStorage P) (minEntryId : Option Id) : Id → Option Id → List Fork → List (EntryRecord P)
  | id, upper, [] => s.segment id minEntryId upper
  | id, upper, parent :: forks =>
    s.segment id minEntryId upper ++ historyFrom s minEntryId parent.conversationId (lower upper parent.at_) forks

theorem below_min {upper : Option Id} : (minEntryId.any fun m => upper.any (· < m)) = true ↔
      ∃ m u, minEntryId = some m ∧ upper = some u ∧ u < m := by
  cases minEntryId <;> cases upper <;> simp

variable (hs : s.EntryTable)
include hs

theorem segment_empty {upper : Option Id} (h : (minEntryId.any fun m => upper.any (· < m)) = true) :
    s.segment id minEntryId upper = [] := by
  refine eq_nil_iff_forall_not_mem.mpr fun e he => ?_
  obtain ⟨-, -, hmin, hupper⟩ := (mem_segment hs).mp he
  obtain ⟨m, u, hm, hu, hlt⟩ := below_min.mp h
  exact absurd ((hmin m hm).trans (hupper u hu)) (not_le.mpr hlt)

theorem historyFrom_empty (id : Id) (upper : Option Id) (forks : List Fork)
    (h : (minEntryId.any fun m => upper.any (· < m)) = true) :
    s.historyFrom minEntryId id upper forks = [] := by
  induction forks generalizing id upper with
  | nil => exact segment_empty hs h
  | cons parent forks ih =>
    rw [historyFrom, segment_empty hs h, nil_append]
    refine ih _ _ ?_
    obtain ⟨m, u, hm, hu, hlt⟩ := below_min.mp h
    refine below_min.mpr ⟨m, min u parent.at_, hm, ?_, (min_le_left _ _).trans_lt hlt⟩
    rw [hu]
    rfl

/-- The scan yields the history up to one entry more than the limit. -/
theorem visibleFrom_eq (minEntryId : Option Id) (limit : Nat) (h : Lineage s id forks)
    (fuel : Nat) (hfuel : forks.length < fuel) (upper : Option Id) (visible : List (EntryRecord P)) :
    s.visibleFrom minEntryId limit fuel id upper visible =
      .ok ((visible ++ s.historyFrom minEntryId id upper forks).take (limit + 1)) := by
  induction h generalizing fuel upper visible with
  | root h hp =>
    obtain ⟨fuel, rfl⟩ := Nat.exists_eq_add_one_of_ne_zero (Nat.ne_of_gt hfuel)
    rw [visibleFrom, historyFrom, h]
    dsimp only
    rw [hp]
    split <;> rfl
  | @fork id conversation parent forks h hp rest ih =>
    obtain ⟨fuel, rfl⟩ := Nat.exists_eq_add_one_of_ne_zero (Nat.ne_of_gt (Nat.zero_lt_of_lt hfuel))
    rw [visibleFrom, historyFrom, h]
    dsimp only
    rw [hp, ← append_assoc]
    dsimp only
    split
    · rename_i hfull
      rw [length_take] at hfull
      exact congrArg _ (take_append_of_le_length (by omega)).symm
    · rename_i hroom
      rw [length_take] at hroom
      have hshort : (visible ++ s.segment id minEntryId upper).take (limit + 1) =
          visible ++ s.segment id minEntryId upper := take_of_length_le (by omega)
      split
      · rename_i hstop
        rw [historyFrom_empty hs _ _ _ hstop, append_nil]
      · rw [hshort]
        exact ih fuel (by simpa using hfuel) _ _

theorem findHeadFrom_eq (h : Lineage s id forks) (fuel : Nat) (hfuel : forks.length < fuel)
    (upper : Option Id) :
    s.findHeadFrom fuel id upper = .ok ((s.historyFrom none id upper forks).find? (·.head.isSome)) := by
  have hfirst : ∀ (id : Id) (upper : Option Id) (i : Id), (upTo (s.headEntryIds id) upper).getLast? = some i →
        ∃ e, s.entries i = some e ∧ (s.segment id none upper).find? (·.head.isSome) = some e := by
    intro id upper i hi
    obtain ⟨⟨e, he, -⟩, -⟩ := ((upTo_lists (hs.heads id) upper).mem i).mp (mem_of_getLast? hi)
    exact ⟨e, he, by rw [segment_head hs, hi, bind_some, he]⟩
  induction h generalizing fuel upper with
  | @root id conversation h hp =>
    obtain ⟨fuel, rfl⟩ := Nat.exists_eq_add_one_of_ne_zero (Nat.ne_of_gt hfuel)
    rw [findHeadFrom, historyFrom]
    split
    · rename_i i hi
      obtain ⟨e, he, hfind⟩ := hfirst id upper i hi
      rw [he, hfind]
    · rename_i hnone
      rw [h, segment_head hs, hnone]
      dsimp only
      rw [hp]
      rfl
  | @fork id conversation parent forks h hp rest ih =>
    obtain ⟨fuel, rfl⟩ := Nat.exists_eq_add_one_of_ne_zero (Nat.ne_of_gt (Nat.zero_lt_of_lt hfuel))
    rw [findHeadFrom, historyFrom, find?_append]
    split
    · rename_i i hi
      obtain ⟨e, he, hfind⟩ := hfirst id upper i hi
      rw [he, hfind]
      rfl
    · rename_i hnone
      rw [h, segment_head hs, hnone]
      dsimp only
      rw [hp]
      exact ih fuel (by simpa using hfuel) _

/-! ## What the history shows -/

omit hs

/-- The conversations whose entries another shows, each with the least fork point on the way. -/
inductive Shows (s : MemoryStorage P) (conversationId : Id) : Id → Option Id → Prop where
  | self : Shows s conversationId conversationId none
  | parent {id : Id} {cap : Option Id} {conversation : ConversationRecord P} {fork : Fork}
    (h : Shows s conversationId id cap) (hc : s.conversations id = some conversation)
    (hp : conversation.parent = some fork) :
    Shows s conversationId fork.conversationId (lower cap fork.at_)

/-- The entries that a query is for. -/
def Visible (s : MemoryStorage P) (query : EntryQuery) (e : EntryRecord P) : Prop :=
  s.entries e.id = some e ∧ (∃ cap, s.Shows query.conversationId e.conversationId cap ∧ within cap e.id) ∧
    (∀ m, query.minEntryId = some m → m ≤ e.id) ∧ within query.maxEntryId e.id

/-- Every entry of a forked conversation is newer than its fork point. -/
def Ordered (s : MemoryStorage P) : Prop :=
  ∀ id conversation fork, s.conversations id = some conversation → conversation.parent = some fork →
    ∀ e, s.entries e.id = some e → e.conversationId = id → fork.at_ < e.id

def Forest (s : MemoryStorage P) : Prop := ∀ id, (s.conversations id).isSome = true → ∃ forks, Lineage s id forks

theorem Shows.trans {parent : Id} {cap : Option Id} {conversation : ConversationRecord P} {fork : Fork}
    (hc : s.conversations id = some conversation) (hp : conversation.parent = some fork)
    (h : s.Shows fork.conversationId parent cap) :
    s.Shows id parent (lower cap fork.at_) := by
  induction h with
  | self => exact .parent .self hc hp
  | parent _ hc' hp' ih =>
    rw [lower_comm]
    exact .parent ih hc' hp'

theorem Shows.step {other : Id} {cap : Option Id} (h : s.Shows id other cap) :
    (other = id ∧ cap = none) ∨ ∃ conversation fork cap', s.conversations id = some conversation ∧
      conversation.parent = some fork ∧ s.Shows fork.conversationId other cap' ∧
      cap = lower cap' fork.at_ := by
  induction h with
  | self => exact .inl ⟨rfl, rfl⟩
  | @parent other cap conversation fork h hc hp ih =>
    rcases ih with ⟨rfl, rfl⟩ | ⟨conv, f, cap', hconv, hparent, hshows, rfl⟩
    · exact .inr ⟨_, _, none, hc, hp, .self, rfl⟩
    · exact .inr ⟨conv, f, _, hconv, hparent, .parent hshows hc hp, lower_comm ..⟩

theorem mem_historyFrom (hs : s.EntryTable) (h : Lineage s id forks) {upper : Option Id} :
    e ∈ s.historyFrom minEntryId id upper forks ↔ s.entries e.id = some e ∧
      (∃ cap, s.Shows id e.conversationId cap ∧ within cap e.id) ∧
      (∀ m, minEntryId = some m → m ≤ e.id) ∧ within upper e.id := by
  induction h generalizing upper with
  | @root id conversation h hp =>
    rw [historyFrom, mem_segment hs]
    constructor
    · rintro ⟨he, hconv, hmin, hupper⟩
      exact ⟨he, ⟨none, hconv ▸ .self, fun _ h => by cases h⟩, hmin, hupper⟩
    · rintro ⟨he, ⟨cap, hshows, -⟩, hmin, hupper⟩
      rcases hshows.step with ⟨hconv, -⟩ | ⟨conv, fork, -, hconv, hparent, -⟩
      · exact ⟨he, hconv, hmin, hupper⟩
      · obtain rfl := some.inj (h.symm.trans hconv)
        rw [hp] at hparent
        cases hparent
  | @fork id conversation parent forks h hp rest ih =>
    rw [historyFrom, mem_append, mem_segment hs, ih]
    constructor
    · rintro (⟨he, hconv, hmin, hupper⟩ | ⟨he, ⟨cap, hshows, hcap⟩, hmin, hupper⟩)
      · exact ⟨he, ⟨none, hconv ▸ .self, fun _ h => by cases h⟩, hmin, hupper⟩
      · obtain ⟨hupper, hat⟩ := within_lower.mp hupper
        exact ⟨he, ⟨_, .trans h hp hshows, within_lower.mpr ⟨hcap, hat⟩⟩, hmin, hupper⟩
    · rintro ⟨he, ⟨cap, hshows, hcap⟩, hmin, hupper⟩
      rcases hshows.step with ⟨hconv, -⟩ | ⟨conv, fork, cap', hconv, hparent, hshows', rfl⟩
      · exact .inl ⟨he, hconv, hmin, hupper⟩
      · obtain rfl := some.inj (h.symm.trans hconv)
        obtain rfl := some.inj (hp.symm.trans hparent)
        obtain ⟨hcap, hat⟩ := within_lower.mp hcap
        exact .inr ⟨he, ⟨cap', hshows', hcap⟩, hmin, within_lower.mpr ⟨hupper, hat⟩⟩

theorem historyFrom_descending (hs : s.EntryTable) (ho : s.Ordered) (minEntryId : Option Id) (h : Lineage s id forks)
    (upper : Option Id) :
    Descending (s.historyFrom minEntryId id upper forks) := by
  induction h generalizing upper with
  | root h hp => exact segment_descending hs _ _ _
  | @fork id conversation parent forks h hp rest ih =>
    refine pairwise_append.mpr ⟨segment_descending hs _ _ _, ih _, fun e he e' he' => ?_⟩
    obtain ⟨hstor, hconv, -, -⟩ := (mem_segment hs).mp he
    have hle := (within_lower.mp ((mem_historyFrom hs rest).mp he').2.2.2).2
    exact hle.trans_lt (ho id conversation parent h hp e hstor hconv)

/-! ## Reading by pages -/

def EntryQuery.upper (query : EntryQuery) : Option Id → Option Id
  | none => query.maxEntryId
  | some after => lower query.maxEntryId (after - 1)

theorem scanEntries_eq (hs : s.Inv) (query : EntryQuery) (h : Lineage s query.conversationId forks)
    (cursor : Option Id) (limit : Nat) :
    s.scanEntries query cursor limit = .ok (page EntryRecord.id
      ((s.historyFrom query.minEntryId query.conversationId (EntryQuery.upper query cursor) forks).take
        (limit + 1)) limit) := by
  unfold scanEntries
  rw [if_neg (by simp [isSome_iff_ne_none.mp h.stored]),
    visibleFrom_eq hs.tables.entries query.minEntryId limit h _ (h.length_lt hs.tables.conversations)]
  cases cursor <;> rfl

/-- A later storage, in which what is new is newer than what the query shows. -/
structure After (s m : MemoryStorage P) (query : EntryQuery) : Prop where
  inv : m.Inv
  conversations : ∀ id value, s.conversations id = some value → m.conversations id = some value
  entries : ∀ id value, s.entries id = some value → m.entries id = some value
  newer : ∀ id value, m.entries id = some value → s.entries id = some value ∨ ∀ e, s.Visible query e → e.id < value.id

/-- The entries that others commit are newer than what the query shows. -/
def Newer (s : MemoryStorage P) (query : EntryQuery) (calls : List (StorageCall P)) : Prop :=
  ∀ writes, .commit writes ∈ calls → ∀ value, .entry value ∈ writes → ∀ e, s.Visible query e → e.id < value.id

variable {m : MemoryStorage P}

theorem commit_entries (hm : m.Inv) (writes : List (StorageWrite P)) {value : EntryRecord P}
    (h : (m.commit writes).2.entries id = some value) :
    m.entries id = some value ∨ .entry value ∈ writes := by
  rcases commit_cases hm writes with ⟨e, -, hc⟩ | ⟨actions, m', -, hc, hacc⟩
  · rw [hc] at h
    exact .inl h
  · rw [hc] at h
    rw [hacc.acted.frame.2.2.1] at h
    exact entries_writes m m.nextSeq writes h

variable {query : EntryQuery}

theorem After.calls (h : After s m query) {calls : List (StorageCall P)} (hnewer : s.Newer query calls) :
    After s (calls.foldl call m) query := by
  induction calls generalizing m with
  | nil => exact h
  | cons c calls ih =>
    refine ih ?_ fun writes hmem => hnewer writes (.tail _ hmem)
    refine ⟨h.inv.call c, ?_, ?_, ?_⟩
    all_goals cases c with
    | mintId =>
      rw [call, mintId]
      split
      · first | exact h.conversations | exact h.entries | exact h.newer
      · first | exact h.conversations | exact h.entries | exact h.newer
    | commit writes => ?_
    · exact fun id value hid => (commit_keeps h.inv writes).1 id value (h.conversations id value hid)
    · exact fun id value hid => ((commit_keeps h.inv writes).2 id value (h.entries id value hid)).1
    · intro id value hid
      rcases commit_entries h.inv writes hid with hid | hmem
      · exact h.newer id value hid
      · exact .inr (hnewer writes (.head _) value hmem)

theorem After.lineage (h : After s m query) (hl : Lineage s id forks) : Lineage m id forks := by
  induction hl with
  | root hc hp => exact .root (h.conversations _ _ hc) hp
  | fork hc hp _ ih => exact .fork (h.conversations _ _ hc) hp ih

/-- Below an entry that was shown, the later storage shows what the first one did. -/
theorem After.historyFrom (h : After s m query) (hs : s.EntryTable) {v : EntryRecord P} (hv : s.Visible query v)
    (minEntryId : Option Id) (id : Id) (upper : Option Id) (hupper : ∀ i, within upper i → i < v.id)
    (forks : List Fork) :
    m.historyFrom minEntryId id upper forks = s.historyFrom minEntryId id upper forks := by
  have hm := h.inv.tables.entries
  have hseg : ∀ id upper, (∀ i, within upper i → i < v.id) →
      m.segment id minEntryId upper = s.segment id minEntryId upper := by
    intro id upper hupper
    refine (segment_descending hm _ _ _).unique (segment_descending hs _ _ _) fun e => ?_
    rw [mem_segment hm, mem_segment hs]
    refine ⟨fun ⟨he, hrest⟩ => ⟨?_, hrest⟩, fun ⟨he, hrest⟩ => ⟨h.entries _ _ he, hrest⟩⟩
    rcases h.newer _ _ he with hold | hnew
    · exact hold
    · exact absurd (hnew v hv) (lt_asymm (hupper e.id hrest.2.2))
  induction forks generalizing id upper with
  | nil => exact hseg id upper hupper
  | cons parent forks ih =>
    rw [MemoryStorage.historyFrom, MemoryStorage.historyFrom, hseg id upper hupper,
      ih _ _ fun i hi => hupper i (within_lower.mp hi).1]

/-- What the page after a shown entry starts from. -/
theorem After.rest (h : After s m query) (hs : s.EntryTable) (ho : s.Ordered)
    (hl : Lineage s query.conversationId forks) {front back : List (EntryRecord P)} {v : EntryRecord P}
    (hsplit : s.historyFrom query.minEntryId query.conversationId query.maxEntryId forks = front ++ v :: back) :
    m.historyFrom query.minEntryId query.conversationId (EntryQuery.upper query (some v.id)) forks = back := by
  have hmem : v ∈ s.historyFrom query.minEntryId query.conversationId query.maxEntryId forks :=
    hsplit ▸ mem_append_right _ (.head _)
  have hdesc := historyFrom_descending hs ho query.minEntryId hl query.maxEntryId
  rw [hsplit] at hdesc
  obtain ⟨-, hback, hcross⟩ := pairwise_append.mp hdesc
  obtain ⟨hbelow, hback⟩ := pairwise_cons.mp hback
  rw [EntryQuery.upper, h.historyFrom hs ((mem_historyFrom hs hl).mp hmem) _ _ _
    fun i hi => Int.le_sub_one_iff.mp (within_lower.mp hi).2]
  refine (historyFrom_descending hs ho _ hl _).unique hback fun e => ?_
  rw [mem_historyFrom hs hl]
  constructor
  · rintro ⟨he, hshown, hmin, hupper⟩
    obtain ⟨hmax, hlt⟩ := within_lower.mp hupper
    have hin := (mem_historyFrom hs hl).mpr ⟨he, hshown, hmin, hmax⟩
    rw [hsplit] at hin
    have hlt : e.id < v.id := Int.le_sub_one_iff.mp hlt
    rcases mem_append.mp hin with hin | hin
    · exact absurd (hcross e hin v (.head _)) (lt_asymm hlt)
    · rcases mem_cons.mp hin with rfl | hin
      · exact absurd hlt (lt_irrefl _)
      · exact hin
  · intro hin
    have hin' : e ∈ s.historyFrom query.minEntryId query.conversationId query.maxEntryId forks :=
      hsplit ▸ mem_append_right _ (.tail _ hin)
    obtain ⟨he, hshown, hmin, hmax⟩ := (mem_historyFrom hs hl).mp hin'
    exact ⟨he, hshown, hmin, within_lower.mpr ⟨hmax, Int.le_sub_one_iff.mpr (hbelow e hin)⟩⟩

/-- Pages are read until there is no next one; after each of them others call. -/
def follow (query : EntryQuery) : MemoryStorage P → Option Id → List (Nat × List (StorageCall P)) →
    Except StorageError (List (EntryRecord P) × Bool)
  | _, _, [] => .ok ([], false)
  | s, cursor, (limit, calls) :: plan =>
    match s.scanEntries query cursor limit with
    | .error e => .error e
    | .ok ⟨items, none⟩ => .ok (items, true)
    | .ok ⟨items, some next⟩ =>
      (follow query (calls.foldl call s) (some next) plan).map fun (rest, done) => (items ++ rest, done)

/-- Reading on from a cursor yields the rest of the list, as far as the plan goes. -/
theorem follow_ok (hs : s.EntryTable) (ho : s.Ordered) (query : EntryQuery)
    (hl : Lineage s query.conversationId forks) (plan : List (Nat × List (StorageCall P)))
    (hplan : ∀ round ∈ plan, 1 ≤ round.1 ∧ s.Newer query round.2) (hm : After s m query) (cursor : Option Id)
    (front rest : List (EntryRecord P))
    (hsplit : s.historyFrom query.minEntryId query.conversationId query.maxEntryId forks = front ++ rest)
    (hrest : m.historyFrom query.minEntryId query.conversationId (EntryQuery.upper query cursor) forks = rest) :
    ∃ items done, follow query m cursor plan = .ok (items, done) ∧ items <+: rest ∧
      (done = true → items = rest) ∧ (rest.length < plan.length → done = true) := by
  induction plan generalizing m cursor front rest with
  | nil => exact ⟨[], false, rfl, nil_prefix, fun h => (by cases h), fun h => (by cases h)⟩
  | cons round plan ih =>
    obtain ⟨limit, calls⟩ := round
    obtain ⟨hlimit, hnewer⟩ := hplan _ (.head _)
    rw [follow, scanEntries_eq hm.inv query (hm.lineage hl), hrest]
    by_cases hend : rest.length ≤ limit
    · have hall : rest.take (limit + 1) = rest := take_of_length_le (by omega)
      refine ⟨rest, true, ?_, prefix_refl _, fun _ => rfl, fun _ => rfl⟩
      rw [hall, page, if_pos hend, take_of_length_le hend]
    · -- the page is full, and its last entry is where the next one goes on
      have hlast : rest.take limit ≠ [] := by
        intro hnil
        have hlen := congrArg length hnil
        rw [length_take, length_nil] at hlen
        omega
      obtain ⟨before, v, htake⟩ := eq_nil_or_concat _ |>.resolve_left hlast
      have hsplit' : s.historyFrom query.minEntryId query.conversationId query.maxEntryId forks =
          (front ++ before) ++ v :: rest.drop limit := by
        have hcut := take_append_drop limit rest
        rw [htake] at hcut
        rw [hsplit]
        conv_lhs => rw [← hcut]
        simp
      have hafter := hm.calls hnewer
      obtain ⟨items, done, hfollow, hopens, hdone, hlong⟩ := ih
        (fun round hround => hplan round (.tail _ hround)) hafter (some v.id) (front ++ before ++ [v])
        (rest.drop limit) (by rw [hsplit']; simp) (hafter.rest hs ho hl hsplit')
      refine ⟨rest.take limit ++ items, done, ?_, ?_, fun h => ?_, fun h => hlong ?_⟩
      · have hlen : (rest.take (limit + 1)).length = limit + 1 := by
          rw [length_take]
          omega
        rw [page, if_neg (by omega), take_take, min_eq_left (by omega), htake]
        simp only [concat_eq_append, getLast?_append, getLast?_singleton, some_or, map_some]
        rw [hfollow]
        rfl
      · conv_rhs => rw [← take_append_drop limit rest]
        exact prefix_append_right_inj _ |>.mpr hopens
      · rw [hdone h, take_append_drop]
      · rw [length_drop]
        simp only [length_cons] at h
        omega

/-- In a forest whose forked conversations have entries newer than their fork points, a query
shows a list without repetition, newest first: of the conversation its own entries and of its
ancestors those up to the least fork point on the way. Its pages are that list, whatever newer
entries are committed between them, and its first head marker is the one that is looked up. -/
theorem history_of_pages (calls : List (StorageCall P)) (hforest : (run calls).Forest)
    (hordered : (run calls).Ordered) (query : EntryQuery)
    (hstored : ((run calls).conversations query.conversationId).isSome = true) :
    ∃ history, Descending history ∧ (∀ e, e ∈ history ↔ (run calls).Visible query e) ∧
      (query.minEntryId = none → (run calls).findLatestHeadMarker query.conversationId query.maxEntryId =
        .ok (history.find? (·.head.isSome))) ∧
      ∀ plan, (∀ round ∈ plan, 1 ≤ round.1 ∧ (run calls).Newer query round.2) →
        ∃ items done, follow query (run calls) none plan = .ok (items, done) ∧ items <+: history ∧
          (done = true → items = history) ∧ (history.length < plan.length → done = true) := by
  have hinv : (run calls).Inv := inv_initial.calls calls
  have hs := hinv.tables.entries
  obtain ⟨forks, hl⟩ := hforest _ hstored
  refine ⟨_, historyFrom_descending hs hordered query.minEntryId hl query.maxEntryId,
    fun e => mem_historyFrom hs hl, fun hmin => ?_, fun plan hplan => ?_⟩
  · rw [findLatestHeadMarker, if_neg (by simp [Option.isSome_iff_ne_none.mp hstored]), hmin]
    exact findHeadFrom_eq hs hl _ (hl.length_lt hinv.tables.conversations) _
  · exact follow_ok hs hordered query hl plan hplan ⟨hinv, fun _ _ h => h, fun _ _ h => h,
      fun _ _ h => .inl h⟩ none [] _ rfl rfl

/-- A conversation with two entries, forked at the first. -/
def forkedCalls : List (StorageCall Unit) :=
  [.commit [.conversation ⟨2, none, ()⟩], .commit [.entry ⟨3, 2, some 3, ()⟩, .entry ⟨4, 2, none, ()⟩],
    .commit [.conversation ⟨5, some ⟨2, 3⟩, ()⟩], .commit [.entry ⟨6, 5, none, ()⟩]]

/-- Pages of one entry, and after each of them the fork gets a newer entry. -/
def crossedPlan : List (Nat × List (StorageCall Unit)) :=
  [(1, [.commit [.entry ⟨7, 5, none, ()⟩]]), (1, [.commit [.entry ⟨8, 5, some 8, ()⟩]]), (1, [])]

theorem history_of_pages_forked : ∃ history : List (EntryRecord Unit), Descending history ∧
    (∀ e, e ∈ history ↔ (run forkedCalls).Visible ⟨5, none, none⟩ e) ∧
      follow ⟨5, none, none⟩ (run forkedCalls) none crossedPlan = .ok (history, true) := by
  have hconv : (run forkedCalls).conversations = Function.update (Function.update (fun _ => none) 2
      (some ⟨2, none, ()⟩)) 5 (some ⟨5, some ⟨2, 3⟩, ()⟩) := rfl
  have hentries : (run forkedCalls).entries = Function.update (Function.update (Function.update
      (fun _ => none) 3 (some ⟨3, 2, some 3, ()⟩)) 4 (some ⟨4, 2, none, ()⟩)) 6 (some ⟨6, 5, none, ()⟩) := rfl
  have hroot : Lineage (run forkedCalls) 2 [] := .root (by rw [hconv]; rfl) rfl
  have hforked : Lineage (run forkedCalls) 5 [⟨2, 3⟩] :=
    .fork (by rw [hconv]; exact Function.update_self ..) rfl hroot
  have hforest : (run forkedCalls).Forest := by
    intro id h
    rw [hconv, Function.update_apply, Function.update_apply] at h
    split at h
    · rename_i hid
      exact ⟨_, hid ▸ hforked⟩
    · split at h
      · rename_i hid
        exact ⟨_, hid ▸ hroot⟩
      · cases h
  have hordered : (run forkedCalls).Ordered := by
    intro id conversation fork hc hp e he hid
    rw [hconv, Function.update_apply, Function.update_apply] at hc
    split at hc
    · obtain rfl := Option.some.inj hc
      obtain rfl := Option.some.inj hp
      rename_i hid'
      rw [hid'] at hid
      rw [hentries, Function.update_apply, Function.update_apply, Function.update_apply] at he
      split at he
      · rename_i h6
        rw [h6]
        decide
      · split at he
        · cases he
          cases hid
        · split at he <;> cases he
          cases hid
    · split at hc <;> cases hc
      cases hp
  obtain ⟨history, hdesc, hmem, -, hpages⟩ := history_of_pages forkedCalls hforest hordered ⟨5, none, none⟩ rfl
  -- one page of both entries says what the history is
  obtain rfl : history = [⟨6, 5, none, ()⟩, ⟨3, 2, some 3, ()⟩] := by
    have hquiet : ∀ round ∈ [(2, ([] : List (StorageCall Unit)))],
        1 ≤ round.1 ∧ (run forkedCalls).Newer ⟨5, none, none⟩ round.2 := by
      intro round hround
      obtain rfl := mem_singleton.mp hround
      exact ⟨by decide, fun writes hw => by cases hw⟩
    obtain ⟨items, done, hfollow, -, hdone, -⟩ := hpages [(2, [])] hquiet
    obtain ⟨rfl, rfl⟩ := Prod.mk.inj (Except.ok.inj hfollow)
    exact (hdone rfl).symm
  have hnewer : ∀ round ∈ crossedPlan, 1 ≤ round.1 ∧ (run forkedCalls).Newer ⟨5, none, none⟩ round.2 := by
    have hbelow : ∀ e, (run forkedCalls).Visible ⟨5, none, none⟩ e → e.id ≤ 6 := fun e he => by
      rcases (hmem e).mpr he with _ | ⟨_, _ | ⟨_, h⟩⟩
      · exact Int.le_refl _
      · decide
      · cases h
    intro round hround
    simp only [crossedPlan, mem_cons, not_mem_nil, or_false] at hround
    rcases hround with rfl | rfl | rfl
    · refine ⟨by decide, fun writes hw value hv e he => ?_⟩
      obtain rfl := StorageCall.commit.inj (mem_singleton.mp hw)
      obtain rfl := StorageWrite.entry.inj (mem_singleton.mp hv)
      exact Int.lt_of_le_of_lt (hbelow e he) (by decide)
    · refine ⟨by decide, fun writes hw value hv e he => ?_⟩
      obtain rfl := StorageCall.commit.inj (mem_singleton.mp hw)
      obtain rfl := StorageWrite.entry.inj (mem_singleton.mp hv)
      exact Int.lt_of_le_of_lt (hbelow e he) (by decide)
    · exact ⟨by decide, fun writes hw => by cases hw⟩
  obtain ⟨items, done, hfollow, -, hdone, hlong⟩ := hpages crossedPlan hnewer
  obtain rfl := hlong (by decide)
  obtain rfl := hdone rfl
  exact ⟨_, hdesc, hmem, hfollow⟩

end MemoryStorage

end Shuvpi.Durable
