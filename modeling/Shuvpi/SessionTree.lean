import Shuvpi.SessionCommit

/-!
# The tree of a session

What every sequence of commits leaves in a session storage. A commit is validated against
the state before it and the ids it has inserted itself, and applied afterwards; the two
agree write by write, which keeps the entries a forest whose sequences grow towards the
leaves. Only the addresses of values are checked while a commit is applied.
-/
open List

namespace Shuvpi.SessionTree

variable {Body Val Use : Type}

/-! ## The invariant -/

/-- Ids are unique, a parent is there and older than its child, and sequences grow. -/
structure StorageState.Tree (s : StorageState Body Val Use) : Prop where
  keyed : s.entries = s.entriesBySeq.map fun e => (e.id, e)
  usageKeyed : ∀ p ∈ s.usage, p.1 = p.2.id
  ids : (s.entriesBySeq.map (·.id) ++ s.usage.map Prod.fst).Nodup
  parents : ∀ e ∈ s.entriesBySeq, ∀ p, e.parentId = some p → ∃ parent ∈ s.entriesBySeq, parent.id = p ∧ parent.seq < e.seq
  ordered : s.entriesBySeq.Pairwise fun a b => a.seq < b.seq
  usageOrdered : s.usage.Pairwise fun a b => a.2.seq < b.2.seq
  below : ∀ e ∈ s.entriesBySeq, e.seq < s.nextSeq
  usageBelow : ∀ p ∈ s.usage, p.2.seq < s.nextSeq
  positive : 0 < s.nextSeq
  safe : s.nextSeq ≤ 2 ^ 53

theorem StorageState.empty_tree [UsageSum Use] : (StorageState.empty : StorageState Body Val Use).Tree where
  keyed := rfl
  usageKeyed := by simp [StorageState.empty]
  ids := by simp [StorageState.empty]
  parents := by simp [StorageState.empty]
  ordered := by simp [StorageState.empty]
  usageOrdered := by simp [StorageState.empty]
  below := by simp [StorageState.empty]
  usageBelow := by simp [StorageState.empty]
  positive := Nat.one_pos
  safe := by simp [StorageState.empty]

namespace StorageState

variable {s : StorageState Body Val Use}

theorem keys_eq (h : s.entries = s.entriesBySeq.map fun e => (e.id, e)) :
    s.entries.map Prod.fst = s.entriesBySeq.map (·.id) := by
  rw [h, map_map]
  rfl

theorem Tree.has_entry (h : s.Tree) {id : JsString} :
    s.entries.has id = true ↔ ∃ e ∈ s.entriesBySeq, e.id = id := by
  rw [JsMap.has_iff, keys_eq h.keyed, mem_map]

variable {e : Entry Body}

theorem Tree.get_entry (h : s.Tree) (he : e ∈ s.entriesBySeq) : s.entries.get e.id = some e := by
  have hnodup : (s.entries.map Prod.fst).Nodup := by
    rw [keys_eq h.keyed]
    exact (nodup_append.mp h.ids).1
  refine JsMap.get_of_mem hnodup ?_
  rw [h.keyed]
  exact mem_map_of_mem he

theorem Tree.of_get (h : s.Tree) {id : JsString} (hget : s.entries.get id = some e) :
    e ∈ s.entriesBySeq ∧ e.id = id := by
  have hmem := JsMap.mem_of_get hget
  rw [h.keyed] at hmem
  obtain ⟨e', he', heq⟩ := mem_map.mp hmem
  cases heq
  exact ⟨he', rfl⟩

variable {s' : StorageState Body Val Use}

/-- Writes that are not of entries or usage rows leave the tree as it is. -/
theorem Tree.frame (h : s.Tree) (he : s'.entries = s.entries) (hs : s'.entriesBySeq = s.entriesBySeq)
    (hu : s'.usage = s.usage) (hseq : s.nextSeq ≤ s'.nextSeq) (hsafe : s'.nextSeq ≤ 2 ^ 53) : s'.Tree where
  keyed := by rw [he, hs, h.keyed]
  usageKeyed := by rw [hu]; exact h.usageKeyed
  ids := by rw [hs, hu]; exact h.ids
  parents := by rw [hs]; exact h.parents
  ordered := by rw [hs]; exact h.ordered
  usageOrdered := by rw [hu]; exact h.usageOrdered
  below := by
    rw [hs]
    intro e he
    exact (h.below e he).trans_le hseq
  usageBelow := by
    rw [hu]
    intro p hp
    exact (h.usageBelow p hp).trans_le hseq
  positive := h.positive.trans_le hseq
  safe := hsafe

/-- A new entry under a parent that is there. -/
theorem Tree.insert (h : s.Tree) (hnew : e.id ∉ s.entriesBySeq.map (·.id) ++ s.usage.map Prod.fst)
    (hseq : s.nextSeq ≤ e.seq) (hparent : ∀ p, e.parentId = some p → ∃ parent ∈ s.entriesBySeq, parent.id = p)
    (he : s'.entries = s.entries.set e.id e) (hs : s'.entriesBySeq = s.entriesBySeq ++ [e]) (hu : s'.usage = s.usage)
    (hnext : s'.nextSeq = e.seq + 1) (hsafe : s'.nextSeq ≤ 2 ^ 53) : s'.Tree where
  keyed := by
    have hnot : e.id ∉ s.entries.map Prod.fst := by
      rw [keys_eq h.keyed]
      exact fun hmem => hnew (mem_append_left _ hmem)
    rw [he, hs, JsMap.set_of_not_mem hnot, h.keyed, map_append]
    rfl
  usageKeyed := by rw [hu]; exact h.usageKeyed
  ids := by
    have hperm : (s'.entriesBySeq.map (·.id) ++ s'.usage.map Prod.fst).Perm
        (e.id :: (s.entriesBySeq.map (·.id) ++ s.usage.map Prod.fst)) := by
      rw [hs, hu, map_append, map_cons, map_nil, append_assoc, cons_append, nil_append]
      exact perm_middle
    exact hperm.nodup_iff.mpr (nodup_cons.mpr ⟨hnew, h.ids⟩)
  parents := by
    intro c hc p hp
    rw [hs] at hc ⊢
    rcases mem_append.mp hc with hc | hc
    · obtain ⟨parent, hmem, hid, hlt⟩ := h.parents c hc p hp
      exact ⟨parent, mem_append_left _ hmem, hid, hlt⟩
    · rw [mem_singleton.mp hc] at hp ⊢
      obtain ⟨parent, hmem, hid⟩ := hparent p hp
      exact ⟨parent, mem_append_left _ hmem, hid, (h.below parent hmem).trans_le hseq⟩
  ordered := by
    rw [hs, pairwise_append]
    refine ⟨h.ordered, pairwise_singleton _ _, ?_⟩
    intro a ha b hb
    rw [mem_singleton.mp hb]
    exact (h.below a ha).trans_le hseq
  usageOrdered := by rw [hu]; exact h.usageOrdered
  below := by
    rw [hs, hnext]
    intro c hc
    rcases mem_append.mp hc with hc | hc
    · exact ((h.below c hc).trans_le hseq).trans (Nat.lt_succ_self _)
    · rw [mem_singleton.mp hc]
      exact Nat.lt_succ_self _
  usageBelow := by
    rw [hu, hnext]
    intro p hp
    exact ((h.usageBelow p hp).trans_le hseq).trans (Nat.lt_succ_self _)
  positive := by omega
  safe := hsafe

/-- A new usage row. -/
theorem Tree.insertRow (h : s.Tree) {row : UsageRow Val Use}
    (hnew : row.id ∉ s.entriesBySeq.map (·.id) ++ s.usage.map Prod.fst) (hseq : s.nextSeq ≤ row.seq)
    (he : s'.entries = s.entries) (hs : s'.entriesBySeq = s.entriesBySeq) (hu : s'.usage = s.usage.set row.id row)
    (hnext : s'.nextSeq = row.seq + 1) (hsafe : s'.nextSeq ≤ 2 ^ 53) : s'.Tree := by
  have hset : s'.usage = s.usage ++ [(row.id, row)] := by
    rw [hu, JsMap.set_of_not_mem (fun hmem => hnew (mem_append_right _ hmem))]
  refine ⟨by rw [he, hs, h.keyed], ?_, ?_, by rw [hs]; exact h.parents, by rw [hs]; exact h.ordered, ?_, ?_, ?_,
    by omega, hsafe⟩
  · intro p hp
    rw [hset] at hp
    rcases mem_append.mp hp with hp | hp
    · exact h.usageKeyed p hp
    · rw [mem_singleton.mp hp]
  · rw [hs, hset, map_append, ← append_assoc]
    have hperm := perm_append_singleton row.id (s.entriesBySeq.map (·.id) ++ s.usage.map Prod.fst)
    exact hperm.nodup_iff.mpr (nodup_cons.mpr ⟨hnew, h.ids⟩)
  · rw [hset, pairwise_append]
    refine ⟨h.usageOrdered, pairwise_singleton _ _, ?_⟩
    intro a ha b hb
    rw [mem_singleton.mp hb]
    exact (h.usageBelow a ha).trans_le hseq
  · rw [hs, hnext]
    intro c hc
    exact ((h.below c hc).trans_le hseq).trans (Nat.lt_succ_self _)
  · rw [hset, hnext]
    intro p hp
    rcases mem_append.mp hp with hp | hp
    · exact ((h.usageBelow p hp).trans_le hseq).trans (Nat.lt_succ_self _)
    · rw [mem_singleton.mp hp]
      exact Nat.lt_succ_self _

end StorageState

/-! ## Validation and application -/

/-- The address of a value that is set or of an element that is appended; applying the write checks it. -/
def CommittedWrite.address? : CommittedWrite Body Val Use → Option Address
  | .setValue _ address _ => some address
  | .appendList _ address _ => some address
  | _ => none

def CommittedWrite.Addressed (write : CommittedWrite Body Val Use) : Prop :=
  ∀ address, write.address? = some address → address.validateAddress = .ok ()

instance (write : CommittedWrite Body Val Use) : Decidable write.Addressed :=
  match h : write.address? with
  | none => .isTrue (by intro address ha; rw [h] at ha; cases ha)
  | some address =>
    if hok : address.validateAddress = .ok () then .isTrue (by intro a ha; rw [h] at ha; cases ha; exact hok)
    else .isFalse (fun hall => hok (hall address h))

namespace StorageState

/-- `s` is the state that the writes seen so far have led to from the state that is validated against. -/
structure Reaches (state : CommitValidationState) (seen : Seen) (s : StorageState Body Val Use) : Prop where
  tree : s.Tree
  next : s.nextSeq = seen.previousSeq + 1
  ids : ∀ id, (s.entries.has id || s.usage.has id) = true →
    (state.hasEntryOrUsageId id || seen.transactionIds.contains id) = true
  entryIds : ∀ id, (state.hasEntryId id || seen.transactionEntryIds.contains id) = true → s.entries.has id = true

variable {s : StorageState Body Val Use}

theorem Tree.reaches (h : s.Tree) : Reaches s.validation ⟨nearestDouble (s.nextSeq - 1), [], []⟩ s where
  tree := h
  next := by
    have hsafe := h.safe
    have hpos := h.positive
    have hprev : nearestDouble (s.nextSeq - 1) = s.nextSeq - 1 := nearestDouble_of_le (by omega)
    dsimp only
    omega
  ids := by
    intro id hid
    rw [Bool.or_eq_true]
    exact .inl hid
  entryIds := by
    intro id hid
    simpa [validation] using hid

variable {state : CommitValidationState} {seen : Seen}

theorem Reaches.not_mem (h : Reaches state seen s) {id : JsString}
    (hid : (state.hasEntryOrUsageId id || seen.transactionIds.contains id) = false) :
    id ∉ s.entriesBySeq.map (·.id) ++ s.usage.map Prod.fst := by
  intro hmem
  have hhas : (s.entries.has id || s.usage.has id) = true := by
    rw [Bool.or_eq_true, JsMap.has_iff, JsMap.has_iff, keys_eq h.tree.keyed]
    exact mem_append.mp hmem
  rw [h.ids id hhas] at hid
  cases hid

/-- What a write does to the tree, by its kind. -/
def Changes (s s' : StorageState Body Val Use) : CommittedWrite Body Val Use → Prop
  | .entry e => s'.entries = s.entries.set e.id e ∧ s'.entriesBySeq = s.entriesBySeq ++ [e] ∧ s'.usage = s.usage
  | .usage row => s'.entries = s.entries ∧ s'.entriesBySeq = s.entriesBySeq ∧ s'.usage = s.usage.set row.id row
  | _ => s'.entries = s.entries ∧ s'.entriesBySeq = s.entriesBySeq ∧ s'.usage = s.usage

variable {write : CommittedWrite Body Val Use} {s' : StorageState Body Val Use}

theorem applyWrite_ok [UsageSum Use] (h : s.applyWrite write = .ok s') :
    s'.nextSeq = nearestDouble (write.seq + 1) ∧ Changes s s' write := by
  rw [applyWrite] at h
  cases write with
  | setValue seq address value =>
    rw [applyKind, setScalar] at h
    cases hv : address.validateAddress with
    | error error => rw [hv] at h; cases h
    | ok u => rw [hv] at h; cases h; exact ⟨rfl, rfl, rfl, rfl⟩
  | appendList seq address value =>
    rw [applyKind, appendElement] at h
    cases hg : s.listValues.get address.physicalKey with
    | some stored => rw [hg] at h; cases h; exact ⟨rfl, rfl, rfl, rfl⟩
    | none =>
      rw [hg] at h
      cases hv : address.validateAddress with
      | error error => rw [hv] at h; cases h
      | ok u => rw [hv] at h; cases h; exact ⟨rfl, rfl, rfl, rfl⟩
  | _ => cases h; exact ⟨rfl, rfl, rfl, rfl⟩

/-- Only the check of an address can end the loop of `applyValidated` early. -/
theorem applyWrite_addressed [UsageSum Use] (s : StorageState Body Val Use) (h : write.Addressed) :
    ∃ s', s.applyWrite write = .ok s' := by
  cases write with
  | setValue seq address value =>
    rw [applyWrite, applyKind, setScalar, h address rfl]
    exact ⟨_, rfl⟩
  | appendList seq address value =>
    rw [applyWrite, applyKind, appendElement, h address rfl]
    cases s.listValues.get address.physicalKey with
    | none | some => exact ⟨_, rfl⟩
  | _ => exact ⟨_, rfl⟩

variable {seen' : Seen}

/-- The three checks of `validateWrite`. -/
theorem validateWrite_ok (h : validateWrite state seen write = .ok seen') :
    seen.previousSeq < write.seq ∧ seen'.previousSeq = write.seq := by
  unfold validateWrite at h
  split at h
  · cases h
  · rename_i hlt
    refine ⟨Nat.lt_of_not_le hlt, ?_⟩
    cases write with
    | entry e =>
      dsimp only at h
      split at h
      · cases h
      · split at h
        · cases h
        · cases h
          rfl
    | usage row =>
      dsimp only at h
      split at h
      · cases h
      · cases h
        rfl
    | setValue seq address value | deleteValue seq address | appendList seq address value | deleteList seq address =>
      cases h
      rfl

variable {e : Entry Body}

theorem validateWrite_entry (h : validateWrite state seen (.entry e : CommittedWrite Body Val Use) = .ok seen') :
    (state.hasEntryOrUsageId e.id || seen.transactionIds.contains e.id) = false ∧ state.missingParent seen e = none ∧
      seen' = ⟨e.seq, e.id :: seen.transactionIds, e.id :: seen.transactionEntryIds⟩ := by
  unfold validateWrite at h
  split at h
  · cases h
  · dsimp only at h
    split at h
    · cases h
    · rename_i hid
      split at h
      · cases h
      · rename_i hparent
        cases h
        exact ⟨by simpa using hid, hparent, rfl⟩

theorem validateWrite_usage {row : UsageRow Val Use}
    (h : validateWrite state seen (.usage row : CommittedWrite Body Val Use) = .ok seen') :
    (state.hasEntryOrUsageId row.id || seen.transactionIds.contains row.id) = false ∧
      seen' = ⟨row.seq, row.id :: seen.transactionIds, seen.transactionEntryIds⟩ := by
  unfold validateWrite at h
  split at h
  · cases h
  · dsimp only at h
    split at h
    · cases h
    · rename_i hid
      cases h
      exact ⟨by simpa using hid, rfl⟩

theorem missingParent_none (h : state.missingParent seen e = none) {p : JsString} (hp : e.parentId = some p) :
    (state.hasEntryId p || seen.transactionEntryIds.contains p) = true := by
  rw [CommitValidationState.missingParent, hp] at h
  dsimp only at h
  split at h
  · assumption
  · cases h

theorem has_set {α : Type} (m : JsMap JsString α) (key id : JsString) (value : α) :
    (m.set key value).has id = true ↔ key = id ∨ m.has id = true := by
  rw [JsMap.has, JsMap.has, JsMap.get_set]
  by_cases h : key = id
  · simp [h]
  · simp [h]

/-- One write, validated and applied. -/
theorem Reaches.step [UsageSum Use] (h : Reaches state seen s) (hv : validateWrite state seen write = .ok seen')
    (ha : s.applyWrite write = .ok s') (hsafe : write.seq ≤ JsNumber.MAX_SAFE_INTEGER) : Reaches state seen' s' := by
  obtain ⟨hlt, hprev⟩ := validateWrite_ok hv
  obtain ⟨hnext, hchg⟩ := applyWrite_ok ha
  have hle : write.seq + 1 ≤ 2 ^ 53 := by
    unfold JsNumber.MAX_SAFE_INTEGER at hsafe
    omega
  have hseq : s.nextSeq ≤ write.seq := by
    have hs := h.next
    omega
  rw [nearestDouble_of_le hle] at hnext
  have hsafe' : s'.nextSeq ≤ 2 ^ 53 := hnext ▸ hle
  cases write with
  | entry e =>
    obtain ⟨hid, hparent, rfl⟩ := validateWrite_entry hv
    obtain ⟨he, hs, hu⟩ := hchg
    have hpars : ∀ p, e.parentId = some p → ∃ parent ∈ s.entriesBySeq, parent.id = p := by
      intro p hp
      exact h.tree.has_entry.mp (h.entryIds p (missingParent_none hparent hp))
    refine ⟨h.tree.insert (h.not_mem hid) hseq hpars he hs hu hnext hsafe', hnext, ?_, ?_⟩
    · intro id hin
      rw [he, hu, Bool.or_eq_true, has_set] at hin
      have hold := h.ids id
      simp only [Bool.or_eq_true, contains_iff_mem, mem_cons] at hin hold ⊢
      rcases hin with (rfl | hin) | hin
      · exact .inr (.inl rfl)
      · rcases hold (.inl hin) with hold | hold
        · exact .inl hold
        · exact .inr (.inr hold)
      · rcases hold (.inr hin) with hold | hold
        · exact .inl hold
        · exact .inr (.inr hold)
    · intro id hin
      rw [he, has_set]
      have hold := h.entryIds id
      simp only [Bool.or_eq_true, contains_iff_mem, mem_cons] at hin hold ⊢
      rcases hin with hin | rfl | hin
      · exact .inr (hold (.inl hin))
      · exact .inl rfl
      · exact .inr (hold (.inr hin))
  | usage row =>
    obtain ⟨hid, rfl⟩ := validateWrite_usage hv
    obtain ⟨he, hs, hu⟩ := hchg
    refine ⟨h.tree.insertRow (h.not_mem hid) hseq he hs hu hnext hsafe', hnext, ?_, ?_⟩
    · intro id hin
      rw [he, hu, Bool.or_eq_true, has_set] at hin
      have hold := h.ids id
      simp only [Bool.or_eq_true, contains_iff_mem, mem_cons] at hin hold ⊢
      rcases hin with hin | rfl | hin
      · rcases hold (.inl hin) with hold | hold
        · exact .inl hold
        · exact .inr (.inr hold)
      · exact .inr (.inl rfl)
      · rcases hold (.inr hin) with hold | hold
        · exact .inl hold
        · exact .inr (.inr hold)
    · intro id hin
      rw [he]
      exact h.entryIds id hin
  | setValue seq address value | deleteValue seq address | appendList seq address value | deleteList seq address =>
    obtain ⟨he, hs, hu⟩ := hchg
    have hseen : seen' = { seen with previousSeq := seq } := by
      unfold validateWrite at hv
      rw [if_neg (Nat.not_le_of_lt hlt)] at hv
      cases hv
      rfl
    subst hseen
    refine ⟨h.tree.frame he hs hu (by rw [hnext]; omega) hsafe', hnext, ?_, ?_⟩
    · rw [he, hu]
      exact h.ids
    · rw [he]
      exact h.entryIds

variable {writes : List (CommittedWrite Body Val Use)}

theorem applyValidated_addressed [UsageSum Use] (s : StorageState Body Val Use) (h : ∀ w ∈ writes, w.Addressed) :
    (s.applyValidated writes).2 = none := by
  induction writes generalizing s with
  | nil => rfl
  | cons w writes ih =>
    obtain ⟨s₁, hs₁⟩ := s.applyWrite_addressed (h w mem_cons_self)
    rw [applyValidated, hs₁]
    exact ih s₁ fun v hv => h v (mem_cons_of_mem _ hv)

/-- Where the addresses after the first write are accepted, a failure leaves the state as it was. -/
theorem applyValidated_tail [UsageSum Use] (s : StorageState Body Val Use) (h : ∀ w ∈ writes.tail, w.Addressed) :
    (s.applyValidated writes).2 = none ∨ ∃ error, s.applyValidated writes = (s, some error) := by
  cases writes with
  | nil => exact .inl rfl
  | cons w writes =>
    rw [applyValidated]
    cases hs₁ : s.applyWrite w with
    | error error => exact .inr ⟨error, rfl⟩
    | ok s₁ => exact .inl (s₁.applyValidated_addressed h)

/-- A whole batch, validated and applied. -/
theorem Reaches.batch [UsageSum Use] (h : Reaches state seen s) (hv : validateWrites state seen writes = .ok ())
    (hsafe : ∀ w ∈ writes, w.seq ≤ JsNumber.MAX_SAFE_INTEGER) (ha : (s.applyValidated writes).2 = none) :
    ∃ s', s.applyValidated writes = (s', none) ∧ s'.Tree ∧ s.nextSeq ≤ s'.nextSeq ∧
      (∀ w ∈ writes, s.nextSeq ≤ w.seq ∧ w.seq < s'.nextSeq) ∧ (writes.map (·.seq)).Pairwise (· < ·) := by
  induction writes generalizing seen s with
  | nil => exact ⟨s, rfl, h.tree, Nat.le_refl _, by simp, List.Pairwise.nil⟩
  | cons w writes ih =>
    rw [validateWrites] at hv
    cases hw : validateWrite state seen w with
    | error error =>
      rw [hw] at hv
      cases hv
    | ok seen' =>
      rw [hw] at hv
      rw [applyValidated] at ha ⊢
      cases hs₁ : s.applyWrite w with
      | error error =>
        rw [hs₁] at ha
        cases ha
      | ok s₁ =>
        rw [hs₁] at ha
        have h₁ := h.step hw hs₁ (hsafe w mem_cons_self)
        obtain ⟨s', happly, htree, hle, hbounds, hsort⟩ := ih h₁ hv (fun v hv => hsafe v (mem_cons_of_mem _ hv)) ha
        obtain ⟨hlt, hprev⟩ := validateWrite_ok hw
        have hnext := h.next
        have hnext₁ := h₁.next
        refine ⟨s', happly, htree, by omega, ?_, ?_⟩
        · intro v hv
          rcases mem_cons.mp hv with rfl | hv
          · omega
          · have hv := hbounds v hv
            omega
        · rw [map_cons, pairwise_cons]
          refine ⟨?_, hsort⟩
          intro n hn
          obtain ⟨v, hv, rfl⟩ := mem_map.mp hn
          have hv := hbounds v hv
          omega

/-! ## The walk to the root -/

/-- Sequences fall along the parents, so that the walk from an entry ends within as many rounds as its sequence. -/
theorem Tree.walk (h : s.Tree) (he : e ∈ s.entriesBySeq) :
    ∃ path, ∀ fuel, e.seq < fuel → s.walk fuel e = some (.ok path) := by
  obtain ⟨n, hn⟩ : ∃ n, n = e.seq := ⟨_, rfl⟩
  induction n using Nat.strong_induction_on generalizing e with
  | _ n ih =>
    cases hp : e.parentId with
    | none =>
      refine ⟨[e], ?_⟩
      intro fuel hfuel
      cases fuel with
      | zero => omega
      | succ fuel => rw [StorageState.walk, hp]
    | some p =>
      obtain ⟨parent, hmem, hid, hlt⟩ := h.parents e he p hp
      obtain ⟨path, hpath⟩ := ih parent.seq (by omega) hmem rfl
      refine ⟨e :: path, ?_⟩
      intro fuel hfuel
      cases fuel with
      | zero => omega
      | succ fuel =>
        have hget : s.entries.get p = some parent := hid ▸ h.get_entry hmem
        rw [StorageState.walk, hp]
        dsimp only
        rw [hget]
        dsimp only
        rw [hpath fuel (by omega)]
        rfl

theorem Tree.scanBranch (h : s.Tree) (query : BranchScan) (hstart : s.entries.has query.start = true) :
    ∃ rounds found, ∀ fuel, rounds < fuel → s.scanBranch fuel query = some (.ok found) := by
  obtain ⟨e, he, hid⟩ := h.has_entry.mp hstart
  obtain ⟨path, hpath⟩ := h.walk he
  refine ⟨e.seq, query.select path, ?_⟩
  intro fuel hfuel
  rw [StorageState.scanBranch, ← hid, h.get_entry he]
  dsimp only
  rw [hpath fuel hfuel]
  rfl

/-! ## Runs -/

end StorageState

/-- A commit as it is offered: writes that the storage numbers itself, or writes that were numbered before. -/
inductive Offer (Body Val Use : Type) where
  | writes (writes : List (Write Body Val Use)) (timestamp : Nat)
  | committed (writes : List (CommittedWrite Body Val Use))

/-- The numbered writes of an offer. -/
def Offer.numbered (s : StorageState Body Val Use) : Offer Body Val Use → List (CommittedWrite Body Val Use)
  | .writes ws timestamp => prepareStorageCommit ws s.nextSeq timestamp
  | .committed ws => ws

namespace StorageState

variable [UsageSum Use]

/-- `applyValidated` of what was accepted. -/
def applied (s : StorageState Body Val Use) (writes : List (CommittedWrite Body Val Use)) :
    StorageState Body Val Use × Except StorageError (List (CommittedWrite Body Val Use)) :=
  match s.applyValidated writes with
  | (s', none) => (s', .ok writes)
  | (s', some error) => (s', .error error)

/-- A commit and its outcome; an accepted one gives back its numbered writes. -/
def offer (s : StorageState Body Val Use) :
    Offer Body Val Use → StorageState Body Val Use × Except StorageError (List (CommittedWrite Body Val Use))
  | .writes ws timestamp =>
    match s.prepareCommit ws timestamp with
    | .ok prepared => s.applied prepared
    | .error error => (s, .error error)
  | .committed ws =>
    match s.validateCommitted ws with
    | .ok () => s.applied ws
    | .error error => (s, .error error)

/-- The state after a sequence of offers, and the commits that were accepted. -/
def run (s : StorageState Body Val Use) :
    List (Offer Body Val Use) → StorageState Body Val Use × List (List (CommittedWrite Body Val Use))
  | [] => (s, [])
  | o :: offers =>
    let rest := (s.offer o).1.run offers
    match (s.offer o).2 with
    | .ok writes => (rest.1, writes :: rest.2)
    | .error _ => rest

/-- Where validation accepts an offer, its sequences are safe integers and the addresses after its first write
are ones that `value` and `list` accept. -/
def Sound (s : StorageState Body Val Use) (o : Offer Body Val Use) : Prop :=
  s.validateCommitted (o.numbered s) = .ok () →
    (∀ w ∈ o.numbered s, w.seq ≤ JsNumber.MAX_SAFE_INTEGER) ∧ ∀ w ∈ (o.numbered s).tail, w.Addressed

def SoundRun (s : StorageState Body Val Use) : List (Offer Body Val Use) → Prop
  | [] => True
  | o :: offers => s.Sound o ∧ (s.offer o).1.SoundRun offers

theorem offer_eq (s : StorageState Body Val Use) (o : Offer Body Val Use) :
    s.offer o = match s.validateCommitted (o.numbered s) with
      | .ok () => s.applied (o.numbered s)
      | .error error => (s, .error error) := by
  cases o with
  | committed ws => rfl
  | writes ws timestamp =>
    rw [offer, prepareCommit, Offer.numbered]
    cases s.validateCommitted (prepareStorageCommit ws s.nextSeq timestamp) with
    | ok | error => rfl

/-- What an offer has done when it was accepted. -/
structure Accepted (s s' : StorageState Body Val Use) (writes : List (CommittedWrite Body Val Use)) : Prop where
  valid : s.validateCommitted writes = .ok ()
  apply : s.applyValidated writes = (s', none)
  tree : s'.Tree
  grows : s.nextSeq ≤ s'.nextSeq
  bounds : ∀ w ∈ writes, s.nextSeq ≤ w.seq ∧ w.seq < s'.nextSeq
  sorted : (writes.map (·.seq)).Pairwise (· < ·)

variable {s : StorageState Body Val Use}

/-- An offer is rejected and changes nothing, or it is accepted and keeps the tree. -/
theorem Tree.offer (h : s.Tree) {o : Offer Body Val Use} (ho : s.Sound o) :
    (∃ error, s.offer o = (s, .error error)) ∨ ∃ s', s.offer o = (s', .ok (o.numbered s)) ∧ Accepted s s' (o.numbered s) := by
  rw [offer_eq]
  cases hv : s.validateCommitted (o.numbered s) with
  | error error => exact .inl ⟨error, rfl⟩
  | ok u =>
    obtain ⟨hsafe, htail⟩ := ho hv
    rcases s.applyValidated_tail htail with hnone | ⟨error, happly⟩
    · obtain ⟨s', happly, htree, hgrows, hbounds, hsort⟩ := h.reaches.batch hv hsafe hnone
      refine .inr ⟨s', ?_, hv, happly, htree, hgrows, hbounds, hsort⟩
      simp only [applied, happly]
    · refine .inl ⟨error, ?_⟩
      simp only [applied, happly]

/-- What holds of a run from a state to another in which the given commits were accepted. -/
structure Ran (s s' : StorageState Body Val Use) (accepted : List (List (CommittedWrite Body Val Use))) : Prop where
  tree : s'.Tree
  grows : s.nextSeq ≤ s'.nextSeq
  bounds : ∀ w ∈ accepted.flatten, s.nextSeq ≤ w.seq ∧ w.seq < s'.nextSeq
  sorted : (accepted.flatten.map (·.seq)).Pairwise (· < ·)
  replay : s.run (accepted.map .committed) = (s', accepted)

variable {writes : List (CommittedWrite Body Val Use)} {s' : StorageState Body Val Use}

theorem Accepted.offer_committed (h : Accepted s s' writes) : s.offer (.committed writes) = (s', .ok writes) := by
  rw [StorageState.offer, h.valid]
  simp only [applied, h.apply]

theorem Accepted.ran {s₁ : StorageState Body Val Use} {accepted : List (List (CommittedWrite Body Val Use))}
    (h : Accepted s s₁ writes) (hr : Ran s₁ s' accepted) :
    Ran s s' (writes :: accepted) where
  tree := hr.tree
  grows := h.grows.trans hr.grows
  bounds := by
    intro w hw
    rw [flatten_cons] at hw
    have hgrows := h.grows
    have hgrows' := hr.grows
    rcases mem_append.mp hw with hw | hw
    · have hb := h.bounds w hw
      omega
    · have hb := hr.bounds w hw
      omega
  sorted := by
    rw [flatten_cons, map_append, pairwise_append]
    refine ⟨h.sorted, hr.sorted, ?_⟩
    intro m hm n hn
    obtain ⟨v, hv, rfl⟩ := mem_map.mp hm
    obtain ⟨w, hw, rfl⟩ := mem_map.mp hn
    exact (h.bounds v hv).2.trans_le (hr.bounds w hw).1
  replay := by
    rw [map_cons, run, h.offer_committed]
    rw [hr.replay]

/-- A run by induction over its offers. -/
theorem Tree.run (h : s.Tree) {offers : List (Offer Body Val Use)} (hs : s.SoundRun offers) :
    Ran s (s.run offers).1 (s.run offers).2 := by
  induction offers generalizing s with
  | nil => exact ⟨h, Nat.le_refl _, by simp [StorageState.run], by simp [StorageState.run], rfl⟩
  | cons o offers ih =>
    obtain ⟨hsound, hrest⟩ := hs
    rcases h.offer hsound with ⟨error, ho⟩ | ⟨s₁, ho, haccepted⟩
    · rw [ho] at hrest
      rw [StorageState.run, ho]
      exact ih h hrest
    · rw [ho] at hrest
      rw [StorageState.run, ho]
      exact haccepted.ran (ih haccepted.tree hrest)

/-- After every run of sound offers: the tree, growing sequences, scans that end, rejected commits without effect,
and the same state from the accepted commits alone. -/
theorem tree_of_sound {offers : List (Offer Body Val Use)} {s : StorageState Body Val Use}
    {accepted : List (List (CommittedWrite Body Val Use))} (h : (empty : StorageState Body Val Use).SoundRun offers)
    (hrun : (empty : StorageState Body Val Use).run offers = (s, accepted)) :
    s.Tree ∧ (accepted.flatten.map (·.seq)).Pairwise (· < ·) ∧
      (∀ query : BranchScan, s.entries.has query.start = true →
        ∃ rounds found, ∀ fuel, rounds < fuel → s.scanBranch fuel query = some (.ok found)) ∧
      (∀ o error, s.Sound o → (s.offer o).2 = .error error → (s.offer o).1 = s) ∧
      (empty : StorageState Body Val Use).run (accepted.map .committed) = (s, accepted) := by
  have hr := empty_tree.run h
  rw [hrun] at hr
  refine ⟨hr.tree, hr.sorted, fun query hstart => hr.tree.scanBranch query hstart, ?_, hr.replay⟩
  intro o error ho hrejected
  rcases hr.tree.offer ho with ⟨error', heq⟩ | ⟨s', heq, -⟩
  · rw [heq]
  · rw [heq] at hrejected
    cases hrejected

end StorageState

/-! A session with a root, a reply, a usage row and a name, and a second root whose id is taken. -/

/-- Usage as one count of tokens. -/
instance tokens : UsageSum Nat := ⟨0, (· + ·)⟩

def sampleEntry (id : Nat) (parent : Option Nat) : NewEntry Unit :=
  ⟨[UInt16.ofNat id], parent.map fun p => [UInt16.ofNat p], .message, none, ()⟩

def sampleOffers : List (Offer Unit Nat Nat) :=
  [.writes [.entry (sampleEntry 1 none), .entry (sampleEntry 2 (some 1)), .usage ⟨[3], 7, 0⟩,
    .setValue ⟨[110], []⟩ 5] 100, .writes [.entry (sampleEntry 2 none)] 101]

theorem tree_of_sound_sample : StorageState.SoundRun (StorageState.empty : StorageState Unit Nat Nat) sampleOffers ∧
      (StorageState.run StorageState.empty sampleOffers).1.Tree := by
  have hsound : StorageState.SoundRun (StorageState.empty : StorageState Unit Nat Nat) sampleOffers := by
    refine ⟨?_, ?_, trivial⟩
    · intro _
      decide
    · intro _
      decide
  exact ⟨hsound, (StorageState.tree_of_sound hsound rfl).1⟩

/-- The first of two values is kept although the address of the second is refused. -/
theorem refused_address_kept :
    ((StorageState.empty : StorageState Unit Nat Nat).offer (.writes [.setValue ⟨[97], []⟩ 1, .setValue ⟨[], []⟩ 2] 0)).2 =
        .error .emptyNamespace ∧
      ((StorageState.empty : StorageState Unit Nat Nat).offer (.writes [.setValue ⟨[97], []⟩ 1, .setValue ⟨[], []⟩ 2] 0)).1 ≠
        StorageState.empty := by
  refine ⟨rfl, ?_⟩
  decide

end Shuvpi.SessionTree
