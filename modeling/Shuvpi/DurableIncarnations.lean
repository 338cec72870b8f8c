import Shuvpi.DurableDocuments

/-!
# The incarnations of a document address

The checks count the documents that an address will have; where the count is at most one,
the index points to it, and the times at which the documents of an address live are apart.
-/
open List Option

namespace Shuvpi.Durable

open Function (update)

variable {P : Type}

namespace MemoryStorage

/-- A current document of the address. -/
def OpenAt (s : MemoryStorage P) (address : DocumentAddress) (id : Id) : Prop :=
  ∃ stored, s.documents id = some stored ∧ stored.record.address = address ∧ stored.record.retiredAt = none

/-- What the documents of an address tell of their times. -/
structure Incarnations (s : MemoryStorage P) : Prop where
  index : s.DocumentIndex
  current : ∀ address id, s.currentId address = some id ↔ s.OpenAt address id
  times : ∀ id stored, s.documents id = some stored → stored.record.createdAt < s.nextSeq ∧
    ∀ point, stored.record.retiredAt = some point → stored.record.createdAt ≤ point ∧ point < s.nextSeq
  apart : ∀ id id' stored stored', s.documents id = some stored → s.documents id' = some stored' →
    stored.record.address = stored'.record.address → ∀ point, stored.record.aliveAt (some point) = true →
      stored'.record.aliveAt (some point) = true → id = id'

/-! ## What the checks say -/

variable {s : MemoryStorage P} {record : DocumentCreate P} {action : DocumentAction P}

variable {id : Id} (h : s.checkDocumentAction id action = .ok record)
include h

theorem checkDocumentAction_ok : (∀ create, action.create = some create → record = create ∧ s.documents id = none ∧
      action.content.any DocumentContent.isBase = true) ∧
    (action.create = none → ∃ existing, s.documents id = some existing ∧
      record = existing.record.toDocumentCreate ∧ existing.record.retiredAt = none ∧
      ∀ version ops, action.content = some (.delta version ops) →
        ∃ previous, existing.revisions.getLast? = some previous ∧ previous.content.version = version) := by
  unfold checkDocumentAction at h
  cases hc : action.create with
  | some create =>
    cases hd : s.documents id with
    | some existing => rw [hc, hd] at h; cases h
    | none =>
      rw [hc, hd] at h
      dsimp only at h
      split at h
      · cases h
      · rename_i hbase
        refine ⟨fun c hc' => ?_, fun h' => (by cases h')⟩
        cases hc'
        refine ⟨(Except.ok.inj h).symm, rfl, ?_⟩
        cases hcont : action.content with
        | none => rw [hcont] at hbase; simp at hbase
        | some content => rw [hcont] at hbase; simpa using hbase
  | none =>
    refine ⟨fun c hc' => (by cases hc'), fun _ => ?_⟩
    cases hd : s.documents id with
    | none => rw [hc, hd] at h; cases h
    | some existing =>
      rw [hc, hd] at h
      dsimp only at h
      split at h
      · cases h
      · rename_i hgone
        refine ⟨existing, rfl, ?_⟩
        rw [not_isSome_iff_eq_none] at hgone
        split at h
        · rename_i version ops hcont
          cases hlast : existing.revisions.getLast? with
          | none => rw [hlast] at h; cases h
          | some previous =>
            rw [hlast] at h
            dsimp only at h
            split at h
            · cases h
            · rename_i hver
              refine ⟨(Except.ok.inj h).symm, hgone, fun v o hvo => ⟨previous, rfl, ?_⟩⟩
              rw [hcont] at hvo
              obtain ⟨rfl, rfl⟩ := DocumentContent.delta.inj (some.inj hvo)
              simpa using hver
        · rename_i hcont
          refine ⟨(Except.ok.inj h).symm, hgone, fun v o hvo => ?_⟩
          exact absurd hvo (hcont v o)

theorem checkDocumentAction_fits
    (hid : ∀ create, action.create = some create → create.id = id) :
    action.Fits id (s.documents id) := by
  obtain ⟨hnew, hold⟩ := checkDocumentAction_ok h
  refine ⟨fun create hc => ?_, fun hc => ?_⟩
  · obtain ⟨-, hnone, hbase⟩ := hnew create hc
    refine ⟨hid create hc, ?_, hnone⟩
    cases hcont : action.content with
    | none => rw [hcont] at hbase; cases hbase
    | some content => rfl
  · obtain ⟨existing, hdoc, -⟩ := hold hc
    rw [hdoc]
    rfl

/-- The record that the check returns has the address at which the action leaves its document. -/
theorem checkDocumentAction_touches (seq : Seq)
    (address : DocumentAddress) :
    touches seq s.documents address (id, action) = decide (record.address = address) := by
  obtain ⟨hnew, hold⟩ := checkDocumentAction_ok h
  unfold touches
  cases hc : action.create with
  | some create =>
    obtain ⟨rfl, hnone, hbase⟩ := hnew create hc
    obtain ⟨stored, hafter, hrec, -⟩ := DocumentAction.after_create hc
      (by cases hcont : action.content <;> simp_all) seq (s.documents id)
    rw [hafter, any_some, hrec]
  | none =>
    obtain ⟨existing, hdoc, rfl, -⟩ := hold hc
    obtain ⟨stored, hafter, hrec, -⟩ := DocumentAction.after_old hc seq existing
    rw [hdoc, hafter, any_some, hrec]

/-! ## Counting -/

omit h

/-- The action adds a current document to the address. -/
def survives (seq : Seq) (documents : Id → Option (StoredDocumentState P)) (address : DocumentAddress)
    (p : Id × DocumentAction P) : Bool :=
  touches seq documents address p && (p.2.create.isSome && !p.2.retire)

/-- The action retires the current document of the address. -/
def leaves (seq : Seq) (documents : Id → Option (StoredDocumentState P)) (address : DocumentAddress)
    (currentId : Option Id) (p : Id × DocumentAction P) : Bool :=
  touches seq documents address p && (p.2.retire && currentId = some p.1)

def liveBefore (s : MemoryStorage P) (address : DocumentAddress) : Int :=
  if (s.currentId address).isNone then 0 else 1

theorem countLive_getD (s : MemoryStorage P) (seq : Seq) (counts : JsMap DocumentAddress Int) (id : Id)
    (action : DocumentAction P) (h : s.checkDocumentAction id action = .ok record) (address : DocumentAddress) :
    ((s.countLive counts id action record).get address).getD (s.liveBefore address) =
      (counts.get address).getD (s.liveBefore address) +
        ([(id, action)].countP (survives seq s.documents address) : Int) -
        ([(id, action)].countP (leaves seq s.documents address (s.currentId address)) : Int) := by
  have htouch := checkDocumentAction_touches h seq address
  rw [countP_singleton, countP_singleton, survives, leaves, htouch, countLive, JsMap.get_set]
  by_cases ha : record.address = address
  · subst ha
    rw [if_pos rfl]
    simp only [getD_some, decide_true, Bool.true_and]
    change _ = (counts.get record.address).getD (if (s.currentId record.address).isNone then 0 else 1) + _ - _
    rw [currentId]
    split <;> split <;> simp_all
  · simp [ha]

variable {actions : DocumentActions P} {counts' counts : JsMap DocumentAddress Int}

theorem countActions_getD (h : s.countActions counts actions = .ok counts') (seq : Seq) (address : DocumentAddress) :
    (counts'.get address).getD (s.liveBefore address) = (counts.get address).getD (s.liveBefore address) +
        (actions.countP (survives seq s.documents address) : Int) -
        (actions.countP (leaves seq s.documents address (s.currentId address)) : Int) := by
  induction actions generalizing counts with
  | nil =>
    cases h
    simp
  | cons p actions ih =>
    obtain ⟨id, action⟩ := p
    unfold countActions at h
    split at h
    · cases h
    · rename_i record hrec
      rw [ih h, countLive_getD s seq counts id action hrec]
      simp only [countP_cons, countP_nil]
      push_cast
      omega

theorem countActions_checked (h : s.countActions counts actions = .ok counts') :
    ∀ id action, (id, action) ∈ actions → ∃ record, s.checkDocumentAction id action = .ok record := by
  induction actions generalizing counts with
  | nil => exact fun _ _ hmem => by cases hmem
  | cons p actions ih =>
    obtain ⟨i, a⟩ := p
    unfold countActions at h
    split at h
    · cases h
    · rename_i record hrec
      intro id action hmem
      rcases mem_cons.mp hmem with heq | hmem
      · obtain ⟨rfl, rfl⟩ := Prod.mk.inj heq
        exact ⟨record, hrec⟩
      · exact ih h id action hmem

/-- The checked batch leaves at most one current document at an address. -/
theorem checkDocumentActions_count (h : s.checkDocumentActions actions = .ok ()) (seq : Seq)
    (address : DocumentAddress) :
    s.liveBefore address + (actions.countP (survives seq s.documents address) : Int) -
      (actions.countP (leaves seq s.documents address (s.currentId address)) : Int) ≤ 1 := by
  unfold checkDocumentActions at h
  cases hc : s.countActions [] actions with
  | error e => rw [hc] at h; cases h
  | ok counts =>
    rw [hc] at h
    dsimp only at h
    split at h
    · cases h
    · rename_i hany
      have hcount := countActions_getD hc seq address
      rw [JsMap.get_nil, getD_none] at hcount
      rw [← hcount]
      cases hget : counts.get address with
      | none =>
        rw [getD_none, liveBefore]
        split <;> decide
      | some live =>
        have hmem := JsMap.mem_of_get hget
        by_contra hlt
        exact hany (any_eq_true.mpr ⟨_, hmem, by simpa using hlt⟩)

/-! ## The current document after a batch -/

section Settle
variable {seq : Seq} {documents : Id → Option (StoredDocumentState P)} {address : DocumentAddress}

theorem settleAll_cons (currentId : Option Id) (p : Id × DocumentAction P) (actions : DocumentActions P) :
    settleAll seq documents address currentId (p :: actions) = settleAll seq documents address
        (if touches seq documents address p then p.2.settled p.1 currentId else currentId) actions := rfl

variable {currentId : Option Id} {id : Id}

/-- What an address points to was created in the batch, or was there and is not retired. -/
theorem settleAll_some {actions : DocumentActions P} (h : settleAll seq documents address currentId actions = some id) :
    (∃ p ∈ actions, p.1 = id ∧ survives seq documents address p = true) ∨
      currentId = some id ∧ ∀ p ∈ actions, p.1 = id → touches seq documents address p = true →
        p.2.retire = false := by
  induction actions generalizing currentId with
  | nil => exact .inr ⟨h, fun p hp => by cases hp⟩
  | cons q actions ih =>
    rw [settleAll_cons] at h
    rcases ih h with ⟨p, hp, hid, hsurv⟩ | ⟨hcur, hkept⟩
    · exact .inl ⟨p, .tail _ hp, hid, hsurv⟩
    · split at hcur
      · rename_i htouch
        unfold DocumentAction.settled at hcur
        split at hcur
        · rename_i hret
          split at hcur
          · cases hcur
          · rename_i hne
            refine .inr ⟨hcur, fun p hp hid _ => ?_⟩
            rcases mem_cons.mp hp with rfl | hp
            · exact absurd (hid ▸ hcur) hne
            · exact hkept p hp hid ‹_›
        · rename_i hret
          split at hcur
          · rename_i hcreate
            refine .inl ⟨q, .head _, some.inj hcur, ?_⟩
            simp [survives, htouch, hcreate, hret]
          · refine .inr ⟨hcur, fun p hp hid ht => ?_⟩
            rcases mem_cons.mp hp with rfl | hp
            · simpa using hret
            · exact hkept p hp hid ht
      · rename_i htouch
        refine .inr ⟨hcur, fun p hp hid ht => ?_⟩
        rcases mem_cons.mp hp with rfl | hp
        · exact absurd ht htouch
        · exact hkept p hp hid ht

/-- A current document stays current where it is not retired and no other is created. -/
theorem settleAll_kept {actions : DocumentActions P} (hkept : ∀ p ∈ actions, p.1 = id → p.2.retire = false)
    (honly : ∀ p ∈ actions, survives seq documents address p = true → p.1 = id) :
    settleAll seq documents address (some id) actions = some id := by
  induction actions with
  | nil => rfl
  | cons q actions ih =>
    have hrest := ih (fun p hp => hkept p (.tail _ hp)) fun p hp => honly p (.tail _ hp)
    rw [settleAll_cons]
    split
    · rename_i htouch
      have hstays : q.2.settled q.1 (some id) = some id := by
        unfold DocumentAction.settled
        split
        · rename_i hret
          have hne : q.1 ≠ id := fun heq => by
            rw [hkept q (.head _) heq] at hret
            cases hret
          rw [if_neg fun heq => hne (some.inj heq).symm]
        · rename_i hret
          split
          · rename_i hcreate
            rw [honly q (.head _) (by simp [survives, htouch, hcreate, hret])]
          · rfl
      rw [hstays]
      exact hrest
    · exact hrest

/-- A document created in the batch is current where it is the only one. -/
theorem settleAll_created {actions : DocumentActions P} (hn : (actions.map Prod.fst).Nodup)
    (hmade : ∃ p ∈ actions, p.1 = id ∧ survives seq documents address p = true)
    (honly : ∀ p ∈ actions, survives seq documents address p = true → p.1 = id) :
    settleAll seq documents address currentId actions = some id := by
  induction actions generalizing currentId with
  | nil =>
    obtain ⟨p, hp, -⟩ := hmade
    cases hp
  | cons q actions ih =>
    obtain ⟨hnot, hrest⟩ := nodup_cons.mp hn
    rw [settleAll_cons]
    obtain ⟨p, hp, hid, hsurv⟩ := hmade
    rcases mem_cons.mp hp with rfl | hp
    · simp only [survives, Bool.and_eq_true, Bool.not_eq_true'] at hsurv
      rw [if_pos hsurv.1, DocumentAction.settled, if_neg (by simp [hsurv.2.2]), if_pos hsurv.2.1, hid]
      refine settleAll_kept (fun q hq heq => absurd ?_ hnot) fun q hq => honly q (.tail _ hq)
      exact mem_map.mpr ⟨q, hq, heq.trans hid.symm⟩
    · exact ih hrest ⟨p, hp, hid, hsurv⟩ fun q hq => honly q (.tail _ hq)

end Settle

/-- In a map, at most one entry has a given key. -/
theorem countP_key_le {κ α : Type} {m : JsMap κ α} (hn : (m.map Prod.fst).Nodup) (key : κ)
    (p : κ × α → Bool) (hp : ∀ e ∈ m, p e = true → e.1 = key) : m.countP p ≤ 1 := by
  induction m with
  | nil => simp
  | cons e m ih =>
    obtain ⟨hnot, hrest⟩ := nodup_cons.mp hn
    rw [countP_cons]
    split
    · rename_i he
      have hkey := hp e (.head _) he
      have : m.countP p = 0 := countP_eq_zero.mpr fun e' he' hpe => hnot (mem_map.mpr
        ⟨e', he', (hp e' (.tail _ he') hpe).trans hkey.symm⟩)
      omega
    · exact ih hrest fun e' he' => hp e' (.tail _ he')

theorem eq_of_countP_le_one {α : Type} {l : List α} {p : α → Bool} (h : l.countP p ≤ 1) {a b : α}
    (ha : a ∈ l) (hb : b ∈ l) (hpa : p a = true) (hpb : p b = true) : a = b := by
  rw [countP_eq_length_filter] at h
  have ha' := mem_filter.mpr ⟨ha, hpa⟩
  have hb' := mem_filter.mpr ⟨hb, hpb⟩
  match hl : l.filter p, h with
  | [], _ => rw [hl] at ha'; cases ha'
  | [c], _ =>
    rw [hl] at ha' hb'
    rw [mem_singleton.mp ha', mem_singleton.mp hb']

/-! ## A batch -/

/-- What is known of the actions of an accepted batch. -/
structure Checked (s : MemoryStorage P) (actions : DocumentActions P) : Prop where
  nodup : (actions.map Prod.fst).Nodup
  fits : ∀ id action, (id, action) ∈ actions → action.Fits id (s.documents id)
  old : ∀ id action, (id, action) ∈ actions → action.create = none →
    ∀ stored, s.documents id = some stored → stored.record.retiredAt = none ∧
      ∀ version ops, action.content = some (.delta version ops) →
        ∃ previous, stored.revisions.getLast? = some previous ∧ previous.content.version = version
  new : ∀ id action, (id, action) ∈ actions → action.create.isSome = true →
    action.content.any DocumentContent.isBase = true
  count : ∀ seq address, s.liveBefore address + (actions.countP (survives seq s.documents address) : Int) -
    (actions.countP (leaves seq s.documents address (s.currentId address)) : Int) ≤ 1

theorem checked {writes : List (StorageWrite P)} (hp : Prepared writes actions)
    (h : s.checkDocumentActions actions = .ok ()) :
    s.Checked actions := by
  obtain ⟨counts, hcounts⟩ : ∃ counts, s.countActions [] actions = .ok counts := by
    unfold checkDocumentActions at h
    split at h
    · cases h
    · exact ⟨_, ‹_›⟩
  have hchk := countActions_checked hcounts
  refine ⟨hp.nodup, fun id action hmem => ?_, fun id action hmem hc stored hs => ?_,
    fun id action hmem hc => ?_, checkDocumentActions_count h⟩
  · obtain ⟨record, hrec⟩ := hchk id action hmem
    refine checkDocumentAction_fits hrec fun create hc => ?_
    rw [hp.create id action hmem] at hc
    exact (create?_some hc).1
  · obtain ⟨record, hrec⟩ := hchk id action hmem
    obtain ⟨existing, hdoc, -, hlive, hver⟩ := (checkDocumentAction_ok hrec).2 hc
    obtain rfl := some.inj (hdoc.symm.trans hs)
    exact ⟨hlive, hver⟩
  · obtain ⟨record, hrec⟩ := hchk id action hmem
    obtain ⟨create, hc⟩ := isSome_iff_exists.mp hc
    exact ((checkDocumentAction_ok hrec).1 create hc).2.2

theorem Checked.congr {m : MemoryStorage P} (h : s.Checked actions) (hdocs : m.documents = s.documents)
    (haddr : m.documentAddresses = s.documentAddresses) :
    m.Checked actions := by
  refine ⟨h.nodup, ?_, ?_, h.new, ?_⟩
  · rw [hdocs]
    exact h.fits
  · rw [hdocs]
    exact h.old
  · intro seq address
    have hcur : m.currentId address = s.currentId address := by rw [currentId, haddr, currentId]
    rw [liveBefore, hcur, hdocs]
    exact h.count seq address

section Batch
variable {s m : MemoryStorage P} {actions : DocumentActions P}

variable {seq : Seq}

/-- A document after a batch: the stored one, or the outcome of its action. -/
theorem ActedAll.cases (hall : ActedAll seq actions s m) (hc : s.Checked actions)
    {stored : StoredDocumentState P} (h : m.documents id = some stored) :
    ((∀ p ∈ actions, p.1 ≠ id) ∧ s.documents id = some stored) ∨
    (∃ action create, (id, action) ∈ actions ∧ action.create = some create ∧ s.documents id = none ∧
      stored.record.toDocumentCreate = create ∧ stored.record.createdAt = seq ∧
      stored.record.retiredAt = if action.retire then some seq else none) ∨
    ∃ action old, (id, action) ∈ actions ∧ action.create = none ∧ s.documents id = some old ∧
      old.record.retiredAt = none ∧
      stored.record.toDocumentCreate = old.record.toDocumentCreate ∧
      stored.record.createdAt = old.record.createdAt ∧
      stored.record.retiredAt = if action.retire then some seq else none := by
  rw [hall.documents] at h
  cases hget : actions.get id with
  | none =>
    rw [hget] at h
    refine .inl ⟨fun p hp hid => ?_, h⟩
    exact JsMap.get_eq_none.mp hget (mem_map.mpr ⟨p, hp, hid⟩)
  | some action =>
    have hmem := JsMap.mem_of_get hget
    rw [hget, elim_some] at h
    cases hcreate : action.create with
    | some create =>
      obtain ⟨-, hcont, hnone⟩ := (hc.fits id action hmem).fresh create hcreate
      obtain ⟨stored', hafter, hrec⟩ := DocumentAction.after_create hcreate hcont seq (s.documents id)
      obtain rfl := some.inj (h.symm.trans hafter)
      exact .inr (.inl ⟨action, create, hmem, hcreate, hnone, hrec⟩)
    | none =>
      obtain ⟨old, hold⟩ := isSome_iff_exists.mp ((hc.fits id action hmem).old hcreate)
      obtain ⟨stored', hafter, hrec, hmade, hgone⟩ := DocumentAction.after_old hcreate seq old
      rw [hold, hafter] at h
      obtain rfl := some.inj h
      have hlive := (hc.old id action hmem hcreate old hold).1
      rw [hlive] at hgone
      exact .inr (.inr ⟨action, old, hmem, hcreate, hold, hlive, hrec, hmade, hgone⟩)

theorem Checked.unique (hc : s.Checked actions)
    (h : (id, action) ∈ actions) : ∀ p ∈ actions, p.1 = id → p = (id, action) := by
  rintro ⟨i, a⟩ hp rfl
  have h₁ := JsMap.get_of_mem hc.nodup hp
  rw [JsMap.get_of_mem hc.nodup h] at h₁
  rw [some.inj h₁]

theorem ActedAll.openAt (hall : ActedAll seq actions s m) (hc : s.Checked actions)
    (address : DocumentAddress) (id : Id) : m.OpenAt address id ↔
      (∃ p ∈ actions, p.1 = id ∧ survives seq s.documents address p = true) ∨
        s.OpenAt address id ∧ ∀ p ∈ actions, p.1 = id → p.2.retire = false := by
  constructor
  · rintro ⟨stored, hstor, haddr, hopen⟩
    rcases hall.cases hc hstor with ⟨hnot, hold⟩ | ⟨action, create, hmem, hcreate, hnone, hrec, -, hgone⟩ |
      ⟨action, old, hmem, hcreate, hold, hlive, hrec, -, hgone⟩
    · exact .inr ⟨⟨stored, hold, haddr, hopen⟩, fun p hp hid => absurd hid (hnot p hp)⟩
    · refine .inl ⟨_, hmem, rfl, ?_⟩
      have hget := JsMap.get_of_mem hc.nodup hmem
      rw [hall.documents, hget, elim_some] at hstor
      rw [hopen] at hgone
      simp only [survives, touches, hstor, any_some, haddr, hcreate]
      cases hr : action.retire with
      | false => simp
      | true => rw [hr] at hgone; cases hgone
    · refine .inr ⟨⟨old, hold, ?_, hlive⟩, fun p hp hid => ?_⟩
      · rw [← hrec, haddr]
      · rw [hc.unique hmem p hp hid]
        rw [hopen] at hgone
        cases hr : action.retire with
        | false => rfl
        | true => rw [hr] at hgone; cases hgone
  · rintro (⟨⟨i, action⟩, hmem, rfl, hsurv⟩ | ⟨⟨old, hold, haddr, hlive⟩, hkept⟩)
    · simp only [survives, touches, Bool.and_eq_true, Bool.not_eq_true'] at hsurv
      obtain ⟨htouch, hcreate, hret⟩ := hsurv
      obtain ⟨create, hcreate⟩ := isSome_iff_exists.mp hcreate
      obtain ⟨-, hcont, -⟩ := (hc.fits i action hmem).fresh create hcreate
      obtain ⟨stored, hafter, hrec, hmade, hgone⟩ := DocumentAction.after_create hcreate hcont seq (s.documents i)
      refine ⟨stored, ?_, ?_, ?_⟩
      · rw [hall.documents, JsMap.get_of_mem hc.nodup hmem, elim_some, hafter]
      · rw [hafter] at htouch
        simpa using htouch
      · rw [hgone, hret]
        rfl
    · cases hget : actions.get id with
      | none =>
        refine ⟨old, ?_, haddr, hlive⟩
        rw [hall.documents, hget, elim_none, hold]
      | some action =>
        have hmem := JsMap.mem_of_get hget
        have hcreate : action.create = none := by
          by_contra hne
          obtain ⟨create, hcreate⟩ := ne_none_iff_exists'.mp hne
          have := ((hc.fits id action hmem).fresh create hcreate).2.2
          rw [hold] at this
          cases this
        obtain ⟨stored, hafter, hrec, -, hgone⟩ := DocumentAction.after_old hcreate seq old
        refine ⟨stored, ?_, ?_, ?_⟩
        · rw [hall.documents, hget, elim_some, hold, hafter]
        · rw [hrec, haddr]
        · rw [hgone, hkept _ hmem rfl, hlive]
          rfl

theorem Checked.survivors_le (hc : s.Checked actions) (seq : Seq) (address : DocumentAddress) :
    actions.countP (survives seq s.documents address) ≤ 1 := by
  have hcount := hc.count seq address
  cases hcur : s.currentId address with
  | none =>
    have hleaves : actions.countP (leaves seq s.documents address (s.currentId address)) = 0 :=
      countP_eq_zero.mpr fun p _ => by simp [leaves, hcur]
    rw [hleaves, liveBefore, hcur] at hcount
    simpa using hcount
  | some id =>
    have hleaves := countP_key_le hc.nodup id (leaves seq s.documents address (s.currentId address))
      fun p _ hp => by
        simp only [leaves, hcur, Bool.and_eq_true, decide_eq_true_eq] at hp
        exact (some.inj hp.2.2).symm
    rw [liveBefore, hcur] at hcount
    simp only [isNone_some, Bool.false_eq_true, if_false] at hcount
    rw [hcur] at hleaves
    omega

/-- The index of an address points to its current document after a batch. -/
theorem Incarnations.currentId (hs : s.Incarnations) (hc : s.Checked actions)
    (hall : ActedAll seq actions s m) (address : DocumentAddress) (id : Id) :
    m.currentId address = some id ↔ m.OpenAt address id := by
  rw [hall.current, hall.openAt hc]
  have htouch : ∀ p ∈ actions, p.1 = id → s.OpenAt address id →
      touches seq s.documents address p = true := by
    rintro ⟨i, action⟩ hp rfl ⟨old, hold, haddr, -⟩
    have hcreate : action.create = none := by
      by_contra hne
      obtain ⟨create, hcreate⟩ := ne_none_iff_exists'.mp hne
      have := ((hc.fits i action hp).fresh create hcreate).2.2
      rw [hold] at this
      cases this
    obtain ⟨stored, hafter, hrec, -⟩ := DocumentAction.after_old hcreate seq old
    simp only [touches, hold, hafter, any_some, hrec, haddr, decide_true]
  constructor
  · intro h
    rcases settleAll_some h with hmade | ⟨hcur, hkept⟩
    · exact .inl hmade
    · have hopen := (hs.current address id).mp hcur
      exact .inr ⟨hopen, fun p hp hid => hkept p hp hid (htouch p hp hid hopen)⟩
  · rintro (hmade | ⟨hopen, hkept⟩)
    · obtain ⟨p, hp, hid, hsurv⟩ := hmade
      refine settleAll_created hc.nodup ⟨p, hp, hid, hsurv⟩ fun q hq hqs => ?_
      rw [eq_of_countP_le_one (hc.survivors_le seq address) hq hp hqs hsurv, hid]
    · have hcur := (hs.current address id).mpr hopen
      rw [hcur]
      refine settleAll_kept hkept fun p hp hsurv => ?_
      have hcount := hc.count seq address
      have hleaves : actions.countP (leaves seq s.documents address (s.currentId address)) = 0 :=
        countP_eq_zero.mpr fun q hq hl => by
          simp only [leaves, hcur, Bool.and_eq_true, decide_eq_true_eq] at hl
          rw [hkept q hq (some.inj hl.2.2).symm] at hl
          cases hl.2.1
      have hpos := countP_pos_iff.mpr ⟨p, hp, hsurv⟩
      rw [hleaves, liveBefore, hcur] at hcount
      simp only [isNone_some, Bool.false_eq_true, if_false] at hcount
      omega

theorem aliveAt_some {record : DocumentRecord P} {point : Seq} : record.aliveAt (some point) = true ↔
      record.createdAt ≤ point ∧ ∀ retired, record.retiredAt = some retired → point < retired := by
  unfold DocumentRecord.aliveAt
  cases record.retiredAt <;> simp

/-- A batch keeps the incarnations of every address apart. -/
theorem Incarnations.batch (hs : s.Incarnations) (hc : s.Checked actions)
    (hall : ActedAll s.nextSeq actions s m) :
    ({ m with nextSeq := s.nextSeq + 1 } : MemoryStorage P).Incarnations := by
  have htimes : ∀ id stored, m.documents id = some stored → stored.record.createdAt < s.nextSeq + 1 ∧
      ∀ point, stored.record.retiredAt = some point →
        stored.record.createdAt ≤ point ∧ point < s.nextSeq + 1 := by
    intro id stored hstor
    rcases hall.cases hc hstor with ⟨-, hold⟩ | ⟨action, create, -, -, -, -, hmade, hgone⟩ |
      ⟨action, old, -, -, hold, -, -, hmade, hgone⟩
    · obtain ⟨hlt, hpoint⟩ := hs.times id stored hold
      exact ⟨Nat.lt_succ_of_lt hlt, fun point hp => (hpoint point hp).imp_right Nat.lt_succ_of_lt⟩
    · refine ⟨hmade ▸ Nat.lt_succ_self _, fun point hp => ?_⟩
      rw [hgone] at hp
      split at hp <;> cases hp
      exact ⟨hmade.le, Nat.lt_succ_self _⟩
    · have hlt := (hs.times id old hold).1
      rw [hmade]
      refine ⟨Nat.lt_succ_of_lt hlt, fun point hp => ?_⟩
      rw [hgone] at hp
      split at hp <;> cases hp
      exact ⟨hlt.le, Nat.lt_succ_self _⟩
  have hcur := hs.currentId hc hall
  -- from the point of the batch on only current documents are alive
  have hafter : ∀ id stored point, m.documents id = some stored → s.nextSeq ≤ point →
      stored.record.aliveAt (some point) = true → m.OpenAt stored.record.address id := by
    intro id stored point hstor hpoint halive
    refine ⟨stored, hstor, rfl, ?_⟩
    cases hgone : stored.record.retiredAt with
    | none => rfl
    | some r =>
      have hlt := (aliveAt_some.mp halive).2 r hgone
      have hle := Nat.le_of_lt_succ ((htimes id stored hstor).2 r hgone).2
      exact absurd (hlt.trans_le hle) (not_lt.mpr hpoint)
  have hbef : ∀ id stored point, m.documents id = some stored → point < s.nextSeq →
      stored.record.aliveAt (some point) = true → ∃ old, s.documents id = some old ∧
        old.record.address = stored.record.address ∧ old.record.aliveAt (some point) = true := by
    intro id stored point hstor hpoint halive
    have hle := (aliveAt_some.mp halive).1
    rcases hall.cases hc hstor with ⟨-, hold⟩ | ⟨action, create, -, -, -, -, hmade, -⟩ |
      ⟨action, old, -, -, hold, hlive, hrec, hmade, -⟩
    · exact ⟨stored, hold, rfl, halive⟩
    · exact absurd (hmade ▸ hle) (not_le.mpr hpoint)
    · refine ⟨old, hold, ?_, aliveAt_some.mpr ⟨hmade ▸ hle, fun r hr => ?_⟩⟩
      · rw [hrec]
      rw [hlive] at hr
      cases hr
  refine ⟨⟨hall.index.keyed, hall.index.addressed, hall.index.inScope⟩, hcur, htimes, ?_⟩
  intro id id' stored stored' hstor hstor' haddr point halive halive'
  by_cases hpoint : point < s.nextSeq
  · obtain ⟨old, hold, ha, halive⟩ := hbef id stored point hstor hpoint halive
    obtain ⟨old', hold', ha', halive'⟩ := hbef id' stored' point hstor' hpoint halive'
    exact hs.apart id id' old old' hold hold' (by rw [ha, ha', haddr]) point halive halive'
  · have h₁ := (hcur _ _).mpr (hafter id stored point hstor (not_lt.mp hpoint) halive)
    have h₂ := (hcur _ _).mpr (hafter id' stored' point hstor' (not_lt.mp hpoint) halive')
    rw [haddr, h₂] at h₁
    exact (some.inj h₁).symm

end Batch

end MemoryStorage

end Shuvpi.Durable
