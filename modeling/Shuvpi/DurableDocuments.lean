import Shuvpi.DurableTables

/-!
# Documents in a batch

The commands on one document gather into an action, and the checks over the actions of a
batch tell that applying them fails nowhere: the outcome for each document and the current
document of each address are known before the first is applied.
-/
open List Option Function

namespace Shuvpi.Durable

open Function (update)
open SortedIds (insertSorted Lists)

variable {P : Type}

/-! ## Gathering the commands -/

def StorageWrite.create? (id : Id) : StorageWrite P → Option (DocumentCreate P)
  | .documentCreate record _ => if record.id = id then some record else none
  | _ => none

def StorageWrite.content? (id : Id) : StorageWrite P → Option DocumentContent
  | .documentCreate record content => if record.id = id then some content else none
  | .documentChange i content => if i = id then some content else none
  | _ => none

def StorageWrite.retires (id : Id) : StorageWrite P → Bool
  | .documentRetire i => i = id
  | _ => false

variable {w : StorageWrite P} {id : Id}

theorem StorageWrite.other_document (h : w.documentId? ≠ some id) :
    w.create? id = none ∧ w.content? id = none ∧ w.retires id = false := by
  cases w <;> simp_all [documentId?, create?, content?, retires]

theorem DocumentAction.add_ok {action action' : DocumentAction P}
    (hid : w.documentId? = some id) (h : action.add w = .ok action') :
    action'.create = action.create.or (w.create? id) ∧ action'.content = action.content.or (w.content? id) ∧
      action'.retire = (action.retire || w.retires id) := by
  cases w with
  | documentCreate record content =>
    obtain rfl := some.inj hid
    simp only [add] at h
    split at h
    · cases h
    · rename_i hnone
      simp only [Bool.or_eq_true, not_or, not_isSome_iff_eq_none] at hnone
      cases h
      simp [StorageWrite.create?, StorageWrite.content?, StorageWrite.retires, hnone]
  | documentChange i content =>
    obtain rfl := some.inj hid
    simp only [add] at h
    split at h
    · cases h
    · rename_i hnone
      simp only [not_isSome_iff_eq_none] at hnone
      cases h
      simp [StorageWrite.create?, StorageWrite.content?, StorageWrite.retires, hnone]
  | documentRetire i =>
    obtain rfl := some.inj hid
    simp only [add] at h
    split at h
    · cases h
    · cases h
      simp [StorageWrite.create?, StorageWrite.content?, StorageWrite.retires]
  | conversation _ | entry _ | task _ | submission _ => cases hid

variable {writes : List (StorageWrite P)} {actions actions' : DocumentActions P}

variable (h : prepareDocumentActions actions writes = .ok actions')
include h

/-- The action of a document holds its one creation, its one content and its retirement. -/
theorem prepareDocumentActions_get (id : Id) :
    ((actions'.get id).getD .empty).create =
        ((actions.get id).getD .empty).create.or (writes.findSome? (·.create? id)) ∧
      ((actions'.get id).getD .empty).content =
        ((actions.get id).getD .empty).content.or (writes.findSome? (·.content? id)) ∧
      ((actions'.get id).getD .empty).retire =
        (((actions.get id).getD .empty).retire || writes.any (·.retires id)) := by
  induction writes generalizing actions with
  | nil =>
    cases h
    simp
  | cons w writes ih =>
    unfold prepareDocumentActions at h
    rw [findSome?_cons, findSome?_cons, any_cons]
    cases hid : w.documentId? with
    | none =>
      rw [hid] at h
      obtain ⟨hcreate, hcont, hret⟩ := StorageWrite.other_document (by rw [hid]; simp : w.documentId? ≠ some id)
      rw [hcreate, hcont, hret, Bool.false_or]
      exact ih h
    | some i =>
      rw [hid] at h
      dsimp only at h
      cases hadd : ((actions.get i).getD .empty).add w with
      | error e => rw [hadd] at h; cases h
      | ok action =>
        rw [hadd] at h
        obtain ⟨hcreate', hcont', hret'⟩ := ih h
        rw [hcreate', hcont', hret', JsMap.get_set]
        by_cases hi : i = id
        · subst hi
          obtain ⟨hcreate, hcont, hret⟩ := DocumentAction.add_ok hid hadd
          rw [if_pos rfl, getD_some, hcreate, hcont, hret]
          refine ⟨?_, ?_, ?_⟩
          · cases ((actions.get i).getD .empty).create <;> cases w.create? i <;> simp
          · cases ((actions.get i).getD .empty).content <;> cases w.content? i <;> simp
          · rw [Bool.or_assoc]
        · obtain ⟨hcreate, hcont, hret⟩ :=
            StorageWrite.other_document (by rw [hid]; simpa using hi : w.documentId? ≠ some id)
          rw [if_neg hi, hcreate, hcont, hret, Bool.false_or]
          exact ⟨rfl, rfl, rfl⟩

theorem prepareDocumentActions_nodup
    (hn : (actions.map Prod.fst).Nodup) : (actions'.map Prod.fst).Nodup := by
  induction writes generalizing actions with
  | nil => cases h; exact hn
  | cons w writes ih =>
    unfold prepareDocumentActions at h
    split at h
    · exact ih h hn
    · split at h
      · cases h
      · exact ih h (JsMap.nodup_set hn _ _)

omit h

/-- What is known of the actions of a batch. -/
structure Prepared (writes : List (StorageWrite P)) (actions : DocumentActions P) : Prop where
  nodup : (actions.map Prod.fst).Nodup
  create : ∀ id action, (id, action) ∈ actions → action.create = writes.findSome? (·.create? id)
  content : ∀ id action, (id, action) ∈ actions → action.content = writes.findSome? (·.content? id)
  retire : ∀ id action, (id, action) ∈ actions → action.retire = writes.any (·.retires id)
  absent : ∀ id, actions.get id = none → writes.findSome? (·.content? id) = none

theorem prepared (h : prepareDocumentActions [] writes = .ok actions) : Prepared writes actions := by
  have hn := prepareDocumentActions_nodup h .nil
  have hget : ∀ id action, (id, action) ∈ actions → action.create = writes.findSome? (·.create? id) ∧
        action.content = writes.findSome? (·.content? id) ∧
        action.retire = writes.any (·.retires id) := by
    intro id action hmem
    have := prepareDocumentActions_get h id
    rw [JsMap.get_of_mem hn hmem] at this
    simpa [DocumentAction.empty] using this
  refine ⟨hn, fun id a ha => (hget id a ha).1, fun id a ha => (hget id a ha).2.1,
    fun id a ha => (hget id a ha).2.2, fun id hnone => ?_⟩
  have := (prepareDocumentActions_get h id).2.1
  rw [hnone] at this
  simpa [DocumentAction.empty] using this.symm

theorem create?_some {record : DocumentCreate P} (h : writes.findSome? (·.create? id) = some record) :
    record.id = id ∧ (writes.findSome? (·.content? id)).isSome = true ∧
      ∃ w ∈ writes, w.claim? = some (id, .document) := by
  obtain ⟨w, hw, hc⟩ := exists_of_findSome?_eq_some h
  cases w with
  | documentCreate r content =>
    simp only [StorageWrite.create?] at hc
    split at hc
    · rename_i hid
      obtain rfl := some.inj hc
      refine ⟨hid, ?_, _, hw, by rw [StorageWrite.claim?, hid]⟩
      rw [findSome?_isSome_iff]
      exact ⟨_, hw, by simp [StorageWrite.content?, hid]⟩
    · cases hc
  | conversation _ | entry _ | task _ | submission _ | documentChange _ _ | documentRetire _ => cases hc

/-! ## The outcome of an action -/

/-- The document after its action. -/
def DocumentAction.after (action : DocumentAction P) (seq : Seq)
    (stored : Option (StoredDocumentState P)) : Option (StoredDocumentState P) :=
  let written := match action.create, action.content with
    | some create, some content =>
      some ⟨⟨create, seq, if action.retire then some seq else none⟩, [⟨content, seq⟩]⟩
    | none, some content => stored.map (·.changed seq content)
    | _, none => stored
  if action.retire then written.map (·.retired seq action.create.isSome) else written

/-- The current document of an address after the action of one of its documents. -/
def DocumentAction.settled (action : DocumentAction P) (id : Id) (currentId : Option Id) : Option Id :=
  if action.retire then if currentId = some id then none else currentId
  else if action.create.isSome then some id else currentId

/-- An action that the checks let through, as far as the document itself is concerned. -/
structure DocumentAction.Fits (action : DocumentAction P) (id : Id)
    (stored : Option (StoredDocumentState P)) : Prop where
  fresh : ∀ create, action.create = some create → create.id = id ∧ action.content.isSome = true ∧ stored = none
  old : action.create = none → stored.isSome = true

theorem DocumentAction.settle_currentId (action : DocumentAction P) (index : DocumentAddressIndex)
    (id : Id) : (index.settle id action.create.isSome action.retire).currentId =
      action.settled id index.currentId := by
  unfold DocumentAddressIndex.settle settled
  repeat' split
  all_goals rfl

@[simp] theorem DocumentAddressIndex.settle_ids (index : DocumentAddressIndex) (id : Id)
    (created retire : Bool) : (index.settle id created retire).ids = index.ids := by
  unfold settle
  repeat' split
  all_goals rfl

variable (stored : StoredDocumentState P)

@[simp] theorem StoredDocumentState.changed_record (seq : Seq)
    (content : DocumentContent) : (stored.changed seq content).record = stored.record := rfl

theorem StoredDocumentState.retired_create (seq : Seq)
    (created : Bool) :
    (stored.retired seq created).record.toDocumentCreate = stored.record.toDocumentCreate := by
  unfold retired
  cases created <;> rfl

namespace MemoryStorage

def addressIds (s : MemoryStorage P) (address : DocumentAddress) : List Id :=
  (s.documentAddresses address).elim [] DocumentAddressIndex.ids

def currentId (s : MemoryStorage P) (address : DocumentAddress) : Option Id :=
  (s.documentAddresses address).bind DocumentAddressIndex.currentId

/-- The documents and the id lists of their addresses and scopes. -/
structure DocumentIndex (s : MemoryStorage P) : Prop where
  keyed : ∀ id stored, s.documents id = some stored → stored.record.id = id
  addressed : ∀ address, Lists (s.addressIds address) fun id =>
    ∃ stored, s.documents id = some stored ∧ stored.record.address = address
  inScope : ∀ scope, Lists (s.documentIdsByScope scope) fun id =>
    ∃ stored, s.documents id = some stored ∧ stored.record.scope = scope

/-- The part of the storage that no document command touches. -/
def SameTables (s m : MemoryStorage P) : Prop :=
  m.conversations = s.conversations ∧ m.conversationIds = s.conversationIds ∧
    m.entries = s.entries ∧ m.entryIds = s.entryIds ∧ m.headEntryIds = s.headEntryIds ∧
    m.entryCommitSeqs = s.entryCommitSeqs ∧ m.tasks = s.tasks ∧ m.taskIds = s.taskIds ∧
    m.taskIdsByStatus = s.taskIdsByStatus ∧ m.submissions = s.submissions ∧
    m.submissionIdsByRequest = s.submissionIdsByRequest ∧ m.nextSeq = s.nextSeq

/-- What the action of one document does to the storage. -/
structure Acted (seq : Seq) (id : Id) (action : DocumentAction P) (s m : MemoryStorage P) : Prop where
  documents : m.documents = update s.documents id (action.after seq (s.documents id))
  ids : ∀ address, m.addressIds address =
    if action.create.any (·.address = address) then insertSorted (s.addressIds address) id
    else s.addressIds address
  scopes : ∀ scope, m.documentIdsByScope scope =
    if action.create.any (·.scope = scope) then insertSorted (s.documentIdsByScope scope) id
    else s.documentIdsByScope scope
  current : ∀ address, m.currentId address =
    if (action.after seq (s.documents id)).any (·.record.address = address) then
      action.settled id (s.currentId address)
    else s.currentId address
  nextId : s.nextId ≤ m.nextId ∧ (action.create.isSome = true → id < m.nextId)
  frame : SameTables s m

/-- The loop body of `applyDocumentActions`. -/
def applyAction (seq : Seq) (s : MemoryStorage P) (id : Id) (action : DocumentAction P) :
    MemoryStorage P × Option StorageError :=
  match s.writeDocument seq id action with
  | .error e => (s, some e)
  | .ok written => written.settleDocument seq id action

theorem applyDocumentActions_cons (seq : Seq) (s : MemoryStorage P) (id : Id)
    (action : DocumentAction P) (actions : DocumentActions P) :
    applyDocumentActions seq s ((id, action) :: actions) =
      match applyAction seq s id action with
      | (stopped, some e) => (stopped, some e)
      | (m, none) => applyDocumentActions seq m actions := by
  rw [applyDocumentActions, applyAction]
  cases s.writeDocument seq id action <;> rfl

/-- The address of a stored document has an index. -/
theorem DocumentIndex.index {id : Id} {stored : StoredDocumentState P} {s : MemoryStorage P} (hs : s.DocumentIndex)
    (h : s.documents id = some stored) :
    ∃ index, s.documentAddresses stored.record.address = some index := by
  cases hi : s.documentAddresses stored.record.address with
  | some index => exact ⟨index, rfl⟩
  | none =>
    have hmem := ((hs.addressed stored.record.address).mem id).mpr ⟨stored, h, rfl⟩
    rw [addressIds, hi] at hmem
    cases hmem

theorem settleDocument_ok (s : MemoryStorage P) (seq : Seq) (id : Id) (action : DocumentAction P)
    (stored : StoredDocumentState P) (index : DocumentAddressIndex)
    (hs : s.documents id = some stored)
    (hi : s.documentAddresses stored.record.address = some index) :
    ∃ m, s.settleDocument seq id action = (m, none) ∧
      m.documents = (if action.retire then
        update s.documents id (some (stored.retired seq action.create.isSome)) else s.documents) ∧
      m.addressIds = s.addressIds ∧
      (∀ address, m.currentId address = if stored.record.address = address then
        action.settled id (s.currentId address) else s.currentId address) ∧
      m.documentIdsByScope = s.documentIdsByScope ∧ m.nextId = s.nextId ∧ SameTables s m := by
  unfold settleDocument
  by_cases hidle : (!action.create.isSome && !action.retire) = true
  · rw [if_pos hidle]
    simp only [Bool.and_eq_true, Bool.not_eq_true'] at hidle
    refine ⟨s, rfl, ?_, rfl, fun address => ?_, rfl, rfl, rfl, rfl, rfl, rfl, rfl, rfl, rfl, rfl, rfl, rfl, rfl, rfl⟩
    · rw [if_neg (by simp [hidle.2])]
    · simp [DocumentAction.settled, hidle.1, hidle.2]
  · rw [if_neg hidle, hs]
    dsimp only
    rw [hi]
    have hids : ∀ address, (update s.documentAddresses stored.record.address
        (some (index.settle id action.create.isSome action.retire)) address).elim []
          DocumentAddressIndex.ids = s.addressIds address := by
      intro address
      by_cases ha : address = stored.record.address
      · rw [ha, update_self, addressIds, hi]
        simp
      · rw [update_of_ne ha, addressIds]
    have hcur : ∀ address, (update s.documentAddresses stored.record.address
        (some (index.settle id action.create.isSome action.retire)) address).bind
          DocumentAddressIndex.currentId = if stored.record.address = address then
            action.settled id (s.currentId address) else s.currentId address := by
      intro address
      by_cases ha : address = stored.record.address
      · rw [ha, update_self, if_pos rfl, currentId, hi, bind_some, bind_some, DocumentAction.settle_currentId]
      · rw [update_of_ne ha, if_neg (Ne.symm ha), currentId]
    refine ⟨_, rfl, ?_, funext hids, hcur, ?_, ?_, ?_⟩
    all_goals cases action.retire
    all_goals first
      | rfl
      | exact ⟨rfl, rfl, rfl, rfl, rfl, rfl, rfl, rfl, rfl, rfl, rfl, rfl⟩

variable {action : DocumentAction P} {create : DocumentCreate P}

theorem applyAction_create {id : Id} {s : MemoryStorage P} (seq : Seq) (hc : action.create = some create)
    (hfits : action.Fits id (s.documents id)) :
    ∃ m, applyAction seq s id action = (m, none) ∧ Acted seq id action s m := by
  obtain ⟨hid, hcont, -⟩ := hfits.fresh create hc
  obtain ⟨content, hcont⟩ := isSome_iff_exists.mp hcont
  subst hid
  let stored : StoredDocumentState P := ⟨⟨create, seq, if action.retire then some seq else none⟩, [⟨content, seq⟩]⟩
  have hwrite : applyAction seq s create.id action =
      (s.createDocument seq create content action.retire).settleDocument seq create.id action := by
    simp only [applyAction, writeDocument, hc, hcont]
  obtain ⟨m, hm, hdocs, hids, hcur, hscope, hnext, hframe⟩ := settleDocument_ok
    (s.createDocument seq create content action.retire) seq create.id action stored _
    (update_self ..) (update_self ..)
  have hafter : action.after seq (s.documents create.id) =
      some (if action.retire then stored.retired seq true else stored) := by
    simp only [DocumentAction.after, hc, hcont]
    cases hr : action.retire <;> simp [stored, hr]
  refine ⟨m, hwrite.trans hm, ?_, fun address => ?_, fun scope => ?_, fun address => ?_, ?_, ?_⟩
  · rw [hdocs, hafter, hc]
    change (if action.retire = true then update (update s.documents create.id (some stored)) _ _
      else update s.documents create.id (some stored)) = _
    cases action.retire
    · rfl
    · exact update_idem ..
  · rw [hids, hc, any_some]
    change (update s.documentAddresses create.address _ address).elim [] _ = _
    by_cases ha : address = create.address
    · rw [ha, update_self, if_pos (by simp), addressIds]
      cases s.documentAddresses create.address <;> rfl
    · rw [update_of_ne ha, if_neg (by simpa using Ne.symm ha), addressIds]
  · rw [hscope, hc, any_some]
    change update s.documentIdsByScope create.scope _ scope = _
    by_cases ha : scope = create.scope
    · rw [ha, update_self, if_pos (by simp)]
    · rw [update_of_ne ha, if_neg (by simpa using Ne.symm ha)]
  · have hold : (s.createDocument seq create content action.retire).currentId address =
        s.currentId address := by
      change (update s.documentAddresses create.address _ address).bind _ = _
      by_cases ha : address = create.address
      · rw [ha, update_self, currentId]
        cases s.documentAddresses create.address <;> rfl
      · rw [update_of_ne ha, currentId]
    have haddr : (if action.retire then stored.retired seq true else stored).record.address =
        create.address := by
      cases action.retire <;> rfl
    rw [hcur, hold, hafter, any_some, haddr]
    change (if create.address = address then _ else _) = _
    by_cases ha : create.address = address <;> simp [ha]
  · rw [hnext]
    exact ⟨le_max_left .., fun _ => lt_max_of_lt_right (Int.lt_succ _)⟩
  · exact hframe

theorem applyAction_old {id : Id} {s : MemoryStorage P} (hs : s.DocumentIndex) (seq : Seq) (hc : action.create = none)
    (hfits : action.Fits id (s.documents id)) :
    ∃ m, applyAction seq s id action = (m, none) ∧ Acted seq id action s m := by
  obtain ⟨stored, hstor⟩ := isSome_iff_exists.mp (hfits.old hc)
  obtain ⟨index, hindex⟩ := hs.index hstor
  let written := action.content.elim stored (stored.changed seq)
  have haddress : written.record.address = stored.record.address := by
    simp only [written]
    cases action.content <;> rfl
  have hwrite : ∃ w, s.writeDocument seq id action = .ok w ∧ w.documents = update s.documents id (some written) ∧
      w.documentAddresses = s.documentAddresses ∧ w.documentIdsByScope = s.documentIdsByScope ∧
      w.nextId = s.nextId ∧ SameTables s w := by
    unfold writeDocument
    cases hcont : action.content with
    | none =>
      rw [hc]
      refine ⟨s, rfl, ?_, rfl, rfl, rfl, rfl, rfl, rfl, rfl, rfl, rfl, rfl, rfl, rfl, rfl, rfl, rfl⟩
      simp only [written, hcont, elim_none, ← hstor, update_eq_self]
    | some content =>
      rw [hc, hstor]
      refine ⟨_, rfl, ?_, rfl, rfl, rfl, rfl, rfl, rfl, rfl, rfl, rfl, rfl, rfl, rfl, rfl, rfl, rfl⟩
      simp only [written, hcont, elim_some]
      rfl
  obtain ⟨w, hw, hwdocs, hwaddr, hwscope, hwnext, hwsame⟩ := hwrite
  have hafter : action.after seq (s.documents id) =
      some (if action.retire then written.retired seq false else written) := by
    simp only [DocumentAction.after, hc, hstor, written]
    cases action.content <;> cases action.retire <;> rfl
  obtain ⟨m, hm, hdocs, hids, hcur, hscope, hnext, hframe⟩ := settleDocument_ok w seq id action
    written index (by rw [hwdocs, update_self])
    (by rw [hwaddr, haddress, hindex])
  refine ⟨m, ?_, ?_, fun address => ?_, fun scope => ?_, fun address => ?_, ?_, ?_⟩
  · rw [applyAction, hw]
    exact hm
  · rw [hdocs, hafter, hc, hwdocs]
    cases action.retire
    · rfl
    · exact update_idem ..
  · rw [hids, hc, addressIds, hwaddr]
    rfl
  · rw [hscope, hwscope, hc]
    rfl
  · have haddr : (if action.retire then written.retired seq false else written).record.address =
        stored.record.address := by
      rw [← haddress]
      cases action.retire <;> rfl
    rw [hcur, currentId, hwaddr, hafter, any_some, haddr, haddress]
    by_cases ha : stored.record.address = address <;> simp [ha, currentId]
  · rw [hnext, hwnext, hc]
    exact ⟨le_rfl, fun h => by cases h⟩
  · simp only [SameTables] at hframe hwsame ⊢
    simp [hframe, hwsame]

/-- A list that shows the documents of a kind, after an action that keeps kinds. -/
theorem listed_update {id : Id} {stored : StoredDocumentState P} {ids : List Id} {p : DocumentCreate P → Prop}
    {documents : Id → Option (StoredDocumentState P)}
    (h : Lists ids fun id => ∃ stored, documents id = some stored ∧ p stored.record.toDocumentCreate)
    {stored' : StoredDocumentState P} (hold : documents id = some stored)
    (hsame : stored'.record.toDocumentCreate = stored.record.toDocumentCreate) :
    Lists ids fun i => ∃ v, update documents id (some stored') i = some v ∧
      p v.record.toDocumentCreate := by
  refine h.congr fun i => ?_
  by_cases hi : i = id
  · subst hi
    simp [hold, hsame]
  · rw [update_of_ne hi]

theorem DocumentAction.after_create (hc : action.create = some create) (hcont : action.content.isSome = true)
    (seq : Seq) (old : Option (StoredDocumentState P)) :
    ∃ stored, action.after seq old = some stored ∧ stored.record.toDocumentCreate = create ∧
      stored.record.createdAt = seq ∧ stored.record.retiredAt = if action.retire then some seq else none := by
  obtain ⟨content, hcont⟩ := isSome_iff_exists.mp hcont
  simp only [DocumentAction.after, hc, hcont]
  cases action.retire <;> exact ⟨_, rfl, rfl, rfl, rfl⟩

theorem DocumentAction.after_old (hc : action.create = none) (seq : Seq) (stored : StoredDocumentState P) :
    ∃ stored', action.after seq (some stored) = some stored' ∧
      stored'.record.toDocumentCreate = stored.record.toDocumentCreate ∧
      stored'.record.createdAt = stored.record.createdAt ∧
      stored'.record.retiredAt = if action.retire then some seq else stored.record.retiredAt := by
  simp only [DocumentAction.after, hc]
  cases action.content <;> cases action.retire <;> exact ⟨_, rfl, rfl, rfl, rfl⟩

theorem Acted.index {id : Id} {s m : MemoryStorage P} {seq : Seq} (h : Acted seq id action s m)
    (hs : s.DocumentIndex) (hfits : action.Fits id (s.documents id)) :
    m.DocumentIndex := by
  cases hc : action.create with
  | some create =>
    obtain ⟨hid, hcont, hnone⟩ := hfits.fresh create hc
    obtain ⟨stored, hafter, hrec, -⟩ := DocumentAction.after_create hc hcont seq (s.documents id)
    have hdocs := h.documents
    rw [hafter] at hdocs
    have hkey : stored.record.id = id := by rw [← hid, ← hrec]
    refine ⟨?_, fun address => ?_, fun scope => ?_⟩
    · rw [hdocs, ← hkey]
      exact keyed_update hs.keyed stored
    · rw [hdocs, h.ids, hc, any_some]
      by_cases ha : create.address = address
      · rw [if_pos (by simpa using ha)]
        exact listed_insert (hs.addressed address) hnone (by rw [hrec, ha])
      · rw [if_neg (by simpa using ha)]
        exact listed_skip (hs.addressed address) (fun v hv => by rw [hnone] at hv; cases hv)
          (by rwa [hrec])
    · rw [hdocs, h.scopes, hc, any_some]
      by_cases ha : create.scope = scope
      · rw [if_pos (by simpa using ha)]
        exact listed_insert (hs.inScope scope) hnone (by rw [hrec, ha])
      · rw [if_neg (by simpa using ha)]
        exact listed_skip (hs.inScope scope) (fun v hv => by rw [hnone] at hv; cases hv)
          (by rwa [hrec])
  | none =>
    obtain ⟨stored, hstor⟩ := isSome_iff_exists.mp (hfits.old hc)
    obtain ⟨stored', hafter, hrec, -⟩ := DocumentAction.after_old hc seq stored
    have hdocs := h.documents
    rw [hstor, hafter] at hdocs
    have hkey : stored'.record.id = id := by
      rw [hrec]
      exact hs.keyed id stored hstor
    refine ⟨?_, fun address => ?_, fun scope => ?_⟩
    · rw [hdocs, ← hkey]
      exact keyed_update hs.keyed stored'
    · rw [hdocs, h.ids, hc]
      exact listed_update (p := fun r => r.address = address) (hs.addressed address) hstor hrec
    · rw [hdocs, h.scopes, hc]
      exact listed_update (p := fun r => r.scope = scope) (hs.inScope scope) hstor hrec

/-- The action leaves a document at the address. -/
def touches (seq : Seq) (documents : Id → Option (StoredDocumentState P)) (address : DocumentAddress)
    (p : Id × DocumentAction P) : Bool :=
  (p.2.after seq (documents p.1)).any (·.record.address = address)

/-- The current document of an address through a batch, from the documents before it. -/
def settleAll (seq : Seq) (documents : Id → Option (StoredDocumentState P)) (address : DocumentAddress)
    (currentId : Option Id) (actions : DocumentActions P) : Option Id :=
  actions.foldl (fun currentId p =>
    if touches seq documents address p then p.2.settled p.1 currentId else currentId) currentId

/-- What the actions of a batch do to the storage. -/
structure ActedAll (seq : Seq) (actions : DocumentActions P) (s m : MemoryStorage P) : Prop where
  documents : ∀ id, m.documents id = (actions.get id).elim (s.documents id) (·.after seq (s.documents id))
  current : ∀ address, m.currentId address = settleAll seq s.documents address (s.currentId address) actions
  nextId : s.nextId ≤ m.nextId ∧ ∀ id action, (id, action) ∈ actions → action.create.isSome = true → id < m.nextId
  index : m.DocumentIndex
  frame : SameTables s m

/-- Applying the actions of distinct documents that pass the checks fails nowhere. -/
theorem applyDocumentActions_ok {s : MemoryStorage P} (hs : s.DocumentIndex) (seq : Seq)
    (hn : (actions.map Prod.fst).Nodup)
    (hfits : ∀ id action, (id, action) ∈ actions → action.Fits id (s.documents id)) :
    ∃ m, applyDocumentActions seq s actions = (m, none) ∧ ActedAll seq actions s m := by
  induction actions generalizing s with
  | nil =>
    exact ⟨s, rfl, fun _ => rfl, fun _ => rfl, ⟨le_rfl, fun _ _ h => by cases h⟩, hs,
      rfl, rfl, rfl, rfl, rfl, rfl, rfl, rfl, rfl, rfl, rfl, rfl⟩
  | cons p actions ih =>
    obtain ⟨id, action⟩ := p
    obtain ⟨hnot, hrest⟩ := nodup_cons.mp hn
    have hfirst := hfits id action (.head _)
    obtain ⟨m₁, hm₁, hacted⟩ : ∃ m, applyAction seq s id action = (m, none) ∧ Acted seq id action s m := by
      cases hc : action.create with
      | none => exact applyAction_old hs seq hc hfirst
      | some create => exact applyAction_create seq hc hfirst
    have hother : ∀ i, i ≠ id → m₁.documents i = s.documents i := fun i hi => by
      rw [hacted.documents, update_of_ne hi]
    have hneq : ∀ i a, (i, a) ∈ actions → i ≠ id := by
      rintro i a hmem rfl
      exact hnot (mem_map.mpr ⟨_, hmem, rfl⟩)
    obtain ⟨m, hm, hall⟩ := ih (hacted.index hs hfirst) hrest fun i a hmem => by
      rw [hother i (hneq i a hmem)]
      exact hfits i a (.tail _ hmem)
    refine ⟨m, by rw [applyDocumentActions_cons, hm₁]; exact hm, fun i => ?_, fun address => ?_,
      ⟨hacted.nextId.1.trans hall.nextId.1, fun i a hmem hcreate => ?_⟩, hall.index, ?_⟩
    · rw [hall.documents, JsMap.get_cons]
      by_cases hi : id = i
      · subst hi
        rw [if_pos rfl, JsMap.get_eq_none.mpr hnot, hacted.documents, update_self]
        rfl
      · rw [if_neg hi, hother i (Ne.symm hi)]
    · rw [hall.current, hacted.current, settleAll, settleAll, foldl_cons]
      refine foldl_ext _ _ _ fun cur q hq => ?_
      rw [touches, touches, hother q.1 (hneq q.1 q.2 hq)]
    · rcases mem_cons.mp hmem with heq | hmem
      · obtain ⟨rfl, rfl⟩ := Prod.mk.inj heq
        exact (hacted.nextId.2 hcreate).trans_le hall.nextId.1
      · exact hall.nextId.2 i a hmem hcreate
    · have h₁ := hacted.frame
      have h₂ := hall.frame
      simp only [SameTables] at h₁ h₂ ⊢
      simp [h₁, h₂]

end MemoryStorage

end Shuvpi.Durable
