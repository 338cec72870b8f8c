import Shuvpi.DurableCommits

/-!
# Versioned documents

The content that the accepted commits wrote to a document, in order, is what reading it
folds from the last base on. Documents that keep their history hold all of it; the others
hold what is from their last base on.
-/
open List Option

namespace Shuvpi.Durable

open Delta (DeltaError applyImmutable)
open Function (update)

variable {P : Type}

/-! ## The fold -/

/-- A base starts anew, under its own version. -/
def foldContent (value : Option (Int × Except DeltaError (Option Json))) :
    DocumentContent → Option (Int × Except DeltaError (Option Json))
  | .base version base => some (version, .ok (some base))
  | .delta _ ops => value.map fun (version, value) => (version, value.bind (applyImmutable · ops))

/-- The value of a document after the given content. -/
def contentAt (revisions : List DocumentRevision) : Option (Int × Except DeltaError (Option Json)) :=
  revisions.foldl (fun value revision => foldContent value revision.content) none

/-- It starts with a base, and only a base changes the version. -/
structure Chained (revisions : List DocumentRevision) : Prop where
  base : ∃ first rest, revisions = first :: rest ∧ first.content.isBase = true
  steps : revisions.IsChain fun a b => b.content.isBase = true ∨ b.content.version = a.content.version

variable {revisions : List DocumentRevision}

theorem contentAt_append_base (front : List DocumentRevision) (h : Chained revisions) :
    contentAt (front ++ revisions) = contentAt revisions := by
  obtain ⟨first, rest, rfl, hbase⟩ := h.base
  obtain ⟨content, seq⟩ := first
  unfold contentAt
  rw [foldl_append, foldl_cons, foldl_cons]
  cases content with
  | base version value => rfl
  | delta version ops => cases hbase

theorem lastBase_none (h : lastBase revisions = none) :
    ∀ revision ∈ revisions, revision.content.isBase = false := by
  induction revisions with
  | nil => exact fun _ h => by cases h
  | cons r revisions ih =>
    unfold lastBase at h
    split at h
    · cases h
    · cases h
    · rename_i hrest hcont
      intro revision hmem
      rcases mem_cons.mp hmem with rfl | hmem
      · rw [hcont]
        rfl
      · exact ih hrest revision hmem

theorem lastBase_some {later : List DocumentRevision} {version : Int} {value : Json}
    (h : lastBase revisions = some (version, value, later)) :
    ∃ front seq, revisions = front ++ ⟨.base version value, seq⟩ :: later ∧
      ∀ revision ∈ later, revision.content.isBase = false := by
  induction revisions with
  | nil => cases h
  | cons r revisions ih =>
    unfold lastBase at h
    split at h
    · rename_i found hfound
      cases h
      obtain ⟨front, seq, rfl, hlater⟩ := ih hfound
      exact ⟨r :: front, seq, rfl, hlater⟩
    · rename_i v x hnone hcont
      cases h
      refine ⟨[], r.seq, ?_, lastBase_none hnone⟩
      rw [nil_append, ← hcont]
    · cases h

/-- Deltas that follow one another keep the version. -/
theorem version_of_steps {first : DocumentRevision} {later : List DocumentRevision}
    (h : (first :: later).IsChain fun a b =>
      b.content.isBase = true ∨ b.content.version = a.content.version)
    (hdeltas : ∀ revision ∈ later, revision.content.isBase = false) :
    ∀ revision ∈ later, revision.content.version = first.content.version := by
  induction later generalizing first with
  | nil => exact fun _ h => by cases h
  | cons r later ih =>
    rw [isChain_cons_cons] at h
    have hver : r.content.version = first.content.version := by
      refine h.1.resolve_left fun hbase => ?_
      rw [hdeltas r (.head _)] at hbase
      cases hbase
    intro revision hmem
    rcases mem_cons.mp hmem with rfl | hmem
    · exact hver
    · rw [ih h.2 (fun r hr => hdeltas r (.tail _ hr)) revision hmem, hver]

/-- A fold over deltas that failed stays failed. -/
theorem foldl_error (version : Int) (e : DeltaError) {later : List DocumentRevision}
    (hdeltas : ∀ revision ∈ later, revision.content.isBase = false) :
    later.foldl (fun value revision => foldContent value revision.content) (some (version, .error e)) =
      some (version, .error e) := by
  induction later with
  | nil => rfl
  | cons r later ih =>
    rw [foldl_cons]
    obtain ⟨content, seq⟩ := r
    cases content with
    | base v x => cases hdeltas _ (.head _)
    | delta v ops => exact ih fun r hr => hdeltas r (.tail _ hr)

theorem replayRevisions_eq (id : Id) (version : Int) {later : List DocumentRevision}
    (hdeltas : ∀ revision ∈ later, revision.content.isBase = false)
    (hver : ∀ revision ∈ later, revision.content.version = version) (value : Option Json) :
    ∃ result, later.foldl (fun value revision => foldContent value revision.content)
        (some (version, .ok value)) = some (version, result) ∧
      replayRevisions id version value later = result.mapError .delta := by
  induction later generalizing value with
  | nil => exact ⟨.ok value, rfl, rfl⟩
  | cons r later ih =>
    obtain ⟨content, seq⟩ := r
    cases content with
    | base v x => cases hdeltas _ (.head _)
    | delta v ops =>
      have hv : v = version := hver _ (.head _)
      have hrest : ∀ r ∈ later, r.content.isBase = false := fun r hr => hdeltas r (.tail _ hr)
      rw [foldl_cons, replayRevisions, if_neg (by simp [hv])]
      cases happly : applyImmutable value ops with
      | error e =>
        refine ⟨.error e, ?_, rfl⟩
        simp only [foldContent, map_some, Except.bind, happly]
        exact foldl_error version e hrest
      | ok next =>
        simp only [foldContent, map_some, Except.bind, happly]
        exact ih hrest (fun r hr => hver r (.tail _ hr)) next

/-- What reading a document returns, from the value of the fold. -/
def readResult (record : DocumentRecord P) (version : Int) (value : Except DeltaError (Option Json)) :
    Except StorageError (StoredDocument P) :=
  (value.mapError StorageError.delta).map (⟨record, version, ·⟩)

theorem readRevisions_eq (record : DocumentRecord P) (h : Chained revisions) :
    ∃ version value, contentAt revisions = some (version, value) ∧
      readRevisions record revisions = readResult record version value := by
  unfold readRevisions
  cases hlast : lastBase revisions with
  | none =>
    obtain ⟨first, rest, rfl, hbase⟩ := h.base
    rw [lastBase_none hlast first (.head _)] at hbase
    cases hbase
  | some found =>
    obtain ⟨version, value, later⟩ := found
    obtain ⟨front, seq, rfl, hdeltas⟩ := lastBase_some hlast
    have hchain := (isChain_append.mp h.steps).2.1
    obtain ⟨result, hfold, hrepl⟩ := replayRevisions_eq record.id version hdeltas
      (version_of_steps hchain hdeltas) (some value)
    refine ⟨version, result, ?_, ?_⟩
    · rw [contentAt_append_base front ⟨⟨_, _, rfl, rfl⟩, hchain⟩]
      exact hfold
    · dsimp only
      rw [hrepl]
      rfl

theorem Chained.append (h : Chained revisions)
    (revision : DocumentRevision) (hver : revision.content.isBase = true ∨
      ∃ previous, revisions.getLast? = some previous ∧ previous.content.version = revision.content.version) :
    Chained (revisions ++ [revision]) := by
  obtain ⟨first, rest, hrevs, hbase⟩ := h.base
  refine ⟨⟨first, rest ++ [revision], by rw [hrevs]; rfl, hbase⟩, ?_⟩
  refine isChain_append.mpr ⟨h.steps, isChain_singleton _, fun a ha b hb => ?_⟩
  obtain rfl := some.inj hb
  rcases hver with hb | ⟨previous, hlast, hv⟩
  · exact .inl hb
  · rw [hlast] at ha
    obtain rfl := some.inj ha
    exact .inr hv.symm

/-- The revisions up to a point at which the document is there. -/
theorem Chained.upTo (h : Chained revisions) (hseqs : revisions.Pairwise fun a b => a.seq < b.seq) {point : Seq}
    (hfirst : ∀ revision ∈ revisions.head?, revision.seq ≤ point) :
    Chained (revisions.filter (·.seq ≤ point)) := by
  obtain ⟨first, rest, rfl, hbase⟩ := h.base
  have hle : first.seq ≤ point := hfirst first rfl
  have htake := (SortedIds.takeWhile_eq_filter (hseqs.imp fun {a b} hab (hb : decide (b.seq ≤ point) = true) =>
    decide_eq_true (hab.le.trans (of_decide_eq_true hb)))).1
  refine ⟨⟨first, rest.filter (·.seq ≤ point), ?_, hbase⟩, ?_⟩
  · rw [filter_cons_of_pos (by simpa using hle)]
  · rw [← htake]
    exact h.steps.prefix (List.takeWhile_prefix _)

/-! ## The accepted content -/

namespace MemoryStorage

/-- The content for a document that one call adds, if it is accepted. -/
def accepted (s : MemoryStorage P) (c : StorageCall P) (id : Id) : List DocumentRevision :=
  match c with
  | .mintId => []
  | .commit writes =>
    match (s.commit writes).1 with
    | .error _ => []
    | .ok seq => (writes.findSome? (·.content? id)).toList.map (⟨·, seq⟩)

def acceptedAll (s : MemoryStorage P) (id : Id) : List (StorageCall P) → List DocumentRevision
  | [] => []
  | c :: calls => s.accepted c id ++ (s.call c).acceptedAll id calls

/-- What a stored document holds of the content that was accepted for it. -/
structure Holds (nextSeq : Seq) (log : List DocumentRevision) (stored : StoredDocumentState P) : Prop where
  chained : Chained log
  seqs : log.Pairwise fun a b => a.seq < b.seq
  bound : ∀ revision ∈ log, revision.seq < nextSeq
  first : ∀ revision ∈ log.head?, revision.seq = stored.record.createdAt
  all : stored.record.currentOnly = false → stored.revisions = log
  current : stored.record.currentOnly = true → stored.record.retiredAt = none →
    Chained stored.revisions ∧ ∃ front, log = front ++ stored.revisions

structure Logged (s : MemoryStorage P) (log : Id → List DocumentRevision) : Prop where
  absent : ∀ id, s.documents id = none → log id = []
  stored : ∀ id stored, s.documents id = some stored → Holds s.nextSeq (log id) stored

variable {stored : StoredDocumentState P} {log : List DocumentRevision} {nextSeq : Seq}

theorem Holds.later (h : Holds nextSeq log stored) : Holds (nextSeq + 1) log stored :=
  ⟨h.chained, h.seqs, fun r hr => Nat.lt_succ_of_lt (h.bound r hr), h.first, h.all, h.current⟩

/-- While a document is current, its last revision is the last that was accepted. -/
theorem Holds.getLast (h : Holds nextSeq log stored) (hlive : stored.record.retiredAt = none) :
    stored.revisions.getLast? = log.getLast? := by
  cases hc : stored.record.currentOnly with
  | false => rw [h.all hc]
  | true =>
    obtain ⟨hchain, front, hlog⟩ := h.current hc hlive
    obtain ⟨first, rest, hrevs, -⟩ := hchain.base
    rw [hlog, hrevs, getLast?_append_of_ne_nil _ (cons_ne_nil _ _)]

variable {seq : Seq}

/-- Content that passes the checks goes to the end. -/
theorem Holds.changed
    (h : Holds seq log stored) (hlive : stored.record.retiredAt = none) (content : DocumentContent)
    (hver : ∀ version ops, content = .delta version ops →
      ∃ previous, stored.revisions.getLast? = some previous ∧ previous.content.version = version) :
    Holds (seq + 1) (log ++ [⟨content, seq⟩]) (stored.changed seq content) := by
  have hstep : content.isBase = true ∨ ∃ previous, stored.revisions.getLast? = some previous ∧
      previous.content.version = content.version := by
    cases content with
    | base version value => exact .inl rfl
    | delta version ops => exact .inr (hver version ops rfl)
  have hlogstep : content.isBase = true ∨ ∃ previous, log.getLast? = some previous ∧
      previous.content.version = content.version := by
    rwa [← h.getLast hlive]
  refine ⟨h.chained.append _ hlogstep, ?_, ?_, ?_, fun hc => ?_, fun hc _ => ?_⟩
  · refine pairwise_append.mpr ⟨h.seqs, pairwise_singleton _ _, fun a ha b hb => ?_⟩
    rw [mem_singleton.mp hb]
    exact h.bound a ha
  · intro r hr
    rcases mem_append.mp hr with hr | hr
    · exact Nat.lt_succ_of_lt (h.bound r hr)
    · rw [mem_singleton.mp hr]
      exact Nat.lt_succ_self _
  · obtain ⟨first, rest, hlog, -⟩ := h.chained.base
    intro r hr
    refine h.first r ?_
    rw [hlog] at hr ⊢
    exact hr
  · rw [StoredDocumentState.changed_record] at hc
    rw [StoredDocumentState.changed, if_neg (by simp [hc]), h.all hc]
  · rw [StoredDocumentState.changed_record] at hc
    obtain ⟨hchain, front, hlog⟩ := h.current hc hlive
    cases hbase : content.isBase with
    | true =>
      rw [StoredDocumentState.changed, if_pos (by simp [hbase, hc])]
      exact ⟨⟨⟨_, [], rfl, hbase⟩, isChain_singleton _⟩, log, rfl⟩
    | false =>
      rw [StoredDocumentState.changed, if_neg (by simp [hbase])]
      exact ⟨hchain.append _ hstep, front, by rw [hlog, append_assoc]⟩

theorem Holds.retired (h : Holds nextSeq log stored) (created : Bool)
    (hgone : created = true → stored.record.retiredAt ≠ none) :
    Holds nextSeq log (stored.retired seq created) := by
  have hrec := stored.retired_create seq created
  have honly : (stored.retired seq created).record.currentOnly = stored.record.currentOnly := by
    rw [hrec]
  refine ⟨h.chained, h.seqs, h.bound, ?_, fun hc => ?_, fun hc hlive => ?_⟩
  · have hmade : (stored.retired seq created).record.createdAt = stored.record.createdAt := by
      cases created <;> rfl
    rw [hmade]
    exact h.first
  · rw [honly] at hc
    change (if stored.record.currentOnly = true then [] else stored.revisions) = log
    rw [if_neg (by simp [hc])]
    exact h.all hc
  · cases created with
    | true => exact absurd hlive (hgone rfl)
    | false => cases hlive

theorem Holds.created (create : DocumentCreate P) {content : DocumentContent}
    (hbase : content.isBase = true) (retiredAt : Option Seq) :
    Holds (seq + 1) [⟨content, seq⟩] ⟨⟨create, seq, retiredAt⟩, [⟨content, seq⟩]⟩ := by
  refine ⟨⟨⟨_, [], rfl, hbase⟩, isChain_singleton _⟩, pairwise_singleton _ _, fun r hr => ?_,
    fun r hr => ?_, fun _ => rfl, fun _ _ => ⟨⟨⟨_, [], rfl, hbase⟩, isChain_singleton _⟩, [], rfl⟩⟩
  · rw [mem_singleton.mp hr]
    exact Nat.lt_succ_self _
  · rw [← some.inj hr]

variable {s : MemoryStorage P}

/-- The outcome of an action holds what was accepted before it and its content. -/
theorem Holds.after {actions : DocumentActions P} (hc : s.Checked actions) {log : Id → List DocumentRevision}
    (hlog : s.Logged log) {id : Id} {action : DocumentAction P} (hmem : (id, action) ∈ actions)
    (h : action.after s.nextSeq (s.documents id) = some stored) :
    Holds (s.nextSeq + 1) (log id ++ action.content.toList.map (⟨·, s.nextSeq⟩)) stored := by
  cases hcreate : action.create with
  | some create =>
    obtain ⟨-, hcont, hnone⟩ := (hc.fits id action hmem).fresh create hcreate
    obtain ⟨content, hcont⟩ := isSome_iff_exists.mp hcont
    have hbase : content.isBase = true := by
      have := hc.new id action hmem (by rw [hcreate]; rfl)
      rwa [hcont] at this
    simp only [DocumentAction.after, hcreate, hcont] at h
    rw [hlog.absent id hnone, hcont]
    cases hr : action.retire with
    | false =>
      simp only [hr, Bool.false_eq_true, if_false, some.injEq] at h
      subst h
      exact Holds.created create hbase none
    | true =>
      simp only [hr, if_true, map_some, some.injEq] at h
      subst h
      exact (Holds.created create hbase (some s.nextSeq)).retired _ fun _ h => by cases h
  | none =>
    obtain ⟨old, hold⟩ := isSome_iff_exists.mp ((hc.fits id action hmem).old hcreate)
    obtain ⟨hlive, hver⟩ := hc.old id action hmem hcreate old hold
    have hholds := hlog.stored id old hold
    simp only [DocumentAction.after, hcreate, hold] at h
    have hwrit : Holds (s.nextSeq + 1) (log id ++ action.content.toList.map (⟨·, s.nextSeq⟩))
        (action.content.elim old (old.changed s.nextSeq)) := by
      cases hcont : action.content with
      | none =>
        rw [toList_none, map_nil, append_nil]
        exact hholds.later
      | some content =>
        exact hholds.changed hlive content fun v ops h => hver v ops (by rw [hcont, h])
    have hafter : stored = if action.retire then
        (action.content.elim old (old.changed s.nextSeq)).retired s.nextSeq false
        else action.content.elim old (old.changed s.nextSeq) := by
      cases hcont : action.content <;> cases hr : action.retire <;>
        rw [hcont, hr] at h <;> exact (some.inj h).symm
    rw [hafter]
    split
    · exact hwrit.retired false fun h => by cases h
    · exact hwrit

theorem Logged.call (hs : s.Inv) {log : Id → List DocumentRevision} (hlog : s.Logged log) (c : StorageCall P) :
    (s.call c).Logged fun id => log id ++ s.accepted c id := by
  cases c with
  | mintId =>
    have hcall : (s.call .mintId).Logged log := by
      rw [MemoryStorage.call, mintId]
      split <;> exact ⟨hlog.absent, hlog.stored⟩
    simpa only [accepted, append_nil] using hcall
  | commit writes =>
    rcases commit_cases hs writes with ⟨e, -, h⟩ | ⟨actions, m, -, h, hacc⟩
    · simpa only [accepted, h, MemoryStorage.call, append_nil] using hlog
    · simp only [accepted, h, MemoryStorage.call]
      obtain ⟨-, -, hdocs, -⟩ := writes_frame hacc.claimable s.nextSeq
      have hafter : ∀ id, m.documents id =
          (actions.get id).elim (s.documents id) (·.after s.nextSeq (s.documents id)) := by
        intro id
        rw [hacc.acted.documents, hdocs]
      refine ⟨fun id hnone => ?_, fun id stored hstor => ?_⟩
      · change m.documents id = none at hnone
        rw [hafter] at hnone
        cases hget : actions.get id with
        | none =>
          rw [hget] at hnone
          rw [hacc.prepared.absent id hget, hlog.absent id hnone]
          rfl
        | some action =>
          -- an action leaves a document
          rw [hget] at hnone
          have hmem := JsMap.mem_of_get hget
          have hfits := hacc.checked.fits id action hmem
          cases hcreate : action.create with
          | some create =>
            obtain ⟨-, hcont, -⟩ := hfits.fresh create hcreate
            obtain ⟨stored, hstor, -⟩ := DocumentAction.after_create hcreate hcont s.nextSeq (s.documents id)
            rw [elim_some, hstor] at hnone
            cases hnone
          | none =>
            obtain ⟨old, hold⟩ := isSome_iff_exists.mp (hfits.old hcreate)
            obtain ⟨stored, hstor, -⟩ := DocumentAction.after_old hcreate s.nextSeq old
            rw [elim_some, hold, hstor] at hnone
            cases hnone
      · change m.documents id = some stored at hstor
        rw [hafter] at hstor
        cases hget : actions.get id with
        | none =>
          rw [hget] at hstor
          rw [hacc.prepared.absent id hget, toList_none, map_nil, append_nil]
          exact (hlog.stored id stored hstor).later
        | some action =>
          rw [hget] at hstor
          have hmem := JsMap.mem_of_get hget
          rw [← hacc.prepared.content id action hmem]
          exact Holds.after hacc.checked hlog hmem hstor

theorem Logged.calls (hs : s.Inv) {log : Id → List DocumentRevision} (hlog : s.Logged log)
    (calls : List (StorageCall P)) :
    (calls.foldl MemoryStorage.call s).Logged fun id => log id ++ s.acceptedAll id calls := by
  induction calls generalizing s log with
  | nil => simpa only [acceptedAll, append_nil, foldl_nil] using hlog
  | cons c calls ih =>
    have hrest := ih (hs.call c) (hlog.call hs c)
    simpa only [acceptedAll, append_assoc, foldl_cons] using hrest

/-! ## Reading -/

/-- Reading a document that is there, as far as its content is kept. -/
theorem document_eq {id : Id} (hstor : s.documents id = some stored) (h : Holds s.nextSeq log stored)
    {at_ : Option Seq} (halive : stored.record.aliveAt at_ = true)
    (hkept : at_ = none ∨ stored.record.currentOnly = false) :
    ∃ version value, contentAt (log.filter fun r => at_.all (r.seq ≤ ·)) = some (version, value) ∧
      s.document id at_ = (readResult stored.record version value).map some := by
  have hread : ∀ revisions : List DocumentRevision, Chained revisions →
      stored.revisions.filter (fun r => at_.all (r.seq ≤ ·)) = revisions →
      contentAt (log.filter fun r => at_.all (r.seq ≤ ·)) = contentAt revisions →
      ∃ version value, contentAt (log.filter fun r => at_.all (r.seq ≤ ·)) = some (version, value) ∧
        s.document id at_ = (readResult stored.record version value).map some := by
    intro revisions hchain hrevs hcont
    obtain ⟨version, value, hfold, hread⟩ := readRevisions_eq stored.record hchain
    refine ⟨version, value, hcont.trans hfold, ?_⟩
    rw [document, hstor]
    dsimp only
    rw [if_neg (by rcases hkept with rfl | hkept <;> simp [*]), if_neg (by simp [halive]), hrevs, hread]
  cases at_ with
  | none =>
    have hfilter : ∀ revisions : List DocumentRevision,
        revisions.filter (fun r => Option.all (r.seq ≤ ·) none) = revisions :=
      fun revisions => List.filter_eq_self.mpr fun _ _ => rfl
    cases hc : stored.record.currentOnly with
    | false => exact hread log h.chained (by rw [hfilter, h.all hc]) (by rw [hfilter])
    | true =>
      have hlive : stored.record.retiredAt = none := by
        simpa [DocumentRecord.aliveAt] using halive
      obtain ⟨hchain, front, hlog⟩ := h.current hc hlive
      refine hread stored.revisions hchain (hfilter _) ?_
      rw [hfilter, hlog]
      exact contentAt_append_base front hchain
  | some point =>
    have hc : stored.record.currentOnly = false := hkept.resolve_left (by simp)
    obtain ⟨hmade, -⟩ := aliveAt_some.mp halive
    refine hread (log.filter (·.seq ≤ point)) (h.chained.upTo h.seqs fun r hr => ?_) ?_ ?_
    · rw [h.first r hr]
      exact hmade
    · rw [h.all hc]
      exact filter_congr fun _ _ => rfl
    · congr 1

/-- After any run: the documents of an address live apart, at most one of them now; reading a
document at a point of its life, now or in the history it keeps, folds the content accepted up
to then; and a rejected batch changes no document. -/
theorem documents_of_run (calls : List (StorageCall P)) :
    (∀ id id' stored stored', (run calls).documents id = some stored →
      (run calls).documents id' = some stored' → stored.record.address = stored'.record.address →
      ((∃ point, stored.record.aliveAt (some point) = true ∧ stored'.record.aliveAt (some point) = true) ∨
        stored.record.retiredAt = none ∧ stored'.record.retiredAt = none) → id = id') ∧
    (∀ id stored at_, (run calls).documents id = some stored → stored.record.aliveAt at_ = true →
      (at_ = none ∨ stored.record.currentOnly = false) →
      ∃ version value, contentAt ((initial.acceptedAll id calls).filter fun r => at_.all (r.seq ≤ ·)) =
          some (version, value) ∧
        (run calls).document id at_ = (readResult stored.record version value).map some) ∧
    ∀ writes e, ((run calls).commit writes).1 = .error e →
      ((run calls).commit writes).2.documents = (run calls).documents := by
  have hinv : (run calls).Inv := inv_initial.calls calls
  have hlogged : (run calls).Logged fun id => [] ++ initial.acceptedAll id calls :=
    Logged.calls inv_initial ⟨fun _ _ => rfl, fun _ _ h => by cases h⟩ calls
  refine ⟨fun id id' stored stored' h h' haddress htime => ?_, fun id stored at_ h halive hkept => ?_,
    fun writes e h => ?_⟩
  · rcases htime with ⟨point, halive, halive'⟩ | ⟨hopen, hopen'⟩
    · exact hinv.incarnations.apart id id' stored stored' h h' haddress point halive halive'
    · have h₁ := (hinv.incarnations.current _ _).mpr ⟨stored, h, rfl, hopen⟩
      have h₂ := (hinv.incarnations.current _ _).mpr ⟨stored', h', rfl, hopen'⟩
      rw [haddress, h₂] at h₁
      exact (Option.some.inj h₁).symm
  · exact document_eq h (hlogged.stored id stored h) halive hkept
  · rcases commit_cases hinv writes with ⟨e', -, hc⟩ | ⟨actions, m, -, hc, -⟩
    · rw [hc]
    · rw [hc] at h
      cases h

/-- A document of the session keeps no history: reading it at the time it was created fails. -/
theorem session_document_history : ¬∀ (calls : List (StorageCall Unit)) (id : Id)
    (stored : StoredDocumentState Unit) (point : Seq), (run calls).documents id = some stored →
      stored.record.aliveAt (some point) = true →
      ∃ version value, contentAt ((initial.acceptedAll id calls).filter (·.seq ≤ point)) = some (version, value) ∧
        (run calls).document id (some point) = (readResult stored.record version value).map some := by
  intro h
  obtain ⟨version, value, -, hread⟩ := h
    [.commit [.documentCreate ⟨2, [107], none, .session, none, ()⟩ (.base 1 (.object []))]] 2 _ 1 rfl rfl
  have herror : (run [.commit [.documentCreate (P := Unit) ⟨2, [107], none, .session, none, ()⟩
      (.base 1 (.object []))]]).document 2 (some 1) = .error (.noHistory 2) := rfl
  rw [herror] at hread
  cases value <;> cases hread

end MemoryStorage

end Shuvpi.Durable
