import Shuvpi.SessionSerial

/-!
# Branches as chains

What a commit leaves of the entries and of the tips of branches, and from it that an append
stays on its branch until a callback writes the tip itself. With the invariant of the
session this gives what holds of concurrent calls.
-/
open List Option

namespace Shuvpi.SessionTree

variable {Body Val Use : Type}

/-! ## What a commit leaves -/

/-- The key of the scalar value that a write sets or deletes. -/
def Write.scalarKey? : Write Body Val Use → Option JsString
  | .setValue address _ => some address.physicalKey
  | .deleteValue address => some address.physicalKey
  | _ => none

def CommittedWrite.scalarKey? : CommittedWrite Body Val Use → Option JsString
  | .setValue _ address _ => some address.physicalKey
  | .deleteValue _ address => some address.physicalKey
  | _ => none

theorem commitWrite_scalarKey? (write : Write Body Val Use) (seq timestamp : Nat) :
    (commitWrite write seq timestamp).scalarKey? = write.scalarKey? := by
  cases write with
  | _ => rfl

variable {timestamp : Nat} {writes : List (Write Body Val Use)}

theorem mem_prepareStorageCommit {firstSeq : Nat} {w : CommittedWrite Body Val Use}
    (h : w ∈ prepareStorageCommit writes firstSeq timestamp) :
    ∃ write ∈ writes, ∃ seq, w = commitWrite write seq timestamp := by
  obtain ⟨i, hi, rfl⟩ := mem_mapIdx.mp h
  exact ⟨writes[i], getElem_mem hi, _, rfl⟩

namespace StorageState

variable {writes : List (CommittedWrite Body Val Use)}

theorem validateWrites_fresh {state : CommitValidationState} {seen : Seen}
    (h : validateWrites state seen writes = .ok ()) {e : Entry Body} (he : CommittedWrite.entry e ∈ writes) :
    state.hasEntryOrUsageId e.id = false := by
  induction writes generalizing seen with
  | nil => cases he
  | cons w writes ih =>
    rw [validateWrites] at h
    cases hw : validateWrite state seen w with
    | error error =>
      rw [hw] at h
      cases h
    | ok seen' =>
      rw [hw] at h
      rcases mem_cons.mp he with rfl | he
      · have hid := (validateWrite_entry hw).1
        rw [Bool.or_eq_false_iff] at hid
        exact hid.1
      · exact ih h he

variable [UsageSum Use]

variable {s s' : StorageState Body Val Use} {w : CommittedWrite Body Val Use}

variable {id key : JsString}

/-- One write and the entry of an id that it does not insert. -/
theorem applyWrite_get (h : s.applyWrite w = .ok s') (hid : ∀ e, w = .entry e → e.id ≠ id) :
    s'.entries.get id = s.entries.get id := by
  obtain ⟨-, hchg⟩ := applyWrite_ok h
  cases w with
  | entry e =>
    rw [hchg.1, JsMap.get_set, if_neg (hid e rfl)]
  | _ => rw [hchg.1]

/-- One write and a scalar value that it does not write. -/
theorem applyWrite_scalar (h : s.applyWrite w = .ok s') (hkey : w.scalarKey? ≠ some key) :
    s'.scalarValues.get key = s.scalarValues.get key := by
  rw [applyWrite] at h
  cases w with
  | entry | usage | deleteList => cases h; rfl
  | deleteValue seq address =>
    cases h
    have hne : address.physicalKey ≠ key := fun heq => hkey (congrArg some heq)
    exact (JsMap.get_delete _ _ _).trans (if_neg hne)
  | setValue seq address value =>
    rw [applyKind, setScalar] at h
    have hne : address.physicalKey ≠ key := fun heq => hkey (congrArg some heq)
    cases hv : address.validateAddress with
    | error error => rw [hv] at h; cases h
    | ok u =>
      rw [hv] at h
      cases h
      exact (JsMap.get_set _ _ _ _).trans (if_neg hne)
  | appendList seq address value =>
    rw [applyKind, appendElement] at h
    cases hg : s.listValues.get address.physicalKey with
    | some stored => rw [hg] at h; cases h; rfl
    | none =>
      rw [hg] at h
      cases hv : address.validateAddress with
      | error error => rw [hv] at h; cases h
      | ok u => rw [hv] at h; cases h; rfl

/-- What every write of a batch leaves, the batch leaves, also when it ends early. -/
theorem applyValidated_induct {P : StorageState Body Val Use → Prop}
    (hstep : ∀ w ∈ writes, ∀ s s', s.applyWrite w = .ok s' → P s → P s') (h : P s) :
    P (s.applyValidated writes).1 := by
  induction writes generalizing s with
  | nil => exact h
  | cons w writes ih =>
    rw [applyValidated]
    cases hw : s.applyWrite w with
    | error error => exact h
    | ok s₁ =>
      exact ih (fun v hv => hstep v (mem_cons_of_mem _ hv)) (hstep w mem_cons_self s s₁ hw h)

theorem applied_fst (s : StorageState Body Val Use) (writes : List (CommittedWrite Body Val Use)) :
    (s.applied writes).1 = (s.applyValidated writes).1 := by
  rw [applied]
  split
  · rename_i heq
    rw [heq]
  · rename_i heq
    rw [heq]

/-- Entries stay as they are. -/
theorem offer_get (s : StorageState Body Val Use) (o : Offer Body Val Use) {e : Entry Body}
    (h : s.entries.get id = some e) : (s.offer o).1.entries.get id = some e := by
  rw [offer_eq]
  cases hv : s.validateCommitted (o.numbered s) with
  | error error => exact h
  | ok u =>
    rw [applied_fst]
    refine applyValidated_induct (P := fun t => t.entries.get id = some e) ?_ h
    intro w hw s₁ s₂ happly hget
    rw [applyWrite_get happly, hget]
    intro e' he' heq
    have hfresh := validateWrites_fresh hv (he' ▸ hw)
    rw [heq] at hfresh
    simp [validation, JsMap.has, h] at hfresh

theorem offer_scalar (s : StorageState Body Val Use) {writes : List (Write Body Val Use)}
    (hkey : ∀ w ∈ writes, w.scalarKey? ≠ some key) :
    (s.offer (.writes writes timestamp)).1.scalarValues.get key = s.scalarValues.get key := by
  rw [offer_eq]
  cases hv : s.validateCommitted ((Offer.writes writes timestamp).numbered s) with
  | error error => rfl
  | ok u =>
    rw [applied_fst]
    refine applyValidated_induct (P := fun t => t.scalarValues.get key = s.scalarValues.get key) ?_ rfl
    intro w hw s₁ s₂ happly hget
    rw [applyWrite_scalar happly, hget]
    obtain ⟨write, hmem, seq, rfl⟩ := mem_prepareStorageCommit hw
    rw [commitWrite_scalarKey?]
    exact hkey write hmem

/-- A commit whose addresses are accepted changes nothing when it is rejected. -/
theorem offer_rejected (s : StorageState Body Val Use) {o : Offer Body Val Use}
    (haddr : ∀ w ∈ o.numbered s, w.Addressed) {error : StorageError} (h : (s.offer o).2 = .error error) :
    (s.offer o).1 = s := by
  rw [offer_eq] at h ⊢
  cases hv : s.validateCommitted (o.numbered s) with
  | error error => rfl
  | ok u =>
    rw [hv] at h
    dsimp only at h
    have hnone := s.applyValidated_addressed haddr
    rw [applied] at h
    split at h
    · cases h
    · rename_i heq
      rw [heq] at hnone
      cases hnone

end StorageState

/-! ## Appends and new branches -/

variable [TipValue Val]

variable {s : StorageState Body Val Use} {name : JsString} {entry : AppendedEntry Body}

variable {tip : Option JsString}

variable (hval : (branchTip name).validateAddress = .ok ())
include hval

theorem appendWrites_addressed {id : JsString} :
    ∀ w ∈ (Offer.writes (appendWrites name id entry tip) timestamp).numbered s, w.Addressed := by
  intro w hw address haddr
  obtain ⟨write, hmem, seq, rfl⟩ := mem_prepareStorageCommit hw
  simp only [appendWrites, mem_cons, not_mem_nil, or_false] at hmem
  rcases hmem with rfl | rfl
  · cases haddr
  · cases haddr
    exact hval

theorem createWrites_addressed {target : Option JsString} :
    ∀ w ∈ (Offer.writes (createWrites name target) timestamp).numbered s, w.Addressed := by
  intro w hw address haddr
  obtain ⟨write, hmem, seq, rfl⟩ := mem_prepareStorageCommit hw
  rw [createWrites, mem_singleton] at hmem
  cases hmem
  cases haddr
  exact hval

omit hval

/-- Tips of branches with the same key are the same. -/
theorem tip_congr {name' : JsString} (h : (branchTip name').physicalKey = (branchTip name).physicalKey)
    (s : StorageState Body Val Use) : s.tip name' = s.tip name := by
  rw [StorageState.tip, StorageState.tip, StorageState.getValue, StorageState.getValue, h]

variable [UsageSum Use]

variable {r : Record Body Val Use}

/-- A failed `appendToBranch` or `createBranch` has changed nothing. -/
theorem Record.Ok.unchanged (h : r.Ok) (hjob : r.job ≠ .callback) (hfail : r.outcome ≠ .ok ()) :
    r.after = r.before := by
  have hprep := h.prepared
  obtain ⟨error, herror⟩ : ∃ error, (r.before.offer (.writes r.writes r.timestamp)).2 = .error error := by
    cases ho : (r.before.offer (.writes r.writes r.timestamp)).2 with
    | error error => exact ⟨error, rfl⟩
    | ok writes =>
      have hout := h.outcome
      rw [ho] at hout
      exact absurd hout hfail
  rw [h.after]
  refine r.before.offer_rejected ?_ herror
  cases hj : r.job with
  | callback => exact absurd hj hjob
  | append name id entry =>
    rw [hj] at hprep
    obtain ⟨hval, tip, -, hwrs⟩ := hprep
    rw [hwrs]
    exact appendWrites_addressed hval
  | create name target =>
    rw [hj] at hprep
    obtain ⟨hval, -, -, hwrs⟩ := hprep
    rw [hwrs]
    exact createWrites_addressed hval

/-- The entry and the tip that a successful append leaves. -/
theorem offer_append {id : JsString} (hval : (branchTip name).validateAddress = .ok ())
    (h : toOutcome (s.offer (.writes (appendWrites name id entry tip) timestamp)).2 = .ok ()) :
    (∃ e, (s.offer (.writes (appendWrites name id entry tip) timestamp)).1.entries.get id = some e ∧ e.parentId = tip) ∧
      (s.offer (.writes (appendWrites name id entry tip) timestamp)).1.tip name = some (some id) := by
  rw [StorageState.offer_eq] at h ⊢
  cases hv : s.validateCommitted ((Offer.writes (appendWrites name id entry tip) timestamp).numbered s) with
  | error error =>
    rw [hv] at h
    cases h
  | ok u =>
    rw [StorageState.applied_fst]
    have hid : ∀ t, (entry.toNewEntry id t).id = id := by
      intro t
      cases entry with
      | message | custom => rfl
    have hparent : ∀ t, (entry.toNewEntry id t).parentId = t := by
      intro t
      cases entry with
      | message | custom => rfl
    simp only [Offer.numbered, prepareStorageCommit, appendWrites, mapIdx_cons, mapIdx_nil, commitWrite,
      StorageState.applyValidated, StorageState.applyWrite, StorageState.applyKind, StorageState.setScalar, hval,
      StorageState.insertEntry, StorageState.tip, StorageState.getValue, hid, JsMap.get_set, if_true, map_some,
      TipValue.toTip_ofTip]
    exact ⟨⟨_, rfl, hparent tip⟩, trivial⟩

/-! ## No append is lost -/

def Parent (s : StorageState Body Val Use) (child parent : JsString) : Prop :=
  ∃ e, s.entries.get child = some e ∧ e.parentId = some parent

/-- The entry is on the chain that ends in the tip. -/
abbrev Above (s : StorageState Body Val Use) (id tip : JsString) : Prop := Relation.ReflTransGen (Parent s) tip id

/-- The branch has a tip, and the entry is on its chain. -/
def OnBranch (s : StorageState Body Val Use) (name id : JsString) : Prop :=
  ∃ tip, s.tip name = some (some tip) ∧ Above s id tip

/-- The writes set or delete the tip of a branch. -/
def WritesTip (name : JsString) (writes : List (Write Body Val Use)) : Prop :=
  ∃ w ∈ writes, w.scalarKey? = some (branchTip name).physicalKey

omit [TipValue Val] in
theorem Above.offer {id tip : JsString} (h : Above s id tip) (o : Offer Body Val Use) :
    Above (s.offer o).1 id tip := by
  refine Relation.ReflTransGen.mono ?_ tip id h
  rintro child parent ⟨e, hget, hparent⟩
  exact ⟨e, s.offer_get o hget, hparent⟩

theorem tip_offer (h : ¬ WritesTip name writes) : (s.offer (.writes writes timestamp)).1.tip name = s.tip name := by
  rw [StorageState.tip, StorageState.tip, StorageState.getValue, StorageState.getValue, s.offer_scalar]
  intro w hw hkey
  exact h ⟨w, hw, hkey⟩

/-- One commit keeps an entry on its branch, unless a callback writes the tip. -/
theorem OnBranch.record {id : JsString} (h : OnBranch r.before name id) (hr : r.Ok)
    (htip : r.job = .callback → ¬ WritesTip name r.writes) : OnBranch r.after name id := by
  obtain ⟨tip, hbef, habove⟩ := h
  have hkept : ¬ WritesTip name r.writes → OnBranch r.after name id := by
    intro hnot
    rw [hr.after]
    exact ⟨tip, (tip_offer hnot).trans hbef, habove.offer _⟩
  have hprep := hr.prepared
  cases hj : r.job with
  | callback => exact hkept (htip hj)
  | create name' target =>
    rw [hj] at hprep
    obtain ⟨-, hnone, -, hwrs⟩ := hprep
    apply hkept
    rintro ⟨w, hw, hkey⟩
    rw [hwrs, createWrites, mem_singleton] at hw
    subst hw
    rw [tip_congr (some.inj hkey), hbef] at hnone
    cases hnone
  | append name' id' entry =>
    rw [hj] at hprep
    obtain ⟨hval, tip', htip', hwrs⟩ := hprep
    by_cases hout : r.outcome = .ok ()
    · by_cases hkey : (branchTip name').physicalKey = (branchTip name).physicalKey
      · -- the new entry hangs below the tip it has replaced
        have hsucc := hr.outcome
        rw [hout, hwrs] at hsucc
        obtain ⟨⟨e, hget, hparent⟩, hnew⟩ := offer_append hval hsucc.symm
        have heq : tip' = some tip := by
          rw [tip_congr hkey, hbef] at htip'
          exact (some.inj htip').symm
        rw [hr.after, hwrs]
        refine ⟨id', ?_, Relation.ReflTransGen.head ⟨e, hget, hparent.trans heq⟩ (habove.offer _)⟩
        rw [← tip_congr hkey]
        exact hnew
      · apply hkept
        rintro ⟨w, hw, hwkey⟩
        rw [hwrs] at hw
        simp only [appendWrites, mem_cons, not_mem_nil, or_false] at hw
        rcases hw with rfl | rfl
        · cases hwkey
        · exact hkey (some.inj hwkey)
    · rw [hr.unchanged (by rw [hj]; exact fun he => nomatch he) hout]
      exact ⟨tip, hbef, habove⟩

theorem OnBranch.linked {id : JsString} {history : List (Record Body Val Use)}
    {first last : StorageState Body Val Use} (h : OnBranch first name id) (hl : Linked first history last)
    (hr : ∀ r ∈ history, r.Ok) (htip : ∀ r ∈ history, r.job = .callback → ¬ WritesTip name r.writes) :
    OnBranch last name id := by
  induction history generalizing first with
  | nil =>
    cases hl
    exact h
  | cons r history ih =>
    obtain ⟨hbef, hrest⟩ := hl
    rw [← hbef] at h
    exact ih (h.record (hr r mem_cons_self) (htip r mem_cons_self)) hrest
      (fun r' hr' => hr r' (mem_cons_of_mem _ hr')) fun r' hr' => htip r' (mem_cons_of_mem _ hr')

/-- An append that has succeeded is at the tip of its branch. -/
theorem Record.Ok.onBranch (h : r.Ok) {id : JsString} (hjob : r.job = .append name id entry)
    (hout : r.outcome = .ok ()) : OnBranch r.after name id := by
  have hprep := h.prepared
  rw [hjob] at hprep
  obtain ⟨hval, tip, -, hwrs⟩ := hprep
  have hsucc := h.outcome
  rw [hout, hwrs] at hsucc
  rw [h.after, hwrs]
  exact ⟨id, (offer_append hval hsucc.symm).2, .refl⟩

/-! ## Closing -/

namespace Session

variable [PendingMessage Body]

/-- When `close` has resolved, the line is empty and stays so. -/
def Closed (s : Session Body Val Use) : Prop :=
  s.closeResolved = true → s.sealed = true ∧ s.running = none ∧ s.waiting = []

variable {s s' : Session Body Val Use}

theorem Closed.step (h : s.Closed) (hstep : Step s s') : s'.Closed := by
  intro hres
  cases hstep with
  | call job =>
    have hr : s.closeResolved = true := by
      unfold Session.call at hres
      split at hres
      · exact hres
      · split at hres
        · exact hres
        · exact hres
    obtain ⟨hsealed, hidle, hempty⟩ := h hr
    have hcall : s.call job = ({ s with jobs := s.jobs ++ [job] } : Session Body Val Use).result s.jobs.length
        (.error .closed) := by
      unfold Session.call
      exact if_pos hsealed
    rw [hcall]
    exact ⟨hsealed, hidle, hempty⟩
  | @start call job rest hidle hhead =>
    have hr : s.closeResolved = true := by
      unfold Session.start at hres
      split at hres
      · exact hres
      · exact hres
    rw [(h hr).2.2] at hhead
    cases hhead
  | resume hrun hresume =>
    rw [(h hres).2.1] at hrun
    cases hrun
  | attempt writes hrun hjob hactive =>
    rw [(h hres).2.1] at hrun
    cases hrun
  | settle outcome hrun hjob hpoint =>
    rw [(h hres).2.1] at hrun
    cases hrun
  | store timestamp hrun hpending =>
    rw [(h hres).2.1] at hrun
    cases hrun
  | finish hrun hpoint =>
    rw [(h hres).2.1] at hrun
    cases hrun
  | release hrun hpoint hended hcommit =>
    rw [(h hres).2.1] at hrun
    cases hrun
  | close => exact ⟨rfl, (h hres).2⟩
  | closed hsealed hidle hempty => exact ⟨hsealed, hidle, hempty⟩

theorem Closed.steps (h : s.Closed) (hsteps : Steps s s') : s'.Closed := by
  induction hsteps with
  | refl => exact h
  | tail _ hstep ih => exact ih.step hstep

/-- Once the line is sealed, no mutation starts. -/
theorem sealed_step (h : s.sealed = true) (hstep : Step s s') :
    s'.sealed = true ∧ s'.started = s.started := by
  cases hstep with
  | call job =>
    unfold Session.call
    rw [if_pos h]
    exact ⟨h, rfl⟩
  | @start call job rest hidle hhead =>
    unfold Session.start
    rw [if_pos h]
    exact ⟨h, rfl⟩
  | close => exact ⟨rfl, rfl⟩
  | _ => exact ⟨h, rfl⟩

theorem sealed_steps (h : s.sealed = true) (hsteps : Steps s s') :
    s'.sealed = true ∧ s'.started = s.started := by
  induction hsteps with
  | refl => exact ⟨h, rfl⟩
  | tail _ hstep ih =>
    obtain ⟨hsealed, hstart⟩ := sealed_step ih.1 hstep
    exact ⟨hsealed, hstart.trans ih.2⟩

/-! ## Progress -/

variable {m : Mutation Body Val Use}

variable {outcome : Outcome}

/-- A mutation whose callback has settled leaves the line, however it has settled. -/
theorem leaves (hrun : s.running = some m) (hpoint : m.point = .settled outcome) :
    ∃ s', Steps s s' ∧ s'.running = none ∧ s'.waiting = s.waiting ∧
      s'.sealed = s.sealed ∧ s'.results m.call = some (outcome.map fun _ => m.job.reply) := by
  have hended : ∀ (t : Session Body Val Use) (n : Mutation Body Val Use), t.running = some n → n.point = .settled outcome →
      (∀ writes, n.commitResult ≠ some (.pending writes)) → n.call = m.call → n.job = m.job → t.waiting = s.waiting →
      t.sealed = s.sealed → ∃ s', Steps t s' ∧ s'.running = none ∧ s'.waiting = s.waiting ∧ s'.sealed = s.sealed ∧
        s'.results m.call = some (outcome.map fun _ => m.job.reply) := by
    intro t n hn hnpoint hncommit hncall hnjob hwait hsealed
    refine ⟨_, Relation.ReflTransGen.head (Step.finish t hn hnpoint) (.single (Step.release _ rfl hnpoint rfl hncommit)),
      rfl, hwait, hsealed, ?_⟩
    simp [Session.release, result, hncall, hnjob]
  by_cases hpending : ∃ writes, m.commitResult = some (.pending writes)
  · obtain ⟨writes, hpending⟩ := hpending
    obtain ⟨s', hsteps, hrest⟩ := hended (s.store m writes 0) _ rfl hpoint (by simp) rfl rfl rfl rfl
    exact ⟨s', Relation.ReflTransGen.head (Step.store s 0 hrun hpending) hsteps, hrest⟩
  · exact hended s m hrun hpoint (fun writes he => hpending ⟨writes, he⟩) rfl rfl rfl rfl

/-- Then the next one starts, or is rejected when the line is sealed. -/
theorem next_starts {call : Nat} {job : Job Body} {rest : List (Nat × Job Body)}
    (hrun : s.running = some m) (hpoint : m.point = .settled outcome) (hhead : s.waiting = (call, job) :: rest) :
    ∃ s', Steps s s' ∧ s'.waiting = rest ∧
      (if s.sealed then s'.results call = some (.error .closed) else s'.running = some ⟨call, job, .start, none, true⟩) := by
  obtain ⟨t, hsteps, hidle, hwait, hsealed, -⟩ := leaves hrun hpoint
  refine ⟨t.start call job rest, hsteps.tail (Step.start t hidle (hwait.trans hhead)), ?_, ?_⟩
  · unfold Session.start
    split
    · rfl
    · rfl
  · rw [← hsealed]
    unfold Session.start
    split
    · simp [result]
    · rfl

/-- Concurrent calls on one session, in every order of their steps. -/
theorem mutations_serialised {storage : StorageState Body Val Use} {s : Session Body Val Use}
    (hs : Steps (opened storage) s) :
    -- the storage changes by the commits in the history only, and an append is below the tip before its commit
    (Linked storage s.history s.storage ∧ ∀ r ∈ s.history, ∀ name id entry, r.job = .append name id entry →
        ∃ tip, r.before.tip name = some tip ∧ r.writes = appendWrites name id entry tip) ∧
    -- an append stays on its branch until a callback writes the tip itself
    (∀ earlier r later name id entry, s.history = earlier ++ r :: later → r.job = .append name id entry →
      r.outcome = .ok () → (∀ r' ∈ later, r'.job = .callback → ¬ WritesTip name r'.writes) → OnBranch s.storage name id) ∧
    -- at most one commit for each call, and the result of an append or a new branch is that of its commit
    ((s.history.map (·.call)).Nodup ∧
      ∀ n job outcome, s.jobs[n]? = some job → job ≠ .callback → s.results n = some outcome →
        Corresponds s.history n job outcome) ∧
    -- a failed commit of an append or a new branch changes nothing, nor does one that validation refuses
    (∀ r ∈ s.history, r.outcome ≠ .ok () →
      (r.job ≠ .callback ∨ ∃ error, r.before.prepareCommit r.writes r.timestamp = .error error) → r.after = r.before) ∧
    -- a mutation that has settled does not block the next one
    (∀ m outcome call job rest, s.running = some m → m.point = .settled outcome → s.waiting = (call, job) :: rest →
      ∃ s', Steps s s' ∧ s'.waiting = rest ∧ (if s.sealed then s'.results call = some (.error .closed)
          else s'.running = some ⟨call, job, .start, none, true⟩)) ∧
    -- after `close`, what has not started never commits, and what has started is done when `close` resolves
    (s.sealed = true → ∀ n, n ∉ s.started → ∀ s', Steps s s' → ∀ r ∈ s'.history, r.call ≠ n) ∧
    (s.closeResolved = true → s.running = none ∧ ∀ n ∈ s.started, (s.results n).isSome = true) := by
  have h := (opened_inv storage).steps hs
  refine ⟨⟨h.linked, ?_⟩, ?_, ⟨h.single, h.results⟩, ?_, fun m outcome call job rest hrun hpoint hhead =>
    next_starts hrun hpoint hhead, ?_, ?_⟩
  · intro r hr name id entry hjob
    have hprepared := (h.records r hr).prepared
    rw [hjob] at hprepared
    exact hprepared.2
  · intro earlier r later name id entry hhistory hjob hout htip
    have hlinked := h.linked
    rw [hhistory] at hlinked
    have hrecords : ∀ r' ∈ earlier ++ r :: later, r'.Ok := hhistory ▸ h.records
    have hr : r.Ok := hrecords r (List.mem_append_right _ List.mem_cons_self)
    refine (hr.onBranch hjob hout).linked hlinked.split ?_ htip
    intro r' hr'
    exact hrecords r' (List.mem_append_right _ (List.mem_cons_of_mem _ hr'))
  · rintro r hr hfailed (hjob | ⟨error, hrefused⟩)
    · exact (h.records r hr).unchanged hjob hfailed
    · rw [(h.records r hr).after, StorageState.offer, hrefused]
  · intro hsealed n hn s' hsteps r hr hcall
    have hstarted := (h.steps hsteps).recordStarted r hr
    rw [(sealed_steps hsealed hsteps).2, hcall] at hstarted
    exact hn hstarted
  · intro hresolved
    have hclosed : (opened storage).Closed := by
      intro hbad
      cases hbad
    obtain ⟨-, hidle, -⟩ := hclosed.steps hs hresolved
    refine ⟨hidle, ?_⟩
    intro n hn
    rcases h.finished n hn with ⟨m, hm, -⟩ | hsome
    · rw [hidle] at hm
      cases hm
    · exact hsome

end Session

/-! A branch that is made, and a callback that throws after its commit. -/

instance tipOrZero : TipValue (Option JsString) := ⟨id, id, fun _ => rfl⟩

instance neverPending : PendingMessage Unit := ⟨fun _ => false⟩

abbrev SampleSession := Session Unit (Option JsString) Nat

def sampleStorage : StorageState Unit (Option JsString) Nat := StorageState.empty

def sampleMoves : List (Session.Move Unit (Option JsString) Nat) :=
  [.call (.create [109] none), .call (.append [109] [1] (.message ())), .start, .resume, .resume, .store 7, .resume,
    .finish, .release, .start, .resume, .resume, .close, .store 8, .resume, .finish, .release, .closed]

theorem of_any {α : Type} {o : Option α} {P : α → Bool} (h : o.any P = true) : ∃ a, o = some a ∧ P a = true := by
  cases o with
  | none => cases h
  | some a => exact ⟨a, rfl, h⟩

/-- A branch is made, and an append to it is running when the session is closed. -/
theorem mutations_serialised_append : ∃ s : SampleSession, Session.Steps (Session.opened sampleStorage) s ∧
    s.closeResolved = true ∧ s.storage.tip [109] = some (some [1]) ∧ s.running = none := by
  obtain ⟨s, hplay, hs⟩ := of_any (o := (Session.opened sampleStorage).play sampleMoves)
    (P := fun s => s.closeResolved && s.storage.tip [109] = some (some [1])) (by decide)
  rw [Bool.and_eq_true, decide_eq_true_eq] at hs
  have hsteps := Session.play_steps hplay
  exact ⟨s, hsteps, hs.1, hs.2, ((Session.mutations_serialised hsteps).2.2.2.2.2.2 hs.1).1⟩

/-- A callback that throws after its commit has failed, and its commit stays. -/
theorem failed_callback_kept : ∃ s : SampleSession, Session.Steps (Session.opened sampleStorage) s ∧
    s.results 0 = some (.error .thrown) ∧ s.storage ≠ sampleStorage := by
  obtain ⟨s, hplay, hs⟩ := of_any (o := (Session.opened sampleStorage).play [.call .callback, .start,
    .attempt [.setValue ⟨[110], []⟩ none], .store 7, .settle (.error .thrown), .finish, .release])
    (P := fun s => decide (s.results 0 = some (.error .thrown) ∧ s.storage ≠ sampleStorage)) (by decide)
  rw [decide_eq_true_eq] at hs
  exact ⟨s, Session.play_steps hplay, hs⟩

end Shuvpi.SessionTree
