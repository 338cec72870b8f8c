import Shuvpi.SessionMutation

/-!
# Mutations are serialised

The storage changes only when it carries out the commit of the mutation at the head of the
line, and that mutation keeps its place until its commit has settled. What it has read is
therefore still true when it commits. The invariant says this for the running mutation, and
keeps for each commit that was carried out what was read for it.
-/
open List Function

namespace Shuvpi.SessionTree

variable {Body Val Use : Type}

/-! ## Commits that were carried out -/

/-- The commits lead from one storage state to another. -/
def Linked : StorageState Body Val Use → List (Record Body Val Use) → StorageState Body Val Use → Prop
  | first, [], last => last = first
  | first, r :: history, last => r.before = first ∧ Linked r.after history last

variable {history : List (Record Body Val Use)} {first last : StorageState Body Val Use}
  {r : Record Body Val Use}

theorem Linked.snoc (h : Linked first history last) (hr : r.before = last) :
    Linked first (history ++ [r]) r.after := by
  induction history generalizing first with
  | nil => exact ⟨hr.trans h, rfl⟩
  | cons r' history ih => exact ⟨h.1, ih h.2⟩

theorem Linked.split {earlier later : List (Record Body Val Use)} (h : Linked first (earlier ++ r :: later) last) :
    Linked r.after later last := by
  induction earlier generalizing first with
  | nil => exact h.2
  | cons r' earlier ih => exact ih h.2

variable [TipValue Val]

def toOutcome : Except StorageError (List (CommittedWrite Body Val Use)) → Outcome
  | .ok _ => .ok ()
  | .error error => .error (.storage error)

/-- What `appendToBranch` and `createBranch` have read, and the writes they make of it. -/
def Job.Prepared (before : StorageState Body Val Use) (writes : List (Write Body Val Use)) : Job Body → Prop
  | .append name id entry => (branchTip name).validateAddress = .ok () ∧
      ∃ tip, before.tip name = some tip ∧ writes = appendWrites name id entry tip
  | .create name target => (branchTip name).validateAddress = .ok () ∧ before.tip name = none ∧
      (∀ t, target = some t → before.entries.has t = true) ∧ writes = createWrites name target
  | .callback => True

structure Record.Ok [UsageSum Use] (r : Record Body Val Use) : Prop where
  after : r.after = (r.before.offer (.writes r.writes r.timestamp)).1
  outcome : r.outcome = toOutcome (r.before.offer (.writes r.writes r.timestamp)).2
  prepared : r.job.Prepared r.before r.writes

/-! ## The running mutation -/

/-- A callback that has settled without an error has seen its commit succeed; one with an error has not. -/
def Settles (commitResult : Option (CommitState Body Val Use)) : Outcome → Prop
  | .ok () => commitResult = some (.settled (.ok ()))
  | .error error => commitResult = none ∨ commitResult = some (.settled (.error error))

omit [TipValue Val] in
theorem settles_self (outcome : Outcome) :
    Settles (some (.settled outcome) : Option (CommitState Body Val Use)) outcome := by
  cases outcome with
  | ok u => exact rfl
  | error error => exact .inr rfl

/-- The commit is pending with what was read, or it has settled. -/
def Commits (storage : StorageState Body Val Use) (job : Job Body) : Option (CommitState Body Val Use) → Prop
  | some (.pending writes) => job.Prepared storage writes
  | some (.settled _) => True
  | none => False

/-- What is known where the callback is suspended. -/
def Mutation.At (m : Mutation Body Val Use) (storage : StorageState Body Val Use) : Prop :=
  match m.job, m.point with
  | .callback, _ => True
  | .append _ _ _, .start | .create _ _, .start => m.commitResult = none
  | .append name _ _, .tipRead tip | .create name _, .tipRead tip =>
    m.commitResult = none ∧ (branchTip name).validateAddress = .ok () ∧ storage.tip name = tip
  | .append _ _ _, .targetRead _ => False
  | .create name target, .targetRead found =>
    m.commitResult = none ∧ (branchTip name).validateAddress = .ok () ∧ storage.tip name = none ∧
      ∀ t, target = some t → storage.entries.has t = found
  | job, .committing => Commits storage job m.commitResult
  | _, .settled outcome => Settles m.commitResult outcome

/-- A commit is recorded when the storage has settled it. -/
def Recorded (history : List (Record Body Val Use)) (call : Nat) : Option (CommitState Body Val Use) → Prop
  | some (.settled outcome) => (∃ r ∈ history, r.call = call ∧ r.outcome = outcome) ∨
      (outcome = .error .pendingMessage ∧ ∀ r ∈ history, r.call ≠ call)
  | _ => ∀ r ∈ history, r.call ≠ call

variable {m : Mutation Body Val Use}

omit [TipValue Val] in
theorem commit_recorded [PendingMessage Body] (h : Recorded history m.call m.commitResult)
    (writes : List (Write Body Val Use)) :
    Recorded history m.call (m.commit writes).commitResult := by
  unfold Mutation.commit
  cases hc : m.commitResult with
  | some state =>
    rw [hc] at h ⊢
    exact h
  | none =>
    rw [hc] at h
    dsimp only
    split
    · exact .inr ⟨rfl, h⟩
    · exact h

variable {writes : List (Write Body Val Use)} {storage : StorageState Body Val Use}

/-- The first commit of a callback, made of what it has read. -/
theorem commit_commits [PendingMessage Body] (hnone : m.commitResult = none)
    {job : Job Body} (hprep : job.Prepared storage writes) :
    Commits storage job (m.commit writes).commitResult := by
  unfold Mutation.commit
  rw [hnone]
  dsimp only
  split
  · exact trivial
  · exact hprep

/-- A pending commit of ours was made of what was read, and the callback waits for it. -/
theorem Mutation.At.pending (hat : m.At storage)
    (hpending : m.commitResult = some (.pending writes)) :
    m.job = .callback ∨ (m.point = .committing ∧ m.job.Prepared storage writes) := by
  unfold Mutation.At at hat
  rw [hpending] at hat
  have hunset : ∀ outcome, ¬ Settles (some (.pending writes)) outcome := by
    intro outcome hsett
    cases outcome with
    | ok u => cases hsett
    | error error => rcases hsett with hn | hn <;> cases hn
  cases hjob : m.job with
  | callback => exact .inl rfl
  | append name id entry =>
    rw [hjob] at hat
    cases hpoint : m.point with
    | start => rw [hpoint] at hat; cases hat
    | tipRead tip => rw [hpoint] at hat; cases hat.1
    | targetRead found => rw [hpoint] at hat; exact hat.elim
    | committing => rw [hpoint] at hat; exact .inr ⟨rfl, hat⟩
    | settled outcome => rw [hpoint] at hat; exact (hunset outcome hat).elim
  | create name target =>
    rw [hjob] at hat
    cases hpoint : m.point with
    | start => rw [hpoint] at hat; cases hat
    | tipRead | targetRead => rw [hpoint] at hat; cases hat.1
    | committing => rw [hpoint] at hat; exact .inr ⟨rfl, hat⟩
    | settled outcome => rw [hpoint] at hat; exact (hunset outcome hat).elim

theorem Mutation.At.prepared (hat : m.At storage)
    (hpending : m.commitResult = some (.pending writes)) :
    m.job.Prepared storage writes := by
  rcases hat.pending hpending with hjob | ⟨-, hprep⟩
  · rw [hjob]
    exact trivial
  · exact hprep

theorem Mutation.At.stored (hat : m.At storage)
    (hpending : m.commitResult = some (.pending writes)) (outcome : Outcome) (storage' : StorageState Body Val Use) :
    ({ m with commitResult := some (.settled outcome) } : Mutation Body Val Use).At storage' := by
  unfold Mutation.At
  rcases hat.pending hpending with hjob | ⟨hpoint, -⟩
  · rw [hjob]
    exact trivial
  · rw [hpoint]
    cases m.job with
    | append | create | callback => exact trivial

omit [TipValue Val] in
theorem recorded_pending {call : Nat} {commitResult : Option (CommitState Body Val Use)}
    (h : Recorded history call commitResult) (hpending : commitResult = some (.pending writes)) :
    ∀ r ∈ history, r.call ≠ call := by
  rw [hpending] at h
  exact h

structure Mutation.Ok (m : Mutation Body Val Use) (s : Session Body Val Use) : Prop where
  job : s.jobs[m.call]? = some m.job
  started : m.call ∈ s.started
  unsettled : s.results m.call = none
  recorded : Recorded s.history m.call m.commitResult
  at_ : m.At s.storage

/-! ## The session -/

/-- The result of `appendToBranch` or `createBranch` is that of its commit. -/
def Corresponds (history : List (Record Body Val Use)) (call : Nat) (job : Job Body) : Except SessionError Reply → Prop
  | .ok reply => reply = job.reply ∧ ∃ r ∈ history, r.call = call ∧ r.outcome = .ok ()
  | .error _ => ∀ r ∈ history, r.call = call → r.outcome ≠ .ok ()

structure Session.Inv [UsageSum Use] (first : StorageState Body Val Use) (s : Session Body Val Use) : Prop where
  linked : Linked first s.history s.storage
  records : ∀ r ∈ s.history, r.Ok
  single : (s.history.map (·.call)).Nodup
  recordStarted : ∀ r ∈ s.history, r.call ∈ s.started
  recordJob : ∀ r ∈ s.history, s.jobs[r.call]? = some r.job
  startedCalled : ∀ n ∈ s.started, n < s.jobs.length
  uncalled : ∀ n, s.jobs.length ≤ n → s.results n = none
  waiting : ∀ p ∈ s.waiting, s.jobs[p.1]? = some p.2 ∧ p.1 ∉ s.started ∧ s.results p.1 = none
  waitingOnce : (s.waiting.map Prod.fst).Nodup
  running : ∀ m, s.running = some m → m.Ok s
  finished : ∀ n ∈ s.started, (∃ m, s.running = some m ∧ m.call = n) ∨ (s.results n).isSome = true
  results : ∀ n job outcome, s.jobs[n]? = some job → job ≠ .callback → s.results n = some outcome →
    Corresponds s.history n job outcome

namespace Session

variable [UsageSum Use] {first : StorageState Body Val Use} {s : Session Body Val Use}

theorem opened_inv (storage : StorageState Body Val Use) : (opened storage).Inv storage where
  linked := rfl
  records := by simp [opened]
  single := by simp [opened]
  recordStarted := by simp [opened]
  recordJob := by simp [opened]
  startedCalled := by simp [opened]
  uncalled := by simp [opened]
  waiting := by simp [opened]
  waitingOnce := by simp [opened]
  running := by simp [opened]
  finished := by simp [opened]
  results := by simp [opened]

variable {n : Nat}

theorem getElem?_append_of_some {α : Type} {l : List α} {a b : α} (h : l[n]? = some a) :
    (l ++ [b])[n]? = some a := by
  rw [List.getElem?_append_left (List.getElem?_eq_some_iff.mp h).1]
  exact h

theorem lt_of_getElem? {α : Type} {l : List α} {a : α} (h : l[n]? = some a) : n < l.length :=
  (List.getElem?_eq_some_iff.mp h).1

variable {m m' : Mutation Body Val Use} (h : Inv first s)
include h

/-- The running mutation moves on. -/
theorem Inv.move (hrun : s.running = some m) (hcall : m'.call = m.call) (hjob : m'.job = m.job)
    (hrec : Recorded s.history m.call m'.commitResult) (hat : m'.At s.storage) :
    Inv first { s with running := some m' } where
  linked := h.linked
  records := h.records
  single := h.single
  recordStarted := h.recordStarted
  recordJob := h.recordJob
  startedCalled := h.startedCalled
  uncalled := h.uncalled
  waiting := h.waiting
  waitingOnce := h.waitingOnce
  running := by
    intro m'' hm
    cases hm
    have hok := h.running m hrun
    exact ⟨by rw [hcall, hjob]; exact hok.job, by rw [hcall]; exact hok.started, by rw [hcall]; exact hok.unsettled,
      by rw [hcall]; exact hrec, hat⟩
  finished := by
    intro n hn
    rcases h.finished n hn with ⟨m'', hm, rfl⟩ | hsome
    · rw [hrun] at hm
      cases hm
      exact .inl ⟨m', rfl, hcall⟩
    · exact .inr hsome
  results := h.results

/-! ### Calls -/

theorem Inv.register (job : Job Body) : Inv first { s with jobs := s.jobs ++ [job] } where
  linked := h.linked
  records := h.records
  single := h.single
  recordStarted := h.recordStarted
  recordJob := fun r hr => getElem?_append_of_some (h.recordJob r hr)
  startedCalled := by
    intro n hn
    have hlt := h.startedCalled n hn
    rw [length_append]
    omega
  uncalled := by
    intro n hn
    rw [length_append] at hn
    exact h.uncalled n (by omega)
  waiting := by
    intro p hp
    obtain ⟨hjob, hrest⟩ := h.waiting p hp
    exact ⟨getElem?_append_of_some hjob, hrest⟩
  waitingOnce := h.waitingOnce
  running := by
    intro m hm
    have hok := h.running m hm
    exact ⟨getElem?_append_of_some hok.job, hok.started, hok.unsettled, hok.recorded, hok.at_⟩
  finished := h.finished
  results := by
    intro n job' o hjob hne ho
    by_cases hn : n < s.jobs.length
    · rw [getElem?_append_left hn] at hjob
      exact h.results n job' o hjob hne ho
    · rw [h.uncalled n (by omega)] at ho
      cases ho

/-- A call that has not started is rejected. -/
theorem Inv.reject (hlt : n < s.jobs.length) (hnot : n ∉ s.started)
    (hwait : n ∉ s.waiting.map Prod.fst) (error : SessionError) : Inv first (s.result n (.error error)) := by
  have hother : ∀ k, k ≠ n → update s.results n (some (.error error)) k = s.results k := by
    intro k hk
    exact update_of_ne hk _ _
  refine ⟨h.linked, h.records, h.single, h.recordStarted, h.recordJob, h.startedCalled, ?_, ?_, h.waitingOnce, ?_, ?_, ?_⟩
  · intro k hk
    exact (hother k (Nat.ne_of_gt (hlt.trans_le hk))).trans (h.uncalled k hk)
  · intro p hp
    obtain ⟨hjob, hstart, hnone⟩ := h.waiting p hp
    refine ⟨hjob, hstart, (hother _ ?_).trans hnone⟩
    exact fun heq => hwait (heq ▸ mem_map_of_mem hp)
  · intro m hm
    have hok := h.running m hm
    refine ⟨hok.job, hok.started, (hother _ ?_).trans hok.unsettled, hok.recorded, hok.at_⟩
    exact fun heq => hnot (heq ▸ hok.started)
  · intro k hk
    rcases h.finished k hk with hm | hsome
    · exact .inl hm
    · refine .inr ?_
      simp only [result, hother k (fun heq => hnot (heq ▸ hk))]
      exact hsome
  · intro k job o hjob hne ho
    by_cases hk : k = n
    · subst hk
      simp only [result, update_self] at ho
      cases ho
      intro r hr hcall
      exact absurd (hcall ▸ h.recordStarted r hr) hnot
    · simp only [result, hother k hk] at ho
      exact h.results k job o hjob hne ho

theorem Inv.not_waiting (hn : s.jobs.length ≤ n) : n ∉ s.waiting.map Prod.fst := by
  intro hmem
  obtain ⟨p, hp, rfl⟩ := mem_map.mp hmem
  have hlt := lt_of_getElem? (h.waiting p hp).1
  omega

theorem Inv.not_started (hn : s.jobs.length ≤ n) : n ∉ s.started := by
  intro hmem
  have hlt := h.startedCalled n hmem
  omega

theorem Inv.call [PendingMessage Body] (job : Job Body) : Inv first (s.call job) := by
  have hreg := h.register job
  have hstart := h.not_started (Nat.le_refl _)
  have hwait := h.not_waiting (Nat.le_refl _)
  have hlt : s.jobs.length < (s.jobs ++ [job]).length := by simp
  unfold Session.call
  split
  · exact hreg.reject hlt hstart hwait _
  · split
    · exact hreg.reject hlt hstart hwait _
    · refine ⟨h.linked, h.records, h.single, h.recordStarted, hreg.recordJob, hreg.startedCalled,
        hreg.uncalled, ?_, ?_, ?_, h.finished, hreg.results⟩
      · intro p hp
        rcases mem_append.mp hp with hp | hp
        · exact hreg.waiting p hp
        · rw [mem_singleton.mp hp]
          exact ⟨by simp, hstart, h.uncalled _ (Nat.le_refl _)⟩
      · rw [map_append, nodup_append]
        refine ⟨h.waitingOnce, nodup_singleton _, ?_⟩
        intro a ha b hb heq
        have hb' : b = s.jobs.length := mem_singleton.mp hb
        rw [heq, hb'] at ha
        exact hwait ha
      · intro m hm
        have hok := hreg.running m hm
        exact ⟨hok.job, hok.started, hok.unsettled, hok.recorded, hok.at_⟩

/-! ### The line -/

theorem Inv.start {call : Nat} {job : Job Body} {rest : List (Nat × Job Body)}
    (hidle : s.running = none) (hhead : s.waiting = (call, job) :: rest) : Inv first (s.start call job rest) := by
  obtain ⟨hjob, hstart, hnone⟩ := h.waiting (call, job) (hhead ▸ mem_cons_self)
  have honce := h.waitingOnce
  rw [hhead, map_cons, nodup_cons] at honce
  have hpop : Inv first { s with waiting := rest } :=
    ⟨h.linked, h.records, h.single, h.recordStarted, h.recordJob, h.startedCalled, h.uncalled,
      fun p hp => h.waiting p (hhead ▸ mem_cons_of_mem _ hp), honce.2, fun m hm => by
        have hok := h.running m hm
        exact ⟨hok.job, hok.started, hok.unsettled, hok.recorded, hok.at_⟩, h.finished, h.results⟩
  unfold Session.start
  split
  · exact hpop.reject (lt_of_getElem? hjob) hstart honce.1 _
  · refine ⟨h.linked, h.records, h.single, fun r hr => mem_append_left _ (h.recordStarted r hr), h.recordJob, ?_,
      h.uncalled, ?_, honce.2, ?_, ?_, h.results⟩
    · intro n hn
      rcases mem_append.mp hn with hn | hn
      · exact h.startedCalled n hn
      · rw [mem_singleton.mp hn]
        exact lt_of_getElem? hjob
    · intro p hp
      obtain ⟨hjob', hstart', hnone'⟩ := hpop.waiting p hp
      refine ⟨hjob', ?_, hnone'⟩
      rw [mem_append, mem_singleton, not_or]
      refine ⟨hstart', ?_⟩
      intro heq
      have hmem : p.1 ∈ rest.map Prod.fst := mem_map_of_mem hp
      rw [heq] at hmem
      exact honce.1 hmem
    · intro m hm
      cases hm
      refine ⟨hjob, mem_append_right _ (mem_singleton.mpr rfl), hnone, ?_, ?_⟩
      · intro r hr hcall
        have hmem := h.recordStarted r hr
        rw [hcall] at hmem
        exact hstart hmem
      · cases job with
        | append | create => exact rfl
        | callback => exact trivial
    · intro n hn
      rcases mem_append.mp hn with hn | hn
      · rcases h.finished n hn with ⟨m, hm, -⟩ | hsome
        · rw [hidle] at hm
          cases hm
        · exact .inr hsome
      · rw [mem_singleton.mp hn]
        exact .inl ⟨_, rfl, rfl⟩

/-! ### The callback -/

omit h

theorem Inv.commitAndWait {writes : List (Write Body Val Use)} [PendingMessage Body] (h : Inv first s)
    (hrun : s.running = some m) (hnone : m.commitResult = none) (hprep : m.job.Prepared s.storage writes) :
    Inv first { s with running := some (m.commitAndWait writes) } := by
  refine h.move hrun (m.commit_call writes) (m.commit_job writes) (commit_recorded (h.running m hrun).recorded writes) ?_
  have hcommits := commit_commits hnone hprep
  unfold Mutation.At Mutation.commitAndWait
  rw [Mutation.commit_job]
  cases hjob : m.job with
  | append | create =>
    rw [hjob] at hcommits
    exact hcommits
  | callback => exact trivial

variable {outcome : Outcome}

theorem Inv.settleAt (h : Inv first s) (hrun : s.running = some m)
    (hsett : m.job = .callback ∨ Settles m.commitResult outcome) :
    Inv first { s with running := some (m.settle outcome) } := by
  refine h.move hrun rfl rfl (h.running m hrun).recorded ?_
  unfold Mutation.At Mutation.settle
  cases hjob : m.job with
  | append | create => exact hsett.resolve_left (by rw [hjob]; exact fun he => nomatch he)
  | callback => exact trivial

variable {name : JsString} (h : Inv first s)
include h

variable (hrun : s.running = some m)
include hrun

/-- What `readTip` leaves, whether the address is refused or the tip is read. -/
theorem Inv.readTip (hnone : m.commitResult = none)
    (hjob : (∃ id entry, m.job = .append name id entry) ∨ ∃ target, m.job = .create name target) :
    Inv first { s with running := some (m.readTip s.storage name) } := by
  unfold Mutation.readTip
  split
  · exact h.settleAt hrun (.inr (.inl hnone))
  · rename_i hval
    refine h.move hrun rfl rfl (h.running m hrun).recorded ?_
    unfold Mutation.At
    rcases hjob with ⟨id, entry, hjob⟩ | ⟨target, hjob⟩
    · rw [hjob]
      exact ⟨hnone, hval, rfl⟩
    · rw [hjob]
      exact ⟨hnone, hval, rfl⟩

theorem Inv.resumeAppend [PendingMessage Body] {id : JsString}
    {entry : AppendedEntry Body} (hjob : m.job = .append name id entry) (hresume : m.resume s.storage = some m') :
    Inv first { s with running := some m' } := by
  have hat := (h.running m hrun).at_
  unfold Mutation.resume at hresume
  unfold Mutation.At at hat
  rw [hjob] at hresume hat
  cases hpoint : m.point with
  | start =>
    rw [hpoint] at hresume hat
    cases hresume
    exact h.readTip hrun hat (.inl ⟨id, entry, hjob⟩)
  | tipRead tip =>
    rw [hpoint] at hresume hat
    obtain ⟨hnone, hval, htip⟩ := hat
    cases tip with
    | none =>
      cases hresume
      exact h.settleAt hrun (.inr (.inl hnone))
    | some tip =>
      cases hresume
      refine h.commitAndWait hrun hnone ?_
      rw [hjob]
      exact ⟨hval, tip, htip, rfl⟩
  | targetRead found =>
    rw [hpoint] at hat
    exact hat.elim
  | committing =>
    rw [hpoint] at hresume
    dsimp only at hresume
    split at hresume
    · rename_i outcome hcommit
      cases hresume
      refine h.settleAt hrun (.inr ?_)
      rw [hcommit]
      exact settles_self outcome
    · cases hresume
  | settled outcome =>
    rw [hpoint] at hresume
    cases hresume

theorem Inv.resumeCreate [PendingMessage Body]
    {target : Option JsString} (hjob : m.job = .create name target) (hresume : m.resume s.storage = some m') :
    Inv first { s with running := some m' } := by
  have hat := (h.running m hrun).at_
  unfold Mutation.resume at hresume
  unfold Mutation.At at hat
  rw [hjob] at hresume hat
  cases hpoint : m.point with
  | start =>
    rw [hpoint] at hresume hat
    cases hresume
    exact h.readTip hrun hat (.inr ⟨target, hjob⟩)
  | tipRead tip =>
    rw [hpoint] at hresume hat
    obtain ⟨hnone, hval, htip⟩ := hat
    cases tip with
    | some tip =>
      cases hresume
      exact h.settleAt hrun (.inr (.inl hnone))
    | none =>
      cases target with
      | none =>
        cases hresume
        refine h.commitAndWait hrun hnone ?_
        rw [hjob]
        exact ⟨hval, htip, fun t ht => (nomatch ht), rfl⟩
      | some target =>
        cases hresume
        refine h.move hrun rfl hjob.symm (h.running m hrun).recorded ?_
        refine ⟨hnone, hval, htip, ?_⟩
        intro t ht
        cases ht
        rfl
  | targetRead found =>
    rw [hpoint] at hresume hat
    obtain ⟨hnone, hval, htip, hfound⟩ := hat
    cases found with
    | true =>
      cases hresume
      refine h.commitAndWait hrun hnone ?_
      rw [hjob]
      exact ⟨hval, htip, hfound, rfl⟩
    | false =>
      cases hresume
      exact h.settleAt hrun (.inr (.inl hnone))
  | committing =>
    rw [hpoint] at hresume
    dsimp only at hresume
    split at hresume
    · rename_i outcome hcommit
      cases hresume
      refine h.settleAt hrun (.inr ?_)
      rw [hcommit]
      exact settles_self outcome
    · cases hresume
  | settled outcome =>
    rw [hpoint] at hresume
    cases hresume

theorem Inv.resume [PendingMessage Body]
    (hresume : m.resume s.storage = some m') : Inv first { s with running := some m' } := by
  cases hjob : m.job with
  | append name id entry => exact h.resumeAppend hrun hjob hresume
  | create name target => exact h.resumeCreate hrun hjob hresume
  | callback =>
    unfold Mutation.resume at hresume
    rw [hjob] at hresume
    cases hresume

/-! ### The storage -/

omit hrun

/-- The storage carries out the pending commit. -/
theorem Inv.store {writes : List (Write Body Val Use)} (timestamp : Nat) (hrun : s.running = some m)
    (hpending : m.commitResult = some (.pending writes)) :
    Inv first (s.store m writes timestamp) := by
  have hok := h.running m hrun
  have hnew := recorded_pending hok.recorded hpending
  obtain ⟨r, hr⟩ : ∃ r : Record Body Val Use, r = ⟨m.call, m.job, writes, timestamp, s.storage,
    (s.storage.offer (.writes writes timestamp)).1, toOutcome (s.storage.offer (.writes writes timestamp)).2⟩ := ⟨_, rfl⟩
  have hstore : s.store m writes timestamp = { s with
      storage := r.after, running := some { m with commitResult := some (.settled r.outcome) },
      history := s.history ++ [r] } := by
    rw [hr]
    rfl
  have hcall : r.call = m.call := by rw [hr]
  have hrec : r.Ok := by
    rw [hr]
    exact ⟨rfl, rfl, hok.at_.prepared hpending⟩
  have hmem : ∀ r' ∈ s.history ++ [r], r' ∈ s.history ∨ r' = r := by
    intro r' hr'
    rcases mem_append.mp hr' with hr' | hr'
    · exact .inl hr'
    · exact .inr (mem_singleton.mp hr')
  have hself : r ∈ s.history ++ [r] := mem_append_right _ (mem_singleton.mpr rfl)
  rw [hstore]
  refine ⟨h.linked.snoc (by rw [hr]), ?_, ?_, ?_, ?_, h.startedCalled, h.uncalled, h.waiting, h.waitingOnce, ?_, ?_, ?_⟩
  · intro r' hr'
    rcases hmem r' hr' with hr' | rfl
    · exact h.records r' hr'
    · exact hrec
  · rw [map_append, nodup_append]
    refine ⟨h.single, nodup_singleton _, ?_⟩
    intro a ha b hb heq
    obtain ⟨r', hr', rfl⟩ := mem_map.mp ha
    have hb' : b = r.call := mem_singleton.mp hb
    exact hnew r' hr' (heq.trans (hb'.trans hcall))
  · intro r' hr'
    rcases hmem r' hr' with hr' | rfl
    · exact h.recordStarted r' hr'
    · exact hcall ▸ hok.started
  · intro r' hr'
    rcases hmem r' hr' with hr' | rfl
    · exact h.recordJob r' hr'
    · rw [hr]
      exact hok.job
  · intro m' hm'
    cases hm'
    refine ⟨hok.job, hok.started, hok.unsettled, .inl ⟨r, hself, hcall, rfl⟩, ?_⟩
    exact hok.at_.stored hpending r.outcome r.after
  · intro n hn
    rcases h.finished n hn with ⟨m', hm', rfl⟩ | hsome
    · rw [hrun] at hm'
      cases hm'
      exact .inl ⟨_, rfl, rfl⟩
    · exact .inr hsome
  · intro n job o hjob hne ho
    have hn : r.call ≠ n := by
      intro heq
      rw [← heq, hcall, hok.unsettled] at ho
      cases ho
    have hold := h.results n job o hjob hne ho
    cases o with
    | ok reply =>
      obtain ⟨hreply, r', hr', hrest⟩ := hold
      exact ⟨hreply, r', mem_append_left _ hr', hrest⟩
    | error error =>
      intro r' hr' hr'n
      rcases hmem r' hr' with hr' | rfl
      · exact hold r' hr' hr'n
      · exact absurd hr'n hn

/-- The mutation leaves the line, and its caller has its result. -/
theorem Inv.release (hrun : s.running = some m)
    (hpoint : m.point = .settled outcome) : Inv first (s.release m outcome) := by
  have hok := h.running m hrun
  have hother : ∀ n, n ≠ m.call →
      update s.results m.call (some (outcome.map fun _ => m.job.reply)) n = s.results n := by
    intro n hn
    exact update_of_ne hn _ _
  refine ⟨h.linked, h.records, h.single, h.recordStarted, h.recordJob, h.startedCalled, ?_, ?_, h.waitingOnce, ?_, ?_, ?_⟩
  · intro n hn
    exact (hother n (Nat.ne_of_gt ((h.startedCalled _ hok.started).trans_le hn))).trans (h.uncalled n hn)
  · intro p hp
    obtain ⟨hjob, hstart, hnone⟩ := h.waiting p hp
    exact ⟨hjob, hstart, (hother p.1 (fun heq => hstart (heq ▸ hok.started))).trans hnone⟩
  · intro m' hm'
    cases hm'
  · intro n hn
    refine .inr ?_
    by_cases hcall : n = m.call
    · simp [Session.release, result, hcall]
    · simp only [Session.release, result, hother n hcall]
      rcases h.finished n hn with ⟨m', hm', heq⟩ | hsome
      · rw [hrun] at hm'
        cases hm'
        exact absurd heq.symm hcall
      · exact hsome
  · intro n job o hjob hne ho
    by_cases hcall : n = m.call
    · subst hcall
      have hm : m.job = job := Option.some.inj (hok.job.symm.trans hjob)
      simp only [Session.release, result, update_self] at ho
      cases ho
      have hrec := hok.recorded
      have hsett : Settles m.commitResult outcome := by
        have hat := hok.at_
        unfold Mutation.At at hat
        rw [hpoint] at hat
        subst hm
        cases hj : m.job with
        | callback => exact absurd hj hne
        | append | create => rw [hj] at hat; exact hat
      cases outcome with
      | ok u =>
        have hc : m.commitResult = some (.settled (.ok ())) := hsett
        rw [hc] at hrec
        rcases hrec with ⟨r, hr, hrcall, hout⟩ | ⟨hbad, -⟩
        · exact ⟨congrArg Job.reply hm, r, hr, hrcall, hout⟩
        · cases hbad
      | error error =>
        intro r hr hrcall hout
        rcases hsett with hc | hc
        · rw [hc] at hrec
          exact hrec r hr hrcall
        · rw [hc] at hrec
          rcases hrec with ⟨r', hr', hrcall', hout'⟩ | ⟨-, hnone⟩
          · have heq : r' = r := inj_on_of_nodup_map h.single hr' hr (hrcall'.trans hrcall.symm)
            rw [heq, hout] at hout'
            cases hout'
          · exact hnone r hr hrcall
    · simp only [Session.release, result, hother n hcall] at ho
      exact h.results n job o hjob hne ho

omit h

variable {s' : Session Body Val Use}

/-- One step keeps the invariant. -/
theorem Inv.step [PendingMessage Body] (h : Inv first s) (hstep : Step s s') : Inv first s' := by
  cases hstep with
  | call job => exact h.call job
  | start hidle hhead => exact h.start hidle hhead
  | resume hrun hresume => exact h.resume hrun hresume
  | @attempt m writes hrun hjob hactive =>
    refine h.move hrun (m.commit_call writes) (m.commit_job writes) (commit_recorded (h.running m hrun).recorded writes) ?_
    unfold Mutation.At
    rw [m.commit_job, hjob]
    exact trivial
  | settle outcome hrun hjob hpoint => exact h.settleAt hrun (.inl hjob)
  | store timestamp hrun hpending => exact h.store timestamp hrun hpending
  | @finish m outcome hrun hpoint => exact h.move hrun rfl rfl (h.running m hrun).recorded (h.running m hrun).at_
  | release hrun hpoint hended hcommit => exact h.release hrun hpoint
  | close | closed =>
    exact ⟨h.linked, h.records, h.single, h.recordStarted, h.recordJob, h.startedCalled, h.uncalled, h.waiting,
      h.waitingOnce, fun m hm => ⟨(h.running m hm).job, (h.running m hm).started, (h.running m hm).unsettled,
        (h.running m hm).recorded, (h.running m hm).at_⟩, h.finished, h.results⟩

theorem Inv.steps [PendingMessage Body] (h : Inv first s) (hsteps : Steps s s') : Inv first s' := by
  induction hsteps with
  | refl => exact h
  | tail _ hstep ih => exact ih.step hstep

end Session

end Shuvpi.SessionTree
