import Shuvpi.PicoOpen
import Shuvpi.PicoOwnership

/-!
# The task writes of a transaction

Whatever a transaction does, its batch creates tasks before it patches them, patches only
tasks that are live or its own, and has all that can change in a terminal patch; and the live
tasks of the session stay those that are stored and not terminal.
-/
namespace Shuvpi.Pico

open Function (update)
open List Option Function Except

variable {s s' : Session} {tx tx' : Tx}

/-- The live tasks are those that are stored and not terminal. -/
structure LiveStatus (s : Session) : Prop where
  live : ∀ id, (liveTask s id).map Task.status = ((s.storage.tasksById id).map Task.status).filter (· ≠ .terminal)
  minted : Minted s.storage

variable {id : Nat} {task : Task}

theorem LiveStatus.of_live (hs : LiveStatus s) {t : Task} (h : liveTask s id = some t) :
    (∃ r, s.storage.tasksById id = some r ∧ r.status = t.status) ∧ t.status ≠ .terminal := by
  have hstat := hs.live id
  rw [h, map_some] at hstat
  obtain ⟨hrow, hlive⟩ := filter_eq_some_iff.mp hstat.symm
  exact ⟨map_eq_some_iff.mp hrow, of_decide_eq_true hlive⟩

theorem LiveStatus.live_of (hs : LiveStatus s) {r : Task} (h : s.storage.tasksById id = some r) (hlive : r.status ≠ .terminal) :
    ∃ t, liveTask s id = some t := by
  have hstat := hs.live id
  rw [h, map_some, filter_some, if_pos (decide_eq_true hlive)] at hstat
  obtain ⟨t, ht, -⟩ := map_eq_some_iff.mp hstat
  exact ⟨t, ht⟩

theorem or_row {a b : Option Task} (h : a.or b = some task) : a = some task ∨ b = some task := by
  cases a with
  | some t => exact .inl h
  | none => exact .inr h

theorem or_isSome {a b : Option Task} (h : a = some task ∨ b = some task) : (a.or b).isSome = true := by
  rcases h with rfl | rfl
  · rfl
  · cases a <;> rfl

/-- A row that an operation finds stands under its id. -/
theorem row_id (hrow : liveTask s id = some task ∨ createdTask tx id = some task) : task.id = id := by
  rcases hrow with hrow | hrow
  · exact RowMap.get_key Task.id hrow
  · exact RowMap.get_key Task.id hrow

/-- A task that a transaction may patch: one that is live, or that it has created. -/
def Targets (s : Session) (writes : List Write) (id : Nat) : Prop :=
  (∃ r, s.storage.tasksById id = some r ∧ r.status ≠ .terminal) ∨ ∃ t, .task t ∈ writes ∧ t.id = id

theorem Targets.append {writes : List Write} (h : Targets s writes id) (more : List Write) : Targets s (writes ++ more) id := by
  rcases h with h | ⟨t, ht, hid⟩
  · exact .inl h
  · exact .inr ⟨t, mem_append_left _ ht, hid⟩

structure Written (s : Session) (tx : Tx) : Prop where
  created : ∀ t, .task t ∈ tx.writes → t.status ≠ .terminal ∧ s.storage.tasksById t.id = none ∧ t.id < tx.nextIdValue
  ordered : tx.writes.Pairwise fun a b => ∀ p t, a = .taskPatch p → b = .task t → p.id ≠ t.id
  patched : ∀ p, .taskPatch p ∈ tx.writes → Targets s tx.writes p.id ∧ p.abort ≠ some false ∧
    (p.status = some .terminal → p.checkpoint = some none ∧ p.outcome.isSome ∧ p.owns.isSome)
  overlay : ∀ id t, createdTask tx id = some t → Targets s tx.writes id ∧ (t.status = .terminal → t.outcome.isSome)
  stored : ∀ id t, (createdTask tx id).or (liveTask s id) = some t →
    (tx.writes.foldl taskWrite s.storage.tasksById id).map Task.status = some t.status
  live : ∀ id, (liveTask (applyChanges s tx) id).map Task.status =
    ((tx.writes.foldl taskWrite s.storage.tasksById id).map Task.status).filter (· ≠ .terminal)
  next : s.storage.nextIdValue ≤ tx.nextIdValue

theorem written_start (hs : LiveStatus s) (invoker : Invoker) (closing : Bool) : Written s (Tx.start s invoker closing) where
  created := fun t ht => by cases ht
  ordered := .nil
  patched := fun p hp => by cases hp
  overlay := fun id t ht => by cases ht
  stored := by
    intro id t ht
    obtain ⟨⟨r, hr, hstat⟩, -⟩ := hs.of_live (ht : liveTask s id = some t)
    change (s.storage.tasksById id).map Task.status = _
    rw [hr, map_some, hstat]
  live := hs.live
  next := Nat.le_refl _

/-- What a patch holds. -/
theorem taskPatch_holds {p task : Task} {patch : TaskPatch} (h : taskPatch (some p) task = some patch) :
    patch.id = task.id ∧ patch.abort ≠ some false ∧ patch.status.getD p.status = task.status ∧
      (patch.status = some .terminal → task.status = .terminal ∧ patch.checkpoint = some none ∧ patch.outcome = task.outcome ∧ patch.owns.isSome) := by
  unfold taskPatch at h
  split at h
  · rename_i hterm
    obtain rfl := some.inj h
    refine ⟨rfl, ?_, hterm.symm, fun _ => ⟨hterm, rfl, rfl, rfl⟩⟩
    split <;> simp
  · rename_i hlive
    dsimp only at h
    split at h
    · cases h
    · obtain rfl := some.inj h
      refine ⟨rfl, ?_, ?_, ?_⟩
      · dsimp only
        split <;> simp
      · dsimp only
        split
        · rename_i hsame
          simpa using hsame
        · rfl
      · dsimp only
        split
        · exact fun h => by cases h
        · exact fun h => absurd (some.inj h) hlive

section Operations

variable (hs : LiveStatus s)

include hs

theorem Written.targets (h : Written s tx) {t : Task} (hrow : (createdTask tx id).or (liveTask s id) = some t) :
    Targets s tx.writes id ∧ (t.status = .terminal → t.outcome.isSome) := by
  rcases or_row hrow with hmade | hlive
  · exact h.overlay id t hmade
  · obtain ⟨⟨r, hr, hstat⟩, hnot⟩ := hs.of_live hlive
    exact ⟨.inl ⟨r, hr, hstat ▸ hnot⟩, fun hterm => absurd hterm hnot⟩

omit hs in
/-- What a row that is pushed means for the rows of the transaction; `stored` is the task that
its write leaves in the storage. -/
theorem Written.pushRow (h : Written s tx) {write : Write} {row stored : Task} (next : Nat)
    (hwrs : (tx.writes ++ [write]).foldl taskWrite s.storage.tasksById =
      update (tx.writes.foldl taskWrite s.storage.tasksById) row.id (some stored))
    (hstat : stored.status = row.status) (htgt : Targets s (tx.writes ++ [write]) row.id)
    (houtcome : row.status = .terminal → row.outcome.isSome)
    (hmade : ∀ t, write = .task t → t.status ≠ .terminal ∧ s.storage.tasksById t.id = none ∧ t.id < next)
    (hord : ∀ t, write = .task t → ∀ p, .taskPatch p ∈ tx.writes → p.id ≠ t.id)
    (hpatched : ∀ p, write = .taskPatch p → Targets s (tx.writes ++ [write]) p.id ∧ p.abort ≠ some false ∧
      (p.status = some .terminal → p.checkpoint = some none ∧ p.outcome.isSome ∧ p.owns.isSome))
    (hnext : tx.nextIdValue ≤ next) : Written s ({ tx with nextIdValue := next }.pushRow write row) := by
  have hget : ∀ id, createdTask ({ tx with nextIdValue := next }.pushRow write row) id =
      if id = row.id then some row else createdTask tx id := fun id => by
    unfold createdTask Tx.pushRow
    rw [RowMap.get_set]
  have hrows : ({ tx with nextIdValue := next }.pushRow write row).writes.foldl taskWrite s.storage.tasksById =
      update (tx.writes.foldl taskWrite s.storage.tasksById) row.id (some stored) := hwrs
  constructor
  · intro t ht
    rcases mem_append.mp ht with ht | ht
    · obtain ⟨hlive, hnone, hlt⟩ := h.created t ht
      exact ⟨hlive, hnone, hlt.trans_le hnext⟩
    · exact hmade t (mem_singleton.mp ht).symm
  · refine pairwise_append.mpr ⟨h.ordered, pairwise_singleton _ _, fun a ha b hb p t hap hbt => ?_⟩
    subst hap
    exact hord t ((mem_singleton.mp hb).symm.trans hbt) p ha
  · intro p hp
    rcases mem_append.mp hp with hp | hp
    · obtain ⟨htgts, hrest⟩ := h.patched p hp
      exact ⟨htgts.append _, hrest⟩
    · exact hpatched p (mem_singleton.mp hp).symm
  · intro id t ht
    rw [hget] at ht
    split at ht
    · rename_i heq
      obtain rfl := some.inj ht
      exact ⟨heq ▸ htgt, houtcome⟩
    · exact ⟨(h.overlay id t ht).1.append _, (h.overlay id t ht).2⟩
  · intro id t ht
    rw [hget] at ht
    rw [hrows]
    split at ht
    · rename_i heq
      obtain rfl := some.inj ht
      rw [heq, update_self, map_some, hstat]
    · rename_i heq
      rw [Function.update_of_ne heq]
      exact h.stored id t ht
  · intro id
    have hchg : applyChanges s ({ tx with nextIdValue := next }.pushRow write row) =
        applyTaskChange (applyChanges s tx) row := applyChanges_task rfl rfl
    rw [hchg, liveTask_change, hrows]
    split
    · rename_i heq
      rw [heq, update_self, map_some, hstat]
      by_cases hterm : row.status = .terminal
      · simp [Option.filter, Live, hterm]
      · simp [Option.filter, Live, hterm]
    · rename_i heq
      rw [Function.update_of_ne heq]
      exact h.live id
  · exact h.next.trans hnext

/-- A row is set that was found. -/
theorem Written.setTask (h : Written s tx) (hfound : ((createdTask tx task.id).or (liveTask s task.id)).isSome)
    (houtcome : task.status = .terminal → task.outcome.isSome) : Written s (setTaskInternal s tx task) := by
  obtain ⟨p, hprev⟩ := isSome_iff_exists.mp hfound
  have hid : (closed task).id = task.id := closed_id task
  have hstat : (closed task).status = task.status := by
    unfold closed
    split <;> rfl
  have hout' : (closed task).outcome = task.outcome := by
    unfold closed
    split <;> rfl
  have htgts := (h.targets hs hprev).1
  unfold setTaskInternal
  dsimp only
  rw [hprev]
  cases hpatch : taskPatch (some p) task with
  | none => exact h
  | some patch =>
    obtain ⟨hpid, habort, hpstatus, hcomplete⟩ := taskPatch_holds hpatch
    obtain ⟨r, hr, hrstatus⟩ := map_eq_some_iff.mp (h.stored task.id p hprev)
    have hwrs : (tx.writes ++ [Write.taskPatch patch]).foldl taskWrite s.storage.tasksById =
        update (tx.writes.foldl taskWrite s.storage.tasksById) (closed task).id (some (MemoryStorage.patchTask r patch)) := by
      rw [foldl_append, foldl_cons, foldl_nil, taskWrite, hpid, hr, hid]
      rfl
    have hpatched : (MemoryStorage.patchTask r patch).status = (closed task).status := by
      change patch.status.getD r.status = _
      rw [hrstatus, hpstatus, hstat]
    refine h.pushRow tx.nextIdValue hwrs hpatched (hid.symm ▸ htgts.append _)
      (fun hterm => hout' ▸ houtcome (hstat ▸ hterm)) (by simp) (by simp) (fun q hq => ?_) (Nat.le_refl _)
    cases hq
    refine ⟨hpid ▸ htgts.append _, habort, fun hterm => ?_⟩
    obtain ⟨hterm, hcheck, hpoutcome, howns⟩ := hcomplete hterm
    exact ⟨hcheck, hpoutcome ▸ houtcome hterm, howns⟩

omit hs in
/-- Other writes are added. -/
theorem Written.extend (h : Written s tx) {more : List Write} (hmore : ∀ w ∈ more, (∀ t, w ≠ .task t) ∧ ∀ p, w ≠ .taskPatch p)
    (hwrs : tx'.writes = tx.writes ++ more) (hmade : tx'.createdTasks = tx.createdTasks) (hnext : tx.nextIdValue ≤ tx'.nextIdValue)
    (hlive : ∀ id, liveTask (applyChanges s tx') id = liveTask (applyChanges s tx) id) : Written s tx' := by
  have hrows : tx'.writes.foldl taskWrite s.storage.tasksById = tx.writes.foldl taskWrite s.storage.tasksById := by
    rw [hwrs, foldl_append]
    generalize tx.writes.foldl taskWrite s.storage.tasksById = rows
    clear hwrs
    induction more with
    | nil => rfl
    | cons w more ih =>
      have hw : taskWrite rows w = rows := by
        cases w with
        | task t => exact absurd rfl ((hmore _ (.head _)).1 t)
        | taskPatch p => exact absurd rfl ((hmore _ (.head _)).2 p)
        | _ => rfl
      rw [foldl_cons, hw]
      exact ih fun w hw => hmore w (.tail _ hw)
  have htask : ∀ t, .task t ∈ tx'.writes → .task t ∈ tx.writes := by
    intro t ht
    rw [hwrs] at ht
    exact (mem_append.mp ht).resolve_right fun hmem => (hmore _ hmem).1 t rfl
  have hpatch : ∀ p, .taskPatch p ∈ tx'.writes → .taskPatch p ∈ tx.writes := by
    intro p hp
    rw [hwrs] at hp
    exact (mem_append.mp hp).resolve_right fun hmem => (hmore _ hmem).2 p rfl
  constructor
  · intro t ht
    obtain ⟨hstat, hnone, hid⟩ := h.created t (htask t ht)
    exact ⟨hstat, hnone, hid.trans_le hnext⟩
  · rw [hwrs]
    refine pairwise_append.mpr ⟨h.ordered, pairwise_of_forall_mem_list fun a ha b hb p t _ hbt => ?_, fun a _ b hb p t _ hbt => ?_⟩
    · exact absurd hbt ((hmore b hb).1 t)
    · exact absurd hbt ((hmore b hb).1 t)
  · intro p hp
    obtain ⟨htgts, hrest⟩ := h.patched p (hpatch p hp)
    rw [hwrs]
    exact ⟨htgts.append _, hrest⟩
  · intro id t ht
    unfold createdTask at ht
    rw [hmade] at ht
    obtain ⟨htgts, hrest⟩ := h.overlay id t ht
    rw [hwrs]
    exact ⟨htgts.append _, hrest⟩
  · intro id t ht
    unfold createdTask at ht
    rw [hmade] at ht
    rw [hrows]
    exact h.stored id t ht
  · intro id
    rw [hlive, hrows]
    exact h.live id
  · exact h.next.trans hnext

theorem Written.newTask (h : Written s tx) (hid : task.id = tx.nextIdValue) (hstat : task.status ≠ .terminal) :
    Written s ({ tx with nextIdValue := tx.nextIdValue + 1 }.pushRow (.task task) task) := by
  have hbelow : ∀ id r, s.storage.tasksById id = some r → id < tx.nextIdValue := fun id r hr =>
    (hs.minted id r hr).2.trans_le h.next
  refine h.pushRow _ ?_ rfl (.inr ⟨task, mem_append_right _ (.head _), rfl⟩)
    (fun hterm => absurd hterm hstat) ?_ ?_ nofun (Nat.le_succ _)
  · rw [foldl_append, foldl_cons, foldl_nil, taskWrite]
  · rintro t ⟨⟩
    refine ⟨hstat, ?_, hid ▸ Nat.lt_succ_self _⟩
    cases hrow : s.storage.tasksById task.id with
    | none => rfl
    | some r => exact absurd (hbelow _ r hrow) (by rw [hid]; exact Nat.lt_irrefl _)
  · rintro t ⟨⟩ p hp
    -- patches are of tasks with smaller ids
    have hlt : p.id < tx.nextIdValue := by
      rcases (h.patched p hp).1 with ⟨r, hr, -⟩ | ⟨t, ht, htid⟩
      · exact hbelow _ r hr
      · exact htid ▸ (h.created t ht).2.2
    rw [hid]
    exact Nat.ne_of_lt hlt

omit hs in
theorem Written.conversation (h : Written s tx) (c : Conversation) (spec : ConversationSpec) : Written s (tx.pushConversation c spec) := by
  refine h.extend (fun w hw => ?_) rfl rfl (Nat.le_succ _) fun id => ?_
  · rcases mem_cons.mp hw with rfl | hw
    · exact ⟨fun _ => by simp, fun _ => by simp⟩
    · obtain ⟨ref, ops, rfl⟩ := documents_doc hw
      exact ⟨fun _ => by simp, fun _ => by simp⟩
  · have hchg : applyChanges s (tx.pushConversation c spec) = applyConversationChange (applyChanges s tx) c :=
      applyChanges_conversation rfl rfl
    rw [hchg]
    rfl

theorem Written.insertConversation (h : Written s tx) (spec : ConversationSpec) (owner : Option Nat) :
    Written s (Pico.insertConversation s tx spec owner) := by
  unfold Pico.insertConversation
  cases owner with
  | none =>
    dsimp only
    rw [ite_self]
    exact h.conversation _ spec
  | some o =>
    have hconv := h.conversation (newConversation tx.nextIdValue (some o) spec) spec
    dsimp only
    split
    · exact hconv
    split
    · rename_i task hfound
      have hrow := or_row hfound
      have hid : task.id = o := row_id hrow
      refine hconv.setTask hs ?_ ?_
      · change ((createdTask _ task.id).or (liveTask s task.id)).isSome = true
        rw [hid]
        exact or_isSome hrow.symm
      · intro hterm
        rcases hrow with hlive | hmade
        · exact absurd hterm (hs.of_live hlive).2
        · exact (hconv.overlay _ _ hmade).2 hterm
    · exact hconv

omit hs in
theorem Written.record (h : Written s tx) {w : Write} (hw : (∀ t, w ≠ .task t) ∧ ∀ p, w ≠ .taskPatch p) :
    Written s { tx with writes := tx.writes ++ [w] } := by
  refine h.extend (fun w' hw' => ?_) rfl rfl (Nat.le_refl _) fun id => rfl
  rw [mem_singleton.mp hw']
  exact hw

theorem source_found {source : RowSource} (hsrc : source.row s tx id = some task)
    (hlive : task.status ≠ .terminal) : task.id = id ∧ ((createdTask tx id).or (liveTask s id)).isSome := by
  rcases source_current hsrc fun hstor => isSome_iff_exists.mpr (hs.live_of hstor hlive) with ⟨-, hl⟩ | hprev
  · exact ⟨RowMap.get_key Task.id hl, or_isSome (.inr hl)⟩
  · exact ⟨row_id (or_row hprev).symm, isSome_iff_exists.mpr ⟨task, hprev⟩⟩

theorem Written.apply (h : Written s tx) {op : TxOp} (hop : tx.apply s op = .ok tx') : Written s tx' := by
  cases op with
  | createTask byName spec =>
    obtain ⟨_, -, hop⟩ := bind_ok.mp hop
    obtain ⟨c, -, rfl⟩ := createTaskInternal_ok hop
    exact h.newTask hs rfl (by simp [Pico.newTask])
  | createConversation spec =>
    obtain ⟨_, -, hop⟩ := bind_ok.mp hop
    obtain rfl := ok.inj hop
    exact h.insertConversation hs spec _
  | createForkConversation spec =>
    obtain ⟨_, -, hop⟩ := bind_ok.mp hop
    obtain rfl := ok.inj hop
    exact h.insertConversation hs spec _
  | createOwnedConversation owner source spec =>
    obtain rfl := createOwnedConversation_ok hop
    exact h.insertConversation hs spec _
  | checkpoint value =>
    obtain ⟨id, current, -, hprev, rfl⟩ := checkpoint_ok hop
    have hid : current.id = id := row_id (or_row hprev).symm
    refine h.setTask hs ?_ (h.targets hs hprev).2
    rw [hid, hprev]
    rfl
  | markTask id =>
    obtain ⟨task, hprev, rfl⟩ := markTask_ok hop
    have hid : task.id = id := row_id (or_row hprev).symm
    split
    · exact h
    · refine h.setTask hs ?_ (h.targets hs hprev).2
      rw [hid, hprev]
      rfl
  | setTask source id u =>
    obtain ⟨task, hsrc, hlive, rfl⟩ := setTask_ok hop
    obtain ⟨hid, hfound⟩ := source_found hs hsrc hlive
    refine h.setTask hs ?_ ?_
    · rw [u.apply_id, hid]
      exact hfound
    · cases u with
      | running => exact fun hterm => by cases hterm
      | abort => exact fun hterm => absurd hterm hlive
      | terminal outcome => exact fun _ => rfl
  | mintId =>
    obtain rfl := ok.inj hop
    exact h.extend (fun w hw => by cases hw) (append_nil _).symm rfl (Nat.le_succ _) fun id => rfl
  | appendEntry | putInput | doc =>
    obtain rfl := ok.inj hop
    exact h.record ⟨fun _ => by simp, fun _ => by simp⟩

theorem Written.run (h : Written s tx) {ops : List TxOp} (hrun : tx.run s ops = .ok tx') : Written s tx' := by
  induction ops generalizing tx with
  | nil =>
    obtain rfl := ok.inj hrun
    exact h
  | cons op ops ih =>
    obtain ⟨tx₁, hop, hrun⟩ := bind_ok.mp hrun
    exact ih (h.apply hs hop) hrun

end Operations

theorem Written.transacted (h : Written s tx) : Transacted s.storage tx.writes where
  created := fun t ht => ⟨(h.created t ht).2.1, (h.created t ht).1⟩
  ordered := h.ordered
  live := by
    intro p hp
    rcases (h.patched p hp).1 with hlive | ⟨t, ht, hid⟩
    · exact .inl hlive
    · exact .inr ⟨hid ▸ (h.created t ht).2.1, t, ht, hid⟩
  mark := fun p hp => (h.patched p hp).2.1
  complete := fun p hp => (h.patched p hp).2.2

end Shuvpi.Pico
