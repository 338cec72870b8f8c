import Shuvpi.PicoTx

/-!
# Ownership of conversations

The tables of tasks and conversations as a transaction is meant to change them, one
operation after the other, and what the code does instead: a transaction that creates an
owned conversation reads the owner's row from the live tasks, and so forgets what the same
transaction has written to it before.
-/
open List Option Function Except

namespace Shuvpi.Pico

open Function (update)

variable {s s' : Session} {tx tx' : Tx}

/-! ## The tables and what operations are to do to them -/

structure Tables where
  rows : Nat → Option Task
  conversations : Nat → Option Conversation
  next : Nat

def Session.tables (s : Session) : Tables := ⟨s.storage.tasksById, s.storage.conversationsById, s.storage.nextIdValue⟩

namespace Tables

def change (T : Tables) (id : Nat) (f : Task → Task) : Tables := { T with rows := update T.rows id ((T.rows id).map f) }

def own (c : Nat) (task : Task) : Task := { task with owns := task.owns ++ [c] }

def addConversation (T : Tables) (owner : Option Nat) (spec : ConversationSpec) : Tables :=
  let T' := { T with
    conversations := update T.conversations T.next (some (newConversation T.next owner spec))
    next := T.next + 1 }
  match owner with
  | some owner => T'.change owner (own T.next)
  | none => T'

/-- What an operation is to do: to change the row as the operation before has left it. -/
def apply (invoker : Invoker) (T : Tables) : TxOp → Tables
  | .createTask _ spec =>
    match spec.conversationId.or invoker.conversationId? with
    | some c => { T with rows := update T.rows T.next (some (newTask T.next c spec)), next := T.next + 1 }
    | none => T
  | .createConversation spec => T.addConversation invoker.taskId? spec
  | .createForkConversation spec => T.addConversation none spec
  | .createOwnedConversation owner _ spec => T.addConversation (some owner) spec
  | .checkpoint value =>
    match invoker.taskId? with
    | some id => T.change id fun task => closed { task with checkpoint := some value }
    | none => T
  | .markTask id => T.change id fun task => if task.abort then task else closed { task with abort := true }
  | .setTask _ id update => T.change id fun task => closed (update.apply task)
  | .mintId => { T with next := T.next + 1 }
  | .appendEntry _ => T
  | .putInput _ => T
  | .doc _ _ => T

def run (invoker : Invoker) (T : Tables) (ops : List TxOp) : Tables := ops.foldl (apply invoker) T

/-- Rows stand under their ids, and a conversation has an owner just when that task lists it. -/
structure WellOwned (T : Tables) : Prop where
  task : ∀ id t, T.rows id = some t → t.id = id ∧ id < T.next
  conversation : ∀ id c, T.conversations id = some c → c.id = id ∧ id < T.next
  owned : ∀ c o, (∃ conv, T.conversations c = some conv ∧ conv.owner = some o) ↔ ∃ t, T.rows o = some t ∧ c ∈ t.owns

/-- What tasks own only grows. -/
def OwnsGrow (T T' : Tables) : Prop := ∀ id t, T.rows id = some t → ∃ t', T'.rows id = some t' ∧ t.owns <+: t'.owns

/-- The conversations that a task has created, itself or through tasks in them. -/
inductive CreatedBy (T : Tables) (id : Nat) : Nat → Prop
  | own {c : Nat} {conv : Conversation} (hc : T.conversations c = some conv) (ho : conv.owner = some id) : CreatedBy T id c
  | nested {c o : Nat} {conv : Conversation} {t : Task} (hc : T.conversations c = some conv) (ho : conv.owner = some o)
      (ht : T.rows o = some t) (h : CreatedBy T id t.conversationId) : CreatedBy T id c

end Tables

/-! ## The operations on the tables -/

namespace Tables

variable {T T' : Tables} {id : Nat} {f : Task → Task}

theorem OwnsGrow.refl (T : Tables) : OwnsGrow T T := fun _ t h => ⟨t, h, prefix_rfl⟩

theorem OwnsGrow.trans {T'' : Tables} (h : OwnsGrow T T') (h' : OwnsGrow T' T'') : OwnsGrow T T'' := by
  intro id t ht
  obtain ⟨t', ht', hle⟩ := h id t ht
  obtain ⟨t'', ht'', hle'⟩ := h' id t' ht'
  exact ⟨t'', ht'', hle.trans hle'⟩

theorem change_rows_self (T : Tables) (id : Nat) (f : Task → Task) : (T.change id f).rows id = (T.rows id).map f :=
  update_self ..

theorem change_rows_ne (T : Tables) {id other : Nat} (h : other ≠ id) (f : Task → Task) :
    (T.change id f).rows other = T.rows other := update_of_ne h ..

theorem change_grow (hf : ∀ t, t.owns <+: (f t).owns) (T : Tables) (id : Nat) : OwnsGrow T (T.change id f) := by
  intro other t ht
  by_cases h : other = id
  · subst h
    exact ⟨f t, by rw [change_rows_self, ht]; rfl, hf t⟩
  · exact ⟨t, by rw [change_rows_ne T h, ht], prefix_rfl⟩

variable (h : WellOwned T)
include h

/-- A change of a row that leaves its id and what it owns alone. -/
theorem WellOwned.change (hid : ∀ t, (f t).id = t.id) (howns : ∀ t, (f t).owns = t.owns) (id : Nat) :
    WellOwned (T.change id f) where
  task := by
    intro other t ht
    by_cases heq : other = id
    · subst heq
      rw [change_rows_self, map_eq_some_iff] at ht
      obtain ⟨t₀, ht₀, rfl⟩ := ht
      rw [hid]
      exact h.task other t₀ ht₀
    · rw [change_rows_ne T heq] at ht
      exact h.task other t ht
  conversation := h.conversation
  owned := by
    intro c o
    rw [show (T.change id f).conversations = T.conversations from rfl, h.owned c o]
    by_cases heq : o = id
    · subst heq
      rw [change_rows_self]
      cases T.rows o with
      | none => simp
      | some t => simp [howns]
    · rw [change_rows_ne T heq]

theorem WellOwned.changed (f : Task → Task) (hid : ∀ t, (f t).id = t.id) (howns : ∀ t, (f t).owns = t.owns)
    (id : Nat) : WellOwned (T.change id f) ∧ OwnsGrow T (T.change id f) :=
  ⟨h.change hid howns id, change_grow (fun t => by rw [howns t]) T id⟩

theorem WellOwned.fresh : T.rows T.next = none ∧ T.conversations T.next = none := by
  constructor
  · cases hrow : T.rows T.next with
    | none => rfl
    | some t => exact absurd (h.task _ t hrow).2 (Nat.lt_irrefl _)
  · cases hconv : T.conversations T.next with
    | none => rfl
    | some c => exact absurd (h.conversation _ c hconv).2 (Nat.lt_irrefl _)

theorem WellOwned.mint {n : Nat} (hn : T.next ≤ n) : WellOwned { T with next := n } where
  task := fun id t ht => ⟨(h.task id t ht).1, Nat.lt_of_lt_of_le (h.task id t ht).2 hn⟩
  conversation := fun id c hc => ⟨(h.conversation id c hc).1, Nat.lt_of_lt_of_le (h.conversation id c hc).2 hn⟩
  owned := h.owned

theorem WellOwned.addTask {task : Task} (hid : task.id = T.next) (howns : task.owns = []) :
    WellOwned { T with rows := update T.rows T.next (some task), next := T.next + 1 } where
  task := by
    intro id t ht
    by_cases heq : id = T.next
    · subst heq
      dsimp only at ht
      rw [update_self] at ht
      obtain rfl := some.inj ht
      exact ⟨hid, Nat.lt_succ_self _⟩
    · dsimp only at ht
      rw [update_of_ne heq] at ht
      exact ⟨(h.task id t ht).1, Nat.lt_succ_of_lt (h.task id t ht).2⟩
  conversation := fun id c hc => ⟨(h.conversation id c hc).1, Nat.lt_succ_of_lt (h.conversation id c hc).2⟩
  owned := by
    intro c o
    refine (h.owned c o).trans ?_
    by_cases heq : o = T.next
    · subst heq
      simp [h.fresh.1, howns]
    · simp only [update_of_ne heq]

/-- The new conversation comes after those that are there. -/
theorem WellOwned.addConversation {owner : Option Nat} (howner : ∀ o ∈ owner, (T.rows o).isSome)
    (spec : ConversationSpec) : WellOwned (T.addConversation owner spec) := by
  have hrows : ∀ o, (T.addConversation owner spec).rows o = if owner = some o then (T.rows o).map (own T.next) else T.rows o := by
    intro o
    cases owner with
    | none => rfl
    | some owner =>
      by_cases heq : o = owner
      · subst heq
        rw [if_pos rfl]
        exact change_rows_self ..
      · rw [if_neg (by simpa using Ne.symm heq)]
        exact change_rows_ne _ heq _
  have hconversations : (T.addConversation owner spec).conversations =
      update T.conversations T.next (some (newConversation T.next owner spec)) := by
    cases owner <;> rfl
  have hnext : (T.addConversation owner spec).next = T.next + 1 := by
    cases owner <;> rfl
  constructor
  · intro id t ht
    rw [hrows] at ht
    rw [hnext]
    split at ht
    · obtain ⟨t₀, ht₀, rfl⟩ := map_eq_some_iff.mp ht
      exact ⟨(h.task id t₀ ht₀).1, Nat.lt_succ_of_lt (h.task id t₀ ht₀).2⟩
    · exact ⟨(h.task id t ht).1, Nat.lt_succ_of_lt (h.task id t ht).2⟩
  · intro id c hc
    rw [hconversations] at hc
    rw [hnext]
    by_cases heq : id = T.next
    · subst heq
      rw [update_self] at hc
      obtain rfl := some.inj hc
      exact ⟨rfl, Nat.lt_succ_self _⟩
    · rw [update_of_ne heq] at hc
      exact ⟨(h.conversation id c hc).1, Nat.lt_succ_of_lt (h.conversation id c hc).2⟩
  · intro c o
    have hmem : (∃ t, (T.addConversation owner spec).rows o = some t ∧ c ∈ t.owns) ↔
        (∃ t, T.rows o = some t ∧ c ∈ t.owns) ∨ owner = some o ∧ c = T.next := by
      rw [hrows]
      split
      · rename_i ho
        obtain ⟨t₀, ht₀⟩ := isSome_iff_exists.mp (howner o ho)
        simp [ht₀, own, ho]
      · rename_i ho
        simp [ho]
    rw [hmem, ← h.owned, hconversations]
    by_cases hc : c = T.next
    · subst hc
      simp [h.fresh.2, newConversation]
    · simp [hc]

omit h

theorem addConversation_grow (T : Tables) (owner : Option Nat) (spec : ConversationSpec) :
    OwnsGrow T (T.addConversation owner spec) := by
  cases owner with
  | none => exact OwnsGrow.refl T
  | some owner => exact change_grow (fun t => prefix_append _ _) _ owner

end Tables

/-- The task to which an operation gives a conversation. -/
def TxOp.owner (invoker : Invoker) : TxOp → Option Nat
  | .createConversation _ => invoker.taskId?
  | .createOwnedConversation owner _ _ => some owner
  | _ => none

def TxOp.seeds : TxOp → Seeds
  | .createConversation spec => spec.seeds
  | .createOwnedConversation _ _ spec => spec.seeds
  | _ => .valid

variable (task : Task)

theorem closed_id : (closed task).id = task.id := by
  unfold closed
  split <;> rfl

theorem closed_owns : (closed task).owns = task.owns := by
  unfold closed
  split <;> rfl

variable (u : Update)

theorem Update.apply_id : (u.apply task).id = task.id := by
  cases u <;> rfl

theorem Update.apply_owns : (u.apply task).owns = task.owns := by
  cases u <;> rfl

namespace Tables

variable {T : Tables}

theorem WellOwned.apply {invoker : Invoker} {op : TxOp} (h : WellOwned T) (howner : ∀ o ∈ op.owner invoker, (T.rows o).isSome) :
    WellOwned (T.apply invoker op) ∧ OwnsGrow T (T.apply invoker op) := by
  cases op with
  | createTask byName spec =>
    unfold Tables.apply
    dsimp only
    split
    · refine ⟨h.addTask rfl rfl, fun id t ht => ⟨t, ?_, prefix_rfl⟩⟩
      have hne : id ≠ T.next := Nat.ne_of_lt (h.task id t ht).2
      exact (update_of_ne hne ..).trans ht
    · exact ⟨h, OwnsGrow.refl T⟩
  | createConversation spec => exact ⟨h.addConversation howner spec, addConversation_grow T _ spec⟩
  | createForkConversation spec =>
    have hnone : ∀ o ∈ (none : Option Nat), (T.rows o).isSome := by simp
    exact ⟨h.addConversation hnone spec, addConversation_grow T none spec⟩
  | createOwnedConversation owner source spec =>
    exact ⟨h.addConversation howner spec, addConversation_grow T (some owner) spec⟩
  | checkpoint value =>
    unfold Tables.apply
    dsimp only
    split
    · exact h.changed (fun task => closed { task with checkpoint := some value }) (fun _ => closed_id _)
        (fun _ => closed_owns _) _
    · exact ⟨h, OwnsGrow.refl T⟩
  | markTask id =>
    refine h.changed (fun task => if task.abort then task else closed { task with abort := true }) (fun task => ?_)
      (fun task => ?_) id
    · split
      · rfl
      · exact closed_id _
    · split
      · rfl
      · exact closed_owns _
  | setTask source id u =>
    have hid : ∀ t, (closed (u.apply t)).id = t.id := fun t => (closed_id _).trans (u.apply_id t)
    have howns : ∀ t, (closed (u.apply t)).owns = t.owns := fun t => (closed_owns _).trans (u.apply_owns t)
    exact h.changed _ hid howns id
  | mintId => exact ⟨h.mint (Nat.le_succ _), OwnsGrow.refl T⟩
  | appendEntry | putInput | doc => exact ⟨h, OwnsGrow.refl T⟩

end Tables

/-! ## What a batch does to the tables -/

def taskWrite (rows : Nat → Option Task) : Write → Nat → Option Task
  | .task t => update rows t.id (some t)
  | .taskPatch p => update rows p.id ((rows p.id).map fun t => MemoryStorage.patchTask t p)
  | _ => rows

def conversationWrite (conversations : Nat → Option Conversation) : Write → Nat → Option Conversation
  | .conversation c => update conversations c.id (some c)
  | _ => conversations

theorem documents_doc {spec : ConversationSpec} {id : Nat} {w : Write} (h : w ∈ spec.documents id) : ∃ ref ops, w = .doc ref ops := by
  unfold ConversationSpec.documents at h
  split at h
  · rcases mem_cons.mp h with rfl | h
    · exact ⟨_, _, rfl⟩
    · exact ⟨_, _, mem_singleton.mp h⟩
  · cases h
  · exact ⟨_, _, mem_singleton.mp h⟩

/-- Documents are no part of the tables. -/
theorem foldl_documents {α : Type} {f : α → Write → α} (hf : ∀ a ref ops, f a (.doc ref ops) = a) (spec : ConversationSpec)
    (id : Nat) (a : α) : (spec.documents id).foldl f a = a := by
  unfold ConversationSpec.documents
  cases spec.seeds with
  | valid | rewindableInvalid | stickyInvalid => simp only [foldl_cons, foldl_nil, hf]

variable {st st' : MemoryStorage}

variable {seq id : Nat}

theorem applyWrite_tables {w : Write} (h : MemoryStorage.applyWrite seq st w = .ok st') :
    st'.tasksById = taskWrite st.tasksById w ∧ st'.conversationsById = conversationWrite st.conversationsById w ∧
      st'.nextIdValue = st.nextIdValue := by
  cases w with
  | doc ref ops =>
    cases ref with
    | session =>
      simp only [MemoryStorage.applyWrite] at h
      split at h
      · cases h
        exact ⟨rfl, rfl, rfl⟩
      · cases h
    | rewindable | sticky => cases h; exact ⟨rfl, rfl, rfl⟩
  | _ => cases h; exact ⟨rfl, rfl, rfl⟩

variable {writes : List Write}

theorem foldlM_tables
    (h : writes.foldlM (MemoryStorage.applyWrite seq) st = .ok st') :
    st'.tasksById = writes.foldl taskWrite st.tasksById ∧
      st'.conversationsById = writes.foldl conversationWrite st.conversationsById ∧ st'.nextIdValue = st.nextIdValue := by
  induction writes generalizing st with
  | nil => cases h; exact ⟨rfl, rfl, rfl⟩
  | cons w writes ih =>
    obtain ⟨st₁, hw, h⟩ := bind_ok.mp h
    obtain ⟨htasks, hconversations, hnext⟩ := applyWrite_tables hw
    rw [foldl_cons, foldl_cons, ← htasks, ← hconversations, ← hnext]
    exact ih h

theorem commit_tables (h : st.commit writes = .ok st') : st'.tasksById = writes.foldl taskWrite st.tasksById ∧
      st'.conversationsById = writes.foldl conversationWrite st.conversationsById ∧ st.nextIdValue ≤ st'.nextIdValue := by
  obtain ⟨created, -, h⟩ := bind_ok.mp h
  obtain ⟨st₁, happly, h⟩ := bind_ok.mp h
  obtain ⟨htasks, hconversations, hnext⟩ := foldlM_tables happly
  obtain rfl := ok.inj h
  exact ⟨htasks, hconversations, hnext ▸ Nat.le_max_left _ _⟩

/-! ## The tables that a session keeps -/

def Live (task : Task) : Bool := task.status ≠ .terminal

/-- The session's own tables agree with those of the storage. -/
structure Coherent (s : Session) (T : Tables) : Prop where
  live : ∀ id, liveTask s id = (T.rows id).filter Live
  distinct : RowMap.Distinct Conversation.id s.conversationRecords
  records : ∀ id, RowMap.get Conversation.id s.conversationRecords id = T.conversations id
  owners : ∀ c conv o, T.conversations c = some conv → conv.owner = some o → ∃ t, T.rows o = some t ∧ ownerTask s o = some t

variable {T : Tables}

theorem live_isSome (h : Coherent s T) {task : Task} (hlive : liveTask s id = some task) :
    T.rows id = some task ∧ task.status ≠ .terminal := by
  rw [h.live id, filter_eq_some_iff] at hlive
  exact ⟨hlive.1, by simpa [Live] using hlive.2⟩

theorem liveTask_change (s : Session) (task : Task) (id : Nat) :
    liveTask (applyTaskChange s task) id = if id = task.id then (some task).filter Live else liveTask s id := by
  unfold applyTaskChange liveTask
  split
  · rename_i hterm
    simp [RowMap.get_delete, Option.filter, Live, hterm]
  · rename_i hlive
    simp [RowMap.get_set, Option.filter, Live, hlive]

theorem ownerTask_change_ne (s : Session) (task : Task) (hne : id ≠ task.id) :
    ownerTask (applyTaskChange s task) id = ownerTask s id := by
  unfold ownerTask
  rw [liveTask_change, if_neg hne]
  congr 1
  unfold applyTaskChange
  split
  · dsimp only
    split
    · rfl
    · rw [RowMap.get_set, if_neg hne]
  · rfl

theorem ownerTask_change_self (s : Session) {task : Task} (howns : task.status = .terminal → task.owns ≠ []) :
    ownerTask (applyTaskChange s task) task.id = some task := by
  unfold ownerTask
  rw [liveTask_change, if_pos rfl]
  by_cases hterm : task.status = .terminal
  · have hempty : task.owns.isEmpty = false := by simpa using howns hterm
    simp [Option.filter, Live, hterm, applyTaskChange, hempty, RowMap.get_set]
  · simp [Option.filter, Live, hterm]

/-- A row takes the place of a row, or of none. -/
theorem Coherent.row (h : Coherent s T) {task : Task}
    (howns : task.status = .terminal → (∃ c conv, T.conversations c = some conv ∧ conv.owner = some task.id) → task.owns ≠ []) :
    Coherent (applyTaskChange s task) { T with rows := update T.rows task.id (some task) } where
  live := by
    intro id
    rw [liveTask_change]
    dsimp only
    by_cases heq : id = task.id
    · subst heq
      rw [if_pos rfl, update_self]
    · rw [if_neg heq, update_of_ne heq, h.live]
  distinct := by
    unfold applyTaskChange
    split <;> exact h.distinct
  records := by
    intro id
    unfold applyTaskChange
    split <;> exact h.records id
  owners := by
    intro c conv o hc ho
    by_cases heq : o = task.id
    · subst heq
      exact ⟨task, update_self .., ownerTask_change_self s fun hterm => howns hterm ⟨c, conv, hc, ho⟩⟩
    · obtain ⟨t, ht, howner⟩ := h.owners c conv o hc ho
      exact ⟨t, (update_of_ne heq ..).trans ht, (ownerTask_change_ne s task heq).trans howner⟩

theorem Coherent.conversation (h : Coherent s T) {c : Conversation}
    (howner : ∀ o ∈ c.owner, (liveTask s o).isSome) {n : Nat} :
    Coherent (applyConversationChange s c) { T with conversations := update T.conversations c.id (some c), next := n } where
  live := h.live
  distinct := h.distinct.set Conversation.id c
  records := by
    intro id
    unfold applyConversationChange
    rw [RowMap.get_set]
    dsimp only
    by_cases heq : id = c.id
    · subst heq
      rw [if_pos rfl, update_self]
    · rw [if_neg heq, update_of_ne heq, h.records]
  owners := by
    intro id conv o hconv ho
    by_cases heq : id = c.id
    · subst heq
      dsimp only at hconv
      rw [update_self] at hconv
      obtain rfl := some.inj hconv
      obtain ⟨t, ht⟩ := isSome_iff_exists.mp (howner o ho)
      refine ⟨t, (live_isSome h ht).1, ?_⟩
      change (liveTask s o).or _ = some t
      rw [ht]
      rfl
    · dsimp only at hconv
      rw [update_of_ne heq] at hconv
      exact h.owners id conv o hconv ho

/-! ## A patch brings a row to what it is set to -/

/-- A row that keeps what a task was created with, and its mark and outcome once it has them. -/
structure Extends (p t : Task) : Prop where
  id : t.id = p.id
  conversationId : t.conversationId = p.conversationId
  kind : t.kind = p.kind
  input : t.input = p.input
  after : t.after = p.after
  background : t.background = p.background
  abort : p.abort = true → t.abort = true
  outcome : t.outcome = none → p.outcome = none

theorem taskPatch_none {p task : Task} (hext : Extends p task) (h : taskPatch (some p) task = none) :
    task = p ∧ task.status ≠ .terminal := by
  unfold taskPatch at h
  split at h
  · cases h
  · rename_i hlive
    dsimp only at h
    split at h
    · rename_i hsame
      obtain ⟨hstat, hcheck, habort, houtcome, howns⟩ := hsame
      obtain ⟨hid, hconversation, hkind, hinput, hafter, hbackground, -, -⟩ := hext
      refine ⟨?_, hlive⟩
      cases task
      cases p
      simp_all
    · cases h

theorem task_eq {a b : Task} (hid : a.id = b.id) (hconversation : a.conversationId = b.conversationId) (hkind : a.kind = b.kind)
    (hinput : a.input = b.input) (hstat : a.status = b.status) (hcheck : a.checkpoint = b.checkpoint)
    (habort : a.abort = b.abort) (houtcome : a.outcome = b.outcome) (hafter : a.after = b.after) (howns : a.owns = b.owns)
    (hbackground : a.background = b.background) : a = b := by
  cases a
  cases b
  simp_all

/-- What is left out of a patch is the same. -/
theorem getD_patched {α : Type} {P : Prop} [Decidable P] {a b : α} (h : P → a = b) :
    (if P then none else some b).getD a = b := by
  split
  · exact h ‹P›
  · rfl

/-- A mark stays, whether the patch names it or not. -/
theorem getD_abort {P : Prop} [Decidable P] {a b : Bool} (h : P → b = true) (hnot : ¬P → a = b ∨ b = false)
    (hkept : a = true → b = true) : (if P then some true else none).getD a = b := by
  split
  · exact (h ‹P›).symm
  · rcases hnot ‹¬P› with heq | hfalse
    · exact heq
    · cases a with
      | true => rw [hkept rfl] at hfalse; cases hfalse
      | false => exact hfalse.symm

theorem taskPatch_some {p task : Task} {patch : TaskPatch} (hext : Extends p task) (h : taskPatch (some p) task = some patch) :
    patch.id = task.id ∧ MemoryStorage.patchTask p patch = closed task := by
  have houtcome : task.outcome.or p.outcome = task.outcome := by
    cases hto : task.outcome with
    | some o => rfl
    | none => rw [hext.outcome hto]; rfl
  unfold taskPatch at h
  unfold MemoryStorage.patchTask closed
  split at h
  · rename_i hterm
    obtain rfl := some.inj h
    refine ⟨rfl, ?_⟩
    rw [if_pos hterm]
    refine task_eq hext.id.symm hext.conversationId.symm hext.kind.symm hext.input.symm hterm.symm rfl ?_ houtcome
      hext.after.symm rfl hext.background.symm
    exact getD_abort (fun hset => hset) (fun hnot => .inr (by simpa using hnot)) hext.abort
  · rename_i hlive
    dsimp only at h
    split at h
    · cases h
    · obtain rfl := some.inj h
      refine ⟨rfl, ?_⟩
      rw [if_neg hlive]
      refine task_eq hext.id.symm hext.conversationId.symm hext.kind.symm hext.input.symm (getD_patched fun hsame => ?_)
        (getD_patched fun hsame => hsame) (getD_abort (fun hset => hset.2) (fun hnot => ?_) hext.abort) ?_
        hext.after.symm (getD_patched fun hsame => ?_) hext.background.symm
      · exact some.inj hsame
      · by_cases hsame : p.abort = task.abort
        · exact .inl hsame
        · exact .inr (by simpa using not_and.mp hnot hsame)
      · dsimp only
        split
        · assumption
        · exact houtcome
      · exact some.inj hsame

/-! ## What a transaction has done so far -/

/-- The tables stand for what the transaction has written, in its overlay, in its batch and in the changes it will make to
the session. -/
structure Tracks (s : Session) (tx : Tx) (T : Tables) : Prop where
  next : T.next = tx.nextIdValue
  overlay : ∀ id, T.rows id = (createdTask tx id).or (s.storage.tasksById id)
  rows : T.rows = tx.writes.foldl taskWrite s.storage.tasksById
  conversations : T.conversations = tx.writes.foldl conversationWrite s.storage.conversationsById
  coherent : Coherent (applyChanges s tx) T

theorem tracks_start (hs : Coherent s s.tables) (invoker : Invoker) (closing : Bool) :
    Tracks s (Tx.start s invoker closing) s.tables :=
  ⟨rfl, fun _ => rfl, rfl, rfl, hs⟩

theorem applyTaskChange_conversation (s : Session) (task : Task) (c : Conversation) :
    applyConversationChange (applyTaskChange s task) c = applyTaskChange (applyConversationChange s c) task := by
  unfold applyTaskChange applyConversationChange
  split <;> rfl

theorem applyChanges_task {task : Task} (htasks : tx'.changedTasks = tx.changedTasks ++ [task])
    (hconversations : tx'.changedConversations = tx.changedConversations) :
    applyChanges s tx' = applyTaskChange (applyChanges s tx) task := by
  unfold applyChanges
  rw [htasks, hconversations, foldl_append]
  generalize tx.changedTasks.foldl applyTaskChange s = s₁
  change tx.changedConversations.foldl applyConversationChange (applyTaskChange s₁ task) = _
  induction tx.changedConversations generalizing s₁ with
  | nil => rfl
  | cons c cs ih => rw [foldl_cons, foldl_cons, ← ih, applyTaskChange_conversation]

theorem applyChanges_conversation {c : Conversation} (htasks : tx'.changedTasks = tx.changedTasks)
    (hconversations : tx'.changedConversations = tx.changedConversations ++ [c]) :
    applyChanges s tx' = applyConversationChange (applyChanges s tx) c := by
  unfold applyChanges
  rw [htasks, hconversations, foldl_append]
  rfl

section Operations

variable {T : Tables} (hs : Coherent s s.tables)

include hs

variable (h : Tracks s tx T)
include h

/-- The row that an operation finds in the overlay or among the live tasks. -/
theorem Tracks.current {id : Nat} {task : Task} (hrow : (createdTask tx id).or (liveTask s id) = some task) :
    T.rows id = some task := by
  rw [h.overlay]
  cases hmade : createdTask tx id with
  | some created =>
    rw [hmade] at hrow
    exact hrow
  | none =>
    rw [hmade] at hrow
    exact (live_isSome hs hrow).1

/-- Setting a row sets it in the overlay, in the batch and in the session. -/
theorem Tracks.setTask {p task : Task} (hprev : (createdTask tx task.id).or (liveTask s task.id) = some p)
    (hext : Extends p task)
    (howns : task.status = .terminal → (∃ c conv, T.conversations c = some conv ∧ conv.owner = some task.id) → task.owns ≠ []) :
    Tracks s (setTaskInternal s tx task) { T with rows := update T.rows task.id (some (closed task)) } := by
  have hid : (closed task).id = task.id := closed_id task
  have hrow : T.rows task.id = some p := h.current hs hprev
  unfold setTaskInternal
  dsimp only
  rw [hprev]
  cases hpatch : taskPatch (some p) task with
  | none =>
    obtain ⟨rfl, hlive⟩ := taskPatch_none hext hpatch
    have hsame : closed task = task := if_neg hlive
    rw [hsame, ← hrow, update_eq_self]
    exact h
  | some patch =>
    obtain ⟨hpid, hpatched⟩ := taskPatch_some hext hpatch
    constructor
    · exact h.next
    · intro id
      unfold createdTask Tx.pushRow
      dsimp only
      rw [RowMap.get_set, hid]
      by_cases heq : id = task.id
      · subst heq
        rw [if_pos rfl, update_self]
        rfl
      · rw [if_neg heq, update_of_ne heq]
        exact h.overlay id
    · unfold Tx.pushRow
      rw [foldl_append, ← h.rows, foldl_cons, foldl_nil, taskWrite, hpid, hrow, map_some, hpatched]
    · unfold Tx.pushRow
      rw [foldl_append, ← h.conversations]
      rfl
    · have hchg : applyChanges s (tx.pushRow (.taskPatch patch) (closed task)) =
          applyTaskChange (applyChanges s tx) (closed task) := applyChanges_task rfl rfl
      rw [hchg, ← hid]
      refine h.coherent.row fun hterm howner => ?_
      have hterm' : task.status = .terminal := by
        unfold closed at hterm
        split at hterm
        · assumption
        · exact hterm
      rw [hid] at howner
      rw [closed_owns]
      exact howns hterm' howner

/-- Setting a row to what a change makes of it. -/
theorem Tracks.change (hw : T.WellOwned) {id : Nat} {p : Task} {f : Task → Task}
    (hprev : (createdTask tx id).or (liveTask s id) = some p) (hext : Extends p (f p)) (howns : (f p).owns = p.owns) :
    Tracks s (setTaskInternal s tx (f p)) (T.change id fun task => closed (f task)) := by
  have hrow : T.rows id = some p := h.current hs hprev
  have hid : (f p).id = id := hext.id.trans (hw.task id p hrow).1
  have hchg : (T.change id fun task => closed (f task)) = { T with rows := update T.rows (f p).id (some (closed (f p))) } := by
    unfold Tables.change
    rw [hrow, hid]
    rfl
  rw [hchg]
  refine h.setTask hs (hid ▸ hprev) hext fun _ hconversation hempty => ?_
  obtain ⟨c, conv, hc, ho⟩ := hconversation
  rw [hid] at ho
  obtain ⟨t, ht, hmem⟩ := (hw.owned c id).mp ⟨conv, hc, ho⟩
  obtain rfl := some.inj (hrow.symm.trans ht)
  rw [← howns, hempty] at hmem
  cases hmem

omit h

omit hs in
/-- A conversation is written; its owner, if it has one, is live. -/
theorem Tracks.conversation (h : Tracks s tx T) {c : Conversation} (hid : c.id = T.next)
    (howner : ∀ o ∈ c.owner, ∃ t, T.rows o = some t ∧ t.status ≠ .terminal) (spec : ConversationSpec) :
    Tracks s (tx.pushConversation c spec)
      { T with conversations := update T.conversations T.next (some c), next := T.next + 1 } := by
  constructor
  · exact congrArg (· + 1) h.next
  · exact h.overlay
  · unfold Tx.pushConversation
    rw [foldl_append, ← h.rows, foldl_cons, foldl_documents fun _ _ _ => rfl]
    rfl
  · unfold Tx.pushConversation
    rw [foldl_append, ← h.conversations, ← hid, foldl_cons, foldl_documents fun _ _ _ => rfl]
    rfl
  · have hchg : applyChanges s (tx.pushConversation c spec) = applyConversationChange (applyChanges s tx) c :=
      applyChanges_conversation rfl rfl
    rw [← hid, hchg]
    refine h.coherent.conversation fun o ho => ?_
    obtain ⟨t, ht, hlive⟩ := howner o ho
    rw [h.coherent.live, ht]
    simp [Live, hlive]

/-- Where a live task has not been written, its live row is the current one. -/
theorem Tracks.found (h : Tracks s tx T) {o : Nat} {t : Task} (ht : (liveTask s o).or (createdTask tx o) = some t)
    (hcur : (liveTask s o).isSome → createdTask tx o = none) :
    (createdTask tx o).or (liveTask s o) = some t ∧ T.rows o = some t := by
  have hprev : (createdTask tx o).or (liveTask s o) = some t := by
    cases hl : liveTask s o with
    | some live =>
      rw [hl] at ht hcur
      rw [hcur rfl]
      exact ht
    | none =>
      rw [hl] at ht
      rw [or_none]
      exact ht
  exact ⟨hprev, h.current hs hprev⟩

/-- A conversation with an owner has a configuration that is accepted. -/
theorem Tracks.insertConversation (h : Tracks s tx T) (hw : T.WellOwned) (spec : ConversationSpec) {owner : Option Nat}
    (hseeds : owner.isSome → spec.seeds = .valid)
    (howner : ∀ o ∈ owner, ∃ t, (liveTask s o).or (createdTask tx o) = some t ∧ t.status ≠ .terminal)
    (hcur : ∀ o ∈ owner, (liveTask s o).isSome → createdTask tx o = none) :
    Tracks s (Pico.insertConversation s tx spec owner) (T.addConversation owner spec) := by
  unfold Pico.insertConversation Tables.addConversation
  rw [← h.next]
  cases owner with
  | none =>
    dsimp only
    rw [ite_self]
    exact h.conversation rfl (by simp [newConversation]) spec
  | some o =>
    obtain ⟨t, ht, hlive⟩ := howner o rfl
    obtain ⟨hprev, hrow⟩ := h.found hs ht (hcur o rfl)
    have hid : t.id = o := (hw.task o t hrow).1
    have hconv : Tracks s (tx.pushConversation (newConversation T.next (some o) spec) spec) _ :=
      h.conversation rfl (fun o' ho' => by obtain rfl := some.inj ho'; exact ⟨t, hrow, hlive⟩) spec
    have hfound : (liveTask s o).or (createdTask (tx.pushConversation (newConversation T.next (some o) spec) spec) o) = some t := ht
    have hclosed : closed (Tables.own T.next t) = Tables.own T.next t := if_neg hlive
    have hext : Extends t (Tables.own T.next t) := ⟨rfl, rfl, rfl, rfl, rfl, rfl, fun ha => ha, fun ho => ho⟩
    rw [← hid] at hprev
    have hset : Tracks s (setTaskInternal s _ (Tables.own T.next t)) _ :=
      hconv.setTask hs hprev hext (fun hterm => absurd hterm hlive)
    dsimp only
    rw [hseeds rfl, if_neg (by simp), hfound]
    unfold Tables.change
    rw [hrow, map_some]
    rw [hclosed, show (Tables.own T.next t).id = o from hid] at hset
    exact hset

omit hs in
theorem Tracks.newTask (h : Tracks s tx T) {task : Task} (hid : task.id = T.next) (hlive : task.status ≠ .terminal) :
    Tracks s ({ tx with nextIdValue := tx.nextIdValue + 1 }.pushRow (.task task) task)
      { T with rows := update T.rows T.next (some task), next := T.next + 1 } := by
  constructor
  · exact congrArg (· + 1) h.next
  · intro id
    unfold createdTask Tx.pushRow
    dsimp only
    rw [RowMap.get_set, hid]
    by_cases heq : id = T.next
    · subst heq
      rw [if_pos rfl, update_self]
      rfl
    · rw [if_neg heq, update_of_ne heq]
      exact h.overlay id
  · unfold Tx.pushRow
    rw [foldl_append, ← h.rows, ← hid]
    rfl
  · unfold Tx.pushRow
    rw [foldl_append, ← h.conversations]
    rfl
  · have hchg : applyChanges s ({ tx with nextIdValue := tx.nextIdValue + 1 }.pushRow (.task task) task) =
        applyTaskChange (applyChanges s tx) task := applyChanges_task rfl rfl
    rw [hchg, ← hid]
    have hrow : Coherent (applyTaskChange (applyChanges s tx) task) _ :=
      h.coherent.row fun hterm => absurd hterm hlive
    exact ⟨hrow.live, hrow.distinct, hrow.records, hrow.owners⟩

end Operations

/-! ## Whole transactions -/

/-- The task whose live row an operation spreads. -/
def TxOp.readsLive (invoker : Invoker) : TxOp → Option Nat
  | .createConversation _ => invoker.taskId?
  | .createOwnedConversation owner _ _ => some owner
  | .setTask .live id _ => some id
  | _ => none

/-- The operation does not read the live row of a task that the transaction has written. -/
def ReadsCurrent (s : Session) (tx : Tx) (op : TxOp) : Prop :=
  ∀ id ∈ op.readsLive tx.invoker, (liveTask s id).isSome → createdTask tx id = none

/-- A conversation that gets an owner has a configuration that is accepted. -/
def OwnsSeeded (tx : Tx) (op : TxOp) : Prop := (op.owner tx.invoker).isSome → op.seeds = .valid

/-- None of the operations reads a row that the transaction has written, or gives a task a
conversation that is refused. -/
def AllCurrent (s : Session) : Tx → List TxOp → Prop
  | _, [] => True
  | tx, op :: ops => (ReadsCurrent s tx op ∧ OwnsSeeded tx op) ∧
    match tx.apply s op with
    | .ok tx' => AllCurrent s tx' ops
    | .error _ => True

instance (s : Session) (tx : Tx) (op : TxOp) : Decidable (ReadsCurrent s tx op) :=
  inferInstanceAs (Decidable (∀ id ∈ op.readsLive tx.invoker, _))

instance (tx : Tx) (op : TxOp) : Decidable (OwnsSeeded tx op) :=
  inferInstanceAs (Decidable ((op.owner tx.invoker).isSome → op.seeds = .valid))

instance decidableAllCurrent (s : Session) : (tx : Tx) → (ops : List TxOp) → Decidable (AllCurrent s tx ops)
  | _, [] => .isTrue trivial
  | tx, op :: ops =>
    haveI : Decidable (match tx.apply s op with | .ok tx' => AllCurrent s tx' ops | .error _ => True) :=
      match tx.apply s op with
      | .ok tx' => decidableAllCurrent s tx' ops
      | .error _ => .isTrue trivial
    inferInstanceAs (Decidable (_ ∧ _))

theorem Update.extends : Extends task (u.apply task) := by
  cases u with
  | running => exact ⟨rfl, rfl, rfl, rfl, rfl, rfl, fun ha => ha, fun ho => ho⟩
  | abort => exact ⟨rfl, rfl, rfl, rfl, rfl, rfl, fun _ => rfl, fun ho => ho⟩
  | terminal outcome => exact ⟨rfl, rfl, rfl, rfl, rfl, rfl, fun ha => ha, fun ho => by cases ho⟩

theorem setTaskInternal_invoker (s : Session) (tx : Tx) (task : Task) : (setTaskInternal s tx task).invoker = tx.invoker := by
  unfold setTaskInternal
  dsimp only
  split <;> rfl

theorem insertConversation_invoker (s : Session) (tx : Tx) (spec : ConversationSpec) (owner : Option Nat) :
    (insertConversation s tx spec owner).invoker = tx.invoker := by
  unfold insertConversation
  dsimp only
  split
  · rfl
  · split
    · rfl
    · split
      · exact setTaskInternal_invoker ..
      · rfl

theorem createTaskInternal_ok {spec : TaskSpec} (h : createTaskInternal s tx spec = .ok tx') :
    ∃ c, spec.conversationId.or tx.invoker.conversationId? = some c ∧
      tx' = { tx with nextIdValue := tx.nextIdValue + 1 }.pushRow (.task (newTask tx.nextIdValue c spec))
        (newTask tx.nextIdValue c spec) := by
  unfold createTaskInternal at h
  split at h
  · cases h
  · split at h
    · cases h
    · split at h
      · cases h
      · rename_i c hc
        obtain ⟨_, -, h⟩ := bind_ok.mp h
        split at h
        · cases h
        · split at h
          · cases h
          · exact ⟨c, hc, (ok.inj h).symm⟩

/-! What the other operations on tasks have found and done when they succeed. -/

theorem createOwnedConversation_ok {owner source : Nat} {spec : ConversationSpec}
    (h : tx.apply s (.createOwnedConversation owner source spec) = .ok tx') :
    tx' = insertConversation s tx spec (some owner) := by
  obtain ⟨_, -, h⟩ := bind_ok.mp h
  split at h
  · cases h
  · split at h
    · cases h
    · exact (ok.inj h).symm

theorem checkpoint_ok {value : Json} (h : tx.apply s (.checkpoint value) = .ok tx') :
    ∃ id current, tx.invoker.taskId? = some id ∧ (createdTask tx id).or (liveTask s id) = some current ∧
      tx' = setTaskInternal s tx { current with checkpoint := some value } := by
  unfold Tx.apply at h
  dsimp only at h
  split at h
  · rename_i id _ _ _ hinv
    split at h
    · cases h
    · split at h
      · cases h
      · rename_i current hprev
        exact ⟨id, current, by rw [hinv]; rfl, hprev, (ok.inj h).symm⟩
  · cases h

theorem markTask_ok (h : tx.apply s (.markTask id) = .ok tx') :
    ∃ task, (createdTask tx id).or (liveTask s id) = some task ∧
      tx' = if task.abort then tx else setTaskInternal s tx { task with abort := true } := by
  obtain ⟨_, -, h⟩ := bind_ok.mp h
  split at h
  · cases h
  · rename_i task hprev
    exact ⟨task, hprev, (ok.inj h).symm⟩

theorem setTask_ok {source : RowSource} {u : Update} (h : tx.apply s (.setTask source id u) = .ok tx') :
    ∃ task, source.row s tx id = some task ∧ task.status ≠ .terminal ∧ tx' = setTaskInternal s tx (u.apply task) := by
  unfold Tx.apply at h
  dsimp only at h
  split at h
  · cases h
  · rename_i task hsrc
    split at h
    · cases h
    · rename_i hlive
      exact ⟨task, hsrc, hlive, (ok.inj h).symm⟩

/-- Where a task that is stored is live, a row that is not the live one is the current one. -/
theorem source_current {source : RowSource} {task : Task} (hsrc : source.row s tx id = some task)
    (hstor : s.storage.tasksById id = some task → (liveTask s id).isSome) :
    source = .live ∧ liveTask s id = some task ∨ (createdTask tx id).or (liveTask s id) = some task := by
  cases source with
  | live => exact .inl ⟨rfl, hsrc⟩
  | task =>
    have hfound : ((createdTask tx id).or (liveTask s id)).or (s.storage.tasksById id) = some task := hsrc
    cases hprev : (createdTask tx id).or (liveTask s id) with
    | some row =>
      rw [hprev] at hfound
      exact .inr hfound
    | none =>
      rw [hprev] at hfound
      have hlive := hstor hfound
      rw [(or_eq_none_iff.mp hprev).2] at hlive
      cases hlive

/-- The owner that an operation finds is not terminal. -/
theorem owner_found (hs : Coherent s s.tables) {op : TxOp}
    (hauthority : ∀ id ∈ tx.invoker.taskId?, (liveTask s id).isSome) (hop : tx.apply s op = .ok tx') :
    ∀ o ∈ op.owner tx.invoker, ∃ t, (liveTask s o).or (createdTask tx o) = some t ∧ t.status ≠ .terminal := by
  intro o ho
  cases op with
  | createConversation spec =>
    obtain ⟨t, ht⟩ := isSome_iff_exists.mp (hauthority o ho)
    exact ⟨t, by rw [ht]; rfl, (live_isSome hs ht).2⟩
  | createOwnedConversation owner source spec =>
    obtain rfl := some.inj ho
    obtain ⟨_, -, hop⟩ := bind_ok.mp hop
    split at hop
    · cases hop
    · rename_i t ht
      refine ⟨t, ht, fun hterm => ?_⟩
      rw [if_pos (by simp [hterm])] at hop
      cases hop
  | _ => cases ho

section Transaction

variable {T : Tables} (hs : Coherent s s.tables)

include hs

omit hs in
/-- Other records are not the tables' business. -/
theorem Tracks.record (h : Tracks s tx T) {w : Write} (htask : ∀ rows, taskWrite rows w = rows)
    (hconversation : ∀ conversations, conversationWrite conversations w = conversations) :
    Tracks s { tx with writes := tx.writes ++ [w] } T := by
  constructor
  · exact h.next
  · exact h.overlay
  · dsimp only
    rw [foldl_append, foldl_cons, foldl_nil, htask, ← h.rows]
  · dsimp only
    rw [foldl_append, foldl_cons, foldl_nil, hconversation, ← h.conversations]
  · exact h.coherent

omit hs in
theorem Tracks.mint (h : Tracks s tx T) :
    Tracks s { tx with nextIdValue := tx.nextIdValue + 1 } { T with next := T.next + 1 } := by
  refine ⟨congrArg (· + 1) h.next, h.overlay, h.rows, h.conversations, ?_⟩
  exact ⟨h.coherent.live, h.coherent.distinct, h.coherent.records, h.coherent.owners⟩

theorem Tracks.checkpoint (h : Tracks s tx T) (hw : T.WellOwned) {value : Json} (hop : tx.apply s (.checkpoint value) = .ok tx') :
    Tracks s tx' (T.apply tx.invoker (.checkpoint value)) ∧ tx'.invoker = tx.invoker := by
  obtain ⟨id, current, hinv, hprev, rfl⟩ := checkpoint_ok hop
  refine ⟨?_, setTaskInternal_invoker ..⟩
  unfold Tables.apply
  rw [hinv]
  exact h.change (f := fun task => { task with checkpoint := some value }) hs hw hprev
    ⟨rfl, rfl, rfl, rfl, rfl, rfl, fun ha => ha, fun ho => ho⟩ rfl

theorem Tracks.markTask (h : Tracks s tx T) (hw : T.WellOwned) {id : Nat} (hop : tx.apply s (.markTask id) = .ok tx') :
    Tracks s tx' (T.apply tx.invoker (.markTask id)) ∧ tx'.invoker = tx.invoker := by
  obtain ⟨task, hprev, rfl⟩ := markTask_ok hop
  have hrow := h.current hs hprev
  unfold Tables.apply Tables.change
  dsimp only
  rw [hrow, map_some]
  cases habort : task.abort with
  | true =>
    rw [if_pos rfl, if_pos rfl, ← hrow, update_eq_self]
    exact ⟨h, rfl⟩
  | false =>
    rw [if_neg Bool.false_ne_true, if_neg Bool.false_ne_true]
    refine ⟨?_, setTaskInternal_invoker ..⟩
    have hset := h.change (f := fun task => { task with abort := true }) hs hw hprev
      ⟨rfl, rfl, rfl, rfl, rfl, rfl, fun _ => rfl, fun ho => ho⟩ rfl
    unfold Tables.change at hset
    rw [hrow] at hset
    exact hset

/-- The row that the kernel spreads is the current one. -/
theorem source_row {source : RowSource} {id : Nat} {u : Update} {task : Task}
    (hcur : ReadsCurrent s tx (.setTask source id u)) (hsrc : source.row s tx id = some task)
    (hlive : task.status ≠ .terminal) : (createdTask tx id).or (liveTask s id) = some task := by
  -- a task that is in the storage and not terminal is live
  have hstor : s.storage.tasksById id = some task → (liveTask s id).isSome := fun hfound => by
    have hrow : s.tables.rows id = some task := hfound
    rw [hs.live, hrow]
    simp [Live, hlive]
  rcases source_current hsrc hstor with ⟨rfl, hl⟩ | hprev
  · rw [hcur id rfl (by rw [hl]; rfl)]
    exact hl
  · exact hprev

variable (h : Tracks s tx T)
include h

variable (hw : T.WellOwned)
include hw

theorem Tracks.update {source : RowSource} {id : Nat} {u : Update}
    (hcur : ReadsCurrent s tx (.setTask source id u)) (hop : tx.apply s (.setTask source id u) = .ok tx') :
    Tracks s tx' (T.apply tx.invoker (.setTask source id u)) ∧ tx'.invoker = tx.invoker := by
  obtain ⟨task, hsrc, hlive, rfl⟩ := setTask_ok hop
  refine ⟨?_, setTaskInternal_invoker ..⟩
  exact h.change (f := u.apply) hs hw (source_row hs hcur hsrc hlive) (u.extends task) (u.apply_owns task)

/-- An operation that reads current rows and is not refused does what it is to do. -/
theorem Tracks.apply {op : TxOp}
    (hauthority : ∀ id ∈ tx.invoker.taskId?, (liveTask s id).isSome) (hcur : ReadsCurrent s tx op) (hseeds : OwnsSeeded tx op)
    (hop : tx.apply s op = .ok tx') : Tracks s tx' (T.apply tx.invoker op) ∧ tx'.invoker = tx.invoker := by
  have hfound := owner_found hs hauthority hop
  cases op with
  | createTask byName spec =>
    obtain ⟨_, -, hop⟩ := bind_ok.mp hop
    obtain ⟨c, hc, rfl⟩ := createTaskInternal_ok hop
    refine ⟨?_, rfl⟩
    unfold Tables.apply
    dsimp only
    rw [hc, ← h.next]
    have hpending : (Pico.newTask T.next c spec).status ≠ .terminal := by simp [Pico.newTask]
    have hid : (Pico.newTask T.next c spec).id = T.next := rfl
    have htracks := h.newTask hid hpending
    rw [← h.next] at htracks
    exact htracks
  | createConversation spec =>
    obtain ⟨_, -, hop⟩ := bind_ok.mp hop
    obtain rfl := ok.inj hop
    exact ⟨h.insertConversation hs hw spec hseeds hfound hcur, insertConversation_invoker ..⟩
  | createForkConversation spec =>
    obtain ⟨_, -, hop⟩ := bind_ok.mp hop
    obtain rfl := ok.inj hop
    exact ⟨h.insertConversation hs hw spec (by simp) (by simp) (by simp), insertConversation_invoker ..⟩
  | createOwnedConversation owner source spec =>
    obtain rfl := createOwnedConversation_ok hop
    exact ⟨h.insertConversation hs hw spec hseeds hfound hcur, insertConversation_invoker ..⟩
  | checkpoint value => exact h.checkpoint hs hw hop
  | markTask id => exact h.markTask hs hw hop
  | setTask source id u => exact h.update hs hw hcur hop
  | mintId =>
    obtain rfl := ok.inj hop
    exact ⟨h.mint, rfl⟩
  | appendEntry | putInput | doc =>
    obtain rfl := ok.inj hop
    exact ⟨h.record (fun _ => rfl) (fun _ => rfl), rfl⟩

/-- A transaction whose operations read current rows does what they are to do, one after the other. -/
theorem Tracks.run {ops : List TxOp}
    (hauthority : ∀ id ∈ tx.invoker.taskId?, (liveTask s id).isSome) (hcur : AllCurrent s tx ops)
    (hrun : tx.run s ops = .ok tx') :
    Tracks s tx' (T.run tx.invoker ops) ∧ (T.run tx.invoker ops).WellOwned ∧ T.OwnsGrow (T.run tx.invoker ops) := by
  induction ops generalizing tx T with
  | nil =>
    obtain rfl := ok.inj hrun
    exact ⟨h, hw, Tables.OwnsGrow.refl T⟩
  | cons op ops ih =>
    obtain ⟨tx₁, hop, hrun⟩ := bind_ok.mp hrun
    have howner : ∀ o ∈ op.owner tx.invoker, (T.rows o).isSome := by
      intro o ho
      obtain ⟨t, ht, -⟩ := owner_found hs hauthority hop o ho
      rw [h.overlay]
      cases hmade : createdTask tx o with
      | some created => rfl
      | none =>
        rw [hmade, or_none] at ht
        have hstor : s.storage.tasksById o = some t := (live_isSome hs ht).1
        rw [hstor]
        rfl
    obtain ⟨h₁, hinvoker⟩ := h.apply hs hw hauthority hcur.1.1 hcur.1.2 hop
    obtain ⟨hw₁, hgrow₁⟩ := hw.apply howner
    rw [← hinvoker] at hauthority
    have hrest := hcur.2
    rw [hop] at hrest
    obtain ⟨h', hw', hgrow'⟩ := ih h₁ hw₁ hauthority hrest hrun
    rw [hinvoker] at h' hw' hgrow'
    exact ⟨h', hw', hgrow₁.trans hgrow'⟩

end Transaction

/-- The session's tables are those of its storage, and who owns what is in order. -/
structure SessionInv (s : Session) : Prop where
  owned : s.tables.WellOwned
  coherent : Coherent s s.tables

theorem applyChanges_storage (s : Session) (st : MemoryStorage) (tx : Tx) :
    applyChanges { s with storage := st } tx = { applyChanges s tx with storage := st } := by
  have htasks : ∀ (tasks : List Task) (s : Session), tasks.foldl applyTaskChange { s with storage := st } =
      { tasks.foldl applyTaskChange s with storage := st } := by
    intro tasks
    induction tasks with
    | nil => exact fun _ => rfl
    | cons task tasks ih =>
      intro s
      rw [foldl_cons, foldl_cons, ← ih]
      congr 1
      unfold applyTaskChange
      split <;> rfl
  have hconversations : ∀ (cs : List Conversation) (s : Session), cs.foldl applyConversationChange { s with storage := st } =
      { cs.foldl applyConversationChange s with storage := st } := by
    intro cs
    induction cs with
    | nil => exact fun _ => rfl
    | cons c cs ih =>
      intro s
      exact ih (applyConversationChange s c)
  unfold applyChanges
  rw [htasks, hconversations]

theorem Coherent.congr {T' : Tables} (h : Coherent s T) (hlive : s'.liveTasks = s.liveTasks)
    (hrecs : s'.conversationRecords = s.conversationRecords) (hcache : s'.ownerTaskCache = s.ownerTaskCache)
    (hrows : T'.rows = T.rows) (hconversations : T'.conversations = T.conversations) : Coherent s' T' where
  live := by
    unfold liveTask
    rw [hlive, hrows]
    exact h.live
  distinct := hrecs ▸ h.distinct
  records := by
    rw [hrecs, hconversations]
    exact h.records
  owners := by
    unfold ownerTask liveTask
    rw [hlive, hcache, hrows, hconversations]
    exact h.owners

theorem authority_ok {invoker : Invoker} {u : Unit} (h : assertAuthority s invoker = .ok u) :
    ∀ id ∈ invoker.taskId?, (liveTask s id).isSome := by
  intro id hid
  cases invoker with
  | kernel | host => cases hid
  | task task conversationId core mode =>
    obtain rfl := some.inj hid
    unfold assertAuthority at h
    dsimp only at h
    split at h
    · cases h
    · rename_i live hlive
      rw [hlive]
      rfl

/-- A commit whose operations read current rows leaves the tables that they are to leave. -/
theorem commit_inv {invoker : Invoker} {closing : Bool} {ops : List TxOp} (h : SessionInv s)
    (hcur : AllCurrent s (Tx.start s invoker closing) ops) (hcommit : s.commit invoker closing ops = .ok s') :
    SessionInv s' ∧ s'.storage.tasksById = (s.tables.run invoker ops).rows ∧
      s'.storage.conversationsById = (s.tables.run invoker ops).conversations ∧ s.tables.OwnsGrow s'.tables := by
  obtain ⟨_, hauthority, hcommit⟩ := bind_ok.mp hcommit
  obtain ⟨tx, hrun, hcommit⟩ := bind_ok.mp hcommit
  obtain ⟨htracks, hw, hgrow⟩ :=
    (tracks_start h.coherent invoker closing).run h.coherent h.owned (authority_ok hauthority) hcur hrun
  change Tracks s tx (s.tables.run invoker ops) at htracks
  change (s.tables.run invoker ops).WellOwned at hw
  change s.tables.OwnsGrow (s.tables.run invoker ops) at hgrow
  generalize s.tables.run invoker ops = T at htracks hw hgrow
  -- whatever the new storage, its tables are those of the batch
  have hdone : ∀ (t : Session), t.storage.tasksById = T.rows → t.storage.conversationsById = T.conversations →
      T.next ≤ t.storage.nextIdValue → Coherent t T →
      SessionInv t ∧ t.storage.tasksById = T.rows ∧ t.storage.conversationsById = T.conversations ∧ s.tables.OwnsGrow t.tables := by
    intro t hrows hconversations hnext hcoherent
    have htabs : t.tables = { T with next := t.storage.nextIdValue } := by
      unfold Session.tables
      rw [hrows, hconversations]
    refine ⟨⟨?_, ?_⟩, hrows, hconversations, ?_⟩
    · rw [htabs]
      exact hw.mint hnext
    · exact hcoherent.congr rfl rfl rfl hrows hconversations
    · intro id task htask
      obtain ⟨task', htask', hle⟩ := hgrow id task htask
      exact ⟨task', (congrFun hrows id).trans htask', hle⟩
  dsimp only at hcommit
  split at hcommit
  · rename_i hempty
    obtain rfl := ok.inj hcommit
    have hnil : tx.writes = [] := isEmpty_iff.mp hempty
    have hrows := htracks.rows
    have hconversations := htracks.conversations
    rw [hnil] at hrows hconversations
    refine hdone _ hrows.symm hconversations.symm (Nat.le_of_eq htracks.next) ?_
    exact h.coherent.congr rfl rfl rfl hrows hconversations
  · split at hcommit
    · rename_i st hst
      obtain rfl := ok.inj hcommit
      obtain ⟨htasks, hconversations, hnext⟩ := commit_tables hst
      rw [applyChanges_storage]
      refine hdone _ (htasks.trans htracks.rows.symm) (hconversations.trans htracks.conversations.symm) ?_ ?_
      · exact Nat.le_trans (Nat.le_of_eq htracks.next) hnext
      · exact htracks.coherent.congr rfl rfl rfl rfl rfl
    · cases hcommit

end Shuvpi.Pico
