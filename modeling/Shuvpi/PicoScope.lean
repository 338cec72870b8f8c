import Mathlib.Data.List.Dedup
import Shuvpi.PicoOwnership

/-!
# Sessions that are opened, run and opened again

Every state of a session whose transactions read current rows: who owns what, that it
survives reopening, and that the scope of a task is what it has created. A transaction that
creates two conversations for one task does not read current rows.
-/
namespace Shuvpi.Pico

open Function (update)
open List Option

variable {s s' : Session}

/-! ## Opening a session -/

/-- Rows that stand under their ids, in the order of the ids. -/
theorem get_range {α : Type} (key : α → Nat) {rows : Nat → Option α} {n : Nat} (h : ∀ id r, rows id = some r → key r = id ∧ id < n)
    (p : α → Bool) (id : Nat) : RowMap.get key (((range n).filterMap rows).filter p) id = (rows id).filter p := by
  cases hrow : rows id with
  | none =>
    refine find?_eq_none.mpr fun r hr => ?_
    obtain ⟨i, -, hi⟩ := mem_filterMap.mp (mem_filter.mp hr).1
    obtain ⟨hkey, -⟩ := h i r hi
    simp only [decide_eq_true_eq]
    rintro rfl
    rw [hkey, hi] at hrow
    cases hrow
  | some r =>
    obtain ⟨hkey, hlt⟩ := h id r hrow
    have hmem : r ∈ (range n).filterMap rows := mem_filterMap.mpr ⟨id, mem_range.mpr hlt, hrow⟩
    have hunique : ∀ r' ∈ (range n).filterMap rows, key r' = id → r' = r := by
      intro r' hr' hid
      obtain ⟨i, -, hi⟩ := mem_filterMap.mp hr'
      obtain ⟨hkey', -⟩ := h i r' hi
      rw [← hkey', hid] at hi
      exact some.inj (hi.symm.trans hrow)
    by_cases hp : p r = true
    · have hfilter : (some r).filter p = some r := by simp [hp]
      rw [hfilter]
      cases hget : RowMap.get key (((range n).filterMap rows).filter p) id with
      | none =>
        have := find?_eq_none.mp hget r (mem_filter.mpr ⟨hmem, hp⟩)
        simp [hkey] at this
      | some r' =>
        rw [hunique r' (mem_filter.mp (mem_of_find?_eq_some hget)).1 (RowMap.get_key key hget)]
    · have hfilter : (some r).filter p = none := by simp [hp]
      rw [hfilter]
      refine find?_eq_none.mpr fun r' hr' => ?_
      obtain ⟨hr', hp'⟩ := mem_filter.mp hr'
      simp only [decide_eq_true_eq]
      intro hid
      rw [hunique r' hr' hid] at hp'
      exact hp hp'

theorem distinct_range {α : Type} (key : α → Nat) {rows : Nat → Option α} (h : ∀ id r, rows id = some r → key r = id) (n : Nat) :
    RowMap.Distinct key ((range n).filterMap rows) := by
  unfold RowMap.Distinct
  rw [map_filterMap]
  have hsub : ((range n).filterMap fun id => (rows id).map key).Sublist (range n) := by
    induction range n with
    | nil => exact .slnil
    | cons i ids ih =>
      rw [filterMap_cons]
      cases hrow : rows i with
      | none => exact ih.cons _
      | some r =>
        rw [map_some, h i r hrow]
        exact ih.cons_cons _
  exact hsub.nodup nodup_range

/-- Opening a storage whose owners are in order. -/
theorem init_inv {storage : MemoryStorage} {kinds : List String} (h : (Session.init storage kinds).tables.WellOwned) :
    SessionInv (Session.init storage kinds) := by
  have hlive : ∀ id, liveTask (Session.init storage kinds) id = (storage.tasksById id).filter Live :=
    fun id => get_range Task.id h.task Live id
  have hrecs : ∀ id, RowMap.get Conversation.id (Session.init storage kinds).conversationRecords id =
      storage.conversationsById id := by
    intro id
    have hget := get_range Conversation.id h.conversation (fun _ => true) id
    rw [filter_true] at hget
    refine hget.trans ?_
    change (storage.conversationsById id).filter _ = _
    cases storage.conversationsById id <;> rfl
  refine ⟨h, ⟨hlive, distinct_range Conversation.id (fun id c hc => (h.conversation id c hc).1) _, hrecs, ?_⟩⟩
  intro c conv o hc ho
  obtain ⟨t, ht, -⟩ := (h.owned c o).mp ⟨conv, hc, ho⟩
  refine ⟨t, ht, ?_⟩
  have hstor : storage.tasksById o = some t := ht
  unfold ownerTask
  rw [hlive, hstor]
  by_cases hterm : t.status = .terminal
  · -- a terminal owner is read from the storage
    have hgone : o ∈ storage.retiredOwners := by
      have hmem : conv ∈ storage.conversations :=
        mem_filterMap.mpr ⟨c, mem_range.mpr (h.conversation c conv hc).2, hc⟩
      refine mem_filter.mpr ⟨mem_dedup.mpr (mem_filterMap.mpr ⟨conv, hmem, ho⟩), ?_⟩
      change (liveTask (Session.init storage kinds) o).isNone = true
      rw [hlive, hstor]
      simp [Live, hterm]
    have hcache : t ∈ (Session.init storage kinds).ownerTaskCache := mem_filterMap.mpr ⟨o, hgone, hstor⟩
    have hfilter : (some t).filter Live = none := by simp [Live, hterm]
    rw [hfilter, none_or]
    cases hget : RowMap.get Task.id (Session.init storage kinds).ownerTaskCache o with
    | none =>
      have hne := find?_eq_none.mp hget t hcache
      simp [(h.task o t ht).1] at hne
    | some t' =>
      have hid : t'.id = o := RowMap.get_key Task.id hget
      obtain ⟨i, -, hi⟩ := mem_filterMap.mp (mem_of_find?_eq_some hget)
      have hio : i = o := (h.task i t' hi).1.symm.trans hid
      rw [hio, hstor] at hi
      exact hi.symm
  · have hfilter : (some t).filter Live = some t := by simp [Live, hterm]
    rw [hfilter]
    rfl

/-! ## The scope of a task -/

theorem mem_edges (h : SessionInv s) {child parent : Nat} :
    Saturation.Child (s.conversationRecords.filterMap (ownerEdge s)) parent child ↔
      ∃ conv o t, s.tables.conversations child = some conv ∧ conv.owner = some o ∧ s.tables.rows o = some t ∧
        t.conversationId = parent := by
  unfold Saturation.Child
  rw [mem_filterMap]
  constructor
  · rintro ⟨conv, hmem, hedge⟩
    unfold ownerEdge at hedge
    obtain ⟨t, ht, heq⟩ := map_eq_some_iff.mp hedge
    obtain ⟨o, ho, hfound⟩ := bind_eq_some_iff.mp ht
    obtain ⟨hchild, hparent⟩ := Prod.mk.inj heq
    have hconv : s.tables.conversations child = some conv := by
      rw [← h.coherent.records, ← hchild]
      exact (RowMap.mem_iff_get Conversation.id h.coherent.distinct).mp hmem
    obtain ⟨t', ht', hfound'⟩ := h.coherent.owners child conv o hconv ho
    obtain rfl := some.inj (hfound.symm.trans hfound')
    exact ⟨conv, o, t, hconv, ho, ht', hparent⟩
  · rintro ⟨conv, o, t, hconv, ho, ht, hparent⟩
    have hid : conv.id = child := (h.owned.conversation child conv hconv).1
    obtain ⟨t', ht', hfound⟩ := h.coherent.owners child conv o hconv ho
    obtain rfl := some.inj (ht.symm.trans ht')
    refine ⟨conv, ?_, ?_⟩
    · rw [RowMap.mem_iff_get Conversation.id h.coherent.distinct, h.coherent.records, hid, hconv]
    · unfold ownerEdge
      rw [ho, bind_some, hfound, map_some, hid, hparent]

/-- The trees below what a task owns are what it has created. -/
theorem mem_subtree (h : SessionInv s) {id c : Nat} {t : Task} (ht : s.tables.rows id = some t) :
    (∃ root ∈ t.owns, c ∈ subtree s root) ↔ s.tables.CreatedBy id c := by
  unfold subtree
  constructor
  · rintro ⟨root, hroot, hmem⟩
    obtain ⟨conv, hconv, ho⟩ := (h.owned.owned root id).mpr ⟨t, ht, hroot⟩
    have hreach := Saturation.mem_saturate.mp hmem
    clear hmem
    induction hreach with
    | refl => exact .own hconv ho
    | tail _ hchild ih =>
      obtain ⟨conv', o, t', hconv', ho', ht', hparent⟩ := (mem_edges h).mp hchild
      exact .nested hconv' ho' ht' (hparent ▸ ih)
  · intro hmade
    induction hmade with
    | own hc ho =>
      obtain ⟨t', ht', hmem⟩ := (h.owned.owned _ id).mp ⟨_, hc, ho⟩
      obtain rfl := some.inj (ht.symm.trans ht')
      exact ⟨_, hmem, Saturation.mem_saturate.mpr .refl⟩
    | nested hc ho ht' _ ih =>
      obtain ⟨root, hroot, hmem⟩ := ih
      exact ⟨root, hroot, Saturation.mem_saturate.mpr
        ((Saturation.mem_saturate.mp hmem).tail ((mem_edges h).mpr ⟨_, _, _, hc, ho, ht', rfl⟩))⟩

/-- The scope of an ordinary task is its own conversation and what it has created. -/
def Scoped (s : Session) : Prop := ∀ id task mode closing c, liveTask s id = some task →
    (inScope s (Tx.start s (.task id task.conversationId false mode) closing) c = true ↔
      c = task.conversationId ∨ s.tables.CreatedBy id c)

theorem SessionInv.scoped (h : SessionInv s) : Scoped s := by
  intro id task mode closing c hlive
  rw [← mem_subtree h (live_isSome h.coherent hlive).1]
  change (if (decide (c = task.conversationId) || false) = true then true
    else ((liveTask s id).elim [] Task.owns).any fun root => (subtree s root).contains c) = true ↔ _
  rw [hlive, Bool.or_false]
  by_cases hown : c = task.conversationId
  · simp [hown]
  · simp [hown]

/-! ## Runs -/

/-- The steps of a session, with a condition on its transactions. A transaction that fails may have minted ids; the next
id after reopening is after those that are stored. -/
inductive SessionStep (P : Session → Invoker → Bool → List TxOp → Prop) : Session → Session → Prop
  | commit {s s' : Session} (invoker : Invoker) (closing : Bool) (ops : List TxOp) (hP : P s invoker closing ops)
      (h : s.commit invoker closing ops = .ok s') : SessionStep P s s'
  | failed {s : Session} (n : Nat) (hn : s.storage.nextIdValue ≤ n) :
      SessionStep P s { s with storage := { s.storage with nextIdValue := n } }
  | reopen {s : Session} (kinds : List String) (n : Nat) (htasks : ∀ id, (s.storage.tasksById id).isSome → id < n)
      (hconversations : ∀ id, (s.storage.conversationsById id).isSome → id < n) :
      SessionStep P s (Session.init { s.storage with nextIdValue := n } kinds)

/-- The states of a session that is opened on an empty storage. -/
def IsSession (P : Session → Invoker → Bool → List TxOp → Prop) (s : Session) : Prop :=
  ∃ kinds, Relation.ReflTransGen (SessionStep P) (Session.init .empty kinds) s

/-- The condition that the operations of a transaction read current rows and that its owned conversations are not refused. -/
def CurrentTx (s : Session) (invoker : Invoker) (closing : Bool) (ops : List TxOp) : Prop :=
  AllCurrent s (Tx.start s invoker closing) ops

theorem wellOwned_empty (kinds : List String) : (Session.init .empty kinds).tables.WellOwned where
  task := fun _ _ h => by cases h
  conversation := fun _ _ h => by cases h
  owned := by
    intro c o
    constructor
    · rintro ⟨_, h, -⟩
      cases h
    · rintro ⟨_, h, -⟩
      cases h

theorem SessionStep.inv (h : SessionInv s) (hstep : SessionStep CurrentTx s s') : SessionInv s' := by
  cases hstep with
  | commit invoker closing ops hP hcommit => exact (commit_inv h hP hcommit).1
  | failed n hn => exact ⟨h.owned.mint hn, h.coherent.congr rfl rfl rfl rfl rfl⟩
  | reopen kinds n htasks hconversations =>
    refine init_inv ⟨fun id t ht => ⟨(h.owned.task id t ht).1, htasks id ?_⟩,
      fun id c hc => ⟨(h.owned.conversation id c hc).1, hconversations id ?_⟩, h.owned.owned⟩
    · exact isSome_iff_exists.mpr ⟨t, ht⟩
    · exact isSome_iff_exists.mpr ⟨c, hc⟩

theorem IsSession.inv (h : IsSession CurrentTx s) : SessionInv s := by
  obtain ⟨kinds, hrun⟩ := h
  induction hrun with
  | refl => exact init_inv (wellOwned_empty kinds)
  | tail _ hstep ih => exact hstep.inv ih

/-- In a session whose transactions read current rows and go on after no owned conversation that was refused, a
conversation has an owner just when that task lists it, the scope of a task is what it has created, and a commit leaves
every row as its operations, one after the other, are to leave it, with what tasks own only growing. -/
theorem ownership_of_current (h : IsSession CurrentTx s) :
    (∀ c o, (∃ conv, s.storage.conversationsById c = some conv ∧ conv.owner = some o) ↔
        ∃ t, s.storage.tasksById o = some t ∧ c ∈ t.owns) ∧
      Scoped s ∧
      ∀ invoker closing ops s', CurrentTx s invoker closing ops → s.commit invoker closing ops = .ok s' →
        s'.storage.tasksById = (s.tables.run invoker ops).rows ∧
          s'.storage.conversationsById = (s.tables.run invoker ops).conversations ∧ s.tables.OwnsGrow s'.tables := by
  have hinv := h.inv
  refine ⟨hinv.owned.owned, hinv.scoped, fun invoker closing ops s' hcurrent hcommit => ?_⟩
  exact (commit_inv hinv hcurrent hcommit).2

/-! ### A task with conversations -/

def Session.after (s : Session) (invoker : Invoker) (ops : List TxOp) : Session := (s.commit invoker false ops).toOption.getD s

theorem session_after {invoker : Invoker} {ops : List TxOp} (h : (s.commit invoker false ops).isOk) :
    s.commit invoker false ops = .ok (s.after invoker ops) := by
  unfold Session.after
  cases hcommit : s.commit invoker false ops with
  | error e => rw [hcommit] at h; cases h
  | ok s' => rfl

/-- Conversation 1 and a running task 2 in it. -/
def jobSession : Session := (((Session.init .empty ["job"]).after .kernel [.createConversation {}]).after .kernel
    [.createTask true { kind := "job", input := .null, conversationId := some 1 }]).after .kernel [.setTask .live 2 .running]

def jobInvoker : Invoker := .task 2 1 false .run

theorem isSession_job {P : Session → Invoker → Bool → List TxOp → Prop}
    (hP : ∀ s invoker closing op, invoker = .kernel → op.seeds = .valid → P s invoker closing [op]) : IsSession P jobSession := by
  have hkernel : ∀ {s : Session} {op : TxOp}, op.seeds = .valid → IsSession P s → (s.commit .kernel false [op]).isOk →
      IsSession P (s.after .kernel [op]) := by
    rintro s op hseeds ⟨kinds, hrun⟩ hok
    exact ⟨kinds, hrun.tail (.commit .kernel false [op] (hP s .kernel false op rfl hseeds) (session_after hok))⟩
  refine hkernel rfl (hkernel rfl (hkernel rfl ⟨["job"], .refl⟩ ?_) ?_) ?_
  · decide
  · decide
  · decide

theorem currentTx_kernel (s : Session) (invoker : Invoker) (closing : Bool) (op : TxOp) (hkernel : invoker = .kernel)
    (hseeds : op.seeds = .valid) : CurrentTx s invoker closing [op] := by
  subst hkernel
  refine ⟨⟨fun id _ _ => rfl, fun _ => hseeds⟩, ?_⟩
  cases (Tx.start s .kernel closing).apply s op with
  | ok | error => trivial

/-- A task that creates one conversation in a transaction. -/
theorem ownership_of_current_job :
    IsSession CurrentTx (jobSession.after jobInvoker [.createConversation {}, .checkpoint .null]) ∧
      ∃ t, (jobSession.after jobInvoker [.createConversation {}, .checkpoint .null]).storage.tasksById 2 = some t ∧ 3 ∈ t.owns := by
  have hok : (jobSession.commit jobInvoker false [.createConversation {}, .checkpoint .null]).isOk := by decide
  have hcurrent : AllCurrent jobSession (Tx.start jobSession jobInvoker false) [.createConversation {}, .checkpoint .null] := by
    decide
  have hsession : IsSession CurrentTx (jobSession.after jobInvoker [.createConversation {}, .checkpoint .null]) := by
    obtain ⟨kinds, hrun⟩ := isSession_job currentTx_kernel
    exact ⟨kinds, hrun.tail (.commit jobInvoker false _ hcurrent (session_after hok))⟩
  have howner : (jobSession.after jobInvoker [.createConversation {}, .checkpoint .null]).storage.conversationsById 3 =
      some { id := 3, owner := some 2 } := by decide
  exact ⟨hsession, ((ownership_of_current hsession).1 3 2).mp ⟨_, howner, rfl⟩⟩

/-- A task that creates two in one transaction: both have it as owner, and it lists the second one only. -/
theorem ownership_lost : ∃ s, IsSession (fun _ _ _ _ => True) s ∧
      ¬∀ c o, (∃ conv, s.storage.conversationsById c = some conv ∧ conv.owner = some o) ↔
        ∃ t, s.storage.tasksById o = some t ∧ c ∈ t.owns := by
  have hok : (jobSession.commit jobInvoker false [.createConversation {}, .createConversation {}]).isOk := by decide
  obtain ⟨kinds, hrun⟩ := isSession_job (P := fun _ _ _ _ => True) (fun _ _ _ _ _ _ => trivial)
  refine ⟨_, ⟨kinds, hrun.tail (.commit jobInvoker false _ trivial (session_after hok))⟩, fun howned => ?_⟩
  have hconversation : (jobSession.after jobInvoker [.createConversation {}, .createConversation {}]).storage.conversationsById 3 =
      some { id := 3, owner := some 2 } := by decide
  have hrow : ((jobSession.after jobInvoker [.createConversation {}, .createConversation {}]).storage.tasksById 2).map Task.owns =
      some [4] := by decide
  obtain ⟨t, ht, hmem⟩ := (howned 3 2).mp ⟨_, hconversation, rfl⟩
  rw [ht, Option.map_some, Option.some_inj] at hrow
  rw [hrow] at hmem
  simp at hmem

end Shuvpi.Pico
