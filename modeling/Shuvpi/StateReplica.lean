import Shuvpi.DeltaApply
import Shuvpi.JsSet

/-!
# The replica of a replicated state

`ReplicatedStateReplica` of `chord/services`. A run is a sequence of steps on the
replica and on the deliveries in progress. A delivery to all listeners is a loop over
the live listener set; it is on the stack while it runs, and the listener it has just
called may take any further step before the loop goes on (`next`). So the steps of a
listener and the steps of the world outside are the same steps, and every reentrant
run of the source is a run here. Listeners and their order of subscription are kept
exactly; a listener is a number. Errors that a listener throws are reported and change
nothing, so they do not appear.

`#deliverAll` fixes the delivery record before the loop and reads the value anew for
every listener. The two belong together as long as the replica does not change while
a listener is still to be served, and come apart as soon as it does.
-/
namespace Shuvpi.StateReplica

open Delta

mutual
/-- Every number is finite: the check of `JsonRevisionStore.adopt` on a JSON tree. -/
def isStrict : Json → Bool
  | .number x => x.isFinite
  | .array items => itemsStrict items
  | .object props => propsStrict props
  | _ => true

def itemsStrict : List Json → Bool
  | [] => true
  | value :: items => isStrict value && itemsStrict items

def propsStrict : List (JsString × Json) → Bool
  | [] => true
  | (_, value) :: props => isStrict value && propsStrict props
end

inductive ReplicaError where
  | error (message : String)
  | delta (cause : DeltaError)

def adopt : Option Json → Except ReplicaError Json
  | some value => if isStrict value then .ok value else .error (.error "Replicated state values must be strict JSON")
  | none => .error (.error "Replicated state values must be strict JSON")

/-- `this.#store.adopt(applyImmutable(value, ops))` -/
def applied (value : Option Json) (ops : List Op) : Except ReplicaError Json :=
  match applyImmutable value ops with
  | .ok next => adopt next
  | .error e => .error (.delta e)

structure ReplicatedStateReplica where
  listeners : JsSet Nat
  value : Option Json
  sequence : Option Nat

inductive DeliveryKind where
  | hydrate
  | update
  deriving DecidableEq, Repr

/-- A `#deliverAll` in progress: its delivery record, and how far its loop over the
listeners has come. `revision` counts the changes of the replica up to its own. -/
structure Delivery where
  kind : DeliveryKind
  sequence : Nat
  cursor : Nat
  revision : Nat

/-- What can be observed, newest first. -/
inductive Event where
  /-- The replica takes on a revision. -/
  | commit (sequence : Nat) (value : Json)
  | delivered (listener : Nat) (kind : DeliveryKind) (sequence : Nat) (value : Option Json)
  /-- `update` throws, leaving these fields behind. -/
  | rejected (value : Option Json) (sequence : Option Nat)

structure Run where
  replica : ReplicatedStateReplica
  stack : List Delivery
  revisions : Nat
  trace : List Event

def start : Run := ⟨⟨JsSet.empty, none, none⟩, [], 0, []⟩

/-! ## Steps -/

inductive Step where
  | hydrate (sequence : Nat) (ops : List Op)
  | update (sequence : Nat) (ops : List Op)
  | clear
  | subscribe (listener : Nat)
  | unsubscribe (listener : Nat)
  /-- The listener called last returns; the innermost delivery goes on. -/
  | next

def Run.clear (c : Run) : Run :=
  { c with replica := { c.replica with value := none, sequence := none }, revisions := c.revisions + 1 }

/-- The new revision is stored and its delivery begins. -/
def Run.commit (c : Run) (kind : DeliveryKind) (sequence : Nat) (next : Json) : Run where
  replica := { c.replica with value := some next, sequence := some sequence }
  stack := ⟨kind, sequence, 0, c.revisions + 1⟩ :: c.stack
  revisions := c.revisions + 1
  trace := .commit sequence next :: c.trace

def Run.reject (c : Run) : Run := { c with trace := .rejected c.replica.value c.replica.sequence :: c.trace }

def hydratedValue (ops : List Op) : Except ReplicaError Json :=
  if isBase ops then applied none ops
  else .error (.error "Replicated state snapshot is not a base operation batch")

def Run.hydrate (c : Run) (sequence : Nat) (ops : List Op) : Run :=
  match hydratedValue ops with
  | .error _ => c.clear
  | .ok next => c.commit .hydrate sequence next

def Run.update (c : Run) (sequence : Nat) (ops : List Op) : Run :=
  match c.replica.sequence, c.replica.value with
  | some current, some value =>
    if sequence ≠ current + 1 then c.clear.reject
    else
      match applied (some value) ops with
      | .error _ => c.clear.reject
      | .ok next => c.commit .update sequence next
  | _, _ => c.reject

def Run.subscribe (c : Run) (listener : Nat) : Run :=
  let c := { c with replica := { c.replica with listeners := c.replica.listeners.add listener } }
  match c.replica.value with
  | none => c
  | some value =>
    { c with trace := .delivered listener .hydrate (c.replica.sequence.getD 0) (some value) :: c.trace }

def Run.unsubscribe (c : Run) (listener : Nat) : Run :=
  { c with replica := { c.replica with listeners := c.replica.listeners.delete listener } }

/-- The loop of `#deliverAll`: the value is read again for every listener. -/
def Run.next (c : Run) : Run :=
  match c.stack with
  | [] => c
  | d :: rest =>
    match c.replica.listeners.nextFrom d.cursor with
    | none => { c with stack := rest }
    | some (stamp, listener) =>
      { c with
        stack := { d with cursor := stamp + 1 } :: rest
        trace := .delivered listener d.kind d.sequence c.replica.value :: c.trace }

def Run.step (c : Run) : Step → Run
  | .hydrate sequence ops => c.hydrate sequence ops
  | .update sequence ops => c.update sequence ops
  | .clear => c.clear
  | .subscribe listener => c.subscribe listener
  | .unsubscribe listener => c.unsubscribe listener
  | .next => c.next

def Run.steps (c : Run) (steps : List Step) : Run := steps.foldl Run.step c

/-! ## What listeners must see -/

/-- The value of the revision with a sequence: the latest one committed under it. -/
def revisionAt : List Event → Nat → Option Json
  | [], _ => none
  | .commit q v :: trace, sequence => if q = sequence then some v else revisionAt trace sequence
  | _ :: trace, sequence => revisionAt trace sequence

/-- The sequence that a listener was handed last. -/
def lastReceived : List Event → Nat → Option Nat
  | [], _ => none
  | .delivered l _ q _ :: trace, listener => if l = listener then some q else lastReceived trace listener
  | _ :: trace, listener => lastReceived trace listener

/-- A value belongs to the revision with the sequence handed out beside it; an update
has a greater sequence than whatever its listener was handed before, so that the
sequences of a listener increase from one hydration to the next; and a rejected update
leaves neither a value nor a sequence. -/
def Event.Good (earlier : List Event) : Event → Prop
  | .commit _ _ => True
  | .delivered listener kind sequence value =>
    (∃ v, value = some v ∧ revisionAt earlier sequence = some v) ∧
      (kind = .update → ∀ q, lastReceived earlier listener = some q → q < sequence)
  | .rejected value sequence => value = none ∧ sequence = none

def Consistent : List Event → Prop
  | [] => True
  | event :: earlier => event.Good earlier ∧ Consistent earlier

/-! ## When they do -/

/-- No delivery in progress has a listener left to serve. -/
def Run.AllServed (c : Run) : Prop := ∀ d ∈ c.stack, c.replica.listeners.nextFrom d.cursor = none

/-- The replica is changed only when every delivery in progress has served its
listeners, and a listener that a delivery in progress will come to is subscribed only
when that delivery hands out a hydration that is still current. -/
def Run.Allowed (c : Run) : Step → Prop
  | .hydrate _ _ => c.AllServed
  | .update _ _ => c.replica.sequence = none ∨ c.AllServed
  | .clear => c.AllServed
  | .subscribe listener => ∀ d ∈ c.stack, ∀ p ∈ (c.replica.listeners.add listener).entries,
    p.2 = listener → d.cursor ≤ p.1 → d.kind = .hydrate ∧ d.revision = c.revisions
  | .unsubscribe _ => True
  | .next => True

def Run.AllAllowed (c : Run) : List Step → Prop
  | [] => True
  | step :: steps => c.Allowed step ∧ (c.step step).AllAllowed steps

instance (c : Run) : Decidable c.AllServed :=
  inferInstanceAs (Decidable (∀ d ∈ c.stack, c.replica.listeners.nextFrom d.cursor = none))

instance (c : Run) (step : Step) : Decidable (c.Allowed step) :=
  match step with
  | .hydrate _ _ => inferInstanceAs (Decidable c.AllServed)
  | .update _ _ => inferInstanceAs (Decidable (c.replica.sequence = none ∨ c.AllServed))
  | .clear => inferInstanceAs (Decidable c.AllServed)
  | .subscribe listener =>
    inferInstanceAs (Decidable (∀ d ∈ c.stack, ∀ p ∈ (c.replica.listeners.add listener).entries,
      p.2 = listener → d.cursor ≤ p.1 → d.kind = .hydrate ∧ d.revision = c.revisions))
  | .unsubscribe _ => .isTrue trivial
  | .next => .isTrue trivial

def Run.decideAllAllowed (c : Run) : (steps : List Step) → Decidable (c.AllAllowed steps)
  | [] => .isTrue trivial
  | step :: steps =>
    have := (c.step step).decideAllAllowed steps
    inferInstanceAs (Decidable (c.Allowed step ∧ (c.step step).AllAllowed steps))

instance (c : Run) (steps : List Step) : Decidable (c.AllAllowed steps) := c.decideAllAllowed steps

/-- Some delivery in progress will come to this entry of the listener set. -/
def Run.Owed (c : Run) (p : Nat × Nat) : Prop := ∃ d ∈ c.stack, d.cursor ≤ p.1

/-- The invariant of the runs that keep to these rules. -/
structure Inv (c : Run) : Prop where
  consistent : Consistent c.trace
  together : c.replica.value.isSome = c.replica.sequence.isSome
  current : ∀ v q, c.replica.value = some v → c.replica.sequence = some q → revisionAt c.trace q = some v
  /-- Who is not owed a delivery has the current revision or an earlier one. -/
  served : ∀ p ∈ c.replica.listeners.entries, ¬ c.Owed p → ∀ q, c.replica.sequence = some q →
    ∃ q', lastReceived c.trace p.2 = some q' ∧ q' ≤ q
  newest : ∀ d ∈ c.stack, d.revision ≤ c.revisions
  nested : c.stack.Pairwise fun d d' => d'.revision < d.revision
  /-- Only a delivery of the current revision has listeners left. -/
  idle : ∀ d ∈ c.stack, d.revision = c.revisions ∨ c.replica.listeners.nextFrom d.cursor = none
  fresh : ∀ d ∈ c.stack, d.revision = c.revisions → c.replica.sequence = some d.sequence ∧
    (d.kind = .update → ∀ p ∈ c.replica.listeners.entries, d.cursor ≤ p.1 →
      ∃ q, lastReceived c.trace p.2 = some q ∧ q < d.sequence)

theorem start_inv : Inv start where
  consistent := trivial
  together := rfl
  current := by intro v q h; cases h
  served := by intro p hp; cases hp
  newest := by intro d hd; cases hd
  nested := List.Pairwise.nil
  idle := by intro d hd; cases hd
  fresh := by intro d hd; cases hd

variable {c : Run} {q : Nat}

theorem Inv.value_of_sequence (h : Inv c) (hq : c.replica.sequence = some q) :
    ∃ v, c.replica.value = some v ∧ revisionAt c.trace q = some v := by
  have ht := h.together
  rw [hq, Option.isSome_some, Option.isSome_iff_exists] at ht
  obtain ⟨v, hv⟩ := ht
  exact ⟨v, hv, h.current v q hv hq⟩

theorem not_owed_of_allServed (hall : c.AllServed) {p : Nat × Nat}
    (hp : p ∈ c.replica.listeners.entries) : ¬ c.Owed p := by
  rintro ⟨d, hd, hle⟩
  have := JsSet.nextFrom_none.mp (hall d hd) p hp
  omega

variable (h : Inv c)
include h

theorem clear_inv (hall : c.AllServed) : Inv c.clear where
  consistent := h.consistent
  together := rfl
  current := by intro v q hv; cases hv
  served := by intro p _ _ q hq; cases hq
  newest := by
    intro d hd
    exact Nat.le_succ_of_le (h.newest d hd)
  nested := h.nested
  idle := by
    intro d hd
    exact .inr (hall d hd)
  fresh := by
    intro d hd he
    have := h.newest d hd
    simp only [Run.clear] at he
    omega

/-- A revision is committed when everybody has been served. -/
theorem commit_inv (hall : c.AllServed) (kind : DeliveryKind) (sequence : Nat) (next : Json)
    (hupd : kind = .update → c.replica.sequence = some (sequence - 1) ∧ 0 < sequence) :
    Inv (c.commit kind sequence next) where
  consistent := ⟨trivial, h.consistent⟩
  together := rfl
  current := by
    intro v q hv hq
    cases hv
    cases hq
    simp [Run.commit, revisionAt]
  served := by
    intro p _ howed
    exact absurd ⟨_, List.mem_cons_self, Nat.zero_le _⟩ howed
  newest := by
    intro d hd
    rcases List.mem_cons.mp hd with rfl | hd
    · exact Nat.le_refl _
    · exact Nat.le_succ_of_le (h.newest d hd)
  nested := by
    refine List.pairwise_cons.mpr ⟨?_, h.nested⟩
    intro d hd
    exact Nat.lt_succ_of_le (h.newest d hd)
  idle := by
    intro d hd
    rcases List.mem_cons.mp hd with rfl | hd
    · exact .inl rfl
    · exact .inr (hall d hd)
  fresh := by
    intro d hd he
    rcases List.mem_cons.mp hd with rfl | hd
    · refine ⟨rfl, ?_⟩
      intro hkind p hp _
      obtain ⟨hseq, hpos⟩ := hupd hkind
      obtain ⟨q, hq, hle⟩ := h.served p hp (not_owed_of_allServed hall hp) _ hseq
      exact ⟨q, hq, by simp only; omega⟩
    · have := h.newest d hd
      simp only [Run.commit] at he
      omega

/-- A rejection adds an event that nobody receives. -/
theorem reject_inv (hnone : c.replica.value = none) : Inv c.reject where
  consistent := by
    refine ⟨⟨hnone, ?_⟩, h.consistent⟩
    have ht := h.together
    rw [hnone] at ht
    simpa using ht.symm
  together := h.together
  current := h.current
  served := h.served
  newest := h.newest
  nested := h.nested
  idle := h.idle
  fresh := h.fresh

theorem hydrate_inv (hall : c.AllServed) (sequence : Nat) (ops : List Op) :
    Inv (c.hydrate sequence ops) := by
  rw [Run.hydrate]
  split
  · exact clear_inv h hall
  · exact commit_inv h hall .hydrate sequence _ (by intro hk; cases hk)

theorem update_inv (hall : c.replica.sequence = none ∨ c.AllServed) (sequence : Nat)
    (ops : List Op) : Inv (c.update sequence ops) := by
  rw [Run.update]
  split
  · rename_i current value hseq hval
    have hall := hall.resolve_left (by rw [hseq]; simp)
    split
    · exact reject_inv (clear_inv h hall) rfl
    · rename_i hgap
      split
      · exact reject_inv (clear_inv h hall) rfl
      · refine commit_inv h hall .update sequence _ ?_
        intro _
        rw [hseq]
        exact ⟨by congr 1; omega, by omega⟩
  · rename_i hnot
    refine reject_inv h ?_
    cases hval : c.replica.value with
    | none => rfl
    | some v =>
      have ht := h.together
      rw [hval, Option.isSome_some, eq_comm, Option.isSome_iff_exists] at ht
      obtain ⟨q, hq⟩ := ht
      exact (hnot q v hq hval).elim

theorem unsubscribe_inv (listener : Nat) : Inv (c.unsubscribe listener) where
  consistent := h.consistent
  together := h.together
  current := h.current
  served := by
    intro p hp
    exact h.served p (JsSet.mem_delete.mp hp).1
  newest := h.newest
  nested := h.nested
  idle := by
    intro d hd
    apply (h.idle d hd).imp_right
    intro hnone
    rw [JsSet.nextFrom_none] at hnone ⊢
    intro p hp
    exact hnone p (JsSet.mem_delete.mp hp).1
  fresh := by
    intro d hd he
    obtain ⟨hseq, hupd⟩ := h.fresh d hd he
    refine ⟨hseq, ?_⟩
    intro hkind p hp
    exact hupd hkind p (JsSet.mem_delete.mp hp).1

omit h

variable {trace : List Event} {kind : DeliveryKind}

variable {v : Option Json}

theorem lastReceived_other {l l' : Nat}
    (h : l ≠ l') : lastReceived (.delivered l kind q v :: trace) l' = lastReceived trace l' := by
  rw [lastReceived, if_neg h]

theorem lastReceived_self {l : Nat} :
    lastReceived (.delivered l kind q v :: trace) l = some q := by
  rw [lastReceived, if_pos rfl]

/-- The listener set grows; nobody has been called yet. -/
theorem add_inv (h : Inv c) (listener : Nat) (hallowed : c.Allowed (.subscribe listener))
    (hnone : c.replica.sequence = none) :
    Inv { c with replica := { c.replica with listeners := c.replica.listeners.add listener } } where
  consistent := h.consistent
  together := h.together
  current := h.current
  served := by
    intro p _ _ q hq
    rw [hnone] at hq
    cases hq
  newest := h.newest
  nested := h.nested
  idle := by
    intro d hd
    by_cases he : d.revision = c.revisions
    · exact .inl he
    · right
      have hold := JsSet.nextFrom_none.mp ((h.idle d hd).resolve_left he)
      rw [JsSet.nextFrom_none]
      intro p hp
      rcases JsSet.mem_add hp with hp' | rfl
      · exact hold p hp'
      · by_contra hlt
        exact he (hallowed d hd _ hp rfl (by omega)).2
  fresh := by
    intro d hd he
    rw [(h.fresh d hd he).1] at hnone
    cases hnone

/-- The new listener is handed the current revision. -/
theorem add_deliver_inv (h : Inv c) (listener : Nat) (hallowed : c.Allowed (.subscribe listener))
    {v : Json} (hv : c.replica.value = some v) (hq : c.replica.sequence = some q) :
    Inv { c with
      replica := { c.replica with listeners := c.replica.listeners.add listener }
      trace := .delivered listener .hydrate q (some v) :: c.trace } where
  consistent := by
    refine ⟨⟨⟨v, rfl, h.current v q hv hq⟩, ?_⟩, h.consistent⟩
    intro hk
    cases hk
  together := h.together
  current := h.current
  served := by
    intro p hp howed q' hq'
    rw [hq] at hq'
    cases hq'
    by_cases hl : listener = p.2
    · rw [hl, lastReceived_self]
      exact ⟨q, rfl, Nat.le_refl q⟩
    · rw [lastReceived_other hl]
      rcases JsSet.mem_add hp with hp | rfl
      · exact h.served p hp howed q hq
      · exact absurd rfl hl
  newest := h.newest
  nested := h.nested
  idle := by
    intro d hd
    by_cases he : d.revision = c.revisions
    · exact .inl he
    · right
      have hold := JsSet.nextFrom_none.mp ((h.idle d hd).resolve_left he)
      rw [JsSet.nextFrom_none]
      intro p hp
      rcases JsSet.mem_add hp with hp' | rfl
      · exact hold p hp'
      · by_contra hlt
        exact he (hallowed d hd _ hp rfl (by omega)).2
  fresh := by
    intro d hd he
    obtain ⟨hseq, hupd⟩ := h.fresh d hd he
    refine ⟨hseq, ?_⟩
    intro hkind p hp hle
    by_cases hl : listener = p.2
    · have := (hallowed d hd p hp hl.symm hle).1
      rw [hkind] at this
      cases this
    · rw [lastReceived_other hl]
      rcases JsSet.mem_add hp with hp | rfl
      · exact hupd hkind p hp hle
      · exact absurd rfl hl

theorem subscribe_inv (h : Inv c) (listener : Nat) (hallowed : c.Allowed (.subscribe listener)) :
    Inv (c.subscribe listener) := by
  have ht := h.together
  cases hv : c.replica.value with
  | none =>
    rw [hv] at ht
    have hnone : c.replica.sequence = none := by simpa using ht.symm
    have heq : c.subscribe listener =
        { c with replica := { c.replica with listeners := c.replica.listeners.add listener } } := by
      rw [Run.subscribe]
      simp only [hv]
    rw [heq]
    exact add_inv h listener hallowed hnone
  | some v =>
    rw [hv, Option.isSome_some, eq_comm, Option.isSome_iff_exists] at ht
    obtain ⟨q, hq⟩ := ht
    have heq : c.subscribe listener =
        { c with
          replica := { c.replica with listeners := c.replica.listeners.add listener }
          trace := .delivered listener .hydrate q (some v) :: c.trace } := by
      rw [Run.subscribe]
      simp only [hv, hq, Option.getD_some]
    rw [heq]
    exact add_deliver_inv h listener hallowed hv hq

variable {rest : List Delivery} (h : Inv c)
include h

theorem pop_inv {d : Delivery} (hstack : c.stack = d :: rest)
    (hnone : c.replica.listeners.nextFrom d.cursor = none) : Inv { c with stack := rest } where
  consistent := h.consistent
  together := h.together
  current := h.current
  served := by
    intro p hp howed
    apply h.served p hp
    rintro ⟨d', hd', hle⟩
    rw [hstack] at hd'
    rcases List.mem_cons.mp hd' with rfl | hd'
    · have := JsSet.nextFrom_none.mp hnone p hp
      omega
    · exact howed ⟨d', hd', hle⟩
  newest := by
    intro d' hd'
    exact h.newest d' (by rw [hstack]; exact List.mem_cons_of_mem _ hd')
  nested := by
    have hn := h.nested
    rw [hstack] at hn
    exact (List.pairwise_cons.mp hn).2
  idle := by
    intro d' hd'
    exact h.idle d' (by rw [hstack]; exact List.mem_cons_of_mem _ hd')
  fresh := by
    intro d' hd'
    exact h.fresh d' (by rw [hstack]; exact List.mem_cons_of_mem _ hd')

/-- The loop of the innermost delivery serves its next listener. -/
theorem serve_inv {d : Delivery} (hstack : c.stack = d :: rest)
    {stamp listener : Nat} (hnext : c.replica.listeners.nextFrom d.cursor = some (stamp, listener)) :
    Inv { c with
      stack := { d with cursor := stamp + 1 } :: rest
      trace := .delivered listener d.kind d.sequence c.replica.value :: c.trace } := by
  have hd : d ∈ c.stack := by rw [hstack]; exact List.mem_cons_self
  have hrest : ∀ d' ∈ rest, d' ∈ c.stack := by
    intro d' hd'
    rw [hstack]
    exact List.mem_cons_of_mem _ hd'
  have hfresh : d.revision = c.revisions := by
    apply (h.idle d hd).resolve_right
    rw [hnext]
    simp
  obtain ⟨hseq, hupd⟩ := h.fresh d hd hfresh
  obtain ⟨v, hv, hrev⟩ := h.value_of_sequence hseq
  obtain ⟨hmem, hle, hmin⟩ := JsSet.nextFrom_some hnext
  have hnest := h.nested
  rw [hstack, List.pairwise_cons] at hnest
  have hold : ∀ d' ∈ rest, d'.revision ≠ c.revisions := by
    intro d' hd' he
    have := hnest.1 d' hd'
    omega
  -- the entries that remain belong to other listeners
  have hother : ∀ p ∈ c.replica.listeners.entries, stamp + 1 ≤ p.1 → listener ≠ p.2 := by
    intro p hp hlt he
    have := JsSet.entry_unique hmem hp he
    rw [← this] at hlt
    simp only at hlt
    omega
  constructor
  · refine ⟨⟨⟨v, hv, hrev⟩, ?_⟩, h.consistent⟩
    intro hkind q hq
    obtain ⟨q', hq', hlt⟩ := hupd hkind _ hmem hle
    rw [hq'] at hq
    cases hq
    exact hlt
  · exact h.together
  · exact h.current
  · intro p hp howed q hq
    rw [hseq] at hq
    cases hq
    by_cases hl : listener = p.2
    · rw [hl, lastReceived_self]
      exact ⟨_, rfl, Nat.le_refl _⟩
    · rw [lastReceived_other hl]
      apply h.served p hp _ _ hseq
      rintro ⟨d', hd', hc⟩
      rw [hstack] at hd'
      rcases List.mem_cons.mp hd' with rfl | hd'
      · have hstamp := hmin p hp hc
        apply howed
        refine ⟨_, List.mem_cons_self, ?_⟩
        have hne : p.1 ≠ stamp := by
          intro he
          have heq : p = (stamp, listener) := JsSet.stamp_unique hp hmem he
          exact hl (by rw [heq])
        simp only at hstamp ⊢
        omega
      · exact howed ⟨d', List.mem_cons_of_mem _ hd', hc⟩
  · intro d' hd'
    rcases List.mem_cons.mp hd' with rfl | hd'
    · exact h.newest d hd
    · exact h.newest d' (hrest d' hd')
  · exact List.pairwise_cons.mpr ⟨hnest.1, hnest.2⟩
  · intro d' hd'
    rcases List.mem_cons.mp hd' with rfl | hd'
    · exact .inl hfresh
    · exact h.idle d' (hrest d' hd')
  · intro d' hd' he
    rcases List.mem_cons.mp hd' with rfl | hd'
    · refine ⟨hseq, ?_⟩
      intro hkind p hp hlt
      rw [lastReceived_other (hother p hp hlt)]
      exact hupd hkind p hp (by simp only at hlt hle; omega)
    · exact absurd he (hold d' hd')

theorem next_inv : Inv c.next := by
  rw [Run.next]
  split
  · exact h
  · rename_i d rest hstack
    split
    · rename_i hnone
      exact pop_inv h hstack hnone
    · rename_i stamp listener hnext
      exact serve_inv h hstack hnext

theorem step_inv (step : Step) (hallowed : c.Allowed step) : Inv (c.step step) := by
  cases step with
  | hydrate sequence ops => exact hydrate_inv h hallowed sequence ops
  | update sequence ops => exact update_inv h hallowed sequence ops
  | clear => exact clear_inv h hallowed
  | subscribe listener => exact subscribe_inv h listener hallowed
  | unsubscribe listener => exact unsubscribe_inv h listener
  | next => exact next_inv h

theorem steps_inv (steps : List Step) (hallowed : c.AllAllowed steps) : Inv (c.steps steps) := by
  induction steps generalizing c with
  | nil => exact h
  | cons step steps ih => exact ih (step_inv h step hallowed.1) hallowed.2

omit h

end Shuvpi.StateReplica
