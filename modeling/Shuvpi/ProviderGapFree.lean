import Shuvpi.ProviderAccounts

/-!
# Updates are delivered in order

Every operation that the rules allow keeps the invariant, so in every run that keeps to
the rules each subscription observes its updates without a gap, a repetition or a
reordering. The rules cannot be dropped: an update that a listener publishes while its
own subscription replays the buffer overtakes the rest of the buffer.
-/
namespace Shuvpi.Provider

variable {V O : Type}

open World

section Steps

variable {w : World V O}

theorem start_inv (modes : Nat → ServiceMode) (values : Nat → V) :
    Inv noneExempt (World.start modes values : World V O) := by
  constructor
  · constructor
    · intro id
      exact Nat.le_refl _
    · intro id
      rfl
    · intro id publication left hmem
      cases hmem
    · intro id _
      exact ⟨rfl, rfl⟩
  · constructor
    · intro service address u
      cases address <;> simp [instanceAt, World.start]
    · intro u _
      exact ⟨rfl, rfl⟩
    · intro u address ha
      cases ha
    · intro service p hp
      cases hp
    · intro service
      exact List.nodup_nil
    · intro service
      exact ⟨fun _ => rfl, fun _ => rfl⟩
    · intro id u member
      simp [World.start]
    · intro id
      exact List.nodup_nil
  · constructor
    · intro service t c hmem
      cases hmem
    · intro c hc
      cases hc
    · intro c _
      exact ⟨rfl, rfl⟩
    · intro c _
      rfl
    · intro c _
      rfl
    · intro c hne
      exact absurd rfl hne
    · intro c hmem
      cases hmem
  · constructor
    · exact List.Pairwise.nil
    · intro id publication left hmem
      cases hmem
    · intro service update u cursor hmem
      cases hmem
    · intro service address member sequence ops u cursor hmem
      cases hmem
    · intro service address u cursor hmem
      cases hmem
  · constructor
    · intro c hc
      exact absurd hc (Nat.not_lt_zero c)
    · intro service t c hmem
      cases hmem

/-- The innermost loop goes on. -/
theorem next_inv (h : Inv noneExempt w) : Inv noneExempt w.next := by
  cases hstack : w.stack with
  | nil =>
    simp only [World.next, hstack]
    exact h
  | cons frame rest =>
    cases frame with
    | deliver id publication left =>
      cases left with
      | nil =>
        simp only [World.next, hstack]
        exact shiftPublication_inv h hstack
      | cons l left => exact sourceStep_inv h hstack
    | emit service update u cursor =>
      simp only [World.next, hstack]
      cases hnext : (w.registrations service).subscribers.nextFrom cursor with
      | none => exact emitEnd_inv h hstack hnext
      | some p => exact visit_inv h hstack hnext
    | replay c =>
      simp only [World.next, hstack]
      cases hr : (w.subscribers c).replaying with
      | nil => exact replayEnd_inv h hstack hr
      | cons update replaying => exact replayStep_inv h hr

variable (diff : V → V → List O) (before : JsString → JsString → Bool)

theorem step_inv (h : Inv noneExempt w) {operation : Operation V} (hallowed : w.Allowed diff operation) :
    Inv noneExempt (w.step diff before operation) := by
  cases operation with
  | commit id next => exact commit_inv h diff id next hallowed
  | provide service members => exact provide_inv h service members hallowed
  | withdraw service => exact withdraw_inv h service hallowed.1 hallowed.2
  | replace service members => exact replace_inv h service members hallowed.1 hallowed.2
  | spawn service key members => exact spawn_inv h service key members hallowed
  | close u => exact close_inv h u hallowed.1 hallowed.2
  | subscribe service mode => exact subscribe_inv h before service mode hallowed
  | activate c => exact activate_inv h c
  | unsubscribe c => exact unsubscribe_inv h c
  | next => exact next_inv h

theorem steps_inv (h : Inv noneExempt w) {operations : List (Operation V)}
    (hallowed : w.AllAllowed diff before operations) : Inv noneExempt (w.steps diff before operations) := by
  induction operations generalizing w with
  | nil => exact h
  | cons operation operations ih => exact ih (step_inv diff before h hallowed.1) hallowed.2

theorem start_accounts (modes : Nat → ServiceMode) (values : Nat → V) :
    (World.start modes values : World V O).Accounts diff where
  contents := by
    refine ⟨fun _ => rfl, ?_, ?_⟩
    · intro id publication hmem
      cases hmem
    · intro frame hmem
      cases hmem
  all := fun c hc => absurd hc (Nat.not_lt_zero c)
  seated := by
    intro service t c hmem
    cases hmem

variable {diff}

theorem next_accounts (h : w.Accounts diff) (hi : Inv noneExempt w) : w.next.Accounts diff := by
  have hi' := next_inv hi
  cases hstack : w.stack with
  | nil =>
    simp only [World.next, hstack]
    exact h
  | cons frame rest =>
    have hrest : ∀ frame ∈ rest, frame ∈ w.stack := by
      intro frame hmem
      rw [hstack]
      exact List.mem_cons_of_mem _ hmem
    cases frame with
    | deliver id publication left =>
      cases left with
      | nil =>
        simp only [World.next, hstack] at hi' ⊢
        obtain ⟨-, hmade, hregs, hsubs, hcount, -, hshift⟩ := shiftPublication_frame w id rest
        have hmem : ∀ service update u cursor, .emit service update u cursor ∈ (w.shiftPublication id rest).stack ↔
            .emit service update u cursor ∈ w.stack := by
          intro service update u cursor
          rcases hshift with hshift | ⟨publication, -, hshift⟩
          · simp [hshift, hstack]
          · simp [hshift, hstack]
        exact h.restack hi hi' (shiftPublication_later w id rest)
          (h.contents.shiftPublication hi.frames.made id hrest) hmade hregs hsubs hcount
          (fun service update u cursor hin _ => (hmem service update u cursor).mpr hin)
          fun service update u cursor _ hin => (hmem service update u cursor).mp hin
      | cons l left => exact sourceStep_accounts h hi hstack
    | emit service update u cursor =>
      simp only [World.next, hstack] at hi' ⊢
      cases hnext : (w.registrations service).subscribers.nextFrom cursor with
      | none =>
        rw [hnext] at hi'
        refine pop_accounts h hi hstack hi' ?_
        intro service' update' u' cursor' he hunf
        cases he
        exact hunf hnext
      | some p =>
        rw [hnext] at hi'
        exact visit_accounts hi hstack hnext h hi'
    | replay c =>
      simp only [World.next, hstack] at hi' ⊢
      cases hr : (w.subscribers c).replaying with
      | nil =>
        rw [hr] at hi'
        refine pop_accounts h hi hstack hi' ?_
        intro service update u cursor he
        cases he
      | cons update replaying =>
        rw [hr] at hi'
        exact setSubscriber_accounts h hi hi' rfl rfl rfl (by simp [received, hr]) (fun _ => .inl) fun _ hmem => hmem

theorem step_accounts (h : w.Accounts diff) (hi : Inv noneExempt w) {operation : Operation V}
    (hallowed : w.Allowed diff operation) : (w.step diff before operation).Accounts diff := by
  have hi' := step_inv diff before hi hallowed
  cases operation with
  | commit id next => exact commit_accounts h hi hi'
  | provide service members => exact provide_accounts h hi service members hi' hallowed
  | withdraw service => exact withdraw_accounts h hi service hi'
  | replace service members => exact replace_accounts h hi service members hi'
  | spawn service key members => exact spawn_accounts h hi service members key hi'
  | close u => exact close_accounts h hi u hi'
  | subscribe service mode => exact subscribe_accounts h hi before service mode hallowed
  | activate c => exact activate_accounts h hi
  | unsubscribe c => exact unsubscribe_accounts h hi
  | next => exact next_accounts h hi

theorem steps_accounts (h : w.Accounts diff) (hi : Inv noneExempt w) {operations : List (Operation V)}
    (hallowed : w.AllAllowed diff before operations) : (w.steps diff before operations).Accounts diff := by
  induction operations generalizing w with
  | nil => exact h
  | cons operation operations ih =>
    exact ih (step_accounts before h hi hallowed.1) (step_inv diff before hi hallowed.1) hallowed.2

/-- When nothing is left to deliver, an open subscription has been told of everything. -/
theorem told_of_idle (h : w.Accounts diff) (hi : Inv noneExempt w) {c : Nat} (hstack : w.stack = [])
    (hopen : (w.subscribers c).closed = false) (hactive : (w.subscribers c).active = true) :
    ∃ told, w.Account diff (w.subscribers c).service (w.subscribers c).snapshot (w.subscribers c).log told ∧
      ∀ u < w.instanceCount, (w.instances u).service = (w.subscribers c).service →
        (w.subscribers c).missed u = false → u ∈ told := by
  obtain ⟨t, hentry⟩ := hi.seats.seat c hopen
  obtain ⟨told, htold⟩ := h.seated _ t c hentry
  refine ⟨told, ?_, ?_⟩
  · have haccount := htold.account
    rwa [hi.received_eq hstack hactive] at haccount
  · intro u hu hserv hmissed
    refine (htold.heard u hu hserv hmissed).resolve_right ?_
    rintro ⟨update, ⟨cursor, -, hmem⟩, -⟩
    rw [hstack] at hmem
    cases hmem

end Steps

/-- In every run that keeps to the rules, and in every state it reaches, every
subscription has observed its updates in order, as they were published, and has been told
of no instance twice; and it is up to date when nothing is left to deliver. -/
theorem gapFree_of_allowed (diff : V → V → List O) (before : JsString → JsString → Bool) (modes : Nat → ServiceMode)
    (values : Nat → V) (operations : List (Operation V))
    (hallowed : (World.start modes values : World V O).AllAllowed diff before operations) :
    ((World.start modes values : World V O).steps diff before operations).GapFree diff := by
  have hi := steps_inv diff before (start_inv modes values) hallowed
  have h := steps_accounts before (start_accounts diff modes values) (start_inv modes values) hallowed
  intro c hc
  obtain ⟨v, hv, hidle⟩ := hi.upToDate hc
  obtain ⟨told, htold⟩ := h.all c hc
  obtain ⟨told, htold⟩ := Account.front htold
  by_cases hrest : ((World.start modes values : World V O).steps diff before operations).stack = [] ∧
      (((World.start modes values : World V O).steps diff before operations).subscribers c).closed = false ∧
      (((World.start modes values : World V O).steps diff before operations).subscribers c).active = true
  · obtain ⟨told, htold, hall⟩ := told_of_idle h hi hrest.1 hrest.2.1 hrest.2.2
    exact ⟨v, told, hv, htold, htold.nodup, fun hstack hopen hactive => ⟨hall, hidle hstack hopen hactive⟩⟩
  · exact ⟨v, told, hv, htold, htold.nodup, fun hstack hopen hactive => absurd ⟨hstack, hopen, hactive⟩ hrest⟩

/-! ## Runs -/

/-- An implementation with one state member, named `s`. -/
def oneState : Members := ⟨[([115], .state 0)], by decide⟩

/-- An implementation without state members. -/
def oneMethod : Members := ⟨[([109], .method)], by decide⟩

def modeOf (service : Nat) : ServiceMode := if service = 0 then .singleton else .keyed

/-- The changes of a number: its new value. -/
def newValue (value next : Nat) : List Nat := if value = next then [] else [next]

/-- A subscription buffers two updates, replays them and follows; a change by a listener
under a delivery is queued, and the singleton is replaced and withdrawn. Another one is
told of an instance that has nothing but a method. -/
theorem gapFree_of_allowed_singleton :
    ((World.start modeOf (fun _ => 0) : World Nat Nat).steps newValue (fun _ _ => true)
      [.provide 0 oneState, .subscribe 0 .singleton, .commit 0 1, .commit 0 2, .next, .next, .next, .next, .next, .next,
        .next, .next, .activate 0, .next, .next, .next, .commit 0 3, .next, .next, .commit 0 4, .next, .next, .next, .next, .next,
        .next, .replace 0 oneState, .next, .next, .withdraw 0, .next, .next, .unsubscribe 0, .subscribe 1 .keyed,
        .activate 1, .next, .spawn 1 [107] oneMethod, .next, .next, .close 2, .next, .next]).GapFree newValue :=
  gapFree_of_allowed newValue (fun _ _ => true) _ _ _ (by decide +kernel)

/-- The buffer holds the updates 1 and 2 when the subscription is activated, and the
listener that is handed 1 changes the state. -/
def changedUnderReplay : World Nat Nat :=
  (World.start (fun _ => .singleton) (fun _ => 0)).steps newValue (fun _ _ => true)
    [.provide 0 oneState, .subscribe 0 .singleton, .commit 0 1, .next, .next, .next, .next, .commit 0 2, .next, .next,
      .next, .next, .activate 0, .next, .commit 0 3, .next, .next, .next, .next, .next, .next]

/-- The update 3 is handed over before 2. -/
theorem changedUnderReplay_not_gapFree : ¬ changedUnderReplay.GapFree newValue := by
  intro h
  obtain ⟨v, _, hv, _⟩ := h 0 (by decide +kernel)
  have hnone : viewOf (changedUnderReplay.subscribers 0).snapshot (changedUnderReplay.subscribers 0).log = none := rfl
  rw [hnone] at hv
  cases hv

end Shuvpi.Provider
