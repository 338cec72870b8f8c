import Shuvpi.ProviderRuns

/-!
# The loops of the provider

The invariant is preserved when a loop ends, when a replay hands over an update, and
when a state publishes: a publication that leaves the queue becomes due to everybody
who follows a member behind which the state lies.
-/
namespace Shuvpi.Provider

open List hiding next
open Function hiding update

variable {V O : Type}

/-! ## Loops end and go on -/

section Loops

open World

variable {w : World V O} {exempt : Nat → Option ServiceInstanceAddress → Prop}

variable {update : ServiceProviderUpdate V O} {rest : List (Frame V O)}

/-- An `#emit` loop that has visited everybody. -/
theorem emitEnd_inv (h : Inv exempt w) {service : Nat} {u cursor : Nat}
    (hstack : w.stack = .emit service update u cursor :: rest)
    (hnone : (w.registrations service).subscribers.nextFrom cursor = none) :
    Inv exempt { w with stack := rest } := by
  have hpassed : ∀ t c, (t, c) ∈ (w.registrations service).subscribers.entries → t < cursor := by
    intro t c hentry
    exact JsSet.nextFrom_none.mp hnone (t, c) hentry
  have hserv : (w.instances u).service = service :=
    (h.frames.emit service update u cursor (by rw [hstack]; exact mem_cons_self)).2.1
  constructor
  · refine h.queues.of_eq (fun _ => ⟨rfl, rfl, rfl⟩) ?_
    intro id publication
    rw [hstack]
    simp
  · exact (sameBooks_restack w rest).registry h.registry
  · exact h.seats.restack (fun _ => rfl) rfl rfl fun c => by simp [hstack]
  · exact h.frames.pop hstack
  · refine h.views.of_follows rfl rfl (fun _ => rfl) ?_
    intro service' t c hentry v f hf
    refine hf.restack h.registry _ ?_ ?_ ?_
    · intro snapshot u' cursor' hmem hle
      exact ⟨cursor', by rw [hstack]; exact mem_cons_of_mem _ hmem, hle⟩
    · rintro address ⟨update', u', cursor', hmem, hrenews, hle⟩
      rw [hstack] at hmem
      rcases mem_cons.mp hmem with he | hmem
      · cases he
        have := hpassed t c hentry
        omega
      · exact ⟨update', u', cursor', hmem, hrenews, hle⟩
    · intro u' member _ hu'
      have hw : w = { w with stack := .emit service update u cursor :: rest } := by rw [← hstack]
      conv_rhs => rw [hw]
      rw [due_cons]
      constructor
      · exact Or.inr
      · rintro (howes | hdue)
        · cases update with
          | state address member' sequence ops =>
            obtain ⟨rfl, _, hle⟩ := howes
            rw [hserv] at hu'
            subst hu'
            have := hpassed t c hentry
            omega
          | _ => exact howes.elim
        · exact hdue

variable {c : Nat}

theorem replayEnd_inv (h : Inv exempt w) (hstack : w.stack = .replay c :: rest)
    (hnone : (w.subscribers c).replaying = []) : Inv exempt { w with stack := rest } := by
  constructor
  · refine h.queues.of_eq (fun _ => ⟨rfl, rfl, rfl⟩) ?_
    intro id publication
    rw [hstack]
    simp
  · exact (sameBooks_restack w rest).registry h.registry
  · refine h.seats.of_eq (fun _ => rfl) rfl rfl ?_ ?_
    · intro c' hne hmem
      rw [hstack] at hmem
      rcases mem_cons.mp hmem with he | hmem
      · cases he
        exact absurd hnone hne
      · exact hmem
    · intro c' hmem
      rw [hstack]
      exact mem_cons_of_mem _ hmem
  · exact h.frames.pop hstack
  · refine h.views.of_follows rfl rfl (fun _ => rfl) ?_
    intro service t c' _ v f hf
    refine hf.restack h.registry _ ?_ ?_ ?_
    · intro snapshot u cursor hmem hle
      exact ⟨cursor, by rw [hstack]; exact mem_cons_of_mem _ hmem, hle⟩
    · rintro address ⟨update, u, cursor, hmem, hrenews, hle⟩
      rw [hstack] at hmem
      exact ⟨update, u, cursor, by simpa using hmem, hrenews, hle⟩
    · intro u member _ _
      simp only [Due, hstack, mem_cons, exists_eq_or_imp, Frame.Owes, false_or]

variable {s : ProviderSubscriber V O}

/-- A subscriber record changes without a change in what the subscriber receives. -/
theorem setSubscriber_layers (h : Inv exempt w) (hserv : s.service = (w.subscribers c).service)
    (hclosed : s.closed = (w.subscribers c).closed) (hsnap : s.snapshot = (w.subscribers c).snapshot)
    (hfilter : s.snapshotSequences = (w.subscribers c).snapshotSequences)
    (hrecv : s.log ++ (s.replaying ++ s.buffer) = w.received c)
    (hrepl : .replay c ∈ w.stack → s.replaying ≠ [] → (w.subscribers c).replaying ≠ []) :
    (w.setSubscriber c s).Frames ∧ (w.setSubscriber c s).Views exempt := by
  have hsame : ∀ c', ((w.setSubscriber c s).subscribers c').service = (w.subscribers c').service ∧
      ((w.setSubscriber c s).subscribers c').closed = (w.subscribers c').closed ∧
      ((w.setSubscriber c s).subscribers c').snapshot = (w.subscribers c').snapshot ∧
      ((w.setSubscriber c s).subscribers c').snapshotSequences = (w.subscribers c').snapshotSequences ∧
      (w.setSubscriber c s).received c' = w.received c' ∧
      (.replay c' ∈ w.stack → ((w.setSubscriber c s).subscribers c').replaying ≠ [] →
        (w.subscribers c').replaying ≠ []) := by
    intro c'
    by_cases he : c' = c
    · subst he
      simp only [setSubscriber, received, update_self]
      exact ⟨hserv, hclosed, hsnap, hfilter, hrecv, hrepl⟩
    · simp [setSubscriber, received, update_of_ne he]
  have hbooks : SameBooks w (w.setSubscriber c s) := ⟨fun _ => ⟨rfl, rfl, rfl, rfl⟩, rfl, rfl, fun _ => rfl⟩
  constructor
  · refine h.frames.mono rfl hbooks ?_ (fun _ _ => id) (fun _ _ _ _ _ => ⟨rfl, Nat.le_refl _⟩)
    intro c' hmem hcl hre
    obtain ⟨hs, hc, _, _, _, hr⟩ := hsame c'
    exact ⟨by rw [← hc]; exact hcl, hr hmem hre, hs⟩
  · constructor
    · intro c' hc'
      rw [(hsame c').2.2.1, (hsame c').2.2.2.2.1]
      exact h.views.accepted c' hc'
    · intro service t c' hentry v
      rw [(hsame c').2.2.1, (hsame c').2.2.2.1, (hsame c').2.2.2.2.1]
      intro hv
      have hf := h.views.follows service t c' hentry v hv
      refine hf.mono (fun _ => Nat.le_refl _) (fun snapshot u cursor hmem hle => ⟨cursor, hmem, hle⟩) ?_
      intro address
      apply Or.imp_right
      apply Or.imp_right
      intro hin
      exact hin.mono (hbooks.instanceAt service address) (fun u member _ => hbooks.stateOf u member)
        (fun u member id n _ _ hn => hn.of_eq Iff.rfl rfl) (fun _ => Nat.le_refl _)

theorem World.Seats.lt_of_open (h : w.Seats) (hc : (w.subscribers c).closed = false) :
    c < w.subscriberCount := by
  by_contra hge
  have := (h.fresh c (by omega)).1
  rw [hc] at this
  cases this

/-- One subscriber record changes; the replays of the others stay where they are. -/
theorem setSubscriber_seats (h : w.Seats) {stack : List (Frame V O)} (hlt : c < w.subscriberCount)
    (hserv : s.service = (w.subscribers c).service) (hclosed : s.closed = (w.subscribers c).closed)
    (hactive : s.active = true → s.buffer = []) (hoff : s.active = false → s.replaying = [])
    (hrepl : s.replaying ≠ [] → .replay c ∈ stack) (hreplayed : .replay c ∈ stack → s.active = true)
    (hstack : ∀ c', c' ≠ c → (.replay c' ∈ stack ↔ .replay c' ∈ w.stack)) :
    ({ w.setSubscriber c s with stack := stack } : World V O).Seats := by
  have hself : (w.setSubscriber c s).subscribers c = s := update_self _ _ _
  have hother : ∀ c', c' ≠ c → (w.setSubscriber c s).subscribers c' = w.subscribers c' :=
    fun c' he => update_of_ne he _ _
  have hsame : ∀ c', ((w.setSubscriber c s).subscribers c').service = (w.subscribers c').service ∧
      ((w.setSubscriber c s).subscribers c').closed = (w.subscribers c').closed := by
    intro c'
    by_cases he : c' = c
    · rw [he, hself]
      exact ⟨hserv, hclosed⟩
    · rw [hother c' he]
      exact ⟨rfl, rfl⟩
  constructor
  · intro service t c' hentry
    have hs := h.seated service t c' hentry
    rwa [← (hsame c').1, ← (hsame c').2] at hs
  · intro c' hcl
    have hs := h.seat c' (by rw [← (hsame c').2]; exact hcl)
    rwa [← (hsame c').1] at hs
  · intro c' hc'
    have hne : c' ≠ c := by
      intro he
      rw [he] at hc'
      exact Nat.not_le_of_lt hlt hc'
    simp only [hother c' hne]
    exact h.fresh c' hc'
  · intro c' ha
    by_cases he : c' = c
    · subst he
      simp only [hself] at ha ⊢
      exact hactive ha
    · simp only [hother c' he] at ha ⊢
      exact h.active c' ha
  · intro c' ha
    by_cases he : c' = c
    · subst he
      simp only [hself] at ha ⊢
      exact hoff ha
    · simp only [hother c' he] at ha ⊢
      exact h.inactive c' ha
  · intro c' hne
    by_cases he : c' = c
    · subst he
      simp only [hself] at hne
      exact hrepl hne
    · simp only [hother c' he] at hne
      exact (hstack c' he).mpr (h.replaying c' hne)
  · intro c' hmem
    by_cases he : c' = c
    · subst he
      simp only [hself]
      exact hreplayed hmem
    · simp only [hother c' he]
      exact h.replayed c' ((hstack c' he).mp hmem)

theorem sameBooks_setSubscriber (w : World V O) (c : Nat) (s : ProviderSubscriber V O) :
    SameBooks w (w.setSubscriber c s) := ⟨fun _ => ⟨rfl, rfl, rfl, rfl⟩, rfl, rfl, fun _ => rfl⟩

/-- A replay hands over its next update. -/
theorem replayStep_inv (h : Inv exempt w) {replaying : List (ServiceProviderUpdate V O)}
    (hr : (w.subscribers c).replaying = update :: replaying) :
    Inv exempt (w.setSubscriber c
      { w.subscribers c with replaying := replaying, log := (w.subscribers c).log ++ [update] }) := by
  have hne : (w.subscribers c).replaying ≠ [] := by
    rw [hr]
    exact cons_ne_nil _ _
  have hmem := h.seats.replaying c hne
  have hactive := h.seats.replayed c hmem
  have hlt : c < w.subscriberCount := by
    by_contra hge
    have := (h.seats.fresh c (by omega)).2
    rw [hactive] at this
    cases this
  obtain ⟨hframes, hviews⟩ := setSubscriber_layers h (c := c)
    (s := { w.subscribers c with replaying := replaying, log := (w.subscribers c).log ++ [update] })
    rfl rfl rfl rfl (by simp [received, hr]) (fun _ _ => hne)
  refine ⟨h.queues.of_eq (fun _ => ⟨rfl, rfl, rfl⟩) (fun _ _ => Iff.rfl),
    (sameBooks_setSubscriber w c _).registry h.registry, ?_, hframes, hviews⟩
  refine setSubscriber_seats h.seats hlt rfl rfl (h.seats.active c) ?_ (fun _ => hmem) (fun _ => hactive)
    (fun _ _ => Iff.rfl)
  intro ha
  have hfalse : (w.subscribers c).active = false := ha
  rw [hactive] at hfalse
  cases hfalse

theorem activate_inv (h : Inv exempt w) (c : Nat) : Inv exempt (w.activate c) := by
  rw [activate]
  split
  · exact h
  · rename_i hno
    obtain ⟨hcl, hin⟩ := not_or.mp hno
    have hclosed : (w.subscribers c).closed = false := by simpa using hcl
    have hoff : (w.subscribers c).active = false := by simpa using hin
    have hrepl := h.seats.inactive c hoff
    have hnot : .replay c ∉ w.stack := by
      intro hmem
      have := h.seats.replayed c hmem
      rw [hoff] at this
      cases this
    obtain ⟨hframes, hviews⟩ := setSubscriber_layers h (c := c)
      (s := { w.subscribers c with active := true, replaying := (w.subscribers c).buffer, buffer := [] })
      rfl rfl rfl rfl (by simp [received, hrepl]) (fun hmem => absurd hmem hnot)
    have hreg := (sameBooks_setSubscriber w c { w.subscribers c with
      active := true, replaying := (w.subscribers c).buffer, buffer := [] }).registry h.registry
    constructor
    · refine h.queues.of_eq (fun _ => ⟨rfl, rfl, rfl⟩) ?_
      intro id publication
      simp
    · exact (sameBooks_restack _ _).registry hreg
    · refine setSubscriber_seats h.seats (h.seats.lt_of_open hclosed) rfl rfl (fun _ => rfl) ?_
        (fun _ => mem_cons_self) (fun _ => rfl) ?_
      · intro ha
        cases ha
      · intro c' he
        simp [he]
    · apply hframes.push
      constructor
      · intro lower _
        exact compatible_replay _ c lower
      all_goals
        intros
        contradiction
    · refine hviews.of_follows rfl rfl (fun _ => rfl) ?_
      intro service t c' _ v f hf
      refine hf.restack hreg _ ?_ ?_ ?_
      · intro snapshot u cursor hmem hle
        exact ⟨cursor, by simpa [setSubscriber] using hmem, hle⟩
      · rintro address ⟨update, u, cursor, hmem, hrenews, hle⟩
        exact ⟨update, u, cursor, mem_cons_of_mem _ hmem, hrenews, hle⟩
      · intro u member _ _
        simp [Due, Frame.Owes, setSubscriber]

end Loops

/-! ## Publications -/

section Publications

open World

variable {w : World V O} {exempt : Nat → Option ServiceInstanceAddress → Prop}

theorem setState_self (w : World V O) (id : Nat) (s : ReplicatedState V O) : (w.setState id s).states id = s :=
  update_self _ _ _

variable {id : Nat}

theorem setState_other (w : World V O) {id' : Nat} (s : ReplicatedState V O) (he : id' ≠ id) :
    (w.setState id s).states id' = w.states id' := update_of_ne he _ _

variable {s : ReplicatedState V O}

theorem sameBooks_setState (w : World V O) (id : Nat) (hl : s.sourceListeners = (w.states id).sourceListeners) :
    SameBooks w (w.setState id s) := by
  refine ⟨fun _ => ⟨rfl, rfl, rfl, rfl⟩, rfl, rfl, ?_⟩
  intro id'
  by_cases he : id' = id
  · rw [he, setState_self, hl]
  · rw [setState_other w s he]

theorem emitted_setState_self (w : World V O) (id : Nat) (s : ReplicatedState V O) :
    (w.setState id s).emitted id = s.sequence - s.publications.length := by
  rw [emitted, setState_self]

theorem emitted_setState_other (w : World V O) {id' : Nat} (s : ReplicatedState V O) (he : id' ≠ id) :
    (w.setState id s).emitted id' = w.emitted id' := by
  rw [emitted, emitted, setState_other w s he]

variable {u : Nat}

variable {member : JsString}

/-- Every state behind which a delivery is not in progress owes nothing. -/
theorem not_due (h : w.Frames) (hnot : ∀ publication left, .deliver id publication left ∉ w.stack) {t : Nat}
    (hid : w.stateOf u member = some id) : ¬ w.Due t u member := by
  rintro ⟨frame, hmem, howes⟩
  cases frame with
  | deliver id' publication left =>
    have hst := (h.deliver id' publication left hmem).2 _ howes
    rw [hid] at hst
    cases hst
    exact hnot publication left hmem
  | emit service update about cursor =>
    cases update with
    | state address member' sequence ops =>
      obtain ⟨rfl, rfl, _⟩ := howes
      obtain ⟨id', publication, left, hid', hmem', _⟩ :=
        h.state service address member' sequence ops about cursor hmem
      rw [hid] at hid'
      cases hid'
      exact hnot publication left hmem'
    | _ => exact howes
  | replay c => exact howes

variable {publication : Publication O}

/-- A change of a state that is delivering is queued. -/
theorem enqueue_inv (h : Inv exempt w) (hl : s.sourceListeners = (w.states id).sourceListeners)
    (hd : s.delivering = (w.states id).delivering) (hseq : s.sequence = (w.states id).sequence + 1)
    (hpub : s.publications = (w.states id).publications ++ [publication])
    (hnumber : publication.sequence = (w.states id).sequence + 1) (hbusy : (w.states id).delivering = true) :
    Inv exempt (w.setState id s) := by
  have hbooks := sameBooks_setState w id hl
  have henough := h.queues.enough id
  have hemit : ∀ id', (w.setState id s).emitted id' = w.emitted id' := by
    intro id'
    by_cases he : id' = id
    · rw [he, emitted_setState_self, emitted, hseq, hpub, length_append, length_singleton]
      omega
    · exact emitted_setState_other w s he
  have hgrows : ∀ id', (w.states id').sequence ≤ ((w.setState id s).states id').sequence := by
    intro id'
    by_cases he : id' = id
    · rw [he, setState_self, hseq]
      omega
    · rw [setState_other w s he]
  constructor
  · constructor
    · intro id'
      by_cases he : id' = id
      · rw [he, setState_self, hseq, hpub, length_append, length_singleton]
        omega
      · rw [setState_other w s he]
        exact h.queues.enough id'
    · intro id'
      rw [hemit]
      by_cases he : id' = id
      · rw [he, setState_self, hpub, map_append, h.queues.numbered id, length_append,
          length_singleton, range'_concat, map_singleton, hnumber, emitted]
        congr 2
        omega
      · rw [setState_other w s he]
        exact h.queues.numbered id'
    · intro id' publication' left hmem
      rw [hemit]
      by_cases he : id' = id
      · rw [he, setState_self, hd]
        rw [he] at hmem
        exact h.queues.busy id publication' left hmem
      · rw [setState_other w s he]
        exact h.queues.busy id' publication' left hmem
    · intro id' hnone
      have hidle := h.queues.idle id' hnone
      by_cases he : id' = id
      · rw [he, hbusy] at hidle
        cases hidle.1
      · rw [setState_other w s he]
        exact hidle
  · exact hbooks.registry h.registry
  · exact h.seats.of_eq (fun _ => rfl) rfl rfl (fun _ _ hx => hx) (fun _ hx => hx)
  · exact h.frames.mono rfl hbooks (fun c _ hcl hre => ⟨hcl, hre, rfl⟩) (fun _ _ hx => hx)
      (fun u _ member id' _ => ⟨hemit id', hgrows id'⟩)
  · refine h.views.of_follows rfl rfl (fun _ => rfl) ?_
    intro service t c _ v f hf
    refine hf.mono (fun _ => Nat.le_refl _) (fun snapshot u cursor hmem hle => ⟨cursor, hmem, hle⟩) ?_
    intro address
    apply Or.imp_right
    apply Or.imp_right
    intro hin
    exact hin.mono (hbooks.instanceAt service address) (fun u member _ => hbooks.stateOf u member)
      (fun u member id' n _ _ hn => hn.of_eq Iff.rfl (hemit id')) hgrows

/-- Publishing for an instance is possible: nobody who follows it is replaying, and it
has been announced to everybody. -/
def Free (w : World V O) (id : Nat) : Prop :=
  ∀ u member, (w.instances u).active = true → w.stateOf u member = some id →
    ¬ w.Replaying (w.instances u).service ∧ ∀ frame ∈ w.stack, frame.announces u = true → ¬ w.Pending frame

theorem World.Frames.active_of_announces (h : w.Frames) {frame : Frame V O} (hmem : frame ∈ w.stack)
    (hann : frame.announces u = true) (hpend : w.Pending frame) : (w.instances u).active = true := by
  cases frame with
  | emit service update about cursor =>
    have htells := (h.emit service update about cursor hmem).2.2 hpend
    cases update with
    | replaced | spawned =>
      have he : about = u := by simpa [Frame.announces] using hann
      rw [← he]
      exact htells.1.active
    | _ => cases hann
  | _ => cases hann

/-- The delivery of a publication begins. -/
theorem startDelivery_layers (hreg : w.Registry) (hseats : w.Seats) (hframes : w.Frames) (hviews : w.Views exempt)
    (hnot : ∀ publication left, .deliver id publication left ∉ w.stack) (hfree : Free w id)
    (hl : s.sourceListeners = (w.states id).sourceListeners)
    (hemit : s.sequence - s.publications.length = w.emitted id + 1) (hseq : (w.states id).sequence ≤ s.sequence)
    (publication : Publication O) :
    ({ w.setState id s with
      stack := .deliver id publication (w.states id).sourceListeners :: w.stack } : World V O).Frames ∧
    ({ w.setState id s with
      stack := .deliver id publication (w.states id).sourceListeners :: w.stack } : World V O).Views exempt := by
  have hbooks := sameBooks_setState w id hl
  have hgrows : ∀ id', (w.states id').sequence ≤ ((w.setState id s).states id').sequence := by
    intro id'
    by_cases he : id' = id
    · rw [he, setState_self]
      exact hseq
    · rw [setState_other w s he]
  have hset : (w.setState id s).Frames := by
    refine hframes.mono rfl hbooks (fun c _ hcl hre => ⟨hcl, hre, rfl⟩) (fun _ _ hx => hx) ?_
    rintro u ⟨frame, hmem, hann, hpend⟩ member id' hid'
    have hne : id' ≠ id := by
      intro he
      subst he
      have hactive := hframes.active_of_announces hmem hann hpend
      exact (hfree u member hactive hid').2 frame hmem hann hpend
    exact ⟨emitted_setState_other w s hne, hgrows id'⟩
  constructor
  · apply hset.push
    constructor
    · intro lower hlower
      apply compatible_deliver
      · intro c _ hclosed hrepl u member hactive hserv hid'
        rw [hbooks.stateOf] at hid'
        apply (hfree u member hactive hid').1
        obtain ⟨t, ht⟩ := hseats.seat c hclosed
        have hne : (w.subscribers c).replaying ≠ [] := hrepl
        refine ⟨c, ?_, by simpa using hne⟩
        have hs : (w.instances u).service = (w.subscribers c).service := hserv
        rw [hs]
        exact mem_map.mpr ⟨(t, c), ht, rfl⟩
      · intro u hann hpend member hid'
        rw [hbooks.stateOf] at hid'
        have hpend' : w.Pending lower := by
          cases lower <;> exact hpend
        have hactive := hframes.active_of_announces hlower hann hpend'
        exact (hfree u member hactive hid').2 lower hlower hann hpend'
      · intro publication' left' he
        rw [he] at hlower
        exact hnot publication' left' hlower
      · intro service address member sequence ops u cursor he hid'
        rw [he] at hlower
        rw [hbooks.stateOf] at hid'
        obtain ⟨id'', publication', left', hid'', hmem, _⟩ :=
          hframes.state service address member sequence ops u cursor hlower
        rw [hid'] at hid''
        cases hid''
        exact hnot publication' left' hmem
    · intro id' publication' left hd
      cases hd
      refine ⟨hreg.nodup id, ?_⟩
      intro l hin
      rw [hbooks.stateOf]
      exact ((hreg.listening id l.1 l.2).mp hin).2
    all_goals
      intros
      contradiction
  · refine hviews.of_follows rfl rfl (fun _ => rfl) ?_
    intro service t c _ v f hf
    refine hf.mono (fun _ => Nat.le_refl _) ?_ ?_
    · intro snapshot u cursor hmem hle
      exact ⟨cursor, by simpa using hmem, hle⟩
    · intro address
      apply Or.imp_right
      apply Or.imp
      · rintro ⟨update, u, cursor, hmem, hrenews, hle⟩
        exact ⟨update, u, cursor, mem_cons_of_mem _ hmem, hrenews, hle⟩
      · intro hin
        refine hin.mono (hbooks.instanceAt service address) (fun u member _ => hbooks.stateOf u member) ?_ hgrows
        intro u member id' n hu hid' hfloor
        by_cases he : id' = id
        · subst he
          have hdue := not_due hframes hnot hid' (t := t)
          obtain ⟨hactive, _, _⟩ := (hreg.reached service address u).mp hu
          left
          refine ⟨⟨_, mem_cons_self, (hreg.listening id' u member).mpr ⟨hactive, hid'⟩⟩, ?_⟩
          have hn : n = w.emitted id' := by
            rcases hfloor with ⟨hd, _⟩ | ⟨_, hn⟩
            · exact (hdue hd).elim
            · exact hn
          have hem : (w.setState id' s).emitted id' = w.emitted id' + 1 := by
            rw [emitted_setState_self, hemit]
          rw [hn]
          exact hem.symm
        · refine hfloor.of_eq ?_ (emitted_setState_other w s he)
          rw [due_cons]
          constructor
          · rintro (howes | hdue)
            · have := ((hreg.listening id u member).mp howes).2
              rw [hid'] at this
              cases this
              exact absurd rfl he
            · exact hdue
          · exact Or.inr

variable {rest : List (Frame V O)}

/-- The queue of a state after its first publication has been taken out. -/
theorem startDelivery_queues (h : w.Queues)
    (hrest : ∀ id' publication left, id' ≠ id →
      (.deliver id' publication left ∈ rest ↔ .deliver id' publication left ∈ w.stack))
    (hnot : ∀ publication left, .deliver id publication left ∉ rest)
    (hd : s.delivering = true) (hlen : s.publications.length ≤ s.sequence)
    (hnumber : publication.sequence = s.sequence - s.publications.length) (hpos : 0 < publication.sequence)
    (hnum : s.publications.map Publication.sequence =
      range' (s.sequence - s.publications.length + 1) s.publications.length) (left : List (Nat × JsString)) :
    ({ w.setState id s with stack := .deliver id publication left :: rest } : World V O).Queues := by
  have hself : ((w.setState id s).states id) = s := setState_self w id s
  constructor
  · intro id'
    by_cases he : id' = id
    · rw [he]
      simp only [hself]
      exact hlen
    · simp only [setState_other w s he]
      exact h.enough id'
  · intro id'
    by_cases he : id' = id
    · rw [he]
      simp only [emitted, hself]
      exact hnum
    · have hn := h.numbered id'
      simp only [emitted, setState_other w s he] at hn ⊢
      exact hn
  · intro id' publication' left' hmem
    by_cases he : id' = id
    · subst he
      rcases mem_cons.mp hmem with heq | hmem
      · cases heq
        simp only [emitted, hself]
        exact ⟨hd, hnumber, by omega⟩
      · exact absurd hmem (hnot publication' left')
    · have hmem' : .deliver id' publication' left' ∈ w.stack := by
        rcases mem_cons.mp hmem with heq | hmem
        · cases heq
          exact absurd rfl he
        · exact (hrest id' publication' left' he).mp hmem
      have hb := h.busy id' publication' left' hmem'
      simp only [emitted, setState_other w s he] at hb ⊢
      exact hb
  · intro id' hnone
    by_cases he : id' = id
    · subst he
      exact absurd mem_cons_self (hnone publication left)
    · simp only [setState_other w s he]
      apply h.idle id'
      intro publication' left' hmem
      exact hnone publication' left' (mem_cons_of_mem _ ((hrest id' publication' left' he).mpr hmem))

/-- The delivery goes on to the next publication, or ends. -/
theorem shiftPublication_inv (h : Inv exempt w) (hstack : w.stack = .deliver id publication [] :: rest) :
    Inv exempt (w.shiftPublication id rest) := by
  have hpairs := h.frames.pairs
  rw [hstack, pairwise_cons] at hpairs
  have hnot : ∀ publication' left', .deliver id publication' left' ∉ rest := by
    intro publication' left' hmem
    exact ((hpairs.1 _ hmem).delivering id publication [] rfl).1 publication' left' rfl
  have hrest : ∀ id' publication' left', id' ≠ id →
      (.deliver id' publication' left' ∈ rest ↔ .deliver id' publication' left' ∈ w.stack) := by
    intro id' publication' left' he
    rw [hstack]
    simp [he]
  have hreg := (sameBooks_restack w rest).registry h.registry
  have hframes := h.frames.pop hstack
  have hseats : ({ w with stack := rest } : World V O).Seats := by
    exact h.seats.restack (fun _ => rfl) rfl rfl fun c => by simp [hstack]
  have hviews : ({ w with stack := rest } : World V O).Views exempt := by
    refine h.views.of_follows rfl rfl (fun _ => rfl) ?_
    intro service t c _ v f hf
    refine hf.restack h.registry _ ?_ ?_ ?_
    · intro snapshot u cursor hmem hle
      exact ⟨cursor, by rw [hstack]; exact mem_cons_of_mem _ hmem, hle⟩
    · rintro address ⟨update, u, cursor, hmem, hrenews, hle⟩
      rw [hstack] at hmem
      exact ⟨update, u, cursor, by simpa using hmem, hrenews, hle⟩
    · intro u member _ _
      simp only [Due, hstack, mem_cons, exists_eq_or_imp, Frame.Owes, not_mem_nil, false_or]
  have hbusy := h.queues.busy id publication [] (by rw [hstack]; exact mem_cons_self)
  have hlen := h.queues.enough id
  have hnum := h.queues.numbered id
  simp only [shiftPublication]
  cases hp : (w.states id).publications with
  | nil =>
    have hbooks := sameBooks_setState { w with stack := rest } id
      (s := { w.states id with publications := [], delivering := false }) rfl
    have hself : (({ w with stack := rest } : World V O).setState id
      { w.states id with publications := [], delivering := false }).states id =
        { w.states id with publications := [], delivering := false } := setState_self _ _ _
    have hsame : ∀ id', (({ w with stack := rest } : World V O).setState id
        { w.states id with publications := [], delivering := false }).emitted id' = w.emitted id' ∧
        (({ w with stack := rest } : World V O).setState id
          { w.states id with publications := [], delivering := false }).states id' =
          if id' = id then { w.states id with publications := [], delivering := false } else w.states id' := by
      intro id'
      by_cases he : id' = id
      · rw [he, if_pos rfl, emitted_setState_self, emitted, hp]
        exact ⟨rfl, hself⟩
      · rw [if_neg he, emitted_setState_other _ _ he]
        exact ⟨rfl, setState_other _ _ he⟩
    have hinv : Inv exempt (({ w with stack := rest } : World V O).setState id
        { w.states id with publications := [], delivering := false }) := by
      constructor
      · constructor
        · intro id'
          rw [(hsame id').2]
          split
          · exact Nat.zero_le _
          · exact h.queues.enough id'
        · intro id'
          rw [(hsame id').1, (hsame id').2]
          split
          · rfl
          · exact h.queues.numbered id'
        · intro id' publication' left' hmem
          have hne : id' ≠ id := by
            intro he
            subst he
            exact hnot publication' left' hmem
          rw [(hsame id').1, (hsame id').2, if_neg hne]
          exact h.queues.busy id' publication' left' ((hrest id' publication' left' hne).mp hmem)
        · intro id' hnone
          rw [(hsame id').2]
          split
          · exact ⟨rfl, rfl⟩
          · rename_i he
            apply h.queues.idle id'
            intro publication' left' hmem
            exact hnone publication' left' ((hrest id' publication' left' he).mpr hmem)
      · exact hbooks.registry hreg
      · exact hseats.of_eq (fun _ => rfl) rfl rfl (fun _ _ hx => hx) (fun _ hx => hx)
      · refine hframes.mono rfl hbooks (fun c _ hcl hre => ⟨hcl, hre, rfl⟩) (fun _ _ hx => hx) ?_
        intro u _ member id' _
        rw [(hsame id').1, (hsame id').2]
        refine ⟨rfl, ?_⟩
        split
        · rename_i he
          rw [he]
        · exact Nat.le_refl _
      · refine hviews.of_follows rfl rfl (fun _ => rfl) ?_
        intro service t c _ v f hf
        refine hf.mono (fun _ => Nat.le_refl _) (fun snapshot u cursor hmem hle => ⟨cursor, hmem, hle⟩) ?_
        intro address
        apply Or.imp_right
        apply Or.imp_right
        intro hin
        refine hin.mono (hbooks.instanceAt service address) (fun u member _ => hbooks.stateOf u member)
          (fun u member id' n _ _ hn => hn.of_eq Iff.rfl (hsame id').1) ?_
        intro id'
        rw [(hsame id').2]
        split
        · rename_i he
          rw [he]
        · exact Nat.le_refl _
    exact hinv
  | cons publication' publications =>
    rw [hp, length_cons] at hlen hnum
    rw [map_cons, range'_succ, cons.injEq] at hnum
    have hem : w.emitted id = (w.states id).sequence - (publications.length + 1) := by
      rw [emitted, hp, length_cons]
    have hfree : Free ({ w with stack := rest } : World V O) id := by
      intro u member hactive hid
      constructor
      · rintro ⟨c, hc, hrepl⟩
        obtain ⟨p, hp, rfl⟩ := mem_map.mp hc
        obtain ⟨hserv, hclosed⟩ := h.seats.seated _ p.1 p.2 hp
        have hne : (w.subscribers p.2).replaying ≠ [] := by simpa using hrepl
        have hmem := h.seats.replaying p.2 hne
        rw [hstack] at hmem
        have hmem : .replay p.2 ∈ rest := by simpa using hmem
        exact ((hpairs.1 _ hmem).replay p.2 rfl hclosed hne).2 id publication [] rfl u member hactive hserv.symm hid
      · intro frame hmem hann hpend
        have hpend' : w.Pending frame := by cases frame <;> exact hpend
        exact ((hpairs.1 _ hmem).announcing u hann hpend').1 id publication [] rfl member hid
    obtain ⟨hf, hv⟩ := startDelivery_layers hreg hseats hframes hviews hnot hfree
      (s := { w.states id with publications := publications }) rfl (by
        show (w.states id).sequence - publications.length = w.emitted id + 1
        omega) (Nat.le_refl _) publication'
    constructor
    · refine startDelivery_queues (s := { w.states id with publications := publications }) h.queues hrest hnot hbusy.1
        (by show publications.length ≤ (w.states id).sequence; omega) ?_ ?_ ?_ _
      · show publication'.sequence = (w.states id).sequence - publications.length
        omega
      · omega
      · show publications.map Publication.sequence =
          range' ((w.states id).sequence - publications.length + 1) publications.length
        rw [hnum.2]
        congr 1
        omega
    · exact (sameBooks_restack _ _).registry
        ((sameBooks_setState w id (s := { w.states id with publications := publications }) rfl).registry h.registry)
    · exact hseats.restack (fun _ => rfl) rfl rfl fun c => by simp
    · exact hf
    · exact hv

theorem commit_inv (h : Inv exempt w) (diff : V → V → List O) (id : Nat) (next : V)
    (hallowed : w.Allowed diff (.commit id next)) : Inv exempt (w.commit diff id next) := by
  simp only [commit]
  split
  · exact h
  · rename_i hops
    split
    · rename_i hd
      exact enqueue_inv h rfl rfl rfl rfl rfl hd
    · rename_i hd
      have hidle : (w.states id).delivering = false := by simpa using hd
      have hnot : ∀ publication left, .deliver id publication left ∉ w.stack := by
        intro publication left hmem
        have := (h.queues.busy id publication left hmem).1
        rw [hidle] at this
        cases this
      have hempty := (h.queues.idle id hnot).2
      have hem : w.emitted id = (w.states id).sequence := by
        rw [emitted, hempty, length_nil, Nat.sub_zero]
      have hfree : Free w id := by
        intro u member hactive hid
        have hall := (hallowed.resolve_left hops).resolve_left (by rw [hidle]; exact Bool.false_ne_true)
        have hlt : u < w.instanceCount := by
          by_contra hge
          have := (h.registry.fresh u (by omega)).1
          rw [hactive] at this
          cases this
        apply hall u hlt hactive
        rw [stateOf_eq_some] at hid
        exact ⟨_, JsProps.mem_of_get? hid, rfl⟩
      simp only [shiftPublication, setState_self, hempty, nil_append]
      obtain ⟨hf, hv⟩ := startDelivery_layers h.registry h.seats h.frames h.views hnot hfree
        (s := ⟨next, (w.states id).sequence + 1, [], true, (w.states id).sourceListeners,
          Function.update (w.states id).valueAt ((w.states id).sequence + 1) next⟩) rfl (by rw [hem]; rfl) (Nat.le_succ _)
        ⟨(w.states id).sequence + 1, diff (w.states id).value next⟩
      have hset : ∀ s s' : ReplicatedState V O, (w.setState id s).setState id s' = w.setState id s' := by
        intro s s'
        simp [setState]
      rw [hset]
      constructor
      · exact startDelivery_queues h.queues (fun _ _ _ _ => Iff.rfl) hnot rfl (Nat.zero_le _) rfl (Nat.succ_pos _) rfl _
      · exact (sameBooks_restack _ _).registry ((sameBooks_setState w id (s :=
          ⟨next, (w.states id).sequence + 1, [], true, (w.states id).sourceListeners,
            Function.update (w.states id).valueAt ((w.states id).sequence + 1) next⟩) rfl).registry h.registry)
      · exact h.seats.restack (fun _ => rfl) rfl rfl fun c => by simp
      · exact hf
      · exact hv

theorem World.Registry.lt_of_active (h : w.Registry) (hu : (w.instances u).active = true) :
    u < w.instanceCount := by
  by_contra hge
  have := (h.fresh u (by omega)).1
  rw [hu] at this
  cases this

/-- The delivery turns to the next member that listens to the state. -/
theorem sourceStep_inv (h : Inv exempt w) {left : List (Nat × JsString)}
    (hstack : w.stack = .deliver id publication ((u, member) :: left) :: rest) : Inv exempt w.next := by
  have htop : .deliver id publication ((u, member) :: left) ∈ w.stack := by
    rw [hstack]
    exact List.mem_cons_self
  have hpairs := h.frames.pairs
  rw [hstack, List.pairwise_cons] at hpairs
  obtain ⟨hnd, hlisten⟩ := h.frames.deliver id publication _ htop
  obtain ⟨hnew, hnd'⟩ := List.nodup_cons.mp hnd
  have hid : w.stateOf u member = some id := hlisten (u, member) List.mem_cons_self
  have hgoing : ({ w with stack := .deliver id publication left :: rest } : World V O).Frames := by
    apply (h.frames.pop hstack).push
    constructor
    · intro lower hl
      have hc := (hpairs.1 lower hl).restack rest
      obtain ⟨hone, hemit⟩ := hc.delivering id publication _ rfl
      exact compatible_deliver (fun c he hclosed hrepl => (hc.replay c he hclosed hrepl).2 id publication _ rfl)
        (fun u' hann hpend => (hc.announcing u' hann hpend).1 id publication _ rfl) hone hemit
    · intro id' publication' left' hd
      cases hd
      exact ⟨hnd', fun l hl => hlisten l (List.mem_cons_of_mem _ hl)⟩
    all_goals
      intros
      contradiction
  have hqs : ∀ stack, (∀ id' publication', (∃ left', .deliver id' publication' left' ∈ stack) ↔
      ∃ left', .deliver id' publication' left' ∈ w.stack) → ({ w with stack := stack } : World V O).Queues := by
    intro stack hs
    exact h.queues.of_eq (fun _ => ⟨rfl, rfl, rfl⟩) hs
  have hdel : ∀ left' id' publication', (∃ left'', .deliver id' publication' left'' ∈
      .deliver id publication left' :: rest) ↔
        ((id' = id ∧ publication' = publication) ∨ ∃ left'', .deliver id' publication' left'' ∈ rest) := by
    intro left' id' publication'
    simp only [List.mem_cons, Frame.deliver.injEq]
    constructor
    · rintro ⟨left'', ⟨hi, hp, _⟩ | hmem⟩
      · exact .inl ⟨hi, hp⟩
      · exact .inr ⟨left'', hmem⟩
    · rintro (⟨rfl, rfl⟩ | ⟨left'', hmem⟩)
      · exact ⟨_, .inl ⟨rfl, rfl, rfl⟩⟩
      · exact ⟨left'', .inr hmem⟩
  have hgoingInv : (∀ service t c, (t, c) ∈ (w.registrations service).subscribers.entries →
      (w.instances u).active = true → (w.instances u).service ≠ service) →
        Inv exempt { w with stack := .deliver id publication left :: rest } := by
    intro hunseen
    refine ⟨hqs _ ?_, (sameBooks_restack _ _).registry h.registry, ?_, hgoing, ?_⟩
    · intro id' publication'
      rw [hstack, hdel, hdel]
    · exact h.seats.restack (fun _ => rfl) rfl rfl fun c => by simp [hstack]
    · refine h.views.of_follows rfl rfl (fun _ => rfl) ?_
      intro service t c hentry v f hf
      refine hf.restack h.registry _ ?_ ?_ ?_
      · intro snapshot u' cursor hmem hle
        exact ⟨cursor, by rw [hstack]; simpa using hmem, hle⟩
      · rintro address ⟨update, u', cursor, hmem, hrenews, hle⟩
        rw [hstack] at hmem
        exact ⟨update, u', cursor, by simpa using hmem, hrenews, hle⟩
      · intro u' member' hactive hserv
        have hne : u' ≠ u := by
          intro he
          rw [he] at hactive hserv
          exact hunseen service t c hentry hactive hserv
        simp [Due, hstack, Frame.Owes, hne]
  simp only [next, hstack]
  by_cases hactive : (w.instances u).active = true
  · rw [if_pos hactive, emit]
    split
    · rename_i hnobody
      apply hgoingInv
      intro service t c hentry _ he
      have hnobody' : (w.registrations (w.instances u).service).subscribers.entries = [] := hnobody
      rw [he] at hnobody'
      rw [hnobody'] at hentry
      cases hentry
    · constructor
      · refine hqs _ ?_
        intro id' publication'
        rw [hstack, hdel, ← hdel left]
        simp
      · exact (sameBooks_restack w _).registry h.registry
      · exact h.seats.restack (fun _ => rfl) rfl rfl fun c => by simp [hstack]
      · refine hgoing.push ⟨?_, ?_, ?_, ?_, ?_⟩
        · intro lower hl
          apply compatible_emit
          · intro c he hclosed hrepl hserv
            rcases List.mem_cons.mp hl with heq | hl
            · rw [heq] at he
              cases he
            · exact ((hpairs.1 lower hl).replay c he hclosed hrepl).2 id publication _ rfl u member hactive hserv
                hid
          · intro hann hpend
            rcases List.mem_cons.mp hl with heq | hl
            · rw [heq] at hann
              cases hann
            · exact ((hpairs.1 lower hl).announcing u hann (by cases lower <;> exact hpend)).1 id publication _ rfl
                member hid
          · intro address member' sequence ops he service' address' sequence' ops' cursor' hlower
            cases he
            rcases List.mem_cons.mp hl with heq | hl
            · rw [heq] at hlower
              cases hlower
            · exact ((hpairs.1 lower hl).delivering id publication _ rfl).2 service' address' member sequence' ops' u
                cursor' hlower hid
        · intro id' publication' left' he
          cases he
        · intro service update u' cursor he
          cases he
          exact ⟨h.registry.lt_of_active hactive, rfl, fun _ => ⟨hactive, rfl⟩⟩
        · intro service address member' sequence ops u' cursor he
          cases he
          exact ⟨id, publication, left, hid, List.mem_cons_self, hnew, rfl, rfl⟩
        · intro service address u' cursor he
          cases he
      · refine h.views.of_follows rfl rfl (fun _ => rfl) ?_
        intro service t c hentry v f hf
        refine hf.restack h.registry _ ?_ ?_ ?_
        · intro snapshot u' cursor hmem hle
          exact ⟨cursor, by rw [hstack]; simpa using hmem, hle⟩
        · rintro address ⟨update, u', cursor, hmem, hrenews, hle⟩
          rw [hstack] at hmem
          have hin : .emit service update u' cursor ∈ rest := by simpa using hmem
          exact ⟨update, u', cursor, List.mem_cons_of_mem _ (List.mem_cons_of_mem _ hin), hrenews, hle⟩
        · intro u' member' _ _
          simp only [Due, hstack, List.mem_cons, exists_eq_or_imp, Frame.Owes, Prod.mk.injEq, Nat.zero_le, and_true]
          rw [eq_comm (a := u), eq_comm (a := member), or_assoc]
  · rw [if_neg hactive]
    apply hgoingInv
    intro service t c _ ha
    exact absurd ha hactive

end Publications

end Shuvpi.Provider
