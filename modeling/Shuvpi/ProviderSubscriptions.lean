import Shuvpi.ProviderVisits

/-!
# Subscriptions come and go

A new subscription begins in step with the snapshot it is given, whatever loops are in
progress above it, as long as none of them announces or withdraws an instance of the
service; a closed one is not looked at again.
-/
namespace Shuvpi.Provider

open List hiding singleton
open Option hiding none some
open Function

variable {V O : Type}

section Subscriptions

open World

variable {w : World V O}

/-- What the end of a subscription changes. -/
structure Unsubscribed (w : World V O) (c : Nat) (w' : World V O) : Prop where
  open_ : (w.subscribers c).closed = false
  self : w'.subscribers c = { w.subscribers c with closed := true, buffer := [] }
  other : ∀ c', c' ≠ c → w'.subscribers c' = w.subscribers c'
  entries : ∀ service p, p ∈ (w'.registrations service).subscribers.entries ↔
    p ∈ (w.registrations service).subscribers.entries ∧ p.2 ≠ c
  states : w'.states = w.states
  stack : w'.stack = w.stack
  count : w'.subscriberCount = w.subscriberCount
  books : SameBooks w w'

theorem unsubscribe_cases (h : w.Seats) (c : Nat) : w.unsubscribe c = w ∨ Unsubscribed w c (w.unsubscribe c) := by
  rw [unsubscribe]
  split
  · exact .inl rfl
  · rename_i hopen
    refine .inr ⟨by simpa using hopen, update_self _ _ _, fun c' he => update_of_ne he _ _, fun service p => ?_, rfl, rfl, rfl,
      fun service => ?_, rfl, rfl, fun _ => rfl⟩
    · by_cases he : service = (w.subscribers c).service
      · subst he
        simp only [setSubscriber, setRegistration, update_self]
        exact JsSet.mem_delete
      · simp only [setSubscriber, setRegistration, update_of_ne he]
        refine ⟨fun hp => ⟨hp, fun hpc => ?_⟩, And.left⟩
        have hs := (h.seated service p.1 p.2 hp).1
        rw [hpc] at hs
        exact he hs.symm
    · by_cases he : service = (w.subscribers c).service
      · simp [setSubscriber, setRegistration, he]
      · simp [setSubscriber, setRegistration, update_of_ne he]

theorem unsubscribe_inv (h : Inv noneExempt w) (c : Nat) : Inv noneExempt (w.unsubscribe c) := by
  rcases unsubscribe_cases h.seats c with heq | hsub
  · rw [heq]
    exact h
  · generalize w.unsubscribe c = w' at hsub
    obtain ⟨hclosed, hself, hother, hentries, hsts, hstack, hcount, hbooks⟩ := hsub
    have hemit : ∀ id, w'.emitted id = w.emitted id := by
      intro id
      rw [emitted, emitted, hsts]
    constructor
    · exact h.queues.of_eq (fun id => by rw [hsts]; exact ⟨rfl, rfl, rfl⟩) (fun _ _ => by rw [hstack])
    · exact hbooks.registry h.registry
    · constructor
      · intro service t c' hp
        obtain ⟨hp, hne⟩ := (hentries service (t, c')).mp hp
        rw [hother c' hne]
        exact h.seats.seated service t c' hp
      · intro c' hcl
        by_cases he : c' = c
        · rw [he, hself] at hcl
          cases hcl
        · rw [hother c' he] at hcl ⊢
          obtain ⟨t, ht⟩ := h.seats.seat c' hcl
          exact ⟨t, (hentries _ (t, c')).mpr ⟨ht, he⟩⟩
      · intro c' hc'
        have hne : c' ≠ c := by
          intro he
          rw [he, hcount] at hc'
          exact Nat.not_le_of_lt (h.seats.lt_of_open hclosed) hc'
        rw [hother c' hne]
        exact h.seats.fresh c' (by rw [← hcount]; exact hc')
      · intro c' ha
        by_cases he : c' = c
        · rw [he, hself]
        · rw [hother c' he] at ha ⊢
          exact h.seats.active c' ha
      · intro c' ha
        by_cases he : c' = c
        · rw [he, hself] at ha ⊢
          exact h.seats.inactive c ha
        · rw [hother c' he] at ha ⊢
          exact h.seats.inactive c' ha
      · intro c' hne
        rw [hstack]
        apply h.seats.replaying c'
        by_cases he : c' = c
        · rw [he, hself] at hne
          rw [he]
          exact hne
        · rwa [hother c' he] at hne
      · intro c' hmem
        rw [hstack] at hmem
        have ha := h.seats.replayed c' hmem
        by_cases he : c' = c
        · rw [he] at ha
          rw [he, hself]
          exact ha
        · rwa [hother c' he]
    · refine h.frames.mono hstack hbooks ?_ ?_ (fun u _ member id _ => ⟨hemit id, by rw [hsts]⟩)
      · intro c' _ hcl hre
        by_cases he : c' = c
        · rw [he, hself] at hcl
          cases hcl
        · rw [hother c' he] at hcl hre ⊢
          exact ⟨hcl, hre, rfl⟩
      · intro service cursor
        rw [unfinished_iff, unfinished_iff]
        rintro ⟨p, hp, hle⟩
        exact ⟨p, ((hentries service p).mp hp).1, hle⟩
    · constructor
      · intro c' hc'
        rw [hcount] at hc'
        obtain ⟨v, hv⟩ := h.views.accepted c' hc'
        by_cases he : c' = c
        · subst he
          simp only [received, hself, append_nil]
          rw [received, ← append_assoc] at hv
          exact viewOf_front hv
        · simp only [received, hother c' he]
          exact ⟨v, hv⟩
      · intro service t c' hp v
        obtain ⟨hp, hne⟩ := (hentries service (t, c')).mp hp
        simp only [received, hother c' hne]
        intro hv
        have hf := h.views.follows service t c' hp v hv
        refine hf.mono (fun key => by rw [(hbooks.registrations service).2.2.2]) ?_ ?_
        · intro snapshot u cursor hmem hle
          exact ⟨cursor, by rw [← hstack]; exact hmem, hle⟩
        · intro address
          apply Or.imp_right
          apply Or.imp
          · rintro ⟨update, u, cursor, hmem, hrenews, hle⟩
            exact ⟨update, u, cursor, by rw [hstack]; exact hmem, hrenews, hle⟩
          · intro hin
            refine hin.mono (hbooks.instanceAt service address) (fun u member _ => hbooks.stateOf u member) ?_
              (fun id => by rw [hsts])
            intro u member id n _ _ hn
            exact hn.of_eq (by rw [Due, Due, hstack]) (hemit id)

/-- The snapshot lists the instances of the service, each once. -/
theorem snapshot_sources (h : w.Registry) (before : JsString → JsString → Bool) (service : Nat) :
    ∃ told : List Nat, w.snapshot before (w.registrations service) = told.map w.snapshotInstance ∧
      (told.map fun u => (w.instances u).address).Nodup ∧
      ∀ u, u ∈ told ↔ ∃ address, w.instanceAt service address = some u := by
  rw [World.snapshot]
  cases hmode : (w.registrations service).mode with
  | singleton =>
    have hinsts := (h.modes service).1 hmode
    refine ⟨(w.registrations service).singleton.toList, rfl, ?_, ?_⟩
    · cases (w.registrations service).singleton <;> simp
    · intro u
      constructor
      · intro hu
        exact ⟨none, by simpa [instanceAt] using hu⟩
      · rintro ⟨address, hu⟩
        cases address with
        | none => simpa [instanceAt] using hu
        | some a => simp [instanceAt, hinsts] at hu
  | keyed =>
    have hsing := (h.modes service).2 hmode
    have hperm := List.mergeSort_perm (w.registrations service).instances fun p q => before p.1 q.1
    have hat : ∀ p ∈ (w.registrations service).instances, ∃ generation,
        (w.instances p.2).address = some ⟨p.1, generation⟩ ∧
          w.instanceAt service (some ⟨p.1, generation⟩) = some p.2 := by
      intro p hp
      obtain ⟨generation, hg⟩ := h.listed service p hp
      refine ⟨generation, hg, ?_⟩
      simp only [instanceAt, JsProps.get?_of_mem (h.keys service) hp, hg, if_true]
    refine ⟨((w.registrations service).instances.mergeSort fun p q => before p.1 q.1).map Prod.snd, ?_, ?_, ?_⟩
    · rw [List.map_map]
      rfl
    · rw [List.map_map, (hperm.map _).nodup_iff]
      have hkeys := h.keys service
      rw [JsProps.keys] at hkeys
      apply List.Nodup.map_on _ (List.Nodup.of_map _ hkeys)
      intro p hp q hq he
      obtain ⟨g, hg, _⟩ := hat p hp
      obtain ⟨g', hg', _⟩ := hat q hq
      simp only [Function.comp, hg, hg', Option.some.injEq, ServiceInstanceAddress.mk.injEq] at he
      exact List.inj_on_of_nodup_map hkeys hp hq he.1
    · intro u
      constructor
      · intro hu
        obtain ⟨p, hp, rfl⟩ := List.mem_map.mp hu
        obtain ⟨g, _, hu⟩ := hat p (hperm.subset hp)
        exact ⟨_, hu⟩
      · rintro ⟨address, hu⟩
        cases address with
        | none => simp [instanceAt, hsing] at hu
        | some a =>
          simp only [instanceAt] at hu
          cases hget : JsProps.get? (w.registrations service).instances a.key with
          | none => rw [hget] at hu; cases hu
          | some u' =>
            rw [hget] at hu
            dsimp only at hu
            split at hu
            · cases hu
              exact List.mem_map.mpr ⟨(a.key, u), hperm.mem_iff.mpr (JsProps.mem_of_get? hget), rfl⟩
            · cases hu

theorem snapshot_spec (h : w.Registry) (before : JsString → JsString → Bool) (service : Nat) :
    ((w.snapshot before (w.registrations service)).map ServiceInstanceSnapshot.address).Nodup ∧
      (∀ s ∈ w.snapshot before (w.registrations service), ∃ u, s = w.snapshotInstance u ∧
        w.instanceAt service s.address = some u) ∧
      ∀ address u, w.instanceAt service address = some u →
        w.snapshotInstance u ∈ w.snapshot before (w.registrations service) := by
  obtain ⟨told, htold, hnodup, hmem⟩ := snapshot_sources h before service
  rw [htold, List.map_map]
  refine ⟨hnodup, ?_, fun address u hu => List.mem_map.mpr ⟨u, (hmem u).mpr ⟨address, hu⟩, rfl⟩⟩
  intro s hs
  obtain ⟨u, hu, rfl⟩ := List.mem_map.mp hs
  obtain ⟨address, hu⟩ := (hmem u).mp hu
  refine ⟨u, rfl, ?_⟩
  rw [← ((h.reached service address u).mp hu).2.2] at hu
  exact hu

/-- A new subscriber knows what its snapshot says. -/
theorem snapshot_follows (h : Inv noneExempt w) (before : JsString → JsString → Bool) (service t : Nat)
    (hharm : ∀ frame ∈ w.stack, w.Harmless service frame) :
    ∃ v, viewOf (w.snapshot before (w.registrations service)) ([] : List (ServiceProviderUpdate V O)) = some v ∧
      w.Follows noneExempt service t v
        ((w.snapshot before (w.registrations service)).foldl recordSnapshotSequences fun _ => none) := by
  obtain ⟨hnd, hlist, hall⟩ := snapshot_spec h.registry before service
  have hnames : ∀ s ∈ w.snapshot before (w.registrations service), (JsProps.keys s.members).Nodup := by
    intro s hs
    obtain ⟨u, rfl, _⟩ := hlist s hs
    exact snapshotInstance_nodup w u
  generalize hL : w.snapshot before (w.registrations service) = snapshots at hnd hlist hall hnames
  obtain ⟨announced, he, hmem⟩ := announceAll_eq snapshots ⟨[], fun _ => none⟩ hnd
    (fun s _ address _ => not_mem_nil)
  have hself : ∀ address u member, w.instanceAt service address = some u →
      snapshots.foldl recordSnapshotSequences (fun _ => none) (address, member) =
        (w.stateOf u member).map fun id => (w.states id).sequence := by
    intro address u member hu
    have haddr : (w.snapshotInstance u).address = address := ((h.registry.reached service address u).mp hu).2.2
    have := foldl_record_self snapshots hnames hnd (fun _ => none) member (hall address u hu)
    rw [haddr, snapshotInstance_sequenceOf, or_none] at this
    exact this
  have hnone : ∀ address member, w.instanceAt service address = none →
      snapshots.foldl recordSnapshotSequences (fun _ => none) (address, member) = none := by
    intro address member hu
    rw [foldl_record_other snapshots hnames]
    intro s hs hsa
    obtain ⟨u, _, hu'⟩ := hlist s hs
    rw [hsa, hu] at hu'
    cases hu'
  refine ⟨⟨announced, snapshots.foldl recordSnapshotSequences fun _ => none⟩, ?_, ?_⟩
  · rw [viewOf, he]
    rfl
  · constructor
    · exact fun _ _ hx => hx
    · intro a member hne
      rw [hmem]
      right
      by_contra hno
      apply hne
      apply foldl_record_other snapshots hnames
      intro s hs hsa
      exact hno ⟨s, hs, hsa⟩
    · intro a ha
      rcases (hmem a).mp ha with ha | ⟨s, hs, hsa⟩
      · cases ha
      · obtain ⟨u, _, hu⟩ := hlist s hs
        rw [hsa] at hu
        obtain ⟨hactive, hserv, haddr⟩ := (h.registry.reached service (some a) u).mp hu
        have := h.registry.dated u a hactive haddr
        rwa [hserv] at this
    · intro snapshot u cursor a hframe
      exact absurd rfl (hharm _ hframe)
    · intro address
      right
      right
      constructor
      · intro u member id hu hid
        obtain ⟨n, hn, hne⟩ := floor_exists h.queues h.frames hid t
        have hk := hself address u member hu
        rw [hid, map_some] at hk
        have hle : w.emitted id ≤ (w.states id).sequence := Nat.sub_le _ _
        refine ⟨n, (w.states id).sequence, hn, hk, by omega, Nat.le_refl _, ?_⟩
        intro hx
        rw [hk] at hx
        cases hx
      · intro member hm
        dsimp only
        cases hu : w.instanceAt service address with
        | none => exact hnone address member hu
        | some u => rw [hself address u member hu, hm u hu, map_none]

/-- What a new subscription changes. -/
structure Subscribed (w : World V O) (before : JsString → JsString → Bool) (service : Nat) (w' : World V O) : Prop where
  self : w'.subscribers w.subscriberCount = ⟨service, w.snapshot before (w.registrations service), [],
    (w.snapshot before (w.registrations service)).foldl recordSnapshotSequences (fun _ => none), false, false, [], [],
    fun u => u < w.instanceCount && !(w.instances u).active⟩
  other : ∀ c, c ≠ w.subscriberCount → w'.subscribers c = w.subscribers c
  entries : ∀ service' p, p ∈ (w'.registrations service').subscribers.entries →
    p ∈ (w.registrations service').subscribers.entries ∨ (service' = service ∧ p.2 = w.subscriberCount)
  kept : ∀ service', ∀ p ∈ (w.registrations service').subscribers.entries, p ∈ (w'.registrations service').subscribers.entries
  seat : ∃ t, (t, w.subscriberCount) ∈ (w'.registrations service).subscribers.entries
  states : w'.states = w.states
  stack : w'.stack = w.stack
  count : w'.subscriberCount = w.subscriberCount + 1
  books : SameBooks w w'

theorem subscribe_cases (w : World V O) (before : JsString → JsString → Bool) (service : Nat) (mode : ServiceMode) :
    w.subscribe before service mode = w ∨ Subscribed w before service (w.subscribe before service mode) := by
  rw [subscribe]
  split
  · exact .inl rfl
  · refine .inr ⟨update_self _ _ _, fun c he => update_of_ne he _ _, fun service' p hp => ?_, fun service' p hp => ?_, ?_,
      rfl, rfl, rfl, fun service' => ?_, rfl, rfl, fun _ => rfl⟩
    · by_cases he : service' = service
      · subst he
        simp only [setSubscriber, setRegistration, update_self] at hp
        exact (JsSet.mem_add hp).imp id fun hx => ⟨rfl, by rw [hx]⟩
      · simp only [setSubscriber, setRegistration, update_of_ne he] at hp
        exact .inl hp
    · by_cases he : service' = service
      · subst he
        simp only [setSubscriber, setRegistration, update_self]
        exact JsSet.subset_add _ _ p hp
      · simp only [setSubscriber, setRegistration, update_of_ne he]
        exact hp
    · simp only [setSubscriber, setRegistration, update_self]
      exact JsSet.add_mem _ _
    · by_cases he : service' = service
      · simp [setSubscriber, setRegistration, he]
      · simp [setSubscriber, setRegistration, update_of_ne he]

theorem subscribe_inv (h : Inv noneExempt w) (before : JsString → JsString → Bool) (service : Nat) (mode : ServiceMode)
    (hharm : ∀ frame ∈ w.stack, w.Harmless service frame) : Inv noneExempt (w.subscribe before service mode) := by
  rcases subscribe_cases w before service mode with heq | hsub
  · rw [heq]
    exact h
  · generalize w.subscribe before service mode = w' at hsub
    obtain ⟨hself, hother, hentries, hkept, hseat, hsts, hstack, hcount, hbooks⟩ := hsub
    have hreg := hbooks.registrations
    have hinsts := hbooks.instances
    have hseated : ∀ service' t c', (t, c') ∈ (w.registrations service').subscribers.entries →
        c' ≠ w.subscriberCount := by
      intro service' t c' hp he
      have hcl := (h.seats.seated service' t c' hp).2
      rw [he, (h.seats.fresh w.subscriberCount (Nat.le_refl _)).1] at hcl
      cases hcl
    have hemit : ∀ id, w'.emitted id = w.emitted id := by
      intro id
      rw [emitted, emitted, hsts]
    have hunfin : ∀ service' cursor, service' ≠ service → w'.Unfinished service' cursor →
        w.Unfinished service' cursor := by
      intro service' cursor hne
      rw [unfinished_iff, unfinished_iff]
      rintro ⟨p, hp, hle⟩
      rcases hentries service' p hp with hp | ⟨he, _⟩
      · exact ⟨p, hp, hle⟩
      · exact absurd he hne
    have hfoll : ∀ service' t v f, w.Follows noneExempt service' t v f → w'.Follows noneExempt service' t v f := by
      intro service' t v f hf
      refine hf.mono (fun key => by rw [(hreg service').2.2.2]) ?_ ?_
      · intro snapshot u cursor hmem hle
        exact ⟨cursor, by rw [← hstack]; exact hmem, hle⟩
      · intro address
        apply Or.imp_right
        apply Or.imp
        · rintro ⟨update, u, cursor, hmem, hrenews, hle⟩
          exact ⟨update, u, cursor, by rw [hstack]; exact hmem, hrenews, hle⟩
        · intro hin
          refine hin.mono (hbooks.instanceAt service' address) (fun u member _ => hbooks.stateOf u member) ?_
            (fun id => by rw [hsts])
          intro u member id n _ _ hn
          exact hn.of_eq (by rw [Due, Due, hstack]) (hemit id)
    constructor
    · exact h.queues.of_eq (fun id => by rw [hsts]; exact ⟨rfl, rfl, rfl⟩) (fun _ _ => by rw [hstack])
    · exact hbooks.registry h.registry
    · constructor
      · intro service' t c' hp
        rcases hentries service' (t, c') hp with hp | ⟨hs, hc⟩
        · rw [hother c' (hseated service' t c' hp)]
          exact h.seats.seated service' t c' hp
        · have hc : c' = w.subscriberCount := hc
          rw [hc, hself]
          exact ⟨hs.symm, rfl⟩
      · intro c' hcl
        by_cases he : c' = w.subscriberCount
        · rw [he, hself]
          exact hseat
        · rw [hother c' he] at hcl ⊢
          obtain ⟨t, ht⟩ := h.seats.seat c' hcl
          exact ⟨t, hkept _ _ ht⟩
      · intro c' hc'
        rw [hcount] at hc'
        rw [hother c' (by omega)]
        exact h.seats.fresh c' (by omega)
      · intro c' ha
        by_cases he : c' = w.subscriberCount
        · rw [he, hself]
        · rw [hother c' he] at ha ⊢
          exact h.seats.active c' ha
      · intro c' ha
        by_cases he : c' = w.subscriberCount
        · rw [he, hself]
        · rw [hother c' he] at ha ⊢
          exact h.seats.inactive c' ha
      · intro c' hne
        rw [hstack]
        by_cases he : c' = w.subscriberCount
        · rw [he, hself] at hne
          exact absurd rfl hne
        · rw [hother c' he] at hne
          exact h.seats.replaying c' hne
      · intro c' hmem
        rw [hstack] at hmem
        have ha := h.seats.replayed c' hmem
        by_cases he : c' = w.subscriberCount
        · rw [he, (h.seats.fresh w.subscriberCount (Nat.le_refl _)).2] at ha
          cases ha
        · rwa [hother c' he]
    · constructor
      · rw [hstack]
        apply h.frames.pairs.imp_of_mem
        intro upper lower _ hlower hc
        apply hc.mono
        · intro c' _ hcl hre
          by_cases he : c' = w.subscriberCount
          · rw [he, hself] at hre
            exact absurd rfl hre
          · rw [hother c' he] at hcl hre ⊢
            exact ⟨hcl, hre, rfl⟩
        · intro c' _ _ _ u hu _
          rw [hinsts] at hu ⊢
          exact ⟨hu, rfl⟩
        · exact fun u member _ => hbooks.stateOf u member
        · intro u hann
          have hh := hharm lower hlower
          cases lower with
          | emit service' update about cursor =>
            cases update with
            | replaced | spawned => exact hunfin service' cursor hh
            | _ => cases hann
          | _ => cases hann
      · intro id publication left hmem
        rw [hstack] at hmem
        obtain ⟨hnd, hl⟩ := h.frames.deliver id publication left hmem
        exact ⟨hnd, fun l hin => by rw [hbooks.stateOf]; exact hl l hin⟩
      · intro service' update u cursor hmem
        rw [hstack] at hmem
        obtain ⟨hu, hserv, htells⟩ := h.frames.emit service' update u cursor hmem
        rw [hbooks.count, hinsts]
        refine ⟨hu, hserv, ?_⟩
        intro hunf
        have hh := hharm _ hmem
        have hmono : w.Tells service' u update → w'.Tells service' u update := by
          intro ht
          exact ht.mono (by rw [hinsts]) (hbooks.instanceAt service') (hreg service').1
            (fun _ member id _ => ⟨hemit id, by rw [hsts]⟩)
        by_cases hs : service' = service
        · apply hmono
          cases update with
          | state address member sequence ops =>
            obtain ⟨_, _, _, _, _, _, _, haddr⟩ := h.frames.state _ _ _ _ _ _ _ hmem
            exact ⟨hh hs, haddr⟩
          | closed a => exact (h.frames.closed _ _ _ _ hmem).1
          | _ => exact absurd hs hh
        · exact hmono (htells (hunfin service' cursor hs hunf))
      · intro service' address member sequence ops u cursor hmem
        rw [hstack] at hmem ⊢
        rw [hbooks.stateOf, hinsts]
        exact h.frames.state service' address member sequence ops u cursor hmem
      · intro service' address u cursor hmem
        rw [hstack] at hmem
        rw [hbooks.instanceAt, (hreg service').2.2.2]
        exact h.frames.closed service' address u cursor hmem
    · constructor
      · intro c' hc'
        rw [hcount] at hc'
        by_cases he : c' = w.subscriberCount
        · subst he
          obtain ⟨v, hv, _⟩ := snapshot_follows h before service 0 hharm
          simp only [received, hself, append_nil]
          exact ⟨v, hv⟩
        · simp only [received, hother c' he]
          exact h.views.accepted c' (by omega)
      · intro service' t c' hp v
        rcases hentries service' (t, c') hp with hp | ⟨hs, hc⟩
        · simp only [received, hother c' (hseated service' t c' hp)]
          intro hv
          exact hfoll service' t v _ (h.views.follows service' t c' hp v hv)
        · have hc : c' = w.subscriberCount := hc
          subst hc hs
          simp only [received, hself, append_nil]
          intro hv
          obtain ⟨v', hv', hf⟩ := snapshot_follows h before service' t hharm
          rw [hv'] at hv
          cases hv
          exact hfoll service' t _ _ hf

end Subscriptions

end Shuvpi.Provider
