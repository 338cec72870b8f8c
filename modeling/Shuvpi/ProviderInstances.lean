import Shuvpi.ProviderSubscriptions

/-!
# Instances come and go

A change of the registry leaves the views out of step with one address, and the loop
that announces the change renews just that address. Removing an instance and registering
one are proved once; `withdraw`, `close`, `spawn`, `replace` and `provide` put them
together.
-/
namespace Shuvpi.Provider

open List hiding replace singleton
open Option hiding none some
open Function hiding update

variable {V O : Type}

section Books

open World

variable {w : World V O}

/-- The addresses that are exempt, and one more. -/
def alsoExempt (exempt : Nat → Option ServiceInstanceAddress → Prop) (service : Nat)
    (address : Option ServiceInstanceAddress) : Nat → Option ServiceInstanceAddress → Prop :=
  fun service' address' => exempt service' address' ∨ (service' = service ∧ address' = address)

variable {exempt : Nat → Option ServiceInstanceAddress → Prop} {service : Nat}
  {address : Option ServiceInstanceAddress}

/-- Without subscribers there is nobody to be out of step. -/
theorem drop_exempt (h : Inv (alsoExempt exempt service address) w)
    (hnobody : (w.registrations service).subscribers.entries = []) : Inv exempt w := by
  refine ⟨h.queues, h.registry, h.seats, h.frames, ?_⟩
  refine h.views.of_follows rfl rfl (fun _ => rfl) ?_
  intro service' t c hentry v f hf
  refine hf.mono (fun _ => Nat.le_refl _) (fun snapshot u cursor hmem hle => ⟨cursor, hmem, hle⟩) ?_
  intro address'
  apply Or.imp_left
  rintro (hex | ⟨rfl, _⟩)
  · exact hex
  · rw [hnobody] at hentry
    cases hentry

variable {u : Nat}

/-- The `#emit` loop that renews an address begins. -/
theorem emit_inv (h : Inv (alsoExempt exempt service address) w) {update : ServiceProviderUpdate V O}
    (hrenews : update.renews = some address) (hcount : u < w.instanceCount) (hserv : (w.instances u).service = service)
    (htells : w.Tells service u update) (hrepl : ¬ w.Replaying service)
    (hann : ∀ frame ∈ w.stack, frame.announces u = true → ¬ w.Pending frame)
    (hclosed : ∀ a, update = .closed a → a.generation ≤ (w.registrations service).generations a.key)
    (hspawned : ∀ snapshot a, update = .spawned snapshot → snapshot.address = some a → ∀ t c,
      (t, c) ∈ (w.registrations service).subscribers.entries → ∀ v,
        viewOf (w.subscribers c).snapshot (w.received c) = some v → a ∉ v.announced) :
    Inv exempt (w.emit service update u) := by
  rw [emit]
  split
  · rename_i hnobody
    exact drop_exempt h hnobody
  · constructor
    · refine h.queues.of_eq (fun _ => ⟨rfl, rfl, rfl⟩) ?_
      intro id publication
      simp
    · exact (sameBooks_restack w _).registry h.registry
    · exact h.seats.restack (fun _ => rfl) rfl rfl fun c => by simp
    · apply h.frames.push
      constructor
      · intro lower hl
        apply compatible_emit
        · intro c _ hcl hre hs
          apply hrepl
          obtain ⟨t, ht⟩ := h.seats.seat c hcl
          rw [← hs] at ht
          exact ⟨c, mem_map.mpr ⟨(t, c), ht, rfl⟩, by simpa using hre⟩
        · exact hann lower hl
        · intro address' member sequence ops he
          rw [he] at hrenews
          cases hrenews
      · intro id publication left he
        cases he
      · intro service' update' u' cursor he
        cases he
        exact ⟨hcount, hserv, fun _ => htells⟩
      · intro service' address' member sequence ops u' cursor he
        cases he
        cases hrenews
      · intro service' a u' cursor he
        cases he
        exact ⟨htells, hclosed a rfl⟩
    · constructor
      · exact h.views.accepted
      · intro service' t c hentry v hv
        have hf := h.views.follows service' t c hentry v hv
        constructor
        · exact hf.filtered
        · exact hf.announced
        · exact hf.dated
        · intro snapshot u' cursor a hmem hle ha
          rcases mem_cons.mp hmem with he | hmem
          · cases he
            exact hspawned snapshot a rfl ha t c hentry v hv
          · exact hf.unheard snapshot u' cursor a hmem hle ha
        · intro address'
          rcases hf.instep address' with (hex | ⟨rfl, rfl⟩) | ⟨update', u', cursor, hmem, hrenews', hle⟩ | hin
          · exact .inl hex
          · exact .inr (.inl ⟨update, u, 0, mem_cons_self, hrenews, Nat.zero_le _⟩)
          · exact .inr (.inl ⟨update', u', cursor, mem_cons_of_mem _ hmem, hrenews', hle⟩)
          · right
            right
            refine hin.mono ((sameBooks_restack w _).instanceAt service' address')
              (fun u' member _ => (sameBooks_restack w _).stateOf u' member) ?_ (fun _ => Nat.le_refl _)
            intro u' member id n _ _ hn
            refine hn.of_eq ?_ rfl
            rw [due_cons]
            constructor
            · rintro (ho | hdue)
              · exfalso
                cases update with
                | state address'' member' sequence ops => cases hrenews
                | _ => exact ho
              · exact hdue
            · exact Or.inr

/-- What holds of the registration that takes the place of another: it has the same
subscribers, and its instances are registered under their keys. -/
structure Successor (r r' : ServiceRegistration) : Prop where
  mode : r'.mode = r.mode
  subscribers : r'.subscribers = r.subscribers
  generations : ∀ key, r.generations key ≤ r'.generations key
  keys : (JsProps.keys r'.instances).Nodup
  modes : (r'.mode = .singleton → r'.instances = []) ∧ (r'.mode = .keyed → r'.singleton = none)

section Remove

variable {u : Nat} {r' : ServiceRegistration}

theorem deactivate_instances (w : World V O) (u u' : Nat) :
    ((w.deactivate u).instances u').service = (w.instances u').service ∧
      ((w.deactivate u).instances u').address = (w.instances u').address ∧
      ((w.deactivate u).instances u').members = (w.instances u').members ∧
      (((w.deactivate u).instances u').active = true ↔ (w.instances u').active = true ∧ u' ≠ u) ∧
      (u' ≠ u → (w.deactivate u).instances u' = w.instances u') := by
  by_cases he : u' = u
  · subst he
    simp [deactivate]
  · simp [deactivate, he]

theorem setRegistration_self (w : World V O) (service : Nat) (r : ServiceRegistration) :
    (w.setRegistration service r).registrations service = r := update_self _ _ _

theorem setRegistration_other (w : World V O) {service service' : Nat} (r : ServiceRegistration)
    (h : service' ≠ service) : (w.setRegistration service r).registrations service' = w.registrations service' :=
  update_of_ne h _ _

theorem setRegistration_same (w : World V O) {r : ServiceRegistration}
    (h : Successor (w.registrations service) r) (service' : Nat) :
    ((w.setRegistration service r).registrations service').mode = (w.registrations service').mode ∧
      ((w.setRegistration service r).registrations service').subscribers = (w.registrations service').subscribers ∧
      ∀ key, (w.registrations service').generations key ≤
        ((w.setRegistration service r).registrations service').generations key := by
  by_cases he : service' = service
  · subst he
    rw [setRegistration_self]
    exact ⟨h.mode, h.subscribers, h.generations⟩
  · rw [setRegistration_other w r he]
    exact ⟨rfl, rfl, fun _ => Nat.le_refl _⟩

/-- The tables of the services after one registration takes the place of another. -/
theorem setRegistration_tables (h : w.Registry) {w' : World V O} (hregs : w'.registrations = w.registrations)
    (hr : Successor (w.registrations service) r') (service' : Nat) :
    (JsProps.keys ((w'.setRegistration service r').registrations service').instances).Nodup ∧
      ((((w'.setRegistration service r').registrations service').mode = .singleton →
          ((w'.setRegistration service r').registrations service').instances = []) ∧
        (((w'.setRegistration service r').registrations service').mode = .keyed →
          ((w'.setRegistration service r').registrations service').singleton = none)) := by
  by_cases hs : service' = service
  · subst hs
    rw [setRegistration_self]
    exact ⟨hr.keys, hr.modes⟩
  · rw [setRegistration_other _ _ hs, hregs]
    exact ⟨h.keys service', h.modes service'⟩

/-- The registry changes at one address of a service. -/
structure Changed (w w' : World V O) (service : Nat) (address : Option ServiceInstanceAddress) : Prop where
  stack : w'.stack = w.stack
  subscribers : w'.subscribers = w.subscribers
  count : w'.subscriberCount = w.subscriberCount
  states : ∀ id, (w'.states id).sequence = (w.states id).sequence ∧
    (w'.states id).publications = (w.states id).publications ∧ (w'.states id).delivering = (w.states id).delivering
  registrations : ∀ service', (w'.registrations service').mode = (w.registrations service').mode ∧
    (w'.registrations service').subscribers = (w.registrations service').subscribers ∧
    ∀ key, (w.registrations service').generations key ≤ (w'.registrations service').generations key
  other : ∀ service' address', ¬ (service' = service ∧ address' = address) →
    w'.instanceAt service' address' = w.instanceAt service' address'
  known : ∀ u member, (w.instances u).active = true → w'.stateOf u member = w.stateOf u member

section Changed

variable {w' : World V O} (hc : Changed w w' service address)

include hc

theorem Changed.emitted (id : Nat) : w'.emitted id = w.emitted id := by
  rw [World.emitted, World.emitted, (hc.states id).1, (hc.states id).2.1]

theorem Changed.unfinished (service' cursor : Nat) : w'.Unfinished service' cursor ↔ w.Unfinished service' cursor := by
  rw [Unfinished, Unfinished, (hc.registrations service').2.1]

theorem Changed.pending (frame : Frame V O) (hp : w'.Pending frame) : w.Pending frame := by
  cases frame with
  | emit service' update about cursor => exact (hc.unfinished service' cursor).mp hp
  | _ => exact hp

theorem Changed.announces {snapshot : ServiceInstanceSnapshot V} (hsame : w'.instances u = w.instances u)
    (h : w.Announces u snapshot) : w'.Announces u snapshot :=
  h.mono hsame fun _ id _ => ⟨hc.emitted id, by rw [(hc.states id).1]⟩

theorem Changed.queues (h : w.Queues) : w'.Queues := h.of_eq hc.states fun id publication => by rw [hc.stack]

theorem Changed.seats (h : w.Seats) : w'.Seats :=
  h.restack (fun service' => (hc.registrations service').2.1) hc.subscribers hc.count fun c => by rw [hc.stack]

/-- The subscribers are out of step with the address. -/
theorem Changed.views (h : Inv exempt w) : w'.Views (alsoExempt exempt service address) := by
  refine h.views.of_follows hc.subscribers hc.count (fun service' => (hc.registrations service').2.1) ?_
  intro service' t c _ v f hf
  refine hf.mono (hc.registrations service').2.2 ?_ ?_
  · intro snapshot u' cursor hmem hle
    exact ⟨cursor, by rw [← hc.stack]; exact hmem, hle⟩
  · intro address'
    by_cases hk : service' = service ∧ address' = address
    · intro _
      exact .inl (.inr hk)
    · rintro (hex | ⟨update, u', cursor, hmem, hrenews, hle⟩ | hin)
      · exact .inl (.inl hex)
      · exact .inr (.inl ⟨update, u', cursor, by rw [hc.stack]; exact hmem, hrenews, hle⟩)
      · right
        right
        refine hin.mono (hc.other service' address' hk) ?_ ?_ (fun id => by rw [(hc.states id).1])
        · intro u' member hu
          exact hc.known u' member ((h.registry.reached service' address' u').mp hu).1
        · intro u' member id n _ _ hn
          exact hn.of_eq (by rw [Due, Due, hc.stack]) (hc.emitted id)

end Changed

/-- An instance is removed; the subscribers are out of step with its address. -/
theorem remove_inv (h : Inv exempt w) (hu : w.instanceAt service address = some u)
    (hr : Successor (w.registrations service) r')
    (hsub : ∀ p ∈ r'.instances, p ∈ (w.registrations service).instances)
    (hat : ∀ address', ((w.deactivate u).setRegistration service r').instanceAt service address' =
      if address' = address then none else w.instanceAt service address')
    (hquiet : ∀ frame ∈ w.stack, frame.isAbout u = true → ¬ w.Pending frame) :
    Inv (alsoExempt exempt service address) ((w.deactivate u).setRegistration service r') := by
  obtain ⟨hactive, hservice, haddr⟩ := (h.registry.reached service address u).mp hu
  have hregs := setRegistration_same (w.deactivate u) hr
  have htabs := setRegistration_tables h.registry (rfl : (w.deactivate u).registrations = _) hr
  generalize hw : (w.deactivate u).setRegistration service r' = w' at hat hregs htabs ⊢
  have hinst : w'.instances = (w.deactivate u).instances := by rw [← hw]; rfl
  have hstate : ∀ u' member, w'.stateOf u' member = w.stateOf u' member := by
    intro u' member
    rw [stateOf, stateOf, hinst, (deactivate_instances w u u').2.2.1]
  have hlis : ∀ id, (w'.states id).sourceListeners = (w.states id).sourceListeners.filter fun l => l.1 ≠ u :=
    fun id => by rw [← hw]; rfl
  have hother : ∀ service' address', ¬ (service' = service ∧ address' = address) →
      w'.instanceAt service' address' = w.instanceAt service' address' := by
    intro service' address' hne
    by_cases hs : service' = service
    · subst hs
      rw [hat, if_neg (fun ha => hne ⟨rfl, ha⟩)]
    · have hreg : w'.registrations service' = w.registrations service' := by
        rw [← hw]
        exact setRegistration_other _ _ hs
      cases address' with
      | none => rw [instanceAt, instanceAt, hreg]
      | some a =>
        simp only [instanceAt, hreg, hinst, (deactivate_instances w u _).2.1]
  have hc : Changed w w' service address :=
    ⟨by rw [← hw]; rfl, by rw [← hw]; rfl, by rw [← hw]; rfl, fun id => by rw [← hw]; exact ⟨rfl, rfl, rfl⟩, hregs,
      hother, fun u' member _ => hstate u' member⟩
  have hnone : w'.instanceAt service address = none := by rw [hat, if_pos rfl]
  refine ⟨hc.queues h.queues, ?_, hc.seats h.seats, ?_, hc.views h⟩
  · refine ⟨?_, ?_, ?_, ?_, fun service' => (htabs service').1, fun service' => (htabs service').2, ?_, ?_⟩
    · intro service' address' u'
      obtain ⟨hi₁, hi₂, _, hi₄, _⟩ := deactivate_instances w u u'
      rw [hinst, hi₄, hi₁, hi₂]
      by_cases hk : service' = service ∧ address' = address
      · obtain ⟨rfl, rfl⟩ := hk
        rw [hnone]
        constructor
        · intro hx
          cases hx
        · rintro ⟨⟨ha, hne⟩, hs, hadd⟩
          have := (h.registry.reached service' address' u').mpr ⟨ha, hs, hadd⟩
          rw [hu] at this
          exact absurd (Option.some.inj this).symm hne
      · rw [hother service' address' hk, h.registry.reached]
        constructor
        · rintro ⟨ha, hs, hadd⟩
          refine ⟨⟨ha, ?_⟩, hs, hadd⟩
          rintro rfl
          exact hk ⟨by rw [← hs, hservice], by rw [← hadd, haddr]⟩
        · rintro ⟨⟨ha, _⟩, hs, hadd⟩
          exact ⟨ha, hs, hadd⟩
    · intro u' hu'
      have hcount : w'.instanceCount = w.instanceCount := by rw [← hw]; rfl
      rw [hcount] at hu'
      obtain ⟨hf, hm⟩ := h.registry.fresh u' hu'
      have hne : u' ≠ u := by
        intro he
        rw [he, hactive] at hf
        cases hf
      rw [hinst, (deactivate_instances w u u').2.2.2.2 hne]
      exact ⟨hf, hm⟩
    · intro u' a ha hadd
      obtain ⟨hi₁, hi₂, _, hi₄, _⟩ := deactivate_instances w u u'
      rw [hinst] at ha hadd ⊢
      rw [hi₂] at hadd
      rw [hi₁]
      exact Nat.le_trans (h.registry.dated u' a (hi₄.mp ha).1 hadd) ((hregs _).2.2 _)
    · intro service' p hp
      have hp' : p ∈ (w.registrations service').instances := by
        by_cases hs : service' = service
        · subst hs
          rw [← hw, setRegistration_self] at hp
          exact hsub p hp
        · rw [← hw, setRegistration_other _ _ hs] at hp
          exact hp
      obtain ⟨g, hg⟩ := h.registry.listed service' p hp'
      exact ⟨g, by rw [hinst, (deactivate_instances w u p.2).2.1, hg]⟩
    · intro id u' member
      rw [hlis, mem_filter, h.registry.listening, hinst, (deactivate_instances w u u').2.2.2.1, hstate]
      simp only [decide_eq_true_eq, ne_eq]
      tauto
    · intro id
      rw [hlis]
      exact (h.registry.nodup id).filter _
  · constructor
    · rw [hc.stack]
      apply h.frames.pairs.imp
      intro upper lower hpair
      apply hpair.mono
      · intro c _ hcl hre
        rw [hc.subscribers] at hcl hre ⊢
        exact ⟨hcl, hre, rfl⟩
      · intro c _ _ _ u' ha _
        obtain ⟨hi₁, _, _, hi₄, _⟩ := deactivate_instances w u u'
        rw [hinst] at ha ⊢
        exact ⟨(hi₄.mp ha).1, hi₁⟩
      · exact fun u' member _ => hstate u' member
      · exact fun _ _ => hc.pending lower
    · intro id publication left hmem
      rw [hc.stack] at hmem
      obtain ⟨hnd, hl⟩ := h.frames.deliver id publication left hmem
      exact ⟨hnd, fun l hin => by rw [hstate]; exact hl l hin⟩
    · intro service' update u' cursor hmem
      rw [hc.stack] at hmem
      obtain ⟨hlt, hserv, htells⟩ := h.frames.emit service' update u' cursor hmem
      refine ⟨by rw [← hw]; exact hlt, by rw [hinst, (deactivate_instances w u u').1, hserv], ?_⟩
      intro hunf
      have hunf' := (hc.unfinished service' cursor).mp hunf
      have hne : u' ≠ u := by
        rintro rfl
        exact hquiet _ hmem (by simp [Frame.isAbout]) hunf'
      have hsame : w'.instances u' = w.instances u' := by rw [hinst, (deactivate_instances w u u').2.2.2.2 hne]
      have hgone : ∀ address', w.instanceAt service' address' = none → w'.instanceAt service' address' = none := by
        intro address' hx
        by_cases hk : service' = service ∧ address' = address
        · obtain ⟨rfl, rfl⟩ := hk
          exact hnone
        · rw [hother service' address' hk, hx]
      have ht := htells hunf'
      cases update with
      | state address' member sequence ops =>
        simp only [Tells, hsame]
        exact ht
      | replaced | spawned => exact ⟨hc.announces hsame ht.1, ht.2⟩
      | unavailable => exact ⟨hgone none ht.1, by rw [(hregs service').1]; exact ht.2⟩
      | closed a => exact hgone (some a) ht
    · intro service' address' member sequence ops u' cursor hmem
      rw [hc.stack] at hmem ⊢
      rw [hstate, hinst, (deactivate_instances w u u').2.1]
      exact h.frames.state service' address' member sequence ops u' cursor hmem
    · intro service' a u' cursor hmem
      rw [hc.stack] at hmem
      obtain ⟨hx, hg⟩ := h.frames.closed service' a u' cursor hmem
      refine ⟨?_, Nat.le_trans hg ((hregs service').2.2 _)⟩
      by_cases hk : service' = service ∧ some a = address
      · obtain ⟨rfl, rfl⟩ := hk
        exact hnone
      · rw [hother service' (some a) hk, hx]

end Remove

section Register

variable {r' : ServiceRegistration}

theorem createInstance_new (w : World V O) (service : Nat) (address : Option ServiceInstanceAddress)
    (members : Members) :
    (w.createInstance service address members).instances w.instanceCount = ⟨service, address, members, true⟩ :=
  update_self _ _ _

theorem createInstance_old (w : World V O) (service : Nat) (address : Option ServiceInstanceAddress)
    (members : Members) (hu : u ≠ w.instanceCount) :
    (w.createInstance service address members).instances u = w.instances u := update_of_ne hu _ _

variable (members : Members)

/-- The listeners of a new instance are its state members. -/
theorem mem_newListeners (u id : Nat) (l : Nat × JsString) :
    l ∈ (members.list.filterMap fun p => if p.2 = .state id then some (u, p.1) else none) ↔
      l.1 = u ∧ JsProps.get? members.list l.2 = some (.state id) := by
  rw [mem_filterMap]
  constructor
  · rintro ⟨p, hp, he⟩
    split at he
    · rename_i hs
      cases he
      refine ⟨rfl, ?_⟩
      rw [← hs]
      exact JsProps.get?_of_mem members.nodup hp
    · cases he
  · rintro ⟨rfl, hget⟩
    exact ⟨(l.2, .state id), JsProps.mem_of_get? hget, by simp⟩

theorem newListeners_nodup (u id : Nat) :
    (members.list.filterMap fun p => if p.2 = .state id then some (u, p.1) else none).Nodup := by
  have hnd := members.nodup
  rw [JsProps.keys] at hnd
  refine List.Nodup.filterMap ?_ (List.Nodup.of_map _ hnd)
  rintro ⟨name, member⟩ ⟨name', member'⟩ l hl hl'
  simp only [mem_def] at hl hl'
  split at hl
  · rename_i hm
    split at hl'
    · rename_i hm'
      cases hl
      cases hl'
      rw [hm, hm']
    · cases hl'
  · cases hl

theorem World.Registry.active_of_listed (h : w.Registry) {p : JsString × Nat}
    (hp : p ∈ (w.registrations service).instances) : (w.instances p.2).active = true := by
  obtain ⟨g, hg⟩ := h.listed service p hp
  have hreach : w.instanceAt service (some ⟨p.1, g⟩) = some p.2 := by
    simp only [instanceAt, JsProps.get?_of_mem (h.keys service) hp]
    rw [if_pos hg]
  exact ((h.reached service _ p.2).mp hreach).1

/-- A new instance is registered; the subscribers are out of step with its address. -/
theorem register_inv (h : Inv exempt w) (hfree : w.instanceAt service address = none)
    (hr : Successor (w.registrations service) r')
    (hlist : ∀ p ∈ r'.instances, p ∈ (w.registrations service).instances ∨
      (p.2 = w.instanceCount ∧ ∃ generation, address = some ⟨p.1, generation⟩))
    (hdated : ∀ a, address = some a → a.generation ≤ r'.generations a.key)
    (hat : ∀ address', ((w.createInstance service address members).setRegistration service r').instanceAt service
      address' = if address' = address then some w.instanceCount else w.instanceAt service address')
    (hrepl : ¬ w.Replaying service)
    (hquiet : ∀ frame ∈ w.stack, frame.isOf service = true → address = none → ¬ w.Pending frame)
    (hclosed : ∀ a, address = some a → (w.registrations service).generations a.key < a.generation) :
    Inv (alsoExempt exempt service address)
      ((w.createInstance service address members).setRegistration service r') := by
  have hregs := setRegistration_same (w.createInstance service address members) hr
  have htabs := setRegistration_tables h.registry
    (rfl : (w.createInstance service address members).registrations = _) hr
  generalize hw : (w.createInstance service address members).setRegistration service r' = w' at hat hregs htabs ⊢
  have hnew : w'.instances w.instanceCount = ⟨service, address, members, true⟩ := by
    rw [← hw]
    exact createInstance_new w service address members
  have hold : ∀ u, u ≠ w.instanceCount → w'.instances u = w.instances u := by
    intro u hu
    rw [← hw]
    exact createInstance_old w service address members hu
  have hlis : ∀ id, (w'.states id).sourceListeners = (w.states id).sourceListeners ++
      members.list.filterMap fun p => if p.2 = .state id then some (w.instanceCount, p.1) else none :=
    fun id => by rw [← hw]; rfl
  have hcount : w'.instanceCount = w.instanceCount + 1 := by rw [← hw]; rfl
  have hstate : ∀ u member, u ≠ w.instanceCount → w'.stateOf u member = w.stateOf u member := by
    intro u member hu
    rw [stateOf, stateOf, hold u hu]
  have hoff : (w.instances w.instanceCount).active = false := (h.registry.fresh _ (Nat.le_refl _)).1
  have hactive : ∀ u, (w.instances u).active = true → u ≠ w.instanceCount := by
    rintro u ha rfl
    rw [hoff] at ha
    cases ha
  have hother : ∀ service' address', ¬ (service' = service ∧ address' = address) →
      w'.instanceAt service' address' = w.instanceAt service' address' := by
    intro service' address' hne
    by_cases hs : service' = service
    · subst hs
      rw [hat, if_neg (fun ha => hne ⟨rfl, ha⟩)]
    · have hreg : w'.registrations service' = w.registrations service' := by
        rw [← hw]
        exact setRegistration_other _ _ hs
      cases address' with
      | none => rw [instanceAt, instanceAt, hreg]
      | some a =>
        simp only [instanceAt, hreg]
        cases hget : JsProps.get? (w.registrations service').instances a.key with
        | none => rfl
        | some u =>
          have hne : u ≠ w.instanceCount := hactive u (h.registry.active_of_listed (JsProps.mem_of_get? hget))
          simp only [hold u hne]
  have hself : w'.instanceAt service address = some w.instanceCount := by rw [hat, if_pos rfl]
  have hc : Changed w w' service address :=
    ⟨by rw [← hw]; rfl, by rw [← hw]; rfl, by rw [← hw]; rfl, fun id => by rw [← hw]; exact ⟨rfl, rfl, rfl⟩, hregs,
      hother, fun u member ha => hstate u member (hactive u ha)⟩
  refine ⟨hc.queues h.queues, ?_, hc.seats h.seats, ?_, hc.views h⟩
  · refine ⟨?_, ?_, ?_, ?_, fun service' => (htabs service').1, fun service' => (htabs service').2, ?_, ?_⟩
    · intro service' address' u
      by_cases hun : u = w.instanceCount
      · subst hun
        rw [hnew]
        by_cases hk : service' = service ∧ address' = address
        · obtain ⟨rfl, rfl⟩ := hk
          rw [hself]
          simp
        · rw [hother service' address' hk, h.registry.reached]
          constructor
          · rintro ⟨ha, _⟩
            rw [hoff] at ha
            cases ha
          · rintro ⟨_, hs, hadd⟩
            exact absurd ⟨hs.symm, hadd.symm⟩ hk
      · rw [hold u hun]
        by_cases hk : service' = service ∧ address' = address
        · obtain ⟨rfl, rfl⟩ := hk
          rw [hself]
          constructor
          · intro hx
            exact absurd (Option.some.inj hx).symm hun
          · intro hx
            rw [← h.registry.reached, hfree] at hx
            cases hx
        · rw [hother service' address' hk, h.registry.reached]
    · intro u hu
      rw [hcount] at hu
      rw [hold u (by omega)]
      exact h.registry.fresh u (by omega)
    · intro u a ha hadd
      by_cases hun : u = w.instanceCount
      · subst hun
        rw [hnew] at hadd ⊢
        have hself' : w'.registrations service = r' := by
          rw [← hw]
          exact setRegistration_self _ _ _
        rw [hself']
        exact hdated a hadd
      · rw [hold u hun] at ha hadd ⊢
        exact Nat.le_trans (h.registry.dated u a ha hadd) ((hregs _).2.2 _)
    · intro service' p hp
      by_cases hs : service' = service
      · subst hs
        rw [← hw, setRegistration_self] at hp
        rcases hlist p hp with hp | ⟨hp, g, hg⟩
        · obtain ⟨g, hg⟩ := h.registry.listed service' p hp
          exact ⟨g, by rw [hold _ (hactive _ (h.registry.active_of_listed hp)), hg]⟩
        · exact ⟨g, by rw [hp, hnew, hg]⟩
      · rw [← hw, setRegistration_other _ _ hs] at hp
        have hp : p ∈ (w.registrations service').instances := hp
        obtain ⟨g, hg⟩ := h.registry.listed service' p hp
        exact ⟨g, by rw [hold _ (hactive _ (h.registry.active_of_listed hp)), hg]⟩
    · intro id u member
      rw [hlis, mem_append, mem_newListeners, h.registry.listening]
      by_cases hun : u = w.instanceCount
      · subst hun
        rw [hoff, stateOf_eq_some w', hnew]
        simp
      · rw [hold u hun, hstate u member hun]
        simp [hun]
    · intro id
      rw [hlis]
      apply List.Nodup.append (h.registry.nodup id) (newListeners_nodup members _ id)
      intro l hl hl'
      have ha := ((h.registry.listening id l.1 l.2).mp hl).1
      exact hactive l.1 ha ((mem_newListeners members _ id l).mp hl').1
  · constructor
    · rw [hc.stack]
      apply h.frames.pairs.imp_of_mem
      intro upper lower _ hlower hpair
      apply hpair.mono
      · intro c _ hcl hre
        rw [hc.subscribers] at hcl hre ⊢
        exact ⟨hcl, hre, rfl⟩
      · intro c _ hcl hre u ha hs
        rw [hc.subscribers] at hcl hre hs
        have hun : u ≠ w.instanceCount := by
          rintro rfl
          rw [hnew] at hs
          have hs : service = (w.subscribers c).service := hs
          apply hrepl
          obtain ⟨t, ht⟩ := h.seats.seat c hcl
          rw [← hs] at ht
          exact ⟨c, mem_map.mpr ⟨(t, c), ht, rfl⟩, by simpa using hre⟩
        rw [hold u hun] at ha ⊢
        exact ⟨ha, rfl⟩
      · rintro u member (ha | habout)
        · exact hstate u member (hactive u ha)
        · apply hstate
          cases lower with
          | emit service' update about cursor =>
            have he : about = u := by simpa [Frame.isAbout] using habout
            have := (h.frames.emit service' update about cursor hlower).1
            omega
          | _ => cases habout
      · exact fun _ _ => hc.pending lower
    · intro id publication left hmem
      rw [hc.stack] at hmem
      obtain ⟨hnd, hl⟩ := h.frames.deliver id publication left hmem
      refine ⟨hnd, ?_⟩
      intro l hin
      have hid := hl l hin
      rw [hstate]
      · exact hid
      · intro he
        rw [he, stateOf, (h.registry.fresh _ (Nat.le_refl _)).2] at hid
        cases hid
    · intro service' update u cursor hmem
      rw [hc.stack] at hmem
      obtain ⟨hlt, hserv, htells⟩ := h.frames.emit service' update u cursor hmem
      have hun : u ≠ w.instanceCount := by omega
      refine ⟨by omega, by rw [hold u hun, hserv], ?_⟩
      intro hunf
      have hunf' := (hc.unfinished service' cursor).mp hunf
      have ht := htells hunf'
      cases update with
      | state address' member sequence ops =>
        simp only [Tells, hold u hun]
        exact ht
      | replaced | spawned => exact ⟨hc.announces (hold u hun) ht.1, ht.2⟩
      | unavailable =>
        refine ⟨?_, by rw [(hregs service').1]; exact ht.2⟩
        rw [hother service' none, ht.1]
        rintro ⟨rfl, he⟩
        exact hquiet _ hmem (by simp [Frame.isOf]) he.symm hunf'
      | closed a =>
        have hg := (h.frames.closed service' a u cursor hmem).2
        have ht : w.instanceAt service' (some a) = none := ht
        rw [Tells, hother service' (some a), ht]
        rintro ⟨rfl, he⟩
        have := hclosed a he.symm
        omega
    · intro service' address' member sequence ops u cursor hmem
      rw [hc.stack] at hmem ⊢
      obtain ⟨hlt, _, _⟩ := h.frames.emit _ _ u cursor hmem
      have hun : u ≠ w.instanceCount := by omega
      rw [hstate u member hun, hold u hun]
      exact h.frames.state service' address' member sequence ops u cursor hmem
    · intro service' a u cursor hmem
      rw [hc.stack] at hmem
      obtain ⟨hx, hg⟩ := h.frames.closed service' a u cursor hmem
      refine ⟨?_, Nat.le_trans hg ((hregs service').2.2 _)⟩
      rw [hother service' (some a), hx]
      rintro ⟨rfl, he⟩
      have := hclosed a he.symm
      omega

end Register

theorem replaying_congr {w' : World V O} (h : w'.Replaying service) (hsub : w'.subscribers = w.subscribers)
    (hreg : (w'.registrations service).subscribers = (w.registrations service).subscribers) :
    w.Replaying service := by
  rw [Replaying, hsub, hreg] at h
  exact h

theorem pending_congr {w' : World V O} (hreg : ∀ service, (w'.registrations service).subscribers =
    (w.registrations service).subscribers) {frame : Frame V O} (h : w'.Pending frame) : w.Pending frame := by
  cases frame with
  | emit service update u cursor =>
    have h : w'.Unfinished service cursor := h
    rw [Unfinished, hreg] at h
    exact h
  | _ => exact h

/-- A snapshot taken now. -/
theorem announces_snapshot (hactive : (w.instances u).active = true) :
    w.Announces u (w.snapshotInstance u) where
  active := hactive
  address := rfl
  nodup := snapshotInstance_nodup w u
  fed := by
    intro member id hid
    refine ⟨(w.states id).sequence, ?_, Nat.sub_le _ _, Nat.le_refl _⟩
    rw [snapshotInstance_sequenceOf, hid, map_some]
  unfed := by
    intro member hnone
    rw [snapshotInstance_sequenceOf, hnone, map_none]

/-- The singleton of a service is removed. -/
theorem removeSingleton_inv (h : Inv exempt w) {previous : Nat}
    (hs : (w.registrations service).singleton = some previous)
    (hquiet : ∀ frame ∈ w.stack, frame.isOf service = true → ¬ w.Pending frame) :
    Inv (alsoExempt exempt service none)
      ((w.deactivate previous).setRegistration service { w.registrations service with singleton := none }) := by
  have hu : w.instanceAt service none = some previous := hs
  obtain ⟨_, hserv, _⟩ := (h.registry.reached service none previous).mp hu
  refine remove_inv h hu ?_ (fun p hp => hp) ?_ ?_
  · exact ⟨rfl, rfl, fun _ => Nat.le_refl _, h.registry.keys service, (h.registry.modes service).1, fun _ => rfl⟩
  · intro address'
    cases address' with
    | none => simp [instanceAt, setRegistration_self]
    | some a =>
      simp only [instanceAt, setRegistration_self, reduceCtorEq, if_false]
      cases JsProps.get? (w.registrations service).instances a.key with
      | none => rfl
      | some u =>
        have ha : (((w.deactivate previous).setRegistration service
          { w.registrations service with singleton := none }).instances u).address = (w.instances u).address :=
          (deactivate_instances w previous u).2.1
        simp only [ha]
  · intro frame hmem habout
    apply hquiet frame hmem
    cases frame with
    | emit service' update about cursor =>
      have he : about = previous := by simpa [Frame.isAbout] using habout
      have hs' := (h.frames.emit service' update about cursor hmem).2.1
      rw [he, hserv] at hs'
      simp [Frame.isOf, hs']
    | _ => cases habout

theorem withdraw_inv (h : Inv noneExempt w) (service : Nat) (hrepl : ¬ w.Replaying service)
    (hquiet : ∀ frame ∈ w.stack, frame.isOf service = true → ¬ w.Pending frame) : Inv noneExempt (w.withdraw service) := by
  simp only [withdraw]
  split
  · rename_i previous hmode hs
    have hrem := removeSingleton_inv h hs hquiet
    obtain ⟨hactive, hserv, _⟩ := (h.registry.reached service none previous).mp hs
    have hreg : ∀ service', (((w.deactivate previous).setRegistration service
        { w.registrations service with singleton := none }).registrations service').subscribers =
          (w.registrations service').subscribers := by
      intro service'
      by_cases he : service' = service
      · subst he
        rw [setRegistration_self]
      · rw [setRegistration_other _ _ he]
        rfl
    refine emit_inv hrem rfl ?_ ?_ ⟨?_, ?_⟩ ?_ ?_ ?_ ?_
    · exact h.registry.lt_of_active hactive
    · exact (deactivate_instances w previous previous).1.trans hserv
    · simp [instanceAt, setRegistration_self]
    · rw [setRegistration_self]
      exact hmode
    · intro hr
      exact hrepl (replaying_congr hr rfl (hreg service))
    · intro frame hmem hann hpend
      have hmem' : frame ∈ w.stack := hmem
      refine hquiet frame hmem' ?_ (pending_congr hreg hpend)
      cases frame with
      | emit service' update about cursor =>
        have he : about = previous := by simpa [Frame.isAbout] using Frame.isAbout_of_announces hann
        have hs' := (h.frames.emit service' update about cursor hmem').2.1
        rw [he, hserv] at hs'
        simp [Frame.isOf, hs']
      | _ => cases hann
    · intro a he
      cases he
    · intro snapshot a he
      cases he
  · exact h

theorem close_inv (h : Inv noneExempt w) (u : Nat) (hrepl : ¬ w.Replaying (w.instances u).service)
    (hquiet : ∀ frame ∈ w.stack, frame.isAbout u = true → ¬ w.Pending frame) : Inv noneExempt (w.close u) := by
  rw [close]
  split
  · exact h
  · rename_i a ha
    dsimp only
    split
    · rename_i hget
      have hu : w.instanceAt (w.instances u).service (some a) = some u := by
        simp only [instanceAt, hget]
        rw [if_pos ha]
      obtain ⟨hactive, _, _⟩ := (h.registry.reached _ (some a) u).mp hu
      have hreg : ∀ service', (((w.deactivate u).setRegistration (w.instances u).service
          { w.registrations (w.instances u).service with
            instances := JsProps.erase (w.registrations (w.instances u).service).instances a.key }).registrations
              service').subscribers = (w.registrations service').subscribers := by
        intro service'
        by_cases he : service' = (w.instances u).service
        · rw [he, setRegistration_self]
        · rw [setRegistration_other _ _ he]
          rfl
      have hat : ∀ address', ((w.deactivate u).setRegistration (w.instances u).service
          { w.registrations (w.instances u).service with
            instances := JsProps.erase (w.registrations (w.instances u).service).instances a.key }).instanceAt
              (w.instances u).service address' =
            if address' = some a then none else w.instanceAt (w.instances u).service address' := by
        intro address'
        cases address' with
        | none => simp [instanceAt, setRegistration_self]
        | some a' =>
          simp only [instanceAt, setRegistration_self, JsProps.get?_erase]
          by_cases hk : a.key = a'.key
          · rw [if_pos hk]
            by_cases he : a' = a
            · rw [if_pos (by rw [he])]
            · rw [if_neg (by simpa using he), ← hk, hget]
              simp only [ha]
              rw [if_neg]
              intro hx
              exact he (Option.some.inj hx).symm
          · have hne : some a' ≠ some a := by
              intro hx
              exact hk (by rw [Option.some.inj hx])
            rw [if_neg hk, if_neg hne]
            cases JsProps.get? (w.registrations (w.instances u).service).instances a'.key with
            | none => rfl
            | some u' =>
              have hadd : (((w.deactivate u).setRegistration (w.instances u).service
                { w.registrations (w.instances u).service with
                  instances := JsProps.erase (w.registrations (w.instances u).service).instances a.key }).instances
                    u').address = (w.instances u').address := (deactivate_instances w u u').2.1
              simp only [hadd]
      have hrem := remove_inv h hu ?_ ?_ hat hquiet
      · refine emit_inv hrem rfl (h.registry.lt_of_active hactive) (deactivate_instances w u u).1 ?_ ?_ ?_ ?_ ?_
        · show World.instanceAt _ _ _ = none
          rw [hat, if_pos rfl]
        · intro hr
          exact hrepl (replaying_congr hr rfl (hreg _))
        · intro frame hmem hann hpend
          exact hquiet frame hmem (Frame.isAbout_of_announces hann) (pending_congr hreg hpend)
        · intro a' he
          cases he
          rw [setRegistration_self]
          exact h.registry.dated u a hactive ha
        · intro snapshot a' he
          cases he
      · refine ⟨rfl, rfl, fun _ => Nat.le_refl _, ?_, ?_, ?_⟩
        · exact (h.registry.keys _).sublist (List.Sublist.map _ filter_sublist)
        · intro hm
          have hempty := (h.registry.modes _).1 hm
          rw [hempty] at hget
          cases hget
        · exact (h.registry.modes _).2
      · intro p hp
        exact mem_of_mem_filter hp
    · exact h

theorem get?_snoc {props : List (JsString × Nat)} {key : JsString} (u : Nat) (hnew : JsProps.get? props key = none)
    (other : JsString) :
    JsProps.get? (props ++ [(key, u)]) other = if other = key then some u else JsProps.get? props other := by
  induction props with
  | nil =>
    by_cases he : key = other
    · simp [JsProps.get?_cons, he]
    · simp [JsProps.get?_cons, he, Ne.symm he]
  | cons p props ih =>
    rw [JsProps.get?_cons] at hnew
    split at hnew
    · cases hnew
    · rename_i hp
      rw [cons_append, JsProps.get?_cons, JsProps.get?_cons, ih hnew]
      by_cases he : p.1 = other
      · have hne : other ≠ key := fun hx => hp (he.trans hx)
        rw [if_pos he, if_neg hne, if_pos he]
      · rw [if_neg he, if_neg he]

theorem spawn_inv (h : Inv noneExempt w) (service : Nat) (key : JsString) (members : Members)
    (hrepl : ¬ w.Replaying service) : Inv noneExempt (w.spawn service key members) := by
  simp only [spawn]
  split
  · rename_i hok
    obtain ⟨_, hmode, hown⟩ := hok
    have hget : JsProps.get? (w.registrations service).instances key = none := by
      simpa [JsProps.hasOwn] using hown
    generalize hg : (w.registrations service).generations key + 1 = generation
    generalize hr : ({ w.registrations service with
      instances := (w.registrations service).instances ++ [(key, w.instanceCount)]
      generations := Function.update (w.registrations service).generations key generation } :
        ServiceRegistration) = r'
    have hinsts : r'.instances = (w.registrations service).instances ++ [(key, w.instanceCount)] := by rw [← hr]
    have hfree : w.instanceAt service (some ⟨key, generation⟩) = none := by
      simp only [instanceAt, hget]
    have hsucc : Successor (w.registrations service) r' := by
      refine ⟨by rw [← hr], by rw [← hr], ?_, ?_, ?_, ?_⟩
      · intro key'
        rw [← hr]
        by_cases he : key' = key
        · rw [he]
          simp only [update_self]
          omega
        · simp [update_of_ne he]
      · rw [hinsts, JsProps.keys, map_append]
        apply List.Nodup.append (h.registry.keys service) (nodup_singleton _)
        intro k hk hk'
        have he : k = key := mem_singleton.mp hk'
        rw [he] at hk
        exact (JsProps.get?_eq_none_iff _ _).mp hget hk
      · intro hm
        rw [← hr] at hm
        have hm : (w.registrations service).mode = .singleton := hm
        rw [hmode] at hm
        cases hm
      · intro _
        rw [← hr]
        exact (h.registry.modes service).2 hmode
    have hat : ∀ address', ((w.createInstance service (some ⟨key, generation⟩) members).setRegistration service
        r').instanceAt service address' =
          if address' = some ⟨key, generation⟩ then some w.instanceCount else w.instanceAt service address' := by
      intro address'
      cases address' with
      | none =>
        simp only [instanceAt, setRegistration_self]
        rw [← hr]
        simp
      | some a =>
        simp only [instanceAt, setRegistration_self, hinsts, get?_snoc _ hget]
        by_cases hk : a.key = key
        · have hnew : (((w.createInstance service (some ⟨key, generation⟩) members).setRegistration service
              r').instances w.instanceCount).address = some ⟨key, generation⟩ := by
            have := createInstance_new w service (some ⟨key, generation⟩) members
            show ((w.createInstance service (some ⟨key, generation⟩) members).instances w.instanceCount).address = _
            rw [this]
          rw [if_pos hk]
          simp only [hnew, hk, hget]
          by_cases he : a = ⟨key, generation⟩
          · rw [if_pos (by rw [he]), if_pos (by rw [he])]
          · have hne : some a ≠ some ⟨key, generation⟩ := fun hx => he (Option.some.inj hx)
            rw [if_neg (fun hx => hne hx.symm), if_neg hne]
        · have hne : some a ≠ some ⟨key, generation⟩ := by
            intro hx
            exact hk (by rw [Option.some.inj hx])
          rw [if_neg hk, if_neg hne]
          cases hu : JsProps.get? (w.registrations service).instances a.key with
          | none => rfl
          | some u =>
            have hne' : u ≠ w.instanceCount := by
              have := h.registry.lt_of_active (h.registry.active_of_listed (JsProps.mem_of_get? hu))
              exact Nat.ne_of_lt this
            have hold := createInstance_old w service (some ⟨key, generation⟩) members hne'
            show (if ((w.createInstance service (some ⟨key, generation⟩) members).instances u).address = some a then
              some u else none) = _
            rw [hold]
    have hregistered := register_inv members h hfree hsucc ?_ ?_ hat hrepl ?_ ?_
    · have hreg : ∀ service', (((w.createInstance service (some ⟨key, generation⟩) members).setRegistration service
          r').registrations service').subscribers = (w.registrations service').subscribers := by
        intro service'
        exact (setRegistration_same (w.createInstance service (some ⟨key, generation⟩) members) hsucc service').2.1
      have hnew : ((w.createInstance service (some ⟨key, generation⟩) members).setRegistration service
          r').instances w.instanceCount = ⟨service, some ⟨key, generation⟩, members, true⟩ :=
        createInstance_new w service (some ⟨key, generation⟩) members
      refine emit_inv hregistered ?_ (Nat.lt_succ_self _) (by rw [hnew]) ⟨?_, ?_⟩ ?_ ?_ ?_ ?_
      · simp only [ServiceProviderUpdate.renews, snapshotInstance, hnew]
      · exact announces_snapshot (by rw [hnew])
      · exact ⟨⟨key, generation⟩, by simp only [snapshotInstance, hnew]⟩
      · intro hr'
        exact hrepl (replaying_congr hr' rfl (hreg service))
      · intro frame hmem hann _
        have habout := Frame.isAbout_of_announces hann
        cases frame with
        | emit service' update about cursor =>
          have he : about = w.instanceCount := by simpa [Frame.isAbout] using habout
          have := (h.frames.emit service' update about cursor hmem).1
          omega
        | _ => cases hann
      · intro a he
        cases he
      · intro snapshot a he ha t c hentry v hv hin
        cases he
        have ha' : a = ⟨key, generation⟩ := by
          simp only [snapshotInstance, hnew, Option.some.injEq] at ha
          exact ha.symm
        have hentry' : (t, c) ∈ (w.registrations service).subscribers.entries := by
          rw [← hreg service]
          exact hentry
        have hd := (h.views.follows service t c hentry' v hv).dated a hin
        rw [ha'] at hd
        simp only at hd
        omega
    · intro p hp
      rw [hinsts] at hp
      rcases mem_append.mp hp with hp | hp
      · exact .inl hp
      · rw [mem_singleton] at hp
        rw [hp]
        exact .inr ⟨rfl, generation, rfl⟩
    · intro a ha
      cases ha
      rw [← hr]
      simp
    · intro frame _ _ ha
      cases ha
    · intro a ha
      cases ha
      simp only
      omega
  · exact h

theorem Inv.mono (h : Inv exempt w) {exempt' : Nat → Option ServiceInstanceAddress → Prop}
    (hle : ∀ service address, exempt service address → exempt' service address) : Inv exempt' w := by
  refine ⟨h.queues, h.registry, h.seats, h.frames, h.views.accepted, ?_⟩
  intro service t c hentry v hv
  have hf := h.views.follows service t c hentry v hv
  refine ⟨hf.filtered, hf.announced, hf.dated, hf.unheard, ?_⟩
  intro address
  exact (hf.instep address).imp_left (hle service address)

/-- A singleton is registered where there was none. -/
theorem registerSingleton_inv (h : Inv exempt w) (service : Nat) (members : Members)
    (hmode : (w.registrations service).mode = .singleton) (hs : (w.registrations service).singleton = none)
    (hrepl : ¬ w.Replaying service) (hquiet : ∀ frame ∈ w.stack, frame.isOf service = true → ¬ w.Pending frame) :
    Inv (alsoExempt exempt service none) ((w.createInstance service none members).setRegistration service
      { w.registrations service with
        singleton := some w.instanceCount, singletonShape := some (serviceMemberShape members) }) := by
  have hempty := (h.registry.modes service).1 hmode
  have hfree : w.instanceAt service none = none := hs
  apply register_inv members h hfree
  · refine ⟨rfl, rfl, fun _ => Nat.le_refl _, h.registry.keys service, (h.registry.modes service).1, ?_⟩
    intro hm
    have hm : (w.registrations service).mode = .keyed := hm
    rw [hmode] at hm
    cases hm
  · intro p hp
    exact .inl hp
  · intro a ha
    cases ha
  · intro address'
    cases address' with
    | none => simp [instanceAt, setRegistration_self]
    | some a => simp [instanceAt, setRegistration_self, hempty]
  · exact hrepl
  · intro frame hmem hof _
    exact hquiet frame hmem hof
  · intro a ha
    cases ha

theorem provide_inv (h : Inv noneExempt w) (service : Nat) (members : Members)
    (hnobody : (w.registrations service).subscribers.entries = []) : Inv noneExempt (w.provide service members) := by
  simp only [provide]
  split
  · rename_i hok
    have hreg := registerSingleton_inv h service members hok.1 hok.2.1 ?_ ?_
    · apply drop_exempt hreg
      rw [setRegistration_self]
      exact hnobody
    · rintro ⟨c, hc, _⟩
      rw [JsSet.members, hnobody] at hc
      cases hc
    · intro frame _ hof hpend
      cases frame with
      | emit service' update u cursor =>
        have he : service' = service := by simpa [Frame.isOf] using hof
        subst he
        obtain ⟨p, hp, _⟩ := (unfinished_iff w service' cursor).mp hpend
        rw [hnobody] at hp
        cases hp
      | _ => cases hof
  · exact h

/-- To create the replacement and to remove the previous instance commute. -/
theorem replaced_eq (w : World V O) (service previous : Nat) (members : Members) (hne : previous ≠ w.instanceCount)
    (r r' : ServiceRegistration) :
    ((w.createInstance service none members).deactivate previous).setRegistration service r' =
      (((w.deactivate previous).setRegistration service r).createInstance service none members).setRegistration
        service r' := by
  have hinsts : ((w.createInstance service none members).deactivate previous).instances =
      (((w.deactivate previous).setRegistration service r).createInstance service none members).instances := by
    funext u
    by_cases hp : u = previous
    · subst hp
      simp [deactivate, createInstance, setRegistration, hne]
    · by_cases hn : u = w.instanceCount
      · subst hn
        simp [deactivate, createInstance, setRegistration, hp]
      · simp [deactivate, createInstance, setRegistration, hp, hn]
  have hsts : ((w.createInstance service none members).deactivate previous).states =
      (((w.deactivate previous).setRegistration service r).createInstance service none members).states := by
    funext id
    have hkept : (members.list.filterMap fun p => if p.2 = .state id then some (w.instanceCount, p.1) else none).filter
        (fun l => l.1 ≠ previous) =
          members.list.filterMap fun p => if p.2 = .state id then some (w.instanceCount, p.1) else none := by
      rw [filter_eq_self]
      intro l hl
      have := ((mem_newListeners members _ id l).mp hl).1
      simp only [decide_eq_true_eq]
      omega
    simp only [deactivate, createInstance, setRegistration, filter_append, hkept]
  have hregistrations : Function.update w.registrations service r' =
      Function.update (Function.update w.registrations service r) service r' := (update_idem _ _ _).symm
  simp only [World.setRegistration] at hinsts hsts ⊢
  rw [hinsts, hsts]
  exact congrArg (fun registrations => World.mk _ registrations _ _ _ _ _) hregistrations

/-- The loop that announces a replacement begins. -/
theorem emitReplaced_inv (h : Inv (alsoExempt noneExempt service none) w) {members : Members}
    (hu : w.instances u = ⟨service, none, members, true⟩) (hrepl : ¬ w.Replaying service)
    (hann : ∀ frame ∈ w.stack, frame.announces u = true → ¬ w.Pending frame) :
    Inv noneExempt (w.emit service (.replaced (w.snapshotInstance u)) u) := by
  have hactive : (w.instances u).active = true := by rw [hu]
  refine emit_inv h rfl (h.registry.lt_of_active hactive) (by rw [hu]) ⟨announces_snapshot hactive, ?_⟩ hrepl
    hann ?_ ?_
  · simp only [snapshotInstance, hu]
  · intro a he
    cases he
  · intro snapshot a he
    cases he

theorem replace_inv (h : Inv noneExempt w) (service : Nat) (members : Members) (hrepl : ¬ w.Replaying service)
    (hquiet : ∀ frame ∈ w.stack, frame.isOf service = true → ¬ w.Pending frame) :
    Inv noneExempt (w.replace service members) := by
  -- the new instance has no loops yet
  have hnew : ∀ frame ∈ w.stack, frame.announces w.instanceCount = true → False := by
    intro frame hmem hann
    have habout := Frame.isAbout_of_announces hann
    cases frame with
    | emit service' update about cursor =>
      have he : about = w.instanceCount := by simpa [Frame.isAbout] using habout
      have hlt := (h.frames.emit service' update about cursor hmem).1
      omega
    | _ => cases hann
  simp only [replace]
  split
  · rename_i hok
    obtain ⟨hmode, _⟩ := hok
    cases hs : (w.registrations service).singleton with
    | none =>
      have hregistered := registerSingleton_inv h service members hmode hs hrepl hquiet
      refine emitReplaced_inv hregistered (createInstance_new w service none members) ?_ ?_
      · intro hr
        apply hrepl
        refine replaying_congr hr rfl ?_
        rw [setRegistration_self]
      · intro frame hmem hann
        exact (hnew frame hmem hann).elim
    | some previous =>
      have hrem := removeSingleton_inv h hs hquiet
      obtain ⟨hactive, _, _⟩ := (h.registry.reached service none previous).mp hs
      have hne : previous ≠ w.instanceCount := Nat.ne_of_lt (h.registry.lt_of_active hactive)
      have hreg : ∀ service', (((w.deactivate previous).setRegistration service
          { w.registrations service with singleton := none }).registrations service').subscribers =
            (w.registrations service').subscribers := by
        intro service'
        by_cases he : service' = service
        · subst he
          rw [setRegistration_self]
        · rw [setRegistration_other _ _ he]
          rfl
      have hregistered := registerSingleton_inv hrem service members ?_ ?_ ?_ ?_
      · simp only [setRegistration_self] at hregistered
        rw [replaced_eq w service previous members hne { w.registrations service with singleton := none }]
        have hmono : ∀ service' address', alsoExempt (alsoExempt noneExempt service none) service none service'
            address' → alsoExempt noneExempt service none service' address' := by
          rintro service' address' (hex | hex)
          · exact hex
          · exact .inr hex
        refine emitReplaced_inv (hregistered.mono hmono)
          (createInstance_new ((w.deactivate previous).setRegistration service
            { w.registrations service with singleton := none }) service none members) ?_ ?_
        · intro hr
          apply hrepl
          refine replaying_congr hr rfl ?_
          rw [setRegistration_self]
        · intro frame hmem hann
          exact (hnew frame hmem hann).elim
      · rw [setRegistration_self]
        exact hmode
      · rw [setRegistration_self]
      · intro hr
        exact hrepl (replaying_congr hr rfl (hreg service))
      · intro frame hmem hof hpend
        exact hquiet frame hmem hof (pending_congr hreg hpend)
  · exact h

end Books

end Shuvpi.Provider
