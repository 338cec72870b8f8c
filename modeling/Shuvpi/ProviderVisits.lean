import Shuvpi.ProviderLoops

/-!
# A subscriber is visited

The step of an `#emit` loop. The update it carries continues the view of the
subscriber, case by case over the kinds of updates, and the subscribers not visited
are owed what they were owed before.
-/
namespace Shuvpi.Provider

open List Option Function

variable {V O : Type}

/-! ## Visiting a subscriber -/

section Visits

open World

variable {w : World V O}

variable {u id service t : Nat}

theorem floor_exists (hq : w.Queues) (hf : w.Frames) {member : JsString}
    (hid : w.stateOf u member = some id) (t : Nat) : ∃ n, w.Floor t u member id n ∧ n ≤ w.emitted id := by
  by_cases hdue : w.Due t u member
  · have hpos : 0 < w.emitted id := by
      by_contra hzero
      apply not_due hf _ hid hdue
      intro publication left hmem
      exact hzero (hq.busy id publication left hmem).2.2
    exact ⟨w.emitted id - 1, .inl ⟨hdue, by omega⟩, by omega⟩
  · exact ⟨w.emitted id, .inr ⟨hdue, rfl⟩, Nat.le_refl _⟩

/-- The view changes elsewhere. -/
theorem World.InStep.view {v v' : View} {f f' : Sequences} {address : Option ServiceInstanceAddress}
    (h : w.InStep service t v f address) (hv : ∀ member, v'.known (address, member) = v.known (address, member))
    (hf : ∀ member, f' (address, member) = f (address, member)) : w.InStep service t v' f' address where
  fed := by
    intro u member id
    rw [hv, hf]
    exact h.fed u member id
  unfed := by
    intro member
    rw [hv]
    exact h.unfed member

/-- A subscriber has just been handed a snapshot of the instance. -/
theorem instep_of_announces (hreg : w.Registry) (hq : w.Queues) (hfr : w.Frames)
    {snapshot : ServiceInstanceSnapshot V} (ha : w.Announces u snapshot) (hserv : (w.instances u).service = service)
    (t : Nat) {v : View} {f : Sequences}
    (hv : ∀ member, v.known (snapshot.address, member) = snapshot.sequenceOf member)
    (hf : ∀ member, f (snapshot.address, member) = snapshot.sequenceOf member) :
    w.InStep service t v f snapshot.address := by
  have hu : w.instanceAt service snapshot.address = some u :=
    (hreg.reached service snapshot.address u).mpr ⟨ha.active, hserv, ha.address.symm⟩
  constructor
  · intro u' member id hu' hid
    rw [hu] at hu'
    cases hu'
    obtain ⟨sequence, hs, hle, hge⟩ := ha.fed member id hid
    obtain ⟨n, hn, hne⟩ := floor_exists hq hfr hid t
    refine ⟨n, sequence, hn, by rw [hv, hs], by omega, hge, ?_⟩
    intro hnone
    rw [hf, hs] at hnone
    cases hnone
  · intro member hnone
    rw [hv]
    exact ha.unfed member (hnone u hu)

theorem pairwise_cases {α : Type} {R : α → α → Prop} {l : List α} (h : l.Pairwise R) {a b : α} (ha : a ∈ l)
    (hb : b ∈ l) : a = b ∨ R a b ∨ R b a := by
  induction h with
  | nil => cases ha
  | cons hrel _ ih =>
    rcases mem_cons.mp ha with rfl | ha' <;> rcases mem_cons.mp hb with rfl | hb'
    · exact .inl rfl
    · exact .inr (.inl (hrel b hb'))
    · exact .inr (.inr (hrel a ha'))
    · exact ih ha' hb'

theorem deliver_unique (h : w.Frames) {publication publication' : Publication O}
    {left left' : List (Nat × JsString)} (hmem : .deliver id publication left ∈ w.stack)
    (hmem' : .deliver id publication' left' ∈ w.stack) : publication = publication' ∧ left = left' := by
  rcases pairwise_cases h.pairs hmem hmem' with he | hc | hc
  · cases he
    exact ⟨rfl, rfl⟩
  · exact absurd rfl ((hc.delivering id publication left rfl).1 publication' left')
  · exact absurd rfl ((hc.delivering id publication' left' rfl).1 publication left)

section Moved

variable {service u cursor t c : Nat} {update : ServiceProviderUpdate V O} {rest : List (Frame V O)}

/-- The loop has passed one subscriber. -/
def moved (w : World V O) (service : Nat) (update : ServiceProviderUpdate V O) (u t : Nat) (rest : List (Frame V O)) :
    World V O := { w with stack := .emit service update u (t + 1) :: rest }

variable (h : Inv noneExempt w) (hstack : w.stack = .emit service update u cursor :: rest)
  (hnext : (w.registrations service).subscribers.nextFrom cursor = some (t, c))

include h hstack

omit h in
theorem mem_moved {frame : Frame V O} (hmem : frame ∈ (moved w service update u t rest).stack) :
    frame = .emit service update u (t + 1) ∨ frame ∈ w.stack := by
  rcases mem_cons.mp hmem with he | hmem
  · exact .inl he
  · right
    rw [hstack]
    exact mem_cons_of_mem _ hmem

include hnext

theorem moved_frames : (moved w service update u t rest).Frames := by
  have htop : .emit service update u cursor ∈ w.stack := by
    rw [hstack]
    exact mem_cons_self
  have hpairs := h.frames.pairs
  rw [hstack, pairwise_cons] at hpairs
  obtain ⟨hu, hserv, htells⟩ := h.frames.emit service update u cursor htop
  apply (h.frames.pop hstack).push
  constructor
  · intro lower hl
    have hc := (hpairs.1 lower hl).restack rest
    constructor
    · intro c' he hclosed hrepl
      refine ⟨(hc.replay c' he hclosed hrepl).1, ?_⟩
      intro id publication left hd
      cases hd
    · intro u' hann hpend
      obtain ⟨_, hstate, hannounces⟩ := hc.announcing u' hann hpend
      refine ⟨?_, ?_, ?_⟩
      · intro id publication left hd
        cases hd
      · intro service' address member sequence ops cursor' he
        cases he
        exact hstate service address member sequence ops cursor rfl
      · cases update <;> exact hannounces
    · intro id publication left hd
      cases hd
    · intro service' address member sequence ops u' cursor' he
      cases he
      exact hc.once service address member sequence ops u cursor rfl
  · intro id publication left hd
    cases hd
  · intro service' update' u' cursor' he
    cases he
    refine ⟨hu, hserv, ?_⟩
    intro hunf
    apply Tells.restack
    apply htells
    rw [unfinished_iff] at hunf ⊢
    obtain ⟨p, hp, hle⟩ := hunf
    have hle' := (JsSet.nextFrom_some hnext).2.1
    exact ⟨p, hp, by simp only at hle'; omega⟩
  · intro service' address member sequence ops u' cursor' he
    cases he
    obtain ⟨id, publication, left, hid, hmem, hrest⟩ := h.frames.state service address member sequence ops u cursor htop
    rw [hstack] at hmem
    exact ⟨id, publication, left, hid, by simpa using hmem, hrest⟩
  · intro service' address u' cursor' he
    cases he
    exact h.frames.closed service address u cursor htop

variable {service' t' c' : Nat}

omit h hstack in
/-- Another subscriber is owed what it was owed before. -/
theorem moved_owes (hentry : (t', c') ∈ (w.registrations service').subscribers.entries)
    (hne : c' ≠ c) (hs : service' = service) : cursor ≤ t' ↔ t + 1 ≤ t' := by
  subst hs
  obtain ⟨hmem, hle, hmin⟩ := JsSet.nextFrom_some hnext
  constructor
  · intro hc
    have hge := hmin (t', c') hentry hc
    have hne' : t' ≠ t := by
      intro he
      have := JsSet.stamp_unique hentry hmem he
      cases this
      exact hne rfl
    omega
  · intro hc
    omega

variable {v v' : View}

theorem moved_follows_other
    (hentry : (t', c') ∈ (w.registrations service').subscribers.entries) (hne : c' ≠ c) {f : Sequences}
    (hf : w.Follows noneExempt service' t' v f) :
    (moved w service update u t rest).Follows noneExempt service' t' v f := by
  have hu : (w.instances u).service = service :=
    (h.frames.emit service update u cursor (by rw [hstack]; exact mem_cons_self)).2.1
  have howes := moved_owes hnext hentry hne
  refine hf.restack h.registry _ ?_ ?_ ?_
  · intro snapshot u' cursor' hmem hle
    rw [hstack]
    rcases mem_cons.mp hmem with he | hmem
    · cases he
      exact ⟨cursor, mem_cons_self, (howes rfl).mpr hle⟩
    · exact ⟨cursor', mem_cons_of_mem _ hmem, hle⟩
  · rintro address ⟨update', u', cursor', hmem, hrenews, hle⟩
    rw [hstack] at hmem
    rcases mem_cons.mp hmem with he | hmem
    · cases he
      exact ⟨update, u, t + 1, mem_cons_self, hrenews, (howes rfl).mp hle⟩
    · exact ⟨update', u', cursor', mem_cons_of_mem _ hmem, hrenews, hle⟩
  · intro u' member _ hserv'
    simp only [Due, hstack, mem_cons, exists_eq_or_imp]
    apply or_congr_left
    cases update with
    | state address member' sequence ops =>
      simp only [Frame.Owes]
      constructor
      · rintro ⟨rfl, hm, hle⟩
        exact ⟨rfl, hm, (howes (by rw [← hserv', hu])).mpr hle⟩
      · rintro ⟨rfl, hm, hle⟩
        exact ⟨rfl, hm, (howes (by rw [← hserv', hu])).mp hle⟩
    | _ => exact Iff.rfl

/-- The subscriber visited belongs to the service and is not replaying. -/
theorem visited : (t, c) ∈ (w.registrations service).subscribers.entries ∧ cursor ≤ t ∧
    (w.subscribers c).closed = false ∧ (w.subscribers c).replaying = [] ∧ w.Tells service u update := by
  obtain ⟨hmem, hle, _⟩ := JsSet.nextFrom_some hnext
  obtain ⟨hserv, hclosed⟩ := h.seats.seated service t c hmem
  refine ⟨hmem, hle, hclosed, ?_, ?_⟩
  · by_contra hne
    have hrepl := h.seats.replaying c hne
    rw [hstack] at hrepl
    have hrepl : .replay c ∈ rest := by simpa using hrepl
    have hpairs := h.frames.pairs
    rw [hstack, pairwise_cons] at hpairs
    have hof := ((hpairs.1 _ hrepl).replay c rfl hclosed hne).1
    rw [hserv] at hof
    simp [Frame.isOf] at hof
  · apply (h.frames.emit service update u cursor (by rw [hstack]; exact mem_cons_self)).2.2
    rw [Unfinished, hnext]
    exact some_ne_none _

variable {address : Option ServiceInstanceAddress} {f f' : Sequences}

omit h in
/-- An update that renews an address leaves the others as they were. -/
theorem moved_instep (hrenews : update.renews ≠ some address)
    (howes : ∀ u' member, w.instanceAt service address = some u' →
      ¬ (Frame.emit service update u cursor).Owes t u' member)
    (hother : w.InStep service t v f address → w.InStep service t v' f' address)
    (hold : noneExempt service address ∨ w.Covered service t address ∨ w.InStep service t v f address) :
    noneExempt service address ∨ (moved w service update u t rest).Covered service t address ∨
      (moved w service update u t rest).InStep service t v' f' address := by
  rcases hold with hex | ⟨update', u', cursor', hmem, hrenews', hle⟩ | hin
  · exact hex.elim
  · right
    left
    rw [hstack] at hmem
    rcases mem_cons.mp hmem with he | hmem
    · cases he
      exact absurd hrenews' hrenews
    · exact ⟨update', u', cursor', mem_cons_of_mem _ hmem, hrenews', hle⟩
  · right
    right
    refine (hother hin).mono ((sameBooks_restack w _).instanceAt service address)
      (fun u' member _ => (sameBooks_restack w _).stateOf u' member) ?_ (fun _ => Nat.le_refl _)
    intro u' member id n hu' _ hfloor
    refine hfloor.of_eq ?_ rfl
    have hle := (JsSet.nextFrom_some hnext).2.1
    simp only [Due, hstack, moved, mem_cons, exists_eq_or_imp]
    apply or_congr_left
    constructor
    · intro ho
      exfalso
      cases update with
      | state address' member' sequence ops =>
        have := ho.2.2
        omega
      | _ => exact ho
    · intro ho
      exact (howes u' member hu' ho).elim

theorem follows_renewed (hf : w.Follows noneExempt service t v f)
    (hrenews : update.renews = some address)
    (hfiltered : ∀ key x, f' key = some x → v'.known key = some x)
    (hann : ∀ a member, v'.known (some a, member) ≠ none → a ∈ v'.announced)
    (hnew : ∀ a ∈ v'.announced, a ∈ v.announced ∨ ∃ snapshot, update = .spawned snapshot ∧ snapshot.address = some a)
    (hself : (moved w service update u t rest).InStep service t v' f' address)
    (hother : ∀ address', address' ≠ address → w.InStep service t v f address' → w.InStep service t v' f' address') :
    (moved w service update u t rest).Follows noneExempt service t v' f' := by
  obtain ⟨hentry, hle, _, _, htells⟩ := visited h hstack hnext
  have hnotstate : ∀ u' member, ¬ (Frame.emit service update u cursor).Owes t u' member := by
    intro u' member
    cases update with
    | state address' member' sequence ops => cases hrenews
    | _ => exact id
  have hserv : (w.instances u).service = service :=
    (h.frames.emit service update u cursor (by rw [hstack]; exact mem_cons_self)).2.1
  constructor
  · exact hfiltered
  · exact hann
  · intro a ha
    rcases hnew a ha with ha | ⟨snapshot, rfl, hsa⟩
    · exact hf.dated a ha
    · have hd := h.registry.dated u a htells.1.active (by rw [← htells.1.address, hsa])
      rw [hserv] at hd
      exact hd
  · intro snapshot' u' cursor' a hmem hle' hsa ha
    have hmem' : .emit service (.spawned snapshot') u' cursor' ∈ rest := by
      rcases mem_cons.mp hmem with he | hmem
      · cases he
        omega
      · exact hmem
    have hold : .emit service (.spawned snapshot') u' cursor' ∈ w.stack := by
      rw [hstack]
      exact mem_cons_of_mem _ hmem'
    rcases hnew a ha with ha | ⟨snapshot, rfl, hsa'⟩
    · exact hf.unheard snapshot' u' cursor' a hold hle' hsa ha
    · -- two announcements of one generation are announcements of one instance
      have hpend : w.Unfinished service cursor' := (unfinished_iff w service cursor').mpr ⟨(t, c), hentry, hle'⟩
      obtain ⟨_, hserv', htells'⟩ := h.frames.emit service (.spawned snapshot') u' cursor' hold
      have hann' := (htells' hpend).1
      have he : u' = u := by
        have h₁ := (h.registry.reached service (some a) u).mpr
          ⟨htells.1.active, hserv, by rw [← htells.1.address, hsa']⟩
        have h₂ := (h.registry.reached service (some a) u').mpr
          ⟨hann'.active, hserv', by rw [← hann'.address, hsa]⟩
        rw [h₁] at h₂
        exact (some.inj h₂).symm
      have hpairs := h.frames.pairs
      rw [hstack, pairwise_cons] at hpairs
      have hno := ((hpairs.1 _ hmem').announcing u' (by simp [Frame.announces]) hpend).2.2
      rw [he] at hno
      simp [Frame.announces] at hno
  · intro address'
    by_cases he : address' = address
    · rw [he]
      exact .inr (.inr hself)
    · have hne : update.renews ≠ some address' := by
        rw [hrenews]
        intro hs
        exact he (some.inj hs).symm
      exact moved_instep hstack hnext hne (fun u' member _ => hnotstate u' member) (hother address' he)
        (hf.instep address')

end Moved

/-- The listener is handed the update, or its snapshot covers it. -/
def Handed (w' : World V O) (service t : Nat) (v : View) (f : Sequences) (update : ServiceProviderUpdate V O) : Prop :=
  match updateCoveredBySnapshot f update with
  | (true, f') => f' = f ∧ w'.Follows noneExempt service t v f
  | (false, f') => ∃ v', v.observe update = some v' ∧ w'.Follows noneExempt service t v' f'

section Cases

variable {service u cursor t c : Nat} {rest : List (Frame V O)} (h : Inv noneExempt w)
  {v : View} {f : Sequences} (hf : w.Follows noneExempt service t v f)

include h hf

theorem handed_closed {a : ServiceInstanceAddress} (hstack : w.stack = .emit service (.closed a) u cursor :: rest)
    (hnext : (w.registrations service).subscribers.nextFrom cursor = some (t, c)) :
    Handed (moved w service (.closed a) u t rest) service t v f (.closed a) := by
  obtain ⟨_, _, _, _, htells⟩ := visited h hstack hnext
  have hnone : w.instanceAt service (some a) = none := htells
  refine ⟨⟨v.announced, v.known.drop (some a)⟩, rfl, ?_⟩
  apply follows_renewed h hstack hnext hf rfl
  · intro key x
    simp only [Sequences.drop]
    split
    · intro hx
      cases hx
    · exact hf.filtered key x
  · intro a' member
    simp only [Sequences.drop]
    split
    · exact fun hx => absurd rfl hx
    · exact hf.announced a' member
  · exact fun a' ha' => .inl ha'
  · constructor
    · intro u' member id hu'
      have hu' : w.instanceAt service (some a) = some u' := hu'
      rw [hnone] at hu'
      cases hu'
    · intro member _
      simp [Sequences.drop]
  · intro address' hne hin
    exact hin.view (fun member => by simp [Sequences.drop, hne]) (fun member => by simp [Sequences.drop, hne])

variable {snapshot : ServiceInstanceSnapshot V}

theorem handed_spawned
    (hstack : w.stack = .emit service (.spawned snapshot) u cursor :: rest)
    (hnext : (w.registrations service).subscribers.nextFrom cursor = some (t, c)) :
    Handed (moved w service (.spawned snapshot) u t rest) service t v f (.spawned snapshot) := by
  obtain ⟨_, hle, _, _, hann, a, ha⟩ := visited h hstack hnext
  have htop : .emit service (.spawned snapshot) u cursor ∈ w.stack := by
    rw [hstack]
    exact mem_cons_self
  have hfresh : a ∉ v.announced := hf.unheard snapshot u cursor a htop hle ha
  have hunknown : ∀ member, v.known (snapshot.address, member) = none := by
    intro member
    by_contra hne
    rw [ha] at hne
    exact hfresh (hf.announced a member hne)
  have hunfiltered : ∀ member, f (snapshot.address, member) = none := by
    intro member
    cases hx : f (snapshot.address, member) with
    | none => rfl
    | some x =>
      have := hf.filtered _ x hx
      rw [hunknown] at this
      cases this
  have hframes := moved_frames h hstack hnext
  refine ⟨⟨a :: v.announced, recordSnapshotSequences v.known snapshot⟩, ?_, ?_⟩
  · simp only [View.observe, View.announce, ha, if_neg hfresh]
  apply follows_renewed h hstack hnext hf rfl
  · intro key x
    dsimp only
    rw [record_get hann.nodup, record_get hann.nodup]
    intro hx
    rcases or_eq_some_iff.mp hx with hx | ⟨hnone, hx⟩
    · rw [hx]
      rfl
    · rw [hnone, none_or]
      exact hf.filtered key x hx
  · intro a' member hne
    by_cases he : a' = a
    · rw [he]
      exact mem_cons_self
    · apply mem_cons_of_mem
      apply hf.announced a' member
      have haddr : (some a', member).1 ≠ snapshot.address := by
        rw [ha]
        intro hs
        exact he (some.inj hs)
      rw [← record_other hann.nodup v.known haddr]
      exact hne
  · intro a' ha'
    rcases mem_cons.mp ha' with rfl | ha'
    · exact .inr ⟨snapshot, rfl, ha⟩
    · exact .inl ha'
  · refine instep_of_announces (u := u) ((sameBooks_restack w _).registry h.registry) ?_ hframes
      (hann.mono rfl (fun _ _ _ => ⟨rfl, Nat.le_refl _⟩)) (h.frames.emit _ _ _ _ htop).2.1 t ?_ ?_
    · refine h.queues.of_eq (fun _ => ⟨rfl, rfl, rfl⟩) ?_
      intro id publication
      rw [hstack]
      simp
    · intro member
      dsimp only
      rw [record_self hann.nodup, hunknown, or_none]
    · intro member
      rw [record_self hann.nodup, hunfiltered, or_none]
  · intro address' hne hin
    exact hin.view (fun member => record_other hann.nodup v.known hne) (fun member => record_other hann.nodup f hne)

omit hf in
/-- A service with a singleton has no other instances. -/
theorem no_keyed (hmode : (w.registrations service).mode = .singleton) (a : ServiceInstanceAddress) :
    w.instanceAt service (some a) = none := by
  simp only [instanceAt, (h.registry.modes service).1 hmode, JsProps.get?_nil]

theorem handed_unavailable (hstack : w.stack = .emit service .unavailable u cursor :: rest)
    (hnext : (w.registrations service).subscribers.nextFrom cursor = some (t, c)) :
    Handed (moved w service .unavailable u t rest) service t v f .unavailable := by
  obtain ⟨_, _, _, _, hnone, hmode⟩ := visited h hstack hnext
  refine ⟨⟨v.announced, v.known.drop none⟩, rfl, ?_⟩
  apply follows_renewed h hstack hnext hf rfl
  · intro key x hx
    cases hx
  · intro a member hne
    apply hf.announced a member
    simpa [Sequences.drop] using hne
  · exact fun a ha => .inl ha
  · constructor
    · intro u' member id hu'
      have hu' : w.instanceAt service none = some u' := hu'
      rw [hnone] at hu'
      cases hu'
    · intro member _
      simp [Sequences.drop]
  · intro address' hne hin
    cases address' with
    | none => exact absurd rfl hne
    | some a =>
      constructor
      · intro u' member id hu'
        rw [no_keyed h hmode a] at hu'
        cases hu'
      · intro member hm
        have := hin.unfed member hm
        simpa [Sequences.drop] using this

theorem handed_replaced
    (hstack : w.stack = .emit service (.replaced snapshot) u cursor :: rest)
    (hnext : (w.registrations service).subscribers.nextFrom cursor = some (t, c)) :
    Handed (moved w service (.replaced snapshot) u t rest) service t v f (.replaced snapshot) := by
  obtain ⟨_, _, _, _, hann, ha⟩ := visited h hstack hnext
  have htop : .emit service (.replaced snapshot) u cursor ∈ w.stack := by
    rw [hstack]
    exact mem_cons_self
  have hserv := (h.frames.emit _ _ _ _ htop).2.1
  have hmode : (w.registrations service).mode = .singleton := by
    have hu := (h.registry.reached service none u).mpr ⟨hann.active, hserv, by rw [← hann.address, ha]⟩
    have hu : (w.registrations service).singleton = some u := hu
    cases hm : (w.registrations service).mode with
    | singleton => rfl
    | keyed =>
      have := (h.registry.modes service).2 hm
      rw [hu] at this
      cases this
  have hframes := moved_frames h hstack hnext
  have hother : ∀ address', address' ≠ none → ∀ member,
      recordSnapshotSequences (v.known.drop none) snapshot (address', member) = v.known (address', member) := by
    intro address' hne member
    have hne' : (address', member).1 ≠ snapshot.address := by
      rw [ha]
      exact hne
    rw [record_other hann.nodup _ hne']
    simp [Sequences.drop, hne]
  refine ⟨⟨v.announced, recordSnapshotSequences (v.known.drop none) snapshot⟩, ?_, ?_⟩
  · simp only [View.observe, View.announce, ha]
  apply follows_renewed h hstack hnext hf rfl
  · intro key x
    dsimp only
    rw [record_get hann.nodup, record_get hann.nodup]
    intro hx
    rcases or_eq_some_iff.mp hx with hx | ⟨_, hx⟩
    · rw [hx]
      rfl
    · cases hx
  · intro a member hne
    apply hf.announced a member
    dsimp only at hne
    rwa [hother (some a) (some_ne_none a)] at hne
  · exact fun a ha => .inl ha
  · rw [← ha]
    refine instep_of_announces (u := u) ((sameBooks_restack w _).registry h.registry) ?_ hframes
      (hann.mono rfl (fun _ _ _ => ⟨rfl, Nat.le_refl _⟩)) hserv t ?_ ?_
    · refine h.queues.of_eq (fun _ => ⟨rfl, rfl, rfl⟩) ?_
      intro id publication
      rw [hstack]
      simp
    · intro member
      dsimp only
      rw [record_self hann.nodup]
      simp [Sequences.drop, ha]
    · intro member
      rw [record_self hann.nodup, or_none]
  · intro address' hne hin
    cases address' with
    | none => exact absurd rfl hne
    | some a =>
      constructor
      · intro u' member id hu'
        rw [no_keyed h hmode a] at hu'
        cases hu'
      · intro member hm
        dsimp only
        rw [hother (some a) hne]
        exact hin.unfed member hm

section State

variable {address : Option ServiceInstanceAddress} {member : JsString} {sequence : Nat} {ops : List O}
  (hstack : w.stack = .emit service (.state address member sequence ops) u cursor :: rest)
  (hnext : (w.registrations service).subscribers.nextFrom cursor = some (t, c))

include hstack hnext

omit hf in
/-- The state behind the update, and how far it has been handed out. -/
theorem state_source : ∃ id, w.stateOf u member = some id ∧ w.instanceAt service address = some u ∧
    sequence = w.emitted id ∧ w.emitted id ≤ (w.states id).sequence ∧ 0 < w.emitted id ∧
    ¬ (moved w service (.state address member sequence ops) u t rest).Due t u member := by
  obtain ⟨hentry, hle, _, _, hactive, haddr⟩ := visited h hstack hnext
  have htop : .emit service (.state address member sequence ops) u cursor ∈ w.stack := by
    rw [hstack]
    exact mem_cons_self
  obtain ⟨_, hserv, _⟩ := h.frames.emit _ _ _ _ htop
  obtain ⟨id, publication, left, hid, hdel, hnot, hseq, _⟩ := h.frames.state _ _ _ _ _ _ _ htop
  obtain ⟨_, hem, hpos⟩ := h.queues.busy id publication left hdel
  refine ⟨id, hid, (h.registry.reached service address u).mpr ⟨hactive, hserv, haddr⟩, by rw [hseq, hem],
    Nat.sub_le _ _, hpos, ?_⟩
  have hpairs := h.frames.pairs
  rw [hstack, pairwise_cons] at hpairs
  rintro ⟨frame, hmem, howes⟩
  rcases mem_cons.mp hmem with rfl | hrest
  · have := howes.2.2
    omega
  · have hold : frame ∈ w.stack := by
      rw [hstack]
      exact mem_cons_of_mem _ hrest
    cases frame with
    | deliver id' publication' left' =>
      have hst := (h.frames.deliver id' publication' left' hold).2 _ howes
      rw [hid] at hst
      cases hst
      rw [(deliver_unique h.frames hdel hold).2] at hnot
      exact hnot howes
    | emit service' update' about cursor' =>
      cases update' with
      | state address' member' sequence' ops' =>
        obtain ⟨rfl, rfl, _⟩ := howes
        exact (hpairs.1 _ hrest).once service address member' sequence ops about cursor rfl service' address' sequence'
          ops' cursor' rfl
      | _ => exact howes
    | replay c' => exact howes

omit hf in
/-- Nobody who is handed an update of an instance still waits for its announcement. -/
theorem state_not_covered : ¬ w.Covered service t address := by
  obtain ⟨hentry, hle, _, _, hactive, haddress⟩ := visited h hstack hnext
  obtain ⟨id, hid, hu, _⟩ := state_source h hstack hnext
  rintro ⟨update', u', cursor', hmem, hrenews, hle'⟩
  obtain ⟨_, hserv', htells'⟩ := h.frames.emit service update' u' cursor' hmem
  have hpend : w.Unfinished service cursor' := (unfinished_iff w service cursor').mpr ⟨(t, c), hentry, hle'⟩
  have htells' := htells' hpend
  have hpairs := h.frames.pairs
  rw [hstack, pairwise_cons] at hpairs
  have hrest : .emit service update' u' cursor' ∈ rest := by
    rw [hstack] at hmem
    rcases mem_cons.mp hmem with he | hmem
    · cases he
      cases hrenews
    · exact hmem
  have hannounced : ∀ snapshot, w.Announces u' snapshot → snapshot.address = address → u' = u := by
    intro snapshot hann hs
    have hu' := (h.registry.reached service address u').mpr ⟨hann.active, hserv', by rw [← hann.address, hs]⟩
    rw [hu] at hu'
    exact (some.inj hu').symm
  have hstate : (Frame.emit service update' u' cursor').announces u' = true → u' ≠ u := by
    intro hann he
    subst he
    exact ((hpairs.1 _ hrest).announcing u' hann hpend).2.1 service address member sequence ops cursor rfl
  cases update' with
  | state address' member' sequence' ops' => cases hrenews
  | replaced snapshot =>
    have haddr : (none : Option ServiceInstanceAddress) = address := some.inj hrenews
    exact hstate (by simp [Frame.announces]) (hannounced snapshot htells'.1 (by rw [htells'.2, haddr]))
  | spawned snapshot =>
    exact hstate (by simp [Frame.announces]) (hannounced snapshot htells'.1 (some.inj hrenews))
  | unavailable =>
    have haddr : (none : Option ServiceInstanceAddress) = address := some.inj hrenews
    have hnone := htells'.1
    rw [haddr, hu] at hnone
    cases hnone
  | closed a =>
    have haddr : some a = address := some.inj hrenews
    have hnone : w.instanceAt service (some a) = none := htells'
    rw [haddr, hu] at hnone
    cases hnone

theorem state_instep : w.InStep service t v f address := by
  rcases hf.instep address with hex | hcovered | hin
  · exact hex.elim
  · exact absurd hcovered (state_not_covered h hstack hnext)
  · exact hin

/-- The view has the update, one way or the other. -/
theorem follows_state {v' : View} {f' : Sequences} {k : Nat} (hann : v'.announced = v.announced)
    (hknown : ∀ key, key ≠ (address, member) → v'.known key = v.known key)
    (hfilter : ∀ key, key ≠ (address, member) → f' key = f key) (hk : v'.known (address, member) = some k)
    (hle : sequence ≤ k) (hge : ∀ id, w.stateOf u member = some id → k ≤ (w.states id).sequence)
    (hexact : f' (address, member) = none → k = sequence) (hfk : ∀ x, f' (address, member) = some x → x = k) :
    (moved w service (.state address member sequence ops) u t rest).Follows noneExempt service t v' f' := by
  obtain ⟨id, hid, hu, hseq, _, _, hnotdue⟩ := state_source h hstack hnext
  have hin := state_instep h hf hstack hnext
  have hdue : ∀ u' member', (u', member') ≠ (u, member) →
      ((moved w service (.state address member sequence ops) u t rest).Due t u' member' ↔ w.Due t u' member') := by
    intro u' member' hne
    simp only [Due, hstack, moved, mem_cons, exists_eq_or_imp]
    apply or_congr_left
    simp only [Frame.Owes]
    constructor
    · rintro ⟨rfl, rfl, _⟩
      exact absurd rfl hne
    · rintro ⟨rfl, rfl, _⟩
      exact absurd rfl hne
  constructor
  · intro key x
    by_cases he : key = (address, member)
    · subst he
      intro hx
      rw [hk, hfk x hx]
    · rw [hknown key he, hfilter key he]
      exact hf.filtered key x
  · intro a member' hne
    rw [hann]
    by_cases he : ((some a, member') : StateKey) = (address, member)
    · -- the member was known before
      cases he
      obtain ⟨n, k', _, hk', _⟩ := hin.fed u member id hu hid
      apply hf.announced a member
      rw [hk']
      exact some_ne_none _
    · rw [hknown _ he] at hne
      exact hf.announced a member' hne
  · rw [hann]
    exact hf.dated
  · intro snapshot u' cursor' a hmem
    rw [hann]
    rcases mem_moved hstack hmem with he | hmem
    · cases he
    · exact hf.unheard snapshot u' cursor' a hmem
  · intro address'
    by_cases he : address' = address
    · subst he
      right
      right
      constructor
      · intro u' member' id' hu₁ hid₁
        have hu' : w.instanceAt service address' = some u' := by
          rw [← (sameBooks_restack w _).instanceAt service address']
          exact hu₁
        have hid' : w.stateOf u' member' = some id' := hid₁
        rw [hu] at hu'
        cases hu'
        by_cases hm : member' = member
        · subst hm
          rw [hid] at hid'
          cases hid'
          exact ⟨sequence, k, .inr ⟨hnotdue, hseq⟩, hk, hle, hge id hid, hexact⟩
        · have hkey : (address', member') ≠ (address', member) := by
            intro hx
            exact hm (Prod.mk.inj hx).2
          obtain ⟨n, k', hn, hk', hnk, hks, hex⟩ := hin.fed u member' id' hu hid'
          refine ⟨n, k', hn.of_eq (hdue u member' ?_) rfl, ?_, hnk, hks, ?_⟩
          · intro hx
            exact hm (Prod.mk.inj hx).2
          · rw [hknown _ hkey, hk']
          · rw [hfilter _ hkey]
            exact hex
      · intro member' hnone
        have hm : member' ≠ member := by
          intro hm
          subst hm
          have := hnone u (by rw [moved, (sameBooks_restack w _).instanceAt]; exact hu)
          have hid' : w.stateOf u member' = none := this
          rw [hid] at hid'
          cases hid'
        have hkey : (address', member') ≠ (address', member) := by
          intro hx
          exact hm (Prod.mk.inj hx).2
        rw [hknown _ hkey]
        apply hin.unfed member'
        intro u' hu'
        exact hnone u' (by rw [moved, (sameBooks_restack w _).instanceAt]; exact hu')
    · refine moved_instep hstack hnext (by intro hr; cases hr) ?_ ?_ (hf.instep address')
      · rintro u' member' hu' ⟨rfl, rfl, _⟩
        obtain ⟨_, _, haddr⟩ := (h.registry.reached service address' u).mp hu'
        obtain ⟨_, _, haddr'⟩ := (h.registry.reached service address u).mp hu
        exact he (by rw [← haddr, haddr'])
      · intro hin'
        apply hin'.view
        · intro member'
          apply hknown
          intro hx
          exact he (Prod.mk.inj hx).1
        · intro member'
          apply hfilter
          intro hx
          exact he (Prod.mk.inj hx).1

theorem handed_state : Handed (moved w service (.state address member sequence ops) u t rest) service t v f
    (.state address member sequence ops) := by
  obtain ⟨id, hid, hu, hseq, hle, hpos, _⟩ := state_source h hstack hnext
  obtain ⟨_, hc, _⟩ := visited h hstack hnext
  have hin := state_instep h hf hstack hnext
  obtain ⟨n, k, hn, hk, hnk, hks, hexact⟩ := hin.fed u member id hu hid
  have hdue : w.Due t u member := by
    refine ⟨.emit service (.state address member sequence ops) u cursor, ?_, rfl, rfl, hc⟩
    rw [hstack]
    exact mem_cons_self
  have hn : n + 1 = sequence := by
    rcases hn with ⟨_, hn⟩ | ⟨hnot, _⟩
    · omega
    · exact absurd hdue hnot
  have hsts : ∀ id', w.stateOf u member = some id' → id' = id := by
    intro id' hid'
    rw [hid] at hid'
    exact (some.inj hid').symm
  have hobserve : k = n → v.observe (.state address member sequence ops : ServiceProviderUpdate V O) =
      some ⟨v.announced, update v.known (address, member) (some sequence)⟩ := by
    intro he
    simp only [View.observe, hk, map_some, he, hn, if_true]
  simp only [Handed, updateCoveredBySnapshot]
  cases hfk : f (address, member) with
  | none =>
    refine ⟨_, hobserve (hexact hfk), ?_⟩
    refine follows_state h hf hstack hnext (k := sequence) rfl ?_ ?_ ?_ ?_ ?_ ?_ ?_
    · intro key hne
      exact update_of_ne hne _ _
    · intro key _
      rfl
    · exact update_self _ _ _
    · exact Nat.le_refl _
    · intro id' hid'
      rw [hsts id' hid']
      omega
    · intro _
      rfl
    · intro x hx
      rw [hfk] at hx
      cases hx
  | some x =>
    have hkx : k = x := by
      have := hf.filtered _ x hfk
      rw [hk] at this
      exact some.inj this
    by_cases hcov : sequence ≤ x
    · simp only [if_pos hcov]
      refine ⟨trivial, ?_⟩
      refine follows_state h hf hstack hnext (k := k) rfl ?_ ?_ ?_ ?_ ?_ ?_ ?_
      · intro key _
        rfl
      · intro key _
        rfl
      · exact hk
      · omega
      · intro id' hid'
        rw [hsts id' hid']
        exact hks
      · intro hx
        rw [hfk] at hx
        cases hx
      · intro x' hx'
        rw [hfk] at hx'
        cases hx'
        exact hkx.symm
    · simp only [if_neg hcov]
      refine ⟨_, hobserve (by omega), ?_⟩
      refine follows_state h hf hstack hnext (k := sequence) rfl ?_ ?_ ?_ ?_ ?_ ?_ ?_
      · intro key hne
        exact update_of_ne hne _ _
      · intro key hne
        exact update_of_ne hne _ _
      · exact update_self _ _ _
      · exact Nat.le_refl _
      · intro id' hid'
        rw [hsts id' hid']
        omega
      · intro _
        rfl
      · intro x' hx'
        rw [update_self] at hx'
        cases hx'

end State

theorem handed {update : ServiceProviderUpdate V O} (hstack : w.stack = .emit service update u cursor :: rest)
    (hnext : (w.registrations service).subscribers.nextFrom cursor = some (t, c)) :
    Handed (moved w service update u t rest) service t v f update := by
  cases update with
  | state address member sequence ops => exact handed_state h hf hstack hnext
  | replaced snapshot => exact handed_replaced h hf hstack hnext
  | spawned snapshot => exact handed_spawned h hf hstack hnext
  | unavailable => exact handed_unavailable h hf hstack hnext
  | closed a => exact handed_closed h hf hstack hnext

end Cases

/-- What a visit does to the record of an open subscriber that is not replaying. -/
theorem visit_spec (update : ServiceProviderUpdate V O) {s : ProviderSubscriber V O} (hclosed : s.closed = false)
    (hrepl : s.replaying = []) (hactive : s.active = true → s.buffer = []) :
    (visit update s).service = s.service ∧ (visit update s).closed = false ∧ (visit update s).snapshot = s.snapshot ∧
      (visit update s).active = s.active ∧ (visit update s).replaying = [] ∧
      ((visit update s).active = true → (visit update s).buffer = []) ∧
      (visit update s).snapshotSequences = (updateCoveredBySnapshot s.snapshotSequences update).2 ∧
      (visit update s).log ++ ((visit update s).replaying ++ (visit update s).buffer) =
        s.log ++ (s.replaying ++ s.buffer) ++
          if (updateCoveredBySnapshot s.snapshotSequences update).1 = true then [] else [update] := by
  rw [visit, if_neg (by rw [hclosed]; exact Bool.false_ne_true)]
  rcases hu : updateCoveredBySnapshot s.snapshotSequences update with ⟨covered, sequences⟩
  cases covered with
  | true => simp [hclosed, hrepl]; exact hactive
  | false =>
    cases ha : s.active with
    | true => simp [hclosed, hrepl, hactive ha]
    | false => simp [hclosed, hrepl]

theorem visit_inv (h : Inv noneExempt w) {cursor c : Nat} {update : ServiceProviderUpdate V O}
    {rest : List (Frame V O)} (hstack : w.stack = .emit service update u cursor :: rest)
    (hnext : (w.registrations service).subscribers.nextFrom cursor = some (t, c)) :
    Inv noneExempt { w.setSubscriber c (visit update (w.subscribers c)) with
      stack := .emit service update u (t + 1) :: rest } := by
  obtain ⟨hentry, hle, hclosed, hrepl, _⟩ := visited h hstack hnext
  obtain ⟨hvs, hvc, hvsnap, hva, hvr, hvb, hvf, hvrec⟩ := visit_spec update hclosed hrepl (h.seats.active c)
  have hself : (w.setSubscriber c (visit update (w.subscribers c))).subscribers c = visit update (w.subscribers c) :=
    update_self _ _ _
  have hother : ∀ c', c' ≠ c →
      (w.setSubscriber c (visit update (w.subscribers c))).subscribers c' = w.subscribers c' :=
    fun c' hne => update_of_ne hne _ _
  have hbooks : SameBooks (moved w service update u t rest) { w.setSubscriber c (visit update (w.subscribers c)) with
      stack := .emit service update u (t + 1) :: rest } := ⟨fun _ => ⟨rfl, rfl, rfl, rfl⟩, rfl, rfl, fun _ => rfl⟩
  have hfoll : ∀ service' t' v f, (moved w service update u t rest).Follows noneExempt service' t' v f →
      ({ w.setSubscriber c (visit update (w.subscribers c)) with
        stack := .emit service update u (t + 1) :: rest } : World V O).Follows noneExempt service' t' v f := by
    intro service' t' v f hf
    refine hf.mono (fun _ => Nat.le_refl _) (fun snapshot u' cursor' hmem hle' => ⟨cursor', hmem, hle'⟩) ?_
    intro address
    apply Or.imp_right
    apply Or.imp_right
    intro hin
    exact hin.mono (hbooks.instanceAt service' address) (fun u' member _ => hbooks.stateOf u' member)
      (fun u' member id n _ _ hn => hn.of_eq Iff.rfl rfl) (fun _ => Nat.le_refl _)
  have hold : ∀ v, viewOf (w.subscribers c).snapshot (w.received c) = some v →
      Handed (moved w service update u t rest) service t v (w.subscribers c).snapshotSequences update := by
    intro v hv
    exact handed h (h.views.follows service t c hentry v hv) hstack hnext
  -- the view of the subscriber visited goes on
  have hnew : ∀ v, viewOf (w.subscribers c).snapshot (w.received c) = some v →
      ∃ v', viewOf (visit update (w.subscribers c)).snapshot
          ((visit update (w.subscribers c)).log ++ ((visit update (w.subscribers c)).replaying ++
            (visit update (w.subscribers c)).buffer)) = some v' ∧
        (moved w service update u t rest).Follows noneExempt service t v'
          (visit update (w.subscribers c)).snapshotSequences := by
    intro v hv
    have hh := hold v hv
    rw [Handed] at hh
    rw [hvrec, hvsnap, hvf]
    rcases hu : updateCoveredBySnapshot (w.subscribers c).snapshotSequences update with ⟨covered, sequences⟩
    rw [hu] at hh
    cases covered with
    | true =>
      obtain ⟨hs, hf⟩ := hh
      refine ⟨v, ?_, ?_⟩
      · simpa [received] using hv
      · rw [hs]
        exact hf
    | false =>
      obtain ⟨v', hobs, hf⟩ := hh
      refine ⟨v', ?_, hf⟩
      rw [if_neg Bool.false_ne_true]
      exact (viewOf_snoc _ _ _ hv).trans hobs
  constructor
  · refine h.queues.of_eq (fun _ => ⟨rfl, rfl, rfl⟩) ?_
    intro id publication
    rw [hstack]
    simp
  · exact hbooks.registry ((sameBooks_restack w _).registry h.registry)
  · refine setSubscriber_seats h.seats (h.seats.lt_of_open hclosed) hvs (by rw [hvc, hclosed]) hvb (fun _ => hvr) ?_ ?_ ?_
    · intro hne
      exact absurd hvr hne
    · intro hmem
      rw [hva]
      apply h.seats.replayed c
      rw [hstack]
      simpa using hmem
    · intro c' _
      rw [hstack]
      simp
  · refine (moved_frames h hstack hnext).mono rfl hbooks ?_ (fun _ _ hx => hx) (fun _ _ _ _ _ => ⟨rfl, Nat.le_refl _⟩)
    intro c' _ hcl hre
    by_cases he : c' = c
    · subst he
      simp only [hself] at hre
      exact absurd hvr hre
    · simp only [hother c' he] at hcl hre ⊢
      exact ⟨hcl, hre, rfl⟩
  · constructor
    · intro c' hc'
      by_cases he : c' = c
      · subst he
        obtain ⟨v, hv⟩ := h.views.accepted c' hc'
        obtain ⟨v', hv', _⟩ := hnew v hv
        simp only [received, hself]
        exact ⟨v', hv'⟩
      · simp only [received, hother c' he]
        exact h.views.accepted c' hc'
    · intro service' t' c' hentry' v'
      have hentry' : (t', c') ∈ (w.registrations service').subscribers.entries := hentry'
      by_cases he : c' = c
      · subst he
        obtain ⟨hs, _⟩ := h.seats.seated service t c' hentry
        obtain ⟨hs', _⟩ := h.seats.seated service' t' c' hentry'
        rw [hs] at hs'
        subst hs'
        have ht : t' = t := by
          have := JsSet.entry_unique hentry' hentry rfl
          exact (Prod.mk.inj this).1
        subst ht
        obtain ⟨v, hv⟩ := h.views.accepted c' (h.seats.lt_of_open hclosed)
        obtain ⟨v'', hv'', hf⟩ := hnew v hv
        simp only [received, hself]
        intro hv'
        rw [hv''] at hv'
        cases hv'
        exact hfoll service t' _ _ hf
      · simp only [received, hother c' he]
        intro hv'
        exact hfoll service' t' v' _ (moved_follows_other h hstack hnext hentry' he
          (h.views.follows service' t' c' hentry' v' hv'))

end Visits

end Shuvpi.Provider
