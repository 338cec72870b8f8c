import Shuvpi.ProviderGapFree
import Shuvpi.ServiceCodec
import Shuvpi.StateDiffExact

/-!
# Subscriptions go through their codecs

What a subscription is handed in a run of the provider, coded and decoded, is what it was
handed. The members that have a codec are those that the listener of the subscription
can know, so the order in which updates are observed is all that the codecs need: an
instance is announced once, and a state update is for a member that is known. A service
has one mode, and its updates are those of the mode; that is an invariant of every run.
-/
namespace Shuvpi.ServiceCodec

open Delta Provider
open List hiding cons nil singleton
open Option hiding sequence
open Function hiding update
open Except hiding bind pure

variable {V : Type}

/-! ## What the provider hands to the encoder -/

section Values

variable (json : V → Json)

/-- A state member is listed with a base of its value. -/
def snapshotOps (snapshot : ServiceInstanceSnapshot V) : InstanceSnapshot Op where
  address := snapshot.address
  members := snapshot.members.map fun p => (p.1, p.2.map fun content => (content.1, [.r (json content.2)]))

def updateOps : ServiceProviderUpdate V Op → Update Op
  | .state address member sequence ops => .state address member sequence ops
  | .replaced snapshot => .replaced (snapshotOps json snapshot)
  | .spawned snapshot => .spawned (snapshotOps json snapshot)
  | .unavailable => .unavailable
  | .closed address => .closed address

end Values

/-- The updates that a service of a mode has, and what their operations are like. -/
def Fits : ServiceMode → ServiceProviderUpdate V Op → Prop
  | .singleton, .state none _ _ ops => ValidOps ops
  | .singleton, .replaced snapshot => snapshot.address = none ∧ (JsProps.keys snapshot.members).Nodup
  | .singleton, .unavailable => True
  | .keyed, .state (some _) _ _ ops => ValidOps ops
  | .keyed, .spawned snapshot => snapshot.address ≠ none ∧ (JsProps.keys snapshot.members).Nodup
  | .keyed, .closed _ => True
  | _, _ => False

/-- The instances in a snapshot of a service of a mode. -/
def FitsSnapshot (mode : ServiceMode) (snapshot : ServiceInstanceSnapshot V) : Prop :=
  (snapshot.address = none ↔ mode = .singleton) ∧ (JsProps.keys snapshot.members).Nodup

/-! ## Observed updates can be coded -/

section Observed

variable (json : V → Json)

variable {snapshot : ServiceInstanceSnapshot V}

variable (hnd : (JsProps.keys snapshot.members).Nodup)
include hnd

theorem snapshotOps_sound :
    Sound (snapshotOps json snapshot) := by
  constructor
  · rw [snapshotOps, JsProps.keys, List.map_map]
    exact hnd
  · intro name sequence ops hmem
    obtain ⟨p, _, hp⟩ := mem_map.mp hmem
    obtain ⟨hname, hcont⟩ := Prod.mk.inj hp
    obtain ⟨content, _, hc⟩ := map_eq_some_iff.mp hcont
    obtain ⟨_, rfl⟩ := Prod.mk.inj hc
    intro op hop
    rw [mem_singleton.mp hop]
    rfl

theorem lists_iff (key : StateKey) :
    (snapshotOps json snapshot).lists key ↔ key.1 = snapshot.address ∧ (snapshot.sequenceOf key.2).isSome = true := by
  rw [InstanceSnapshot.lists]
  apply and_congr_right
  intro _
  rw [ServiceInstanceSnapshot.sequenceOf, isSome_map]
  constructor
  · rintro ⟨content, hmem⟩
    obtain ⟨p, hp, he⟩ := mem_map.mp hmem
    obtain ⟨hname, hcont⟩ := Prod.mk.inj he
    obtain ⟨c, hc, _⟩ := map_eq_some_iff.mp hcont
    rw [← hname, JsProps.get?_of_mem hnd hp, bind_some, id, hc]
    rfl
  · intro hsome
    obtain ⟨c, hc⟩ := isSome_iff_exists.mp hsome
    obtain ⟨content, hget, hid⟩ := bind_eq_some_iff.mp hc
    subst hid
    exact ⟨_, mem_map.mpr ⟨_, JsProps.mem_of_get? hget, rfl⟩⟩

omit hnd

/-- The registry has a codec for what the listener knows, and the listener knows members
of announced instances of its service only. -/
structure Covers (mode : ServiceMode) (encoders : Registry Encoder) (v : View) : Prop where
  known : ∀ key, (encoders key).isSome = true ↔ (v.known key).isSome = true
  ofMode : ∀ key, (v.known key).isSome = true → (key.1 = none ↔ mode = .singleton)
  heard : ∀ address member, (v.known (some address, member)).isSome = true → address ∈ v.announced

theorem record_isSome (hnd : (JsProps.keys snapshot.members).Nodup) (f : Sequences) (key : StateKey) :
    (recordSnapshotSequences f snapshot key).isSome = true ↔
      (f key).isSome = true ∨ (snapshotOps json snapshot).lists key := by
  rw [record_get hnd, lists_iff json hnd]
  by_cases ha : key.1 = snapshot.address
  · rw [if_pos ha]
    cases snapshot.sequenceOf key.2 <;> simp [ha]
  · rw [if_neg ha]
    simp [ha]

variable {encoders : Registry Encoder} {decoders : Registry Decoder} {mode : ServiceMode} {v v' : View}

/-- The announcement of an instance of the mode. -/
theorem announce_covers (hfits : FitsSnapshot mode snapshot) (hagree : Agree encoders decoders)
    (hcovers : Covers mode encoders v) (hfree : snapshot.address = none → ∀ member, v.known (none, member) = none)
    (hv : v.announce snapshot = some v') :
    ∃ encoders' decoders' wire,
      codeInstance encoder encodeBatch encoders (snapshotOps json snapshot) = .ok (encoders', wire) ∧
      codeInstance decoder Decoder.decode decoders wire = .ok (decoders', snapshotOps json snapshot) ∧
      Agree encoders' decoders' ∧ Covers mode encoders' v' := by
  have hunknown : ∀ member, v.known (snapshot.address, member) = none := by
    intro member
    cases ha : snapshot.address with
    | none => exact hfree ha member
    | some address =>
      simp only [View.announce, ha] at hv
      split at hv
      · cases hv
      · rename_i hnot
        cases hk : v.known (some address, member) with
        | none => rfl
        | some n => exact absurd (hcovers.heard address member (by rw [hk]; rfl)) hnot
  obtain ⟨encoders', decoders', wire, he, hd, hagree', hdomain⟩ :=
    instance_agrees (snapshotOps_sound json hfits.2) hagree (by
      intro key hlist
      have hnone : v.known key = none := by
        obtain ⟨address, member⟩ := key
        have ha : address = snapshot.address := hlist.1
        rw [ha]
        exact hunknown member
      cases hk : encoders key with
      | none => rfl
      | some e =>
        have := (hcovers.known key).mp (by rw [hk]; rfl)
        rw [hnone] at this
        cases this)
  have hknown' : v'.known = recordSnapshotSequences v.known snapshot := by
    rw [View.announce] at hv
    split at hv
    · cases hv
      rfl
    · split at hv
      · cases hv
      · cases hv
        rfl
  refine ⟨encoders', decoders', wire, he, hd, hagree', ?_, ?_, ?_⟩
  · intro key
    rw [hdomain, hknown', record_isSome json hfits.2, hcovers.known]
  · intro key hkey
    rw [hknown', record_isSome json hfits.2] at hkey
    rcases hkey with hkey | hkey
    · exact hcovers.ofMode key hkey
    · rw [hkey.1]
      exact hfits.1
  · intro address member hkey
    rw [hknown', record_isSome json hfits.2] at hkey
    rw [View.announce] at hv
    split at hv
    · rename_i ha
      cases hv
      rcases hkey with hkey | ⟨hk, _⟩
      · exact hcovers.heard address member hkey
      · have hk : some address = snapshot.address := hk
        rw [ha] at hk
        cases hk
    · rename_i address' ha
      split at hv
      · cases hv
      · cases hv
        rcases hkey with hkey | ⟨hk, _⟩
        · exact mem_cons_of_mem _ (hcovers.heard address member hkey)
        · have hk : some address = snapshot.address := hk
          rw [ha] at hk
          cases hk
          exact mem_cons_self

theorem covers_empty (mode : ServiceMode) (announced : List ServiceInstanceAddress) :
    Covers mode .empty ⟨announced, fun _ => none⟩ := by
  constructor
  · intro key
    simp [Registry.empty]
  · intro key hkey
    cases hkey
  · intro address member hkey
    cases hkey

/-- The singleton of a service is all that its listeners know. -/
theorem Covers.drop_singleton (h : Covers .singleton encoders v) : v.known.drop none = fun _ => none := by
  funext key
  rw [Sequences.drop]
  split
  · rfl
  · rename_i hne
    cases hk : v.known key with
    | none => rfl
    | some n => exact absurd ((h.ofMode key (by rw [hk]; rfl)).mpr rfl) hne

/-- An update that is observed goes through the codecs. -/
theorem observe_covers {update : ServiceProviderUpdate V Op} (hfits : Fits mode update)
    (hagree : Agree encoders decoders) (hcovers : Covers mode encoders v) (hv : v.observe update = some v') :
    ∃ encoders' decoders' wire, encodeUpdate encoders (updateOps json update) = .ok (encoders', wire) ∧
      decodeUpdate decoders wire = .ok (decoders', updateOps json update) ∧ Agree encoders' decoders' ∧
      Covers mode encoders' v' := by
  cases update with
  | state address member sequence ops =>
    have hops : ValidOps ops := by
      cases mode <;> cases address <;> first | exact hfits | exact hfits.elim
    rw [View.observe] at hv
    split at hv
    · rename_i hnext
      cases hv
      obtain ⟨n, hn, _⟩ := Option.map_eq_some_iff.mp hnext
      have hsome : (v.known (address, member)).isSome = true := by rw [hn]; rfl
      obtain ⟨e, d, he, hd, hsync⟩ := hagree.get (address, member) ((hcovers.known _).mpr hsome)
      obtain ⟨e', d', batch, hbatch, hbatch', hsync'⟩ := batch_agrees hsync hops
      have hsame : ∀ key, (Function.update v.known (address, member) (some sequence) key).isSome = true ↔
          (v.known key).isSome = true := by
        intro key
        by_cases hk : key = (address, member)
        · subst hk
          simp [hsome]
        · rw [Function.update_of_ne hk]
      refine ⟨Function.update encoders (address, member) (some e'), Function.update decoders (address, member) (some d'),
        .state address member sequence batch, ?_, ?_, hagree.update _ hsync', ?_, ?_, ?_⟩
      · simp only [encodeUpdate, updateOps, codeUpdate, Registry.get, he, hbatch, bind, Except.bind, pure, Except.pure]
      · simp only [decodeUpdate, updateOps, codeUpdate, Registry.get, hd, hbatch', bind, Except.bind, pure, Except.pure]
      · intro key
        rw [hsame, ← hcovers.known]
        by_cases hk : key = (address, member)
        · subst hk
          simp [he]
        · rw [Function.update_of_ne hk]
      · intro key hkey
        exact hcovers.ofMode key ((hsame key).mp hkey)
      · intro address' member' hkey
        exact hcovers.heard address' member' ((hsame _).mp hkey)
    · cases hv
  | replaced snapshot =>
    cases mode with
    | keyed => exact hfits.elim
    | singleton =>
      rw [View.observe, hcovers.drop_singleton] at hv
      obtain ⟨encoders', decoders', wire, he, hd, hagree', hcovers'⟩ :=
        announce_covers json ⟨by simp [hfits.1], hfits.2⟩ agree_empty (covers_empty .singleton v.announced)
          (fun _ _ => rfl) hv
      refine ⟨encoders', decoders', .replaced wire, ?_, ?_, hagree', hcovers'⟩
      · simp only [encodeUpdate, updateOps, codeUpdate, he, bind, Except.bind, pure, Except.pure]
      · simp only [decodeUpdate, updateOps, codeUpdate, hd, bind, Except.bind, pure, Except.pure]
  | spawned snapshot =>
    cases mode with
    | singleton => exact hfits.elim
    | keyed =>
      obtain ⟨encoders', decoders', wire, he, hd, hagree', hcovers'⟩ :=
        announce_covers json ⟨by simp [hfits.1], hfits.2⟩ hagree hcovers (fun ha => absurd ha hfits.1) hv
      refine ⟨encoders', decoders', .spawned wire, ?_, ?_, hagree', hcovers'⟩
      · simp only [encodeUpdate, updateOps, codeUpdate, he, bind, Except.bind, pure, Except.pure]
      · simp only [decodeUpdate, updateOps, codeUpdate, hd, bind, Except.bind, pure, Except.pure]
  | unavailable =>
    cases mode with
    | keyed => exact hfits.elim
    | singleton =>
      rw [View.observe, hcovers.drop_singleton] at hv
      cases hv
      exact ⟨.empty, .empty, .unavailable, rfl, rfl, agree_empty, covers_empty .singleton v.announced⟩
  | closed address =>
    cases hv
    refine ⟨encoders.removeInstance address, decoders.removeInstance address, .closed address, rfl, rfl,
      hagree.removeInstance address, ?_, ?_, ?_⟩
    · intro key
      simp only [Registry.removeInstance, Sequences.drop]
      split
      · simp
      · exact hcovers.known key
    · intro key hkey
      simp only [Sequences.drop] at hkey
      split at hkey
      · cases hkey
      · exact hcovers.ofMode key hkey
    · intro address' member hkey
      simp only [Sequences.drop] at hkey
      split at hkey
      · cases hkey
      · exact hcovers.heard address' member hkey

theorem transmitUpdates_observed (updates : List (ServiceProviderUpdate V Op))
    (hfits : ∀ update ∈ updates, Fits mode update) (hagree : Agree encoders decoders)
    (hcovers : Covers mode encoders v) (hv : v.observeAll updates = some v') :
    transmitUpdates encoders decoders (updates.map (updateOps json)) = .ok (updates.map (updateOps json)) := by
  induction updates generalizing encoders decoders v with
  | nil => rfl
  | cons update updates ih =>
    rw [View.observeAll] at hv
    obtain ⟨v₁, hv₁, hv'⟩ := Option.bind_eq_some_iff.mp hv
    obtain ⟨encoders', decoders', wire, he, hd, hagree', hcovers'⟩ :=
      observe_covers json (hfits update List.mem_cons_self) hagree hcovers hv₁
    have hrest := ih (fun update' hmem => hfits update' (List.mem_cons_of_mem _ hmem)) hagree' hcovers' hv'
    simp only [List.map_cons, transmitUpdates, he, hd, hrest, bind, Except.bind, pure, Except.pure]

/-- A snapshot that is announced goes through fresh codecs. -/
theorem instances_covers (snapshots : List (ServiceInstanceSnapshot V)) (hfits : ∀ s ∈ snapshots, FitsSnapshot mode s)
    (hone : mode = .singleton → snapshots.length ≤ 1) (hagree : Agree encoders decoders)
    (hcovers : Covers mode encoders v)
    (hfree : snapshots ≠ [] → mode = .singleton → ∀ member, v.known (none, member) = none)
    (hv : v.announceAll snapshots = some v') :
    ∃ encoders' decoders' wire,
      codeInstances encoder encodeBatch encoders (snapshots.map (snapshotOps json)) = .ok (encoders', wire) ∧
      codeInstances decoder Decoder.decode decoders wire = .ok (decoders', snapshots.map (snapshotOps json)) ∧
      Agree encoders' decoders' ∧ Covers mode encoders' v' := by
  induction snapshots generalizing encoders decoders v with
  | nil =>
    cases hv
    exact ⟨encoders, decoders, [], rfl, rfl, hagree, hcovers⟩
  | cons s snapshots ih =>
    rw [View.announceAll] at hv
    obtain ⟨v₁, hv₁, hv'⟩ := Option.bind_eq_some_iff.mp hv
    have hs := hfits s List.mem_cons_self
    obtain ⟨encoders₁, decoders₁, wire, he, hd, hagree₁, hcovers₁⟩ := announce_covers json hs hagree hcovers
      (fun ha => hfree (List.cons_ne_nil _ _) (hs.1.mp ha)) hv₁
    have hrest : mode = .singleton → snapshots = [] := by
      intro hm
      have hlen := hone hm
      rw [List.length_cons] at hlen
      exact List.eq_nil_of_length_eq_zero (by omega)
    obtain ⟨encoders₂, decoders₂, wires, he', hd', hagree₂, hcovers₂⟩ :=
      ih (fun s' hs' => hfits s' (List.mem_cons_of_mem _ hs')) (fun hm => by simp [hrest hm]) hagree₁ hcovers₁
        (fun hne hm => absurd (hrest hm) hne) hv'
    refine ⟨encoders₂, decoders₂, wire :: wires, ?_, ?_, hagree₂, hcovers₂⟩
    · simp only [List.map_cons, codeInstances, he, he', bind, Except.bind, pure, Except.pure]
    · simp only [List.map_cons, codeInstances, hd, hd', bind, Except.bind, pure, Except.pure]

/-- What is observed in order goes through the codecs. -/
theorem transmit_observed (service : Nat) {snapshots : List (ServiceInstanceSnapshot V)}
    {updates : List (ServiceProviderUpdate V Op)} (hsnapshots : ∀ s ∈ snapshots, FitsSnapshot mode s)
    (hone : mode = .singleton → snapshots.length ≤ 1) (hupdates : ∀ update ∈ updates, Fits mode update)
    (hv : viewOf snapshots updates = some v) :
    transmit ⟨service, mode, snapshots.map (snapshotOps json)⟩ (updates.map (updateOps json)) =
      .ok (⟨service, mode, snapshots.map (snapshotOps json)⟩, updates.map (updateOps json)) := by
  rw [viewOf] at hv
  obtain ⟨v₁, hv₁, hv₂⟩ := Option.bind_eq_some_iff.mp hv
  obtain ⟨encoders, decoders, wire, he, hd, hagree, hcovers⟩ := instances_covers json snapshots hsnapshots hone agree_empty
    (covers_empty mode []) (fun _ _ _ => rfl) hv₁
  have hrest := transmitUpdates_observed json updates hupdates hagree hcovers hv₂
  simp only [transmit, encodeSnapshot, decodeSnapshot, codeSnapshot, he, hd, hrest, bind, Except.bind, pure, Except.pure]

end Observed

/-! ## Every run hands out updates of the mode -/

/-- What a subscription was given and what it has or will be handed. -/
structure FitsSubscriber (mode : ServiceMode) (s : ProviderSubscriber V Op) : Prop where
  snapshot : ∀ i ∈ s.snapshot, FitsSnapshot mode i
  one : mode = .singleton → s.snapshot.length ≤ 1
  log : ∀ update ∈ s.log, Fits mode update
  replaying : ∀ update ∈ s.replaying, Fits mode update
  buffer : ∀ update ∈ s.buffer, Fits mode update

structure Fitting (modes : Nat → ServiceMode) (w : World V Op) : Prop where
  registrations : ∀ service, (w.registrations service).mode = modes service
  instances : ∀ u, (w.instances u).active = true →
    ((w.instances u).address = none ↔ modes (w.instances u).service = .singleton)
  queued : ∀ id, ∀ publication ∈ (w.states id).publications, ValidOps publication.ops
  delivered : ∀ id publication left, .deliver id publication left ∈ w.stack → ValidOps publication.ops
  emitted : ∀ service update u cursor, .emit service update u cursor ∈ w.stack → Fits (modes service) update
  subscribers : ∀ c, FitsSubscriber (modes (w.subscribers c).service) (w.subscribers c)

section Fitting

open World

variable {modes : Nat → ServiceMode} {w : World V Op}

theorem fitting_start (values : Nat → V) : Fitting modes (World.start modes values : World V Op) where
  registrations := fun _ => rfl
  instances := by
    intro u hactive
    cases hactive
  queued := by
    intro id publication hmem
    cases hmem
  delivered := by
    intro id publication left hmem
    cases hmem
  emitted := by
    intro service update u cursor hmem
    cases hmem
  subscribers := by
    intro c
    constructor <;> simp [World.start]

/-- The stack changes to loops that fit. -/
theorem Fitting.restack (h : Fitting modes w) {stack : List (Frame V Op)}
    (hdeliver : ∀ id publication left, .deliver id publication left ∈ stack → ValidOps publication.ops)
    (hemit : ∀ service update u cursor, .emit service update u cursor ∈ stack → Fits (modes service) update) :
    Fitting modes { w with stack := stack } :=
  ⟨h.registrations, h.instances, h.queued, hdeliver, hemit, h.subscribers⟩

variable {rest : List (Frame V Op)}

theorem Fitting.pop (h : Fitting modes w) {frame : Frame V Op} (hstack : w.stack = frame :: rest) :
    Fitting modes { w with stack := rest } := by
  apply h.restack
  · intro id publication left hmem
    exact h.delivered id publication left (hstack ▸ mem_cons_of_mem _ hmem)
  · intro service update u cursor hmem
    exact h.emitted service update u cursor (hstack ▸ mem_cons_of_mem _ hmem)

variable {update : ServiceProviderUpdate V Op}

theorem Fitting.emit (h : Fitting modes w) {service : Nat} (hfits : Fits (modes service) update) (about : Nat) :
    Fitting modes (w.emit service update about) := by
  rw [World.emit]
  split
  · exact h
  · apply h.restack
    · intro id publication left hmem
      rcases mem_cons.mp hmem with he | hmem
      · cases he
      · exact h.delivered id publication left hmem
    · intro service' update' u cursor hmem
      rcases mem_cons.mp hmem with he | hmem
      · cases he
        exact hfits
      · exact h.emitted service' update' u cursor hmem

theorem Fitting.setRegistration (h : Fitting modes w) (service : Nat) {r : ServiceRegistration}
    (hmode : r.mode = (w.registrations service).mode) : Fitting modes (w.setRegistration service r) := by
  refine ⟨?_, h.instances, h.queued, h.delivered, h.emitted, h.subscribers⟩
  intro service'
  by_cases he : service' = service
  · subst he
    simp only [World.setRegistration, update_self]
    rw [hmode, h.registrations]
  · simp only [World.setRegistration, update_of_ne he]
    exact h.registrations service'

variable {s : ProviderSubscriber V Op}

theorem Fitting.setSubscriber (h : Fitting modes w) {c : Nat} (hs : FitsSubscriber (modes s.service) s) :
    Fitting modes (w.setSubscriber c s) := by
  refine ⟨h.registrations, h.instances, h.queued, h.delivered, h.emitted, ?_⟩
  intro c'
  by_cases he : c' = c
  · subst he
    simpa only [World.setSubscriber, update_self] using hs
  · simpa only [World.setSubscriber, update_of_ne he] using h.subscribers c'

variable {address : Option ServiceInstanceAddress} (h : Fitting modes w)
include h

variable (service : Nat)

theorem Fitting.createInstance
    (haddr : address = none ↔ modes service = .singleton) (members : Members) :
    Fitting modes (w.createInstance service address members) := by
  refine ⟨h.registrations, ?_, h.queued, h.delivered, h.emitted, h.subscribers⟩
  intro u
  by_cases he : u = w.instanceCount
  · subst he
    simpa only [World.createInstance, update_self] using fun _ => haddr
  · simpa only [World.createInstance, update_of_ne he] using h.instances u

theorem Fitting.deactivate (u : Nat) : Fitting modes (w.deactivate u) := by
  refine ⟨h.registrations, ?_, h.queued, h.delivered, h.emitted, h.subscribers⟩
  intro u' hactive
  by_cases he : u' = u
  · subst he
    simp [World.deactivate] at hactive
  · simp only [World.deactivate, update_of_ne he] at hactive ⊢
    exact h.instances u' hactive

/-- The next publication of a state leaves its queue. -/
theorem Fitting.shiftPublication (id : Nat) (hrest : ∀ frame ∈ rest, frame ∈ w.stack) :
    Fitting modes (w.shiftPublication id rest) := by
  rw [World.shiftPublication]
  cases hp : (w.states id).publications with
  | nil =>
    refine ⟨h.registrations, h.instances, ?_, ?_, ?_, h.subscribers⟩
    · intro id' publication hmem
      by_cases he : id' = id
      · subst he
        simp only [World.setState, update_self] at hmem
        cases hmem
      · simp only [World.setState, update_of_ne he] at hmem
        exact h.queued id' publication hmem
    · intro id' publication left hmem
      exact h.delivered id' publication left (hrest _ hmem)
    · intro service update u cursor hmem
      exact h.emitted service update u cursor (hrest _ hmem)
  | cons first publications =>
    have hqueued : ∀ publication ∈ first :: publications, ValidOps publication.ops := by
      rw [← hp]
      exact h.queued id
    refine ⟨h.registrations, h.instances, ?_, ?_, ?_, h.subscribers⟩
    · intro id' publication hmem
      by_cases he : id' = id
      · subst he
        simp only [World.setState, update_self] at hmem
        exact hqueued publication (mem_cons_of_mem _ hmem)
      · simp only [World.setState, update_of_ne he] at hmem
        exact h.queued id' publication hmem
    · intro id' publication left hmem
      rcases mem_cons.mp hmem with he | hmem
      · cases he
        exact hqueued first mem_cons_self
      · exact h.delivered id' publication left (hrest _ hmem)
    · intro service update u cursor hmem
      rcases mem_cons.mp hmem with he | hmem
      · cases he
      · exact h.emitted service update u cursor (hrest _ hmem)

theorem Fitting.setState {id : Nat} {s : ReplicatedState V Op}
    (hs : ∀ publication ∈ s.publications, ValidOps publication.ops) : Fitting modes (w.setState id s) := by
  refine ⟨h.registrations, h.instances, ?_, h.delivered, h.emitted, h.subscribers⟩
  intro id'
  by_cases he : id' = id
  · subst he
    simpa only [World.setState, update_self] using hs
  · simpa only [World.setState, update_of_ne he] using h.queued id'

theorem Fitting.commit {diff : V → V → List Op} (hdiff : ∀ a b, ValidOps (diff a b)) (id : Nat)
    (next : V) : Fitting modes (w.commit diff id next) := by
  have hqueued : ∀ publication ∈ (w.states id).publications ++
      [⟨(w.states id).sequence + 1, diff (w.states id).value next⟩], ValidOps publication.ops := by
    intro publication hmem
    rcases mem_append.mp hmem with hmem | hmem
    · exact h.queued id publication hmem
    · rw [mem_singleton.mp hmem]
      exact hdiff _ _
  rw [World.commit]
  dsimp only
  split
  · exact h
  · split
    · exact h.setState hqueued
    · exact (h.setState hqueued).shiftPublication id (fun _ hmem => hmem)

omit h

variable {mode : ServiceMode}

theorem fits_replaced (hmode : mode = .singleton) {u : Nat}
    (haddr : (w.instances u).address = none) : Fits mode (.replaced (w.snapshotInstance u)) := by
  subst hmode
  exact ⟨haddr, snapshotInstance_nodup w u⟩

theorem fits_spawned (hmode : mode = .keyed) {u : Nat} (haddr : (w.instances u).address ≠ none) :
    Fits mode (.spawned (w.snapshotInstance u)) := by
  subst hmode
  exact ⟨haddr, snapshotInstance_nodup w u⟩

theorem fits_closed (hmode : mode = .keyed) (address : ServiceInstanceAddress) :
    Fits mode (.closed address : ServiceProviderUpdate V Op) := by
  subst hmode
  trivial

theorem fits_unavailable (hmode : mode = .singleton) :
    Fits mode (.unavailable : ServiceProviderUpdate V Op) := by
  subst hmode
  trivial

/-- A state update of an instance of the mode. -/
theorem fits_state (haddr : address = none ↔ mode = .singleton) (member : JsString) (sequence : Nat)
    {ops : List Op} (hops : ValidOps ops) :
    Fits mode (.state address member sequence ops : ServiceProviderUpdate V Op) := by
  cases mode with
  | singleton =>
    rw [haddr.mpr rfl]
    exact hops
  | keyed =>
    cases address with
    | none => exact absurd (haddr.mp rfl) (by decide)
    | some address => exact hops

variable (h : Fitting modes w)
include h

theorem Fitting.provide (members : Members) :
    Fitting modes (w.provide service members) := by
  simp only [World.provide]
  split
  · rename_i hc
    have hmode : modes service = .singleton := by rw [← h.registrations, hc.1]
    apply Fitting.setRegistration (h.createInstance service (by simp [hmode]) members)
    rfl
  · exact h

theorem Fitting.withdraw : Fitting modes (w.withdraw service) := by
  simp only [World.withdraw]
  split
  · rename_i previous hmode _
    rw [h.registrations] at hmode
    apply Fitting.emit _ (fits_unavailable hmode)
    apply Fitting.setRegistration (h.deactivate previous)
    rfl
  · exact h

/-- A replacement is created before its predecessor is removed. -/
theorem Fitting.replace (hinv : w.Registry) (service : Nat) (members : Members) :
    Fitting modes (w.replace service members) := by
  rw [World.replace]
  split
  · rename_i hc
    have hmode : modes service = .singleton := by rw [← h.registrations, hc.1]
    have hmade : Fitting modes (w.createInstance service none members) :=
      h.createInstance service (by simp [hmode]) members
    cases hs : (w.registrations service).singleton with
    | none =>
      apply Fitting.emit _ (fits_replaced hmode _)
      · apply Fitting.setRegistration hmade
        rfl
      · simp [World.setRegistration, World.createInstance]
    | some previous =>
      have hactive := ((hinv.reached service none previous).mp hs).1
      have hne : w.instanceCount ≠ previous := by
        rintro rfl
        rw [(hinv.fresh _ (Nat.le_refl _)).1] at hactive
        cases hactive
      apply Fitting.emit _ (fits_replaced hmode _)
      · apply Fitting.setRegistration (hmade.deactivate previous)
        rfl
      · simp [World.setRegistration, World.deactivate, World.createInstance, update_of_ne hne]
  · exact h

theorem Fitting.spawn (key : JsString) (members : Members) :
    Fitting modes (w.spawn service key members) := by
  rw [World.spawn]
  split
  · rename_i hc
    have hmode : modes service = .keyed := by rw [← h.registrations, hc.2.1]
    apply Fitting.emit _ (fits_spawned hmode _)
    · apply Fitting.setRegistration (h.createInstance service (by simp [hmode]) members)
      rfl
    · simp [World.setRegistration, World.createInstance]
  · exact h

theorem Fitting.close (hinv : w.Registry) (u : Nat) : Fitting modes (w.close u) := by
  rw [World.close]
  split
  · exact h
  · rename_i address ha
    dsimp only
    split
    · rename_i hget
      have hmode : modes (w.instances u).service = .keyed := by
        cases hm : modes (w.instances u).service with
        | keyed => rfl
        | singleton =>
          rw [← h.registrations] at hm
          rw [(hinv.modes _).1 hm] at hget
          cases hget
      apply Fitting.emit _ (fits_closed hmode address)
      apply Fitting.setRegistration (h.deactivate u)
      rfl
    · exact h

theorem Fitting.snapshot (hinv : w.Registry) (before : JsString → JsString → Bool) (service : Nat) :
    (∀ i ∈ w.snapshot before (w.registrations service), FitsSnapshot (modes service) i) ∧
      (modes service = .singleton → (w.snapshot before (w.registrations service)).length ≤ 1) := by
  have hfits : ∀ address u, w.instanceAt service address = some u →
      FitsSnapshot (modes service) (w.snapshotInstance u) := by
    intro address u hu
    obtain ⟨hactive, hserv, _⟩ := (hinv.reached service address u).mp hu
    refine ⟨?_, snapshotInstance_nodup w u⟩
    rw [← hserv]
    exact h.instances u hactive
  rw [World.snapshot, h.registrations]
  cases hm : modes service with
  | singleton =>
    rw [hm] at hfits
    cases hs : (w.registrations service).singleton with
    | none => simp
    | some u =>
      refine ⟨?_, fun _ => Nat.le_refl _⟩
      intro i hi
      rw [mem_singleton.mp hi]
      exact hfits none u hs
  | keyed =>
    rw [hm] at hfits
    refine ⟨?_, fun he => absurd he (by decide)⟩
    intro i hi
    obtain ⟨p, hp, rfl⟩ := mem_map.mp hi
    rw [mem_mergeSort] at hp
    obtain ⟨generation, ha⟩ := hinv.listed service p hp
    apply hfits (some ⟨p.1, generation⟩) p.2
    simp [World.instanceAt, JsProps.get?_of_mem (hinv.keys service) hp, ha]

theorem Fitting.subscribe (hinv : w.Registry) (before : JsString → JsString → Bool) (service : Nat)
    (mode : ServiceMode) : Fitting modes (w.subscribe before service mode) := by
  rw [World.subscribe]
  split
  · exact h
  · obtain ⟨hsnap, hone⟩ := h.snapshot hinv before service
    have hset : Fitting modes ((w.setRegistration service { w.registrations service with
        subscribers := (w.registrations service).subscribers.add w.subscriberCount }).setSubscriber w.subscriberCount
          ⟨service, w.snapshot before (w.registrations service), [],
            (w.snapshot before (w.registrations service)).foldl recordSnapshotSequences (fun _ => none), false, false, [],
            [], fun u => u < w.instanceCount && !(w.instances u).active⟩) := by
      apply Fitting.setSubscriber
      · apply Fitting.setRegistration h
        rfl
      · exact ⟨hsnap, hone, by simp, by simp, by simp⟩
    exact ⟨hset.registrations, hset.instances, hset.queued, hset.delivered, hset.emitted, hset.subscribers⟩

theorem Fitting.activate (c : Nat) : Fitting modes (w.activate c) := by
  rw [World.activate]
  split
  · exact h
  · have hs := h.subscribers c
    apply Fitting.restack
    · exact h.setSubscriber ⟨hs.snapshot, hs.one, hs.log, hs.buffer, by simp⟩
    · intro id publication left hmem
      rcases mem_cons.mp hmem with he | hmem
      · cases he
      · exact h.delivered id publication left hmem
    · intro service update u cursor hmem
      rcases mem_cons.mp hmem with he | hmem
      · cases he
      · exact h.emitted service update u cursor hmem

theorem Fitting.unsubscribe (c : Nat) : Fitting modes (w.unsubscribe c) := by
  rw [World.unsubscribe]
  split
  · exact h
  · have hs := h.subscribers c
    apply Fitting.setSubscriber
    · apply Fitting.setRegistration h
      rfl
    · exact ⟨hs.snapshot, hs.one, hs.log, hs.replaying, by simp⟩

omit h

/-- A subscriber is visited with an update of its service. -/
theorem FitsSubscriber.visit (h : FitsSubscriber mode s) (hfits : Fits mode update) :
    FitsSubscriber mode (World.visit update s) := by
  rw [World.visit]
  split
  · exact h
  · split
    · exact ⟨h.snapshot, h.one, h.log, h.replaying, h.buffer⟩
    · split
      · refine ⟨h.snapshot, h.one, ?_, h.replaying, h.buffer⟩
        intro update' hmem
        rcases mem_append.mp hmem with hmem | hmem
        · exact h.log update' hmem
        · rw [mem_singleton.mp hmem]
          exact hfits
      · refine ⟨h.snapshot, h.one, h.log, h.replaying, ?_⟩
        intro update' hmem
        rcases mem_append.mp hmem with hmem | hmem
        · exact h.buffer update' hmem
        · rw [mem_singleton.mp hmem]
          exact hfits

theorem visit_service (update : ServiceProviderUpdate V Op) (s : ProviderSubscriber V Op) :
    (World.visit update s).service = s.service := by
  rw [World.visit]
  split
  · rfl
  · split
    · rfl
    · split <;> rfl

theorem Fitting.next (h : Fitting modes w) (hinv : w.Seats) : Fitting modes w.next := by
  rw [World.next]
  cases hstack : w.stack with
  | nil => exact h
  | cons frame rest =>
    have hpop : ∀ frame ∈ rest, frame ∈ w.stack := by
      intro frame hmem
      rw [hstack]
      exact mem_cons_of_mem _ hmem
    cases frame with
    | deliver id publication left =>
      cases left with
      | nil => exact h.shiftPublication id hpop
      | cons l left =>
        have hops := h.delivered id publication (l :: left) (by rw [hstack]; exact mem_cons_self)
        have hgoing : Fitting modes { w with stack := .deliver id publication left :: rest } := by
          apply h.restack
          · intro id' publication' left' hmem
            rcases mem_cons.mp hmem with he | hmem
            · cases he
              exact hops
            · exact h.delivered id' publication' left' (hpop _ hmem)
          · intro service update u cursor hmem
            rcases mem_cons.mp hmem with he | hmem
            · cases he
            · exact h.emitted service update u cursor (hpop _ hmem)
        dsimp only
        split
        · rename_i hactive
          exact hgoing.emit (fits_state (h.instances l.1 hactive) l.2 publication.sequence hops) l.1
        · exact hgoing
    | emit service update u cursor =>
      have hfits := h.emitted service update u cursor (by rw [hstack]; exact mem_cons_self)
      cases hnext : (w.registrations service).subscribers.nextFrom cursor with
      | none =>
        simp only [hnext]
        exact h.pop hstack
      | some p =>
        obtain ⟨hentry, _, _⟩ := JsSet.nextFrom_some hnext
        obtain ⟨hserv, _⟩ := hinv.seated service p.1 p.2 hentry
        simp only [hnext]
        apply Fitting.restack
        · apply h.setSubscriber
          rw [visit_service, hserv]
          apply FitsSubscriber.visit _ hfits
          rw [← hserv]
          exact h.subscribers p.2
        · intro id publication left hmem
          rcases mem_cons.mp hmem with he | hmem
          · cases he
          · exact h.delivered id publication left (hpop _ hmem)
        · intro service' update' u' cursor' hmem
          rcases mem_cons.mp hmem with he | hmem
          · cases he
            exact hfits
          · exact h.emitted service' update' u' cursor' (hpop _ hmem)
    | replay c =>
      have hs := h.subscribers c
      cases hr : (w.subscribers c).replaying with
      | nil =>
        simp only [hr]
        exact h.pop hstack
      | cons update replaying =>
        simp only [hr]
        have hrepl := hs.replaying
        rw [hr] at hrepl
        apply h.setSubscriber
        refine ⟨hs.snapshot, hs.one, ?_, fun u hu => hrepl u (mem_cons_of_mem _ hu), hs.buffer⟩
        intro update' hmem
        rcases mem_append.mp hmem with hmem | hmem
        · exact hs.log update' hmem
        · rw [mem_singleton.mp hmem]
          exact hrepl update mem_cons_self

variable {diff : V → V → List Op} (hdiff : ∀ a b, ValidOps (diff a b)) (before : JsString → JsString → Bool)

include hdiff

theorem Fitting.step (h : Fitting modes w) (hinv : Inv noneExempt w) (operation : Operation V) :
    Fitting modes (w.step diff before operation) := by
  cases operation with
  | commit id next => exact h.commit hdiff id next
  | provide service members => exact h.provide service members
  | withdraw service => exact h.withdraw service
  | replace service members => exact h.replace hinv.registry service members
  | spawn service key members => exact h.spawn service key members
  | close u => exact h.close hinv.registry u
  | subscribe service mode => exact h.subscribe hinv.registry before service mode
  | activate c => exact h.activate c
  | unsubscribe c => exact h.unsubscribe c
  | next => exact h.next hinv.seats

theorem Fitting.steps (h : Fitting modes w) (hinv : Inv noneExempt w) {operations : List (Operation V)}
    (hallowed : w.AllAllowed diff before operations) : Fitting modes (w.steps diff before operations) := by
  induction operations generalizing w with
  | nil => exact h
  | cons operation operations ih =>
    exact ih (h.step hdiff before hinv operation) (step_inv diff before hinv hallowed.1) hallowed.2

end Fitting

/-! ## Subscriptions -/

section Subscriptions

open StateDiff

variable {live : Rev → Prop}

/-- The operations that a state publishes when its revision changes. -/
def publishedOps (numberLength : JsNumber → Nat) (before after : Subtype live) : List Op :=
  diffRevisions numberLength before.1 after.1

/-- What the encoder of a subscription gets first. -/
def subscriptionSnapshot (w : World (Subtype live) Op) (c : Nat) : SubscriptionSnapshot Op where
  serviceId := (w.subscribers c).service
  mode := (w.registrations (w.subscribers c).service).mode
  instances := (w.subscribers c).snapshot.map (snapshotOps fun v => v.1.erase)

/-- What it gets then, as far as the run has come. -/
def subscriptionUpdates (w : World (Subtype live) Op) (c : Nat) : List (Update Op) :=
  (w.subscribers c).log.map (updateOps fun v => v.1.erase)

/-- In every run that keeps to the rules, and in every state it reaches, the snapshot and
the updates of every subscription go through the encoder and the decoder and come out
as they were. -/
theorem transmit_of_allowed (heap : Heap live) (numberLength : JsNumber → Nat) (before : JsString → JsString → Bool)
    (modes : Nat → ServiceMode) (values : Nat → Subtype live) (operations : List (Operation (Subtype live)))
    (hallowed : (World.start modes values : World (Subtype live) Op).AllAllowed (publishedOps numberLength) before
      operations) (c : Nat)
    (hc : c < ((World.start modes values).steps (publishedOps numberLength) before operations).subscriberCount) :
    let w := (World.start modes values).steps (publishedOps numberLength) before operations
    transmit (subscriptionSnapshot w c) (subscriptionUpdates w c) =
      .ok (subscriptionSnapshot w c, subscriptionUpdates w c) := by
  intro w
  have hdiff : ∀ a b : Subtype live, ValidOps (publishedOps numberLength a b) :=
    fun a b => (diffRevisions_emits heap numberLength a.2 b.2).valid rfl
  have hinv := start_inv (O := Op) modes values
  have hfitting := (fitting_start values).steps hdiff before hinv hallowed
  obtain ⟨v, hv, _⟩ := (steps_inv (publishedOps numberLength) before hinv hallowed).upToDate hc
  have hs := hfitting.subscribers c
  rw [← hfitting.registrations] at hs
  exact transmit_observed _ _ hs.snapshot hs.one hs.log hv

/-- Values without containers. -/
def Plain (v : Rev) : Prop := v.ref? = none

theorem plain_heap : Heap Plain where
  identity := by
    intro u v hu _ ref hru
    rw [hu] at hru
    cases hru
  item := by
    intro ref items h
    cases h
  prop := by
    intro ref props h
    cases h

def plainBoolean (b : Bool) : Subtype Plain := ⟨.boolean b, rfl⟩

/-- A keyed service: the instance `k` changes, is closed, and comes back in a second
generation that changes as well. -/
def respawned : List (Operation (Subtype Plain)) :=
  [.spawn 0 [107] oneState, .subscribe 0 .keyed, .activate 0, .next, .commit 0 (plainBoolean true), .next, .next, .next,
    .next, .close 0, .next, .next, .spawn 0 [107] oneState, .next, .next, .commit 0 (plainBoolean false), .next, .next,
    .next, .next]

theorem transmit_respawned :
    let w := (World.start (fun _ => .keyed) fun _ => plainBoolean false).steps (publishedOps fun _ => 1) (fun _ _ => true)
      respawned
    (subscriptionUpdates w 0).length = 4 ∧ transmit (subscriptionSnapshot w 0) (subscriptionUpdates w 0) =
        .ok (subscriptionSnapshot w 0, subscriptionUpdates w 0) := by
  intro w
  have hlength : (subscriptionUpdates w 0).length = 4 := by decide +kernel
  exact ⟨hlength, transmit_of_allowed plain_heap (fun _ => 1) (fun _ _ => true) _ _ respawned (by decide +kernel) 0
    (by decide)⟩

/-- The listener that hears of the new instance subscribes once more; the loop comes to
the new subscription, whose snapshot has the instance, and announces it again. -/
def subscribedUnderSpawn : World (Subtype Plain) Op :=
  (World.start (fun _ => .keyed) fun _ => plainBoolean false).steps (publishedOps fun _ => 1) (fun _ _ => true)
    [.subscribe 0 .keyed, .activate 0, .next, .spawn 0 [107] oneState, .next, .subscribe 0 .keyed, .next, .next,
      .activate 1, .next, .next]

/-- The encoder throws: the state has a codec already. -/
theorem subscribedUnderSpawn_duplicate :
    ¬ transmit (subscriptionSnapshot subscribedUnderSpawn 1) (subscriptionUpdates subscribedUnderSpawn 1) =
      .ok (subscriptionSnapshot subscribedUnderSpawn 1, subscriptionUpdates subscribedUnderSpawn 1) := by
  have herror : (transmit (subscriptionSnapshot subscribedUnderSpawn 1)
      (subscriptionUpdates subscribedUnderSpawn 1)).isOk = false := by decide +kernel
  intro h
  rw [h] at herror
  cases herror

end Subscriptions

end Shuvpi.ServiceCodec
