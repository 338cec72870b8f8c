import Shuvpi.DeltaCodec
import Shuvpi.Provider

/-!
# The codecs of a service subscription

`createServiceStateEncoder` and `createServiceStateDecoder` of `chord/services`: one
path-interning codec for every state member that a subscription knows, kept in a
registry on either side. Both sides are one definition, with the codec that a new member
gets and the way it codes a batch as parameters.

A snapshot carries the operations of its state members, and so does an update; `Op` on
the side of the service, `WireOp` on the wire. The key of a registry entry, a JSON text
in the source, is the pair of the address and the member.
-/
namespace Shuvpi.ServiceCodec

open Delta Provider

/-- `kind: "state"` members have a sequence and operations, methods nothing. -/
structure InstanceSnapshot (P : Type) where
  address : Option ServiceInstanceAddress
  members : List (JsString × Option (Nat × List P))

structure SubscriptionSnapshot (P : Type) where
  serviceId : Nat
  mode : ServiceMode
  instances : List (InstanceSnapshot P)

inductive Update (P : Type) where
  | state (address : Option ServiceInstanceAddress) (member : JsString) (sequence : Nat) (ops : List P)
  | replaced (snapshot : InstanceSnapshot P)
  | spawned (snapshot : InstanceSnapshot P)
  | unavailable
  | closed (address : ServiceInstanceAddress)

inductive CodecError where
  | duplicate (address : Option ServiceInstanceAddress) (member : JsString)
  | unknown (address : Option ServiceInstanceAddress) (member : JsString)
  | delta (error : DeltaError)

/-- `StateCodecRegistry` -/
abbrev Registry (C : Type) := StateKey → Option C

namespace Registry

variable {C : Type}

def empty : Registry C := fun _ => none

def add (registry : Registry C) (key : StateKey) (codec : C) : Except CodecError (Registry C) :=
  if (registry key).isSome then .error (.duplicate key.1 key.2) else .ok (Function.update registry key (some codec))

def get (registry : Registry C) (key : StateKey) : Except CodecError C :=
  match registry key with
  | some codec => .ok codec
  | none => .error (.unknown key.1 key.2)

def removeInstance (registry : Registry C) (address : ServiceInstanceAddress) : Registry C :=
  fun key => if key.1 = some address then none else registry key

end Registry

/-! ## One side -/

section Side

variable {C P Q : Type} (create : C) (code : C → List P → Except DeltaError (C × List Q))

def codeBatch (codec : C) (ops : List P) : Except CodecError (C × List Q) := (code codec ops).mapError .delta

/-- The members of an instance, each state member with a codec of its own. -/
def codeMembers (address : Option ServiceInstanceAddress) : Registry C → List (JsString × Option (Nat × List P)) →
      Except CodecError (Registry C × List (JsString × Option (Nat × List Q)))
  | registry, [] => .ok (registry, [])
  | registry, (name, none) :: members => do
    let (registry, rest) ← codeMembers address registry members
    return (registry, (name, none) :: rest)
  | registry, (name, some (sequence, ops)) :: members => do
    let registry ← registry.add (address, name) create
    let (codec, coded) ← codeBatch code create ops
    let registry := Function.update registry (address, name) (some codec)
    let (registry, rest) ← codeMembers address registry members
    return (registry, (name, some (sequence, coded)) :: rest)

/-- `encodeInstance`, `decodeInstance` -/
def codeInstance (registry : Registry C) (snapshot : InstanceSnapshot P) :
    Except CodecError (Registry C × InstanceSnapshot Q) := do
  let (registry, members) ← codeMembers create code snapshot.address registry snapshot.members
  return (registry, ⟨snapshot.address, members⟩)

def codeInstances : Registry C → List (InstanceSnapshot P) → Except CodecError (Registry C × List (InstanceSnapshot Q))
  | registry, [] => .ok (registry, [])
  | registry, snapshot :: snapshots => do
    let (registry, coded) ← codeInstance create code registry snapshot
    let (registry, rest) ← codeInstances registry snapshots
    return (registry, coded :: rest)

/-- `encodeSnapshot`, `decodeSnapshot`: the registry begins anew. -/
def codeSnapshot (snapshot : SubscriptionSnapshot P) : Except CodecError (Registry C × SubscriptionSnapshot Q) := do
  let (registry, instances) ← codeInstances create code .empty snapshot.instances
  return (registry, ⟨snapshot.serviceId, snapshot.mode, instances⟩)

/-- `encodeUpdate`, `decodeUpdate` -/
def codeUpdate (registry : Registry C) : Update P → Except CodecError (Registry C × Update Q)
  | .state address member sequence ops => do
    let codec ← registry.get (address, member)
    let (codec, coded) ← codeBatch code codec ops
    return (Function.update registry (address, member) (some codec), .state address member sequence coded)
  | .replaced snapshot => do
    let (registry, coded) ← codeInstance create code .empty snapshot
    return (registry, .replaced coded)
  | .spawned snapshot => do
    let (registry, coded) ← codeInstance create code registry snapshot
    return (registry, .spawned coded)
  | .unavailable => .ok (.empty, .unavailable)
  | .closed address => .ok (registry.removeInstance address, .closed address)

end Side

/-! ## Both sides -/

def encodeBatch (e : Encoder) (ops : List Op) : Except DeltaError (Encoder × List WireOp) := .ok (e.encode ops)

def encodeSnapshot : SubscriptionSnapshot Op → Except CodecError (Registry Encoder × SubscriptionSnapshot WireOp) :=
  codeSnapshot encoder encodeBatch

def encodeUpdate : Registry Encoder → Update Op → Except CodecError (Registry Encoder × Update WireOp) :=
  codeUpdate encoder encodeBatch

def decodeSnapshot : SubscriptionSnapshot WireOp → Except CodecError (Registry Decoder × SubscriptionSnapshot Op) :=
  codeSnapshot decoder Decoder.decode

def decodeUpdate : Registry Decoder → Update WireOp → Except CodecError (Registry Decoder × Update Op) :=
  codeUpdate decoder Decoder.decode

/-- Each update is encoded, and what comes out is decoded. -/
def transmitUpdates : Registry Encoder → Registry Decoder → List (Update Op) → Except CodecError (List (Update Op))
  | _, _, [] => .ok []
  | encoders, decoders, update :: updates => do
    let (encoders, wire) ← encodeUpdate encoders update
    let (decoders, received) ← decodeUpdate decoders wire
    let rest ← transmitUpdates encoders decoders updates
    return received :: rest

/-- A subscription: its snapshot and its updates, encoded and decoded in order. -/
def transmit (snapshot : SubscriptionSnapshot Op) (updates : List (Update Op)) :
    Except CodecError (SubscriptionSnapshot Op × List (Update Op)) := do
  let (encoders, wire) ← encodeSnapshot snapshot
  let (decoders, received) ← decodeSnapshot wire
  let rest ← transmitUpdates encoders decoders updates
  return (received, rest)

/-! ## The two registries agree -/

/-- The members that have a codec are the same on both sides, and their codecs have seen
the same batches. -/
def Agree (encoders : Registry Encoder) (decoders : Registry Decoder) : Prop :=
  ∀ key, match encoders key, decoders key with
    | some e, some d => Synced e d
    | none, none => True
    | _, _ => False

theorem agree_empty : Agree .empty .empty := fun _ => trivial

variable {encoders : Registry Encoder} {decoders : Registry Decoder} (h : Agree encoders decoders)
include h

theorem Agree.get (key : StateKey) (hkey : (encoders key).isSome = true) :
    ∃ e d, encoders key = some e ∧ decoders key = some d ∧ Synced e d := by
  have hk := h key
  cases he : encoders key with
  | none => rw [he] at hkey; cases hkey
  | some e =>
    cases hd : decoders key with
    | none => rw [he, hd] at hk; exact hk.elim
    | some d =>
      rw [he, hd] at hk
      exact ⟨e, d, rfl, rfl, hk⟩

theorem Agree.none {key : StateKey} (hkey : encoders key = none) :
    decoders key = none := by
  have hk := h key
  rw [hkey] at hk
  cases hd : decoders key with
  | none => rfl
  | some d => rw [hd] at hk; exact hk.elim

theorem Agree.update (key : StateKey) {e : Encoder} {d : Decoder} (hed : Synced e d) :
    Agree (Function.update encoders key (some e)) (Function.update decoders key (some d)) := by
  intro key'
  by_cases hk : key' = key
  · subst hk
    simpa using hed
  · simpa [Function.update_of_ne hk] using h key'

theorem Agree.removeInstance (address : ServiceInstanceAddress) :
    Agree (encoders.removeInstance address) (decoders.removeInstance address) := by
  intro key
  by_cases hk : key.1 = some address
  · simp [Registry.removeInstance, hk]
  · simpa [Registry.removeInstance, hk] using h key

omit h

def ValidOps (ops : List Op) : Prop := ∀ op ∈ ops, assertValidOp op = .ok ()

/-- A batch goes through a pair of codecs that agree. -/
theorem batch_agrees {e : Encoder} {d : Decoder} (h : Synced e d) {ops : List Op} (hops : ValidOps ops) :
    ∃ e' d' wire, codeBatch encodeBatch e ops = .ok (e', wire) ∧ codeBatch Decoder.decode d wire = .ok (d', ops) ∧
      Synced e' d' := by
  obtain ⟨d', hd', hs⟩ := encodeOps_carries h.newBatch ops hops
  refine ⟨(e.encode ops).1, d', (e.encode ops).2, rfl, ?_, hs⟩
  rw [codeBatch, Decoder.decode]
  have henc : (e.encode ops).2 = ({ e with previous := none }.encodeOps ops).2 := rfl
  rw [henc, hd']
  rfl

/-- The members of an instance whose names are new. -/
theorem members_agree (address : Option ServiceInstanceAddress) {members : List (JsString × Option (Nat × List Op))}
    (hnd : (JsProps.keys members).Nodup)
    (hops : ∀ name sequence ops, (name, some (sequence, ops)) ∈ members → ValidOps ops) (h : Agree encoders decoders)
    (hnew : ∀ name content, (name, some content) ∈ members → encoders (address, name) = none) :
    ∃ encoders' decoders' wire, codeMembers encoder encodeBatch address encoders members = .ok (encoders', wire) ∧
      codeMembers decoder Decoder.decode address decoders wire = .ok (decoders', members) ∧ Agree encoders' decoders' ∧
      ∀ key, (encoders' key).isSome = true ↔
        (encoders key).isSome = true ∨ key.1 = address ∧ ∃ content, (key.2, some content) ∈ members := by
  induction members generalizing encoders decoders with
  | nil => exact ⟨encoders, decoders, [], rfl, rfl, h, by simp⟩
  | cons p members ih =>
    obtain ⟨name, content⟩ := p
    obtain ⟨hname, hnd'⟩ := List.nodup_cons.mp hnd
    have hops' : ∀ name sequence ops, (name, some (sequence, ops)) ∈ members → ValidOps ops :=
      fun name sequence ops hmem => hops name sequence ops (List.mem_cons_of_mem _ hmem)
    cases content with
    | none =>
      obtain ⟨encoders', decoders', wire, he, hd, hagree, hdomain⟩ := ih hnd' hops' h
        fun name content hmem => hnew name content (List.mem_cons_of_mem _ hmem)
      refine ⟨encoders', decoders', (name, none) :: wire, ?_, ?_, hagree, ?_⟩
      · simp only [codeMembers, he, bind, Except.bind, pure, Except.pure]
      · simp only [codeMembers, hd, bind, Except.bind, pure, Except.pure]
      · intro key
        simp [hdomain key]
    | some content =>
      obtain ⟨sequence, ops⟩ := content
      have hfree := hnew name (sequence, ops) List.mem_cons_self
      have hfree' := h.none hfree
      obtain ⟨e, d, batch, hbatch, hbatch', hsync⟩ := batch_agrees synced_start (hops name sequence ops List.mem_cons_self)
      have hagree := h.update (address, name) hsync
      obtain ⟨encoders', decoders', wire, he, hd, hagree', hdomain⟩ := ih hnd' hops' hagree (by
        intro name' content' hmem
        have hne : name' ≠ name := by
          rintro rfl
          exact hname (List.mem_map.mpr ⟨_, hmem, rfl⟩)
        have hne' : (address, name') ≠ (address, name) := fun hx => hne (Prod.mk.inj hx).2
        rw [Function.update_of_ne hne']
        exact hnew name' content' (List.mem_cons_of_mem _ hmem))
      refine ⟨encoders', decoders', (name, some (sequence, batch)) :: wire, ?_, ?_, hagree', ?_⟩
      · simp only [codeMembers, Registry.add, hfree, Option.isSome_none, Bool.false_eq_true, if_false, hbatch, he, bind,
          Except.bind, pure, Except.pure, Function.update_idem]
      · simp only [codeMembers, Registry.add, hfree', Option.isSome_none, Bool.false_eq_true, if_false, hbatch', hd,
          bind, Except.bind, pure, Except.pure, Function.update_idem]
      · intro key
        rw [hdomain key]
        by_cases hk : key = (address, name)
        · subst hk
          simp
        · rw [Function.update_of_ne hk]
          have hne : key.1 = address → key.2 ≠ name := fun ha hn => hk (Prod.ext ha hn)
          simp only [List.mem_cons, Prod.mk.injEq]
          constructor
          · rintro (hs | ⟨ha, c, hc⟩)
            · exact .inl hs
            · exact .inr ⟨ha, c, .inr hc⟩
          · rintro (hs | ⟨ha, c, ⟨hn, _⟩ | hc⟩)
            · exact .inl hs
            · exact absurd hn (hne ha)
            · exact .inr ⟨ha, c, hc⟩

/-- A snapshot that can be coded: its members have different names and valid operations. -/
structure Sound (snapshot : InstanceSnapshot Op) : Prop where
  nodup : (JsProps.keys snapshot.members).Nodup
  valid : ∀ name sequence ops, (name, some (sequence, ops)) ∈ snapshot.members → ValidOps ops

/-- The state members that a snapshot lists. -/
def InstanceSnapshot.lists (snapshot : InstanceSnapshot Op) (key : StateKey) : Prop :=
  key.1 = snapshot.address ∧ ∃ content, (key.2, some content) ∈ snapshot.members

theorem instance_agrees {snapshot : InstanceSnapshot Op} (hs : Sound snapshot) (h : Agree encoders decoders)
    (hnew : ∀ key, snapshot.lists key → encoders key = none) :
    ∃ encoders' decoders' wire, codeInstance encoder encodeBatch encoders snapshot = .ok (encoders', wire) ∧
      codeInstance decoder Decoder.decode decoders wire = .ok (decoders', snapshot) ∧ Agree encoders' decoders' ∧
      ∀ key, (encoders' key).isSome = true ↔ (encoders key).isSome = true ∨ snapshot.lists key := by
  obtain ⟨encoders', decoders', wire, he, hd, hagree, hdomain⟩ := members_agree snapshot.address hs.nodup hs.valid h
    fun name content hmem => hnew (snapshot.address, name) ⟨rfl, content, hmem⟩
  refine ⟨encoders', decoders', ⟨snapshot.address, wire⟩, ?_, ?_, hagree, hdomain⟩
  · simp only [codeInstance, he, bind, Except.bind, pure, Except.pure]
  · simp only [codeInstance, hd, bind, Except.bind, pure, Except.pure]

end Shuvpi.ServiceCodec
