import Shuvpi.RemoteConnection

/-!
# A subscription, from both sides

What a client and a server on one connection know of one subscription: the listener, the
request that subscribes, the encoder, the messages in flight, the pending updates and what the
services have published. The phases of a subscription are predicates on these, and each thing
that can happen to a subscription leads from a phase to a phase.
-/
namespace Shuvpi.Remote

open Delta Provider ServiceCodec Function Client
open Option hiding bind
open Except hiding bind error ok pure
open List

/-! ## The codecs along a subscription -/

section Codecs

variable {snapshot : SubscriptionSnapshot Op} {us rest : List (Update Op)} {u : Update Op} {e : Registry Encoder} {d : Registry Decoder}

def codecsNext (codecs : Registry Encoder × Registry Decoder) (u : Update Op) : Except CodecError (Registry Encoder × Registry Decoder) := do
  let (encoders, wire) ← encodeUpdate codecs.1 u
  let (decoders, _) ← decodeUpdate codecs.2 wire
  return (encoders, decoders)

/-- Both codecs after a snapshot and updates. -/
def codecsAfter (snapshot : SubscriptionSnapshot Op) (us : List (Update Op)) : Except CodecError (Registry Encoder × Registry Decoder) := do
  let (encoders, wire) ← encodeSnapshot snapshot
  let (decoders, _) ← decodeSnapshot wire
  us.foldlM codecsNext (encoders, decoders)

theorem transmitUpdates_cons (h : transmitUpdates e d (u :: us) = .ok (u :: us)) :
    ∃ e' wire d', encodeUpdate e u = .ok (e', wire) ∧ decodeUpdate d wire = .ok (d', u) ∧ transmitUpdates e' d' us = .ok us := by
  rw [transmitUpdates] at h
  obtain ⟨⟨e', wire⟩, he, h⟩ := bind_ok.mp h
  obtain ⟨⟨d', _⟩, hd, h⟩ := bind_ok.mp h
  obtain ⟨_, hrest, ⟨⟩⟩ := bind_ok.mp h
  exact ⟨e', wire, d', he, hd, hrest⟩

theorem transmit_snapshot (h : transmit snapshot us = .ok (snapshot, us)) :
    ∃ e wire d, encodeSnapshot snapshot = .ok (e, wire) ∧ decodeSnapshot wire = .ok (d, snapshot) ∧ transmitUpdates e d us = .ok us := by
  rw [transmit] at h
  obtain ⟨⟨e, wire⟩, he, h⟩ := bind_ok.mp h
  obtain ⟨⟨d, _⟩, hd, h⟩ := bind_ok.mp h
  obtain ⟨_, hrest, ⟨⟩⟩ := bind_ok.mp h
  exact ⟨e, wire, d, he, hd, hrest⟩

variable {d' : Registry Decoder}

theorem foldlM_codecsNext {e' : Registry Encoder} (h : transmitUpdates e d (us ++ rest) = .ok (us ++ rest))
    (hcodecs : us.foldlM codecsNext (e, d) = .ok (e', d')) : transmitUpdates e' d' rest = .ok rest := by
  induction us generalizing e d with
  | nil =>
    obtain ⟨rfl, rfl⟩ := Prod.mk.inj (Except.ok.inj hcodecs)
    exact h
  | cons u us ih =>
    obtain ⟨e₁, wire, d₁, he, hd, hrest⟩ := transmitUpdates_cons h
    have hnext : codecsNext (e, d) u = .ok (e₁, d₁) := by
      simp only [codecsNext, he, hd, bind, Except.bind, pure, Except.pure]
    rw [foldlM_cons, hnext] at hcodecs
    exact ih hrest hcodecs

theorem codecsAfter_nil (h : transmit snapshot us = .ok (snapshot, us)) :
    ∃ e wire d, encodeSnapshot snapshot = .ok (e, wire) ∧ decodeSnapshot wire = .ok (d, snapshot) ∧ codecsAfter snapshot [] = .ok (e, d) := by
  obtain ⟨e, wire, d, he, hd, -⟩ := transmit_snapshot h
  refine ⟨e, wire, d, he, hd, ?_⟩
  simp only [codecsAfter, he, hd, bind, Except.bind]
  rfl

/-- The next update goes through the codecs. -/
theorem codecsAfter_next (h : transmit snapshot (us ++ u :: rest) = .ok (snapshot, us ++ u :: rest))
    (hcodecs : codecsAfter snapshot us = .ok (e, d)) :
    ∃ e' wire d', encodeUpdate e u = .ok (e', wire) ∧ decodeUpdate d wire = .ok (d', u) ∧ codecsAfter snapshot (us ++ [u]) = .ok (e', d') := by
  obtain ⟨e₀, wire₀, d₀, he₀, hd₀, hall⟩ := transmit_snapshot h
  have hfold : us.foldlM codecsNext (e₀, d₀) = .ok (e, d) := by
    simpa only [codecsAfter, he₀, hd₀, bind, Except.bind] using hcodecs
  obtain ⟨e', wire, d', he, hd, -⟩ := transmitUpdates_cons (foldlM_codecsNext hall hfold)
  refine ⟨e', wire, d', he, hd, ?_⟩
  have hnext : codecsNext (e, d) u = .ok (e', d') := by
    simp only [codecsNext, he, hd, bind, Except.bind, pure, Except.pure]
  simp only [codecsAfter, he₀, hd₀, bind, Except.bind]
  rw [List.foldlM_append, hfold]
  simp only [bind, Except.bind, List.foldlM_cons, hnext]
  rfl

variable {wires : List (Update WireOp)}

variable {wire : Update WireOp}

theorem decodeUpdates_concat {d d'' : Registry Decoder}
    (h : decodeUpdates d wires = .ok (d', us)) (hwire : decodeUpdate d' wire = .ok (d'', u)) :
    decodeUpdates d (wires ++ [wire]) = .ok (d'', us ++ [u]) := by
  induction wires generalizing d us with
  | nil =>
    obtain ⟨rfl, rfl⟩ := Prod.mk.inj (Except.ok.inj h)
    simp only [nil_append, decodeUpdates, hwire, bind, Except.bind]
    rfl
  | cons w wires ih =>
    rw [decodeUpdates] at h
    obtain ⟨⟨d₁, u₁⟩, hw, h⟩ := bind_ok.mp h
    obtain ⟨⟨d₂, us₂⟩, hrest, h⟩ := bind_ok.mp h
    obtain ⟨rfl, rfl⟩ := h
    simp only [List.cons_append, decodeUpdates, hw, ih hrest, bind, Except.bind]
    rfl

theorem decodeUpdates_cons
    (h : decodeUpdates d (wire :: wires) = .ok (d', us)) :
    ∃ d₁ u us', decodeUpdate d wire = .ok (d₁, u) ∧ decodeUpdates d₁ wires = .ok (d', us') ∧ us = u :: us' := by
  rw [decodeUpdates] at h
  obtain ⟨⟨d₁, u⟩, hw, h⟩ := bind_ok.mp h
  obtain ⟨⟨_, us'⟩, hrest, ⟨⟩⟩ := bind_ok.mp h
  exact ⟨d₁, u, us', hw, hrest, rfl⟩

end Codecs

/-! ## What both sides know of a subscription -/

/-- The messages in flight that a subscription is waiting for. -/
inductive Item where
  | snapshot (wire : SubscriptionSnapshot WireOp)
  | update (wire : Update WireOp)

/-- What a message is to the subscription `n` that was asked for with the request `id`. -/
def item (n id : Nat) : ServerMessage → Option Item
  | .response id' (.ok (.snapshot wire)) => if id' = id then some (.snapshot wire) else none
  | .serviceUpdate (.service m) wire => if m = n then some (.update wire) else none
  | _ => none

structure View where
  active : Active
  request : Option Request
  encoder : Option (Registry Encoder)
  items : List Item
  draining : Bool
  publisher : Publisher
  feed : Option Feed

def World.draining (w : World) (id : Nat) : Bool := (w.server.activeRequests id).any fun h => h.stage = .draining

def World.view (w : World) (n : Nat) (a : Active) : View where
  active := a
  request := w.client.requests a.request
  encoder := w.server.serviceStateEncoders (.service n)
  items := w.toClient.filterMap (item n a.request)
  draining := w.draining a.request
  publisher := w.server.publishers a.request
  feed := w.feeds a.request

/-! ## Phases -/

/-- The updates that a listener was or will be called with. -/
def handed (a : Active) : List (Update Op) := a.received ++ a.deliveryTail ++ a.queued

/-- A listener whose snapshot has not arrived. -/
structure Fresh (a : Active) : Prop where
  handed : Remote.handed a = []
  queuedWireUpdates : a.queuedWireUpdates = []
  hydrated : a.hydrated = false
  ready : a.ready = false
  opened : a.opened = false
  disposed : a.disposed = false

variable {v : View} {f : Feed} {e e' : Registry Encoder} {d d' : Registry Decoder} {wires : List (Update WireOp)}
  {us sent : List (Update Op)} {u : Update Op} {q : Request} {ending ending' : Prop}

/-- The client has a decoder `d`, or will have it, and then the updates `wires` to read. -/
inductive Stream (v : View) (f : Feed) (d : Registry Decoder) (wires : List (Update WireOp)) : Prop
  | waiting {q : Request} {wire : SubscriptionSnapshot WireOp} (fresh : Fresh v.active) (request : v.request = some q)
      (settled : q.settled = none) (decode : decodeSnapshot wire = .ok (d, f.snapshot)) (items : v.items = .snapshot wire :: wires.map .update)
  | reading {q : Request} (request : v.request = some q) (settled : q.settled = some (.snapshot f.snapshot)) (pending : q.pending = false)
      (hydrated : v.active.hydrated = true) (decoder : v.active.decoder = d) (items : v.items = wires.map .update)
      (ready : v.active.ready = true → v.active.queued = [])

/-- The client reads, and has read and will read what was sent. -/
structure Reading (v : View) (f : Feed) (sent : List (Update Op)) (d' : Registry Decoder) (d : Registry Decoder) (wires : List (Update WireOp))
    (us : List (Update Op)) : Prop where
  listed : v.active.listed = true
  disposed : v.active.disposed = false
  stream : Stream v f d wires
  decode : decodeUpdates d wires = .ok (d', us)
  sent : sent = handed v.active ++ us

/-- The client has no listener any more. -/
structure Dropped (v : View) (sent : List (Update Op)) : Prop where
  listed : v.active.listed = false
  disposed : v.active.disposed = true
  pending : ∃ q, v.request = some q ∧ q.pending = false
  items : ∀ i ∈ v.items, ∃ wire, i = .update wire
  handed : handed v.active <+: sent

/-- The server has an encoder, has sent some updates and has the others pending. -/
structure Feeding (v : View) (f : Feed) (e : Registry Encoder) (d' : Registry Decoder) (sent : List (Update Op)) : Prop where
  feed : v.feed = some f
  encoder : v.encoder = some e
  codecs : codecsAfter f.snapshot sent = .ok (e, d')
  published : f.published = sent ++ v.publisher.pendingUpdates
  ready : v.publisher.subscriptionReady = !v.draining
  empty : v.publisher.subscriptionReady = true → v.publisher.pendingUpdates = []

inductive Phase (v : View) (ending : Prop) : Prop
  | unanswered (fresh : Fresh v.active) (encoder : v.encoder = none) (items : v.items = []) (draining : v.draining = false)
      (publisher : v.publisher = ⟨v.feed.elim [] Feed.published, false⟩)
      (settled : ∀ q s, v.request = some q → q.settled ≠ some (.snapshot s))
      (listed : ∀ q, v.request = some q → q.settled = none → v.active.listed = true)
  | answered {f : Feed} {e : Registry Encoder} {d d' : Registry Decoder} {wires : List (Update WireOp)} {sent us : List (Update Op)}
      (feeding : Feeding v f e d' sent) (reading : Reading v f sent d' d wires us)
  | dropped {f : Feed} {e : Registry Encoder} {d' : Registry Decoder} {sent : List (Update Op)} (feeding : Feeding v f e d' sent)
      (client : Dropped v sent) (ending : ending)
  | ended {f : Feed} (feed : v.feed = some f) (encoder : v.encoder = none) (client : Dropped v f.published)

theorem Phase.mono (h : Phase v ending) (himp : ending → ending') : Phase v ending' := by
  cases h with
  | unanswered fresh encoder items draining publisher settled listed =>
    exact .unanswered fresh encoder items draining publisher settled listed
  | answered feeding reading => exact .answered feeding reading
  | dropped feeding client hending => exact .dropped feeding client (himp hending)
  | ended feed encoder client => exact .ended feed encoder client

/-! ## The server -/

variable {f' : Feed} {v' : View}

theorem Reading.send {d'' : Registry Decoder} {wire : Update WireOp} (h : Reading v f sent d' d wires us)
    (hactive : v'.active = v.active) (hreq : v'.request = v.request)
    (hitems : v'.items = v.items ++ [.update wire]) (hf : f'.snapshot = f.snapshot)
    (hwire : decodeUpdate d' wire = .ok (d'', u)) :
    Reading v' f' (sent ++ [u]) d'' d (wires ++ [wire]) (us ++ [u]) := by
  refine ⟨hactive ▸ h.listed, hactive ▸ h.disposed, ?_, decodeUpdates_concat h.decode hwire, ?_⟩
  · cases h.stream with
    | waiting fresh request settled decode items =>
      exact .waiting (hactive ▸ fresh) (hreq.trans request) settled (hf ▸ decode) (by rw [hitems, items, map_append]; rfl)
    | reading request settled pending hydrated decoder items ready =>
      refine .reading (hreq.trans request) (hf ▸ settled) pending (hactive ▸ hydrated) (hactive ▸ decoder) ?_ (hactive ▸ ready)
      rw [hitems, items, map_append]
      rfl
  · rw [hactive, h.sent, append_assoc]

theorem Dropped.send {wire : Update WireOp} (h : Dropped v sent) (hactive : v'.active = v.active)
    (hreq : v'.request = v.request) (hitems : v'.items = v.items ++ [.update wire]) : Dropped v' (sent ++ [u]) := by
  refine ⟨hactive ▸ h.listed, hactive ▸ h.disposed, hreq ▸ h.pending, fun i hi => ?_, ?_⟩
  · rw [hitems, mem_append] at hi
    rcases hi with hi | hi
    · exact h.items i hi
    · exact ⟨wire, mem_singleton.mp hi⟩
  · rw [hactive]
    exact h.handed.trans (prefix_append _ _)

variable {rest : List (Update Op)}

/-- The encoder takes the next of the published updates. -/
theorem Feeding.next (h : Feeding v f e d' sent) (hf : f'.snapshot = f.snapshot)
    (hsend : transmit f'.snapshot f'.published = .ok (f'.snapshot, f'.published))
    (hpub : f'.published = sent ++ u :: rest) :
    ∃ e' wire d'', encodeUpdate e u = .ok (e', wire) ∧ decodeUpdate d' wire = .ok (d'', u) ∧
      codecsAfter f'.snapshot (sent ++ [u]) = .ok (e', d'') := by
  rw [hpub] at hsend
  exact codecsAfter_next hsend (hf ▸ h.codecs)

variable {p : Publisher} (h : Phase v ending)
include h

/-- The server sends an update: the next pending one, or one that is published. -/
theorem Phase.send (henc : v.encoder = some e) (hfeed : v.feed = some f)
    (hf : f'.snapshot = f.snapshot) (hsend : transmit f'.snapshot f'.published = .ok (f'.snapshot, f'.published))
    (hrest : p.pendingUpdates = rest) (hready : p.subscriptionReady = v.publisher.subscriptionReady)
    (hempty : p.subscriptionReady = true → rest = [])
    (hpublished : ∀ sent, f.published = sent ++ v.publisher.pendingUpdates → f'.published = sent ++ u :: rest) :
    ∃ e' wire, encodeUpdate e u = .ok (e', wire) ∧
      Phase { v with encoder := some e', items := v.items ++ [.update wire], publisher := p, feed := some f' } ending := by
  have hkeep : ∀ {f₁ : Feed} {e₁ : Registry Encoder} {d' : Registry Decoder} {sent : List (Update Op)}, Feeding v f₁ e₁ d' sent →
      ∃ e' wire d'', encodeUpdate e u = .ok (e', wire) ∧ decodeUpdate d' wire = .ok (d'', u) ∧ f₁ = f ∧
        Feeding { v with encoder := some e', items := v.items ++ [.update wire], publisher := p, feed := some f' } f' e' d'' (sent ++ [u]) := by
    intro f₁ e₁ d' sent feeding
    obtain rfl := some.inj (feeding.feed.symm.trans hfeed)
    obtain rfl := some.inj (feeding.encoder.symm.trans henc)
    have hpub := hpublished sent feeding.published
    obtain ⟨e', wire, d'', hencode, hdec, hcodecs⟩ := feeding.next hf hsend hpub
    refine ⟨e', wire, d'', hencode, hdec, rfl, rfl, rfl, hcodecs, ?_, hready.trans feeding.ready, fun hp => hrest.trans (hempty hp)⟩
    rw [hpub, hrest, append_assoc]
    rfl
  cases h with
  | unanswered _ encoder => rw [encoder] at henc; cases henc
  | answered feeding reading =>
    obtain ⟨e', wire, d'', hencode, hdec, rfl, feeding'⟩ := hkeep feeding
    exact ⟨e', wire, hencode, .answered feeding' (reading.send rfl rfl rfl hf hdec)⟩
  | dropped feeding client hending =>
    obtain ⟨e', wire, d'', hencode, hdec, rfl, feeding'⟩ := hkeep feeding
    exact ⟨e', wire, hencode, .dropped feeding' (client.send rfl rfl rfl) hending⟩
  | ended _ encoder => rw [encoder] at henc; cases henc

/-- A publisher that is ready has nothing pending. -/
theorem Phase.pending_nil (hready : v.publisher.subscriptionReady = true) (henc : v.encoder = some e) :
    v.publisher.pendingUpdates = [] := by
  cases h with
  | unanswered _ encoder => rw [encoder] at henc; cases henc
  | answered feeding => exact feeding.empty hready
  | dropped feeding => exact feeding.empty hready
  | ended _ encoder => rw [encoder] at henc; cases henc

theorem Phase.feed_some (henc : v.encoder = some e) : ∃ f, v.feed = some f := by
  cases h with
  | unanswered _ encoder => rw [encoder] at henc; cases henc
  | answered feeding => exact ⟨_, feeding.feed⟩
  | dropped feeding => exact ⟨_, feeding.feed⟩
  | ended _ encoder => rw [encoder] at henc; cases henc

theorem Phase.not_ready (hdrain : v.draining = true) (henc : v.encoder = some e) :
    v.publisher.subscriptionReady = false := by
  have hfeeding : ∀ {f : Feed} {e : Registry Encoder} {d' : Registry Decoder} {sent : List (Update Op)}, Feeding v f e d' sent →
      v.publisher.subscriptionReady = false := by
    intro f e d' sent feeding
    rw [feeding.ready, hdrain]
    rfl
  cases h with
  | unanswered _ encoder => rw [encoder] at henc; cases henc
  | answered feeding => exact hfeeding feeding
  | dropped feeding => exact hfeeding feeding
  | ended _ encoder => rw [encoder] at henc; cases henc

theorem Phase.publisher_fresh (hfeed : v.feed = none) : v.publisher = {} := by
  cases h with
  | unanswered _ _ _ _ publisher => rw [publisher, hfeed]; rfl
  | answered feeding => rw [feeding.feed] at hfeed; cases hfeed
  | dropped feeding => rw [feeding.feed] at hfeed; cases hfeed
  | ended feed => rw [feed] at hfeed; cases hfeed

/-- A request that is pending, with no snapshot in flight, has not been answered with one. -/
theorem Phase.encoder_none (hreq : v.request = some q) (hpending : q.pending = true)
    (hno : ∀ wire, .snapshot wire ∉ v.items) : v.encoder = none := by
  have hnot : ∀ {q' : Request}, v.request = some q' → q'.pending ≠ false := by
    intro q' hq' hfalse
    obtain rfl := some.inj (hq'.symm.trans hreq)
    rw [hpending] at hfalse
    cases hfalse
  cases h with
  | unanswered _ encoder => exact encoder
  | answered feeding reading =>
    cases reading.stream with
    | waiting _ _ _ _ items => exact absurd (items ▸ mem_cons_self) (hno _)
    | reading request _ pending => exact absurd pending (hnot request)
  | dropped feeding client =>
    obtain ⟨q', hq', hfalse⟩ := client.pending
    exact absurd hfalse (hnot hq')
  | ended _ encoder => exact encoder

omit h

/-- The client side does not depend on the feed's updates, the publisher and the handler. -/
theorem Reading.congr (h : Reading v f sent d' d wires us) (hactive : v'.active = v.active)
    (hreq : v'.request = v.request) (hitems : v'.items = v.items) (hf : f'.snapshot = f.snapshot) :
    Reading v' f' sent d' d wires us := by
  refine ⟨hactive ▸ h.listed, hactive ▸ h.disposed, ?_, h.decode, hactive ▸ h.sent⟩
  cases h.stream with
  | waiting fresh request settled decode items =>
    exact .waiting (hactive ▸ fresh) (hreq.trans request) settled (hf ▸ decode) (hitems.trans items)
  | reading request settled pending hydrated decoder items ready =>
    exact .reading (hreq.trans request) (hf ▸ settled) pending (hactive ▸ hydrated) (hactive ▸ decoder) (hitems.trans items) (hactive ▸ ready)

theorem Dropped.congr {sent' : List (Update Op)} (h : Dropped v sent) (hactive : v'.active = v.active)
    (hreq : v'.request = v.request) (hitems : v'.items = v.items) (hsent : sent <+: sent') : Dropped v' sent' :=
  ⟨hactive ▸ h.listed, hactive ▸ h.disposed, hreq ▸ h.pending, hitems ▸ h.items, hactive ▸ h.handed.trans hsent⟩

/-- An update is published while others are pending, or when the subscription has no encoder. -/
theorem Phase.publish (h : Phase v ending) (hfeed : v.feed = some f) (hf : f'.snapshot = f.snapshot)
    (hpub : f'.published = f.published ++ [u])
    (hp : (v.publisher.subscriptionReady = false ∧ p = { v.publisher with pendingUpdates := v.publisher.pendingUpdates ++ [u] }) ∨
      (v.publisher.subscriptionReady = true ∧ v.encoder = none ∧ p = v.publisher)) :
    Phase { v with publisher := p, feed := some f' } ending := by
  have hkeep : ∀ {f₁ : Feed} {e : Registry Encoder} {d' : Registry Decoder} {sent : List (Update Op)}, Feeding v f₁ e d' sent →
      f₁ = f ∧ Feeding { v with publisher := p, feed := some f' } f' e d' sent := by
    intro f₁ e d' sent feeding
    obtain rfl := some.inj (feeding.feed.symm.trans hfeed)
    rcases hp with ⟨hready, rfl⟩ | ⟨-, hnone, -⟩
    · refine ⟨rfl, rfl, feeding.encoder, hf ▸ feeding.codecs, ?_, feeding.ready, fun hp => ?_⟩
      · rw [hpub, feeding.published, append_assoc]
      · rw [hready] at hp
        cases hp
    · rw [feeding.encoder] at hnone
      cases hnone
  cases h with
  | unanswered fresh encoder items draining publisher settled listed =>
    refine .unanswered fresh encoder items draining ?_ settled listed
    rcases hp with ⟨-, rfl⟩ | ⟨hready, -⟩
    · rw [publisher, hfeed]
      exact congrArg (Publisher.mk · false) hpub.symm
    · rw [publisher] at hready
      cases hready
  | answered feeding reading =>
    obtain ⟨rfl, feeding'⟩ := hkeep feeding
    exact .answered feeding' (reading.congr rfl rfl rfl hf)
  | dropped feeding client hending =>
    obtain ⟨rfl, feeding'⟩ := hkeep feeding
    exact .dropped feeding' (client.congr rfl rfl rfl (prefix_refl _)) hending
  | ended feed encoder client =>
    obtain rfl := some.inj (feed.symm.trans hfeed)
    exact .ended rfl encoder (client.congr rfl rfl rfl (hpub ▸ prefix_append _ _))

theorem Phase.take (h : Phase v ending) (hfeed : v.feed = none) (hf : f.published = []) : Phase { v with feed := some f } ending := by
  cases h with
  | unanswered fresh encoder items draining publisher settled listed =>
    refine .unanswered fresh encoder items draining ?_ settled listed
    rw [hfeed] at publisher
    exact publisher.trans (congrArg (Publisher.mk · false) hf.symm)
  | answered feeding => rw [feeding.feed] at hfeed; cases hfeed
  | dropped feeding => rw [feeding.feed] at hfeed; cases hfeed
  | ended feed => rw [feed] at hfeed; cases hfeed

variable {wire : SubscriptionSnapshot WireOp} (h : Phase v ending)
include h

/-- The server answers with a snapshot. -/
theorem Phase.answer (henc : v.encoder = none) (hreq : v.request = some q)
    (hpending : q.pending = true) (hsettled : q.settled = none) (hfeed : v.feed = some f)
    (hdec : decodeSnapshot wire = .ok (d, f.snapshot)) (hcodecs : codecsAfter f.snapshot [] = .ok (e, d)) :
    Phase { v with encoder := some e, items := v.items ++ [.snapshot wire], draining := true } ending := by
  cases h with
  | unanswered fresh encoder items draining publisher settled listed =>
    have hfeeding : Feeding { v with encoder := some e, items := v.items ++ [.snapshot wire], draining := true } f e d [] := by
      refine ⟨hfeed, rfl, hcodecs, ?_, ?_, ?_⟩
      · rw [publisher, hfeed]
        rfl
      · rw [publisher]
        rfl
      · rw [publisher]
        exact fun hfalse => by cases hfalse
    have hstream : Stream { v with encoder := some e, items := v.items ++ [.snapshot wire], draining := true } f d [] :=
      .waiting fresh hreq hsettled hdec (congrArg (· ++ [Item.snapshot wire]) items)
    refine .answered hfeeding ⟨listed q hreq hsettled, fresh.disposed, hstream, rfl, ?_⟩
    rw [fresh.handed]
    rfl
  | answered feeding => rw [feeding.encoder] at henc; cases henc
  | dropped feeding => rw [feeding.encoder] at henc; cases henc
  | ended feed encoder client =>
    obtain ⟨q', hq', hpend'⟩ := client.pending
    obtain rfl := some.inj (hq'.symm.trans hreq)
    rw [hpending] at hpend'
    cases hpend'

/-- No updates are pending any more. -/
theorem Phase.drained (hdrain : v.draining = true) (hpending : v.publisher.pendingUpdates = []) :
    Phase { v with publisher := { v.publisher with subscriptionReady := true }, draining := false } ending := by
  have hkeep : ∀ {f : Feed} {e : Registry Encoder} {d' : Registry Decoder} {sent : List (Update Op)}, Feeding v f e d' sent →
      Feeding { v with publisher := { v.publisher with subscriptionReady := true }, draining := false } f e d' sent :=
    fun feeding => ⟨feeding.feed, feeding.encoder, feeding.codecs, feeding.published, rfl, fun _ => hpending⟩
  cases h with
  | unanswered _ _ _ draining => rw [draining] at hdrain; cases hdrain
  | answered feeding reading => exact .answered (hkeep feeding) (reading.congr rfl rfl rfl rfl)
  | dropped feeding client hending => exact .dropped (hkeep feeding) (client.congr rfl rfl rfl (prefix_refl _)) hending
  | ended feed encoder client => exact .ended feed encoder (client.congr rfl rfl rfl (prefix_refl _))

/-- A pending update is skipped, since the encoder is gone. -/
theorem Phase.skip {draining : Bool} (hdrain : v.draining = true)
    (henc : v.encoder = none) :
    Phase { v with publisher := p, draining := draining } ending := by
  cases h with
  | unanswered _ _ _ hfalse => rw [hfalse] at hdrain; cases hdrain
  | answered feeding => rw [feeding.encoder] at henc; cases henc
  | dropped feeding => rw [feeding.encoder] at henc; cases henc
  | ended feed encoder client => exact .ended feed encoder (client.congr rfl rfl rfl (prefix_refl _))

/-- The server forgets a subscription that was disposed of. -/
theorem Phase.unsubscribe (hdisp : v.active.disposed = true) : Phase { v with encoder := none } ending' := by
  cases h with
  | unanswered fresh => rw [fresh.disposed] at hdisp; cases hdisp
  | answered feeding reading => rw [reading.disposed] at hdisp; cases hdisp
  | dropped feeding client =>
    exact .ended feeding.feed rfl (client.congr rfl rfl rfl (feeding.published ▸ prefix_append _ _))
  | ended feed encoder client => exact .ended feed rfl (client.congr rfl rfl rfl (prefix_refl _))

/-! ## The client -/

omit h

/-- What the client does to a subscription leaves what the server knows. -/
theorem Feeding.client {a : Active} {r : Option Request} {items : List Item} (h : Feeding v f e d' sent) :
    Feeding { v with active := a, request := r, items := items } f e d' sent := ⟨h.feed, h.encoder, h.codecs, h.published, h.ready, h.empty⟩

theorem settle_eq (q : Request) (s : Settlement) (h : q.settled = none) : (q.settle s).settled = some s := by
  rw [Request.settle, h]
  rfl

theorem Dropped.not_snapshot (h : Dropped v sent) : .snapshot wire ∉ v.items := by
  intro hmem
  obtain ⟨wire', hwire⟩ := h.items _ hmem
  cases hwire

/-- The snapshot arrives. -/
theorem Phase.hydrate {rest : List Item} (h : Phase v ending) (hitems : v.items = .snapshot wire :: rest)
    (hreq : v.request = some q) :
    ∃ a s, Client.hydrate v.active (.snapshot wire) = .ok (a, s) ∧ a.request = v.active.request ∧
      Phase { v with active := a, request := some ({ q with pending := false }.settle (.snapshot s)), items := rest } ending := by
  have hmem : .snapshot wire ∈ v.items := hitems ▸ mem_cons_self
  cases h with
  | unanswered _ _ items => rw [items] at hmem; cases hmem
  | @answered f e d d' wires sent us feeding reading =>
    cases reading.stream with
    | reading _ _ _ _ _ items =>
      rw [items, List.mem_map] at hmem
      obtain ⟨wire', -, hwire⟩ := hmem
      cases hwire
    | waiting fresh request settled decode items =>
      obtain rfl := some.inj (request.symm.trans hreq)
      obtain ⟨hwire, rfl⟩ := cons.inj (items.symm.trans hitems)
      obtain rfl := (Item.snapshot.inj hwire).symm
      have hhydrate : Client.hydrate v.active (.snapshot wire) =
          .ok ({ v.active with decoder := d, hydrated := true, queuedWireUpdates := [], queued := v.active.queued ++ [] }, f.snapshot) := by
        simp only [Client.hydrate, decode, fresh.queuedWireUpdates, decodeUpdates, bind, Except.bind, pure, Except.pure]
      have hready : v.active.ready ≠ true := by
        rw [fresh.ready]
        exact Bool.false_ne_true
      refine ⟨_, _, hhydrate, rfl, .answered feeding.client ⟨reading.listed, reading.disposed, ?_, reading.decode, ?_⟩⟩
      · exact .reading rfl (settle_eq _ _ settled) rfl rfl rfl rfl fun hyes => absurd hyes hready
      · rw [handed, append_nil]
        exact reading.sent
  | dropped feeding client => exact absurd hmem client.not_snapshot
  | ended feed encoder client => exact absurd hmem client.not_snapshot

/-- A subscription whose snapshot arrives has not been disposed of. -/
theorem Phase.hydrate_disposed {rest : List Item} (h : Phase v ending) (hitems : v.items = .snapshot wire :: rest) :
    v.active.disposed ≠ true := by
  have hmem : .snapshot wire ∈ v.items := hitems ▸ mem_cons_self
  cases h with
  | unanswered fresh => rw [fresh.disposed]; exact Bool.false_ne_true
  | answered feeding reading => rw [reading.disposed]; exact Bool.false_ne_true
  | dropped feeding client => exact absurd hmem client.not_snapshot
  | ended feed encoder client => exact absurd hmem client.not_snapshot

theorem handed_receiveUpdate (a : Active) (u : Update Op) (h : a.ready = true → a.queued = []) :
    handed (receiveUpdate a u) = handed a ++ [u] := by
  unfold receiveUpdate
  split
  · rename_i hready
    rw [handed, handed, deliverServiceUpdate, h hready, append_nil, append_nil, append_assoc]
  · rw [handed, handed, ← append_assoc]

variable (h : Phase v ending)
include h

/-- An update arrives. -/
theorem Phase.read {wire : Update WireOp} {rest : List Item} (hitems : v.items = .update wire :: rest) :
    (v.active.listed = false ∧ Phase { v with items := rest } ending) ∨
      (v.active.listed = true ∧ v.active.hydrated = true ∧ ∃ d u, decodeUpdate v.active.decoder wire = .ok (d, u) ∧
        Phase { v with active := receiveUpdate { v.active with decoder := d } u, items := rest } ending) := by
  have hdrop : ∀ {sent : List (Update Op)}, Dropped v sent → Dropped { v with items := rest } sent :=
    fun client => ⟨client.listed, client.disposed, client.pending, fun i hi => client.items i (hitems ▸ mem_cons_of_mem _ hi), client.handed⟩
  cases h with
  | unanswered _ _ items => rw [items] at hitems; cases hitems
  | answered feeding reading =>
    cases reading.stream with
    | waiting _ _ _ _ items =>
      rw [items] at hitems
      cases hitems
    | reading request settled pending hydrated decoder items ready =>
      obtain ⟨wire', wires', hwires, hwire, hrest⟩ := map_eq_cons_iff.mp (items.symm.trans hitems)
      obtain rfl := Item.update.inj hwire
      subst decoder
      obtain ⟨d₁, u, us', hdec, hdecodes, hus⟩ := decodeUpdates_cons (hwires ▸ reading.decode)
      have hlist : (receiveUpdate { v.active with decoder := d₁ } u).listed = v.active.listed := by unfold receiveUpdate; split <;> rfl
      have hdisp : (receiveUpdate { v.active with decoder := d₁ } u).disposed = v.active.disposed := by unfold receiveUpdate; split <;> rfl
      refine .inr ⟨reading.listed, hydrated, d₁, u, hdec,
        .answered feeding.client ⟨hlist.trans reading.listed, hdisp.trans reading.disposed, ?_, hdecodes, ?_⟩⟩
      · refine .reading request settled pending ?_ ?_ hrest.symm ?_
        · unfold receiveUpdate
          split <;> exact hydrated
        · unfold receiveUpdate
          split <;> rfl
        · unfold receiveUpdate
          split
          · exact ready
          · rename_i hready
            exact fun hyes => absurd hyes hready
      · have hhanded : handed (receiveUpdate { v.active with decoder := d₁ } u) = handed v.active ++ [u] :=
          handed_receiveUpdate { v.active with decoder := d₁ } u ready
        rw [hhanded, reading.sent, hus, append_assoc]
        rfl
  | dropped feeding client hending => exact .inl ⟨client.listed, .dropped feeding.client (hdrop client) hending⟩
  | ended feed encoder client => exact .inl ⟨client.listed, .ended feed encoder (hdrop client)⟩

/-- The request is settled otherwise than with a snapshot. -/
theorem Phase.settle {q' : Request} (hreq : v.request = some q) (hpending : q.pending = true)
    (hans : v.encoder = none ∨ ∀ wire, .snapshot wire ∉ v.items) (hsnap : ∀ s, q'.settled = some (.snapshot s) → q.settled = some (.snapshot s))
    (hnone : q'.settled = none → q.settled = none) : Phase { v with request := some q' } ending := by
  have hdrop : ∀ {sent : List (Update Op)}, ¬Dropped v sent := by
    intro sent client
    obtain ⟨q₁, hq₁, hfalse⟩ := client.pending
    obtain rfl := some.inj (hq₁.symm.trans hreq)
    rw [hpending] at hfalse
    cases hfalse
  cases h with
  | unanswered fresh encoder items draining publisher settled listed =>
    refine .unanswered fresh encoder items draining publisher (fun q₁ s hq₁ hs => ?_) fun q₁ hq₁ hs => ?_
    · obtain rfl := some.inj hq₁
      exact settled q s hreq (hsnap s hs)
    · obtain rfl := some.inj hq₁
      exact listed q hreq (hnone hs)
  | answered feeding reading =>
    cases reading.stream with
    | waiting _ _ _ _ items =>
      rcases hans with henc | hno
      · rw [feeding.encoder] at henc
        cases henc
      · exact absurd (items ▸ mem_cons_self) (hno _)
    | reading request _ pending =>
      obtain rfl := some.inj (request.symm.trans hreq)
      rw [hpending] at pending
      cases pending
  | dropped _ client => exact absurd client hdrop
  | ended _ _ client => exact absurd client hdrop

/-- `subscribeService` goes on: it returns the subscription, or removes the listener. -/
theorem Phase.resume {s : Settlement} (hreq : v.request = some q) (hsettled : q.settled = some s) :
    Phase { v with active := resumed v.active s, request := some { q with resumed := true } } ending := by
  have hdrop : ∀ {sent : List (Update Op)}, Dropped v sent →
      Dropped { v with active := resumed v.active s, request := some { q with resumed := true } } sent := by
    intro sent client
    obtain ⟨q₁, hq₁, hpending⟩ := client.pending
    obtain rfl := some.inj (hq₁.symm.trans hreq)
    cases s <;> exact ⟨by first | rfl | exact client.listed, client.disposed, ⟨_, rfl, hpending⟩, client.items, client.handed⟩
  cases h with
  | unanswered fresh encoder items draining publisher settled listed =>
    have hactive : resumed v.active s = { v.active with listed := false } := by
      cases s with
      | snapshot s => exact absurd hsettled (settled q s hreq)
      | _ => rfl
    rw [hactive]
    refine .unanswered ⟨fresh.handed, fresh.queuedWireUpdates, fresh.hydrated, fresh.ready, fresh.opened, fresh.disposed⟩
      encoder items draining publisher (fun q₁ s' hq₁ hs => ?_) fun q₁ hq₁ hs => ?_
    · obtain rfl := some.inj hq₁
      exact settled q s' hreq hs
    · obtain rfl := some.inj hq₁
      rw [hsettled] at hs
      cases hs
  | answered feeding reading =>
    cases reading.stream with
    | waiting _ request settled =>
      obtain rfl := some.inj (request.symm.trans hreq)
      rw [settled] at hsettled
      cases hsettled
    | reading request settled pending hydrated decoder items ready =>
      obtain rfl := some.inj (request.symm.trans hreq)
      obtain rfl := some.inj (settled.symm.trans hsettled)
      exact .answered feeding.client ⟨reading.listed, reading.disposed, .reading rfl settled pending hydrated decoder items ready,
        reading.decode, reading.sent⟩
  | dropped feeding client hending => exact .dropped feeding.client (hdrop client) hending
  | ended feed encoder client => exact .ended feed encoder (hdrop client)

variable (hopened : v.active.opened = true)
include hopened

/-- A listener that the application starts or disposes of is one that has been opened. -/
theorem Phase.opened (hdisp : v.active.disposed = false) :
    ∃ f e d d' wires sent us, Feeding v f e d' sent ∧ Reading v f sent d' d wires us ∧ v.active.hydrated = true := by
  cases h with
  | unanswered fresh => rw [fresh.opened] at hopened; cases hopened
  | answered feeding reading =>
    cases hstream : reading.stream with
    | waiting fresh => rw [fresh.opened] at hopened; cases hopened
    | reading _ _ _ hydrated => exact ⟨_, _, _, _, _, _, _, feeding, reading, hydrated⟩
  | dropped _ client => rw [client.disposed] at hdisp; cases hdisp
  | ended _ _ client => rw [client.disposed] at hdisp; cases hdisp

theorem Phase.start (hdisp : v.active.disposed = false) :
    Phase { v with active := deliverServiceUpdate { v.active with ready := true, queued := [] } v.active.queued } ending := by
  obtain ⟨f, e, d, d', wires, sent, us, feeding, reading, hydrated⟩ := h.opened hopened hdisp
  refine .answered feeding.client ⟨reading.listed, reading.disposed, ?_, reading.decode, ?_⟩
  · cases reading.stream with
    | waiting fresh => rw [fresh.hydrated] at hydrated; cases hydrated
    | reading request settled pending hydrated decoder items ready =>
      exact .reading request settled pending hydrated decoder items fun _ => rfl
  · rw [reading.sent, handed, handed, deliverServiceUpdate, append_nil, ← append_assoc]

theorem Phase.dispose (hdisp : v.active.disposed = false) (hending : ending') :
    Phase { v with active := { v.active with disposed := true, listed := false } } ending' := by
  obtain ⟨f, e, d, d', wires, sent, us, feeding, reading, hydrated⟩ := h.opened hopened hdisp
  refine .dropped feeding.client ⟨rfl, rfl, ?_, ?_, ?_⟩ hending
  · cases reading.stream with
    | waiting fresh => rw [fresh.hydrated] at hydrated; cases hydrated
    | reading request _ pending => exact ⟨_, request, pending⟩
  · cases reading.stream with
    | waiting fresh => rw [fresh.hydrated] at hydrated; cases hydrated
    | reading _ _ _ _ _ items =>
      intro i hi
      obtain ⟨wire, -, rfl⟩ := mem_map.mp (items ▸ hi)
      exact ⟨wire, rfl⟩
  · exact reading.sent ▸ prefix_append _ _

omit hopened

theorem Phase.deliver (htail : v.active.deliveryTail = u :: rest) :
    Phase { v with active := { v.active with deliveryTail := rest, received := v.active.received ++ [u] } } ending := by
  have hhanded : handed { v.active with deliveryTail := rest, received := v.active.received ++ [u] } = handed v.active := by
    rw [handed, handed, htail, append_assoc _ [u]]
    rfl
  have hdrop : ∀ {sent : List (Update Op)}, Dropped v sent →
      Dropped { v with active := { v.active with deliveryTail := rest, received := v.active.received ++ [u] } } sent :=
    fun client => ⟨client.listed, client.disposed, client.pending, client.items, hhanded ▸ client.handed⟩
  have hfresh : ¬Fresh v.active := by
    intro fresh
    have := fresh.handed
    simp [handed, htail] at this
  cases h with
  | unanswered fresh => exact absurd fresh hfresh
  | answered feeding reading =>
    refine .answered feeding.client ⟨reading.listed, reading.disposed, ?_, reading.decode, hhanded ▸ reading.sent⟩
    cases reading.stream with
    | waiting fresh => exact absurd fresh hfresh
    | reading request settled pending hydrated decoder items ready => exact .reading request settled pending hydrated decoder items ready
  | dropped feeding client hending => exact .dropped feeding.client (hdrop client) hending
  | ended feed encoder client => exact .ended feed encoder (hdrop client)

end Shuvpi.Remote
