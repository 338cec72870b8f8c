import Shuvpi.RemotePhases

/-!
# The invariant of a connection

Each request has one response, from its message to the handler that answers it to the message
that settles its promise; this is counted. With what the two sides know of each request, and the
phase of each subscription, it is kept by whatever the server does.
-/
namespace Shuvpi.Remote

open Delta Provider ServiceCodec Function Client
open List Option

/-! ## Requests and responses -/

def isRequest (id : Nat) : ClientMessage → Bool
  | .request id' _ _ => id' = id
  | .cancel _ _ => false

def isResponse (id : Nat) : ServerMessage → Bool
  | .response id' _ => id' = id
  | _ => false

/-- Where a request is. -/
structure Tally where
  /-- Its messages to the server and the handlers that run its call. -/
  asked : Nat
  /-- Its responses in flight. -/
  arriving : Nat
  /-- The responses that were ever sent. -/
  responses : Nat
  request : Option Request

def World.tally (w : World) (id : Nat) : Tally where
  asked := w.toServer.countP (isRequest id) + (w.calling id).toList.length
  arriving := w.toClient.countP (isResponse id)
  responses := w.transcript.countP (isResponse id)
  request := w.client.requests id

/-- A request is asked for, or answered with the response in flight, or settled. -/
def Tally.Ok (t : Tally) : Prop :=
  match t.request with
  | none => t.asked = 0 ∧ t.arriving = 0 ∧ t.responses = 0
  | some q => t.asked + t.responses = 1 ∧ t.asked + t.arriving = q.pending.toNat ∧ (q.pending = false → q.settled.isSome)

/-- What an event can do to a request. -/
inductive Tally.Step (t : Tally) : Tally → Prop
  | same : t.Step t
  | send {q : Request} (hnone : t.request = none) (hpending : q.pending = true) :
      t.Step { t with asked := t.asked + 1, request := some q }
  | respond {n : Nat} (hasked : t.asked = n + 1) :
      t.Step { t with asked := n, arriving := t.arriving + 1, responses := t.responses + 1 }
  | receive {n : Nat} {q q' : Request} (harriving : t.arriving = n + 1) (hq : t.request = some q) (hpending : q'.pending = false)
      (hsettled : q'.settled.isSome) : t.Step { t with arriving := n, request := some q' }
  | touch {q q' : Request} (hq : t.request = some q) (hpending : q'.pending = q.pending) (hsettled : q.settled.isSome → q'.settled.isSome) :
      t.Step { t with request := some q' }

theorem Tally.Step.ok {t t' : Tally} (h : t.Step t') (ht : t.Ok) : t'.Ok := by
  unfold Tally.Ok at ht
  cases h with
  | same => exact ht
  | send hnone hpending =>
    rw [hnone] at ht
    obtain ⟨hasked, harriving, hresponses⟩ := ht
    refine ⟨by dsimp only; omega, by rw [hpending]; dsimp only [Bool.toNat_true]; omega, fun hfalse => ?_⟩
    rw [hpending] at hfalse
    cases hfalse
  | respond hasked =>
    split at ht
    · omega
    · rename_i q hq
      unfold Tally.Ok
      rw [show (Tally.mk _ (t.arriving + 1) (t.responses + 1) t.request).request = some q from hq]
      obtain ⟨hsent, hpending, hsettled⟩ := ht
      exact ⟨by dsimp only; omega, by dsimp only; omega, hsettled⟩
  | @receive n q q' harriving hq hpending hsettled =>
    rw [hq] at ht
    obtain ⟨hsent, hasked, -⟩ := ht
    have hle := Bool.toNat_le q.pending
    refine ⟨hsent, ?_, fun _ => hsettled⟩
    rw [hpending]
    dsimp only [Bool.toNat_false]
    omega
  | touch hq hpending hsettled =>
    rw [hq] at ht
    obtain ⟨hsent, hasked, hold⟩ := ht
    exact ⟨hsent, by rw [hpending]; exact hasked, fun hfalse => hsettled (hold (hpending ▸ hfalse))⟩

/-! ## The invariant -/

/-- What the client knows of a request that subscribes or ends a subscription. -/
def CallOk (c : Client) (q : Request) : ServiceCall → Prop
  | .subscribe subscriptionId _ _ => ∃ n, subscriptionId = .service n ∧ q.subscribes = some n
  | .unsubscribe subscriptionId => q.subscribes = none ∧ q.target.serverId = c.serverId ∧
      ∃ n a, subscriptionId = .service n ∧ c.subscriptions n = some a ∧ a.disposed = true
  | .invoke _ => q.subscribes = none

structure RequestOk (c : Client) (id : Nat) (q : Request) : Prop where
  bound : id ≤ c.requestSequence
  call : CallOk c q q.call
  subscribes : ∀ n, q.subscribes = some n → ∃ a, c.subscriptions n = some a ∧ a.request = id

structure Owned (c : Client) (n : Nat) (a : Active) : Prop where
  bound : n ≤ c.serviceSubscriptionSequence
  request : ∃ q serviceId mode, c.requests a.request = some q ∧ q.subscribes = some n ∧ q.call = .subscribe (.service n) serviceId mode

def ToClientOk (c : Client) : ServerMessage → Prop
  | .response id (.ok (.value _)) => ∀ q, c.requests id = some q → q.subscribes = none
  | .response _ _ => True
  | .serviceUpdate subscriptionId _ => ∃ n a, subscriptionId = .service n ∧ c.subscriptions n = some a
  | .attachment none => True
  | .attachment (some target) => target.serverId = c.serverId

def ToServerOk (w : World) : ClientMessage → Prop
  | .request id target call => w.server.activeRequests id = none ∧ w.feeds id = none ∧
      ∃ q, w.client.requests id = some q ∧ q.target = target ∧ q.call = call
  | .cancel _ _ => True

/-- The subscription is disposed of, and the server is asked to end it. -/
def World.Ending (w : World) (n : Nat) : Prop :=
  ∃ id, (∃ target, .request id target (.unsubscribe (.service n)) ∈ w.toServer) ∨
    ∃ h, w.calling id = some h ∧ h.call = .unsubscribe (.service n)

/-- The services can send what they have published, to the subscription they were asked for. -/
structure FeedOk (c : Client) (id : Nat) (f : Feed) : Prop where
  transmit : transmit f.snapshot f.published = .ok (f.snapshot, f.published)
  request : ∃ q, c.requests id = some q ∧ Server.subscribing q.call = some f.subscriptionId

structure Inv (w : World) : Prop where
  connected : w.client.connected = true
  disconnected : w.server.disconnected = false
  serverId : w.client.serverId = w.server.serverId
  tally : ∀ id, (w.tally id).Ok
  request : ∀ id q, w.client.requests id = some q → RequestOk w.client id q
  owned : ∀ n a, w.client.subscriptions n = some a → Owned w.client n a
  phase : ∀ n a, w.client.subscriptions n = some a → Phase (w.view n a) (w.Ending n)
  toServer : ∀ m ∈ w.toServer, ToServerOk w m
  toClient : ∀ m ∈ w.toClient, ToClientOk w.client m
  active : ∀ id h, w.server.activeRequests id = some h → ∃ q, w.client.requests id = some q ∧ q.call = h.call
  feed : ∀ id f, w.feeds id = some f → FeedOk w.client id f
  encoder : ∀ s e, w.server.serviceStateEncoders s = some e → ∃ n a, s = .service n ∧ w.client.subscriptions n = some a
  publisher : ∀ id, w.client.requests id = none → w.server.publishers id = {}

theorem inv_init (serverId : String) : Inv (.init serverId) where
  connected := rfl
  disconnected := rfl
  serverId := rfl
  tally id := ⟨rfl, rfl, rfl⟩
  request id q hq := by cases hq
  owned n a ha := by cases ha
  phase n a ha := by cases ha
  toServer m hm := by cases hm
  toClient m hm := by cases hm
  active id h hh := by cases hh
  feed id f hf := by cases hf
  encoder s e he := by cases he
  publisher id _ := rfl

/-! ## The server -/

section Server

variable {w w' : World} {id n : Nat} {a : Active} {h : Handler} {f : Feed} {q : Request} {messages : List ServerMessage}

theorem calling_eq : w.calling id = some h ↔ w.server.activeRequests id = some h ∧ h.stage = .calling := by
  rw [World.calling, filter_eq_some_iff]
  simp

theorem calling_of_stage (hactive : w.server.activeRequests id = some h) (hstage : h.stage ≠ .calling) : w.calling id = none := by
  rw [World.calling, hactive, filter_some, if_neg (by simpa using hstage)]

/-- A subscription other than the one that a request asks for. -/
theorem Owned.request_ne (ha : Owned w.client n a) (hq : w.client.requests id = some q) (hne : q.subscribes ≠ some n) : a.request ≠ id := by
  obtain ⟨q', _, _, hq', hsubs, -⟩ := ha.request
  intro heq
  obtain rfl := some.inj ((heq ▸ hq').symm.trans hq)
  exact hne hsubs

/-- The request that a subscription was asked for with, and no other one. -/
theorem RequestOk.subscription (hok : RequestOk w.client id q) (hcall : Server.subscribing q.call = some s) :
    ∃ n a, s = .service n ∧ q.subscribes = some n ∧ w.client.subscriptions n = some a ∧ a.request = id := by
  have hcallOk := hok.call
  cases hc : q.call with
  | subscribe subscriptionId serviceId mode =>
    rw [hc] at hcall hcallOk
    obtain ⟨n, rfl, hsubs⟩ := hcallOk
    obtain ⟨a, ha, hreq⟩ := hok.subscribes n hsubs
    exact ⟨n, a, (some.inj hcall).symm, hsubs, ha, hreq⟩
  | unsubscribe | invoke => rw [hc] at hcall; cases hcall

theorem Inv.feed_subscription (hinv : Inv w) (hf : w.feeds id = some f) :
    ∃ n a, f.subscriptionId = .service n ∧ w.client.subscriptions n = some a ∧ a.request = id := by
  obtain ⟨q, hq, hsub⟩ := (hinv.feed id f hf).request
  obtain ⟨n, a, hn, -, ha, hreq⟩ := (hinv.request id q hq).subscription hsub
  exact ⟨n, a, hn, ha, hreq⟩

/-- A request whose call is running, or whose services have a subscription, has reached the server. -/
theorem Inv.not_sent (hinv : Inv w) (hreach : w.server.activeRequests id ≠ none ∨ w.feeds id ≠ none) :
    ∀ m ∈ w.toServer, isRequest id m = false := by
  intro m hm
  cases m with
  | cancel id' target => rfl
  | request id' target call =>
    obtain ⟨hactive, hfeed, -⟩ := hinv.toServer _ hm
    refine decide_eq_false fun heq => ?_
    subst heq
    rcases hreach with hne | hne
    · exact hne hactive
    · exact hne hfeed

/-- What the server does about one request. -/
structure About (w w' : World) (id : Nat) (messages : List ServerMessage) : Prop where
  client : w'.client = w.client
  disconnected : w'.server.disconnected = false
  serverId : w'.server.serverId = w.server.serverId
  toClient : w'.toClient = w.toClient ++ messages
  transcript : w'.transcript = w.transcript ++ messages
  activeRequests : ∀ j, j ≠ id → w'.server.activeRequests j = w.server.activeRequests j
  publishers : ∀ j, j ≠ id → w'.server.publishers j = w.server.publishers j
  feeds : ∀ j, j ≠ id → w'.feeds j = w.feeds j
  toServer : ∀ m ∈ w'.toServer, m ∈ w.toServer ∧ isRequest id m = false
  others : ∀ j, j ≠ id → w'.toServer.countP (isRequest j) = w.toServer.countP (isRequest j)
  messages : ∀ m ∈ messages, ToClientOk w.client m ∧ ∀ j, j ≠ id → isResponse j m = false

variable (habout : About w w' id messages)
include habout

theorem About.tally {j : Nat} (hj : j ≠ id) : w'.tally j = w.tally j := by
  have hcount : messages.countP (isResponse j) = 0 :=
    countP_eq_zero.mpr fun m hm => by rw [(habout.messages m hm).2 j hj]; exact Bool.false_ne_true
  simp only [World.tally, World.calling, habout.client, habout.toClient, habout.transcript, habout.activeRequests j hj, habout.others j hj,
    countP_append, hcount, Nat.add_zero]

theorem About.view (ha : a.request ≠ id) (hitems : ∀ m ∈ messages, item n a.request m = none) :
    w'.view n a = { w.view n a with encoder := w'.server.serviceStateEncoders (.service n) } := by
  have hnone : messages.filterMap (item n a.request) = [] := filterMap_eq_nil_iff.mpr hitems
  simp only [World.view, World.draining, habout.client, habout.toClient, habout.activeRequests _ ha, habout.publishers _ ha, habout.feeds _ ha,
    filterMap_append, hnone, append_nil]

theorem About.inv (hinv : Inv w) (hq : w.client.requests id = some q) (htally : (w.tally id).Step (w'.tally id))
    (hphase : ∀ n a, w.client.subscriptions n = some a → Phase (w'.view n a) (w'.Ending n))
    (hactive : ∀ h, w'.server.activeRequests id = some h → ∃ q, w.client.requests id = some q ∧ q.call = h.call)
    (hfeed : ∀ f, w'.feeds id = some f → FeedOk w.client id f)
    (henc : ∀ s e, w'.server.serviceStateEncoders s = some e → ∃ n a, s = .service n ∧ w.client.subscriptions n = some a) : Inv w' where
  connected := habout.client ▸ hinv.connected
  disconnected := habout.disconnected
  serverId := by rw [habout.client, habout.serverId, hinv.serverId]
  tally j := by
    by_cases hj : j = id
    · exact hj ▸ htally.ok (hinv.tally id)
    · rw [habout.tally hj]
      exact hinv.tally j
  request j q hq := by
    rw [habout.client] at hq ⊢
    exact hinv.request j q hq
  owned n a ha := by
    rw [habout.client] at ha ⊢
    exact hinv.owned n a ha
  phase n a ha := hphase n a (habout.client ▸ ha)
  toServer m hm := by
    obtain ⟨hmem, hother⟩ := habout.toServer m hm
    have hok := hinv.toServer m hmem
    cases m with
    | cancel id' target => trivial
    | request j target call =>
      have hj : j ≠ id := of_decide_eq_false hother
      rw [ToServerOk, habout.client, habout.activeRequests j hj, habout.feeds j hj]
      exact hok
  toClient m hm := by
    rw [habout.toClient, mem_append] at hm
    rw [habout.client]
    rcases hm with hm | hm
    · exact hinv.toClient m hm
    · exact (habout.messages m hm).1
  active j h hh := by
    rw [habout.client]
    by_cases hj : j = id
    · subst hj
      exact hactive h hh
    · exact hinv.active j h (habout.activeRequests j hj ▸ hh)
  feed j f hf := by
    rw [habout.client]
    by_cases hj : j = id
    · subst hj
      exact hfeed f hf
    · exact hinv.feed j f (habout.feeds j hj ▸ hf)
  encoder s e he := by
    rw [habout.client]
    exact henc s e he
  publisher j hj := by
    rw [habout.client] at hj
    have hne : j ≠ id := by
      rintro rfl
      rw [hq] at hj
      cases hj
    rw [habout.publishers j hne]
    exact hinv.publisher j hj

omit habout

theorem ending_mono (h : w.Ending n)
    (htoServer : ∀ j target, .request j target (.unsubscribe (.service n)) ∈ w.toServer →
      .request j target (.unsubscribe (.service n)) ∈ w'.toServer ∨ ∃ h, w'.calling j = some h ∧ h.call = .unsubscribe (.service n))
    (hcalling : ∀ j h, w.calling j = some h → h.call = .unsubscribe (.service n) → ∃ h', w'.calling j = some h' ∧ h'.call = h.call) :
    w'.Ending n := by
  obtain ⟨j, ⟨target, hmem⟩ | ⟨h, hj, hcall⟩⟩ := h
  · rcases htoServer j target hmem with hmem' | hcalled
    · exact ⟨j, .inl ⟨target, hmem'⟩⟩
    · exact ⟨j, .inr hcalled⟩
  · obtain ⟨h', hj', hcall'⟩ := hcalling j h hj hcall
    exact ⟨j, .inr ⟨h', hj', hcall'.trans hcall⟩⟩

theorem About.phases (habout : About w w' id messages) (hinv : Inv w) (hq : w.client.requests id = some q)
    (hself : ∀ n a, w.client.subscriptions n = some a → a.request = id → q.subscribes = some n → Phase (w'.view n a) (w'.Ending n))
    (henc : ∀ n, q.subscribes ≠ some n → w'.server.serviceStateEncoders (.service n) = w.server.serviceStateEncoders (.service n))
    (hitems : ∀ n j m, q.subscribes ≠ some n → j ≠ id → m ∈ messages → item n j m = none)
    (hending : ∀ n, w.Ending n → w'.Ending n) (n : Nat) (a : Active) (ha : w.client.subscriptions n = some a) :
    Phase (w'.view n a) (w'.Ending n) := by
  by_cases hn : q.subscribes = some n
  · obtain ⟨a', ha', hreq⟩ := (hinv.request id q hq).subscribes n hn
    obtain rfl := some.inj (ha'.symm.trans ha)
    exact hself n a' ha hreq hn
  · have hne := (hinv.owned n a ha).request_ne hq hn
    rw [habout.view hne fun m hm => hitems n a.request m hn hne hm, henc n hn]
    exact (hinv.phase n a ha).mono (hending n)

/-- The subscription that a request has asked for, after something the server does about it. -/
structure About.Self (w w' : World) (id n : Nat) (a : Active) : Prop where
  subscription : w.client.subscriptions n = some a
  request : a.request = id
  encoders : ∀ s, s ≠ .service n → w'.server.serviceStateEncoders s = w.server.serviceStateEncoders s
  phase : Phase (w'.view n a) (w'.Ending n)

theorem About.inv_self (habout : About w w' id messages) (hinv : Inv w) (hself : About.Self w w' id n a)
    (htally : (w.tally id).Step (w'.tally id)) (hcall : ∀ h, w'.server.activeRequests id = some h → ∃ h', w.server.activeRequests id = some h' ∧ h'.call = h.call)
    (hfeed : ∀ f, w'.feeds id = some f → FeedOk w.client id f)
    (hitems : ∀ m j k, j ≠ n → k ≠ id → m ∈ messages → item j k m = none) (hending : ∀ n, w.Ending n → w'.Ending n) : Inv w' := by
  obtain ⟨q, serviceId, mode, hq, hsubs, -⟩ := (hinv.owned n a hself.subscription).request
  rw [hself.request] at hq
  refine habout.inv hinv hq htally ?_ (fun h hh => ?_) hfeed fun s e he => ?_
  · refine habout.phases hinv hq (fun n' a' ha' _ hn' => ?_) (fun j hj => hself.encoders _ fun heq => ?_) (fun j k m hj hk hm => ?_) hending
    · obtain rfl := some.inj (hsubs.symm.trans hn')
      obtain rfl := some.inj (hself.subscription.symm.trans ha')
      exact hself.phase
    · exact hj (hsubs.trans (congrArg some (SubscriptionId.service.inj heq).symm))
    · exact hitems m j k (fun heq => hj (hsubs.trans (congrArg some heq.symm))) hk hm
  · obtain ⟨h', hh', hcall'⟩ := hcall h hh
    rw [← hcall']
    exact hinv.active id h' hh'
  · by_cases hs : s = .service n
    · exact ⟨n, a, hs, hself.subscription⟩
    · exact hinv.encoder s e (hself.encoders s hs ▸ he)

variable {wire : Update WireOp}

theorem item_serviceUpdate {n j k : Nat} (h : j ≠ n) : item j k (.serviceUpdate (.service n) wire) = none :=
  if_neg fun heq => h heq.symm

theorem item_response {id j k : Nat} {result : Except ProtocolError WireResult} (h : k ≠ id) : item j k (.response id result) = none := by
  cases result with
  | error error => rfl
  | ok result =>
    cases result with
    | value result => rfl
    | snapshot wire => exact if_neg fun heq => h heq.symm

variable (hinv : Inv w)
include hinv

/-- The server sends an update of the subscription that a request has asked for, and has `f'` and `p` for it then. -/
theorem Inv.update_sent (hf : w.feeds id = some f) {e' : Registry Encoder} {p : Publisher} {f' : Feed}
    (ha : w.client.subscriptions n = some a) (hreq : a.request = id)
    (hid : f'.subscriptionId = f.subscriptionId) (hsend : transmit f'.snapshot f'.published = .ok (f'.snapshot, f'.published))
    (hphase : Phase { w.view n a with encoder := some e', items := (w.view n a).items ++ [.update wire], publisher := p, feed := some f' }
      (w.Ending n))
    (hw : w' = { w with
      feeds := update w.feeds id (some f')
      server := { w.server with
        publishers := update w.server.publishers id p
        serviceStateEncoders := update w.server.serviceStateEncoders (.service n) (some e') }
      toClient := w.toClient ++ [.serviceUpdate (.service n) wire]
      transcript := w.transcript ++ [.serviceUpdate (.service n) wire] }) : Inv w' := by
  subst hreq
  have hsent := hinv.not_sent (.inr (by rw [hf]; exact some_ne_none f))
  have habout : About w w' a.request [.serviceUpdate (.service n) wire] := by
    subst hw
    exact
      { client := rfl, disconnected := hinv.disconnected, serverId := rfl, toClient := rfl, transcript := rfl,
        activeRequests := fun _ _ => rfl, publishers := fun j hj => update_of_ne hj _ _, feeds := fun j hj => update_of_ne hj _ _,
        toServer := fun m hm => ⟨hm, hsent m hm⟩, others := fun _ _ => rfl,
        messages := fun m hm => by
          obtain rfl := mem_singleton.mp hm
          exact ⟨⟨n, a, rfl, ha⟩, fun _ _ => rfl⟩ }
  have hself : About.Self w w' a.request n a := by
    refine ⟨ha, rfl, fun s hs => by rw [hw]; exact update_of_ne hs _ _, ?_⟩
    have hview : w'.view n a =
        { w.view n a with encoder := some e', items := (w.view n a).items ++ [.update wire], publisher := p, feed := some f' } := by
      rw [hw]
      simp only [World.view, World.draining, update_self, filterMap_append]
      simp [item]
    rw [hview, hw]
    exact hphase
  have htally : w'.tally a.request = w.tally a.request := by
    rw [hw]
    simp [World.tally, World.calling, isResponse]
  refine habout.inv_self hinv hself (htally ▸ .same) (fun h hh => ?_) (fun f₁ hf₁ => ?_) (fun m j k hj _ hm => ?_) fun n hn => ?_
  · rw [hw] at hh
    exact ⟨h, hh, rfl⟩
  · rw [hw] at hf₁
    dsimp only at hf₁
    rw [update_self] at hf₁
    obtain rfl := some.inj hf₁
    obtain ⟨q, hq, hsub⟩ := (hinv.feed _ f hf).request
    exact ⟨hsend, q, hq, hid ▸ hsub⟩
  · obtain rfl := mem_singleton.mp hm
    exact item_serviceUpdate hj
  · rw [hw]
    exact hn

/-- The server goes on about the subscription that a request has asked for, and sends nothing. -/
theorem Inv.silent (ho : Option Handler) (p : Publisher) (fo : Option Feed) (hsent : ∀ m ∈ w.toServer, isRequest id m = false)
    (ha : w.client.subscriptions n = some a) (hreq : a.request = id) (hcalling : (ho.filter fun h => h.stage = .calling) = w.calling id)
    (hcall : ∀ h, ho = some h → ∃ h', w.server.activeRequests id = some h' ∧ h'.call = h.call) (hfeed : ∀ f, fo = some f → FeedOk w.client id f)
    (hphase : Phase { w.view n a with publisher := p, feed := fo, draining := ho.any fun h => h.stage = .draining } (w.Ending n))
    (hw : w' = { w with
      feeds := update w.feeds id fo
      server := { w.server with publishers := update w.server.publishers id p, activeRequests := update w.server.activeRequests id ho } }) :
    Inv w' := by
  subst hreq
  have hactive : w'.server.activeRequests a.request = ho := by
    rw [hw]
    exact update_self _ _ _
  have hactives : ∀ j, j ≠ a.request → w'.server.activeRequests j = w.server.activeRequests j := by
    intro j hj
    rw [hw]
    exact update_of_ne hj _ _
  have hcalls : ∀ j, w'.calling j = w.calling j := by
    intro j
    by_cases hj : j = a.request
    · subst hj
      rw [World.calling, hactive]
      exact hcalling
    · rw [World.calling, hactives j hj]
      rfl
  have habout : About w w' a.request [] := by
    subst hw
    exact
      { client := rfl, disconnected := hinv.disconnected, serverId := rfl, toClient := (append_nil _).symm,
        transcript := (append_nil _).symm, activeRequests := hactives, publishers := fun j hj => update_of_ne hj _ _, feeds := fun j hj => update_of_ne hj _ _,
        toServer := fun m hm => ⟨hm, hsent m hm⟩, others := fun _ _ => rfl, messages := fun m hm => by cases hm }
  have hending : ∀ n, w.Ending n → w'.Ending n := by
    intro n hn
    refine ending_mono hn (fun j target hmem => .inl ?_) fun j h hj _ => ⟨h, hcalls j ▸ hj, rfl⟩
    rw [hw]
    exact hmem
  have hself : About.Self w w' a.request n a := by
    refine ⟨ha, rfl, fun s hs => by rw [hw], ?_⟩
    have hview : w'.view n a = { w.view n a with publisher := p, feed := fo, draining := ho.any fun h => h.stage = .draining } := by
      rw [hw]
      simp only [World.view, World.draining, update_self]
    rw [hview]
    exact hphase.mono (hending n)
  have htally : w'.tally a.request = w.tally a.request := by
    rw [World.tally, hcalls, hw]
    rfl
  refine habout.inv_self hinv hself (htally ▸ .same) (fun h hh => hcall h (hactive ▸ hh)) (fun f hf => hfeed f ?_)
    (fun m _ _ _ _ hm => by cases hm) hending
  · rw [hw] at hf
    dsimp only at hf
    rwa [update_self] at hf

/-- The same, when the handler stays where it is. -/
theorem Inv.silent_feed (p : Publisher) (fo : Option Feed) (hsent : ∀ m ∈ w.toServer, isRequest id m = false)
    (ha : w.client.subscriptions n = some a) (hreq : a.request = id) (hfeed : ∀ f, fo = some f → FeedOk w.client id f)
    (hphase : Phase { w.view n a with publisher := p, feed := fo } (w.Ending n))
    (hw : w' = { w with feeds := update w.feeds id fo, server := { w.server with publishers := update w.server.publishers id p } }) :
    Inv w' := by
  refine hinv.silent (w.server.activeRequests id) p fo hsent ha hreq rfl (fun h hh => ⟨h, hh, rfl⟩) hfeed ?_ ?_
  · subst hreq
    exact hphase
  · rw [hw, update_eq_self]

theorem Inv.take (hcalling : w.calling id = some h) (hfeed : w.feeds id = none) {s : SubscriptionId}
    (hs : Server.subscribing h.call = some s) {snapshot : SubscriptionSnapshot Op} (hok : transmit snapshot [] = .ok (snapshot, [])) :
    Inv { w with feeds := update w.feeds id (some ⟨s, snapshot, []⟩) } := by
  have hactive := (calling_eq.mp hcalling).1
  obtain ⟨q, hq, hcall⟩ := hinv.active id h hactive
  obtain ⟨n, a, rfl, -, ha, rfl⟩ := (hinv.request id q hq).subscription (hcall ▸ hs)
  have hsent := hinv.not_sent (.inl (by rw [hactive]; exact some_ne_none h))
  have hphase : Phase { w.view n a with feed := some ⟨.service n, snapshot, []⟩ } (w.Ending n) := (hinv.phase n a ha).take hfeed rfl
  refine hinv.silent_feed (w.server.publishers a.request) (some ⟨.service n, snapshot, []⟩) hsent ha rfl (fun f hf => ?_) hphase ?_
  · obtain rfl := some.inj hf
    exact ⟨hok, q, hq, hcall ▸ hs⟩
  · rw [update_eq_self]

theorem Inv.publish (hf : w.feeds id = some f) {u : Update Op}
    (hok : transmit f.snapshot (f.published ++ [u]) = .ok (f.snapshot, f.published ++ [u])) :
    Inv ({ w with feeds := update w.feeds id (some { f with published := f.published ++ [u] }) }.replies (w.server.publish id f.subscriptionId u)) := by
  obtain ⟨n, a, hn, ha, rfl⟩ := hinv.feed_subscription hf
  have hsent := hinv.not_sent (.inr (by rw [hf]; exact some_ne_none f))
  obtain ⟨f', hf'⟩ : ∃ f', f' = { f with published := f.published ++ [u] } := ⟨_, rfl⟩
  have hsnap : f'.snapshot = f.snapshot := by rw [hf']
  have hpub : f'.published = f.published ++ [u] := by rw [hf']
  have hid : f'.subscriptionId = f.subscriptionId := by rw [hf']
  have hsend : transmit f'.snapshot f'.published = .ok (f'.snapshot, f'.published) := by rw [hsnap, hpub, hok]
  have hfeed : ∀ f₁, some f' = some f₁ → FeedOk w.client a.request f₁ := by
    intro f₁ hf₁
    obtain rfl := some.inj hf₁
    exact ⟨hsend, hid ▸ (hinv.feed _ f hf).request⟩
  have hphase := hinv.phase n a ha
  rw [← hf', Server.publish, hn]
  by_cases hready : (w.server.publishers a.request).subscriptionReady = true
  · rw [if_pos hready, Server.sendServiceUpdate]
    cases henc : w.server.serviceStateEncoders (.service n) with
    | none =>
      have hp : Phase { w.view n a with publisher := w.server.publishers a.request, feed := some f' } (w.Ending n) :=
        hphase.publish hf hsnap hpub (.inr ⟨hready, henc, rfl⟩)
      refine hinv.silent_feed _ _ hsent ha rfl hfeed hp ?_
      simp [World.replies]
    | some e =>
      have hpending : (w.server.publishers a.request).pendingUpdates = [] := hphase.pending_nil hready henc
      obtain ⟨e', wire, hencode, hp⟩ := hphase.send henc hf hsnap hsend hpending rfl (fun _ => rfl) fun sent hsent => by
        rw [hpub, hsent]
        change (sent ++ (w.server.publishers a.request).pendingUpdates) ++ [u] = _
        rw [hpending, append_nil]
      refine hinv.update_sent hf ha rfl hid hsend hp ?_
      simp [World.replies, hencode, Server.sendMessage, hinv.disconnected]
  · rw [if_neg hready]
    have hp := hphase.publish hf hsnap hpub (.inl ⟨Bool.eq_false_of_not_eq_true hready, rfl⟩)
    refine hinv.silent_feed _ _ hsent ha rfl hfeed hp ?_
    simp [World.replies, World.view]

/-- A handler whose request is not one of a subscription, or has been refused, leaves. -/
theorem Inv.leave (hactive : w.server.activeRequests id = some h) (hstage : h.stage ≠ .calling)
    (hdone : h.stage = .leaving ∨ Server.subscribing h.call = none) : Inv { w with server := w.server.leave id } := by
  obtain ⟨q, hq, hcall⟩ := hinv.active id h hactive
  have hsent := hinv.not_sent (.inl (by rw [hactive]; exact some_ne_none h))
  obtain ⟨w', hw⟩ : ∃ w', w' = { w with server := w.server.leave id } := ⟨_, rfl⟩
  rw [← hw]
  have hcalls : ∀ j, w'.calling j = w.calling j := by
    intro j
    rw [hw]
    by_cases hj : j = id
    · subst hj
      rw [calling_of_stage hactive hstage]
      simp [World.calling, Server.leave]
    · simp [World.calling, Server.leave, hj]
  have habout : About w w' id [] := by
    subst hw
    exact
      { client := rfl, disconnected := hinv.disconnected, serverId := rfl, toClient := (append_nil _).symm,
        transcript := (append_nil _).symm, activeRequests := fun j hj => update_of_ne hj _ _, publishers := fun _ _ => rfl,
        feeds := fun _ _ => rfl, toServer := fun m hm => ⟨hm, hsent m hm⟩, others := fun _ _ => rfl, messages := fun m hm => by cases hm }
  have hending : ∀ n, w.Ending n → w'.Ending n := by
    intro n hn
    refine ending_mono hn (fun j target hmem => .inl ?_) fun j h hj _ => ⟨h, hcalls j ▸ hj, rfl⟩
    rw [hw]
    exact hmem
  have htally : w'.tally id = w.tally id := by
    rw [World.tally, hcalls, hw]
    rfl
  refine habout.inv hinv hq (htally ▸ .same) ?_ (fun h' hh' => ?_) (fun f hf => ?_) fun s e he => ?_
  · refine habout.phases hinv hq (fun n a ha hreq hn => ?_) (fun n _ => by rw [hw]; rfl) (fun _ _ m _ _ hm => by cases hm) hending
    rcases hdone with hleaving | hnone
    · have hview : w'.view n a = w.view n a := by
        subst hreq
        rw [hw]
        simp [World.view, World.draining, Server.leave, hactive, hleaving]
      rw [hview]
      exact (hinv.phase n a ha).mono (hending n)
    · obtain ⟨q', serviceId, mode, hq', -, hcall'⟩ := (hinv.owned n a ha).request
      obtain rfl := some.inj ((hreq ▸ hq').symm.trans hq)
      rw [← hcall, hcall'] at hnone
      cases hnone
  · rw [hw] at hh'
    simp [Server.leave] at hh'
  · rw [hw] at hf
    exact hinv.feed id f hf
  · rw [hw] at he
    exact hinv.encoder s e he

theorem Inv.proceed (hactive : w.server.activeRequests id = some h) (hstage : h.stage ≠ .calling) :
    Inv (w.replies (w.server.proceed id h)) := by
  have hleave : h.stage = .leaving ∨ Server.subscribing h.call = none → Inv (w.replies (w.server.leave id, [])) := by
    intro hdone
    have hw : w.replies (w.server.leave id, []) = { w with server := w.server.leave id } := by simp [World.replies]
    rw [hw]
    exact hinv.leave hactive hstage hdone
  obtain ⟨q, hq, hcall⟩ := hinv.active id h hactive
  have hsent := hinv.not_sent (.inl (by rw [hactive]; exact some_ne_none h))
  cases hs : h.stage with
  | calling => exact absurd hs hstage
  | leaving =>
    have hproceed : w.server.proceed id h = (w.server.leave id, []) := by simp [Server.proceed, hs]
    rw [hproceed]
    exact hleave (.inl hs)
  | draining =>
    cases hsub : Server.subscribing h.call with
    | none =>
      have hproceed : w.server.proceed id h = (w.server.leave id, []) := by simp [Server.proceed, hs, hsub]
      rw [hproceed]
      exact hleave (.inr hsub)
    | some s =>
      obtain ⟨n, a, rfl, -, ha, rfl⟩ := (hinv.request id q hq).subscription (hcall ▸ hsub)
      have hphase := hinv.phase n a ha
      have hdrain : (w.view n a).draining = true := by simp [World.view, World.draining, hactive, hs]
      have hnocall := calling_of_stage hactive hstage
      cases hpending : (w.server.publishers a.request).pendingUpdates with
      | nil =>
        have hp := hphase.drained hdrain hpending
        refine hinv.silent none { w.server.publishers a.request with subscriptionReady := true } (w.feeds a.request) hsent ha rfl hnocall.symm
          (fun h' hh' => by cases hh') (fun f hf => hinv.feed _ f hf) hp ?_
        simp [Server.proceed, hs, hsub, hpending, World.replies, Server.leave]
      | cons u rest =>
        obtain ⟨p, hp⟩ : ∃ p, p = { w.server.publishers a.request with pendingUpdates := rest } := ⟨_, rfl⟩
        cases henc : w.server.serviceStateEncoders (.service n) with
        | none =>
          have hskip : Phase { w.view n a with publisher := p, feed := w.feeds a.request } (w.Ending n) := hphase.skip hdrain henc
          refine hinv.silent_feed p (w.feeds a.request) hsent ha rfl (fun f hf => hinv.feed _ f hf) hskip ?_
          simp [Server.proceed, hs, hsub, hpending, World.replies, Server.sendServiceUpdate, henc, hp]
        | some e =>
          obtain ⟨f, hf⟩ := hphase.feed_some henc
          have hfeedOk := hinv.feed _ f hf
          have hrest : p.pendingUpdates = rest := by rw [hp]
          have hready : p.subscriptionReady = (w.view n a).publisher.subscriptionReady := by rw [hp]; rfl
          have hempty : p.subscriptionReady = true → rest = [] := by
            rw [hready, hphase.not_ready hdrain henc]
            exact fun hfalse => by cases hfalse
          have hnext : ∀ sent, f.published = sent ++ (w.view n a).publisher.pendingUpdates → f.published = sent ++ u :: rest :=
            fun sent hpub => hpending ▸ hpub
          obtain ⟨e', wire, hencode, hsend⟩ := hphase.send henc hf rfl hfeedOk.transmit hrest hready hempty hnext
          have hfeeds : w.feeds a.request = some f := hf
          refine hinv.update_sent hf ha rfl rfl hfeedOk.transmit hsend ?_
          simp [Server.proceed, hs, hsub, hpending, World.replies, Server.sendServiceUpdate, henc, hencode, Server.sendMessage,
            hinv.disconnected, hp, ← hfeeds]

omit hinv

/-- The server sends the response to a request, and its handler goes on to `stage`. -/
structure Responds (w w' : World) (id : Nat) (q : Request) (result : Except ProtocolError WireResult) (stage : Stage) : Prop where
  client : w'.client = w.client
  disconnected : w'.server.disconnected = false
  serverId : w'.server.serverId = w.server.serverId
  feeds : w'.feeds = w.feeds
  handler : ∃ h, w'.server.activeRequests = update w.server.activeRequests id (some h) ∧ h.stage = stage ∧ h.call = q.call
  stage : stage ≠ .calling
  publishers : ∀ j, j ≠ id → w'.server.publishers j = w.server.publishers j
  toClient : w'.toClient = w.toClient ++ [.response id result]
  transcript : w'.transcript = w.transcript ++ [.response id result]
  toServer : ∀ m ∈ w'.toServer, m ∈ w.toServer ∧ isRequest id m = false
  keeps : ∀ m ∈ w.toServer, m ∈ w'.toServer ∨ ∃ target, m = .request id target q.call
  others : ∀ j, j ≠ id → w'.toServer.countP (isRequest j) = w.toServer.countP (isRequest j)
  asked : (w.tally id).asked = w'.toServer.countP (isRequest id) + 1

variable {result : Except ProtocolError WireResult} {stage : Stage} (hr : Responds w w' id q result stage)
include hr

theorem Responds.about (hok : ToClientOk w.client (.response id result)) :
    About w w' id [.response id result] := by
  obtain ⟨h, hactive, -⟩ := hr.handler
  exact
    { client := hr.client, disconnected := hr.disconnected, serverId := hr.serverId, toClient := hr.toClient, transcript := hr.transcript,
      activeRequests := fun j hj => by rw [hactive, update_of_ne hj], publishers := hr.publishers, feeds := fun j _ => by rw [hr.feeds],
      toServer := hr.toServer, others := hr.others,
      messages := fun m hm => by
        obtain rfl := mem_singleton.mp hm
        exact ⟨hok, fun j hj => decide_eq_false fun heq => hj heq.symm⟩ }

theorem Responds.calling : w'.calling id = none := by
  obtain ⟨h, hactive, hstage, -⟩ := hr.handler
  refine calling_of_stage (h := h) ?_ (hstage ▸ hr.stage)
  rw [hactive, update_self]

theorem Responds.ending (hn : w.Ending n) (hcall : ∀ h, w.calling id = some h → h.call = q.call)
    (hne : q.call ≠ .unsubscribe (.service n)) : w'.Ending n := by
  obtain ⟨h₁, hactive, -⟩ := hr.handler
  refine ending_mono hn (fun j target hmem => .inl ?_) fun j h hj hunsub => ⟨h, ?_, rfl⟩
  · rcases hr.keeps _ hmem with hkept | ⟨target', heq⟩
    · exact hkept
    · obtain ⟨-, -, heq⟩ := ClientMessage.request.inj heq
      exact absurd heq.symm hne
  · have hj' : j ≠ id := by
      rintro rfl
      exact hne ((hcall h hj).symm.trans hunsub)
    rw [World.calling, hactive, update_of_ne hj']
    exact hj

theorem Responds.tally : (w.tally id).Step (w'.tally id) := by
  have hstep := Tally.Step.respond (t := w.tally id) hr.asked
  have htally : w'.tally id = { w.tally id with
      asked := w'.toServer.countP (isRequest id), arriving := (w.tally id).arriving + 1, responses := (w.tally id).responses + 1 } := by
    simp only [World.tally, hr.calling, hr.toClient, hr.transcript, hr.client, countP_append]
    simp [isResponse]
  rw [htally]
  exact hstep

theorem Responds.inv (hinv : Inv w) (hq : w.client.requests id = some q)
    (hok : ToClientOk w.client (.response id result)) (hphase : ∀ n a, w.client.subscriptions n = some a → Phase (w'.view n a) (w'.Ending n))
    (henc : ∀ s e, w'.server.serviceStateEncoders s = some e → ∃ n a, s = .service n ∧ w.client.subscriptions n = some a) : Inv w' := by
  obtain ⟨h, hactive, -, hcall⟩ := hr.handler
  refine (hr.about hok).inv hinv hq hr.tally hphase (fun h' hh' => ?_) (fun f hf => ?_) henc
  · rw [hactive, update_self] at hh'
    obtain rfl := some.inj hh'
    exact ⟨q, hq, hcall.symm⟩
  · rw [hr.feeds] at hf
    exact hinv.feed id f hf

omit hr

/-- A response that says nothing about a subscription. -/
theorem Responds.plain (hr : Responds w w' id q result .leaving) (hinv : Inv w) (hq : w.client.requests id = some q)
    (hok : ToClientOk w.client (.response id result)) (hres : ∀ wire, result ≠ .ok (.snapshot wire))
    (hencs : w'.server.serviceStateEncoders = w.server.serviceStateEncoders) (hdrain : w.draining id = false)
    (hpubr : ∀ n a, w.client.subscriptions n = some a → a.request = id → w'.server.publishers id = w.server.publishers id)
    (hcall : ∀ h, w.calling id = some h → h.call = q.call) (hne : ∀ s, q.call ≠ .unsubscribe s) : Inv w' := by
  have hitem : ∀ n j, item n j (.response id result) = none := by
    intro n j
    match result, hres with
    | .error _, _ | .ok (.value _), _ => rfl
    | .ok (.snapshot wire), h => exact absurd rfl (h wire)
  have hending : ∀ n, w.Ending n → w'.Ending n := fun n hn => hr.ending hn hcall (hne _)
  refine hr.inv hinv hq hok ?_ fun s e he => hinv.encoder s e (hencs ▸ he)
  refine (hr.about hok).phases hinv hq (fun n a ha hreq _ => ?_) (fun n _ => by rw [hencs]) (fun n j m _ _ hm => ?_) hending
  · have hview : w'.view n a = w.view n a := by
      obtain ⟨h, hactive, hstage, -⟩ := hr.handler
      have hdrain' : w'.draining a.request = w.draining a.request := by
        rw [hreq, hdrain, World.draining, hactive, update_self]
        simp [hstage]
      have hpub := hpubr n a ha hreq
      rw [← hreq] at hpub
      simp only [World.view, hr.client, hencs, hr.toClient, hdrain', hpub, hr.feeds, filterMap_append]
      simp [hitem]
    rw [hview]
    exact (hinv.phase n a ha).mono (hending n)
  · obtain rfl := mem_singleton.mp hm
    exact hitem n j

/-- The response of a call that the services were running. -/
theorem Inv.responds (hinv : Inv w) (hcalling : w.calling id = some h) (hcall : q.call = h.call)
    (hstage : stage ≠ .calling) {s : Server} (hsrv : s.disconnected = w.server.disconnected ∧ s.serverId = w.server.serverId ∧
      s.activeRequests = update w.server.activeRequests id (some { h with stage }) ∧ s.publishers = w.server.publishers) :
    Responds w (w.replies (s.sendMessage (.response id result))) id q result stage := by
  obtain ⟨hdisc, hserverId, hactive, hpublishers⟩ := hsrv
  have hact' := (calling_eq.mp hcalling).1
  have hsent := hinv.not_sent (.inl (by rw [hact']; exact some_ne_none h))
  have hmsgs : s.sendMessage (.response id result) = (s, [.response id result]) := by
    rw [Server.sendMessage, hdisc, hinv.disconnected]
    rfl
  rw [hmsgs]
  exact
    { client := rfl, disconnected := hdisc.trans hinv.disconnected, serverId := hserverId, feeds := rfl,
      handler := ⟨_, hactive, rfl, hcall.symm⟩, stage := hstage, publishers := fun j _ => by rw [World.replies, hpublishers],
      toClient := rfl, transcript := rfl, toServer := fun m hm => ⟨hm, hsent m hm⟩, keeps := fun m hm => .inl hm, others := fun _ _ => rfl,
      asked := by rw [World.tally, hcalling]; rfl }

theorem Inv.returns (hinv : Inv w) (hcalling : w.calling id = some h) {value : Except ProtocolError (Option Json)}
    (hallowed : ∀ s, h.call = .unsubscribe s → ∃ v, value = .ok v) : Inv (w.replies (w.server.answer id h value)) := by
  obtain ⟨hactive, hstage⟩ := calling_eq.mp hcalling
  obtain ⟨q, hq, hcall⟩ := hinv.active id h hactive
  have hdrain : w.draining id = false := by simp [World.draining, hactive, hstage]
  have hcalls : ∀ h', w.calling id = some h' → h'.call = q.call := by
    intro h' hh'
    obtain rfl := some.inj (hcalling.symm.trans hh')
    exact hcall.symm
  have hrefuse : ∀ error, (∀ s, h.call ≠ .unsubscribe s) → Inv (w.replies (w.server.refuse id h error)) := by
    intro error hne
    have hr : Responds w (w.replies (w.server.refuse id h error)) id q
        (.error (if h.aborted then ⟨"cancelled", "RPC request cancelled"⟩ else error)) .leaving :=
      hinv.responds hcalling hcall (by decide) ⟨rfl, rfl, rfl, rfl⟩
    exact hr.plain hinv hq trivial (fun wire hfalse => by cases hfalse) rfl hdrain (fun _ _ _ _ => rfl) hcalls fun s hs => hne s (hcall ▸ hs)
  have hcallOk := (hinv.request id q hq).call
  rw [hcall] at hcallOk
  cases hc : h.call with
  | subscribe s serviceId mode =>
    have hne : ∀ s', h.call ≠ .unsubscribe s' := fun s' hs' => by rw [hc] at hs'; cases hs'
    cases value with
    | error error => exact hrefuse error hne
    | ok value =>
      cases value with
      | none =>
        have hans : w.server.answer id h (.ok none) =
            w.server.refuse id h ⟨"invalid_request", "Service subscription did not return a snapshot"⟩ := by simp only [Server.answer, hc]
        rw [hans]
        exact hrefuse _ hne
      | some value =>
        have hans : w.server.answer id h (.ok (some value)) = w.server.refuse id h Server.internalError := by simp only [Server.answer, hc]
        rw [hans]
        exact hrefuse _ hne
  | invoke call =>
    have hne : ∀ s', h.call ≠ .unsubscribe s' := fun s' hs' => by rw [hc] at hs'; cases hs'
    cases value with
    | error error => exact hrefuse error hne
    | ok value =>
      have hans : w.server.answer id h (.ok value) = w.server.respond id h .leaving (.value value) := by simp only [Server.answer, hc]
      rw [hans]
      have hr : Responds w (w.replies (w.server.respond id h .leaving (.value value))) id q (.ok (.value value)) .leaving :=
        hinv.responds hcalling hcall (by decide) ⟨rfl, rfl, rfl, rfl⟩
      have hok : ToClientOk w.client (.response id (.ok (.value value))) := by
        intro q' hq'
        obtain rfl := some.inj (hq.symm.trans hq')
        rw [hc] at hcallOk
        exact hcallOk
      exact hr.plain hinv hq hok (fun wire hfalse => by cases hfalse) rfl hdrain (fun _ _ _ _ => rfl) hcalls fun s hs => hne s (hcall ▸ hs)
  | unsubscribe s =>
    obtain ⟨v, rfl⟩ := hallowed s hc
    rw [hc] at hcallOk
    obtain ⟨hsubs, -, n, a, rfl, ha, hdisp⟩ := hcallOk
    have hans : w.server.answer id h (.ok v) =
        { w.server with serviceStateEncoders := update w.server.serviceStateEncoders (.service n) none }.respond id h .leaving (.value v) := by
      simp only [Server.answer, hc]
    rw [hans]
    obtain ⟨w', hw⟩ : ∃ w', w' = w.replies
        ({ w.server with serviceStateEncoders := update w.server.serviceStateEncoders (.service n) none }.respond id h .leaving (.value v)) :=
      ⟨_, rfl⟩
    have hr : Responds w w' id q (.ok (.value v)) .leaving := by
      rw [hw]
      exact hinv.responds hcalling hcall (by decide) ⟨rfl, rfl, rfl, rfl⟩
    have hencs : w'.server.serviceStateEncoders = update w.server.serviceStateEncoders (.service n) none := by
      rw [hw]
      rfl
    have hok : ToClientOk w.client (.response id (.ok (.value v))) := by
      intro q' hq'
      obtain rfl := some.inj (hq.symm.trans hq')
      exact hsubs
    rw [← hw]
    refine hr.inv hinv hq hok (fun n' a' ha' => ?_) fun s e he => ?_
    · have hreq := (hinv.owned n' a' ha').request_ne hq (by rw [hsubs]; exact (some_ne_none n').symm)
      have hview := (hr.about hok).view (n := n') hreq fun m hm => by
        obtain rfl := mem_singleton.mp hm
        exact item_response hreq
      rw [hview, hencs]
      by_cases hn : n' = n
      · subst hn
        obtain rfl := some.inj (ha.symm.trans ha')
        rw [update_self]
        exact (hinv.phase n' a ha).unsubscribe hdisp
      · have hs : SubscriptionId.service n' ≠ .service n := fun heq => hn (SubscriptionId.service.inj heq)
        rw [update_of_ne hs]
        refine (hinv.phase n' a' ha').mono fun hending => hr.ending hending hcalls ?_
        rw [hcall, hc]
        exact fun heq => hs (ServiceCall.unsubscribe.inj heq).symm
    · rw [hencs] at he
      by_cases hs : s = .service n
      · exact ⟨n, a, hs, ha⟩
      · rw [update_of_ne hs] at he
        exact hinv.encoder s e he

theorem arriving_of_snapshot {wire : SubscriptionSnapshot WireOp} (h : .snapshot wire ∈ messages.filterMap (item n id)) :
    0 < messages.countP (isResponse id) := by
  obtain ⟨m, hm, hitem⟩ := mem_filterMap.mp h
  refine countP_pos_iff.mpr ⟨m, hm, ?_⟩
  match m, hitem with
  | .response id' (.ok (.snapshot wire')), hitem =>
    by_cases hid : id' = id
    · exact decide_eq_true hid
    · rw [item, if_neg hid] at hitem
      cases hitem
  | .serviceUpdate (.service m) wire', hitem =>
    by_cases hm : m = n
    · rw [item, if_pos hm] at hitem
      cases hitem
    · rw [item, if_neg hm] at hitem
      cases hitem

theorem Inv.returnsSnapshot (hinv : Inv w) (hcalling : w.calling id = some h) (hf : w.feeds id = some f)
    (hallowed : ∀ q, w.client.requests id = some q → q.settled.isNone) :
    Inv (w.replies (w.server.answerSnapshot id h f.subscriptionId f.snapshot)) := by
  obtain ⟨hactive, hstage⟩ := calling_eq.mp hcalling
  obtain ⟨q, hq, hcall⟩ := hinv.active id h hactive
  obtain ⟨q', hq', hsub⟩ := (hinv.feed id f hf).request
  obtain rfl := some.inj (hq.symm.trans hq')
  obtain ⟨n, a, hn, hsubs, ha, rfl⟩ := (hinv.request id q hq).subscription hsub
  have htally := hinv.tally a.request
  simp only [Tally.Ok, World.tally, hq, hcalling, toList_some, length_singleton] at htally
  have hle := Bool.toNat_le q.pending
  have hpending : q.pending = true := by
    cases hp : q.pending with
    | true => rfl
    | false =>
      have hcount := htally.2.1
      rw [hp] at hcount
      dsimp only [Bool.toNat_false] at hcount
      omega
  obtain ⟨e, wire, d, henc, hdec, hcodecs⟩ := codecsAfter_nil (hinv.feed _ f hf).transmit
  have hencoder : w.server.serviceStateEncoders (.service n) = none := by
    refine (hinv.phase n a ha).encoder_none hq hpending fun wire hwire => ?_
    have := arriving_of_snapshot hwire
    omega
  have hphase := (hinv.phase n a ha).answer hencoder hq hpending (isNone_iff_eq_none.mp (hallowed q hq)) hf hdec hcodecs
  obtain ⟨w', hw⟩ : ∃ w', w' = w.replies
      ({ w.server with serviceStateEncoders := update w.server.serviceStateEncoders (.service n) (some e) }.respond a.request h .draining
        (.snapshot wire)) := ⟨_, rfl⟩
  have hans : w.replies (w.server.answerSnapshot a.request h f.subscriptionId f.snapshot) = w' := by
    simp only [Server.answerSnapshot, henc, hn, hw]
  have hr : Responds w w' a.request q (.ok (.snapshot wire)) .draining := by
    rw [hw]
    exact hinv.responds hcalling hcall (by decide) ⟨rfl, rfl, rfl, rfl⟩
  have hsrv : w'.server = { w.server with
      serviceStateEncoders := update w.server.serviceStateEncoders (.service n) (some e)
      activeRequests := update w.server.activeRequests a.request (some { h with stage := .draining }) } := by
    rw [hw]
    rfl
  have hcalls : ∀ h', w.calling a.request = some h' → h'.call = q.call := by
    intro h' hh'
    obtain rfl := some.inj (hcalling.symm.trans hh')
    exact hcall.symm
  have hending : ∀ n, w.Ending n → w'.Ending n := by
    intro n' hn'
    refine hr.ending hn' hcalls fun hunsub => ?_
    rw [hunsub] at hsub
    cases hsub
  have hview : w'.view n a = { w.view n a with encoder := some e, items := (w.view n a).items ++ [.snapshot wire], draining := true } := by
    simp only [World.view, World.draining, hr.client, hr.toClient, hr.feeds, hsrv, update_self, filterMap_append]
    simp [item]
  have hok : ToClientOk w.client (.response a.request (.ok (.snapshot wire))) := trivial
  rw [hans]
  refine hr.inv hinv hq hok ?_ fun s e' he => ?_
  · refine (hr.about hok).phases hinv hq (fun n' a' ha' _ hn' => ?_) (fun n' hn' => ?_) (fun n' j m _ hj hm => ?_) hending
    · obtain rfl := some.inj (hsubs.symm.trans hn')
      obtain rfl := some.inj (ha.symm.trans ha')
      rw [hview]
      exact hphase.mono (hending n)
    · rw [hsrv]
      exact update_of_ne (fun heq => hn' (hsubs.trans (congrArg some (SubscriptionId.service.inj heq).symm))) _ _
    · obtain rfl := mem_singleton.mp hm
      exact item_response hj
  · by_cases hs : s = .service n
    · exact ⟨n, a, hs, ha⟩
    · rw [hsrv] at he
      dsimp only at he
      rw [update_of_ne hs] at he
      exact hinv.encoder s e' he

variable {target : RpcTarget} {rest : List ClientMessage} (hinv : Inv w)
include hinv

/-- A message that asks for nothing is taken. -/
theorem Inv.pop (hto : w.toServer = .cancel id target :: rest) :
    Inv { w with toServer := rest } := by
  have hmem : ∀ m ∈ rest, m ∈ w.toServer := fun m hm => hto ▸ mem_cons_of_mem _ hm
  have htally : ∀ j, World.tally { w with toServer := rest } j = w.tally j := by
    intro j
    simp only [World.tally, hto, World.calling, countP_cons, isRequest]
    rfl
  refine ⟨hinv.connected, hinv.disconnected, hinv.serverId, fun j => htally j ▸ hinv.tally j, hinv.request, hinv.owned, fun n a ha => ?_,
    fun m hm => ?_, hinv.toClient, hinv.active, hinv.feed, hinv.encoder, hinv.publisher⟩
  · refine (hinv.phase n a ha).mono fun hending => ending_mono hending (fun j target' hreq => .inl ?_) fun j h hj _ => ⟨h, hj, rfl⟩
    rw [hto] at hreq
    cases hreq with
    | tail _ hreq => exact hreq
  · have hok := hinv.toServer m (hmem m hm)
    cases m with
    | cancel id' target' => trivial
    | request id' target' call => exact hok

/-- A handler is told that its request is cancelled; nothing else is changed. -/
theorem Inv.cancelled (hactive : w.server.activeRequests id = some h) :
    Inv { w with server := { w.server with activeRequests := update w.server.activeRequests id (some { h with aborted := true }) } } := by
  obtain ⟨w', hw⟩ : ∃ w', w' = { w with
      server := { w.server with activeRequests := update w.server.activeRequests id (some { h with aborted := true }) } } := ⟨_, rfl⟩
  rw [← hw]
  obtain ⟨q, hq, hcall⟩ := hinv.active id h hactive
  have hsent := hinv.not_sent (.inl (by rw [hactive]; exact some_ne_none h))
  have habout : About w w' id [] := by
    subst hw
    exact
      { client := rfl, disconnected := hinv.disconnected, serverId := rfl, toClient := (append_nil _).symm,
        transcript := (append_nil _).symm, activeRequests := fun j hj => update_of_ne hj _ _, publishers := fun _ _ => rfl,
        feeds := fun _ _ => rfl, toServer := fun m hm => ⟨hm, hsent m hm⟩, others := fun _ _ => rfl, messages := fun m hm => by cases hm }
  have hcalling : w'.calling id = (w.calling id).map fun h => { h with aborted := true } := by
    rw [hw]
    simp only [World.calling, update_self, hactive, filter_some]
    split <;> rfl
  have hending : ∀ n, w.Ending n → w'.Ending n := by
    intro n hn
    refine ending_mono hn (fun j target hmem => .inl (by rw [hw]; exact hmem)) fun j h' hj _ => ?_
    by_cases hjid : j = id
    · subst hjid
      exact ⟨{ h' with aborted := true }, by rw [hcalling, hj]; rfl, rfl⟩
    · refine ⟨h', ?_, rfl⟩
      rw [World.calling, habout.activeRequests j hjid]
      exact hj
  have htally : w'.tally id = w.tally id := by
    rw [World.tally, hcalling, hw]
    simp [World.tally]
    cases w.calling id <;> rfl
  refine habout.inv hinv hq (htally ▸ .same) ?_ (fun h' hh' => ?_) (fun f hf => ?_) fun s e he => ?_
  · refine habout.phases hinv hq (fun n a ha hreq _ => ?_) (fun n _ => by rw [hw]) (fun _ _ m _ _ hm => by cases hm) hending
    have hview : w'.view n a = w.view n a := by
      subst hreq
      rw [hw]
      simp [World.view, World.draining, hactive]
    rw [hview]
    exact (hinv.phase n a ha).mono (hending n)
  · rw [hw] at hh'
    dsimp only at hh'
    rw [update_self] at hh'
    obtain rfl := some.inj hh'
    exact ⟨q, hq, hcall⟩
  · rw [hw] at hf
    exact hinv.feed id f hf
  · rw [hw] at he
    exact hinv.encoder s e he

theorem Inv.cancel (hto : w.toServer = .cancel id target :: rest) :
    Inv { w with toServer := rest, server := w.server.handleCancel id target } := by
  have hpop := hinv.pop hto
  unfold Server.handleCancel
  split
  · split
    · rename_i h hactive
      split
      · exact hpop.cancelled hactive
      · exact hpop
    · exact hpop
  · exact hpop

theorem Inv.receives {call : ServiceCall}
    (hto : w.toServer = .request id target call :: rest) :
    Inv ({ w with toServer := rest }.replies (w.server.handleRequest id target call)) := by
  obtain ⟨hactive, hfeed, q, hq, htgt, hcall⟩ := hinv.toServer (.request id target call) (hto ▸ mem_cons_self)
  have hnone : w.calling id = none := by rw [World.calling, hactive]; rfl
  have hdrain : w.draining id = false := by rw [World.draining, hactive]; rfl
  have hcount : w.toServer.countP (isRequest id) = rest.countP (isRequest id) + 1 := by
    rw [hto, countP_cons_of_pos (by simp [isRequest])]
  have hothers : ∀ j, j ≠ id → rest.countP (isRequest j) = w.toServer.countP (isRequest j) := by
    intro j hj
    rw [hto, countP_cons_of_neg (by rw [isRequest, decide_eq_true_iff]; exact fun heq => hj heq.symm)]
  have hrest : ∀ m ∈ rest, m ∈ w.toServer ∧ isRequest id m = false := by
    intro m hm
    refine ⟨hto ▸ mem_cons_of_mem _ hm, Bool.eq_false_of_not_eq_true fun hyes => ?_⟩
    have hpos : 0 < rest.countP (isRequest id) := countP_pos_iff.mpr ⟨m, hm, hyes⟩
    have htally := hinv.tally id
    simp only [Tally.Ok, World.tally, hq] at htally
    omega
  have hpubr : ∀ n a, w.client.subscriptions n = some a → a.request = id → w.server.publishers id = {} := by
    rintro n a ha rfl
    exact (hinv.phase n a ha).publisher_fresh hfeed
  have hcalls : ∀ h, w.calling id = some h → h.call = q.call := fun h hh => by rw [hnone] at hh; cases hh
  have hrefuse : ∀ error, (∀ s, call ≠ .unsubscribe s) → Inv ({ w with toServer := rest }.replies
        (Server.refuse { w.server with publishers := update w.server.publishers id {} } id { target, call, stage := .calling } error)) := by
    intro error hne
    have hr : Responds w ({ w with toServer := rest }.replies
        (Server.refuse { w.server with publishers := update w.server.publishers id {} } id { target, call, stage := .calling } error))
        id q (.error error) .leaving := by
      have hmsgs : Server.refuse { w.server with publishers := update w.server.publishers id {} } id { target, call, stage := .calling } error =
          ({ w.server with
            publishers := update w.server.publishers id {}
            activeRequests := update w.server.activeRequests id (some { target, call, stage := .leaving }) }, [.response id (.error error)]) := by
        simp [Server.refuse, Server.sendMessage, hinv.disconnected]
      rw [hmsgs]
      exact
        { client := rfl, disconnected := hinv.disconnected, serverId := rfl, feeds := rfl, handler := ⟨_, rfl, rfl, hcall.symm⟩,
          stage := by decide, publishers := fun j hj => update_of_ne hj _ _, toClient := rfl, transcript := rfl, toServer := hrest,
          keeps := fun m hm => by
            rw [hto] at hm
            cases hm with
            | head => exact .inr ⟨target, by rw [hcall]⟩
            | tail _ hm => exact .inl hm
          others := hothers, asked := by simp only [World.tally, hnone, hcount]; rfl }
    refine hr.plain hinv hq trivial (fun wire hfalse => by cases hfalse) rfl hdrain (fun n a ha hreq => ?_) hcalls fun s hs => hne s (hcall ▸ hs)
    rw [hpubr n a ha hreq]
    exact update_self _ _ _
  have hcalled : Inv ({ w with toServer := rest }.replies
      ({ w.server with
        publishers := update w.server.publishers id {}
        activeRequests := update w.server.activeRequests id (some { target, call, stage := .calling }) }, [])) := by
    obtain ⟨w', hw⟩ : ∃ w', w' = { w with toServer := rest }.replies
      ({ w.server with
        publishers := update w.server.publishers id {}
        activeRequests := update w.server.activeRequests id (some { target, call, stage := .calling }) }, []) := ⟨_, rfl⟩
    rw [← hw]
    have hcalling : w'.calling id = some { target, call, stage := .calling } := by
      refine calling_eq.mpr ⟨?_, rfl⟩
      rw [hw]
      exact update_self _ _ _
    have habout : About w w' id [] := by
      subst hw
      exact
        { client := rfl, disconnected := hinv.disconnected, serverId := rfl, toClient := rfl, transcript := rfl,
          activeRequests := fun j hj => update_of_ne hj _ _, publishers := fun j hj => update_of_ne hj _ _, feeds := fun _ _ => rfl,
          toServer := hrest, others := hothers, messages := fun m hm => by cases hm }
    have hending : ∀ n, w.Ending n → w'.Ending n := by
      intro n hn
      refine ending_mono hn (fun j target' hmem => ?_) fun j h hj _ => ⟨h, ?_, rfl⟩
      · rw [hto] at hmem
        cases hmem with
        | head => exact .inr ⟨_, hcalling, rfl⟩
        | tail _ hmem => exact .inl (by rw [hw]; exact hmem)
      · have hne : j ≠ id := by
          rintro rfl
          rw [hnone] at hj
          cases hj
        rw [World.calling, habout.activeRequests j hne]
        exact hj
    have htally : w'.tally id = w.tally id := by
      simp only [World.tally, hcalling, hnone, hcount, habout.toClient, habout.transcript, habout.client, append_nil]
      rw [hw]
      rfl
    refine habout.inv hinv hq (htally ▸ .same) ?_ (fun h hh => ?_) (fun f hf => ?_) fun s e he => ?_
    · refine habout.phases hinv hq (fun n a ha hreq _ => ?_) (fun n _ => by rw [hw]; rfl) (fun _ _ m _ _ hm => by cases hm) hending
      have hview : w'.view n a = w.view n a := by
        have hfresh := hpubr n a ha hreq
        subst hreq
        rw [hw]
        simp [World.view, World.draining, World.replies, hactive, hfresh]
      rw [hview]
      exact (hinv.phase n a ha).mono (hending n)
    · obtain rfl := some.inj ((calling_eq.mp hcalling).1.symm.trans hh)
      exact ⟨q, hq, hcall⟩
    · rw [hw] at hf
      exact hinv.feed id f hf
    · rw [hw] at he
      exact hinv.encoder s e he
  have hoff : (w.server.activeRequests id).isSome = false := by rw [hactive]; rfl
  rw [Server.handleRequest, hoff, if_neg Bool.false_ne_true]
  have hcallOk := (hinv.request id q hq).call
  rw [hcall] at hcallOk
  by_cases hsrv : target.serverId ≠ w.server.serverId
  · rw [if_pos hsrv]
    refine hrefuse _ fun s hs => ?_
    rw [hs] at hcallOk
    exact hsrv (htgt ▸ hcallOk.2.1.trans hinv.serverId)
  · rw [if_neg hsrv]
    cases hsub : Server.subscribing call with
    | none => exact hcalled
    | some s =>
      by_cases henc : (w.server.serviceStateEncoders s).isSome
      · have hne : ∀ s', call ≠ .unsubscribe s' := fun s' hs' => by rw [hs'] at hsub; cases hsub
        simp only [henc, if_true]
        exact hrefuse _ hne
      · simp only [henc]
        exact hcalled

theorem Inv.attach (session : Option SessionRef) :
    Inv (w.replies (w.server.sendMessage (.attachment (session.map fun session => ⟨w.server.serverId, some session⟩)))) := by
  obtain ⟨target, htgt⟩ : ∃ target : Option RpcTarget, target = session.map fun session => ⟨w.server.serverId, some session⟩ := ⟨_, rfl⟩
  have hok : ToClientOk w.client (.attachment target) := by
    cases session with
    | none => rw [htgt]; trivial
    | some session => rw [htgt]; exact hinv.serverId.symm
  have hmsgs : w.server.sendMessage (.attachment target) = (w.server, [.attachment target]) := by
    rw [Server.sendMessage, hinv.disconnected]
    rfl
  rw [← htgt, hmsgs]
  have htally : ∀ j, (w.replies (w.server, [.attachment target])).tally j = w.tally j := by
    intro j
    simp [World.tally, World.replies, World.calling, isResponse]
  refine ⟨hinv.connected, hinv.disconnected, hinv.serverId, fun j => htally j ▸ hinv.tally j, hinv.request, hinv.owned, fun n a ha => ?_,
    fun m hm => ?_, fun m hm => ?_, hinv.active, hinv.feed, hinv.encoder, hinv.publisher⟩
  · have hview : (w.replies (w.server, [.attachment target])).view n a = w.view n a := by
      simp [World.view, World.replies, World.draining, item]
    rw [hview]
    exact hinv.phase n a ha
  · have hold := hinv.toServer m hm
    cases m with
    | cancel id' target' => trivial
    | request id' target' call => exact hold
  · rcases mem_append.mp hm with hm | hm
    · exact hinv.toClient m hm
    · obtain rfl := mem_singleton.mp hm
      exact hok

end Server

end Shuvpi.Remote
