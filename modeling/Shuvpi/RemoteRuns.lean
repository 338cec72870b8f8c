import Shuvpi.RemoteInvariant

/-!
# Every run of a connection

What the client does keeps the invariant too, so that every allowed event does, and a connection
does what is expected of it in every state that such events lead to.
-/
namespace Shuvpi.Remote

open Delta Provider ServiceCodec Function Client
open List

/-! ## The client -/

section Client

variable {w w' : World} {id n : Nat} {a a' : Active} {q q' : Request} {c c' : Client}

/-- What does not change of a request. -/
def Request.constant (q : Request) : RpcTarget × ServiceCall × Option Nat := (q.target, q.call, q.subscribes)

/-- Requests and subscriptions stay what they are, and none is added. -/
structure Keeps (c c' : Client) : Prop where
  serverId : c'.serverId = c.serverId
  requestSequence : c'.requestSequence = c.requestSequence
  serviceSubscriptionSequence : c'.serviceSubscriptionSequence = c.serviceSubscriptionSequence
  requests : ∀ id, (c'.requests id).map Request.constant = (c.requests id).map Request.constant
  subscriptions : ∀ n, (c'.subscriptions n).map Active.request = (c.subscriptions n).map Active.request
  disposed : ∀ n a a', c.subscriptions n = some a → c'.subscriptions n = some a' → a.disposed = true → a'.disposed = true

variable (h : Keeps c c')
include h

theorem Keeps.symm_request (hq : c'.requests id = some q') : ∃ q, c.requests id = some q ∧ q.constant = q'.constant := by
  have hmap := h.requests id
  rw [hq, Option.map_some, eq_comm, Option.map_eq_some_iff] at hmap
  exact hmap

theorem Keeps.request (hq : c.requests id = some q) : ∃ q', c'.requests id = some q' ∧ q'.constant = q.constant := by
  have hmap := h.requests id
  rw [hq, Option.map_some, Option.map_eq_some_iff] at hmap
  exact hmap

theorem Keeps.symm_subscription (ha : c'.subscriptions n = some a') :
    ∃ a, c.subscriptions n = some a ∧ a.request = a'.request := by
  have hmap := h.subscriptions n
  rw [ha, Option.map_some, eq_comm, Option.map_eq_some_iff] at hmap
  exact hmap

theorem Keeps.subscription (ha : c.subscriptions n = some a) :
    ∃ a', c'.subscriptions n = some a' ∧ a'.request = a.request := by
  have hmap := h.subscriptions n
  rw [ha, Option.map_some, Option.map_eq_some_iff] at hmap
  exact hmap

omit h

theorem constant_eq (h : q.constant = q'.constant) : q.target = q'.target ∧ q.call = q'.call ∧ q.subscribes = q'.subscribes := by
  obtain ⟨htgt, hrest⟩ := Prod.mk.inj h
  exact ⟨htgt, Prod.mk.inj hrest⟩

theorem Keeps.requestOk (h : Keeps c c') (hq : q.constant = q'.constant) (hok : RequestOk c id q) : RequestOk c' id q' := by
  obtain ⟨htgt, hcall, hsubs⟩ := constant_eq hq
  refine ⟨h.requestSequence ▸ hok.bound, ?_, fun n hn => ?_⟩
  · have hcallOk := hok.call
    rw [← hcall]
    cases hc : q.call with
    | subscribe s serviceId mode =>
      rw [hc] at hcallOk
      obtain ⟨n, hs, hn⟩ := hcallOk
      exact ⟨n, hs, hsubs ▸ hn⟩
    | invoke call =>
      rw [hc] at hcallOk
      exact hsubs.symm.trans hcallOk
    | unsubscribe s =>
      rw [hc] at hcallOk
      obtain ⟨hnone, hsrv, n, a, rfl, ha, hdisp⟩ := hcallOk
      obtain ⟨a', ha', -⟩ := h.subscription ha
      exact ⟨hsubs ▸ hnone, by rw [← htgt, hsrv, h.serverId], n, a', rfl, ha', h.disposed n a a' ha ha' hdisp⟩
  · obtain ⟨a, ha, hreq⟩ := hok.subscribes n (hsubs.trans hn)
    obtain ⟨a', ha', hreq'⟩ := h.subscription ha
    exact ⟨a', ha', hreq'.trans hreq⟩

theorem Keeps.owned (h : Keeps c c') (ha : a.request = a'.request) (hok : Owned c n a) : Owned c' n a' := by
  obtain ⟨q, serviceId, mode, hq, hsubs, hcall⟩ := hok.request
  obtain ⟨q', hq', hconst⟩ := h.request hq
  obtain ⟨-, hcall', hsubs'⟩ := constant_eq hconst
  exact ⟨h.serviceSubscriptionSequence ▸ hok.bound, q', serviceId, mode, ha ▸ hq', hsubs'.trans hsubs, hcall'.trans hcall⟩

variable {m : ServerMessage}

theorem Keeps.toClientOk (h : Keeps c c') (hok : ToClientOk c m) : ToClientOk c' m := by
  match m, hok with
  | .response id (.ok (.value _)), hok =>
    intro q' hq'
    obtain ⟨q, hq, hconst⟩ := h.symm_request hq'
    rw [← (constant_eq hconst).2.2]
    exact hok q hq
  | .response _ (.ok (.snapshot _)), _ | .response _ (.error _), _ => trivial
  | .serviceUpdate s _, ⟨n, a, hs, ha⟩ =>
    obtain ⟨a', ha', -⟩ := h.subscription ha
    exact ⟨n, a', hs, ha'⟩
  | .attachment none, _ => trivial
  | .attachment (some target), hok => exact hok.trans h.serverId.symm

/-- The client goes on, and asks for nothing. -/
theorem Inv.client (hinv : Inv w) (hkeeps : Keeps w.client w'.client) (hsrv : w'.server = w.server) (hfeeds : w'.feeds = w.feeds)
    (hconn : w'.client.connected = true) (htoServer : ∀ m ∈ w'.toServer, m ∈ w.toServer ∨ ∃ id target, m = .cancel id target)
    (htoClient : ∀ m ∈ w'.toClient, m ∈ w.toClient) (htally : ∀ id, (w.tally id).Step (w'.tally id))
    (hphase : ∀ n a, w'.client.subscriptions n = some a → Phase (w'.view n a) (w'.Ending n)) : Inv w' where
  connected := hconn
  disconnected := hsrv ▸ hinv.disconnected
  serverId := by rw [hkeeps.serverId, hsrv, hinv.serverId]
  tally id := (htally id).ok (hinv.tally id)
  request id q' hq' := by
    obtain ⟨q, hq, hconst⟩ := hkeeps.symm_request hq'
    exact hkeeps.requestOk hconst (hinv.request id q hq)
  owned n a' ha' := by
    obtain ⟨a, ha, hreq⟩ := hkeeps.symm_subscription ha'
    exact hkeeps.owned hreq (hinv.owned n a ha)
  phase := hphase
  toServer m hm := by
    rcases htoServer m hm with hmem | ⟨id, target, rfl⟩
    · have hok := hinv.toServer m hmem
      cases m with
      | cancel id target => trivial
      | request id target call =>
        obtain ⟨hactive, hfeed, q, hq, htgt, hcall⟩ := hok
        obtain ⟨q', hq', hconst⟩ := hkeeps.request hq
        obtain ⟨htgt', hcall', -⟩ := constant_eq hconst
        exact ⟨hsrv ▸ hactive, hfeeds ▸ hfeed, q', hq', htgt'.trans htgt, hcall'.trans hcall⟩
    · trivial
  toClient m hm := hkeeps.toClientOk (hinv.toClient m (htoClient m hm))
  active id h hh := by
    obtain ⟨q, hq, hcall⟩ := hinv.active id h (hsrv ▸ hh)
    obtain ⟨q', hq', hconst⟩ := hkeeps.request hq
    exact ⟨q', hq', (constant_eq hconst).2.1.trans hcall⟩
  feed id f hf := by
    obtain ⟨hsend, q, hq, hsub⟩ := hinv.feed id f (hfeeds ▸ hf)
    obtain ⟨q', hq', hconst⟩ := hkeeps.request hq
    exact ⟨hsend, q', hq', by rw [(constant_eq hconst).2.1]; exact hsub⟩
  encoder s e he := by
    obtain ⟨n, a, hs, ha⟩ := hinv.encoder s e (hsrv ▸ he)
    obtain ⟨a', ha', -⟩ := hkeeps.subscription ha
    exact ⟨n, a', hs, ha'⟩
  publisher id hid := by
    rw [hsrv]
    have hmap := hkeeps.requests id
    rw [hid, Option.map_none, eq_comm, Option.map_eq_none_iff] at hmap
    exact hinv.publisher id hmap

theorem keeps_request (hq : c.requests id = some q) (hconst : q'.constant = q.constant) :
    Keeps c { c with requests := update c.requests id (some q') } := by
  refine ⟨rfl, rfl, rfl, fun j => ?_, fun _ => rfl, fun n a a' ha ha' hdisp => ?_⟩
  · by_cases hj : j = id
    · subst hj
      dsimp only
      rw [update_self, hq, Option.map_some, Option.map_some, hconst]
    · dsimp only
      rw [update_of_ne hj]
  · obtain rfl := Option.some.inj (ha.symm.trans ha')
    exact hdisp

theorem keeps_subscription (ha : c.subscriptions n = some a) (hreq : a'.request = a.request)
    (hdisp : a.disposed = true → a'.disposed = true) : Keeps c { c with subscriptions := update c.subscriptions n (some a') } := by
  refine ⟨rfl, rfl, rfl, fun _ => rfl, fun m => ?_, fun m b b' hb hb' hdisp' => ?_⟩
  · by_cases hm : m = n
    · subst hm
      dsimp only
      rw [update_self, ha, Option.map_some, Option.map_some, hreq]
    · dsimp only
      rw [update_of_ne hm]
  · dsimp only at hb'
    by_cases hm : m = n
    · subst hm
      rw [update_self] at hb'
      obtain rfl := Option.some.inj (ha.symm.trans hb)
      obtain rfl := Option.some.inj hb'
      exact hdisp hdisp'
    · rw [update_of_ne hm] at hb'
      obtain rfl := Option.some.inj (hb.symm.trans hb')
      exact hdisp'

theorem Keeps.trans {c'' : Client} (h : Keeps c c') (h' : Keeps c' c'') : Keeps c c'' := by
  refine ⟨h'.serverId.trans h.serverId, h'.requestSequence.trans h.requestSequence,
    h'.serviceSubscriptionSequence.trans h.serviceSubscriptionSequence, fun id => (h'.requests id).trans (h.requests id),
    fun n => (h'.subscriptions n).trans (h.subscriptions n), fun n a a'' ha ha'' hdisp => ?_⟩
  obtain ⟨a', ha', -⟩ := h.subscription ha
  exact h'.disposed n a' a'' ha' ha'' (h.disposed n a a' ha ha' hdisp)

/-- The client changes, and maybe takes a message or sends that something is cancelled. -/
structure Locally (w w' : World) : Prop where
  keeps : Keeps w.client w'.client
  server : w'.server = w.server
  feeds : w'.feeds = w.feeds
  transcript : w'.transcript = w.transcript
  connected : w'.client.connected = true
  toServer : w'.toServer = w.toServer ∨ ∃ id target, w'.toServer = w.toServer ++ [.cancel id target]
  toClient : w'.toClient = w.toClient ∨ ∃ m, w.toClient = m :: w'.toClient

theorem Locally.toServer_cases (h : Locally w w') :
    ∀ m ∈ w'.toServer, m ∈ w.toServer ∨ ∃ id target, m = .cancel id target := by
  intro m hm
  rcases h.toServer with heq | ⟨id, target, heq⟩
  · exact .inl (heq ▸ hm)
  · rw [heq, mem_append, mem_singleton] at hm
    exact hm.imp_right fun heq => ⟨id, target, heq⟩

theorem Locally.ending (h : Locally w w') (hn : w.Ending n) : w'.Ending n := by
  refine ending_mono hn (fun j target hmem => .inl ?_) fun j hj hcall _ => ⟨hj, ?_, rfl⟩
  · rcases h.toServer with heq | ⟨_, _, heq⟩
    · exact heq ▸ hmem
    · rw [heq]
      exact mem_append_left _ hmem
  · rw [World.calling, h.server]
    exact hcall

theorem Locally.asked (h : Locally w w') (id : Nat) : (w'.tally id).asked = (w.tally id).asked := by
  have hcount : w'.toServer.countP (isRequest id) = w.toServer.countP (isRequest id) := by
    rcases h.toServer with heq | ⟨_, _, heq⟩
    · rw [heq]
    · rw [heq, countP_append]
      rfl
  simp only [World.tally, World.calling, hcount, h.server]

theorem Locally.tally (h : Locally w w') (id : Nat) :
    w'.tally id = { w.tally id with arriving := w'.toClient.countP (isResponse id), request := w'.client.requests id } := by
  have hasked := h.asked id
  simp only [World.tally] at hasked ⊢
  rw [hasked, h.transcript]

theorem Locally.view (h : Locally w w') (n : Nat) (a : Active) : w'.view n a = { w.view n a with
      request := w'.client.requests a.request, items := w'.toClient.filterMap (item n a.request) } := by
  simp only [World.view, World.draining, h.server, h.feeds]

theorem Locally.inv (h : Locally w w') (hinv : Inv w) (htally : ∀ id, (w.tally id).Step (w'.tally id))
    (hphase : ∀ n a, w'.client.subscriptions n = some a →
      Phase { w.view n a with request := w'.client.requests a.request, items := w'.toClient.filterMap (item n a.request) } (w.Ending n)) : Inv w' := by
  refine hinv.client h.keeps h.server h.feeds h.connected h.toServer_cases (fun m hm => ?_) htally fun n a ha => ?_
  · rcases h.toClient with heq | ⟨m', heq⟩
    · exact heq ▸ hm
    · rw [heq]
      exact mem_cons_of_mem _ hm
  · rw [h.view]
    exact (hphase n a ha).mono h.ending

theorem view_active (h : a'.request = a.request) : w.view n a' = { w.view n a with active := a' } := by
  simp only [World.view, World.draining, h]

/-- A subscription changes on the side of the client. -/
theorem Inv.subscription (hinv : Inv w) (ha : w.client.subscriptions n = some a) (hreq : a'.request = a.request)
    (hdisp : a.disposed = true → a'.disposed = true) (hphase : Phase { w.view n a with active := a' } (w.Ending n)) :
    Inv { w with client := { w.client with subscriptions := update w.client.subscriptions n (some a') } } := by
  have hlocal : Locally w { w with client := { w.client with subscriptions := update w.client.subscriptions n (some a') } } :=
    ⟨keeps_subscription ha hreq hdisp, rfl, rfl, rfl, hinv.connected, .inl rfl, .inl rfl⟩
  refine hlocal.inv hinv (fun id => .same) fun m b hb => ?_
  dsimp only at hb
  by_cases hm : m = n
  · subst hm
    rw [update_self] at hb
    obtain rfl := Option.some.inj hb
    rw [view_active hreq, hreq]
    exact hphase
  · rw [update_of_ne hm] at hb
    exact hinv.phase m b hb

theorem Inv.start (hinv : Inv w) (n : Nat) : Inv { w with client := w.client.start n } := by
  unfold Client.start
  split
  · rename_i a ha
    split
    · rename_i hguard
      simp only [Bool.and_eq_true, Bool.not_eq_true'] at hguard
      exact hinv.subscription ha rfl id ((hinv.phase n a ha).start hguard.1.1 hguard.1.2)
    · exact hinv
  · exact hinv

theorem Inv.deliver (hinv : Inv w) (n : Nat) : Inv { w with client := w.client.deliver n } := by
  unfold Client.deliver
  split
  · rename_i a ha
    split
    · rename_i u rest htail
      exact hinv.subscription ha rfl id ((hinv.phase n a ha).deliver htail)
    · exact hinv
  · exact hinv

/-- A request changes on the side of the client, and with it the view of the subscription it asks for. -/
theorem Inv.request_step (hinv : Inv w) (hq : w.client.requests id = some q)
    (hlocal : Locally w w') (hreqs : w'.client.requests = update w.client.requests id (some q'))
    (htally : (w.tally id).Step (w'.tally id)) (harriving : ∀ j, j ≠ id → w'.toClient.countP (isResponse j) = w.toClient.countP (isResponse j))
    (hself : ∀ n a', w'.client.subscriptions n = some a' → a'.request = id → q.subscribes = some n →
      Phase { w.view n a' with request := some q', items := w'.toClient.filterMap (item n id) } (w.Ending n))
    (hothers : ∀ n a', w'.client.subscriptions n = some a' → a'.request ≠ id → w.client.subscriptions n = some a' ∧
      w'.toClient.filterMap (item n a'.request) = w.toClient.filterMap (item n a'.request)) : Inv w' := by
  refine hlocal.inv hinv (fun j => ?_) fun n a' ha' => ?_
  · by_cases hj : j = id
    · exact hj ▸ htally
    · have heq : w'.tally j = w.tally j := by
        rw [hlocal.tally, harriving j hj, hreqs, update_of_ne hj]
        rfl
      rw [heq]
      exact .same
  · by_cases hreq : a'.request = id
    · obtain ⟨a, ha, hreq'⟩ := hlocal.keeps.symm_subscription ha'
      have hsubs : q.subscribes = some n := by
        obtain ⟨q₁, _, _, hq₁, hn, -⟩ := (hinv.owned n a ha).request
        rw [hreq', hreq] at hq₁
        obtain rfl := Option.some.inj (hq.symm.trans hq₁)
        exact hn
      rw [hreq, hreqs, update_self]
      exact hself n a' ha' hreq hsubs
    · obtain ⟨ha, hitems⟩ := hothers n a' ha' hreq
      rw [hitems, hreqs, update_of_ne hreq]
      exact hinv.phase n a' ha

theorem settle_isSome (q : Request) (s : Settlement) : (q.settle s).settled.isSome := by
  rw [Request.settle]
  cases q.settled <;> rfl

theorem settle_snapshot {s : Settlement} (hs : ∀ snapshot, s ≠ .snapshot snapshot) (snapshot : SubscriptionSnapshot Op)
    (h : (q.settle s).settled = some (.snapshot snapshot)) : q.settled = some (.snapshot snapshot) := by
  rw [Request.settle] at h
  cases hq : q.settled with
  | none =>
    rw [hq] at h
    exact absurd (Option.some.inj h) (hs snapshot)
  | some s' =>
    rw [hq] at h
    exact h

theorem settle_ne_none (s : Settlement) : (q.settle s).settled ≠ none := by
  intro h
  have := settle_isSome q s
  rw [h] at this
  cases this

theorem Inv.abort (hinv : Inv w) (hallowed : ∀ q n, w.client.requests id = some q → q.subscribes = some n →
    w.server.serviceStateEncoders (.service n) = none) : Inv (w.sends (w.client.abort id)) := by
  have hsame : Inv (w.sends (w.client, [])) := by
    rw [World.sends, append_nil]
    exact hinv
  unfold Client.abort
  split
  · rename_i q hq
    split
    · rename_i hguard
      simp only [Bool.and_eq_true] at hguard
      rw [if_pos hinv.connected]
      have hlocal : Locally w (w.sends ({ w.client with requests := update w.client.requests id (some (q.settle .aborted)) }, [.cancel id q.target])) :=
        ⟨keeps_request hq rfl, rfl, rfl, rfl, hinv.connected, .inr ⟨id, q.target, rfl⟩, .inl rfl⟩
      refine hinv.request_step hq hlocal rfl ?_ (fun _ _ => rfl) (fun n a ha hreq hn => ?_) fun n a ha _ => ⟨ha, rfl⟩
      · rw [hlocal.tally]
        dsimp only [World.sends]
        rw [update_self]
        exact .touch hq rfl fun _ => settle_isSome _ _
      · subst hreq
        exact (hinv.phase n a ha).settle hq hguard.1.1 (.inl (hallowed q n hq hn))
          (settle_snapshot fun _ h => by cases h) fun h => absurd h (settle_ne_none _)
    · exact hsame
  · exact hsame

theorem Inv.resume (hinv : Inv w) (id : Nat) : Inv { w with client := w.client.resume id } := by
  unfold Client.resume
  split
  · rename_i q hq
    split
    · rename_i s n hsettled hsubs hresumed
      obtain ⟨a, ha, hreq⟩ := (hinv.request id q hq).subscribes n hsubs
      dsimp only
      rw [ha]
      have hresumedRequest : (resumed a s).request = a.request := by cases s <;> rfl
      have hresumedDisposed : (resumed a s).disposed = a.disposed := by cases s <;> rfl
      have hlocal : Locally w { w with client := { w.client with
          requests := update w.client.requests id (some { q with resumed := true })
          subscriptions := update w.client.subscriptions n (some (resumed a s)) } } := by
        have hkeeps : Keeps w.client { w.client with requests := update w.client.requests id (some { q with resumed := true }) } := keeps_request hq rfl
        refine ⟨hkeeps.trans (keeps_subscription ha hresumedRequest fun h => hresumedDisposed.trans h), rfl, rfl, rfl, hinv.connected,
          .inl rfl, .inl rfl⟩
      refine hinv.request_step hq hlocal rfl ?_ (fun _ _ => rfl) (fun m b hb hbrequest hm => ?_) fun m b hb hbrequest => ⟨?_, rfl⟩
      · rw [hlocal.tally]
        dsimp only
        rw [update_self]
        exact .touch hq rfl fun hs => hs
      · obtain rfl := Option.some.inj (hsubs.symm.trans hm)
        dsimp only at hb
        rw [update_self] at hb
        obtain rfl := Option.some.inj hb
        rw [view_active hresumedRequest]
        subst hreq
        exact (hinv.phase n a ha).resume hq hsettled
      · dsimp only at hb
        by_cases hm : m = n
        · subst hm
          rw [update_self] at hb
          obtain rfl := Option.some.inj hb
          exact absurd (hresumedRequest.trans hreq) hbrequest
        · rw [update_of_ne hm] at hb
          exact hb
    · exact hinv
  · exact hinv

variable {rest : List ServerMessage} {result : Except ProtocolError WireResult}

/-- A response arrives for a request that is pending, and it is the only one. -/
theorem Inv.arriving (hinv : Inv w) (hto : w.toClient = .response id result :: rest) :
    ∃ q, w.client.requests id = some q ∧ q.pending = true ∧ rest.countP (isResponse id) = 0 := by
  have hcount : w.toClient.countP (isResponse id) = rest.countP (isResponse id) + 1 := by
    rw [hto, countP_cons_of_pos (by simp [isResponse])]
  have htally := hinv.tally id
  unfold Tally.Ok at htally
  dsimp only [World.tally] at htally
  split at htally
  · omega
  · rename_i q hq
    obtain ⟨-, hpending, -⟩ := htally
    have hle := Bool.toNat_le q.pending
    refine ⟨q, hq, ?_, by omega⟩
    cases hp : q.pending with
    | true => rfl
    | false =>
      rw [hp] at hpending
      dsimp only [Bool.toNat_false] at hpending
      omega

/-- The client takes a response, and maybe changes the subscription that was asked for. -/
theorem Inv.respond_client (hinv : Inv w)
    (hto : w.toClient = .response id result :: rest) (hq : w.client.requests id = some q) (hkeeps : Keeps w.client c)
    (hconn : c.connected = true) (hreqs : c.requests = update w.client.requests id (some q')) (hpending : q'.pending = false)
    (hsettled : q'.settled.isSome)
    (hself : ∀ n a', c.subscriptions n = some a' → a'.request = id → q.subscribes = some n →
      Phase { w.view n a' with request := some q', items := rest.filterMap (item n id) } (w.Ending n))
    (hothers : ∀ n a', c.subscriptions n = some a' → a'.request ≠ id → w.client.subscriptions n = some a') :
    Inv { w with toClient := rest, client := c } := by
  have hlocal : Locally w { w with toClient := rest, client := c } :=
    ⟨hkeeps, rfl, rfl, rfl, hconn, .inl rfl, .inr ⟨_, hto⟩⟩
  have hcount : w.toClient.countP (isResponse id) = rest.countP (isResponse id) + 1 := by
    rw [hto, countP_cons_of_pos (by simp [isResponse])]
  refine hinv.request_step hq hlocal hreqs ?_ (fun j hj => ?_) hself fun n a' ha' hreq => ⟨hothers n a' ha' hreq, ?_⟩
  · rw [hlocal.tally]
    rw [hreqs, update_self]
    exact .receive hcount hq hpending hsettled
  · rw [hto, countP_cons_of_neg (by rw [isResponse, decide_eq_true_iff]; exact fun heq => hj heq.symm)]
  · rw [hto, filterMap_cons_none (item_response hreq)]

theorem resolve_plain {result : WireResult} (h : q.subscribes = none) :
    c.resolve id q result = { c with requests := update c.requests id (some ({ q with pending := false }.settle (.resolved result))) } := by
  unfold Client.resolve
  split
  · rfl
  · rename_i n hn
    rw [h] at hn
    cases hn

theorem resolve_snapshot {result : WireResult} {snapshot : SubscriptionSnapshot Op} (h : q.subscribes = some n) (ha : c.subscriptions n = some a)
    (hhydrate : Client.hydrate a result = .ok (a', snapshot)) :
    c.resolve id q result =
      { c with
        requests := update c.requests id (some ({ q with pending := false }.settle (.snapshot snapshot)))
        subscriptions := update c.subscriptions n (some a') } := by
  unfold Client.resolve
  split
  · rename_i hnone
    rw [h] at hnone
    cases hnone
  · rename_i m hm
    obtain rfl := Option.some.inj (h.symm.trans hm)
    rw [ha]
    dsimp only
    rw [hhydrate]

theorem Inv.response (hinv : Inv w) (hto : w.toClient = .response id result :: rest) :
    Inv { w with toClient := rest, client := w.client.handleMessage (.response id result) } := by
  obtain ⟨q, hq, hpending, hrest⟩ := hinv.arriving hto
  have hplain : ∀ s, (∀ snapshot, s ≠ .snapshot snapshot) → (q.subscribes = none ∨ ∀ wire, result ≠ .ok (.snapshot wire)) →
      Inv { w with
        toClient := rest
        client := { w.client with requests := update w.client.requests id (some ({ q with pending := false }.settle s)) } } := by
    intro s hs hres
    refine hinv.respond_client hto hq (keeps_request hq rfl) hinv.connected rfl rfl (settle_isSome _ _) (fun n a ha hreq hn => ?_)
      fun n a ha _ => ha
    rcases hres with hnone | hres
    · rw [hnone] at hn
      cases hn
    · have hitem : item n id (.response id result) = none := by
        match result, hres with
        | .error _, _ | .ok (.value _), _ => rfl
        | .ok (.snapshot wire), h => exact absurd rfl (h wire)
      have hitems : (w.view n a).items = rest.filterMap (item n id) := by
        rw [World.view, hto, hreq, filterMap_cons_none hitem]
      rw [← hitems]
      subst hreq
      refine (hinv.phase n a ha).settle hq hpending (.inr fun wire hwire => ?_) (settle_snapshot hs) fun h => absurd h (settle_ne_none _)
      have hpos := arriving_of_snapshot (hitems ▸ hwire)
      omega
  have hopen : (!q.pending) = false := by rw [hpending]; rfl
  rw [Client.handleMessage, hq]
  dsimp only
  rw [hopen, if_neg Bool.false_ne_true]
  cases result with
  | error error => exact hplain _ (fun _ h => by cases h) (.inr fun _ h => by cases h)
  | ok result =>
    have hok := hinv.toClient _ (hto ▸ mem_cons_self)
    dsimp only
    cases hsubs : q.subscribes with
    | none =>
      rw [resolve_plain hsubs]
      exact hplain (.resolved result) (fun _ h => by cases h) (.inl hsubs)
    | some n =>
      obtain ⟨a, ha, hreq⟩ := (hinv.request id q hq).subscribes n hsubs
      cases result with
      | value value =>
        have hnone := hok q hq
        rw [hsubs] at hnone
        cases hnone
      | snapshot wire =>
        have hitems : (w.view n a).items = .snapshot wire :: rest.filterMap (item n id) := by
          have hitem : item n id (.response id (.ok (.snapshot wire))) = some (.snapshot wire) := if_pos rfl
          rw [World.view, hto, hreq, filterMap_cons_some hitem]
        obtain ⟨a', snapshot, hhydrate, hreq', hphase⟩ := (hinv.phase n a ha).hydrate hitems (hreq ▸ hq)
        have hdisp := (hinv.phase n a ha).hydrate_disposed hitems
        have hkeeps : Keeps w.client
            { w.client with requests := update w.client.requests id (some ({ q with pending := false }.settle (.snapshot snapshot))) } :=
          keeps_request hq rfl
        rw [resolve_snapshot hsubs ha hhydrate]
        refine hinv.respond_client hto hq (hkeeps.trans ?_) hinv.connected rfl rfl (settle_isSome _ _) (fun m b hb hbrequest hm => ?_)
          fun m b hb hbrequest => ?_
        · exact keeps_subscription ha hreq' fun h => absurd h hdisp
        · obtain rfl := Option.some.inj (hsubs.symm.trans hm)
          dsimp only at hb
          rw [update_self] at hb
          obtain rfl := Option.some.inj hb
          rw [view_active hreq']
          exact hphase
        · dsimp only at hb
          by_cases hm : m = n
          · subst hm
            rw [update_self] at hb
            obtain rfl := Option.some.inj hb
            exact absurd (hreq'.trans hreq) hbrequest
          · rw [update_of_ne hm] at hb
            exact hb

/-- The client takes a message that is not a response. -/
theorem Inv.take_message (hinv : Inv w) (hto : w.toClient = m :: rest)
    (hm : ∀ j, isResponse j m = false) (hkeeps : Keeps w.client c) (hconn : c.connected = true) (hreqs : c.requests = w.client.requests)
    (hphase : ∀ n a, c.subscriptions n = some a → Phase { w.view n a with items := rest.filterMap (item n a.request) } (w.Ending n)) :
    Inv { w with toClient := rest, client := c } := by
  have hlocal : Locally w { w with toClient := rest, client := c } :=
    ⟨hkeeps, rfl, rfl, rfl, hconn, .inl rfl, .inr ⟨_, hto⟩⟩
  have harriving : ∀ j, rest.countP (isResponse j) = w.toClient.countP (isResponse j) := by
    intro j
    rw [hto, countP_cons_of_neg (by rw [hm j]; exact Bool.false_ne_true)]
  refine hlocal.inv hinv (fun j => ?_) fun n a ha => ?_
  · rw [hlocal.tally]
    rw [harriving, hreqs]
    exact .same
  · dsimp only
    rw [hreqs]
    exact hphase n a ha

theorem Inv.attachment (hinv : Inv w) {target : Option RpcTarget} (hto : w.toClient = .attachment target :: rest) :
    Inv { w with toClient := rest, client := w.client.handleMessage (.attachment target) } := by
  have hphase : ∀ n a, w.client.subscriptions n = some a → Phase { w.view n a with items := rest.filterMap (item n a.request) } (w.Ending n) := by
    intro n a ha
    have hitems : rest.filterMap (item n a.request) = (w.view n a).items := by
      rw [World.view, hto, filterMap_cons_none rfl]
    rw [hitems]
    exact hinv.phase n a ha
  have hkeeps : ∀ attachment, Keeps w.client { w.client with attachment := attachment } := fun _ =>
    ⟨rfl, rfl, rfl, fun _ => rfl, fun _ => rfl, fun n a a' ha ha' hdisp => Option.some.inj (ha.symm.trans ha') ▸ hdisp⟩
  cases target with
  | none => exact hinv.take_message hto (fun _ => rfl) (hkeeps none) hinv.connected rfl hphase
  | some target =>
    have hsrv : target.serverId = w.client.serverId := hinv.toClient (.attachment (some target)) (hto ▸ mem_cons_self)
    rw [Client.handleMessage, if_pos hsrv]
    exact hinv.take_message hto (fun _ => rfl) (hkeeps target.session) hinv.connected rfl hphase

theorem Inv.serviceUpdate (hinv : Inv w) {s : SubscriptionId} {wire : Update WireOp}
    (hto : w.toClient = .serviceUpdate s wire :: rest) :
    Inv { w with toClient := rest, client := w.client.handleMessage (.serviceUpdate s wire) } := by
  obtain ⟨n, a, rfl, ha⟩ := hinv.toClient (.serviceUpdate s wire) (hto ▸ mem_cons_self)
  have hitems : ∀ b : Active, (w.view n b).items = .update wire :: rest.filterMap (item n b.request) := by
    intro b
    have hitem : item n b.request (.serviceUpdate (.service n) wire) = some (.update wire) := if_pos rfl
    rw [World.view, hto, filterMap_cons_some hitem]
  have hother : ∀ m b, m ≠ n → w.client.subscriptions m = some b →
      Phase { w.view m b with items := rest.filterMap (item m b.request) } (w.Ending m) := by
    intro m b hm hb
    have heq : rest.filterMap (item m b.request) = (w.view m b).items := by
      rw [World.view, hto, filterMap_cons_none (item_serviceUpdate hm)]
    rw [heq]
    exact hinv.phase m b hb
  have hsame : Keeps w.client w.client :=
    ⟨rfl, rfl, rfl, fun _ => rfl, fun _ => rfl, fun n a a' ha ha' hdisp => Option.some.inj (ha.symm.trans ha') ▸ hdisp⟩
  rw [Client.handleMessage, ha]
  dsimp only
  rcases (hinv.phase n a ha).read (hitems a) with ⟨hlist, hphase⟩ | ⟨hlist, hhydrated, d, u, hdec, hphase⟩
  · have hnot : (!a.listed) = true := by rw [show a.listed = false from hlist]; rfl
    rw [if_pos hnot]
    refine hinv.take_message hto (fun _ => rfl) hsame hinv.connected rfl fun m b hb => ?_
    by_cases hm : m = n
    · subst hm
      obtain rfl := Option.some.inj (ha.symm.trans hb)
      exact hphase
    · exact hother m b hm hb
  · have hyes : (!a.listed) = false := by rw [show a.listed = true from hlist]; rfl
    have hhydrated' : (!a.hydrated) = false := by rw [show a.hydrated = true from hhydrated]; rfl
    have hreq : (receiveUpdate { a with decoder := d } u).request = a.request := by unfold receiveUpdate; split <;> rfl
    have hdisp : (receiveUpdate { a with decoder := d } u).disposed = a.disposed := by unfold receiveUpdate; split <;> rfl
    rw [hyes, if_neg Bool.false_ne_true, hhydrated', if_neg Bool.false_ne_true, show decodeUpdate a.decoder wire = .ok (d, u) from hdec]
    refine hinv.take_message hto (fun _ => rfl) (keeps_subscription ha hreq fun h => hdisp.trans h) hinv.connected rfl fun m b hb => ?_
    dsimp only at hb
    by_cases hm : m = n
    · subst hm
      rw [update_self] at hb
      obtain rfl := Option.some.inj hb
      rw [view_active hreq, hreq]
      exact hphase
    · rw [update_of_ne hm] at hb
      exact hother m b hm hb

theorem Inv.clientReceives (hinv : Inv w) (hto : w.toClient = m :: rest) :
    Inv { w with toClient := rest, client := w.client.handleMessage m } := by
  cases m with
  | response id result => exact hinv.response hto
  | serviceUpdate s wire => exact hinv.serviceUpdate hto
  | attachment target => exact hinv.attachment hto

/-- The client sends a request with a new number. -/
structure Sends (w w' : World) (q : Request) : Prop where
  server : w'.server = w.server
  feeds : w'.feeds = w.feeds
  transcript : w'.transcript = w.transcript
  toClient : w'.toClient = w.toClient
  toServer : w'.toServer = w.toServer ++ [.request w'.client.requestSequence q.target q.call]
  connected : w'.client.connected = true
  serverId : w'.client.serverId = w.client.serverId
  requestSequence : w'.client.requestSequence = w.client.requestSequence + 1
  requests : w'.client.requests = update w.client.requests w'.client.requestSequence (some q)
  pending : q.pending = true
  call : CallOk w'.client q q.call
  subscribes : ∀ n, q.subscribes = some n → ∃ a, w'.client.subscriptions n = some a ∧ a.request = w'.client.requestSequence
  bound : w.client.serviceSubscriptionSequence ≤ w'.client.serviceSubscriptionSequence
  old : ∀ n a, w.client.subscriptions n = some a → ∃ a', w'.client.subscriptions n = some a' ∧ a'.request = a.request ∧
    (a.disposed = true → a'.disposed = true)
  new : ∀ n a', w'.client.subscriptions n = some a' → (∃ a, w.client.subscriptions n = some a ∧ a.request = a'.request) ∨
    Owned w'.client n a'

theorem Sends.fresh (h : Sends w w' q) (hinv : Inv w) : w.client.requests w'.client.requestSequence = none := by
  cases hq : w.client.requests w'.client.requestSequence with
  | none => rfl
  | some q' =>
    have hbound := (hinv.request _ q' hq).bound
    rw [h.requestSequence] at hbound
    omega

theorem Sends.old_request (h : Sends w w' q) (hinv : Inv w) (hq : w.client.requests id = some q') :
    w'.client.requests id = some q' ∧ id ≠ w'.client.requestSequence := by
  have hne : id ≠ w'.client.requestSequence := by
    rintro rfl
    rw [h.fresh hinv] at hq
    cases hq
  rw [h.requests, update_of_ne hne]
  exact ⟨hq, hne⟩

theorem Sends.calling (h : Sends w w' q) (id : Nat) : w'.calling id = w.calling id := by
  rw [World.calling, h.server]
  rfl

theorem Sends.ending (h : Sends w w' q) (hn : w.Ending n) : w'.Ending n := by
  refine ending_mono hn (fun j target hmem => .inl ?_) fun j h' hj _ => ⟨h', h.calling j ▸ hj, rfl⟩
  rw [h.toServer]
  exact mem_append_left _ hmem

/-- What was known of the subscriptions before. -/
theorem Sends.view (h : Sends w w' q) (hinv : Inv w) (ha : w.client.subscriptions n = some a) : w'.view n a = w.view n a := by
  obtain ⟨q', _, _, hq', -⟩ := (hinv.owned n a ha).request
  have hreq : w'.client.requests a.request = w.client.requests a.request := by
    rw [(h.old_request hinv hq').1, hq']
  simp only [World.view, World.draining, h.server, h.feeds, h.toClient, hreq]

theorem Sends.tally (h : Sends w w' q) (hinv : Inv w) (id : Nat) : (w.tally id).Step (w'.tally id) := by
  by_cases hid : id = w'.client.requestSequence
  · have hnone := h.fresh hinv
    have heq : w'.tally id = { w.tally id with asked := (w.tally id).asked + 1, request := some q } := by
      subst hid
      simp only [World.tally, h.calling, h.toServer, h.toClient, h.transcript, countP_append]
      rw [h.requests, update_self]
      simp [isRequest]
      omega
    rw [heq]
    exact .send (hid ▸ hnone) h.pending
  · have hcount : countP (isRequest id) [.request w'.client.requestSequence q.target q.call] = 0 := by
      rw [countP_cons_of_neg (by rw [isRequest, decide_eq_true_iff]; exact fun heq => hid heq.symm)]
      rfl
    have heq : w'.tally id = w.tally id := by
      simp only [World.tally, h.calling, h.toServer, h.toClient, h.transcript, countP_append, hcount]
      rw [h.requests, update_of_ne hid]
      rfl
    rw [heq]
    exact .same

theorem Sends.inv (h : Sends w w' q) (hinv : Inv w) (hphase : ∀ n a, w'.client.subscriptions n = some a → Phase (w'.view n a) (w'.Ending n)) :
    Inv w' where
  connected := h.connected
  disconnected := h.server ▸ hinv.disconnected
  serverId := by rw [h.serverId, h.server, hinv.serverId]
  tally id := (h.tally hinv id).ok (hinv.tally id)
  request id q' hq' := by
    by_cases hid : id = w'.client.requestSequence
    · rw [h.requests, hid, update_self] at hq'
      obtain rfl := Option.some.inj hq'
      exact ⟨hid.le, h.call, hid ▸ h.subscribes⟩
    · rw [h.requests, update_of_ne hid] at hq'
      obtain ⟨hbound, hcall, hsubs⟩ := hinv.request id q' hq'
      refine ⟨by rw [h.requestSequence]; omega, ?_, fun n hn => ?_⟩
      · cases hc : q'.call with
        | subscribe | invoke => rw [hc] at hcall; exact hcall
        | unsubscribe s =>
          rw [hc] at hcall
          obtain ⟨hnone, hsrv, n, a, rfl, ha, hdisp⟩ := hcall
          obtain ⟨a', ha', -, hdisp'⟩ := h.old n a ha
          exact ⟨hnone, hsrv.trans h.serverId.symm, n, a', rfl, ha', hdisp' hdisp⟩
      · obtain ⟨a, ha, hreq⟩ := hsubs n hn
        obtain ⟨a', ha', hreq', -⟩ := h.old n a ha
        exact ⟨a', ha', hreq'.trans hreq⟩
  owned n a' ha' := by
    rcases h.new n a' ha' with ⟨a, ha, hreq⟩ | howned
    · obtain ⟨hbound, q', serviceId, mode, hq', hsubs, hcall⟩ := hinv.owned n a ha
      exact ⟨hbound.trans h.bound, q', serviceId, mode, hreq ▸ (h.old_request hinv hq').1, hsubs, hcall⟩
    · exact howned
  phase := hphase
  toServer m hm := by
    rw [h.toServer, mem_append, mem_singleton] at hm
    rcases hm with hm | rfl
    · have hok := hinv.toServer m hm
      cases m with
      | cancel id target => trivial
      | request id target call =>
        obtain ⟨hactive, hfeed, q', hq', htgt, hcall⟩ := hok
        exact ⟨h.server ▸ hactive, h.feeds ▸ hfeed, q', (h.old_request hinv hq').1, htgt, hcall⟩
    · refine ⟨?_, ?_, q, by rw [h.requests, update_self], rfl, rfl⟩
      · rw [h.server]
        cases hactive : w.server.activeRequests w'.client.requestSequence with
        | none => rfl
        | some h' =>
          obtain ⟨q', hq', -⟩ := hinv.active _ h' hactive
          rw [h.fresh hinv] at hq'
          cases hq'
      · rw [h.feeds]
        cases hfeed : w.feeds w'.client.requestSequence with
        | none => rfl
        | some f =>
          obtain ⟨q', hq', -⟩ := (hinv.feed _ f hfeed).request
          rw [h.fresh hinv] at hq'
          cases hq'
  toClient m hm := by
    have hok := hinv.toClient m (h.toClient ▸ hm)
    match m, hok with
    | .response id (.ok (.value value)), hok =>
      have hpos : 0 < w.toClient.countP (isResponse id) :=
        countP_pos_iff.mpr ⟨.response id (.ok (.value value)), h.toClient ▸ hm, by simp [isResponse]⟩
      intro q' hq'
      by_cases hid : id = w'.client.requestSequence
      · have htally := hinv.tally id
        rw [hid] at htally hpos
        simp only [Tally.Ok, World.tally, h.fresh hinv] at htally
        omega
      · rw [h.requests, update_of_ne hid] at hq'
        exact hok q' hq'
    | .response _ (.ok (.snapshot _)), _ | .response _ (.error _), _ => trivial
    | .serviceUpdate s _, ⟨n, a, hs, ha⟩ =>
      obtain ⟨a', ha', -⟩ := h.old n a ha
      exact ⟨n, a', hs, ha'⟩
    | .attachment none, _ => trivial
    | .attachment (some target), hok => exact hok.trans h.serverId.symm
  active id h' hh' := by
    obtain ⟨q', hq', hcall⟩ := hinv.active id h' (h.server ▸ hh')
    exact ⟨q', (h.old_request hinv hq').1, hcall⟩
  feed id f hf := by
    obtain ⟨hsend, q', hq', hsub⟩ := hinv.feed id f (h.feeds ▸ hf)
    exact ⟨hsend, q', (h.old_request hinv hq').1, hsub⟩
  encoder s e he := by
    obtain ⟨n, a, hs, ha⟩ := hinv.encoder s e (h.server ▸ he)
    obtain ⟨a', ha', -⟩ := h.old n a ha
    exact ⟨n, a', hs, ha'⟩
  publisher id hid := by
    have hne : id ≠ w'.client.requestSequence := by
      rintro rfl
      rw [h.requests, update_self] at hid
      cases hid
    rw [h.requests, update_of_ne hne] at hid
    rw [h.server]
    exact hinv.publisher id hid

theorem request_eq (h : c.connected = true) (target : RpcTarget) (call : ServiceCall) (subscribes : Option Nat) (signal : Bool) :
    c.request target call subscribes signal =
      ({ c with
        requestSequence := c.requestSequence + 1
        requests := update c.requests (c.requestSequence + 1) (some { target, call, subscribes, signal }) },
        [.request (c.requestSequence + 1) target call]) := if_pos h

theorem Inv.request_sent (hinv : Inv w) (target : RpcTarget) (call : Json) : Inv (w.sends (w.client.request target (.invoke call) none true)) := by
  rw [request_eq hinv.connected]
  have hsends : Sends w
      (w.sends ({ w.client with
        requestSequence := w.client.requestSequence + 1
        requests := update w.client.requests (w.client.requestSequence + 1) (some { target, call := .invoke call, signal := true }) },
        [.request (w.client.requestSequence + 1) target (.invoke call)])) { target, call := .invoke call, signal := true } :=
    { server := rfl, feeds := rfl, transcript := rfl, toClient := rfl, toServer := rfl, connected := hinv.connected, serverId := rfl,
      requestSequence := rfl, requests := rfl, pending := rfl, call := rfl,
      subscribes := fun n hn => (by cases hn), bound := le_rfl, old := fun n a ha => ⟨a, ha, rfl, id⟩, new := fun n a ha => .inl ⟨a, ha, rfl⟩ }
  refine hsends.inv hinv fun n a ha => ?_
  rw [hsends.view hinv ha]
  exact (hinv.phase n a ha).mono hsends.ending

theorem Inv.subscribe_sent (hinv : Inv w) (target : RpcTarget) (serviceId : Nat) (mode : ServiceMode) :
    Inv (w.sends (w.client.subscribeService target serviceId mode)) := by
  obtain ⟨n, hn⟩ : ∃ n, n = w.client.serviceSubscriptionSequence + 1 := ⟨_, rfl⟩
  obtain ⟨active, hactive⟩ : ∃ active : Active, active = { target, request := w.client.requestSequence + 1 } := ⟨_, rfl⟩
  obtain ⟨q, hq⟩ : ∃ q : Request, q = { target, call := .subscribe (.service n) serviceId mode, subscribes := some n, signal := true } := ⟨_, rfl⟩
  have hsubscribe : w.client.subscribeService target serviceId mode =
      ({ w.client with
        serviceSubscriptionSequence := n
        subscriptions := update w.client.subscriptions n (some active)
        requestSequence := w.client.requestSequence + 1
        requests := update w.client.requests (w.client.requestSequence + 1) (some q) },
        [.request (w.client.requestSequence + 1) target (.subscribe (.service n) serviceId mode)]) := by
    rw [hn, hactive, hq, Client.subscribeService]
    rw [if_pos hinv.connected, hn]
    exact if_pos hinv.connected
  rw [hsubscribe]
  obtain ⟨w', hw⟩ : ∃ w', w' = w.sends ({ w.client with
        serviceSubscriptionSequence := n
        subscriptions := update w.client.subscriptions n (some active)
        requestSequence := w.client.requestSequence + 1
        requests := update w.client.requests (w.client.requestSequence + 1) (some q) },
        [.request (w.client.requestSequence + 1) target (.subscribe (.service n) serviceId mode)]) := ⟨_, rfl⟩
  rw [← hw]
  have hnone : w.client.subscriptions n = none := by
    cases ha : w.client.subscriptions n with
    | none => rfl
    | some a =>
      have hbound := (hinv.owned n a ha).bound
      omega
  have hfresh : w.client.requests (w.client.requestSequence + 1) = none := by
    cases hq' : w.client.requests (w.client.requestSequence + 1) with
    | none => rfl
    | some q' =>
      have hbound := (hinv.request _ q' hq').bound
      omega
  have hself : w'.client.subscriptions n = some active := by
    rw [hw]
    exact update_self _ _ _
  have hothers : ∀ m, m ≠ n → w'.client.subscriptions m = w.client.subscriptions m := by
    intro m hm
    rw [hw]
    exact update_of_ne hm _ _
  have hold : ∀ m a, w.client.subscriptions m = some a → w'.client.subscriptions m = some a := by
    intro m a ha
    rw [hothers m fun heq => by rw [heq, hnone] at ha; cases ha]
    exact ha
  have hreq : w'.client.requests active.request = some q := by
    rw [hw, hactive]
    exact update_self _ _ _
  have hsends : Sends w w' q := by
    refine
      { server := by rw [hw]; rfl, feeds := by rw [hw]; rfl, transcript := by rw [hw]; rfl, toClient := by rw [hw]; rfl,
        toServer := by rw [hw, hq]; rfl, connected := by rw [hw]; exact hinv.connected, serverId := by rw [hw]; rfl,
        requestSequence := by rw [hw]; rfl, requests := by rw [hw]; rfl, pending := by rw [hq], call := by rw [hq]; exact ⟨n, rfl, rfl⟩,
        subscribes := fun m hm => ?_, bound := by rw [hw, hn]; exact Nat.le_succ _, old := fun m a ha => ⟨a, hold m a ha, rfl, id⟩,
        new := fun m a ha => ?_ }
    · rw [hq] at hm
      obtain rfl := Option.some.inj hm
      refine ⟨active, hself, ?_⟩
      rw [hw, hactive]
      rfl
    · by_cases hm : m = n
      · subst hm
        obtain rfl := Option.some.inj (hself.symm.trans ha)
        refine .inr ⟨by rw [hw]; exact le_rfl, q, serviceId, mode, hreq, by rw [hq], by rw [hq]⟩
      · exact .inl ⟨a, hothers m hm ▸ ha, rfl⟩
  refine hsends.inv hinv fun m a ha => ?_
  by_cases hm : m = n
  · subst hm
    obtain rfl := Option.some.inj (hself.symm.trans ha)
    have hid : active.request = w.client.requestSequence + 1 := by rw [hactive]
    have hnoactive : w.server.activeRequests active.request = none := by
      cases hh : w.server.activeRequests active.request with
      | none => rfl
      | some h =>
        obtain ⟨q', hq', -⟩ := hinv.active _ h hh
        rw [hid, hfresh] at hq'
        cases hq'
    have hnofeed : w.feeds active.request = none := by
      cases hf : w.feeds active.request with
      | none => rfl
      | some f =>
        obtain ⟨q', hq', -⟩ := (hinv.feed _ f hf).request
        rw [hid, hfresh] at hq'
        cases hq'
    have hnoencoder : w.server.serviceStateEncoders (.service m) = none := by
      cases he : w.server.serviceStateEncoders (.service m) with
      | none => rfl
      | some e =>
        obtain ⟨m', a', hm', ha'⟩ := hinv.encoder _ e he
        obtain rfl := SubscriptionId.service.inj hm'
        rw [hnone] at ha'
        cases ha'
    have hnoitems : w.toClient.filterMap (item m active.request) = [] := by
      refine filterMap_eq_nil_iff.mpr fun message hmsg => ?_
      match message, hinv.toClient message hmsg, hmsg with
      | .serviceUpdate s wire, ⟨m', a', hs, ha'⟩, _ =>
        have hne : m ≠ m' := by
          rintro rfl
          rw [hnone] at ha'
          cases ha'
        rw [hs]
        exact item_serviceUpdate hne
      | .attachment _, _, _ => rfl
      | .response id result, _, hmsg =>
        refine item_response fun heq => ?_
        have hpos : 0 < w.toClient.countP (isResponse id) := countP_pos_iff.mpr ⟨_, hmsg, by simp [isResponse]⟩
        have htally := hinv.tally id
        rw [← heq, hid] at htally hpos
        simp only [Tally.Ok, World.tally, hfresh] at htally
        omega
    have hpubr := hinv.publisher active.request (hid ▸ hfresh)
    have hlis : Fresh active := by
      rw [hactive]
      exact ⟨rfl, rfl, rfl, rfl, rfl, rfl⟩
    have hlist : active.listed = true := by rw [hactive]
    refine .unanswered hlis ?_ ?_ ?_ ?_ (fun q' s hq' => ?_) fun q' hq' _ => hlist
    · rw [World.view, hsends.server]
      exact hnoencoder
    · rw [World.view, hsends.toClient]
      exact hnoitems
    · rw [World.view, World.draining, hsends.server, hnoactive]
      rfl
    · simp only [World.view]
      rw [hsends.server, hsends.feeds, hnofeed, hpubr]
      rfl
    · rw [World.view] at hq'
      obtain rfl := Option.some.inj (hreq.symm.trans hq')
      rw [hq]
      exact fun hfalse => by cases hfalse
  · have ha' := hothers m hm ▸ ha
    rw [hsends.view hinv ha']
    exact (hinv.phase m a ha').mono hsends.ending

theorem dispose_eq (ha : c.subscriptions n = some a) (hopened : a.opened = true) (hdisp : a.disposed = false) (hconn : c.connected = true)
    (hcur : c.connected && c.targetIsCurrent a.target) :
    c.dispose n =
      ({ c with
        subscriptions := update c.subscriptions n (some { a with disposed := true, listed := false })
        requestSequence := c.requestSequence + 1
        requests := update c.requests (c.requestSequence + 1) (some { target := a.target, call := .unsubscribe (.service n), signal := false }) },
        [.request (c.requestSequence + 1) a.target (.unsubscribe (.service n))]) := by
  have hguard : (a.opened && !a.disposed) = true := by
    rw [hopened, hdisp]
    rfl
  unfold Client.dispose
  rw [ha]
  exact (if_pos hguard).trans ((if_pos hcur).trans (if_pos hconn))

theorem Inv.dispose_sent (hinv : Inv w) (n : Nat)
    (hallowed : ∀ a, w.client.subscriptions n = some a → w.client.targetIsCurrent a.target) : Inv (w.sends (w.client.dispose n)) := by
  have hsame : Inv (w.sends (w.client, [])) := by
    rw [World.sends, append_nil]
    exact hinv
  cases ha : w.client.subscriptions n with
  | none =>
    have hdispose : w.client.dispose n = (w.client, []) := by simp only [Client.dispose, ha]
    rw [hdispose]
    exact hsame
  | some a =>
    by_cases hguard : a.opened = true ∧ a.disposed = false
    · obtain ⟨a', ha'⟩ : ∃ a', a' = { a with disposed := true, listed := false } := ⟨_, rfl⟩
      obtain ⟨q, hq⟩ : ∃ q : Request, q = { target := a.target, call := .unsubscribe (.service n), signal := false } := ⟨_, rfl⟩
      have hcur : w.client.connected && w.client.targetIsCurrent a.target := by
        rw [hinv.connected, hallowed a ha]
        rfl
      have hsrv : a.target.serverId = w.client.serverId := by
        have hyes := hallowed a ha
        unfold Client.targetIsCurrent at hyes
        split at hyes
        · exact (Bool.and_eq_true_iff.mp hyes).2 |> of_decide_eq_true
        · exact (Bool.and_eq_true_iff.mp hyes).1 |> of_decide_eq_true
      obtain ⟨w', hw⟩ : ∃ w', w' = w.sends ({ w.client with
          subscriptions := update w.client.subscriptions n (some a')
          requestSequence := w.client.requestSequence + 1
          requests := update w.client.requests (w.client.requestSequence + 1) (some q) },
          [.request (w.client.requestSequence + 1) a.target (.unsubscribe (.service n))]) := ⟨_, rfl⟩
      have hdispose : w.client.dispose n = ({ w.client with
          subscriptions := update w.client.subscriptions n (some a')
          requestSequence := w.client.requestSequence + 1
          requests := update w.client.requests (w.client.requestSequence + 1) (some q) },
          [.request (w.client.requestSequence + 1) a.target (.unsubscribe (.service n))]) := by
        rw [ha', hq]
        exact dispose_eq ha hguard.1 hguard.2 hinv.connected hcur
      rw [hdispose, ← hw]
      have hself : w'.client.subscriptions n = some a' := by
        rw [hw]
        exact update_self _ _ _
      have hothers : ∀ m, m ≠ n → w'.client.subscriptions m = w.client.subscriptions m := by
        intro m hm
        rw [hw]
        exact update_of_ne hm _ _
      have hreq : a'.request = a.request := by rw [ha']
      have hdisp : a'.disposed = true := by rw [ha']
      have hsends : Sends w w' q := by
        refine
          { server := by rw [hw]; rfl, feeds := by rw [hw]; rfl, transcript := by rw [hw]; rfl, toClient := by rw [hw]; rfl,
            toServer := by rw [hw, hq]; rfl, connected := by rw [hw]; exact hinv.connected, serverId := by rw [hw]; rfl,
            requestSequence := by rw [hw]; rfl, requests := by rw [hw]; rfl, pending := by rw [hq], call := ?_,
            subscribes := fun m hm => by rw [hq] at hm; cases hm
            bound := by rw [hw]; exact le_rfl, old := fun m b hb => ?_, new := fun m b hb => ?_ }
        · rw [hq]
          exact ⟨rfl, by rw [hw]; exact hsrv, n, a', rfl, hself, hdisp⟩
        · by_cases hm : m = n
          · subst hm
            obtain rfl := Option.some.inj (ha.symm.trans hb)
            exact ⟨a', hself, hreq, fun _ => hdisp⟩
          · exact ⟨b, (hothers m hm).trans hb, rfl, id⟩
        · by_cases hm : m = n
          · subst hm
            obtain rfl := Option.some.inj (hself.symm.trans hb)
            exact .inl ⟨a, ha, hreq.symm⟩
          · exact .inl ⟨b, hothers m hm ▸ hb, rfl⟩
      refine hsends.inv hinv fun m b hb => ?_
      by_cases hm : m = n
      · subst hm
        obtain rfl := Option.some.inj (hself.symm.trans hb)
        have hending : w'.Ending m := by
          refine ⟨w'.client.requestSequence, .inl ⟨q.target, ?_⟩⟩
          rw [hsends.toServer, hq]
          exact mem_append_right _ (mem_singleton.mpr rfl)
        rw [view_active hreq, hsends.view hinv ha, ha']
        exact (hinv.phase m a ha).dispose hguard.1 hguard.2 hending
      · have hb' := hothers m hm ▸ hb
        rw [hsends.view hinv hb']
        exact (hinv.phase m b hb').mono hsends.ending
    · have hno : ¬(a.opened && !a.disposed) = true := by simpa using hguard
      have hdispose : w.client.dispose n = (w.client, []) := by
        simp only [Client.dispose, ha]
        exact if_neg hno
      rw [hdispose]
      exact hsame

end Client

/-! ## Runs -/

section Runs

variable {w w' : World} {e : Event} {id n : Nat} {a : Active} {q : Request} {serverId : String}

theorem Inv.step (hinv : Inv w) (hallowed : Allowed w e) (hstep : w.step e = some w') : Inv w' := by
  cases e with
  | request target call =>
    obtain ⟨json, rfl⟩ := hallowed
    obtain rfl := Option.some.inj hstep
    exact hinv.request_sent target json
  | subscribeService target serviceId mode =>
    obtain rfl := Option.some.inj hstep
    exact hinv.subscribe_sent target serviceId mode
  | abort id =>
    obtain rfl := Option.some.inj hstep
    exact hinv.abort hallowed
  | resume id =>
    obtain rfl := Option.some.inj hstep
    exact hinv.resume id
  | start n =>
    obtain rfl := Option.some.inj hstep
    exact hinv.start n
  | dispose n =>
    obtain rfl := Option.some.inj hstep
    exact hinv.dispose_sent n hallowed
  | deliver n =>
    obtain rfl := Option.some.inj hstep
    exact hinv.deliver n
  | clientReceives =>
    simp only [World.step] at hstep
    split at hstep
    · cases hstep
    · rename_i m rest hto
      rw [if_pos hinv.connected] at hstep
      obtain rfl := Option.some.inj hstep
      exact hinv.clientReceives hto
  | serverReceives =>
    simp only [World.step] at hstep
    split at hstep
    · cases hstep
    · rename_i id target rest hto
      obtain rfl := Option.some.inj hstep
      exact hinv.cancel hto
    · rename_i id target call rest hto
      obtain rfl := Option.some.inj hstep
      exact hinv.receives hto
  | take id snapshot =>
    simp only [World.step] at hstep
    split at hstep
    · rename_i h hcall hfeed
      obtain ⟨s, hs, rfl⟩ := Option.map_eq_some_iff.mp hstep
      exact hinv.take hcall hfeed hs hallowed
    · cases hstep
  | publish id u =>
    obtain ⟨f, hf, rfl⟩ := Option.map_eq_some_iff.mp hstep
    exact hinv.publish hf (hallowed f hf)
  | returns id result =>
    obtain ⟨h, hcall, rfl⟩ := Option.map_eq_some_iff.mp hstep
    exact hinv.returns hcall fun s hs => hallowed h s (calling_eq.mp hcall).1 hs
  | returnsSnapshot id =>
    simp only [World.step] at hstep
    split at hstep
    · rename_i h f hcall hf
      obtain rfl := Option.some.inj hstep
      exact hinv.returnsSnapshot hcall hf hallowed
    · cases hstep
  | proceed id =>
    simp only [World.step] at hstep
    split at hstep
    · rename_i h hactive
      split at hstep
      · cases hstep
      · rename_i hstage
        obtain rfl := Option.some.inj hstep
        exact hinv.proceed hactive hstage
    · cases hstep
  | attach session =>
    obtain rfl := Option.some.inj hstep
    exact hinv.attach session

theorem Reaches.inv (h : Reaches Allowed serverId w) : Inv w := by
  induction h with
  | init => exact inv_init serverId
  | step _ hallowed hstep ih => exact ih.step hallowed hstep

/-! ## Settlements stay -/

/-- A promise that is settled stays settled as it is. -/
def SettlementsStay (before after : Nat → Option Request) : Prop :=
  ∀ id q s, before id = some q → q.settled = some s → ∃ q', after id = some q' ∧ q'.settled = some s

theorem settlementsStay_refl (r : Nat → Option Request) : SettlementsStay r r := fun _ q _ hq hs => ⟨q, hq, hs⟩

theorem settlementsStay_update {r : Nat → Option Request} {q' : Request} (h : ∀ q, r id = some q → ∀ s, q.settled = some s → q'.settled = some s) :
    SettlementsStay r (update r id (some q')) := by
  intro j q s hq hs
  by_cases hj : j = id
  · subst hj
    exact ⟨q', update_self _ _ _, h q hq s hs⟩
  · exact ⟨q, (update_of_ne hj _ _).trans hq, hs⟩

theorem settle_stays {s s' : Settlement} (h : q.settled = some s) : (q.settle s').settled = some s := by
  rw [Request.settle, h]
  rfl

theorem Inv.request_stays (hinv : Inv w) {q' : Request} :
    SettlementsStay w.client.requests (update w.client.requests (w.client.requestSequence + 1) (some q')) := by
  refine settlementsStay_update fun q hq => ?_
  have hbound := (hinv.request _ q hq).bound
  omega

variable (c : Client)

theorem fail_stays : SettlementsStay c.requests c.fail.requests := by
  intro id q s hq hs
  refine ⟨_, congrArg (Option.map _) hq, ?_⟩
  dsimp only
  split
  · exact settle_stays hs
  · exact hs

theorem SettlementsStay.trans {r₁ r₂ r₃ : Nat → Option Request} (h : SettlementsStay r₁ r₂) (h' : SettlementsStay r₂ r₃) : SettlementsStay r₁ r₃ := by
  intro id q s hq hs
  obtain ⟨q', hq', hs'⟩ := h id q s hq hs
  exact h' id q' s hq' hs'

theorem resolve_stays {c : Client} {result : WireResult} (hq : c.requests id = some q) :
    SettlementsStay c.requests (c.resolve id q result).requests := by
  have hsettle : ∀ s, SettlementsStay c.requests (update c.requests id (some ({ q with pending := false }.settle s))) := by
    intro s
    refine settlementsStay_update fun q₁ hq₁ s' hs' => settle_stays ?_
    obtain rfl := Option.some.inj (hq.symm.trans hq₁)
    exact hs'
  unfold Client.resolve
  split
  · exact hsettle _
  · split
    · exact hsettle _
    · split
      · exact (hsettle .invalid).trans
          (fail_stays { c with requests := update c.requests id (some ({ q with pending := false }.settle .invalid)) })
      · exact hsettle _

theorem handleMessage_stays (m : ServerMessage) : SettlementsStay c.requests (c.handleMessage m).requests := by
  unfold Client.handleMessage
  split
  · exact settlementsStay_refl _
  · split
    · exact settlementsStay_refl _
    · exact fail_stays c
  · exact settlementsStay_refl _
  · split
    · exact settlementsStay_refl _
    · split
      · exact settlementsStay_refl _
      · split
        · exact settlementsStay_refl _
        · split
          · exact fail_stays c
          · exact settlementsStay_refl _
  · split
    · exact fail_stays c
    · rename_i q hq
      split
      · exact fail_stays c
      · split
        · refine settlementsStay_update fun q₁ hq₁ s hs => settle_stays ?_
          obtain rfl := Option.some.inj (hq.symm.trans hq₁)
          exact hs
        · exact resolve_stays hq

theorem abort_stays (id : Nat) : SettlementsStay c.requests (c.abort id).1.requests := by
  unfold Client.abort
  split
  · rename_i q hq
    split
    · refine settlementsStay_update fun q₁ hq₁ s hs => settle_stays ?_
      obtain rfl := Option.some.inj (hq.symm.trans hq₁)
      exact hs
    · exact settlementsStay_refl _
  · exact settlementsStay_refl _

theorem resume_stays (id : Nat) : SettlementsStay c.requests (c.resume id).requests := by
  unfold Client.resume
  split
  · rename_i q hq
    split
    · have hresume : SettlementsStay c.requests (update c.requests id (some { q with resumed := true })) := by
        refine settlementsStay_update fun q₁ hq₁ s hs => ?_
        obtain rfl := Option.some.inj (hq.symm.trans hq₁)
        exact hs
      dsimp only
      split <;> exact hresume
    · exact settlementsStay_refl _
  · exact settlementsStay_refl _

theorem Inv.dispose_stays (hinv : Inv w) (n : Nat) : SettlementsStay w.client.requests (w.client.dispose n).1.requests := by
  unfold Client.dispose
  split
  · split
    · dsimp only
      split
      · unfold Client.request
        split
        · exact hinv.request_stays
        · exact settlementsStay_refl _
      · exact settlementsStay_refl _
    · exact settlementsStay_refl _
  · exact settlementsStay_refl _

theorem start_requests (n : Nat) : (c.start n).requests = c.requests := by
  unfold Client.start
  split
  · split <;> rfl
  · rfl

theorem deliver_requests (n : Nat) : (c.deliver n).requests = c.requests := by
  unfold Client.deliver
  split
  · split <;> rfl
  · rfl

theorem Inv.settled_stays (hinv : Inv w) (hstep : w.step e = some w') : SettlementsStay w.client.requests w'.client.requests := by
  have hsame : ∀ {r : Server.Sent} {w₁ : World}, w₁.client = w.client → SettlementsStay w.client.requests (w₁.replies r).client.requests := by
    intro r w₁ hcli
    rw [World.replies, hcli]
    exact settlementsStay_refl _
  cases e with
  | request target call =>
    obtain rfl := Option.some.inj hstep
    rw [request_eq hinv.connected]
    exact hinv.request_stays
  | subscribeService target serviceId mode =>
    obtain rfl := Option.some.inj hstep
    unfold Client.subscribeService
    rw [if_pos hinv.connected]
    unfold Client.request
    rw [if_pos hinv.connected]
    exact hinv.request_stays
  | abort id =>
    obtain rfl := Option.some.inj hstep
    exact abort_stays _ id
  | resume id =>
    obtain rfl := Option.some.inj hstep
    exact resume_stays _ id
  | start n =>
    obtain rfl := Option.some.inj hstep
    rw [start_requests]
    exact settlementsStay_refl _
  | dispose n =>
    obtain rfl := Option.some.inj hstep
    exact hinv.dispose_stays n
  | deliver n =>
    obtain rfl := Option.some.inj hstep
    rw [deliver_requests]
    exact settlementsStay_refl _
  | clientReceives =>
    simp only [World.step] at hstep
    split at hstep
    · cases hstep
    · rename_i m rest hto
      rw [if_pos hinv.connected] at hstep
      obtain rfl := Option.some.inj hstep
      exact handleMessage_stays _ m
  | serverReceives =>
    simp only [World.step] at hstep
    split at hstep
    · cases hstep
    · obtain rfl := Option.some.inj hstep
      exact settlementsStay_refl _
    · obtain rfl := Option.some.inj hstep
      exact hsame rfl
  | take id snapshot =>
    simp only [World.step] at hstep
    split at hstep
    · obtain ⟨s, -, rfl⟩ := Option.map_eq_some_iff.mp hstep
      exact settlementsStay_refl _
    · cases hstep
  | publish id u =>
    obtain ⟨f, -, rfl⟩ := Option.map_eq_some_iff.mp hstep
    exact hsame rfl
  | returns id result =>
    obtain ⟨h, -, rfl⟩ := Option.map_eq_some_iff.mp hstep
    exact hsame rfl
  | returnsSnapshot id =>
    simp only [World.step] at hstep
    split at hstep
    · obtain rfl := Option.some.inj hstep
      exact hsame rfl
    · cases hstep
  | proceed id =>
    simp only [World.step] at hstep
    split at hstep
    · split at hstep
      · cases hstep
      · obtain rfl := Option.some.inj hstep
        exact hsame rfl
    · cases hstep
  | attach session =>
    obtain rfl := Option.some.inj hstep
    exact hsame rfl

/-! ## What a connection does -/

/-- What is expected of a connection in a state. -/
structure Served (w : World) : Prop where
  /-- The client has not failed the connection, and the server has not closed it. -/
  connected : w.client.connected = true ∧ w.server.disconnected = false
  /-- No request has two responses. -/
  responses : ∀ id q, w.client.requests id = some q → w.transcript.countP (isResponse id) ≤ 1
  /-- A promise that is settled stays so, whatever happens next. -/
  settled : ∀ e w', w.step e = some w' → SettlementsStay w.client.requests w'.client.requests
  /-- A listener is called with what was published, in order and once. -/
  received : ∀ n a, w.client.subscriptions n = some a → a.received <+: w.published a
  /-- A subscription has the snapshot after which the services publish. -/
  snapshot : ∀ n a q s, w.client.subscriptions n = some a → a.disposed = false → w.client.requests a.request = some q →
    q.settled = some (.snapshot s) → ∃ f, w.feeds a.request = some f ∧ f.snapshot = s
  /-- When nothing is left to do, every request has its response and every promise is settled. -/
  answered : w.Quiet → ∀ id q, w.client.requests id = some q → w.transcript.countP (isResponse id) = 1 ∧ q.settled.isSome
  /-- Then a listener that was started has all that was published. -/
  complete : w.Quiet → ∀ n a, w.client.subscriptions n = some a → a.ready = true → a.disposed = false → a.received = w.published a
  /-- Then the server keeps encoders only for subscriptions that the client holds. -/
  encoders : w.Quiet → ∀ s e, w.server.serviceStateEncoders s = some e → ∃ n a, s = .service n ∧ w.client.subscriptions n = some a ∧ a.listed = true

theorem Phase.handed_le {v : View} {ending : Prop} (h : Phase v ending) : handed v.active <+: v.feed.elim [] Feed.published := by
  cases h with
  | unanswered fresh => rw [fresh.handed]; exact nil_prefix
  | answered feeding reading =>
    rw [feeding.feed]
    dsimp only [Option.elim]
    rw [feeding.published, reading.sent, append_assoc]
    exact prefix_append _ _
  | dropped feeding client =>
    rw [feeding.feed]
    dsimp only [Option.elim]
    rw [feeding.published]
    exact client.handed.trans (prefix_append _ _)
  | ended feed _ client =>
    rw [feed]
    exact client.handed

theorem Inv.served (hinv : Inv w) : Served w where
  connected := ⟨hinv.connected, hinv.disconnected⟩
  responses id q hq := by
    have htally := hinv.tally id
    simp only [Tally.Ok, World.tally, hq] at htally
    omega
  settled e w' hstep := hinv.settled_stays hstep
  received n a ha := by
    refine List.IsPrefix.trans ?_ (hinv.phase n a ha).handed_le
    change a.received <+: a.received ++ a.deliveryTail ++ a.queued
    rw [append_assoc]
    exact prefix_append _ _
  snapshot n a q s ha hdisp hq hs := by
    cases hinv.phase n a ha with
    | unanswered _ _ _ _ _ settled => exact absurd hs (settled q s hq)
    | answered feeding reading =>
      cases reading.stream with
      | waiting _ request settled =>
        obtain rfl := Option.some.inj (request.symm.trans hq)
        rw [settled] at hs
        cases hs
      | reading request settled =>
        obtain rfl := Option.some.inj (request.symm.trans hq)
        exact ⟨_, feeding.feed, Settlement.snapshot.inj (Option.some.inj (settled.symm.trans hs))⟩
    | dropped _ client => exact absurd (hdisp.symm.trans client.disposed) Bool.false_ne_true
    | ended _ _ client => exact absurd (hdisp.symm.trans client.disposed) Bool.false_ne_true
  answered hquiet id q hq := by
    have htally := hinv.tally id
    have hnone : w.calling id = none := by rw [World.calling, hquiet.active id]; rfl
    simp only [Tally.Ok, World.tally, hq, hquiet.toServer, hquiet.toClient, hnone, countP_nil, Option.toList_none, length_nil] at htally
    obtain ⟨hresponses, hpending, hsettled⟩ := htally
    refine ⟨by omega, hsettled ?_⟩
    cases hp : q.pending with
    | false => rfl
    | true =>
      rw [hp] at hpending
      cases hpending
  complete hquiet n a ha hready hdisp := by
    have hnotdraining : w.draining a.request = false := by rw [World.draining, hquiet.active]; rfl
    cases hinv.phase n a ha with
    | unanswered fresh => exact absurd (fresh.ready.symm.trans hready) Bool.false_ne_true
    | @answered f e d d' wires sent us feeding reading =>
      have hitems : (w.view n a).items = [] := by rw [World.view, hquiet.toClient]; rfl
      have hpubr : (w.view n a).publisher.subscriptionReady = true := by
        rw [feeding.ready]
        change (!w.draining a.request) = true
        rw [hnotdraining]
        rfl
      have hpub := feeding.published
      rw [feeding.empty hpubr, append_nil, reading.sent] at hpub
      cases reading.stream with
      | waiting fresh => exact absurd (fresh.ready.symm.trans hready) Bool.false_ne_true
      | reading _ _ _ _ _ items queued =>
        have hwires : wires = [] := map_eq_nil_iff.mp (items.symm.trans hitems)
        have hdec := reading.decode
        rw [hwires] at hdec
        obtain ⟨-, hus⟩ := Prod.mk.inj (Except.ok.inj hdec)
        have hhanded : handed a = a.received := by
          rw [handed, hquiet.delivered n a ha, show a.queued = [] from queued hready, append_nil, append_nil]
        change f.published = handed a ++ us at hpub
        rw [hhanded, ← hus, append_nil] at hpub
        rw [World.published, show w.feeds a.request = some f from feeding.feed]
        exact hpub.symm
    | dropped _ client => exact absurd (hdisp.symm.trans client.disposed) Bool.false_ne_true
    | ended _ _ client => exact absurd (hdisp.symm.trans client.disposed) Bool.false_ne_true
  encoders hquiet s e he := by
    obtain ⟨n, a, rfl, ha⟩ := hinv.encoder s e he
    refine ⟨n, a, rfl, ha, ?_⟩
    cases hinv.phase n a ha with
    | unanswered _ encoder => exact absurd (encoder.symm.trans he) (by simp)
    | answered _ reading => exact reading.listed
    | dropped _ _ ending =>
      obtain ⟨id, ⟨target, hmem⟩ | ⟨h, hcall, -⟩⟩ := ending
      · rw [hquiet.toServer] at hmem
        cases hmem
      · rw [World.calling, hquiet.active id] at hcall
        cases hcall
    | ended _ encoder => exact absurd (encoder.symm.trans he) (by simp)

/-- In every run of allowed events a connection does what is expected of it. -/
theorem served_of_allowed (h : Reaches Allowed serverId w) : Served w := h.inv.served

/-! ### A subscription from its call to its end -/

/-- The snapshot of a service without instances. -/
def emptySnapshot : SubscriptionSnapshot Op := ⟨0, .keyed, []⟩

def World.after (w : World) (events : List Event) : World := (events.foldlM World.step w).getD w

/-- A subscription is asked for, and the services take its snapshot. -/
def subscribing : World :=
  (World.init "server").after [.subscribeService ⟨"server", none⟩ 0 .keyed, .serverReceives, .take 1 emptySnapshot]

theorem reaches_after {P : World → Event → Prop} {events : List Event} (hP : ∀ w e, P w e) (h : Reaches P serverId w) :
    Reaches P serverId (w.after events) := by
  have hrun : ∀ w', events.foldlM World.step w = some w' → Reaches P serverId w' := by
    induction events generalizing w with
    | nil =>
      intro w' hw'
      obtain rfl := Option.some.inj hw'
      exact h
    | cons e events ih =>
      intro w' hw'
      rw [foldlM_cons] at hw'
      obtain ⟨w₁, hw₁, hrest⟩ := Option.bind_eq_some_iff.mp hw'
      exact ih (h.step (hP w e) hw₁) w' hrest
  unfold World.after
  cases hfold : events.foldlM World.step w with
  | none => exact h
  | some w' => exact hrun w' hfold

theorem subscribing_reaches : Reaches Allowed "server" subscribing :=
  .step (e := .take 1 emptySnapshot) (.step (e := .serverReceives) (.step (e := .subscribeService ⟨"server", none⟩ 0 .keyed) .init trivial rfl)
    trivial rfl) rfl rfl

/-- An instance with one state member comes into being, and later the member changes. -/
def spawned : Update Op := .spawned ⟨some ⟨[97], 1⟩, [([98], some (0, [.r .null]))]⟩

def changed : Update Op := .state (some ⟨[97], 1⟩) [98] 1 [.r (.boolean true)]

/-- One update is published before the response and one after it, and the listener is called. -/
def delivered : World :=
  subscribing.after [.publish 1 spawned, .returnsSnapshot 1, .proceed 1, .proceed 1, .publish 1 changed, .clientReceives,
    .clientReceives, .clientReceives, .resume 1, .start 1, .deliver 1, .deliver 1]

theorem delivered_reaches : Reaches Allowed "server" delivered := by
  have hspawned : Reaches Allowed "server" (subscribing.after [.publish 1 spawned]) := by
    refine .step (e := .publish 1 spawned) subscribing_reaches (fun f hf => ?_) rfl
    obtain rfl := Option.some.inj hf
    rfl
  have hreturned : Reaches Allowed "server" (subscribing.after [.publish 1 spawned, .returnsSnapshot 1]) := by
    refine .step (e := .returnsSnapshot 1) hspawned (fun q hq => ?_) rfl
    obtain rfl := Option.some.inj hq
    rfl
  have hready := Reaches.step (e := .proceed 1) (.step (e := .proceed 1) hreturned trivial rfl) trivial rfl
  have hchanged := Reaches.step (e := .publish 1 changed) hready (fun f hf => by
    obtain rfl := Option.some.inj hf
    rfl) rfl
  have hread := Reaches.step (e := .clientReceives) (.step (e := .clientReceives) (.step (e := .clientReceives) hchanged
    trivial rfl) trivial rfl) trivial rfl
  have hstarted := Reaches.step (e := .start 1) (.step (e := .resume 1) hread trivial rfl) trivial rfl
  exact .step (e := .deliver 1) (.step (e := .deliver 1) hstarted trivial rfl) trivial rfl

theorem served_of_allowed_delivered :
    (delivered.client.subscriptions 1).map Active.received = some [spawned, changed] ∧ Served delivered :=
  ⟨rfl, served_of_allowed delivered_reaches⟩

/-- The application aborts while the services are about to return the snapshot. -/
def abandoned : World := subscribing.after [.abort 1, .returnsSnapshot 1, .proceed 1, .clientReceives, .serverReceives, .resume 1]

theorem abandoned_quiet : abandoned.Quiet := by
  have hactive : ∀ id, abandoned.server.activeRequests id = none
    | 0 | 1 | _ + 2 => rfl
  have hreqs : ∀ id, id ≠ 1 → abandoned.client.requests id = none
    | 0, _ | _ + 2, _ => rfl
    | 1, h => absurd rfl h
  have hsubscriptions : ∀ n, n ≠ 1 → abandoned.client.subscriptions n = none
    | 0, _ | _ + 2, _ => rfl
    | 1, h => absurd rfl h
  have hone : (abandoned.client.requests 1).map Request.resumed = some true := by decide
  have hlis : (abandoned.client.subscriptions 1).map (fun a => a.deliveryTail.length) = some 0 := by decide
  refine ⟨rfl, rfl, hactive, fun id q hq _ _ => ?_, fun n a ha => ?_⟩
  · by_cases hid : id = 1
    · subst hid
      rw [hq] at hone
      exact Option.some.inj hone
    · rw [hreqs id hid] at hq
      cases hq
  · by_cases hn : n = 1
    · subst hn
      rw [ha] at hlis
      exact length_eq_zero_iff.mp (Option.some.inj hlis)
    · rw [hsubscriptions n hn] at ha
      cases ha

/-- The server keeps an encoder for a subscription that the client does not hold. -/
theorem abandoned_kept :
    Reaches (fun _ _ => True) "server" abandoned ∧ abandoned.Quiet ∧ (abandoned.server.serviceStateEncoders (.service 1)).isSome ∧
      (abandoned.client.subscriptions 1).map Active.listed = some false := by
  refine ⟨?_, abandoned_quiet, by decide, by decide⟩
  exact reaches_after (fun _ _ => trivial) (reaches_after (fun _ _ => trivial) .init)

end Runs

end Shuvpi.Remote
