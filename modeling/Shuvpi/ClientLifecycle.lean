import Shuvpi.ClientConnection

/-!
# What every state of a client keeps

The invariant of the connections of a client, with one lemma for what the code does between
two calls of listeners. It is kept where `connect` is not called on a connected client, where
a subscription is made while connected only, and where the loop over the messages of a chunk
does not find another connection in place of its own. Nothing is pending without a connection
where, besides, no connection ends under an attachment while something is.
-/
open List Option

namespace Shuvpi.Connection

/-! ## Promises -/

namespace Promises

variable {α : Type}

theorem settle_get (promises : Promises α) (p : Nat) (outcome : α) (q : Nat) : (promises.settle p outcome)[q]? =
      if p = q then (promises[q]?).map fun settled => some (settled.getD outcome) else promises[q]? := by
  unfold settle
  rw [getElem?_modify]
  by_cases hq : p = q
  · simp only [if_pos hq]
    rfl
  · simp only [if_neg hq]
    exact map_id'

variable {promises : Promises α}

variable {p q : Nat}

theorem settle_pending {outcome : α} (h : (promises.settle p outcome)[q]? = some none) :
    promises[q]? = some none ∧ q ≠ p := by
  rw [settle_get] at h
  by_cases hq : p = q
  · rw [if_pos hq, map_eq_some_iff] at h
    obtain ⟨settled, -, hnone⟩ := h
    cases hnone
  · rw [if_neg hq] at h
    exact ⟨h, fun heq => hq heq.symm⟩

theorem settleIf_pending {p : Option Nat} {outcome : α} (h : (promises.settleIf p outcome)[q]? = some none) :
    promises[q]? = some none ∧ p ≠ some q := by
  cases p with
  | none => exact ⟨h, by simp⟩
  | some p =>
    obtain ⟨hq, hne⟩ := settle_pending h
    exact ⟨hq, fun heq => hne (some.inj heq).symm⟩

/-- Settled promises stay as they are. -/
def Extends (promises later : Promises α) : Prop :=
  ∀ (p : Nat) (outcome : α), promises[p]? = some (some outcome) → later[p]? = some (some outcome)

theorem Extends.refl (promises : Promises α) : promises.Extends promises := fun _ _ h => h

theorem Extends.trans {a b c : Promises α} (h : a.Extends b) (h' : b.Extends c) : a.Extends c :=
  fun p outcome hp => h' p outcome (h p outcome hp)

theorem extends_settle (promises : Promises α) (p : Nat) (outcome : α) : promises.Extends (promises.settle p outcome) := by
  intro q settled hq
  rw [settle_get, hq]
  by_cases heq : p = q
  · rw [if_pos heq]
    rfl
  · rw [if_neg heq]

theorem extends_append (promises more : Promises α) : Promises.Extends promises (promises ++ more) := by
  intro p outcome hp
  rw [List.getElem?_append_left]
  · exact hp
  · exact (List.getElem?_eq_some_iff.mp hp).1

theorem pending_append {last : Option α} (h : (promises ++ [last])[p]? = some none) :
    promises[p]? = some none ∨ (p = promises.length ∧ last = none) := by
  rw [List.getElem?_append] at h
  split at h
  · exact .inl h
  · rename_i hge
    have hlen : p - promises.length < [last].length := (List.getElem?_eq_some_iff.mp h).1
    rw [List.length_singleton] at hlen
    have hp : p = promises.length := by omega
    subst hp
    rw [Nat.sub_self] at h
    exact .inr ⟨rfl, Option.some.inj h⟩

end Promises

variable {Chunk Dec : Type}

/-! ## The invariant -/

namespace World

structure Core (w : World Dec) : Prop where
  hello : w.hello.isSome = w.connected
  attachment : w.connected = false → w.attachment = none
  requests : ∀ p, w.requests[p]? = some none →
    (∃ r ∈ w.pendingRequests, r.promise = p) ∨ ∃ reason, .rejects p reason ∈ w.stack
  ids : (w.pendingRequests.map (·.id)).Nodup
  idsBelow : ∀ r ∈ w.pendingRequests, r.id ≤ w.requestSequence
  connects : ∀ p, w.connects[p]? = some none → w.lifecycle.handshake? = some p
  window : ∀ id decoder handshake, w.lifecycle = .connected id decoder (some handshake) →
    ∃ serverId, .connected id serverId ∈ w.stack
  handled : ∀ m ∈ w.handled, m.1 = m.2
  fed : ∀ c ∈ w.fed, c.1 = c.2

structure Inv (w : World Dec) : Prop where
  core : w.Core
  disposed : w.disposed = true → w.lifecycle = .disconnected
  disposing : Frame.disposing ∈ w.stack ∨ Frame.disposed ∈ w.stack → w.disposed = true

theorem start_inv : (start : World Dec).Inv where
  core := {
    hello := rfl
    attachment := fun _ => rfl
    requests := by simp [start]
    ids := nodup_nil
    idsBelow := by simp [start]
    connects := by simp [start]
    window := by simp [start]
    handled := by simp [start]
    fed := by simp [start] }
  disposed := fun _ => rfl
  disposing := by simp [start]

/-! ## Frames -/

variable {w : World Dec} {frame : Frame}

theorem Core.push (h : w.Core) : (w.push frame).Core where
  hello := h.hello
  attachment := h.attachment
  requests := by
    intro p hp
    refine (h.requests p hp).imp_right ?_
    rintro ⟨reason, hmem⟩
    exact ⟨reason, mem_cons_of_mem _ hmem⟩
  ids := h.ids
  idsBelow := h.idsBelow
  connects := h.connects
  window := by
    intro id decoder handshake hl
    obtain ⟨serverId, hmem⟩ := h.window id decoder handshake hl
    exact ⟨serverId, mem_cons_of_mem _ hmem⟩
  handled := h.handled
  fed := h.fed

/-- A frame can be taken off when nothing depends on it: the request that it rejects is settled, and the connection
that it tells of has ended or its `connect` is settled. -/
theorem Core.pop (h : w.Core) {stack : List Frame} (hs : w.stack = frame :: stack)
    (hreject : ∀ p reason, frame = .rejects p reason → w.requests[p]? ≠ some none)
    (hwin : ∀ id serverId, frame = .connected id serverId →
      ∀ decoder handshake, w.lifecycle ≠ .connected id decoder (some handshake)) :
    ({ w with stack := stack }).Core where
  hello := h.hello
  attachment := h.attachment
  requests := by
    intro p hp
    refine (h.requests p hp).imp_right ?_
    rintro ⟨reason, hmem⟩
    rw [hs] at hmem
    exact ⟨reason, (mem_cons.mp hmem).resolve_left fun heq => hreject p reason heq.symm hp⟩
  ids := h.ids
  idsBelow := h.idsBelow
  connects := h.connects
  window := by
    intro id decoder handshake hl
    obtain ⟨serverId, hmem⟩ := h.window id decoder handshake hl
    rw [hs] at hmem
    exact ⟨serverId, (mem_cons.mp hmem).resolve_left fun heq => hwin id serverId heq.symm decoder handshake hl⟩
  handled := h.handled
  fed := h.fed

/-- `connect` is fulfilled. -/
theorem Core.fulfil (h : w.Core) {id : Nat} {decoder : Dec} {handshake : Nat}
    (hl : w.lifecycle = .connected id decoder (some handshake)) (outcome : Except Reason String) :
    ({ w with
      lifecycle := .connected id decoder none
      connects := w.connects.settle handshake outcome } : World Dec).Core where
  hello := by
    have hello := h.hello
    unfold World.connected at hello
    rw [hl] at hello
    exact hello
  attachment := fun hc => nomatch hc
  requests := h.requests
  ids := h.ids
  idsBelow := h.idsBelow
  connects := by
    intro p hp
    obtain ⟨hp, hne⟩ := Promises.settle_pending hp
    have hshake := h.connects p hp
    rw [hl] at hshake
    exact absurd (some.inj hshake).symm hne
  window := by
    intro id' decoder' handshake' hl'
    cases hl'
  handled := h.handled
  fed := h.fed

/-! ## The end of a connection -/

variable {reason : Reason}

theorem settleAll_pending {pending : List PendingRequest} {promises : Promises (Except Reason Unit)} {q : Nat}
    (h : (pending.foldl (fun promises request => promises.settle request.promise (.error reason)) promises)[q]? = some none) :
    promises[q]? = some none ∧ ∀ r ∈ pending, r.promise ≠ q := by
  induction pending generalizing promises with
  | nil => exact ⟨h, by simp⟩
  | cons r pending ih =>
    rw [foldl_cons] at h
    obtain ⟨hsettled, hrest⟩ := ih h
    obtain ⟨hq, hne⟩ := Promises.settle_pending hsettled
    refine ⟨hq, ?_⟩
    intro r' hr'
    rcases mem_cons.mp hr' with rfl | hr'
    · exact hne.symm
    · exact hrest r' hr'

/-- Once all pending requests are rejected, only those of a frame are open. -/
theorem Core.rejectPending (h : w.Core) (reason : Reason) : (w.rejectPendingRequests reason).Core where
  hello := h.hello
  attachment := h.attachment
  requests := by
    intro p hp
    obtain ⟨hp, hne⟩ := settleAll_pending hp
    rcases h.requests p hp with ⟨r, hr, hrp⟩ | hframe
    · exact absurd hrp (hne r hr)
    · exact .inr hframe
  ids := nodup_nil
  idsBelow := by simp [rejectPendingRequests]
  connects := h.connects
  window := h.window
  handled := h.handled
  fed := h.fed

/-- The state between the end of a connection and the call of its attachment listeners. -/
def ended (w : World Dec) (reason : Reason) : World Dec :=
  { w with
    lifecycle := .disconnected
    hello := none
    attachment := none
    connects := w.connects.settleIf w.lifecycle.handshake? (.error reason) }

theorem fail_disconnected (h : w.lifecycle.state = .disconnected) (reason : Reason) : w.fail reason = w := by
  unfold fail
  rw [h]

theorem fail_eq (h : w.lifecycle.state ≠ .disconnected) (reason : Reason) :
    w.fail reason = if w.attachment = none then (w.ended reason).clear reason
      else (w.ended reason).push (.cleared reason) := by
  unfold fail handleDisconnected
  cases hs : w.lifecycle.state with
  | disconnected => exact absurd hs h
  | connecting | connected =>
    dsimp only
    split
    · rename_i hnone
      unfold ended
      rw [← hnone]
    · rfl

theorem Core.ended (h : w.Core) (reason : Reason) : ((w.ended reason).push (.cleared reason)).Core where
  hello := rfl
  attachment := fun _ => rfl
  requests := by
    intro p hp
    refine (h.requests p hp).imp_right ?_
    rintro ⟨reason, hmem⟩
    exact ⟨reason, mem_cons_of_mem _ hmem⟩
  ids := h.ids
  idsBelow := h.idsBelow
  connects := by
    intro p hp
    obtain ⟨hp, hne⟩ := Promises.settleIf_pending hp
    exact absurd (h.connects p hp) hne
  window := by
    intro id decoder handshake hl
    cases hl
  handled := h.handled
  fed := h.fed

/-- When the attachment listeners have returned, what is pending is rejected. -/
theorem Core.clear (h : (w.push (.cleared reason)).Core) : (w.clear reason).Core where
  hello := h.hello
  attachment := h.attachment
  requests := by
    intro p hp
    obtain ⟨hp, hne⟩ := settleAll_pending hp
    rcases h.requests p hp with ⟨r, hr, hrp⟩ | ⟨reason', hmem⟩
    · exact absurd hrp (hne r hr)
    · refine .inr ⟨reason', mem_cons_of_mem _ ?_⟩
      rcases mem_cons.mp hmem with heq | hmem
      · cases heq
      · exact hmem
  ids := nodup_nil
  idsBelow := by simp [World.clear, World.push, rejectPendingRequests]
  connects := h.connects
  window := by
    intro id decoder handshake hl
    obtain ⟨serverId, hmem⟩ := h.window id decoder handshake hl
    refine ⟨serverId, mem_cons_of_mem _ ?_⟩
    rcases mem_cons.mp hmem with heq | hmem
    · cases heq
    · exact hmem
  handled := h.handled
  fed := h.fed

/-- Every end of a connection. -/
theorem Core.fail (h : w.Core) (reason : Reason) : (w.fail reason).Core := by
  by_cases hs : w.lifecycle.state = .disconnected
  · rw [fail_disconnected hs]
    exact h
  · rw [fail_eq hs]
    split
    · exact (h.ended reason).clear
    · exact h.ended reason

theorem fail_lifecycle (w : World Dec) (reason : Reason) : (w.fail reason).lifecycle = .disconnected := by
  by_cases hs : w.lifecycle.state = .disconnected
  · rw [fail_disconnected hs]
    cases hl : w.lifecycle with
    | disconnected => rfl
    | connecting | connected =>
      rw [hl] at hs
      cases hs
  · rw [fail_eq hs]
    split
    · rfl
    · rfl

theorem fail_disposed (w : World Dec) (reason : Reason) : (w.fail reason).disposed = w.disposed := by
  by_cases hs : w.lifecycle.state = .disconnected
  · rw [fail_disconnected hs]
  · rw [fail_eq hs]
    split
    · rfl
    · rfl

theorem mem_fail_stack (h : frame ∈ (w.fail reason).stack) :
    frame = .cleared reason ∨ frame = .disconnected ∨ frame ∈ w.stack := by
  by_cases hs : w.lifecycle.state = .disconnected
  · rw [fail_disconnected hs] at h
    exact .inr (.inr h)
  · rw [fail_eq hs] at h
    split at h
    · exact .inr (mem_cons.mp h)
    · exact (mem_cons.mp h).imp_right .inr

variable (h : w.Inv)
include h

theorem Inv.fail (reason : Reason) : (w.fail reason).Inv where
  core := h.core.fail reason
  disposed := fun _ => w.fail_lifecycle reason
  disposing := by
    intro hmem
    rw [fail_disposed]
    refine h.disposing ?_
    refine hmem.imp ?_ ?_
    · intro hmem
      rcases mem_fail_stack hmem with heq | heq | hmem
      · cases heq
      · cases heq
      · exact hmem
    · intro hmem
      rcases mem_fail_stack hmem with heq | heq | hmem
      · cases heq
      · cases heq
      · exact hmem

/-! ## Calls of the client -/

/-- A promise that is settled from the start. -/
theorem Inv.refused (outcome : Except Reason Unit) (n : Nat) (hn : w.requestSequence ≤ n) :
    ({ w with requestSequence := n, requests := w.requests ++ [some outcome] }).Inv where
  core := { h.core with
    requests := by
      intro p hp
      rcases Promises.pending_append hp with hp | ⟨-, hnone⟩
      · exact h.core.requests p hp
      · cases hnone
    idsBelow := fun r hr => (h.core.idsBelow r hr).trans hn }
  disposed := h.disposed
  disposing := h.disposing

/-- A request that is pending. -/
theorem Inv.pending (subscription : Option Nat) : ({ w with
      requestSequence := w.requestSequence + 1
      pendingRequests := w.pendingRequests ++ [⟨w.requestSequence + 1, w.requests.length, subscription⟩]
      requests := w.requests ++ [none] } : World Dec).Inv where
  core := { h.core with
    requests := by
      intro p hp
      rcases Promises.pending_append hp with hp | ⟨hlen, -⟩
      · refine (h.core.requests p hp).imp_left ?_
        rintro ⟨r, hr, hrp⟩
        exact ⟨r, mem_append_left _ hr, hrp⟩
      · exact .inl ⟨_, mem_append_right _ (mem_singleton.mpr rfl), hlen.symm⟩
    ids := by
      rw [map_append, nodup_append]
      refine ⟨h.core.ids, nodup_singleton _, ?_⟩
      intro a ha b hb
      obtain ⟨r, hr, rfl⟩ := mem_map.mp ha
      have hb : b = w.requestSequence + 1 := mem_singleton.mp hb
      have hle := h.core.idsBelow r hr
      omega
    idsBelow := by
      intro r hr
      dsimp only at hr ⊢
      rcases mem_append.mp hr with hr | hr
      · have hle := h.core.idsBelow r hr
        omega
      · rw [mem_singleton.mp hr] }
  disposed := h.disposed
  disposing := h.disposing

theorem Inv.request (subscription : Option Nat) (sending : Sending) :
    (w.request subscription sending).Inv := by
  unfold World.request
  split
  · exact h.refused _ _ (Nat.le_refl _)
  · split
    · exact h.refused _ _ (Nat.le_refl _)
    · cases sending with
      | aborted text => exact h.refused _ _ (Nat.le_refl _)
      | unencodable text => exact h.refused _ _ (Nat.le_succ _)
      | sent => exact h.pending subscription
      | thrown text => exact (h.pending subscription).fail _

variable (options : Options Chunk Dec)

theorem Inv.connect (hc : w.connected = false) :
    (w.connect options).Inv := by
  have hello : w.hello = none := by
    have hsome := h.core.hello
    rw [hc] at hsome
    simpa using hsome
  have hrefused : ∀ reason, ({ w with hello := none, connects := w.connects ++ [some (.error reason)] } : World Dec).Inv := by
    intro reason
    have hnone : (none : Option String).isSome = w.connected := by rw [hc]; rfl
    refine ⟨{ h.core with hello := hnone, connects := ?_ }, h.disposed, h.disposing⟩
    intro p hp
    rcases Promises.pending_append hp with hp | ⟨-, hnone⟩
    · exact h.core.connects p hp
    · cases hnone
  unfold World.connect
  split
  · have hr := hrefused .disposed
    rw [← hello] at hr
    exact hr
  · rename_i hdisp
    split
    · rename_i hs
      have hl : w.lifecycle = .disconnected := by
        cases hl : w.lifecycle with
        | disconnected => rfl
        | connecting | connected => rw [hl] at hs; cases hs
      have hcore : ({ w with
          hello := none
          sequence := w.sequence + 1
          lifecycle := .connecting (w.sequence + 1) options.decoder.initial false w.connects.length
          connects := w.connects ++ [none] } : World Dec).Core := { h.core with
        hello := rfl
        attachment := fun _ => h.core.attachment hc
        connects := by
          intro p hp
          rcases Promises.pending_append hp with hp | ⟨hlen, -⟩
          · have hshake := h.core.connects p hp
            rw [hl] at hshake
            cases hshake
          · rw [hlen]
            rfl
        window := by
          intro id decoder handshake hl'
          cases hl' }
      refine ⟨hcore.push, fun hd => absurd hd hdisp, ?_⟩
      intro hmem
      refine h.disposing (hmem.imp ?_ ?_)
      · intro hmem
        exact (mem_cons.mp hmem).resolve_left (fun heq => nomatch heq)
      · intro hmem
        exact (mem_cons.mp hmem).resolve_left (fun heq => nomatch heq)
    · exact hrefused _

theorem Inv.dispose : w.dispose.Inv := by
  unfold World.dispose
  split
  · exact h
  · have hcore : ((({ w with disposed := true }).rejectPendingRequests .disposed).push .disposing).Core := by
      refine Core.push (Core.rejectPending ?_ _)
      exact ⟨h.core.hello, h.core.attachment, h.core.requests, h.core.ids,
          h.core.idsBelow, h.core.connects, h.core.window, h.core.handled, h.core.fed⟩
    exact ⟨hcore.fail _, fun _ => fail_lifecycle _ _, fun _ => fail_disposed _ _⟩

/-- Settling a request. -/
theorem Inv.settle (p : Nat) (outcome : Except Reason Unit) :
    ({ w with requests := w.requests.settle p outcome }).Inv where
  core := { h.core with requests := fun q hq => h.core.requests q (Promises.settle_pending hq).1 }
  disposed := h.disposed
  disposing := h.disposing

omit h

variable {w' : World Dec} (h : w.Inv)
include h

theorem Inv.abort {id : Nat} {text : String} {thrown : Option String}
    (hw : w.abort id text thrown = some w') : w'.Inv := by
  unfold World.abort at hw
  split at hw
  · cases hw
  · rename_i r hr
    have hsettled := h.settle r.promise (.error (.given text))
    cases thrown with
    | none =>
      cases hw
      exact hsettled
    | some error =>
      cases hw
      split
      · exact hsettled.fail _
      · exact hsettled

theorem Inv.listeners (listeners : List ServiceListener) (n : Nat) :
    ({ w with serviceSubscriptionSequence := n, serviceListeners := listeners }).Inv :=
  ⟨{ h.core with hello := h.core.hello }, h.disposed, h.disposing⟩

theorem Inv.subscribeService (sending : Sending) : (w.subscribeService sending).Inv :=
  Inv.request (h.listeners _ _) _ _

variable (id : Nat)

theorem Inv.removeListener : (w.removeListener id).Inv := h.listeners _ _

theorem Inv.disposeSubscription (target : RpcTarget) (sending : Sending) :
    (w.disposeSubscription id target sending).Inv := by
  unfold World.disposeSubscription
  dsimp only
  split
  · exact (h.removeListener id).request none sending
  · exact h.removeListener id

/-! ## Events of the transport -/

theorem Inv.opened : (w.opened id).Inv := by
  have hopens : ({ w with opening := w.opening.erase id } : World Dec).Inv :=
    ⟨{ h.core with hello := h.core.hello }, h.disposed, h.disposing⟩
  unfold World.opened
  dsimp only
  split
  · rename_i current decoder transport handshake hl
    split
    · have hc : w.connected = false := by
        unfold World.connected
        rw [hl]
        rfl
      refine ⟨{ hopens.core with hello := ?_, attachment := ?_, connects := ?_, window := ?_ }, ?_, ?_⟩
      · have hello := h.core.hello
        rw [hc] at hello
        exact hello
      · exact fun _ => h.core.attachment hc
      · intro p hp
        have hshake := h.core.connects p hp
        rw [hl] at hshake
        exact hshake
      · intro id' decoder' handshake' hl'
        cases hl'
      · intro hd
        have hl' := h.disposed hd
        rw [hl] at hl'
        cases hl'
      · exact h.disposing
    · exact hopens
  · exact hopens

theorem Inv.openFailed (text : String) : (w.openFailed id text).Inv := by
  have hopens : ({ w with opening := w.opening.erase id } : World Dec).Inv :=
    ⟨{ h.core with hello := h.core.hello }, h.disposed, h.disposing⟩
  unfold World.openFailed
  dsimp only
  split
  · exact hopens.fail _
  · exact hopens

theorem Inv.setDecoder (decoder : Dec) :
    ({ w with lifecycle := w.lifecycle.setDecoder decoder } : World Dec).Inv := by
  have hstate : (w.lifecycle.setDecoder decoder).state = w.lifecycle.state := by cases w.lifecycle <;> rfl
  have hconn : ({ w with lifecycle := w.lifecycle.setDecoder decoder } : World Dec).connected = w.connected := by
    unfold World.connected
    rw [← hstate]
  refine ⟨{ h.core with hello := ?_, attachment := ?_, connects := ?_, window := ?_ }, ?_,
    h.disposing⟩
  · rw [hconn]
    exact h.core.hello
  · rw [hconn]
    exact h.core.attachment
  · intro p hp
    rw [← h.core.connects p hp]
    cases w.lifecycle <;> rfl
  · intro id decoder' handshake hl
    cases hold : w.lifecycle with
    | disconnected | connecting => rw [hold] at hl; cases hl
    | connected id' old handshake' =>
      rw [hold] at hl
      cases hl
      exact h.core.window id old handshake hold
  · intro hd
    rw [h.disposed hd]
    rfl

theorem Inv.push (hd : frame ≠ .disposing ∧ frame ≠ .disposed) :
    (w.push frame).Inv where
  core := h.core.push
  disposed := h.disposed
  disposing := by
    intro hmem
    refine h.disposing (hmem.imp ?_ ?_)
    · exact fun hmem => (mem_cons.mp hmem).resolve_left hd.1.symm
    · exact fun hmem => (mem_cons.mp hmem).resolve_left hd.2.symm

theorem Inv.handleData (id : Nat) (chunk : Chunk) :
    (w.handleData options id chunk).Inv := by
  unfold World.handleData
  split
  · exact h
  · split
    · exact h
    · rename_i hcur
      split
      · exact h.fail _
      · have hid : w.lifecycle.id? = some id := by simpa [isCurrent] using hcur
        have hfed : ({ w with fed := w.fed ++ [(id, (w.lifecycle.id?).getD 0)] } : World Dec).Inv := by
          refine ⟨{ h.core with fed := ?_ }, h.disposed, h.disposing⟩
          intro c hc
          rcases mem_append.mp hc with hc | hc
          · exact h.core.fed c hc
          · rw [mem_singleton.mp hc, hid]
            rfl
        split
        · exact hfed.fail _
        · exact (hfed.setDecoder _).push (by simp)

theorem Inv.handleClose (id : Nat) :
    (w.handleClose options id).Inv := by
  unfold World.handleClose
  split
  · exact h
  · split
    · exact h
    · split
      · exact h.fail _
      · exact h.fail _

theorem Inv.handleError (text : String) : (w.handleError id text).Inv := by
  unfold World.handleError
  split
  · exact h.fail _
  · exact h

/-! ## Messages -/

theorem Inv.setAttachment (hc : w.connected = true) (attachment : Option SessionTarget) :
    (w.setAttachment attachment .attached).Inv := by
  unfold World.setAttachment
  split
  · exact h
  · have hset : ({ w with attachment := attachment } : World Dec).Inv := by
      refine ⟨{ h.core with attachment := ?_ }, h.disposed, h.disposing⟩
      intro hc'
      rw [show w.connected = false from hc'] at hc
      cases hc
    exact hset.push (by simp)

omit h

/-- A request that is taken out of the pending ones has to be settled, here or by a frame. -/
theorem Core.take (h : w.Core) {r : PendingRequest} (hr : r ∈ w.pendingRequests)
    (hpending : w'.pendingRequests = w.pendingRequests.filter fun q => q.id ≠ r.id)
    (hreqs : ∀ p, w'.requests[p]? = some none →
      w.requests[p]? = some none ∧ (p ≠ r.promise ∨ ∃ reason, .rejects p reason ∈ w'.stack))
    (hstack : ∀ frame ∈ w.stack, frame ∈ w'.stack) :
    ∀ p, w'.requests[p]? = some none →
      (∃ q ∈ w'.pendingRequests, q.promise = p) ∨ ∃ reason, .rejects p reason ∈ w'.stack := by
  intro p hp
  obtain ⟨hp, hframe⟩ := hreqs p hp
  rcases hframe with hne | hframe
  · rcases h.requests p hp with ⟨q, hq, hqp⟩ | ⟨reason, hmem⟩
    · refine .inl ⟨q, ?_, hqp⟩
      rw [hpending, mem_filter]
      refine ⟨hq, ?_⟩
      have hne' : q.id ≠ r.id := by
        intro hid
        have heq : q = r := inj_on_of_nodup_map h.ids hq hr hid
        rw [heq] at hqp
        exact hne hqp.symm
      simpa using hne'
    · exact .inr ⟨reason, hstack _ hmem⟩
  · exact .inr hframe

theorem Inv.handleResponse (h : w.Inv) (hc : w.connected = true) (id : Nat) (error : Option String)
    (decodes : Except String Unit) : (w.handleResponse id error decodes).Inv := by
  unfold World.handleResponse
  split
  · exact h.fail _
  · rename_i r hfind
    have hr := mem_of_find?_eq_some hfind
    have hid : r.id = id := by simpa using find?_some hfind
    subst hid
    have hids : ((w.pendingRequests.filter fun q => q.id ≠ r.id).map (·.id)).Nodup :=
      h.core.ids.sublist (filter_sublist.map _)
    have hbelow : ∀ q ∈ w.pendingRequests.filter (fun q => q.id ≠ r.id), q.id ≤ w.requestSequence :=
      fun q hq => h.core.idsBelow q (mem_filter.mp hq).1
    have hconn : ∀ {P : Prop}, w.connected = false → P := by
      intro P hc'
      rw [hc] at hc'
      cases hc'
    have hsettle : ∀ outcome listeners, ({ w with
        pendingRequests := w.pendingRequests.filter fun q => q.id ≠ r.id
        serviceListeners := listeners
        requests := w.requests.settle r.promise outcome } : World Dec).Inv := by
      intro outcome listeners
      refine ⟨{ h.core with requests := ?_, ids := hids, idsBelow := hbelow }, h.disposed, h.disposing⟩
      refine h.core.take hr rfl ?_ (fun _ hmem => hmem)
      intro p hp
      obtain ⟨hp, hne⟩ := Promises.settle_pending hp
      exact ⟨hp, .inl hne⟩
    split
    · exact hsettle _ w.serviceListeners
    · exact hsettle _ w.serviceListeners
    · exact hsettle _ _
    · rename_i text _
      have htaken : (({ w with pendingRequests := w.pendingRequests.filter fun q => q.id ≠ r.id } : World Dec).push
          (.rejects r.promise (.given text))).Inv := by
        refine ⟨⟨h.core.hello, h.core.attachment, ?_, hids, hbelow, h.core.connects, ?_, h.core.handled,
          h.core.fed⟩, h.disposed, ?_⟩
        · refine h.core.take hr rfl ?_ (fun _ hmem => mem_cons_of_mem _ hmem)
          intro p hp
          by_cases hpr : p = r.promise
          · rw [hpr] at hp ⊢
            exact ⟨hp, .inr ⟨_, mem_cons_self⟩⟩
          · exact ⟨hp, .inl hpr⟩
        · intro id decoder handshake hl
          obtain ⟨serverId, hmem⟩ := h.core.window id decoder handshake hl
          exact ⟨serverId, mem_cons_of_mem _ hmem⟩
        · intro hmem
          refine h.disposing (hmem.imp ?_ ?_)
          · exact fun hmem => (mem_cons.mp hmem).resolve_left (fun heq => nomatch heq)
          · exact fun hmem => (mem_cons.mp hmem).resolve_left (fun heq => nomatch heq)
      exact htaken.fail _

theorem Inv.onMessage (h : w.Inv) (hc : w.connected = true) (options : Options Chunk Dec) (message : ServerMessage)
    (decodes : Except String Unit) : (w.onMessage options message decodes).Inv := by
  cases message with
  | hello | helloError => exact h
  | attachment attachment =>
    rw [World.onMessage]
    split
    · exact h.fail _
    · exact h.setAttachment hc attachment
  | serviceUpdate subscriptionId =>
    rw [World.onMessage]
    split
    · exact h
    · split
      · exact h.fail _
      · exact h
  | response id error => exact h.handleResponse hc id error decodes

theorem Inv.handleMessage (h : w.Inv) (options : Options Chunk Dec) (message : ServerMessage)
    (decodes : Except String Unit) : (w.handleMessage options message decodes).Inv := by
  unfold World.handleMessage
  split
  · exact h
  · rename_i id decoder transport handshake hl
    split
    · exact h.fail _
    · rename_i serverId
      split
      · exact h.fail _
      · split
        · exact h.fail _
        · rename_i htrans
          have htrans : transport = true := by simpa using htrans
          refine ⟨⟨rfl, ?_, ?_, h.core.ids, h.core.idsBelow, ?_, ?_, h.core.handled, h.core.fed⟩, ?_, ?_⟩
          · intro hc
            cases hc
          · intro p hp
            refine (h.core.requests p hp).imp_right ?_
            rintro ⟨reason, hmem⟩
            exact ⟨reason, mem_cons_of_mem _ hmem⟩
          · intro p hp
            have hshake := h.core.connects p hp
            rw [hl] at hshake
            exact hshake
          · intro id' decoder' handshake' hl'
            cases hl'
            exact ⟨serverId, mem_cons_self⟩
          · intro hd
            have hl' := h.disposed hd
            rw [hl] at hl'
            cases hl'
          · intro hmem
            refine h.disposing (hmem.imp ?_ ?_)
            · exact fun hmem => (mem_cons.mp hmem).resolve_left (fun heq => nomatch heq)
            · exact fun hmem => (mem_cons.mp hmem).resolve_left (fun heq => nomatch heq)
    · exact h.fail _
  · rename_i id decoder handshake hl
    have hc : w.connected = true := by
      unfold World.connected
      rw [hl]
      rfl
    split
    · exact h.fail _
    · exact h.fail _
    · exact h.onMessage hc options _ decodes

/-! ## Runs -/

/-- A call of `connect` is not on a connected client, a subscription is made while connected, and the loop over
the messages of a chunk does not go on with another connection. -/
def allowed (w : World Dec) : Event Chunk → Bool
  | .connect => !w.connected
  | .subscribeService _ => w.connected
  | .resume _ =>
    match w.stack with
    | .loop source (_ :: _) :: _ => w.lifecycle.id?.all fun current => current = source
    | _ => true
  | _ => true

/-- Whether requests or service listeners are left when the connection ends in a step. `dispose` has rejected the
requests by then, a response has taken its own request, and a request whose `send` throws is pending. -/
def busy (w : World Dec) : Event Chunk → Bool
  | .dispose => !w.serviceListeners.isEmpty
  | .request (.thrown _) | .subscribeService (.thrown _) | .disposeSubscription _ _ (.thrown _) => true
  | .resume _ =>
    match w.stack with
    | .loop _ (.response id _ :: _) :: _ => !(w.pendingRequests.all fun r => r.id = id) || !w.serviceListeners.isEmpty
    | _ => !w.pendingRequests.isEmpty || !w.serviceListeners.isEmpty
  | _ => !w.pendingRequests.isEmpty || !w.serviceListeners.isEmpty

/-- The step does not end a connection with an attachment, whose listeners are told of it first, while something
is pending. -/
def endsRested (options : Options Chunk Dec) (w : World Dec) (event : Event Chunk) : Bool :=
  w.attachment.isNone || !w.busy event || (w.step options event).all World.connected

theorem Inv.resume (h : w.Inv) (options : Options Chunk Dec) {decodes : Except String Unit}
    (hallowed : w.allowed (Event.resume decodes : Event Chunk) = true) (hw : w.resume options decodes = some w') :
    w'.Inv := by
  unfold World.resume at hw
  split at hw
  · cases hw
  · rename_i frame stack hs
    have hmem : ∀ {f : Frame}, f ∈ stack → f ∈ w.stack := by
      intro f hf
      rw [hs]
      exact mem_cons_of_mem _ hf
    have hdisp : Frame.disposing ∈ stack ∨ Frame.disposed ∈ stack → w.disposed = true :=
      fun hd => h.disposing (hd.imp hmem hmem)
    -- the frames that the invariant does not speak about
    have hpop : (∀ p reason, frame ≠ .rejects p reason) →
        (∀ id serverId, frame ≠ .connected id serverId) → ({ w with stack := stack } : World Dec).Inv := by
      intro hreject hwin
      refine ⟨h.core.pop hs ?_ ?_, h.disposed, hdisp⟩
      · exact fun p reason heq => absurd heq (hreject p reason)
      · exact fun id serverId heq => absurd heq (hwin id serverId)
    have hdisposed : frame = .disposing ∨ frame = .disposed → w.lifecycle = .disconnected := by
      intro hf
      refine h.disposed (h.disposing ?_)
      rw [hs]
      rcases hf with rfl | rfl
      · exact .inl mem_cons_self
      · exact .inr mem_cons_self
    cases frame with
    | connecting id =>
      cases hw
      have hpopped := hpop (by simp) (by simp)
      exact ⟨{ hpopped.core with hello := hpopped.core.hello }, hpopped.disposed, hpopped.disposing⟩
    | disconnected | attached =>
      cases hw
      exact hpop (by simp) (by simp)
    | cleared reason =>
      cases hw
      have hcore : (({ w with stack := stack } : World Dec).push (.cleared reason)).Core := by
        unfold World.push
        rw [← hs]
        exact h.core
      refine ⟨hcore.clear, h.disposed, ?_⟩
      intro hd
      refine hdisp (hd.imp ?_ ?_)
      · exact fun hd => (mem_cons.mp hd).resolve_left (fun heq => nomatch heq)
      · exact fun hd => (mem_cons.mp hd).resolve_left (fun heq => nomatch heq)
    | connected id serverId =>
      dsimp only at hw
      split at hw
      · rename_i current decoder handshake hl
        split at hw
        · rename_i hid
          cases hw
          have hful := h.core.fulfil hl (.ok serverId)
          refine ⟨hful.pop hs (by simp) ?_, ?_, hdisp⟩
          · intro id' serverId' heq decoder' handshake' hl'
            cases hl'
          · intro hd
            have hl' := h.disposed hd
            rw [hl] at hl'
            cases hl'
        · rename_i hid
          cases hw
          refine ⟨h.core.pop hs (by simp) ?_, h.disposed, hdisp⟩
          intro id' serverId' heq decoder' handshake' hl'
          cases heq
          rw [hl] at hl'
          cases hl'
          exact hid rfl
      · rename_i hl
        cases hw
        refine ⟨h.core.pop hs (by simp) ?_, h.disposed, hdisp⟩
        intro id' serverId' heq decoder' handshake' hl'
        exact hl id' decoder' handshake' hl'
    | loop source messages =>
      cases messages with
      | nil =>
        cases hw
        exact hpop (by simp) (by simp)
      | cons message messages =>
        dsimp only at hw
        split at hw
        · cases hw
          exact hpop (by simp) (by simp)
        · rename_i current hcur
          cases hw
          have hsrc : current = source := by
            rw [allowed, hs] at hallowed
            rw [hcur] at hallowed
            simpa using hallowed
          have hhandled : ({ w with stack := stack, handled := w.handled ++ [(source, current)] } : World Dec).Inv := by
            refine ⟨{ (hpop (by simp) (by simp)).core with handled := ?_ }, (hpop (by simp) (by simp)).disposed, (hpop (by simp) (by simp)).disposing⟩
            intro m hm
            rcases mem_append.mp hm with hm | hm
            · exact h.core.handled m hm
            · rw [mem_singleton.mp hm, hsrc]
          exact (hhandled.push (by simp)).handleMessage options message decodes
    | rejects promise reason =>
      cases hw
      have hsettled := h.settle promise (.error reason)
      refine ⟨hsettled.core.pop hs ?_ (by simp), h.disposed, hdisp⟩
      intro p reason' heq hp
      cases heq
      exact (Promises.settle_pending hp).2 rfl
    | disposing =>
      have hl := hdisposed (.inl rfl)
      have hc : w.connected = false := by
        unfold World.connected
        rw [hl]
        rfl
      have hnone := h.core.attachment hc
      have hpopped := hpop (by simp) (by simp)
      dsimp only at hw
      rw [if_pos hnone] at hw
      cases hw
      refine ⟨{ hpopped.core with hello := ?_ }, hpopped.disposed, hpopped.disposing⟩
      show false = w.connected
      exact hc.symm
    | disposed =>
      cases hw
      have hpopped := hpop (by simp) (by simp)
      exact ⟨{ hpopped.core with hello := hpopped.core.hello }, hpopped.disposed, hpopped.disposing⟩

/-- Every allowed event keeps the invariant. -/
theorem Inv.step (h : w.Inv) (options : Options Chunk Dec) {event : Event Chunk} (hallowed : w.allowed event = true)
    (hw : w.step options event = some w') : w'.Inv := by
  cases event with
  | connect =>
    obtain ⟨-, hw⟩ := ite_none_right_eq_some.mp hw
    cases hw
    exact h.connect options (by simpa [allowed] using hallowed)
  | disconnect | catalogueInvalid =>
    obtain ⟨-, hw⟩ := ite_none_right_eq_some.mp hw
    cases hw
    exact h.fail _
  | dispose =>
    obtain ⟨-, hw⟩ := ite_none_right_eq_some.mp hw
    cases hw
    exact h.dispose
  | request sending =>
    obtain ⟨-, hw⟩ := ite_none_right_eq_some.mp hw
    cases hw
    exact h.request none sending
  | abort id text thrown =>
    obtain ⟨-, hw⟩ := ite_none_right_eq_some.mp hw
    exact h.abort hw
  | subscribeService sending =>
    obtain ⟨-, hw⟩ := ite_none_right_eq_some.mp hw
    cases hw
    exact h.subscribeService sending
  | subscribeRejected id =>
    obtain ⟨-, hw⟩ := ite_none_right_eq_some.mp hw
    unfold World.subscribeRejected at hw
    split at hw
    · cases hw
    · split at hw
      · cases hw
        exact h.removeListener id
      · cases hw
  | disposeSubscription id target sending =>
    obtain ⟨-, hw⟩ := ite_none_right_eq_some.mp hw
    cases hw
    exact h.disposeSubscription id target sending
  | opened id =>
    obtain ⟨-, hw⟩ := ite_none_right_eq_some.mp hw
    cases hw
    exact h.opened id
  | openFailed id text =>
    obtain ⟨-, hw⟩ := ite_none_right_eq_some.mp hw
    cases hw
    exact h.openFailed id text
  | data id chunk =>
    obtain ⟨-, hw⟩ := ite_none_right_eq_some.mp hw
    cases hw
    exact h.handleData options id chunk
  | close id =>
    obtain ⟨-, hw⟩ := ite_none_right_eq_some.mp hw
    cases hw
    exact h.handleClose options id
  | error id text =>
    obtain ⟨-, hw⟩ := ite_none_right_eq_some.mp hw
    cases hw
    exact h.handleError id text
  | resume decodes => exact h.resume options hallowed hw

/-! ## Nothing is pending without a connection -/

structure Rested (w : World Dec) : Prop where
  pendingRequests : w.pendingRequests = []
  serviceListeners : w.serviceListeners = []

def Settles (w : World Dec) : Prop := w.connected = false → w.Rested

/-- Nothing is pending, or what is goes with the connection. -/
def Restful (w : World Dec) : Prop := w.Rested ∨ w.attachment = none ∧ w.connected = true

theorem Restful.settles (h : w.Restful) : w.Settles := by
  intro hc
  refine h.resolve_right ?_
  rintro ⟨-, hc'⟩
  cases hc.symm.trans hc'

theorem Restful.rested_fail (h : w.Restful) (reason : Reason) : (w.fail reason).Rested := by
  by_cases hs : w.lifecycle.state = .disconnected
  · rw [fail_disconnected hs]
    refine h.settles ?_
    rw [connected, hs]
    rfl
  · rw [fail_eq hs]
    split
    · exact ⟨rfl, rfl⟩
    · rename_i hattached
      have hrest := h.resolve_right fun hnone => hattached hnone.1
      exact ⟨hrest.pendingRequests, hrest.serviceListeners⟩

theorem Restful.fail (h : w.Restful) (reason : Reason) : (w.fail reason).Settles := fun _ => h.rested_fail reason

/-- A state that comes of `w` by something else than an end. -/
theorem Settles.same (h : w.Settles) (hc : w'.connected = w.connected) (hp : w'.pendingRequests = w.pendingRequests)
    (hl : w'.serviceListeners = w.serviceListeners) : w'.Settles := by
  intro hc'
  have hrest := h (hc.symm.trans hc')
  exact ⟨hp.trans hrest.pendingRequests, hl.trans hrest.serviceListeners⟩

theorem settles_connected (hc : w.connected = true) : w.Settles := by
  intro hc'
  cases hc.symm.trans hc'

theorem Settles.removeListener (h : w.Settles) (id : Nat) : (w.removeListener id).Settles := by
  intro hc
  refine ⟨(h hc).pendingRequests, ?_⟩
  show w.serviceListeners.filter _ = []
  rw [(h hc).serviceListeners]
  rfl

theorem Settles.request (h : w.Settles) (subscription : Option Nat) {sending : Sending}
    (hthrown : ∀ text, sending = .thrown text → w.connected = true → w.attachment = none) :
    (w.request subscription sending).Settles := by
  unfold World.request
  split
  · exact h.same rfl rfl rfl
  · split
    · exact h.same rfl rfl rfl
    · rename_i hconn
      have hc : w.connected = true := by simpa using hconn
      cases sending with
      | aborted | unencodable | sent => exact settles_connected hc
      | thrown text =>
        refine Restful.fail ?_ _
        exact .inr ⟨hthrown text rfl hc, hc⟩

theorem settles_handleResponse (hc : w.connected = true) {id : Nat} (error : Option String) (decodes : Except String Unit)
    (hrest : w.attachment = none ∨ (∀ r ∈ w.pendingRequests, r.id = id) ∧ w.serviceListeners = []) :
    (w.handleResponse id error decodes).Settles := by
  unfold World.handleResponse
  split
  · rename_i hfind
    refine Restful.fail (hrest.symm.imp ?_ fun hnone => ⟨hnone, hc⟩) _
    rintro ⟨hall, hl⟩
    refine ⟨eq_nil_iff_forall_not_mem.mpr fun r hr => ?_, hl⟩
    have hne := find?_eq_none.mp hfind r hr
    simp [hall r hr] at hne
  · split
    · exact settles_connected hc
    · exact settles_connected hc
    · exact settles_connected hc
    · refine Restful.fail ?_ _
      refine hrest.symm.imp ?_ fun hnone => ⟨hnone, hc⟩
      rintro ⟨hall, hl⟩
      refine ⟨?_, hl⟩
      show w.pendingRequests.filter _ = []
      exact filter_eq_nil_iff.mpr fun q hq => by simp [hall q hq]

theorem Settles.handleMessage (h : w.Settles) {options : Options Chunk Dec} {message : ServerMessage}
    {decodes : Except String Unit} (hended : w.attachment = none ∨ w.Rested ∨
      ∃ id error, message = .response id error ∧ (∀ r ∈ w.pendingRequests, r.id = id) ∧ w.serviceListeners = []) :
    (w.handleMessage options message decodes).Settles := by
  unfold World.handleMessage
  split
  · exact h
  · rename_i hl
    have hc : w.connected = false := by
      rw [connected, hl]
      rfl
    have hfail : ∀ reason, (w.fail reason).Settles := Restful.fail (.inl (h hc))
    split
    · exact hfail _
    · split
      · exact hfail _
      · split
        · exact hfail _
        · exact settles_connected rfl
    · exact hfail _
  · rename_i hl
    have hc : w.connected = true := by
      rw [connected, hl]
      rfl
    have hfail : (∀ id error, message ≠ .response id error) → ∀ reason, (w.fail reason).Settles := by
      intro hno
      refine Restful.fail ?_
      rcases hended with hnone | hrested | ⟨id, error, heq, -⟩
      · exact .inr ⟨hnone, hc⟩
      · exact .inl hrested
      · exact absurd heq (hno id error)
    cases message with
    | hello | helloError => exact hfail (by simp) _
    | attachment attachment =>
      dsimp only [onMessage]
      split
      · exact hfail (by simp) _
      · unfold World.setAttachment
        split
        · exact h
        · exact settles_connected hc
    | serviceUpdate subscriptionId =>
      dsimp only [onMessage]
      split
      · exact h
      · split
        · exact hfail (by simp) _
        · exact h
    | response id error =>
      refine settles_handleResponse hc error decodes (hended.imp_right ?_)
      rintro (hrested | ⟨id', error', heq, hleft⟩)
      · exact ⟨by simp [hrested.pendingRequests], hrested.serviceListeners⟩
      · cases heq
        exact hleft

theorem Settles.resume (h : w.Settles) {options : Options Chunk Dec} {decodes : Except String Unit}
    (hleft : w.attachment = none ∨ w.busy (Event.resume decodes : Event Chunk) = false)
    (hw : w.resume options decodes = some w') : w'.Settles := by
  unfold World.resume at hw
  split at hw
  · cases hw
  · rename_i frame stack hs
    cases frame with
    | connecting | disconnected | attached | rejects =>
      cases hw
      exact h.same rfl rfl rfl
    | cleared reason =>
      cases hw
      exact fun _ => ⟨rfl, rfl⟩
    | connected id serverId =>
      dsimp only at hw
      split at hw
      · split at hw
        · cases hw
          exact settles_connected rfl
        · cases hw
          exact h.same rfl rfl rfl
      · cases hw
        exact h.same rfl rfl rfl
    | loop source messages =>
      cases messages with
      | nil =>
        cases hw
        exact h.same rfl rfl rfl
      | cons message messages =>
        dsimp only at hw
        split at hw
        · cases hw
          exact h.same rfl rfl rfl
        · cases hw
          refine Settles.handleMessage ?_ ?_
          · exact h.same rfl rfl rfl
          refine hleft.imp_right ?_
          intro hbusy
          rw [busy, hs] at hbusy
          cases message with
          | response id error =>
            have hown : (∀ r ∈ w.pendingRequests, r.id = id) ∧ w.serviceListeners = [] := by simpa using hbusy
            exact .inr ⟨id, error, rfl, hown⟩
          | hello | helloError | attachment | serviceUpdate =>
            have hboth : w.pendingRequests = [] ∧ w.serviceListeners = [] := by simpa using hbusy
            exact .inl ⟨hboth.1, hboth.2⟩
    | disposing =>
      dsimp only at hw
      split at hw
      · cases hw
        exact fun hc => ⟨(h hc).pendingRequests, rfl⟩
      · cases hw
        exact h.same rfl rfl rfl
    | disposed =>
      cases hw
      exact fun hc => ⟨(h hc).pendingRequests, rfl⟩

/-- An allowed step that ends no connection under an attachment leaves nothing pending without a connection. -/
theorem Settles.step (h : w.Settles) {options : Options Chunk Dec} {event : Event Chunk}
    (hallowed : w.allowed event = true) (hends : w.endsRested options event = true)
    (hw : w.step options event = some w') : w'.Settles := by
  intro hc'
  have hleft : w.attachment = none ∨ w.busy event = false := by
    rw [endsRested, hw] at hends
    simpa [hc', Option.isNone_iff_eq_none] using hends
  have hthrown : ∀ sending : Sending, (∀ text, sending = .thrown text → w.busy event = true) →
      ∀ text, sending = .thrown text → w.connected = true → w.attachment = none := by
    intro sending hbusy text heq _
    refine hleft.resolve_right ?_
    rw [hbusy text heq]
    exact Bool.noConfusion
  have hrestful : (w.busy event = false → w.pendingRequests = [] ∧ w.serviceListeners = []) → w.Restful := by
    intro hbusy
    cases hc : w.connected with
    | false => exact .inl (h hc)
    | true => exact hleft.symm.imp (fun hnot => ⟨(hbusy hnot).1, (hbusy hnot).2⟩) fun hnone => ⟨hnone, hc⟩
  refine (?_ : w'.Settles) hc'
  cases event with
  | connect =>
    obtain ⟨-, hw⟩ := ite_none_right_eq_some.mp hw
    cases hw
    have hc : w.connected = false := by simpa [allowed] using hallowed
    have hrest : ∀ v : World Dec, v.pendingRequests = w.pendingRequests → v.serviceListeners = w.serviceListeners →
        v.Settles := fun v hp hl _ => ⟨hp.trans (h hc).pendingRequests, hl.trans (h hc).serviceListeners⟩
    unfold World.connect
    split
    · exact hrest _ rfl rfl
    · split
      · exact hrest _ rfl rfl
      · exact hrest _ rfl rfl
  | disconnect reason | catalogueInvalid text =>
    obtain ⟨-, hw⟩ := ite_none_right_eq_some.mp hw
    cases hw
    exact (hrestful (by simp [busy])).fail _
  | dispose =>
    obtain ⟨-, hw⟩ := ite_none_right_eq_some.mp hw
    cases hw
    unfold World.dispose
    split
    · exact h
    · refine Restful.fail ?_ _
      cases hc : w.connected with
      | false => exact .inl ⟨rfl, (h hc).serviceListeners⟩
      | true =>
        refine hleft.symm.imp ?_ fun hnone => ⟨hnone, hc⟩
        intro hbusy
        exact ⟨rfl, show w.serviceListeners = [] by simpa [busy] using hbusy⟩
  | request sending =>
    obtain ⟨-, hw⟩ := ite_none_right_eq_some.mp hw
    cases hw
    exact h.request none (hthrown sending (by rintro text rfl; rfl))
  | abort id text thrown =>
    obtain ⟨-, hw⟩ := ite_none_right_eq_some.mp hw
    have hr := hrestful (by simp [busy])
    unfold World.abort at hw
    split at hw
    · cases hw
    · dsimp only at hw
      split at hw
      · cases hw
        split
        · refine Restful.fail ?_ _
          exact hr.imp (fun hr => ⟨hr.pendingRequests, hr.serviceListeners⟩) fun hn => hn
        · exact h.same rfl rfl rfl
      · cases hw
        exact h.same rfl rfl rfl
  | subscribeService sending =>
    obtain ⟨-, hw⟩ := ite_none_right_eq_some.mp hw
    cases hw
    refine Settles.request ?_ _ (hthrown sending (by rintro text rfl; rfl))
    exact settles_connected hallowed
  | subscribeRejected id =>
    obtain ⟨-, hw⟩ := ite_none_right_eq_some.mp hw
    unfold World.subscribeRejected at hw
    split at hw
    · cases hw
    · split at hw
      · cases hw
        exact h.removeListener id
      · cases hw
  | disposeSubscription id target sending =>
    obtain ⟨-, hw⟩ := ite_none_right_eq_some.mp hw
    cases hw
    unfold World.disposeSubscription
    dsimp only
    split
    · exact (h.removeListener id).request none (hthrown sending (by rintro text rfl; rfl))
    · exact h.removeListener id
  | opened id =>
    obtain ⟨-, hw⟩ := ite_none_right_eq_some.mp hw
    cases hw
    unfold World.opened
    dsimp only
    split
    · rename_i hl
      have hc : w.connected = false := by
        rw [connected, hl]
        rfl
      split
      · exact fun _ => ⟨(h hc).pendingRequests, (h hc).serviceListeners⟩
      · exact h.same rfl rfl rfl
    · exact h.same rfl rfl rfl
  | openFailed id text =>
    obtain ⟨-, hw⟩ := ite_none_right_eq_some.mp hw
    cases hw
    unfold World.openFailed
    dsimp only
    split
    · refine Restful.fail ?_ _
      exact (hrestful (by simp [busy])).imp (fun hr => ⟨hr.pendingRequests, hr.serviceListeners⟩) fun hn => hn
    · exact h.same rfl rfl rfl
  | data id chunk =>
    obtain ⟨-, hw⟩ := ite_none_right_eq_some.mp hw
    cases hw
    have hr := hrestful (by simp [busy])
    unfold World.handleData
    split
    · exact h
    · split
      · exact h
      · split
        · exact hr.fail _
        · dsimp only
          split
          · refine Restful.fail ?_ _
            exact hr.imp (fun hr => ⟨hr.pendingRequests, hr.serviceListeners⟩) fun hn => hn
          · refine h.same ?_ rfl rfl
            cases hl : w.lifecycle <;> simp [connected, World.push, hl, Lifecycle.setDecoder, Lifecycle.state]
  | close id =>
    obtain ⟨-, hw⟩ := ite_none_right_eq_some.mp hw
    cases hw
    have hr := hrestful (by simp [busy])
    unfold World.handleClose
    split
    · exact h
    · split
      · exact h
      · split
        · exact hr.fail _
        · exact hr.fail _
  | error id text =>
    obtain ⟨-, hw⟩ := ite_none_right_eq_some.mp hw
    cases hw
    unfold World.handleError
    split
    · exact (hrestful (by simp [busy])).fail _
    · exact h
  | resume decodes => exact h.resume hleft hw

def allowedRun (options : Options Chunk Dec) (w : World Dec) : List (Event Chunk) → Bool
  | [] => true
  | event :: events =>
    w.allowed event && w.endsRested options event && (w.step options event).all fun w => w.allowedRun options events

theorem Inv.run (h : w.Inv) (options : Options Chunk Dec) {events : List (Event Chunk)}
    (hrest : w.Settles) (hallowed : w.allowedRun options events = true)
    (hw : w.run options events = some w') : w'.Inv ∧ w'.Settles := by
  induction events generalizing w with
  | nil =>
    cases hw
    exact ⟨h, hrest⟩
  | cons event events ih =>
    obtain ⟨w₁, hw₁, hw⟩ := bind_eq_some_iff.mp hw
    rw [allowedRun, Bool.and_eq_true, Bool.and_eq_true, hw₁] at hallowed
    obtain ⟨⟨hstep, hends⟩, hallowed⟩ := hallowed
    exact ih (h.step options hstep hw₁) (hrest.step hstep hends hw₁) hallowed hw

end World

end Shuvpi.Connection
