import Shuvpi.ClientLifecycle

/-!
# Runs of a client

What holds in every state that a run of allowed events reaches, and that a promise keeps the
outcome it was settled with.
-/
open List Option

namespace Shuvpi.Connection

variable {Chunk Dec : Type}

namespace World

/-! ## Promises stay settled -/

/-- The promises of a state that are settled keep their outcomes. -/
def Keeps (w w' : World Dec) : Prop := w.connects.Extends w'.connects ∧ w.requests.Extends w'.requests

variable (w : World Dec)

theorem Keeps.refl : w.Keeps w := ⟨.refl _, .refl _⟩

variable {a b c : World Dec}

theorem Keeps.trans (h : a.Keeps b) (h' : b.Keeps c) : a.Keeps c := ⟨h.1.trans h'.1, h.2.trans h'.2⟩

/-- What a later state keeps, a state with the same promises keeps. -/
theorem Keeps.from_ (h : b.Keeps c) (hc : a.connects.Extends b.connects)
    (hr : a.requests.Extends b.requests) : a.Keeps c := Keeps.trans ⟨hc, hr⟩ h

variable (reason : Reason)

theorem keeps_rejectPending : w.Keeps (w.rejectPendingRequests reason) := by
  refine ⟨.refl _, ?_⟩
  show w.requests.Extends (w.pendingRequests.foldl _ w.requests)
  generalize w.requests = promises
  induction w.pendingRequests generalizing promises with
  | nil => exact .refl _
  | cons r pending ih => exact (Promises.extends_settle promises r.promise _).trans (ih _)

theorem keeps_fail : w.Keeps (w.fail reason) := by
  by_cases hs : w.lifecycle.state = .disconnected
  · rw [fail_disconnected hs]
    exact .refl w
  · have hended : w.Keeps (w.ended reason) := by
      refine ⟨?_, .refl _⟩
      show w.connects.Extends (w.connects.settleIf w.lifecycle.handshake? (.error reason))
      cases w.lifecycle.handshake? with
      | none => exact .refl _
      | some handshake => exact Promises.extends_settle _ _ _
    rw [fail_eq hs]
    split
    · exact hended.trans (keeps_rejectPending (w.ended reason) reason)
    · exact hended

theorem keeps_request (subscription : Option Nat) (sending : Sending) :
    w.Keeps (w.request subscription sending) := by
  unfold request
  split
  · exact ⟨.refl _, Promises.extends_append _ _⟩
  · split
    · exact ⟨.refl _, Promises.extends_append _ _⟩
    · cases sending with
      | aborted | unencodable | sent => exact ⟨.refl _, Promises.extends_append _ _⟩
      | thrown text => exact (keeps_fail _ _).from_ (.refl _) (Promises.extends_append _ _)

variable (options : Options Chunk Dec) (message : ServerMessage)

variable (decodes : Except String Unit)

/-- A bound on the frames that are still to come when all listeners return. -/
def Frame.weight : Frame → Nat
  | .loop _ messages => 1 + 4 * messages.length
  | .cleared _ => 2
  | .disposing => 2
  | _ => 1

def weight (w : World Dec) : Nat := (w.stack.map Frame.weight).sum

end World

/-! A server whose chunks are lists of messages. -/

/-- A connection is made and its listeners return. -/
def connecting : List (Event (List ServerMessage)) :=
  [.connect, .resume (.ok ()), .opened 1, .data 1 [.hello "server"], .resume (.ok ()), .resume (.ok ()), .resume (.ok ())]

/-- A request is answered, and a second one is open when the transport closes. -/
def exchange : List (Event (List ServerMessage)) :=
  connecting ++ [.request .sent, .data 1 [.response 1 none], .resume (.ok ()), .resume (.ok ()), .request .sent, .close 1,
    .resume (.ok ())]

/-- A session is attached, and then a request is open. -/
def attaching : List (Event (List ServerMessage)) :=
  connecting ++ [.data 1 [.attachment (some ⟨"server", "session", "attachment"⟩)], .resume (.ok ()), .resume (.ok ()),
    .resume (.ok ()), .request .sent]

end Shuvpi.Connection
