import Mathlib.Algebra.Order.Ring.Rat
import Mathlib.Data.List.Infix
import Mathlib.Tactic.Common

/-!
# Rate-limited publication

`harness/utils/adaptive-publisher.ts`, for any values and updates. The owner's methods are lists of
pieces, which a publication interrupts: its listener may call methods again before it returns, or
throw, and then what is left of the interrupted method is left out.
-/
namespace Shuvpi.AdaptivePublisher

open List Option

variable {S V U : Type}

structure Options (S V U : Type) where
  snapshot : S → V
  update : Option V → V → Option U
  measure : U → Nat
  minIntervalMs : ℚ
  targetBytesPerSecond : ℚ

structure Publisher (V : Type) where
  published : Option V
  dirty : Bool
  nextEmitAt : ℚ
  timer : Bool

/-- A change of the owner, and whether it marks the publisher dirty; or a flush. -/
inductive Piece (S : Type) where
  | change (f : S → S × Bool)
  | flush (force : Bool)

structure World (S V U : Type) where
  owner : S
  publisher : Publisher V
  /-- The updates that were published, each with the view it was made for. -/
  log : List (U × V)
  /-- How often the clock has been read. -/
  reads : Nat
  /-- What the methods whose publications are being listened to have still to do, the innermost first. -/
  stack : List (List (Piece S))

def World.start (owner : S) : World S V U := ⟨owner, ⟨none, false, 0, false⟩, [], 0, []⟩

section Steps
variable (o : Options S V U) (clock : Nat → ℚ)

def armTimer (w : World S V U) : World S V U := { w with publisher := { w.publisher with timer := true } }

/-- `flush(force)`, and whether it publishes. -/
def flush (force : Bool) (w : World S V U) : World S V U × Bool :=
  if !w.publisher.dirty then (w, false)
  else
    let now := clock w.reads
    let w := { w with reads := w.reads + 1 }
    if !force ∧ now < w.publisher.nextEmitAt then (armTimer w, false)
    else
      let current := o.snapshot w.owner
      match o.update w.publisher.published current with
      | none =>
        ({ w with publisher := { w.publisher with published := some current, dirty := false, timer := false } }, false)
      | some update =>
        let encodedBytes := o.measure update
        ({ w with
            publisher :=
              ⟨some current, false, now + max o.minIntervalMs (encodedBytes * 1000 / o.targetBytesPerSecond), false⟩
            log := w.log ++ [(update, current)] }, true)

def markDirty (w : World S V U) : World S V U × Bool :=
  let w := { w with publisher := { w.publisher with dirty := true } }
  let wait := w.publisher.nextEmitAt - clock w.reads
  let w := { w with reads := w.reads + 1 }
  if wait ≤ 0 then flush o clock false w else (armTimer w, false)

def perform (w : World S V U) : Piece S → World S V U × Bool
  | .change f =>
    let next := f w.owner
    let w := { w with owner := next.1 }
    if next.2 then markDirty o clock w else (w, false)
  | .flush force => flush o clock force w

/-- The pieces of a method, up to the first that publishes. -/
def runPieces (w : World S V U) : List (Piece S) → World S V U
  | [] => w
  | piece :: pieces =>
    let next := perform o clock w piece
    if next.2 then { next.1 with stack := pieces :: next.1.stack } else runPieces next.1 pieces

/-- A method is called, by the listener where one is running; the listener returns or throws; or
the timer fires. -/
inductive Event (S : Type) where
  | call (method : S → List (Piece S))
  | listenerReturns
  | listenerThrows
  | timer

def step (w : World S V U) : Event S → World S V U
  | .call method => runPieces o clock w (method w.owner)
  | .listenerReturns =>
    match w.stack with
    | [] => w
    | pieces :: stack => runPieces o clock { w with stack := stack } pieces
  | .listenerThrows => { w with stack := w.stack.tail }
  | .timer =>
    if w.stack.isEmpty ∧ w.publisher.timer then
      runPieces o clock { w with publisher := { w.publisher with timer := false } } [.flush false]
    else w

def run (w : World S V U) (events : List (Event S)) : World S V U := events.foldl (step o clock) w

end Steps

/-! ## Folding the updates -/

/-- The view after some updates. -/
def view (apply : Option V → U → V) (log : List (U × V)) : Option V :=
  log.foldl (fun current entry => some (apply current entry.1)) none

/-- Applying an update gives the value it was made for. -/
structure Updates (o : Options S V U) (apply : Option V → U → V) : Prop where
  some : ∀ previous current update, o.update previous current = .some update → apply previous update = current
  none : ∀ previous current, o.update previous current = .none → previous = .some current

/-- A piece that does not mark the publisher dirty does not change the view. -/
def Piece.Marks (o : Options S V U) : Piece S → Prop
  | .change f => ∀ s, (f s).2 = false → o.snapshot (f s).1 = o.snapshot s
  | .flush _ => True

/-- All publications are folded to their views. -/
structure Folded (o : Options S V U) (apply : Option V → U → V) (w : World S V U) : Prop where
  folds : ∀ before entry after, w.log = before ++ entry :: after → view apply (before ++ [entry]) = some entry.2
  published : view apply w.log = w.publisher.published
  stack : ∀ pieces ∈ w.stack, ∀ piece ∈ pieces, piece.Marks o

/-- A clean publisher has published what there is. -/
structure Inv (o : Options S V U) (apply : Option V → U → V) (w : World S V U) : Prop extends Folded o apply w where
  clean : w.publisher.dirty = false → ∀ v ∈ w.publisher.published, v = o.snapshot w.owner

section Invariant
variable {o : Options S V U} {apply : Option V → U → V} {clock : Nat → ℚ} {w : World S V U}

theorem view_concat (log : List (U × V)) (entry : U × V) :
    view apply (log ++ [entry]) = some (apply (view apply log) entry.1) := by
  rw [view, foldl_append]
  rfl

theorem Inv.start (owner : S) : Inv o apply (.start owner : World S V U) :=
  ⟨⟨fun before entry after h => (append_ne_nil_of_right_ne_nil before (cons_ne_nil entry after) h.symm).elim,
    rfl, fun _ h => (not_mem_nil h).elim⟩, fun _ _ h => (not_mem_none _ h).elim⟩

variable (happly : Updates o apply)
include happly

/-- What a flush does. -/
theorem flush_inv (force : Bool) (h : Inv o apply w) : Inv o apply (flush o clock force w).1 ∧
      (force = true → (flush o clock force w).1.publisher.dirty = false ∧
        (w.publisher.dirty = true → (flush o clock force w).1.publisher.published = some (o.snapshot w.owner))) ∧
      (flush o clock force w).1.owner = w.owner := by
  rw [flush]
  split
  · rename_i hclean
    rw [Bool.not_eq_true'] at hclean
    refine ⟨h, fun _ => ⟨hclean, fun hdirty => ?_⟩, rfl⟩
    rw [hclean] at hdirty
    cases hdirty
  · rename_i hdirty
    dsimp only
    split
    · rename_i hlater
      refine ⟨⟨⟨h.folds, h.published, h.stack⟩, h.clean⟩, fun hforce => ?_, rfl⟩
      rw [hforce] at hlater
      cases hlater.1
    · split
      · rename_i hnone
        have hsame := happly.none _ _ hnone
        refine ⟨⟨⟨h.folds, h.published.trans hsame, h.stack⟩, fun _ v hv => (some.inj hv).symm⟩,
          fun _ => ⟨rfl, fun _ => rfl⟩, rfl⟩
      · rename_i update hsome
        have hview : view apply (w.log ++ [(update, o.snapshot w.owner)]) = some (o.snapshot w.owner) := by
          rw [view_concat, h.published, happly.some _ _ _ hsome]
        refine ⟨⟨⟨fun before entry after heq => ?_, hview, h.stack⟩, fun _ v hv => (some.inj hv).symm⟩,
          fun _ => ⟨rfl, fun _ => rfl⟩, rfl⟩
        rcases eq_nil_or_concat after with rfl | ⟨after, last, rfl⟩
        · obtain ⟨hlog, hentry⟩ := append_inj' heq rfl
          rw [← hlog, ← cons.inj hentry |>.1]
          exact hview
        · rw [concat_eq_append, ← cons_append, ← append_assoc] at heq
          exact h.folds before entry after (append_inj' heq rfl).1

theorem markDirty_inv (h : Folded o apply w) : Inv o apply (markDirty o clock w).1 := by
  have hdirty : Inv o apply { w with publisher := { w.publisher with dirty := true }, reads := w.reads + 1 } :=
    ⟨⟨h.folds, h.published, h.stack⟩, fun hclean => Bool.noConfusion hclean⟩
  rw [markDirty]
  split
  · exact (flush_inv happly false hdirty).1
  · exact ⟨⟨h.folds, h.published, h.stack⟩, fun hclean => Bool.noConfusion hclean⟩

theorem perform_inv (h : Inv o apply w) {piece : Piece S} (hpiece : piece.Marks o) :
    Inv o apply (perform o clock w piece).1 := by
  cases piece with
  | flush force => exact (flush_inv happly force h).1
  | change f =>
    rw [perform]
    split
    · exact markDirty_inv happly ⟨h.folds, h.published, h.stack⟩
    · rename_i hmark
      rw [Bool.not_eq_true] at hmark
      refine ⟨⟨h.folds, h.published, h.stack⟩, fun hclean v hv => ?_⟩
      rw [h.clean hclean v hv]
      exact (hpiece _ hmark).symm

theorem runPieces_inv (h : Inv o apply w) {pieces : List (Piece S)}
    (hpieces : ∀ piece ∈ pieces, piece.Marks o) : Inv o apply (runPieces o clock w pieces) := by
  induction pieces generalizing w with
  | nil => exact h
  | cons piece pieces ih =>
    have hnext := @perform_inv _ _ _ _ _ clock _ happly h _ (hpieces piece mem_cons_self)
    have hrest := fun t ht => hpieces t (mem_cons_of_mem _ ht)
    rw [runPieces]
    split
    · refine ⟨⟨hnext.folds, hnext.published, fun ts hts => ?_⟩, hnext.clean⟩
      rcases mem_cons.mp hts with rfl | hts
      · exact hrest
      · exact hnext.stack ts hts
    · exact ih hnext hrest

omit happly

/-- Methods whose changes mark the publisher dirty. -/
def Event.Marks (o : Options S V U) : Event S → Prop
  | .call method => ∀ s, ∀ piece ∈ method s, piece.Marks o
  | _ => True

theorem step_inv (happly : Updates o apply) (h : Inv o apply w) {event : Event S} (hevent : event.Marks o) :
    Inv o apply (step o clock w event) := by
  cases event with
  | call method => exact runPieces_inv happly h (hevent w.owner)
  | listenerReturns =>
    rw [step]
    split
    · exact h
    · rename_i pieces stack hstack
      have hall := h.stack
      rw [hstack] at hall
      have hpop : Inv o apply { w with stack := stack } :=
        ⟨⟨h.folds, h.published, fun ts hts => hall ts (mem_cons_of_mem _ hts)⟩, h.clean⟩
      exact runPieces_inv happly hpop (hall pieces mem_cons_self)
  | listenerThrows =>
    exact ⟨⟨h.folds, h.published, fun ts hts => h.stack ts (mem_of_mem_tail hts)⟩, h.clean⟩
  | timer =>
    rw [step]
    split
    · have hfired : Inv o apply { w with publisher := { w.publisher with timer := false } } :=
        ⟨⟨h.folds, h.published, h.stack⟩, h.clean⟩
      refine runPieces_inv happly hfired fun piece hpiece => ?_
      rw [mem_singleton.mp hpiece]
      trivial
    · exact h

theorem run_inv (happly : Updates o apply) (h : Inv o apply w) {events : List (Event S)}
    (hevents : ∀ event ∈ events, event.Marks o) : Inv o apply (run o clock w events) := by
  induction events generalizing w with
  | nil => exact h
  | cons event events ih =>
    exact ih (step_inv happly h (hevents event mem_cons_self)) fun e he => hevents e (mem_cons_of_mem _ he)

/-- As long as nothing has been marked since, the last publication is what there is. -/
theorem view_clean (h : Inv o apply w) (hsome : w.log ≠ []) (hclean : w.publisher.dirty = false) :
    view apply w.log = some (o.snapshot w.owner) := by
  obtain ⟨entry, hentry⟩ : ∃ entry, w.log.getLast? = some entry := isSome_iff_exists.mp (by simpa using hsome)
  have hlast := h.folds w.log.dropLast entry [] (dropLast_append_getLast? entry hentry).symm
  rw [dropLast_append_getLast? entry hentry] at hlast
  rw [hlast, h.clean hclean entry.2 (h.published.symm.trans hlast)]

/-- A forced flush publishes what there is, unless nothing has ever been marked. -/
theorem flush_current (happly : Updates o apply) (h : Inv o apply w)
    (hsome : w.log ≠ [] ∨ w.publisher.dirty = true) :
    view apply (runPieces o clock w [.flush true]).log =
      some (o.snapshot (runPieces o clock w [.flush true]).owner) := by
  obtain ⟨hinv, hforced, howner⟩ := @flush_inv _ _ _ _ _ clock _ happly true h
  have hrun : (runPieces o clock w [.flush true]).log = (flush o clock true w).1.log ∧
      (runPieces o clock w [.flush true]).owner = (flush o clock true w).1.owner := by
    rw [runPieces, runPieces, perform]
    split <;> exact ⟨rfl, rfl⟩
  rw [hrun.1, hrun.2]
  cases hdirty : w.publisher.dirty with
  | true => rw [hinv.published, howner, (hforced rfl).2 hdirty]
  | false =>
    have hsame : (flush o clock true w).1 = w := by
      rw [flush, hdirty]
      rfl
    rw [hsame]
    exact view_clean h (hsome.resolve_right (by rw [hdirty]; exact Bool.false_ne_true)) hdirty

end Invariant

end Shuvpi.AdaptivePublisher
