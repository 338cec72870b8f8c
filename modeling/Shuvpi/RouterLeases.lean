import Shuvpi.SessionRouter
import Mathlib.Tactic

/-!
# Leases that are released once

What an attachment goes through: its lease is acquired or not, and `releaseAttachment` calls
`release` on it at most once. A call that is invoked on a lease before its release begins has
settled when the lease is released.
-/
namespace Shuvpi.Router

open Function

namespace ClientAttachment

/-- The release is over but for its publication. -/
def finished (x : ClientAttachment) : Prop :=
  match x.releasing with
  | .clearing _ | .settled _ => True
  | _ => False

/-- No lease is held, and none will be. -/
def ended (x : ClientAttachment) : Prop := x.finished ∨ x.acquiring = .rejected

/-- The calls of `lease.release` fit the stage of the release. -/
def fits (x : ClientAttachment) : Prop :=
  match x.releasing with
  | .idle | .operations _ | .leasing => x.releases = 0
  | .calling => x.releases = 1 ∧ x.acquiring = .fulfilled
  | .clearing _ | .settled _ =>
    x.member = false ∧ ((x.acquiring = .fulfilled ∧ x.releases = 1) ∨ (x.acquiring = .rejected ∧ x.releases = 0))

theorem release_cases (x : ClientAttachment) (n : Nat) (publish : Bool) :
    (x.releasing = .idle ∧ x.release n publish = { x with releasing := .operations n, publish := publish }) ∨
      (x.releasing ≠ .idle ∧ x.release n publish = x) := by
  unfold release
  split
  · rename_i h
    exact .inl ⟨h, rfl⟩
  · rename_i h
    exact .inr ⟨h, rfl⟩

variable {x : ClientAttachment}

theorem finished.not_idle (h : x.finished) : x.releasing ≠ .idle := by
  intro hi
  unfold finished at h
  rw [hi] at h
  exact h

theorem fits.of_finished (h : x.fits) (hf : x.finished) :
    x.member = false ∧ ((x.acquiring = .fulfilled ∧ x.releases = 1) ∨ (x.acquiring = .rejected ∧ x.releases = 0)) := by
  unfold fits at h
  unfold finished at hf
  cases hr : x.releasing <;> rw [hr] at h hf
  case clearing => exact h
  case settled => exact h
  all_goals exact hf.elim

theorem fits.released (h : x.fits) (hf : x.finished) (ha : x.acquiring = .fulfilled) : x.releases = 1 := by
  rcases (h.of_finished hf).2 with ⟨-, hone⟩ | ⟨hrej, -⟩
  · exact hone
  · exact nomatch ha.symm.trans hrej

/-- A lease is released at most once, and only when there is one. -/
theorem fits.releases_cases (h : x.fits) : x.releases = 0 ∨ (x.releases = 1 ∧ x.acquiring = .fulfilled) := by
  unfold fits at h
  cases hr : x.releasing <;> rw [hr] at h
  case idle => exact .inl h
  case operations => exact .inl h
  case leasing => exact .inl h
  case calling => exact .inr h
  case clearing => exact h.2.elim (fun hf => .inr ⟨hf.2, hf.1⟩) (fun hr => .inl hr.2)
  case settled => exact h.2.elim (fun hf => .inr ⟨hf.2, hf.1⟩) (fun hr => .inl hr.2)

end ClientAttachment

namespace Leases

structure Inv (l : Leases) : Prop where
  fits : ∀ a, (l.attachment a).fits
  lease : ∀ a, (l.attachment a).lease = true → (l.attachment a).acquiring = .fulfilled
  registered : ∀ c a, l.byClient c = some a → a < l.count ∧ (l.attachment a).client = c ∧ (l.attachment a).lease = true ∧
    ¬ (l.attachment a).finished
  member : ∀ a, a < l.count → ¬ (l.attachment a).ended → (l.attachment a).member = true
  calls : ∀ k, k < l.callCount → (l.call k).attachment < l.count ∧
    (l.attachment (l.call k).attachment).client = (l.call k).client ∧ (l.call k).target.2 = (l.call k).attachment

/-- A change in which attachments go on and some are no longer registered. -/
structure Later (l l' : Leases) : Prop where
  count : l'.count = l.count
  callCount : l'.callCount = l.callCount
  call : ∀ k, (l'.call k).attachment = (l.call k).attachment ∧ (l'.call k).client = (l.call k).client ∧
    (l'.call k).target = (l.call k).target
  same : ∀ a, ((l'.attachment a).client, (l'.attachment a).session, (l'.attachment a).operation) =
    ((l.attachment a).client, (l.attachment a).session, (l.attachment a).operation)
  finished : ∀ a, (l.attachment a).finished → (l'.attachment a).finished
  acquiring : ∀ a, (l.attachment a).acquiring ≠ .pending → (l'.attachment a).acquiring = (l.attachment a).acquiring
  releasing : ∀ a, (l.attachment a).releasing ≠ .idle → (l'.attachment a).releasing ≠ .idle
  releases : ∀ a, (l.attachment a).releases ≤ (l'.attachment a).releases
  member : ∀ a, ¬ (l'.attachment a).ended → (l'.attachment a).member = (l.attachment a).member
  lease : ∀ a, (l.attachment a).lease = true → (l'.attachment a).lease = true
  byClient : ∀ c, l'.byClient c = l.byClient c ∨
    (l'.byClient c = none ∧ ∀ a, l.byClient c = some a → (l'.attachment a).finished)

/-- What can happen to one attachment. -/
structure GoesOn (x x' : ClientAttachment) : Prop where
  same : (x'.client, x'.session, x'.operation) = (x.client, x.session, x.operation)
  finished : x.finished → x'.finished
  acquiring : x.acquiring ≠ .pending → x'.acquiring = x.acquiring
  releasing : x.releasing ≠ .idle → x'.releasing ≠ .idle
  releases : x.releases ≤ x'.releases
  member : ¬ x'.ended → x'.member = x.member
  lease : x.lease = true → x'.lease = true

theorem GoesOn.refl (x : ClientAttachment) : GoesOn x x := ⟨rfl, id, fun _ => rfl, id, Nat.le_refl _, fun _ => rfl, id⟩

variable {l l' : Leases}

variable {attachment : Nat → ClientAttachment}

/-- Attachments go on without losing their registration. -/
theorem Later.attachments (h : ∀ a, GoesOn (l.attachment a) (attachment a)) :
    l.Later { l with attachment := attachment } where
  count := rfl
  callCount := rfl
  call := fun _ => ⟨rfl, rfl, rfl⟩
  same := fun a => (h a).same
  finished := fun a => (h a).finished
  acquiring := fun a => (h a).acquiring
  releasing := fun a => (h a).releasing
  releases := fun a => (h a).releases
  member := fun a => (h a).member
  lease := fun a => (h a).lease
  byClient := fun _ => .inl rfl

variable {a : Nat} {x : ClientAttachment}

theorem goesOn_update (h : GoesOn (l.attachment a) x) (b : Nat) :
    GoesOn (l.attachment b) (update l.attachment a x b) := by
  by_cases hb : b = a
  · rw [hb, update_self]
    exact h
  · rw [update_of_ne hb]
    exact .refl _

theorem Later.set (h : GoesOn (l.attachment a) x) : l.Later (l.set a x) := .attachments (goesOn_update h)

theorem goesOn_release (x : ClientAttachment) (n : Nat) (publish : Bool) : GoesOn x (x.release n publish) := by
  rcases x.release_cases n publish with ⟨hi, h⟩ | ⟨-, h⟩
  · rw [h]
    refine ⟨rfl, ?_, fun _ => rfl, fun hne => absurd hi hne, Nat.le_refl _, fun _ => rfl, id⟩
    intro hf
    exact absurd hi hf.not_idle
  · rw [h]
    exact .refl x

theorem Later.releaseAll (taken : Nat → Bool) (publish : Bool) : l.Later (l.releaseAll taken publish) := by
  refine .attachments fun a => ?_
  split
  · exact goesOn_release _ _ _
  · exact .refl _

theorem Later.trans {l'' : Leases} (h : l.Later l') (h' : l'.Later l'') : l.Later l'' where
  count := h'.count.trans h.count
  callCount := h'.callCount.trans h.callCount
  call := fun k => ⟨(h'.call k).1.trans (h.call k).1, (h'.call k).2.1.trans (h.call k).2.1, (h'.call k).2.2.trans (h.call k).2.2⟩
  same := fun a => (h'.same a).trans (h.same a)
  finished := fun a hf => h'.finished a (h.finished a hf)
  acquiring := by
    intro a hne
    have heq := h.acquiring a hne
    rw [← heq] at hne ⊢
    exact h'.acquiring a hne
  releasing := fun a hne => h'.releasing a (h.releasing a hne)
  releases := fun a => (h.releases a).trans (h'.releases a)
  member := by
    intro a hne
    rw [h'.member a hne]
    refine h.member a fun hended => hne ?_
    rcases hended with hf | hr
    · exact .inl (h'.finished a hf)
    · exact .inr ((h'.acquiring a (by rw [hr]; simp)).trans hr)
  lease := fun a hl => h'.lease a (h.lease a hl)
  byClient := by
    intro c
    rcases h'.byClient c with hc' | ⟨hnone, hf⟩
    · rcases h.byClient c with hc | ⟨hnone, hf⟩
      · exact .inl (hc'.trans hc)
      · exact .inr ⟨hc'.trans hnone, fun a ha => h'.finished a (hf a ha)⟩
    · rcases h.byClient c with hc | ⟨-, hf'⟩
      · exact .inr ⟨hnone, fun a ha => hf a (hc.trans ha)⟩
      · exact .inr ⟨hnone, fun a ha => h'.finished a (hf' a ha)⟩

/-! ## What keeps the invariant -/

theorem initial_inv : World.initial.leases.Inv where
  fits := fun _ => rfl
  lease := fun _ h => nomatch h
  registered := fun _ _ h => nomatch h
  member := fun _ ha => absurd ha (Nat.not_lt_zero _)
  calls := fun _ hk => absurd hk (Nat.not_lt_zero _)

/-- Attachments go on, each by itself. -/
theorem Inv.attachments (i : l.Inv) (h : ∀ a, GoesOn (l.attachment a) (attachment a))
    (hfits : ∀ a, (attachment a).fits)
    (hlease : ∀ a, (attachment a).lease = true → (attachment a).acquiring = .fulfilled)
    (hfin : ∀ a, (attachment a).finished → (l.attachment a).finished ∨ ∀ c, l.byClient c ≠ some a) :
    ({ l with attachment := attachment } : Leases).Inv where
  fits := hfits
  lease := hlease
  registered := by
    intro c a ha
    obtain ⟨hlt, hcli, hl, hf⟩ := i.registered c a ha
    refine ⟨hlt, (congrArg (·.1) (h a).same).trans hcli, (h a).lease hl, ?_⟩
    intro hf'
    rcases hfin a hf' with hold | hno
    · exact hf hold
    · exact hno c ha
  member := by
    intro a ha hne
    refine ((h a).member hne).trans (i.member a ha fun hended => hne ?_)
    rcases hended with hf | hr
    · exact .inl ((h a).finished hf)
    · exact .inr (((h a).acquiring (by rw [hr]; simp)).trans hr)
  calls := by
    intro k hk
    obtain ⟨hlt, hcli, htgt⟩ := i.calls k hk
    exact ⟨hlt, (congrArg (·.1) (h _).same).trans hcli, htgt⟩

theorem Inv.set (i : l.Inv) (h : GoesOn (l.attachment a) x) (hfits : x.fits)
    (hlease : x.lease = true → x.acquiring = .fulfilled)
    (hfin : x.finished → (l.attachment a).finished ∨ ∀ c, l.byClient c ≠ some a) : (l.set a x).Inv := by
  refine i.attachments (goesOn_update h) ?_ ?_ ?_
  · intro b
    by_cases hb : b = a
    · rw [hb, update_self]
      exact hfits
    · rw [update_of_ne hb]
      exact i.fits b
  · intro b
    by_cases hb : b = a
    · rw [hb, update_self]
      exact hlease
    · rw [update_of_ne hb]
      exact i.lease b
  · intro b
    by_cases hb : b = a
    · rw [hb, update_self]
      exact hfin
    · rw [update_of_ne hb]
      exact .inl

theorem Inv.releaseAll (i : l.Inv) (taken : Nat → Bool) (publish : Bool) : (l.releaseAll taken publish).Inv := by
  have hcases : ∀ a, (l.attachment a).release l.callCount publish = l.attachment a ∨
      ((l.attachment a).releasing = .idle ∧ (l.attachment a).release l.callCount publish =
        { l.attachment a with releasing := .operations l.callCount, publish := publish }) :=
    fun a => ((l.attachment a).release_cases l.callCount publish).symm.imp_left And.right
  refine i.attachments ?_ ?_ ?_ ?_
  · intro a
    split
    · exact goesOn_release _ _ _
    · exact .refl _
  · intro a
    have hfits := i.fits a
    split
    · rcases hcases a with h | ⟨hi, h⟩
      · rw [h]
        exact hfits
      · rw [h]
        unfold ClientAttachment.fits at hfits ⊢
        rw [hi] at hfits
        exact hfits
    · exact hfits
  · intro a
    split
    · rcases hcases a with h | ⟨-, h⟩ <;> rw [h] <;> exact i.lease a
    · exact i.lease a
  · intro a
    split
    · rcases hcases a with h | ⟨-, h⟩
      · rw [h]
        exact .inl
      · rw [h]
        exact False.elim
    · exact .inl

theorem Inv.release (i : l.Inv) (a : Nat) (publish : Bool) : (l.release a publish).Inv := i.releaseAll _ publish

/-! The promises of a release. -/

variable {fulfilled : Bool}

theorem Inv.acquired (i : l.Inv) (h : l.acquired a fulfilled = some l') : l'.Inv ∧ l.Later l' := by
  unfold Leases.acquired at h
  split at h
  · rename_i ha
    cases h
    have hfits := i.fits a
    have hgoes : GoesOn (l.attachment a) { l.attachment a with acquiring := if fulfilled then .fulfilled else .rejected } :=
      ⟨rfl, id, fun hne => absurd ha.2 hne, id, Nat.le_refl _, fun _ => rfl, id⟩
    refine ⟨i.set hgoes ?_ ?_ .inl, .set hgoes⟩
    · unfold ClientAttachment.fits at hfits ⊢
      rw [ha.2] at hfits
      cases hr : (l.attachment a).releasing <;> rw [hr] at hfits
      all_goals first | exact hfits | simp at hfits
    · intro hl
      exact nomatch ha.2.symm.trans (i.lease a hl)
  · cases h

theorem Inv.setReleasing (i : l.Inv) (hunfin : ¬ (l.attachment a).finished)
    {releasing : Releasing} (hr : releasing = .leasing ∧ (l.attachment a).releases = 0 ∨ releasing = .calling ∧
      (l.attachment a).releases = 0 ∧ (l.attachment a).acquiring = .fulfilled) :
    (l.set a { l.attachment a with
        releasing := releasing
        releases := (l.attachment a).releases + (if releasing = .calling then 1 else 0) }).Inv ∧
      l.Later (l.set a { l.attachment a with
        releasing := releasing
        releases := (l.attachment a).releases + (if releasing = .calling then 1 else 0) }) := by
  have hgoes : GoesOn (l.attachment a) { l.attachment a with
      releasing := releasing
      releases := (l.attachment a).releases + (if releasing = .calling then 1 else 0) } := by
    refine ⟨rfl, fun hf => absurd hf hunfin, fun _ => rfl, ?_, Nat.le_add_right _ _, fun _ => rfl, id⟩
    rcases hr with ⟨rfl, -⟩ | ⟨rfl, -⟩ <;> simp
  refine ⟨i.set hgoes ?_ (i.lease a) ?_, .set hgoes⟩
  · rcases hr with ⟨rfl, hz⟩ | ⟨rfl, hz, hf⟩
    · exact hz
    · exact ⟨by rw [hz]; rfl, hf⟩
  · rcases hr with ⟨rfl, -⟩ | ⟨rfl, -⟩ <;> exact False.elim

theorem Inv.unregister (i : l.Inv) (c : Nat) : ({ l with byClient := update l.byClient c none } : Leases).Inv := by
  refine ⟨i.fits, i.lease, ?_, i.member, i.calls⟩
  intro c' a ha
  dsimp only at ha
  by_cases hc : c' = c
  · rw [hc, update_self] at ha
    cases ha
  · rw [update_of_ne hc] at ha
    exact i.registered c' a ha

theorem Later.unregister (h : l.Later l') {c : Nat} (hf : ∀ a, l.byClient c = some a → (l'.attachment a).finished) :
    l.Later { l' with byClient := update l'.byClient c none } := by
  refine ⟨h.count, h.callCount, h.call, h.same, h.finished, h.acquiring, h.releasing, h.releases, h.member, h.lease, ?_⟩
  intro c'
  dsimp only
  by_cases hc : c' = c
  · rw [hc, update_self]
    exact .inr ⟨rfl, hf⟩
  · rw [update_of_ne hc]
    exact h.byClient c'

variable (i : l.Inv)
include i

theorem Inv.clear
    (hx : ((l.attachment a).acquiring = .fulfilled ∧ (l.attachment a).releases = 1) ∨
      ((l.attachment a).acquiring = .rejected ∧ (l.attachment a).releases = 0)) :
    (l.clear a fulfilled).Inv ∧ l.Later (l.clear a fulfilled) := by
  have hgoes : ∀ {releasing : Releasing}, ({ l.attachment a with releasing := releasing } : ClientAttachment).finished →
      GoesOn (l.attachment a) { l.attachment a with member := false, releasing := releasing } := by
    intro releasing hf
    refine ⟨rfl, fun _ => hf, fun _ => rfl, ?_, Nat.le_refl _, fun hended => absurd (.inl hf) hended, id⟩
    exact fun _ => ClientAttachment.finished.not_idle hf
  have hcli : ∀ c, l.byClient c = some a → c = (l.attachment a).client := fun c hc => (i.registered c a hc).2.1.symm
  unfold Leases.clear
  dsimp only
  split
  · rename_i hreg
    have hun := i.unregister (l.attachment a).client
    have hno : ∀ c, ({ l with byClient := update l.byClient (l.attachment a).client none } : Leases).byClient c ≠ some a := by
      intro c hc
      dsimp only at hc
      by_cases hcc : c = (l.attachment a).client
      · rw [hcc, update_self] at hc
        cases hc
      · rw [update_of_ne hcc] at hc
        exact hcc (hcli c hc)
    have hboth : ∀ releasing : Releasing, ({ l.attachment a with releasing := releasing } : ClientAttachment).finished →
        ({ l.attachment a with member := false, releasing := releasing } : ClientAttachment).fits →
        ({ l.set a { l.attachment a with member := false, releasing := releasing } with
          byClient := update l.byClient (l.attachment a).client none } : Leases).Inv ∧
        l.Later { l.set a { l.attachment a with member := false, releasing := releasing } with
          byClient := update l.byClient (l.attachment a).client none } := by
      intro releasing hf hfits
      refine ⟨hun.set (hgoes hf) hfits (i.lease a) (fun _ => .inr hno), (Later.set (hgoes hf)).unregister ?_⟩
      intro b hb
      rw [hreg] at hb
      rw [← Option.some.inj hb]
      show (update l.attachment a { l.attachment a with member := false, releasing := releasing } a).finished
      rw [update_self]
      exact hf
    split
    · exact hboth _ trivial ⟨rfl, hx⟩
    · exact hboth _ trivial ⟨rfl, hx⟩
  · rename_i hunregistered
    have hsettled : ({ l.attachment a with releasing := .settled fulfilled } : ClientAttachment).finished := trivial
    refine ⟨i.set (hgoes hsettled) ⟨rfl, hx⟩ (i.lease a) (fun _ => .inr ?_), .set (hgoes hsettled)⟩
    intro c hc
    exact hunregistered (hcli c hc ▸ hc)

theorem Inv.resume (h : l.resume a = some l') : l'.Inv ∧ l.Later l' := by
  have hfits := i.fits a
  unfold Leases.resume at h
  dsimp only at h
  unfold ClientAttachment.fits at hfits
  cases hr : (l.attachment a).releasing <;> rw [hr] at h hfits
  case operations before =>
    have hunfin : ¬ (l.attachment a).finished := by
      unfold ClientAttachment.finished
      rw [hr]
      exact id
    dsimp only at h
    split at h
    · split at h
      · rename_i hl
        cases h
        exact i.setReleasing hunfin (.inr ⟨rfl, hfits, i.lease a hl⟩)
      · cases h
        exact i.setReleasing hunfin (.inl ⟨rfl, hfits⟩)
    · cases h
  case leasing =>
    have hunfin : ¬ (l.attachment a).finished := by
      unfold ClientAttachment.finished
      rw [hr]
      exact id
    dsimp only at h
    split at h
    · cases h
    · rename_i ha
      cases h
      exact i.setReleasing hunfin (.inr ⟨rfl, hfits, ha⟩)
    · rename_i ha
      cases h
      exact i.clear (.inr ⟨ha, hfits⟩)
  all_goals cases h

theorem Inv.released (h : l.released a fulfilled = some l') : l'.Inv ∧ l.Later l' := by
  have hfits := i.fits a
  unfold Leases.released at h
  split at h
  · rename_i hr
    cases h
    unfold ClientAttachment.fits at hfits
    rw [hr] at hfits
    exact i.clear (.inl ⟨hfits.2, hfits.1⟩)
  · cases h

theorem Inv.published (h : l.published a fulfilled = some l') : l'.Inv ∧ l.Later l' := by
  have hfits := i.fits a
  unfold Leases.published at h
  split at h
  · rename_i earlier hr
    cases h
    have hf : (l.attachment a).finished := by
      unfold ClientAttachment.finished
      rw [hr]
      trivial
    have hgoes : GoesOn (l.attachment a) { l.attachment a with releasing := .settled (earlier && fulfilled) } := by
      refine ⟨rfl, fun _ => trivial, fun _ => rfl, fun _ => by simp, Nat.le_refl _, fun _ => rfl, id⟩
    exact ⟨i.set hgoes (hfits.of_finished hf) (i.lease a) (fun _ => .inl hf), .set hgoes⟩
  · cases h

theorem Inv.settle (k : Nat) : (l.settle k).Inv ∧ l.Later (l.settle k) := by
  have hcall : ∀ k', ((l.settle k).call k').attachment = (l.call k').attachment ∧ ((l.settle k).call k').client = (l.call k').client ∧
      ((l.settle k).call k').target = (l.call k').target := by
    intro k'
    unfold Leases.settle
    dsimp only
    by_cases hk : k' = k
    · rw [hk, update_self]
      exact ⟨rfl, rfl, rfl⟩
    · rw [update_of_ne hk]
      exact ⟨rfl, rfl, rfl⟩
  refine ⟨⟨i.fits, i.lease, i.registered, i.member, ?_⟩, rfl, rfl, hcall, fun _ => rfl, fun _ => id, fun _ _ => rfl, fun _ => id,
    fun _ => Nat.le_refl _, fun _ _ => rfl, fun _ => id, fun _ => .inl rfl⟩
  intro k' hk
  obtain ⟨ha, hc, ht⟩ := hcall k'
  rw [ha, hc, ht]
  exact i.calls k' hk

/-! What an operation does with its attachment. -/

theorem Inv.setLease (ha : (l.attachment a).acquiring = .fulfilled) :
    (l.set a { l.attachment a with lease := true }).Inv ∧ l.Later (l.set a { l.attachment a with lease := true }) := by
  have hgoes : GoesOn (l.attachment a) { l.attachment a with lease := true } :=
    ⟨rfl, id, fun _ => rfl, id, Nat.le_refl _, fun _ => rfl, fun _ => rfl⟩
  exact ⟨i.set hgoes (i.fits a) (fun _ => ha) .inl, .set hgoes⟩

theorem Inv.dropMember (ha : (l.attachment a).acquiring = .rejected) :
    (l.set a { l.attachment a with member := false }).Inv ∧ l.Later (l.set a { l.attachment a with member := false }) := by
  have hgoes : GoesOn (l.attachment a) { l.attachment a with member := false } :=
    ⟨rfl, id, fun _ => rfl, id, Nat.le_refl _, fun hended => absurd (.inr ha) hended, id⟩
  refine ⟨i.set hgoes ?_ (i.lease a) .inl, .set hgoes⟩
  have hfits := i.fits a
  unfold ClientAttachment.fits at hfits ⊢
  cases hr : (l.attachment a).releasing <;> rw [hr] at hfits
  case clearing => exact ⟨rfl, hfits.2⟩
  case settled => exact ⟨rfl, hfits.2⟩
  all_goals exact hfits

theorem Inv.register (ha : a < l.count) (hl : (l.attachment a).lease = true)
    (hf : ¬ (l.attachment a).finished) : (l.register a).Inv := by
  refine ⟨i.fits, i.lease, ?_, i.member, i.calls⟩
  intro c b hb
  unfold Leases.register at hb
  dsimp only at hb
  by_cases hc : c = (l.attachment a).client
  · have hab : a = b := by
      rw [hc, update_self] at hb
      exact Option.some.inj hb
    rw [← hab]
    exact ⟨ha, hc.symm, hl, hf⟩
  · rw [update_of_ne hc] at hb
    exact i.registered c b hb

omit i

variable (client session operation : Nat)

theorem create_last : (l.create client session operation).attachment l.count =
    ⟨client, session, operation, .pending, false, true, true, .idle, 0⟩ := update_self _ _ _

theorem create_of_lt (ha : a < l.count) :
    (l.create client session operation).attachment a = l.attachment a := update_of_ne ha.ne _ _

theorem Inv.create (i : l.Inv) (client session operation : Nat) : (l.create client session operation).Inv := by
  have hother : ∀ {a}, a ≠ l.count → (l.create client session operation).attachment a = l.attachment a :=
    fun ha => update_of_ne ha _ _
  refine ⟨?_, ?_, ?_, ?_, ?_⟩
  · intro a
    by_cases ha : a = l.count
    · rw [ha, create_last]
      rfl
    · rw [hother ha]
      exact i.fits a
  · intro a
    by_cases ha : a = l.count
    · rw [ha, create_last]
      exact fun hl => nomatch hl
    · rw [hother ha]
      exact i.lease a
  · intro c a hc
    have h := i.registered c a hc
    rw [create_of_lt client session operation h.1]
    exact ⟨Nat.lt_succ_of_lt h.1, h.2⟩
  · intro a hlt hne
    by_cases ha : a = l.count
    · rw [ha, create_last]
    · rw [hother ha] at hne ⊢
      exact i.member a (Nat.lt_of_le_of_ne (Nat.le_of_lt_succ hlt) ha) hne
  · intro k hk
    obtain ⟨hlt, hcli, htgt⟩ := i.calls k hk
    have hx := create_of_lt client session operation hlt
    exact ⟨Nat.lt_succ_of_lt hlt, (congrArg ClientAttachment.client hx).trans hcli, htgt⟩

theorem Inv.invoke (i : l.Inv) {client : Nat} {target : String × Nat} (ha : l.byClient client = some a)
    (ht : target.2 = a) :
    (l.invoke a client target).Inv := by
  obtain ⟨hlt, hcli, -, -⟩ := i.registered client a ha
  refine ⟨i.fits, i.lease, i.registered, i.member, ?_⟩
  intro k hk
  unfold Leases.invoke at hk ⊢
  dsimp only at hk ⊢
  by_cases hne : k = l.callCount
  · rw [hne, update_self]
    exact ⟨hlt, hcli, ht⟩
  · rw [update_of_ne hne]
    exact i.calls k (Nat.lt_of_le_of_ne (Nat.le_of_lt_succ hk) hne)

theorem Inv.forgetClients (i : l.Inv) : ({ l with byClient := fun _ => none } : Leases).Inv :=
  ⟨i.fits, i.lease, fun _ _ h => (nomatch h), i.member, i.calls⟩

end Leases

end Shuvpi.Router
