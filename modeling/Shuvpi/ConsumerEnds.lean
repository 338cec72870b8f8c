import Shuvpi.ConsumerBindings

/-!
# Bindings that are superseded

Rebinding, disposing and the last observer's stop supersede every start of the bindings they
concern, and close the subscriptions that these hold.
-/
namespace Shuvpi.Consumer

open Function

variable {F S U : Type}

namespace World

/-! ## Subscriptions that are closed -/

section Closing

variable (w : World F) (taken : Nat → Bool) (t : Nat)

theorem closing_fields : ((w.closing taken t).binding, (w.closing taken t).revision, (w.closing taken t).bound,
    (w.closing taken t).stage, (w.closing taken t).activated) =
    ((w.start t).binding, (w.start t).revision, (w.start t).bound, (w.start t).stage, (w.start t).activated) := by
  unfold closing
  dsimp only
  split <;> rfl

@[simp] theorem closing_binding : (w.closing taken t).binding = (w.start t).binding := congrArg (·.1) (closing_fields w taken t)

@[simp] theorem closing_revision : (w.closing taken t).revision = (w.start t).revision :=
  congrArg (·.2.1) (closing_fields w taken t)

@[simp] theorem closing_bound : (w.closing taken t).bound = (w.start t).bound := congrArg (·.2.2.1) (closing_fields w taken t)

@[simp] theorem closing_stage : (w.closing taken t).stage = (w.start t).stage := congrArg (·.2.2.2.1) (closing_fields w taken t)

@[simp] theorem closing_activated : (w.closing taken t).activated = (w.start t).activated :=
  congrArg (·.2.2.2.2) (closing_fields w taken t)

variable {w taken t}

theorem closing_kept (ht : taken (w.start t).binding = false ∨ (w.binding (w.start t).binding).subscription ≠ some t) :
    w.closing taken t = w.start t := by
  unfold closing
  rw [if_neg]
  rw [Bool.and_eq_true, decide_eq_true_eq]
  rintro ⟨htaken, hs⟩
  rcases ht with ht | ht
  · rw [ht] at htaken
    cases htaken
  · exact ht hs

theorem closing_taken (ht : taken (w.start t).binding = true) (hs : (w.binding (w.start t).binding).subscription = some t) :
    (w.closing taken t).closes = (w.start t).closes + 1 := by
  unfold closing
  rw [if_pos]
  rw [ht, hs]
  simp

end Closing

variable {w w' : World F} {taken : Nat → Bool}

variable {t : Nat}

/-- Of the subscriptions that were returned, those of the bindings taken away are closed. -/
theorem Inv.closing_returned (h : w.Inv none) (htaken : ∀ b, taken b = true → b < w.bindingCount ∧ (w.binding b).live = true)
    (ht : (w.start t).stage = .returned) :
    (w.Current t (w.start t).binding ∧ taken (w.start t).binding = false ∧
      (w.binding (w.start t).binding).subscription = some t ∧ (w.closing taken t).closes = 0) ∨
    ((¬ w.Current t (w.start t).binding ∨ taken (w.start t).binding = true) ∧ (w.closing taken t).closes = 1) := by
  cases hc : taken (w.start t).binding with
  | true =>
    refine .inr ⟨.inr rfl, ?_⟩
    rcases h.returned t ht with ⟨-, hs, hcloses⟩ | ⟨hnot, hcloses⟩
    · rw [closing_taken hc hs, hcloses]
    · rw [closing_kept (.inr ?_), hcloses]
      intro hs
      obtain ⟨hb, hlive⟩ := htaken _ hc
      exact hnot (h.subscription _ t hb hlive hs).1
  | false =>
    rw [closing_kept (.inl hc)]
    rcases h.returned t ht with ⟨hcur, hs, hcloses⟩ | ⟨hnot, hcloses⟩
    · exact .inl ⟨hcur, rfl, hs, hcloses⟩
    · exact .inr ⟨.inl hnot, hcloses⟩

theorem Inv.closing_unclosed (h : w.Inv none) (htaken : ∀ b, taken b = true → b < w.bindingCount ∧ (w.binding b).live = true)
    (ht : (w.start t).stage ≠ .returned) : (w.closing taken t).closes = 0 := by
  rw [closing_kept]
  · exact h.unclosed t ht
  · cases hc : taken (w.start t).binding with
    | false => exact .inl rfl
    | true =>
      right
      intro hs
      obtain ⟨hb, hlive⟩ := htaken _ hc
      exact ht (h.subscription _ t hb hlive hs).2.1

/-! ## Revisions that are superseded -/

/-- A change that supersedes the starts of some bindings; the others stay as they are. What is rebound waits in a start
of its own. -/
structure Supersedes (w w' : World F) (taken : Nat → Bool) : Prop where
  live : ∀ b, taken b = true → b < w.bindingCount ∧ (w.binding b).live = true
  count : w'.bindingCount = w.bindingCount
  failed : w'.failed = w.failed
  modes : w'.modes = w.modes
  singletons : ∀ s b, w'.singletons s = some b → w.singletons s = some b ∧ (w'.binding b).live = true
  keyed : ∀ s b, w'.keyed s = some b → w.keyed s = some b ∧ (w'.binding b).live = true
  kept : ∀ b, taken b = false → w'.binding b = w.binding b
  mapped : ∀ b, (w'.binding b).live = true → w'.inMap b = w.inMap b
  key : ∀ b, (w'.binding b).mode = (w.binding b).mode ∧ (w'.binding b).serviceId = (w.binding b).serviceId
  revision : ∀ b, (w.binding b).revision ≤ (w'.binding b).revision
  ended : ∀ b, taken b = true → (w'.binding b).live = true → (w'.binding b).subscription = none
  rebound : ∀ b, taken b = true → (w'.binding b).live = true →
    (w.binding b).revision < (w'.binding b).revision ∧ (w'.binding b).observers = (w.binding b).observers ∧
      ((w'.binding b).mode = .keyed → (w'.binding b).bound = w'.bound) ∧ w.startCount + b < w'.startCount ∧
      w'.start (w.startCount + b) = ⟨b, (w'.binding b).revision, w'.bound, .waiting, 0, false⟩
  startCount : w.startCount ≤ w'.startCount
  start : ∀ t, t < w.startCount → w'.start t = w.closing taken t
  fresh : ∀ t, w.startCount ≤ t → ((w'.start t).stage = .unused ∧ (w'.start t).closes = 0) ∨
    ∃ b, t = w.startCount + b ∧ taken b = true ∧ (w'.binding b).live = true
  bound : w'.bound = w.bound ∨ ∀ b, b < w.bindingCount → (w'.binding b).live = true → taken b = true
  disposed : w'.disposed = true → ∀ b, b < w.bindingCount → (w'.binding b).live = false

namespace Supersedes

variable (a : w.Supersedes w' taken) (h : w.Inv none)

include a

variable {b : Nat}

/-- A start that is made for a binding which is rebound. -/
theorem start_new (ht : taken b = true) (hlive : (w'.binding b).live = true) :
    w'.start (w.startCount + b) = ⟨b, (w'.binding b).revision, w'.bound, .waiting, 0, false⟩ :=
  (a.rebound b ht hlive).2.2.2.2

theorem current_new (ht : taken b = true) (hlive : (w'.binding b).live = true) : w'.Current (w.startCount + b) b := by
  have hstart := a.start_new ht hlive
  refine ⟨(a.rebound b ht hlive).2.2.2.1, ?_, ?_, hlive, ?_⟩
  · rw [hstart]
  · rw [hstart]
    simp
  · rw [hstart]

theorem pending_old (ht : t < w.startCount) : w'.pending t ↔ w.pending t := by
  unfold pending
  rw [a.start t ht, closing_stage]

/-- The binding as a whole is bound or not as before, unless all that is in use is rebound. -/
theorem bound_kept (hb : b < w.bindingCount) (hlive : (w'.binding b).live = true) (ht : taken b = false) :
    w'.bound = w.bound := by
  rcases a.bound with hbound | hall
  · exact hbound
  · rw [hall b hb hlive] at ht
    cases ht

include h

theorem current_old (ht : t < w.startCount) : w'.Current t b ↔ w.Current t b ∧ taken b = false := by
  constructor
  · intro hc
    have hbind := hc.binding
    have hused := hc.used
    have hrev := hc.revision
    rw [a.start t ht] at hbind hused hrev
    rw [closing_binding] at hbind
    rw [closing_stage] at hused
    rw [closing_revision] at hrev
    cases htaken : taken b with
    | true =>
      have hle := (h.starts t ht hused).2
      rw [hbind] at hle
      have hlt := (a.rebound b htaken hc.live).1
      omega
    | false =>
      have hlive := hc.live
      rw [a.kept b htaken] at hlive hrev
      exact ⟨⟨ht, hbind, hused, hlive, hrev⟩, rfl⟩
  · rintro ⟨hc, htaken⟩
    refine ⟨Nat.lt_of_lt_of_le ht a.startCount, ?_, ?_, ?_, ?_⟩
    · rw [a.start t ht, closing_binding]
      exact hc.binding
    · rw [a.start t ht, closing_stage]
      exact hc.used
    · rw [a.kept b htaken]
      exact hc.live
    · rw [a.start t ht, closing_revision, a.kept b htaken]
      exact hc.revision

/-- A start that is current is one of before, or the one a rebind waits in. -/
theorem current_cases (hc : w'.Current t b) : (t < w.startCount ∧ w.Current t b ∧ taken b = false) ∨
      (t = w.startCount + b ∧ taken b = true ∧ (w'.binding b).live = true) := by
  by_cases ht : t < w.startCount
  · exact .inl ⟨ht, (a.current_old h ht).mp hc⟩
  · rcases a.fresh t (Nat.le_of_not_lt ht) with ⟨hu, -⟩ | ⟨c, rfl, htaken, hlive⟩
    · exact absurd hu hc.used
    · have hbind := hc.binding
      rw [a.start_new htaken hlive] at hbind
      rw [← hbind]
      exact .inr ⟨rfl, htaken, hlive⟩

theorem inv : w'.Inv none := by
  have hlives : ∀ b, b < w.bindingCount → (w'.binding b).live = true → (w.binding b).live = true := by
    intro b hb hlive
    cases ht : taken b with
    | true => exact (a.live b ht).2
    | false => exact a.kept b ht ▸ hlive
  have hstage : ∀ {t}, t < w.startCount → (w'.start t).stage = (w.start t).stage := by
    intro t ht
    rw [a.start t ht, closing_stage]
  have hwait : ∀ {t b}, taken b = true → (w'.binding b).live = true → t = w.startCount + b →
      (w'.start t).stage = .waiting := by
    intro t b htaken hlive ht
    rw [ht, a.start_new htaken hlive]
  refine ⟨?_, ?_, ?_, ?_, ?_, ?_, ?_, ?_, ?_, ?_, ?_, ?_, ?_, ?_, ?_, ?_, ?_, ?_⟩
  · intro b hb hlive
    rw [a.mapped b hlive]
    exact h.mapped b (a.count ▸ hb) (hlives b (a.count ▸ hb) hlive)
  · intro s b hs
    obtain ⟨hs, hlive⟩ := a.singletons s b hs
    obtain ⟨hb, hmode, hname, -⟩ := h.singletons s b hs
    rw [a.count, (a.key b).1, (a.key b).2]
    exact ⟨hb, hmode, hname, hlive⟩
  · intro s b hs
    obtain ⟨hs, hlive⟩ := a.keyed s b hs
    obtain ⟨hb, hmode, hname, -⟩ := h.keyed s b hs
    rw [a.count, (a.key b).1, (a.key b).2]
    exact ⟨hb, hmode, hname, hlive⟩
  · intro b hb hlive
    rw [a.modes, (a.key b).1, (a.key b).2]
    exact h.modes b (a.count ▸ hb) (hlives b (a.count ▸ hb) hlive)
  · intro t ht hu
    by_cases hlt : t < w.startCount
    · rw [hstage hlt] at hu
      obtain ⟨hb, hr⟩ := h.starts t hlt hu
      rw [a.start t hlt, closing_binding, closing_revision, a.count]
      exact ⟨hb, hr.trans (a.revision _)⟩
    · rcases a.fresh t (Nat.le_of_not_lt hlt) with ⟨hunused, -⟩ | ⟨b, rfl, htaken, hlive⟩
      · exact absurd hunused hu
      · rw [a.start_new htaken hlive, a.count]
        exact ⟨(a.live b htaken).1, Nat.le_refl _⟩
  · intro t ht
    rcases a.fresh t (a.startCount.trans ht) with ⟨hunused, -⟩ | ⟨b, rfl, htaken, hlive⟩
    · exact hunused
    · exact absurd (a.rebound b htaken hlive).2.2.2.1 (Nat.not_lt_of_le ht)
  · intro t t' b hc hc' hp hp'
    rcases a.current_cases h hc with ⟨ht, hcur, hno⟩ | ⟨ht, hyes, -⟩
    · rcases a.current_cases h hc' with ⟨ht', hcur', -⟩ | ⟨-, hyes, -⟩
      · exact h.one t t' b hcur hcur' ((a.pending_old ht).mp hp) ((a.pending_old ht').mp hp')
      · rw [hno] at hyes
        cases hyes
    · rcases a.current_cases h hc' with ⟨-, -, hno⟩ | ⟨ht', -, -⟩
      · rw [hno] at hyes
        cases hyes
      · exact ht.trans ht'.symm
  · intro b t hb hlive hs
    rw [a.count] at hb
    cases htaken : taken b with
    | true =>
      rw [a.ended b htaken hlive] at hs
      cases hs
    | false =>
      rw [a.kept b htaken] at hlive hs
      obtain ⟨hc, hst, hcl⟩ := h.subscription b t hb hlive hs
      have ht := hc.below
      refine ⟨(a.current_old h ht).mpr ⟨hc, htaken⟩, (hstage ht).trans hst, ?_⟩
      rw [a.start t ht, closing_kept (.inl (by rw [hc.binding, htaken]))]
      exact hcl
  · intro t b hc hp
    rcases a.current_cases h hc with ⟨ht, hcur, hno⟩ | ⟨-, hyes, -⟩
    · rw [a.kept b hno]
      exact h.exclusive t b hcur ((a.pending_old ht).mp hp)
    · exact a.ended b hyes hc.live
  · intro t hst
    have ht : t < w.startCount := by
      by_contra hge
      rcases a.fresh t (Nat.le_of_not_lt hge) with ⟨hunused, -⟩ | ⟨b, rfl, htaken, hlive⟩
      · exact nomatch hunused.symm.trans hst
      · exact nomatch (hwait htaken hlive rfl).symm.trans hst
    rw [hstage ht] at hst
    rw [a.start t ht, closing_binding, a.current_old h ht]
    rcases h.closing_returned a.live hst with ⟨hc, hno, hs, hcl⟩ | ⟨hnot, hcl⟩
    · refine .inl ⟨⟨hc, hno⟩, ?_, hcl⟩
      rw [a.kept _ hno]
      exact hs
    · refine .inr ⟨?_, hcl⟩
      rintro ⟨hc, hno⟩
      rcases hnot with hnot | hyes
      · exact hnot hc
      · rw [hno] at hyes
        cases hyes
  · intro t hst
    by_cases ht : t < w.startCount
    · rw [hstage ht] at hst
      rw [a.start t ht]
      exact h.closing_unclosed a.live hst
    · rcases a.fresh t (Nat.le_of_not_lt ht) with ⟨-, hcl⟩ | ⟨b, rfl, htaken, hlive⟩
      · exact hcl
      · rw [a.start_new htaken hlive]
  · intro b hb hlive hmode hs
    rw [a.count] at hb
    cases htaken : taken b with
    | true =>
      refine ⟨a.ended b htaken hlive, ?_⟩
      intro t hc hst
      rcases a.current_cases h hc with ⟨-, -, hno⟩ | ⟨ht, -, -⟩
      · rw [htaken] at hno
        cases hno
      · exact nomatch (hwait htaken hlive ht).symm.trans hst
    | false =>
      rw [a.kept b htaken] at hlive hmode hs ⊢
      obtain ⟨hnone, hall⟩ := h.unstarted b hb hlive hmode hs
      refine ⟨hnone, ?_⟩
      intro t hc hst
      rcases a.current_cases h hc with ⟨ht, hcur, -⟩ | ⟨-, hyes, -⟩
      · exact hall t hcur ((hstage ht).symm.trans hst)
      · rw [htaken] at hyes
        cases hyes
  · intro t b hc hst
    rcases a.current_cases h hc with ⟨ht, hcur, hno⟩ | ⟨ht, hyes, hlive⟩
    · rw [a.bound_kept (hcur.binding_below h) hc.live hno, a.start t ht, closing_bound]
      exact h.waits t b hcur ((hstage ht).symm.trans hst)
    · rw [ht, a.start_new hyes hlive]
  · intro t b hc hst
    rcases a.current_cases h hc with ⟨ht, hcur, hno⟩ | ⟨ht, hyes, hlive⟩
    · rw [a.bound_kept (hcur.binding_below h) hc.live hno]
      exact h.subscribes t b hcur ((hstage ht).symm.trans hst)
    · exact nomatch (hwait hyes hlive ht).symm.trans hst
  · intro b hb hlive hmode
    cases htaken : taken b with
    | true => exact (a.rebound b htaken hlive).2.2.1 hmode
    | false =>
      rw [a.count] at hb
      rw [a.bound_kept hb hlive htaken]
      rw [a.kept b htaken] at hlive hmode ⊢
      exact h.bound b hb hlive hmode
  · intro b hb hlive hmode ho
    rw [a.count] at hb
    rw [(a.key b).1] at hmode
    have hobs := h.observed b hb (hlives b hb hlive) hmode ho
    cases htaken : taken b with
    | true =>
      rw [(a.rebound b htaken hlive).2.1]
      exact hobs
    | false =>
      rw [a.kept b htaken]
      exact hobs
  · exact fun hd b hb => a.disposed hd b (a.count ▸ hb)
  · intro hf hbd b hb hlive ho
    rw [a.count] at hb
    cases htaken : taken b with
    | true => exact .inl ⟨_, a.current_new htaken hlive, .inl (hwait htaken hlive rfl)⟩
    | false =>
      rw [a.bound_kept hb hlive htaken] at hbd
      rw [a.kept b htaken] at hlive ⊢
      rcases h.progress (a.failed ▸ hf) hbd b hb hlive ho with ⟨t, hc, hp⟩ | ⟨t, hs, hact⟩
      · exact .inl ⟨t, (a.current_old h hc.below).mpr ⟨hc, htaken⟩, (a.pending_old hc.below).mpr hp⟩
      · refine .inr ⟨t, hs, ?_⟩
        rw [a.start t (h.subscription b t hb hlive hs).1.below, closing_activated]
        exact hact

end Supersedes

/-! ## What supersedes -/

variable {b : Nat}

theorem Inv.inMap_live (h : w.Inv none) (hb : w.inMap b = true) : b < w.bindingCount ∧ (w.binding b).live = true := by
  unfold inMap at hb
  rw [Bool.and_eq_true, decide_eq_true_eq] at hb
  refine ⟨hb.1, ?_⟩
  cases hmode : (w.binding b).mode with
  | singleton =>
    rw [hmode] at hb
    exact (h.singletons _ b (of_decide_eq_true hb.2)).2.2.2
  | keyed =>
    rw [hmode] at hb
    exact (h.keyed _ b (of_decide_eq_true hb.2)).2.2.2

theorem Inv.closing_fresh (h : w.Inv none) (htaken : ∀ b, taken b = true → b < w.bindingCount ∧ (w.binding b).live = true)
    (ht : w.startCount ≤ t) : (w.closing taken t).stage = .unused ∧ (w.closing taken t).closes = 0 := by
  have hu := h.fresh t ht
  rw [closing_stage]
  refine ⟨hu, h.closing_unclosed htaken ?_⟩
  rw [hu]
  simp

theorem rebound_fields (x : Binding) (bound : Bool) :
    ((Binding.rebound x bound).mode, (Binding.rebound x bound).serviceId, (Binding.rebound x bound).live,
      (Binding.rebound x bound).observers, (Binding.rebound x bound).subscription, (Binding.rebound x bound).revision) =
    (x.mode, x.serviceId, x.live, x.observers, none, x.revision + 1) := by
  unfold Binding.rebound
  split <;> rfl

theorem rebound_bound {x : Binding} {bound : Bool} (hx : x.mode = .keyed) : (Binding.rebound x bound).bound = bound := by
  unfold Binding.rebound
  rw [hx]

variable (h : w.Inv none)
include h

variable (facade : ServiceFacade F S U)
include facade

theorem Inv.supersedes_rebind (bound : Bool) (hopen : w.disposed = false) :
    w.Supersedes (w.rebind facade bound) w.inMap := by
  unfold World.rebind
  rw [hopen, if_neg Bool.false_ne_true]
  have hfield : ∀ {β : Type} (f : Binding → β), (∀ x, f (Binding.rebound x bound) = f x) →
      ∀ b, f (if w.inMap b then Binding.rebound (w.binding b) bound else w.binding b) = f (w.binding b) := by
    intro β f hf b
    split
    · exact hf _
    · rfl
  have hmode := hfield (·.mode) fun x => congrArg (·.1) (rebound_fields x bound)
  have hsid := hfield (·.serviceId) fun x => congrArg (·.2.1) (rebound_fields x bound)
  have hlive := hfield (·.live) fun x => congrArg (·.2.2.1) (rebound_fields x bound)
  have hobs := hfield (·.observers) fun x => congrArg (·.2.2.2.1) (rebound_fields x bound)
  have hrev : ∀ x : Binding, (Binding.rebound x bound).revision = x.revision + 1 :=
    fun x => congrArg (·.2.2.2.2.2) (rebound_fields x bound)
  refine ⟨fun b => h.inMap_live, rfl, rfl, rfl, ?_, ?_, ?_, ?_, ?_, ?_, ?_, ?_, Nat.le_add_right _ _, ?_, ?_, ?_, ?_⟩
  · intro s b hs
    exact ⟨hs, (hlive b).trans (h.singletons s b hs).2.2.2⟩
  · intro s b hs
    exact ⟨hs, (hlive b).trans (h.keyed s b hs).2.2.2⟩
  · intro b hb
    exact if_neg (by rw [hb]; simp)
  · exact fun b _ => inMap_congr rfl (hmode b) (hsid b) rfl .rfl
  · intro b
    exact ⟨hmode b, hsid b⟩
  · intro b
    dsimp only
    split
    · rw [hrev]
      exact Nat.le_succ _
    · exact Nat.le_refl _
  · intro b hb _
    dsimp only
    rw [if_pos hb]
    exact congrArg (·.2.2.2.2.1) (rebound_fields _ bound)
  · intro b hb _
    have hlt := (h.inMap_live hb).1
    have hge : ¬ w.startCount + b < w.startCount := by omega
    refine ⟨?_, hobs b, ?_, Nat.add_lt_add_left hlt _, ?_⟩
    · dsimp only
      rw [if_pos hb, hrev]
      exact Nat.lt_succ_self _
    · intro hm
      dsimp only
      rw [if_pos hb]
      exact rebound_bound ((hmode b).symm.trans hm)
    · dsimp only
      rw [if_neg hge, Nat.add_sub_cancel_left, if_pos hb, if_pos hb, hrev]
  · exact fun t ht => if_pos ht
  · intro t ht
    dsimp only
    rw [if_neg (Nat.not_lt_of_le ht)]
    by_cases hb : w.inMap (t - w.startCount) = true
    · refine .inr ⟨t - w.startCount, by omega, hb, ?_⟩
      exact (hlive _).trans (h.inMap_live hb).2
    · rw [if_neg hb]
      exact .inl ⟨rfl, rfl⟩
  · exact .inr fun b hb hl => h.mapped b hb ((hlive b).symm.trans hl)
  · exact fun hd => nomatch hd

theorem Inv.rebind (bound : Bool) : (w.rebind facade bound).Inv none := by
  cases hopen : w.disposed with
  | true =>
    unfold World.rebind
    rw [hopen, if_pos rfl]
    exact h
  | false => exact (h.supersedes_rebind facade bound hopen).inv h

theorem Inv.supersedes_dispose (hopen : w.disposed = false) :
    w.Supersedes (w.dispose facade) w.inMap := by
  have hkept : ∀ b, w.inMap b = false → (w.dispose facade).binding b = w.binding b := by
    intro b hb
    unfold World.dispose
    simp only [hopen, hb, Bool.false_eq_true, if_false]
  have hended : ∀ b, w.inMap b = true → ((w.dispose facade).binding b).live = false := by
    intro b hb
    unfold World.dispose
    simp only [hopen, hb, Bool.false_eq_true, if_false, if_true]
    split <;> rfl
  have hdead : ∀ b, b < w.bindingCount → ((w.dispose facade).binding b).live = false := by
    intro b hb
    cases hin : w.inMap b with
    | true => exact hended b hin
    | false =>
      rw [hkept b hin]
      cases hlive : (w.binding b).live with
      | false => rfl
      | true =>
        rw [h.mapped b hb hlive] at hin
        cases hin
  have hlives : ∀ b, ((w.dispose facade).binding b).live = true → w.inMap b = false := by
    intro b hlive
    cases hin : w.inMap b with
    | false => rfl
    | true =>
      rw [hended b hin] at hlive
      cases hlive
  have hkey : ∀ b, (((w.dispose facade).binding b).mode = (w.binding b).mode ∧
      ((w.dispose facade).binding b).serviceId = (w.binding b).serviceId) ∧
      (w.binding b).revision ≤ ((w.dispose facade).binding b).revision := by
    intro b
    cases hin : w.inMap b with
    | false =>
      rw [hkept b hin]
      exact ⟨⟨rfl, rfl⟩, Nat.le_refl _⟩
    | true =>
      unfold World.dispose
      simp only [hopen, hin, Bool.false_eq_true, if_false, if_true]
      split
      · exact ⟨⟨rfl, rfl⟩, Nat.le_refl _⟩
      · exact ⟨⟨rfl, rfl⟩, Nat.le_succ _⟩
  have hstart : (w.dispose facade).start = w.closing w.inMap := by
    unfold World.dispose
    rw [hopen, if_neg Bool.false_ne_true]
  have hmaps : (w.dispose facade).singletons = (fun _ => none) ∧ (w.dispose facade).keyed = fun _ => none := by
    unfold World.dispose
    rw [hopen, if_neg Bool.false_ne_true]
    exact ⟨rfl, rfl⟩
  have hcounts : (w.dispose facade).bindingCount = w.bindingCount ∧ (w.dispose facade).startCount = w.startCount ∧
      (w.dispose facade).failed = w.failed ∧ (w.dispose facade).modes = w.modes ∧ (w.dispose facade).bound = w.bound := by
    unfold World.dispose
    rw [hopen, if_neg Bool.false_ne_true]
    exact ⟨rfl, rfl, rfl, rfl, rfl⟩
  refine ⟨fun b => h.inMap_live, hcounts.1, hcounts.2.2.1, hcounts.2.2.2.1, ?_, ?_, hkept, ?_, fun b => (hkey b).1,
    fun b => (hkey b).2, ?_, ?_, hcounts.2.1.ge, ?_, ?_, .inl hcounts.2.2.2.2, fun _ => hdead⟩
  · intro s b hs
    exact nomatch (congrFun hmaps.1 s).symm.trans hs
  · intro s b hs
    exact nomatch (congrFun hmaps.2 s).symm.trans hs
  · intro b hlive
    rw [hlives b hlive]
    unfold inMap
    rw [hmaps.1, hmaps.2]
    cases ((w.dispose facade).binding b).mode <;> simp
  · intro b hb hlive
    exact nomatch hb.symm.trans (hlives b hlive)
  · intro b hb hlive
    exact nomatch hb.symm.trans (hlives b hlive)
  · exact fun t _ => congrFun hstart t
  · intro t ht
    rw [hstart]
    exact .inl (h.closing_fresh (fun b => h.inMap_live) ht)

theorem Inv.dispose : (w.dispose facade).Inv none := by
  cases hopen : w.disposed with
  | true =>
    unfold World.dispose
    rw [hopen, if_pos rfl]
    exact h
  | false => exact (h.supersedes_dispose facade hopen).inv h

omit facade

theorem Inv.supersedes_stop (hkeyed : w.keyed (w.binding b).serviceId = some b) (n : Nat) :
    w.Supersedes ({ w with
      keyed := update w.keyed (w.binding b).serviceId none
      binding := update w.binding b (Binding.closed { w.binding b with observers := n })
      content := update w.content b (Content.reset (w.content b))
      start := w.closing fun b' => b' = b } : World F) fun b' => b' = b := by
  obtain ⟨hb, hmode, -, hlive⟩ := h.keyed _ b hkeyed
  have htaken : ∀ c, decide (c = b) = true → c < w.bindingCount ∧ (w.binding c).live = true := by
    intro c hc
    rw [of_decide_eq_true hc]
    exact ⟨hb, hlive⟩
  have hself : update w.binding b (Binding.closed { w.binding b with observers := n }) b =
      Binding.closed { w.binding b with observers := n } := update_self _ _ _
  have hlives : ∀ c, (update w.binding b (Binding.closed { w.binding b with observers := n }) c).live = true → c ≠ b := by
    intro c hc heq
    rw [heq, hself] at hc
    cases hc
  refine ⟨htaken, rfl, rfl, rfl, ?_, ?_, ?_, ?_, ?_, ?_, ?_, ?_, Nat.le_refl _, fun _ _ => rfl, ?_, .inl rfl, ?_⟩
  · intro s c hs
    obtain ⟨-, hsingle, -, hlive⟩ := h.singletons s c hs
    refine ⟨hs, ?_⟩
    dsimp only
    rw [update_of_ne]
    · exact hlive
    · intro heq
      rw [heq, hmode] at hsingle
      cases hsingle
  · intro s c hs
    dsimp only at hs ⊢
    have hne : s ≠ (w.binding b).serviceId := by
      intro heq
      rw [heq, update_self] at hs
      cases hs
    rw [update_of_ne hne] at hs
    obtain ⟨-, -, hname, hlive⟩ := h.keyed s c hs
    rw [update_of_ne]
    · exact ⟨hs, hlive⟩
    · intro heq
      rw [heq] at hname
      exact hne hname.symm
  · intro c hc
    exact update_of_ne (of_decide_eq_false hc) _ _
  · intro c hc
    have hne := hlives c hc
    have hother : update w.binding b (Binding.closed { w.binding b with observers := n }) c = w.binding c := update_of_ne hne _ _
    refine inMap_congr rfl (congrArg (·.mode) hother) (congrArg (·.serviceId) hother) rfl ?_
    dsimp only
    by_cases hs : (w.binding c).serviceId = (w.binding b).serviceId
    · rw [hs, update_self, hkeyed]
      simp [Ne.symm hne]
    · rw [update_of_ne hs]
  · intro c
    by_cases hcb : c = b
    · rw [hcb]
      exact ⟨congrArg (·.mode) hself, congrArg (·.serviceId) hself⟩
    · dsimp only
      rw [update_of_ne hcb]
      exact ⟨rfl, rfl⟩
  · intro c
    dsimp only
    by_cases hcb : c = b
    · rw [hcb, hself]
      exact Nat.le_succ _
    · rw [update_of_ne hcb]
  · intro c hc hl
    exact absurd (of_decide_eq_true hc) (hlives c hl)
  · intro c hc hl
    exact absurd (of_decide_eq_true hc) (hlives c hl)
  · exact fun t ht => .inl (h.closing_fresh htaken ht)
  · intro hd c hc
    exact nomatch (h.disposed hd b hb).symm.trans hlive

theorem Inv.stop (hw : w.stop b = some w') : w'.Inv none := by
  unfold World.stop at hw
  dsimp only at hw
  split at hw
  · cases hw
  · rename_i hsome
    split at hw
    · rename_i hlast
      cases hw
      exact (h.supersedes_stop hlast.2 _).inv h
    · rename_i hlast
      cases hw
      refine h.observers w.content ?_ (fun _ _ _ => by simp) (fun _ _ _ _ => by simp)
      intro hb hlive hmode _
      by_contra hzero
      refine hlast ⟨by omega, ?_⟩
      have hin := h.mapped b hb hlive
      unfold inMap at hin
      rw [hmode, Bool.and_eq_true] at hin
      exact of_decide_eq_true hin.2

omit h

theorem Inv.disposeInstances {o : Option Nat} (h : w.Inv o) (hw : w.disposeInstances b = some w') : w'.Inv o := by
  unfold World.disposeInstances at hw
  split at hw
  · cases hw
  · rename_i hdead
    cases hw
    exact h.observers _ (fun _ hlive => absurd hlive hdead) (fun _ _ ho => ho) (fun _ _ _ ho => ho)

theorem Inv.update_ {o : Option Nat} (h : w.Inv o) (facade : ServiceFacade F S U) {u : ServiceProviderUpdate S U}
    (hw : w.update_ facade t u = some w') : w'.Inv o := by
  unfold World.update_ at hw
  dsimp only at hw
  split at hw
  · cases hw
  · split at hw
    · cases hw
      exact h
    · cases hw
      exact h.setContent _

end World

end Shuvpi.Consumer
