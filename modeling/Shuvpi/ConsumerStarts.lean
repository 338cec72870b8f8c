import Shuvpi.ServiceConsumer
import Mathlib.Tactic

/-!
# One start for each binding

The invariant of a binding: of the starts that belong to its present revision at most one is
still under way, and none once it has a subscription. It is kept as long as no observer is
added to a keyed binding while a rebind of it waits for the last subscription to close.
-/
namespace Shuvpi.Consumer

open Function

variable {F S U : Type}

namespace World

/-- The transport's calls of a start are not all completed. -/
def pending (w : World F) (t : Nat) : Prop := (w.start t).stage = .waiting ∨ (w.start t).stage = .subscribing

/-- A start that has not been superseded. -/
structure Current (w : World F) (t b : Nat) : Prop where
  below : t < w.startCount
  binding : (w.start t).binding = b
  used : (w.start t).stage ≠ .unused
  live : (w.binding b).live = true
  revision : (w.start t).revision = (w.binding b).revision

/-- The invariant; a binding that is about to be started may have no start yet. -/
structure Inv (w : World F) (opening : Option Nat) : Prop where
  mapped : ∀ b, b < w.bindingCount → (w.binding b).live = true → w.inMap b = true
  singletons : ∀ s b, w.singletons s = some b →
    b < w.bindingCount ∧ (w.binding b).mode = .singleton ∧ (w.binding b).serviceId = s ∧ (w.binding b).live = true
  keyed : ∀ s b, w.keyed s = some b →
    b < w.bindingCount ∧ (w.binding b).mode = .keyed ∧ (w.binding b).serviceId = s ∧ (w.binding b).live = true
  modes : ∀ b, b < w.bindingCount → (w.binding b).live = true → w.modes (w.binding b).serviceId = some (w.binding b).mode
  starts : ∀ t, t < w.startCount → (w.start t).stage ≠ .unused →
    (w.start t).binding < w.bindingCount ∧ (w.start t).revision ≤ (w.binding (w.start t).binding).revision
  fresh : ∀ t, w.startCount ≤ t → (w.start t).stage = .unused
  one : ∀ t t' b, w.Current t b → w.Current t' b → w.pending t → w.pending t' → t = t'
  subscription : ∀ b t, b < w.bindingCount → (w.binding b).live = true → (w.binding b).subscription = some t →
    w.Current t b ∧ (w.start t).stage = .returned ∧ (w.start t).closes = 0
  exclusive : ∀ t b, w.Current t b → w.pending t → (w.binding b).subscription = none
  returned : ∀ t, (w.start t).stage = .returned →
    (w.Current t (w.start t).binding ∧ (w.binding (w.start t).binding).subscription = some t ∧ (w.start t).closes = 0) ∨
      (¬ w.Current t (w.start t).binding ∧ (w.start t).closes = 1)
  unclosed : ∀ t, (w.start t).stage ≠ .returned → (w.start t).closes = 0
  unstarted : ∀ b, b < w.bindingCount → (w.binding b).live = true → (w.binding b).mode = .keyed →
    (w.binding b).starting = false →
      (w.binding b).subscription = none ∧ ∀ t, w.Current t b → (w.start t).stage ≠ .subscribing
  waits : ∀ t b, w.Current t b → (w.start t).stage = .waiting → (w.start t).bound = w.bound
  subscribes : ∀ t b, w.Current t b → (w.start t).stage = .subscribing → w.bound = true
  bound : ∀ b, b < w.bindingCount → (w.binding b).live = true → (w.binding b).mode = .keyed → (w.binding b).bound = w.bound
  observed : ∀ b, b < w.bindingCount → (w.binding b).live = true → (w.binding b).mode = .keyed →
    opening ≠ some b → 0 < (w.binding b).observers
  disposed : w.disposed = true → ∀ b, b < w.bindingCount → (w.binding b).live = false
  progress : w.failed = false → w.bound = true → ∀ b, b < w.bindingCount → (w.binding b).live = true → opening ≠ some b →
    (∃ t, w.Current t b ∧ w.pending t) ∨ ∃ t, (w.binding b).subscription = some t ∧ (w.start t).activated = true

variable (facade : ServiceFacade F S U)

theorem initial_inv (bound : Bool) : (initial facade bound).Inv none where
  mapped := fun b hb => absurd hb (Nat.not_lt_zero b)
  singletons := fun _ _ h => nomatch h
  keyed := fun _ _ h => nomatch h
  modes := fun b hb => absurd hb (Nat.not_lt_zero b)
  starts := fun t ht => absurd ht (Nat.not_lt_zero t)
  fresh := fun _ _ => rfl
  one := fun t _ _ ht => absurd ht.below (Nat.not_lt_zero t)
  subscription := fun b _ hb => absurd hb (Nat.not_lt_zero b)
  exclusive := fun t _ ht => absurd ht.below (Nat.not_lt_zero t)
  returned := fun _ h => nomatch h
  unclosed := fun _ _ => rfl
  unstarted := fun b hb => absurd hb (Nat.not_lt_zero b)
  waits := fun t _ ht => absurd ht.below (Nat.not_lt_zero t)
  subscribes := fun t _ ht => absurd ht.below (Nat.not_lt_zero t)
  bound := fun b hb => absurd hb (Nat.not_lt_zero b)
  observed := fun b hb => absurd hb (Nat.not_lt_zero b)
  disposed := fun h => nomatch h
  progress := fun _ _ b hb => absurd hb (Nat.not_lt_zero b)

variable {w : World F} {t : Nat}

theorem Current.eq_superseded (ht : t < w.startCount) (hu : (w.start t).stage ≠ .unused) :
    w.superseded t = false ↔ w.Current t (w.start t).binding := by
  unfold superseded
  simp only [Bool.or_eq_false_iff, Bool.not_eq_false', decide_eq_false_iff_not, ne_eq, not_not]
  constructor
  · rintro ⟨hlive, hrev⟩
    exact ⟨ht, rfl, hu, hlive, hrev.symm⟩
  · intro hc
    exact ⟨hc.live, hc.revision.symm⟩

variable {w' : World F} {b : Nat}

theorem inMap_congr (hcount : w'.bindingCount = w.bindingCount) (hmode : (w'.binding b).mode = (w.binding b).mode)
    (hname : (w'.binding b).serviceId = (w.binding b).serviceId)
    (hsingletons : w'.singletons (w.binding b).serviceId = w.singletons (w.binding b).serviceId)
    (hkeyed : w'.keyed (w.binding b).serviceId = some b ↔ w.keyed (w.binding b).serviceId = some b) :
    w'.inMap b = w.inMap b := by
  unfold inMap
  simp only [hcount, hmode, hname, hsingletons, hkeyed]

/-! ## Changes that supersede nothing -/

/-- Two states in which the same starts are current. -/
structure Alike (w w' : World F) : Prop where
  bindingCount : w'.bindingCount = w.bindingCount
  startCount : w'.startCount = w.startCount
  key : ∀ b, ((w'.binding b).mode, (w'.binding b).serviceId, (w'.binding b).live, (w'.binding b).bound,
    (w'.binding b).revision) = ((w.binding b).mode, (w.binding b).serviceId, (w.binding b).live, (w.binding b).bound,
    (w.binding b).revision)
  start : ∀ t, ((w'.start t).binding, (w'.start t).revision, (w'.start t).bound) =
    ((w.start t).binding, (w.start t).revision, (w.start t).bound)
  used : ∀ t, (w'.start t).stage = .unused ↔ (w.start t).stage = .unused
  singletons : w'.singletons = w.singletons
  keyed : w'.keyed = w.keyed
  modes : w'.modes = w.modes
  bound : w'.bound = w.bound
  disposed : w'.disposed = w.disposed

namespace Alike

variable {w w' : World F} (a : w.Alike w')

include a

variable (b : Nat)

theorem mode : (w'.binding b).mode = (w.binding b).mode := congrArg (·.1) (a.key b)

theorem serviceId : (w'.binding b).serviceId = (w.binding b).serviceId := congrArg (·.2.1) (a.key b)

theorem live : (w'.binding b).live = (w.binding b).live := congrArg (·.2.2.1) (a.key b)

theorem keyedBound : (w'.binding b).bound = (w.binding b).bound := congrArg (·.2.2.2.1) (a.key b)

theorem revision : (w'.binding b).revision = (w.binding b).revision := congrArg (·.2.2.2.2) (a.key b)

theorem startBinding (t : Nat) : (w'.start t).binding = (w.start t).binding := congrArg (·.1) (a.start t)

theorem startRevision (t : Nat) : (w'.start t).revision = (w.start t).revision := congrArg (·.2.1) (a.start t)

theorem startBound (t : Nat) : (w'.start t).bound = (w.start t).bound := congrArg (·.2.2) (a.start t)

theorem current {t b : Nat} : w'.Current t b ↔ w.Current t b := by
  constructor
  · intro h
    refine ⟨a.startCount ▸ h.below, a.startBinding t ▸ h.binding, ?_, a.live b ▸ h.live, ?_⟩
    · exact fun hu => h.used ((a.used t).mpr hu)
    · rw [← a.startRevision t, ← a.revision b]
      exact h.revision
  · intro h
    refine ⟨a.startCount ▸ h.below, (a.startBinding t).trans h.binding, ?_, (a.live b).trans h.live, ?_⟩
    · exact fun hu => h.used ((a.used t).mp hu)
    · rw [a.startRevision t, a.revision b]
      exact h.revision

theorem inMap : w'.inMap b = w.inMap b :=
  inMap_congr a.bindingCount (a.mode b) (a.serviceId b) (congrFun a.singletons _) (by rw [a.keyed])

end Alike

variable {o : Option Nat}

variable {o' : Option Nat}

/-- What a change that supersedes nothing has to keep by itself. -/
theorem Inv.alike (h : w.Inv o) (a : w.Alike w')
    (one : ∀ t t' b, w.Current t b → w.Current t' b → w'.pending t → w'.pending t' → t = t')
    (subscription : ∀ b t, b < w.bindingCount → (w.binding b).live = true → (w'.binding b).subscription = some t →
      w.Current t b ∧ (w'.start t).stage = .returned ∧ (w'.start t).closes = 0)
    (exclusive : ∀ t b, w.Current t b → w'.pending t → (w'.binding b).subscription = none)
    (returned : ∀ t, (w'.start t).stage = .returned →
      (w.Current t (w.start t).binding ∧ (w'.binding (w.start t).binding).subscription = some t ∧ (w'.start t).closes = 0) ∨
        (¬ w.Current t (w.start t).binding ∧ (w'.start t).closes = 1))
    (unclosed : ∀ t, (w'.start t).stage ≠ .returned → (w'.start t).closes = 0)
    (unstarted : ∀ b, b < w.bindingCount → (w.binding b).live = true → (w.binding b).mode = .keyed →
      (w'.binding b).starting = false →
        (w'.binding b).subscription = none ∧ ∀ t, w.Current t b → (w'.start t).stage ≠ .subscribing)
    (waits : ∀ t b, w.Current t b → (w'.start t).stage = .waiting → (w.start t).bound = w.bound)
    (subscribes : ∀ t b, w.Current t b → (w'.start t).stage = .subscribing → w.bound = true)
    (observed : ∀ b, b < w.bindingCount → (w.binding b).live = true → (w.binding b).mode = .keyed →
      o' ≠ some b → 0 < (w'.binding b).observers)
    (progress : w'.failed = false → w.bound = true → ∀ b, b < w.bindingCount → (w.binding b).live = true → o' ≠ some b →
      (∃ t, w.Current t b ∧ w'.pending t) ∨ ∃ t, (w'.binding b).subscription = some t ∧ (w'.start t).activated = true) :
    w'.Inv o' where
  mapped := by
    intro b hb hlive
    rw [a.inMap b]
    exact h.mapped b (a.bindingCount ▸ hb) (a.live b ▸ hlive)
  singletons := by
    intro s b hs
    rw [a.bindingCount, a.mode b, a.serviceId b, a.live b]
    exact h.singletons s b (a.singletons ▸ hs)
  keyed := by
    intro s b hs
    rw [a.bindingCount, a.mode b, a.serviceId b, a.live b]
    exact h.keyed s b (a.keyed ▸ hs)
  modes := by
    intro b hb hlive
    rw [a.modes, a.serviceId b, a.mode b]
    exact h.modes b (a.bindingCount ▸ hb) (a.live b ▸ hlive)
  starts := by
    intro t ht hu
    rw [a.startBinding t, a.startRevision t, a.bindingCount, a.revision]
    exact h.starts t (a.startCount ▸ ht) fun hunused => hu ((a.used t).mpr hunused)
  fresh := by
    intro t ht
    exact (a.used t).mpr (h.fresh t (a.startCount ▸ ht))
  one := fun t t' b ht ht' => one t t' b (a.current.mp ht) (a.current.mp ht')
  subscription := by
    intro b t hb hlive hsub
    obtain ⟨hc, hrest⟩ := subscription b t (a.bindingCount ▸ hb) (a.live b ▸ hlive) hsub
    exact ⟨a.current.mpr hc, hrest⟩
  exclusive := fun t b ht => exclusive t b (a.current.mp ht)
  returned := by
    intro t ht
    rw [a.startBinding t, a.current]
    exact returned t ht
  unclosed := unclosed
  unstarted := by
    intro b hb hlive hmode hs
    obtain ⟨hnone, hall⟩ := unstarted b (a.bindingCount ▸ hb) (a.live b ▸ hlive) (a.mode b ▸ hmode) hs
    exact ⟨hnone, fun t ht => hall t (a.current.mp ht)⟩
  waits := by
    intro t b ht hw
    rw [a.startBound t, a.bound]
    exact waits t b (a.current.mp ht) hw
  subscribes := by
    intro t b ht hw
    rw [a.bound]
    exact subscribes t b (a.current.mp ht) hw
  bound := by
    intro b hb hlive hmode
    rw [a.keyedBound b, a.bound]
    exact h.bound b (a.bindingCount ▸ hb) (a.live b ▸ hlive) (a.mode b ▸ hmode)
  observed := fun b hb hlive hmode ho =>
    observed b (a.bindingCount ▸ hb) (a.live b ▸ hlive) (a.mode b ▸ hmode) ho
  disposed := by
    intro hd b hb
    rw [a.live b]
    exact h.disposed (a.disposed ▸ hd) b (a.bindingCount ▸ hb)
  progress := by
    intro hf hbound b hb hlive ho
    refine (progress hf (a.bound ▸ hbound) b (a.bindingCount ▸ hb) (a.live b ▸ hlive) ho).imp_left ?_
    rintro ⟨t, hc, hp⟩
    exact ⟨t, a.current.mpr hc, hp⟩

/-- The observers and the content of bindings change. -/
theorem Inv.observers (h : w.Inv o) {n : Nat} (content : Nat → Content F)
    (hn : b < w.bindingCount → (w.binding b).live = true → (w.binding b).mode = .keyed → o' ≠ some b → 0 < n)
    (ho : ∀ c, c ≠ b → o' ≠ some c → o ≠ some c)
    (hb : w.failed = false → w.bound = true → (w.binding b).live = true → o' ≠ some b → o ≠ some b) :
    ({ w with
      binding := update w.binding b { w.binding b with observers := n }
      content := content } : World F).Inv o' := by
  have hfield : ∀ {β : Type} (f : Binding → β), f { w.binding b with observers := n } = f (w.binding b) →
      ∀ c, f (update w.binding b { w.binding b with observers := n } c) = f (w.binding c) := by
    intro β f hf c
    by_cases hc : c = b
    · rw [hc, update_self, hf]
    · rw [update_of_ne hc]
  have hsub := hfield (·.subscription) rfl
  have hstart := hfield (·.starting) rfl
  have alike : w.Alike ({ w with
      binding := update w.binding b { w.binding b with observers := n }
      content := content } : World F) :=
    ⟨rfl, rfl, hfield (fun x => (x.mode, x.serviceId, x.live, x.bound, x.revision)) rfl, fun _ => rfl, fun _ => .rfl, rfl, rfl,
      rfl, rfl, rfl⟩
  refine h.alike alike h.one ?_ ?_ ?_ h.unclosed ?_ h.waits h.subscribes ?_ ?_
  · intro c t hc hlive hs
    exact h.subscription c t hc hlive ((hsub c).symm.trans hs)
  · intro t c ht hp
    exact (hsub c).trans (h.exclusive t c ht hp)
  · intro t ht
    rw [hsub]
    exact h.returned t ht
  · intro c hc hlive hmode hs
    rw [hstart] at hs
    rw [hsub]
    exact h.unstarted c hc hlive hmode hs
  · intro c hc hlive hmode ho'
    dsimp only
    by_cases hcb : c = b
    · rw [hcb, update_self]
      rw [hcb] at hc hlive hmode ho'
      exact hn hc hlive hmode ho'
    · rw [update_of_ne hcb]
      exact h.observed c hc hlive hmode (ho c hcb ho')
  · intro hf hbound c hc hlive ho'
    rw [hsub]
    by_cases hcb : c = b
    · rw [hcb] at hc hlive ho' ⊢
      exact h.progress hf hbound b hc hlive (hb hf hbound hlive ho')
    · exact h.progress hf hbound c hc hlive (ho c hcb ho')

/-! ## A start goes on -/

theorem pending.used (h : w.pending t) : (w.start t).stage ≠ .unused := by
  intro hu
  rcases h with h | h <;> exact nomatch hu.symm.trans h

theorem pending.not_returned (h : w.pending t) : (w.start t).stage ≠ .returned := by
  intro hu
  rcases h with h | h <;> exact nomatch hu.symm.trans h

/-- The key of a binding: what the starts that belong to it are compared with. -/
def keyOf (x : Binding) : Mode × String × Bool × Bool × Nat := (x.mode, x.serviceId, x.live, x.bound, x.revision)

variable {binding : Nat → Binding}

/-- A start goes on without giving its binding a subscription: it asks the transport, it ends, or what the transport
has returned is closed. -/
theorem Inv.advance (h : w.Inv o) (hp : w.pending t) {stage : Stage}
    {failed : Bool} {closes : Nat} (hused : stage ≠ .unused) (hwait : stage ≠ .waiting)
    (hcloses : closes = if stage = .returned then 1 else 0)
    (hreturned : stage = .returned → ∀ b, ¬ w.Current t b)
    (hsubscribing : stage = .subscribing → ∀ b, w.Current t b →
      w.bound = true ∧ ((w.binding b).mode = .keyed → (binding b).starting = true))
    (hprog : failed = false → w.bound = true → ∀ b, w.Current t b → stage = .subscribing)
    (hkept : failed = false → w.failed = false)
    (hkey : ∀ b, keyOf (binding b) = keyOf (w.binding b))
    (hsub : ∀ b, (binding b).subscription = (w.binding b).subscription)
    (hobs : ∀ b, (binding b).observers = (w.binding b).observers)
    (hstart : ∀ b, (binding b).starting = false → (w.binding b).starting = false) :
    ({ w with
      start := update w.start t { w.start t with stage := stage, closes := closes }
      binding := binding
      failed := failed } : World F).Inv o := by
  obtain ⟨w', hw'⟩ : ∃ w', w' = ({ w with
      start := update w.start t { w.start t with stage := stage, closes := closes }
      binding := binding
      failed := failed } : World F) := ⟨_, rfl⟩
  have hself : w'.start t = { w.start t with stage := stage, closes := closes } := by
    rw [hw']
    exact update_self _ _ _
  have hother : ∀ t', t' ≠ t → w'.start t' = w.start t' := by
    intro t' ht
    rw [hw']
    exact update_of_ne ht _ _
  have hbind : w'.binding = binding := by rw [hw']
  have hstage : (w'.start t).stage = stage := by rw [hself]
  have a : w.Alike w' := by
    subst hw'
    refine ⟨rfl, rfl, hkey, ?_, ?_, rfl, rfl, rfl, rfl, rfl⟩
    · intro t'
      by_cases ht : t' = t
      · rw [ht, hself]
      · rw [hother t' ht]
    · intro t'
      by_cases ht : t' = t
      · rw [ht, hstage]
        exact ⟨fun heq => absurd heq hused, fun heq => absurd heq hp.used⟩
      · rw [hother t' ht]
  have hfail : w'.failed = failed := by rw [hw']
  rw [← hw']
  rw [← hbind] at hsub hobs hstart hsubscribing
  rw [← hfail] at hprog hkept
  rw [← hstage] at hwait hcloses hreturned hsubscribing hprog
  have hclosed : (w'.start t).closes = closes := by rw [hself]
  rw [← hclosed] at hcloses
  have hpending : ∀ t', w'.pending t' → w.pending t' := by
    intro t' hp'
    by_cases ht : t' = t
    · rw [ht]
      exact hp
    · unfold pending at hp' ⊢
      rwa [hother t' ht] at hp'
  refine h.alike a ?_ ?_ ?_ ?_ ?_ ?_ ?_ ?_ ?_ ?_
  · exact fun t₁ t₂ b h₁ h₂ hp₁ hp₂ => h.one t₁ t₂ b h₁ h₂ (hpending t₁ hp₁) (hpending t₂ hp₂)
  · intro b t' hb hlive hs
    obtain ⟨hc, hst, hcl⟩ := h.subscription b t' hb hlive ((hsub b).symm.trans hs)
    have ht : t' ≠ t := fun heq => hp.not_returned (heq ▸ hst)
    rw [hother t' ht]
    exact ⟨hc, hst, hcl⟩
  · intro t' b hc hp'
    exact (hsub b).trans (h.exclusive t' b hc (hpending t' hp'))
  · intro t' hst
    by_cases ht : t' = t
    · rw [ht] at hst ⊢
      refine .inr ⟨hreturned hst _, ?_⟩
      rw [hcloses, if_pos hst]
    · rw [hother t' ht] at hst ⊢
      rw [hsub]
      exact h.returned t' hst
  · intro t' hst
    by_cases ht : t' = t
    · rw [ht] at hst ⊢
      rw [hcloses, if_neg hst]
    · rw [hother t' ht] at hst ⊢
      exact h.unclosed t' hst
  · intro b hb hlive hmode hs
    obtain ⟨hnone, hall⟩ := h.unstarted b hb hlive hmode (hstart b hs)
    refine ⟨(hsub b).trans hnone, ?_⟩
    intro t' hc hst
    by_cases ht : t' = t
    · rw [ht] at hc hst
      rw [(hsubscribing hst b hc).2 hmode] at hs
      cases hs
    · rw [hother t' ht] at hst
      exact hall t' hc hst
  · intro t' b hc hst
    by_cases ht : t' = t
    · rw [ht] at hst
      exact absurd hst hwait
    · rw [hother t' ht] at hst
      exact h.waits t' b hc hst
  · intro t' b hc hst
    by_cases ht : t' = t
    · rw [ht] at hc hst
      exact (hsubscribing hst b hc).1
    · rw [hother t' ht] at hst
      exact h.subscribes t' b hc hst
  · intro b hb hlive hmode ho
    rw [hobs]
    exact h.observed b hb hlive hmode ho
  · intro hf hbound b hb hlive ho
    rcases h.progress (hkept hf) hbound b hb hlive ho with ⟨t', hc, hp'⟩ | ⟨t', hs, hact⟩
    · refine .inl ⟨t', hc, ?_⟩
      by_cases ht : t' = t
      · rw [ht] at hc ⊢
        exact .inr (hprog hf hbound b hc)
      · unfold pending at hp' ⊢
        rwa [hother t' ht]
    · have ht : t' ≠ t := by
        obtain ⟨-, hst, -⟩ := h.subscription b t' hb hlive hs
        exact fun heq => hp.not_returned (heq ▸ hst)
      refine .inr ⟨t', (hsub b).trans hs, ?_⟩
      rw [hother t' ht]
      exact hact

theorem Inv.below (h : w.Inv o) (hp : w.pending t) : t < w.startCount := by
  by_contra hge
  exact hp.used (h.fresh t (Nat.le_of_not_lt hge))

theorem Current.binding_below (h : w.Inv o) (hc : w.Current t b) : b < w.bindingCount := by
  have hstart := (h.starts t hc.below hc.used).1
  rwa [hc.binding] at hstart

/-- Changing fields of a binding that are not looked at. -/
theorem update_field {β : Type} (f : Binding → β) {x : Binding} (hf : f x = f (binding b)) (c : Nat) :
    f (update binding b x c) = f (binding c) := by
  by_cases hc : c = b
  · rw [hc, update_self, hf]
  · rw [update_of_ne hc]

theorem Inv.resume (h : w.Inv none) (hw : w.resume t = some w') : w'.Inv none := by
  unfold World.resume at hw
  dsimp only at hw
  split at hw
  · cases hw
  · rename_i hstage
    have hwaits : (w.start t).stage = .waiting := by simpa using hstage
    have hp : w.pending t := .inl hwaits
    have hcloses : (w.start t).closes = 0 := h.unclosed t hp.not_returned
    split at hw
    · rename_i hmode
      cases hw
      obtain ⟨stage, hs⟩ : ∃ stage, stage = if (w.start t).bound then Stage.subscribing else .finished := ⟨_, rfl⟩
      have hcases : (stage = .subscribing ∧ (w.start t).bound = true) ∨ (stage = .finished ∧ (w.start t).bound = false) := by
        cases hb : (w.start t).bound with
        | true => exact .inl ⟨by rw [hs, hb]; rfl, rfl⟩
        | false => exact .inr ⟨by rw [hs, hb]; rfl, rfl⟩
      rw [← hs]
      refine h.advance hp ?_ ?_ ?_ ?_ ?_ ?_ (fun hf => hf) (fun _ => rfl) (fun _ => rfl) (fun _ => rfl) (fun _ hst => hst)
      · rcases hcases with ⟨rfl, -⟩ | ⟨rfl, -⟩ <;> simp
      · rcases hcases with ⟨rfl, -⟩ | ⟨rfl, -⟩ <;> simp
      · rcases hcases with ⟨rfl, -⟩ | ⟨rfl, -⟩ <;> exact hcloses
      · rcases hcases with ⟨rfl, -⟩ | ⟨rfl, -⟩ <;> simp
      · intro hst b hc
        rcases hcases with ⟨-, hbound⟩ | ⟨hfin, -⟩
        · refine ⟨(h.waits t b hc hwaits).symm.trans hbound, ?_⟩
          intro hkeyed
          rw [hc.binding, hkeyed] at hmode
          cases hmode
        · rw [hst] at hfin
          cases hfin
      · intro hf hbound b hc
        rcases hcases with ⟨hsub, -⟩ | ⟨-, hunbound⟩
        · exact hsub
        · rw [(h.waits t b hc hwaits).trans hbound] at hunbound
          cases hunbound
    · rename_i hmode
      split at hw
      · rename_i hcond
        cases hw
        refine h.advance hp (by simp) (by simp) hcloses (by simp) (by simp) ?_ (fun hf => hf) (fun _ => rfl) (fun _ => rfl)
          (fun _ => rfl) (fun _ hst => hst)
        -- a start of the present revision goes on
        intro hf hbound b hc
        have hb := hc.binding_below h
        have hsBound : (w.start t).bound = true := (h.waits t b hc hwaits).trans hbound
        rw [hc.binding] at hmode hcond
        have hxBound := (h.bound b hb hc.live hmode).trans hbound
        have hobs := h.observed b hb hc.live hmode (by simp)
        simp only [hc.live, hc.revision, hsBound, hxBound, Bool.not_true, Bool.false_or, ne_eq, not_true_eq_false,
          decide_false, Bool.or_false, decide_eq_true_eq] at hcond
        omega
      · rename_i hcond
        cases hw
        simp only [Bool.or_eq_true, Bool.not_eq_true', decide_eq_true_eq, not_or, Bool.not_eq_false, ne_eq, not_not] at hcond
        have hsBound := hcond.1.2
        refine h.advance hp (by simp) (by simp) hcloses (by simp) ?_ (fun _ _ _ _ => rfl) (fun hf => hf)
          (update_field keyOf rfl) (update_field (·.subscription) rfl) (update_field (·.observers) rfl) ?_
        · intro hs b hc
          refine ⟨(h.waits t b hc hwaits).symm.trans hsBound, ?_⟩
          intro hkeyed
          rw [← hc.binding, update_self]
        · intro b hs
          by_cases hcb : b = (w.start t).binding
          · rw [hcb, update_self] at hs
            cases hs
          · rwa [update_of_ne hcb] at hs

variable (h : w.Inv o)
include h

theorem Inv.reject (hw : w.reject t = some w') : w'.Inv o := by
  unfold World.reject at hw
  dsimp only at hw
  split at hw
  · rename_i hp
    cases hw
    have hcloses : (w.start t).closes = 0 := h.unclosed t (pending.not_returned hp)
    exact h.advance hp (by simp) (by simp) hcloses (by simp) (by simp) (fun hf => nomatch hf) (fun hf => nomatch hf)
      (fun _ => rfl) (fun _ => rfl) (fun _ => rfl) (fun _ hst => hst)
  · cases hw

/-- The content of bindings changes. -/
theorem Inv.setContent (content : Nat → Content F) :
    ({ w with content := content } : World F).Inv o := by
  refine h.alike ⟨rfl, rfl, fun _ => rfl, fun _ => rfl, fun _ => .rfl, rfl, rfl, rfl, rfl, rfl⟩ h.one ?_ h.exclusive h.returned
    h.unclosed h.unstarted h.waits h.subscribes h.observed h.progress
  exact h.subscription

/-- A start of the present revision gives its binding the subscription. -/
theorem Inv.take (hstage : (w.start t).stage = .subscribing) (hc : w.Current t b) (activated : Bool) :
    ({ w with
      start := update w.start t { w.start t with stage := .returned, activated := activated }
      binding := update w.binding b { w.binding b with subscription := some t }
      failed := w.failed || !activated } : World F).Inv o := by
  obtain ⟨w', hw'⟩ : ∃ w', w' = ({ w with
      start := update w.start t { w.start t with stage := .returned, activated := activated }
      binding := update w.binding b { w.binding b with subscription := some t }
      failed := w.failed || !activated } : World F) := ⟨_, rfl⟩
  have hp : w.pending t := .inr hstage
  have hself : w'.start t = { w.start t with stage := .returned, activated := activated } := by
    rw [hw']
    exact update_self _ _ _
  have hother : ∀ t', t' ≠ t → w'.start t' = w.start t' := by
    intro t' ht
    rw [hw']
    exact update_of_ne ht _ _
  have hpending : ∀ t', w'.pending t' → w.pending t' ∧ t' ≠ t := by
    intro t' hp'
    have ht : t' ≠ t := by
      intro heq
      rw [heq] at hp'
      unfold pending at hp'
      rw [hself] at hp'
      rcases hp' with hp' | hp' <;> cases hp'
    unfold pending at hp' ⊢
    rw [hother t' ht] at hp'
    exact ⟨hp', ht⟩
  have hsubSelf : (w'.binding b).subscription = some t := by
    rw [hw']
    exact congrArg _ (update_self _ _ _)
  have hsubo : ∀ c, c ≠ b → (w'.binding c).subscription = (w.binding c).subscription := by
    intro c hcb
    rw [hw']
    exact congrArg _ (update_of_ne hcb _ _)
  have hobs : ∀ c, (w'.binding c).observers = (w.binding c).observers := by
    rw [hw']
    exact update_field (·.observers) rfl
  have hstart : ∀ c, (w'.binding c).starting = (w.binding c).starting := by
    rw [hw']
    exact update_field (·.starting) rfl
  have hactivated : w'.failed = false → w.failed = false ∧ activated = true := by
    rw [hw']
    intro hf
    simpa using hf
  have a : w.Alike w' := by
    subst hw'
    refine ⟨rfl, rfl, update_field keyOf rfl, ?_, ?_, rfl, rfl, rfl, rfl, rfl⟩
    · intro t'
      by_cases ht : t' = t
      · rw [ht, hself]
      · rw [hother t' ht]
    · intro t'
      by_cases ht : t' = t
      · rw [ht, hself, hstage]
        simp
      · rw [hother t' ht]
  rw [← hw']
  refine h.alike a ?_ ?_ ?_ ?_ ?_ ?_ ?_ ?_ ?_ ?_
  · exact fun t₁ t₂ c h₁ h₂ hp₁ hp₂ => h.one t₁ t₂ c h₁ h₂ (hpending t₁ hp₁).1 (hpending t₂ hp₂).1
  · intro c t' hcb hlive hs
    by_cases hcb' : c = b
    · rw [hcb', hsubSelf] at hs
      have ht : t = t' := Option.some.inj hs
      rw [← ht, hcb', hself]
      exact ⟨hc, rfl, h.unclosed t hp.not_returned⟩
    · rw [hsubo c hcb'] at hs
      obtain ⟨hc', hst, hcl⟩ := h.subscription c t' hcb hlive hs
      have ht : t' ≠ t := fun heq => hp.not_returned (heq ▸ hst)
      rw [hother t' ht]
      exact ⟨hc', hst, hcl⟩
  · -- no other start of the binding is under way
    intro t' c hc' hp'
    obtain ⟨hp', ht⟩ := hpending t' hp'
    by_cases hcb : c = b
    · rw [hcb] at hc'
      exact absurd (h.one t' t b hc' hc hp' hp) ht
    · rw [hsubo c hcb]
      exact h.exclusive t' c hc' hp'
  · intro t' hst
    by_cases ht : t' = t
    · rw [ht, hself, hc.binding]
      exact .inl ⟨hc, hsubSelf, h.unclosed t hp.not_returned⟩
    · rw [hother t' ht] at hst ⊢
      rcases h.returned t' hst with ⟨hc', hs, hcl⟩ | hclosed
      · have hcb : (w.start t').binding ≠ b := by
          intro heq
          rw [heq, h.exclusive t b hc hp] at hs
          cases hs
        rw [hsubo _ hcb]
        exact .inl ⟨hc', hs, hcl⟩
      · exact .inr hclosed
  · intro t' hst
    by_cases ht : t' = t
    · rw [ht, hself] at hst
      exact absurd rfl hst
    · rw [hother t' ht] at hst ⊢
      exact h.unclosed t' hst
  · intro c hcb hlive hmode hs
    rw [hstart] at hs
    obtain ⟨hnone, hall⟩ := h.unstarted c hcb hlive hmode hs
    have hcb' : c ≠ b := fun heq => hall t (heq ▸ hc) hstage
    rw [hsubo c hcb']
    refine ⟨hnone, ?_⟩
    intro t' hc' hst
    have ht : t' ≠ t := by
      intro heq
      rw [heq, hself] at hst
      cases hst
    rw [hother t' ht] at hst
    exact hall t' hc' hst
  · intro t' c hc' hst
    obtain ⟨hp', ht⟩ := hpending t' (.inl hst)
    rw [hother t' ht] at hst
    exact h.waits t' c hc' hst
  · intro t' c hc' hst
    obtain ⟨hp', ht⟩ := hpending t' (.inr hst)
    rw [hother t' ht] at hst
    exact h.subscribes t' c hc' hst
  · intro c hcb hlive hmode ho
    rw [hobs]
    exact h.observed c hcb hlive hmode ho
  · intro hf hbound c hcb hlive ho
    obtain ⟨hf, hact⟩ := hactivated hf
    by_cases hcb' : c = b
    · rw [hcb']
      refine .inr ⟨t, hsubSelf, ?_⟩
      rw [hself]
      exact hact
    · rw [hsubo c hcb']
      rcases h.progress hf hbound c hcb hlive ho with ⟨t', hc', hp'⟩ | ⟨t', hs, hact'⟩
      · have ht : t' ≠ t := by
          intro heq
          rw [heq] at hc'
          exact hcb' (hc'.binding.symm.trans hc.binding)
        refine .inl ⟨t', hc', ?_⟩
        unfold pending at hp' ⊢
        rwa [hother t' ht]
      · have ht : t' ≠ t := by
          obtain ⟨-, hst, -⟩ := h.subscription c t' hcb hlive hs
          exact fun heq => hp.not_returned (heq ▸ hst)
        refine .inr ⟨t', hs, ?_⟩
        rw [hother t' ht]
        exact hact'

/-- A start of the present revision finds its binding bound. -/
theorem Current.boundFor (hc : w.Current t b) (hbound : w.bound = true) :
    w.boundFor (w.binding b) = true := by
  have hb := hc.binding_below h
  have hopen : w.disposed = false := by
    cases hd : w.disposed with
    | false => rfl
    | true =>
      have hdead := h.disposed hd b hb
      rw [hc.live] at hdead
      cases hdead
  unfold World.boundFor
  cases hmode : (w.binding b).mode with
  | singleton =>
    rw [hbound, hopen]
    rfl
  | keyed => exact (h.bound b hb hc.live hmode).trans hbound

theorem Inv.subscribed {snapshot : SubscriptionSnapshot S}
    (hw : w.subscribed facade t snapshot = some w') : w'.Inv o := by
  unfold World.subscribed at hw
  dsimp only at hw
  split at hw
  · cases hw
  · rename_i hstage
    have hsub : (w.start t).stage = .subscribing := by simpa using hstage
    have hp : w.pending t := .inr hsub
    have hsuperseded := Current.eq_superseded (h.below hp) hp.used
    split at hw
    · rename_i hcond
      cases hw
      have hnot : w.bound = true → ∀ b, ¬ w.Current t b := by
        intro hbound b hc
        have hcur : w.superseded t = false := hsuperseded.mpr (hc.binding ▸ hc)
        rw [hcur, hc.binding, hc.boundFor h hbound] at hcond
        cases hcond
      refine h.advance hp (by simp) (by simp) (by rw [h.unclosed t hp.not_returned]; rfl) ?_ (by simp) ?_ (fun hf => hf)
        (fun _ => rfl) (fun _ => rfl) (fun _ => rfl) (fun _ hst => hst)
      · exact fun _ b hc => hnot (h.subscribes t b hc hsub) b hc
      · exact fun _ hbound b hc => absurd hc (hnot hbound b)
    · rename_i hcond
      cases hw
      rw [Bool.or_eq_true, not_or, Bool.not_eq_true] at hcond
      have hc := hsuperseded.mp hcond.1
      have htaken := h.take hsub hc (!(hydrate facade (w.binding (w.start t).binding)
        (w.content (w.start t).binding) snapshot).2)
      rw [Bool.not_not] at htaken
      exact htaken.setContent _

end World

end Shuvpi.Consumer
