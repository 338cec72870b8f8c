import Shuvpi.ConsumerStarts

/-!
# Bindings that begin and end

The calls of a binding's users: using a service, observing it and stopping to, rebinding and
disposing. Rebinding and ending supersede every start that a binding has, and close the
subscription that it holds.
-/
namespace Shuvpi.Consumer

open Function

variable {F S U : Type}

namespace World

/-! ## A new start -/

variable {w : World F} {o : Option Nat}

theorem begin_start (h : w.Inv o) (b : Nat) {t : Nat} (ht : ((w.begin b).start t).stage ≠ .unused)
    (hne : t ≠ w.startCount) :
    t < w.startCount ∧ (w.begin b).start t = w.start t := by
  have heq : (w.begin b).start t = w.start t := update_of_ne hne _ _
  refine ⟨?_, heq⟩
  by_contra hge
  rw [heq] at ht
  exact ht (h.fresh t (Nat.le_of_not_lt hge))

theorem begin_last (w : World F) (b : Nat) :
    (w.begin b).start w.startCount = ⟨b, (w.binding b).revision, true, .subscribing, 0, false⟩ := update_self _ _ _

theorem begin_field {β : Type} (f : Binding → β) (w : World F) (b : Nat)
    (hf : f { w.binding b with starting := true } = f (w.binding b)) (c : Nat) : f ((w.begin b).binding c) = f (w.binding c) :=
  update_field f hf c

variable {b : Nat}

theorem begin_current (h : w.Inv o) {t c : Nat} (hlive : (w.binding b).live = true) :
    (w.begin b).Current t c ↔ w.Current t c ∨ (t = w.startCount ∧ c = b) := by
  have hlives := begin_field (·.live) w b rfl
  have hrevs := begin_field (·.revision) w b rfl
  constructor
  · intro hc
    by_cases hne : t = w.startCount
    · rw [hne] at hc ⊢
      have hbind := hc.binding
      rw [begin_last] at hbind
      exact .inr ⟨rfl, hbind.symm⟩
    · obtain ⟨hlt, heq⟩ := begin_start h b hc.used hne
      refine .inl ⟨hlt, heq ▸ hc.binding, heq ▸ hc.used, (hlives c).symm.trans hc.live, ?_⟩
      rw [← heq, ← hrevs c]
      exact hc.revision
  · rintro (hc | ⟨rfl, rfl⟩)
    · have heq : (w.begin b).start t = w.start t := update_of_ne hc.below.ne _ _
      refine ⟨Nat.lt_succ_of_lt hc.below, ?_, ?_, (hlives c).trans hc.live, ?_⟩
      · rw [heq]
        exact hc.binding
      · rw [heq]
        exact hc.used
      · rw [heq, hrevs c]
        exact hc.revision
    · refine ⟨Nat.lt_succ_self _, ?_, ?_, (hlives c).trans hlive, ?_⟩
      · rw [begin_last]
      · rw [begin_last]
        simp
      · rw [begin_last, hrevs c]

/-- A binding that has no start under way and no subscription starts one. -/
theorem Inv.begin (h : w.Inv o) (hb : b < w.bindingCount) (hlive : (w.binding b).live = true)
    (hbound : w.bound = true) (hnone : (w.binding b).subscription = none)
    (hquiet : ∀ t, w.Current t b → ¬ w.pending t) (ho : ∀ c, c ≠ b → o ≠ some c)
    (hobs : (w.binding b).mode = .keyed → 0 < (w.binding b).observers) : (w.begin b).Inv none := by
  have hcurrent := fun t c => begin_current h hlive (t := t) (c := c)
  have hmode := begin_field (·.mode) w b rfl
  have hsid := begin_field (·.serviceId) w b rfl
  have hlives := begin_field (·.live) w b rfl
  have hrev := begin_field (·.revision) w b rfl
  have hsub := begin_field (·.subscription) w b rfl
  have hobservers := begin_field (·.observers) w b rfl
  have hkeyedBound := begin_field (·.bound) w b rfl
  have hold : ∀ {t c}, w.Current t c → (w.begin b).start t = w.start t := fun hc => update_of_ne hc.below.ne _ _
  have hpending : ∀ {t c}, w.Current t c → (w.begin b).pending t → w.pending t := by
    intro t c hc hp
    unfold pending at hp ⊢
    rwa [hold hc] at hp
  refine ⟨?_, ?_, ?_, ?_, ?_, ?_, ?_, ?_, ?_, ?_, ?_, ?_, ?_, ?_, ?_, ?_, ?_, ?_⟩
  · intro c hc hl
    have hin := h.mapped c hc ((hlives c).symm.trans hl)
    unfold inMap at hin ⊢
    rw [hmode c, hsid c]
    exact hin
  · intro s c hs
    rw [hmode c, hsid c, hlives c]
    exact h.singletons s c hs
  · intro s c hs
    rw [hmode c, hsid c, hlives c]
    exact h.keyed s c hs
  · intro c hc hl
    rw [hmode c, hsid c]
    exact h.modes c hc ((hlives c).symm.trans hl)
  · intro t ht hu
    by_cases hne : t = w.startCount
    · rw [hne, begin_last, hrev]
      exact ⟨hb, Nat.le_refl _⟩
    · obtain ⟨hlt, heq⟩ := begin_start h b hu hne
      rw [heq] at hu ⊢
      rw [hrev]
      exact h.starts t hlt hu
  · intro t ht
    have hne : t ≠ w.startCount := by
      intro heq
      rw [heq] at ht
      exact absurd ht (Nat.not_succ_le_self _)
    rw [show (w.begin b).start t = w.start t from update_of_ne hne _ _]
    exact h.fresh t (Nat.le_of_succ_le ht)
  · intro t t' c hc hc' hp hp'
    rcases (hcurrent t c).mp hc with hcur | ⟨ht, hcb⟩
    · rcases (hcurrent t' c).mp hc' with hcur' | ⟨-, hcb⟩
      · exact h.one t t' c hcur hcur' (hpending hcur hp) (hpending hcur' hp')
      · exact absurd (hpending hcur hp) (hquiet t (hcb ▸ hcur))
    · rcases (hcurrent t' c).mp hc' with hcur' | ⟨ht', -⟩
      · exact absurd (hpending hcur' hp') (hquiet t' (hcb ▸ hcur'))
      · exact ht.trans ht'.symm
  · intro c t hc hl hs
    obtain ⟨hcur, hst, hcl⟩ := h.subscription c t hc ((hlives c).symm.trans hl) ((hsub c).symm.trans hs)
    rw [hold hcur]
    exact ⟨(hcurrent t c).mpr (.inl hcur), hst, hcl⟩
  · intro t c hc hp
    rw [hsub c]
    rcases (hcurrent t c).mp hc with hc | ⟨-, rfl⟩
    · exact h.exclusive t c hc (hpending hc hp)
    · exact hnone
  · intro t ht
    by_cases hne : t = w.startCount
    · rw [hne, begin_last] at ht
      cases ht
    · obtain ⟨hlt, heq⟩ := begin_start h b (by rw [ht]; simp) hne
      rw [heq] at ht ⊢
      rw [hsub, hcurrent]
      refine (h.returned t ht).imp ?_ ?_
      · exact fun hr => ⟨.inl hr.1, hr.2⟩
      · refine fun hr => ⟨?_, hr.2⟩
        rintro (hc | ⟨hc, -⟩)
        · exact hr.1 hc
        · exact hne hc
  · intro t ht
    by_cases hne : t = w.startCount
    · rw [hne, begin_last]
    · rw [show (w.begin b).start t = w.start t from update_of_ne hne _ _] at ht ⊢
      exact h.unclosed t ht
  · intro c hc hl hm hs
    have hcb : c ≠ b := by
      intro heq
      rw [heq] at hs
      rw [show ((w.begin b).binding b) = { w.binding b with starting := true } from update_self _ _ _] at hs
      cases hs
    rw [show ((w.begin b).binding c) = w.binding c from update_of_ne hcb _ _] at hl hm hs ⊢
    obtain ⟨hn, hall⟩ := h.unstarted c hc hl hm hs
    refine ⟨hn, ?_⟩
    intro t hcur
    rcases (hcurrent t c).mp hcur with hcur | ⟨-, heq⟩
    · rw [hold hcur]
      exact hall t hcur
    · exact absurd heq hcb
  · intro t c hc hst
    rcases (hcurrent t c).mp hc with hc | ⟨rfl, rfl⟩
    · rw [hold hc] at hst ⊢
      exact h.waits t c hc hst
    · rw [begin_last] at hst
      cases hst
  · exact fun _ _ _ _ => hbound
  · intro c hc hl hm
    rw [hkeyedBound c]
    exact h.bound c hc ((hlives c).symm.trans hl) ((hmode c).symm.trans hm)
  · intro c hc hl hm _
    rw [hobservers c]
    by_cases hcb : c = b
    · rw [hcb] at hm ⊢
      exact hobs ((hmode b).symm.trans hm)
    · exact h.observed c hc ((hlives c).symm.trans hl) ((hmode c).symm.trans hm) (ho c hcb)
  · intro hd c hc
    rw [hlives c]
    exact h.disposed hd c hc
  · intro hf hbd c hc hl _
    by_cases hcb : c = b
    · refine .inl ⟨w.startCount, (hcurrent _ c).mpr (.inr ⟨rfl, hcb⟩), .inr ?_⟩
      rw [begin_last]
    · rw [hsub c]
      rcases h.progress hf hbd c hc ((hlives c).symm.trans hl) (ho c hcb) with ⟨t, hcur, hp⟩ | ⟨t, hs, hact⟩
      · refine .inl ⟨t, (hcurrent t c).mpr (.inl hcur), ?_⟩
        unfold pending at hp ⊢
        rwa [hold hcur]
      · obtain ⟨hcur, -, -⟩ := h.subscription c t hc ((hlives c).symm.trans hl) hs
        refine .inr ⟨t, hs, ?_⟩
        rw [hold hcur]
        exact hact

/-! ## A new binding -/

/-- No binding in use has the name. -/
def unnamed (w : World F) (serviceId : String) : Prop :=
  ∀ b, b < w.bindingCount → (w.binding b).live = true → (w.binding b).serviceId ≠ serviceId

variable {serviceId : String} {allowlist : String → Bool}

theorem Inv.unnamed (h : w.Inv o) (mode : Mode) (ha : w.available allowlist serviceId mode = true)
    (hno : match mode with | .singleton => w.singletons serviceId = none | .keyed => w.keyed serviceId = none) :
    w.unnamed serviceId := by
  intro b hb hlive hname
  have hmode := h.modes b hb hlive
  have hin := h.mapped b hb hlive
  unfold available at ha
  rw [hname] at hmode
  rw [hmode] at ha
  have heq : (w.binding b).mode = mode := by
    simp only [Bool.and_eq_true, Option.all_some, decide_eq_true_eq] at ha
    exact ha.2
  unfold inMap at hin
  rw [heq, hname] at hin
  cases mode <;> simp [hno] at hin

theorem Inv.add (h : w.Inv none) (facade : ServiceFacade F S U) (mode : Mode)
    (hopen : w.disposed = false) (hno : w.unnamed serviceId) {singletons keyed : String → Option Nat}
    (hmaps : match mode with
      | .singleton => singletons = update w.singletons serviceId (some w.bindingCount) ∧ keyed = w.keyed
      | .keyed => singletons = w.singletons ∧ keyed = update w.keyed serviceId (some w.bindingCount)) :
    ({ w.addBinding facade mode serviceId with
      modes := update w.modes serviceId (some mode)
      singletons := singletons
      keyed := keyed } : World F).Inv (some w.bindingCount) := by
  obtain ⟨w', hw'⟩ : ∃ w', w' = ({ w.addBinding facade mode serviceId with
      modes := update w.modes serviceId (some mode)
      singletons := singletons
      keyed := keyed } : World F) := ⟨_, rfl⟩
  have hself : w'.binding w.bindingCount = .fresh mode serviceId w.bound := by
    rw [hw']
    exact update_self _ _ _
  have hother : ∀ b, b < w.bindingCount → w'.binding b = w.binding b := by
    intro b hb
    rw [hw']
    exact update_of_ne hb.ne _ _
  have hcount : w'.bindingCount = w.bindingCount + 1 := by rw [hw']; rfl
  have hstart : w'.start = w.start := by rw [hw']; rfl
  have hstartCount : w'.startCount = w.startCount := by rw [hw']; rfl
  have hbound : w'.bound = w.bound := by rw [hw']; rfl
  have hcases : ∀ b, b < w'.bindingCount → b < w.bindingCount ∨ b = w.bindingCount := by
    intro b hb
    rw [hcount] at hb
    omega
  -- no start belongs to the new binding
  have hcur : ∀ t b, w'.Current t b ↔ w.Current t b := by
    intro t b
    constructor
    · intro hc
      have ht : t < w.startCount := hstartCount ▸ hc.below
      have hu : (w.start t).stage ≠ .unused := hstart ▸ hc.used
      have hbind : (w.start t).binding = b := hstart ▸ hc.binding
      have hb := hother b (hbind ▸ (h.starts t ht hu).1)
      exact ⟨ht, hbind, hu, hb ▸ hc.live, by rw [← hb, ← hstart]; exact hc.revision⟩
    · intro hc
      have hb := hother b (hc.binding_below h)
      exact ⟨hstartCount ▸ hc.below, hstart ▸ hc.binding, hstart ▸ hc.used, hb ▸ hc.live, by rw [hb, hstart]; exact hc.revision⟩
  have hpending : ∀ t, w'.pending t ↔ w.pending t := by
    intro t
    unfold pending
    rw [hstart]
  have hsingle : ∀ s, s ≠ serviceId → w'.singletons s = w.singletons s := by
    intro s hs
    rw [hw']
    cases mode with
    | singleton => exact (congrFun hmaps.1 s).trans (update_of_ne hs _ _)
    | keyed => exact congrFun hmaps.1 s
  have hkeyed : ∀ s, s ≠ serviceId → w'.keyed s = w.keyed s := by
    intro s hs
    rw [hw']
    cases mode with
    | singleton => exact congrFun hmaps.2 s
    | keyed => exact (congrFun hmaps.2 s).trans (update_of_ne hs _ _)
  have hmodes : ∀ s, s ≠ serviceId → w'.modes s = w.modes s := by
    intro s hs
    rw [hw']
    exact update_of_ne hs _ _
  rw [← hw']
  refine ⟨?_, ?_, ?_, ?_, ?_, ?_, ?_, ?_, ?_, ?_, ?_, ?_, ?_, ?_, ?_, ?_, ?_, ?_⟩
  · intro b hb hlive
    rcases hcases b hb with hlt | rfl
    · have hx := hother b hlt
      rw [hx] at hlive
      have hin := h.mapped b hlt hlive
      have hne := hno b hlt hlive
      unfold inMap at hin ⊢
      rw [hx, hsingle _ hne, hkeyed _ hne, hcount]
      simp only [Bool.and_eq_true, decide_eq_true_eq] at hin ⊢
      exact ⟨by omega, hin.2⟩
    · unfold inMap
      rw [hself, hcount, hw']
      cases mode with
      | singleton => simp [Binding.fresh, hmaps.1]
      | keyed => simp [Binding.fresh, hmaps.2]
  · intro s b hs
    by_cases hne : s = serviceId
    · cases mode with
      | singleton =>
        rw [hw', hne] at hs
        have hnew : singletons serviceId = some w.bindingCount := (congrFun hmaps.1 serviceId).trans (update_self _ _ _)
        have hb : w.bindingCount = b := Option.some.inj (hnew.symm.trans hs)
        rw [← hb, hself, hcount, hne]
        exact ⟨Nat.lt_succ_self _, rfl, rfl, rfl⟩
      | keyed =>
        rw [hw'] at hs
        obtain ⟨hb, -, hname, hlive⟩ := h.singletons s b ((congrFun hmaps.1 s).symm.trans hs)
        exact absurd (hname.trans hne) (hno b hb hlive)
    · obtain ⟨hb, hrest⟩ := h.singletons s b ((hsingle s hne).symm.trans hs)
      rw [hother b hb, hcount]
      exact ⟨by omega, hrest⟩
  · intro s b hs
    by_cases hne : s = serviceId
    · cases mode with
      | singleton =>
        rw [hw'] at hs
        obtain ⟨hb, -, hname, hlive⟩ := h.keyed s b ((congrFun hmaps.2 s).symm.trans hs)
        exact absurd (hname.trans hne) (hno b hb hlive)
      | keyed =>
        rw [hw', hne] at hs
        have hnew : keyed serviceId = some w.bindingCount := (congrFun hmaps.2 serviceId).trans (update_self _ _ _)
        have hb : w.bindingCount = b := Option.some.inj (hnew.symm.trans hs)
        rw [← hb, hself, hcount, hne]
        exact ⟨Nat.lt_succ_self _, rfl, rfl, rfl⟩
    · obtain ⟨hb, hrest⟩ := h.keyed s b ((hkeyed s hne).symm.trans hs)
      rw [hother b hb, hcount]
      exact ⟨by omega, hrest⟩
  · intro b hb hlive
    rcases hcases b hb with hlt | rfl
    · have hx := hother b hlt
      rw [hx] at hlive ⊢
      rw [hmodes _ (hno b hlt hlive)]
      exact h.modes b hlt hlive
    · rw [hself, hw']
      exact update_self _ _ _
  · intro t ht hu
    rw [hstart] at hu ⊢
    obtain ⟨hb, hr⟩ := h.starts t (hstartCount ▸ ht) hu
    rw [hother _ hb, hcount]
    exact ⟨by omega, hr⟩
  · intro t ht
    rw [hstart]
    exact h.fresh t (hstartCount ▸ ht)
  · intro t t' b hc hc' hp hp'
    exact h.one t t' b ((hcur t b).mp hc) ((hcur t' b).mp hc') ((hpending t).mp hp) ((hpending t').mp hp')
  · intro b t hb hlive hs
    rcases hcases b hb with hlt | rfl
    · rw [hother b hlt] at hlive hs
      rw [hcur, hstart]
      exact h.subscription b t hlt hlive hs
    · rw [hself] at hs
      cases hs
  · intro t b hc hp
    have hc := (hcur t b).mp hc
    rw [hother b (hc.binding_below h)]
    exact h.exclusive t b hc ((hpending t).mp hp)
  · intro t ht
    rw [hstart] at ht ⊢
    have hlt : t < w.startCount := by
      by_contra hge
      rw [h.fresh t (Nat.le_of_not_lt hge)] at ht
      cases ht
    rw [hcur, hother _ (h.starts t hlt (by rw [ht]; simp)).1]
    exact h.returned t ht
  · intro t ht
    rw [hstart] at ht ⊢
    exact h.unclosed t ht
  · intro b hb hlive hmode hs
    rcases hcases b hb with hlt | rfl
    · rw [hother b hlt] at hlive hmode hs ⊢
      obtain ⟨hnone, hall⟩ := h.unstarted b hlt hlive hmode hs
      refine ⟨hnone, ?_⟩
      intro t hc
      rw [hstart]
      exact hall t ((hcur t b).mp hc)
    · rw [hself]
      refine ⟨rfl, ?_⟩
      intro t hc
      exact absurd (((hcur t _).mp hc).binding_below h) (Nat.lt_irrefl _)
  · intro t b hc hst
    rw [hstart] at hst ⊢
    rw [hbound]
    exact h.waits t b ((hcur t b).mp hc) hst
  · intro t b hc hst
    rw [hstart] at hst
    rw [hbound]
    exact h.subscribes t b ((hcur t b).mp hc) hst
  · intro b hb hlive hmode
    rw [hbound]
    rcases hcases b hb with hlt | rfl
    · rw [hother b hlt] at hlive hmode ⊢
      exact h.bound b hlt hlive hmode
    · rw [hself]
      rfl
  · intro b hb hlive hmode ho
    rcases hcases b hb with hlt | rfl
    · rw [hother b hlt] at hlive hmode ⊢
      exact h.observed b hlt hlive hmode (by simp)
    · exact absurd rfl ho
  · intro hd
    rw [hw', show ({ w.addBinding facade mode serviceId with
      modes := update w.modes serviceId (some mode)
      singletons := singletons
      keyed := keyed } : World F).disposed = w.disposed from rfl, hopen] at hd
    cases hd
  · intro hf hbd b hb hlive ho
    rcases hcases b hb with hlt | rfl
    · rw [hother b hlt] at hlive ⊢
      rw [hstart]
      rcases h.progress (by rw [hw'] at hf; exact hf) (hbound ▸ hbd) b hlt hlive (by simp) with ⟨t, hc, hp⟩ | hsub
      · exact .inl ⟨t, (hcur t b).mpr hc, (hpending t).mpr hp⟩
      · exact .inr hsub
    · exact absurd rfl ho

/-- A new singleton of a binding that is not bound waits for `rebind`. -/
theorem Inv.unopen (h : w.Inv (some b)) (hb : (w.binding b).mode = .singleton) (hbound : w.bound = false) :
    w.Inv none := by
  refine h.alike ⟨rfl, rfl, fun _ => rfl, fun _ => rfl, fun _ => .rfl, rfl, rfl, rfl, rfl, rfl⟩ h.one h.subscription h.exclusive
    h.returned h.unclosed h.unstarted h.waits h.subscribes ?_ ?_
  · intro c hc hlive hmode _
    refine h.observed c hc hlive hmode ?_
    intro heq
    rw [← Option.some.inj heq, hb] at hmode
    cases hmode
  · intro _ hbd
    rw [hbound] at hbd
    cases hbd

theorem Inv.binding_ne (h : w.Inv o) {t : Nat} (ht : t < w.startCount) (hu : (w.start t).stage ≠ .unused) :
    (w.start t).binding ≠ w.bindingCount := (h.starts t ht hu).1.ne

theorem available.open {mode : Mode} (ha : w.available allowlist serviceId mode = true) : w.disposed = false := by
  unfold available at ha
  simp only [Bool.and_eq_true, Bool.not_eq_true'] at ha
  exact ha.1.1

theorem Inv.use (h : w.Inv none) (facade : ServiceFacade F S U) (allowlist : String → Bool) (serviceId : String) :
    (w.use facade allowlist serviceId).Inv none := by
  unfold World.use
  split
  · exact h
  · rename_i ha
    rw [Bool.not_eq_true', Bool.not_eq_false] at ha
    dsimp only
    split
    · rename_i b hs
      obtain ⟨hb, hmode, hname, hlive⟩ := h.singletons serviceId b hs
      have hmodes := h.modes b hb hlive
      rw [hname, hmode] at hmodes
      rw [← hmodes, update_eq_self]
      exact h
    · rename_i hs
      have hadded := h.add facade .singleton (available.open ha) (h.unnamed .singleton ha hs) ⟨rfl, rfl⟩
      have hself : ∀ x : Binding, update w.binding w.bindingCount x w.bindingCount = x := fun x => update_self _ _ _
      split
      · rename_i hbound
        refine hadded.begin (Nat.lt_succ_self _) ?_ hbound ?_ ?_ ?_ ?_
        · exact congrArg (·.live) (hself _)
        · exact congrArg (·.subscription) (hself _)
        · exact fun t hc _ => h.binding_ne hc.below hc.used hc.binding
        · exact fun c hc heq => hc (Option.some.inj heq).symm
        · intro hmode
          exact nomatch hmode.symm.trans (congrArg (·.mode) (hself _))
      · rename_i hbound
        exact hadded.unopen (congrArg (·.mode) (hself _)) (Bool.not_eq_true _ ▸ hbound)

/-- Whether a rebind of the binding waits for the last subscription to close, and nothing is starting. -/
def reopens (w : World F) (b : Nat) : Bool :=
  (w.binding b).bound && !(w.binding b).starting && (List.range w.startCount).any fun t =>
    (w.start t).stage = .waiting && (w.start t).binding = b && (w.start t).revision = (w.binding b).revision

theorem reopens.quiet (h : w.Inv o) (hb : b < w.bindingCount) (hlive : (w.binding b).live = true)
    (hmode : (w.binding b).mode = .keyed) (hr : w.reopens b = false) (hbound : (w.binding b).bound = true)
    (hs : (w.binding b).starting = false) {t : Nat} (hc : w.Current t b) :
    ¬ w.pending t := by
  rintro (hst | hst)
  · unfold reopens at hr
    rw [hbound, hs, Bool.not_false, Bool.true_and, Bool.true_and, List.any_eq_false] at hr
    refine hr t (List.mem_range.mpr hc.below) ?_
    simp [hst, hc.binding, hc.revision]
  · exact (h.unstarted b hb hlive hmode hs).2 t hc hst

theorem Inv.addObserver (h : w.Inv o) (hb : b < w.bindingCount) (hlive : (w.binding b).live = true)
    (hmode : (w.binding b).mode = .keyed) (hr : w.reopens b = false) (ho : ∀ c, c ≠ b → o ≠ some c)
    (hnew : w.bound = true → o = some b → (w.binding b).starting = false) :
    (w.addObserver b).Inv none := by
  unfold World.addObserver
  have hbound := h.bound b hb hlive hmode
  dsimp only
  split
  · rename_i hstarts
    rw [Bool.and_eq_true, Bool.not_eq_true'] at hstarts
    have hseen : ({ w with
        binding := update w.binding b { w.binding b with observers := (w.binding b).observers + 1 } } : World F).Inv o :=
      h.observers w.content (fun _ _ _ _ => Nat.succ_pos _) (fun c hc _ => ho c hc) (fun _ _ _ hne => hne)
    have hself : update w.binding b { w.binding b with observers := (w.binding b).observers + 1 } b =
        { w.binding b with observers := (w.binding b).observers + 1 } := update_self _ _ _
    refine hseen.begin hb ?_ (hbound.symm.trans hstarts.1) ?_ ?_ ho ?_
    · exact (congrArg (·.live) hself).trans hlive
    · exact (congrArg (·.subscription) hself).trans (h.unstarted b hb hlive hmode hstarts.2).1
    · intro t hc
      have hcur : w.Current t b :=
        ⟨hc.below, hc.binding, hc.used, hlive, hc.revision.trans (congrArg (·.revision) hself)⟩
      exact reopens.quiet h hb hlive hmode hr hstarts.1 hstarts.2 hcur
    · intro _
      dsimp only
      rw [hself]
      exact Nat.succ_pos _
  · rename_i hstarts
    refine h.observers w.content (fun _ _ _ _ => Nat.succ_pos _) (fun c hc _ => ho c hc) ?_
    intro _ hbd _ _ heq
    rw [hbound, hbd, hnew hbd heq] at hstarts
    exact hstarts rfl

theorem Inv.observe (h : w.Inv none) (facade : ServiceFacade F S U) (allowlist : String → Bool) (serviceId : String)
    (hr : ∀ b, w.keyed serviceId = some b → w.reopens b = false) : (w.observe facade allowlist serviceId).Inv none := by
  unfold World.observe
  split
  · exact h
  · rename_i ha
    rw [Bool.not_eq_true', Bool.not_eq_false] at ha
    dsimp only
    split
    · rename_i b hs
      obtain ⟨hb, hmode, hname, hlive⟩ := h.keyed serviceId b hs
      have hmodes := h.modes b hb hlive
      rw [hname, hmode] at hmodes
      rw [← hmodes, update_eq_self]
      exact h.addObserver hb hlive hmode (hr b hs) (by simp) (by simp)
    · rename_i hs
      have hadded := h.add facade .keyed (available.open ha) (h.unnamed .keyed ha hs) ⟨rfl, rfl⟩
      have hself : ∀ x : Binding, update w.binding w.bindingCount x w.bindingCount = x := fun x => update_self _ _ _
      refine hadded.addObserver (Nat.lt_succ_self _) ?_ ?_ ?_ ?_ ?_
      · exact congrArg (·.live) (hself _)
      · exact congrArg (·.mode) (hself _)
      · unfold reopens
        rw [Bool.and_eq_false_iff, List.any_eq_false]
        right
        intro t ht
        simp only [Bool.and_eq_true, decide_eq_true_eq, not_and]
        rintro ⟨hst, hbind⟩
        refine absurd hbind (h.binding_ne (List.mem_range.mp ht) ?_)
        intro hu
        exact nomatch hu.symm.trans hst
      · exact fun c hc heq => hc (Option.some.inj heq).symm
      · exact fun _ _ => congrArg (·.starting) (hself _)

end World

end Shuvpi.Consumer
