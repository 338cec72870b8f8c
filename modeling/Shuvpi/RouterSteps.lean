import Shuvpi.RouterOwners

/-!
# The steps of the session router

Each event keeps the invariant, as long as no attachment is registered while a removal of its
session that has not seen it is under way, no handle that a removal cannot close is forgotten,
and shutdown finds no release waiting that it does not take part in.
-/
namespace Shuvpi.Router

open Function

namespace World

variable {w w' : World}

/-! ## Operations -/

variable {i : Nat}

/-- An operation that does not look after an attachment finishes. -/
theorem Inv.finish (h : w.Inv) (hi : i < w.operations.count) (hnd : (w.operations.operation i).stage ≠ .done)
    (hfirst : w.operations.first i)
    (howner : ∀ a, (w.operations.operation i).stage = .attaching a ∨ (w.operations.operation i).stage = .undoing a →
      (w.leases.attachment a).ended)
    (hdisc : (w.operations.operation i).kind = .disconnect → ∀ a, a < w.leases.count →
      (w.leases.attachment a).client = (w.operations.operation i).client → (w.leases.attachment a).operation < i → w.safe a) :
    (w.finish i).Inv := by
  have hself : ((w.operations.finish i).operation i).stage = .done := by
    rw [Operations.finish_operation, Operations.setStage_self]
  refine h.onward (Onward.finish h hi hnd hfirst) ?_ (fun a hs => .inl (howner a hs)) ?_
  · unfold StageFits
    dsimp only
    rw [hself]
    trivial
  · intro hk a ha hc ho
    refine ⟨fun _ => hdisc hk a ha hc ho, fun b hs => ?_⟩
    exact nomatch hself.symm.trans hs

/-- An operation goes on to a stage that is not its last. -/
theorem Inv.setStage (h : w.Inv) (hi : i < w.operations.count) (hnd : (w.operations.operation i).stage ≠ .done)
    (hfirst : w.operations.first i) {stage : Stage} (hfits : (w.setStage i stage).StageFits i)
    (howner : ∀ a, (w.operations.operation i).stage = .attaching a ∨ (w.operations.operation i).stage = .undoing a →
      (w.leases.attachment a).ended ∨ stage = .attaching a ∨ stage = .undoing a)
    (hdisc : (w.operations.operation i).kind = .disconnect → ∀ a, a < w.leases.count →
      (w.leases.attachment a).client = (w.operations.operation i).client → (w.leases.attachment a).operation < i →
        (stage = .done → w.safe a) ∧ ∀ b, stage = .releasing b → w.safe a ∨ a = b) : (w.setStage i stage).Inv := by
  have hself : ((w.operations.setStage i stage).operation i).stage = stage := by rw [Operations.setStage_self]
  refine h.onward (Onward.setStage h hi hnd hfirst stage) hfits ?_ ?_
  · rw [hself]
    exact howner
  · rw [hself]
    exact hdisc

theorem Inv.release (h : w.Inv) (a : Nat) (publish : Bool) : (w.withLeases (w.leases.release a publish)).Inv :=
  h.later (h.leases.release a publish) (.releaseAll _ publish)

theorem release_not_idle (l : Leases) (a : Nat) (publish : Bool) : ((l.release a publish).attachment a).releasing ≠ .idle := by
  unfold Leases.release Leases.releaseAll
  dsimp only
  rw [if_pos (by simp)]
  rcases (l.attachment a).release_cases l.callCount publish with ⟨-, hr⟩ | ⟨hne, hr⟩
  · rw [hr]
    simp
  · rw [hr]
    exact hne

/-- A stage in which the operation looks after no attachment. -/
theorem Stage.ownerless {s t : Stage} (hs : s = t) (ht : match t with
    | .done | .attaching _ | .undoing _ => False
    | _ => True) : s ≠ .done ∧ ∀ a, ¬ (s = .attaching a ∨ s = .undoing a) := by
  rw [hs]
  cases t <;> simp at ht ⊢

theorem attaches_not_disconnect (ha : w.operations.attaches i) : (w.operations.operation i).kind ≠ .disconnect := by
  intro hk
  unfold Operations.attaches at ha
  rw [hk] at ha
  cases ha

theorem Inv.attachNow (h : w.Inv) (hi : i < w.operations.count) (hs : (w.operations.operation i).stage = .queued)
    (hfirst : w.operations.first i) (ha : w.operations.attaches i) (sessionId : String) :
    (w.attachNow i (w.operations.operation i).client sessionId).Inv := by
  obtain ⟨hnd, hidle⟩ := Stage.ownerless hs trivial
  have hkind := attaches_not_disconnect ha
  have hfin := h.finish hi hnd hfirst (fun a hs => absurd hs (hidle a)) (fun hk => absurd hk hkind)
  have hwait : ∀ source, (w.setStage i (.acquiring source (w.leases.byClient (w.operations.operation i).client))).Inv := by
    intro source
    refine h.setStage hi hnd hfirst ?_ (fun a hs => absurd hs (hidle a)) (fun hk => absurd hk hkind)
    unfold StageFits World.setStage
    rw [Operations.setStage_self]
    refine ⟨(Operations.setStage_attaches i _ i).mpr ha, .inr rfl, ?_⟩
    exact fun a hc => (h.leases.registered _ a hc).1
  unfold World.attachNow
  split
  · exact hfin
  · rename_i href
    dsimp only
    split
    · exact hfin
    · split
      · exact hwait _
      · exact hwait _
      · rename_i hhosted hopens
        have hopen : w.sessions.closing = false := by
          unfold refuses at href
          rw [Bool.or_eq_true, not_or, Bool.not_eq_true] at href
          exact href.1
        exact (hwait (.opening w.sessions.openingCount true)).keepSessions (h.sessions.open_ hopen hhosted hopens)
          (fun hc => hc) (Nat.le_refl _) (fun _ _ hc => hc) (fun _ _ hc => hc) (fun _ _ => rfl)

variable {a : Nat}

/-- What a client that has no operation under way still has is the attachment it is registered for. -/
theorem Inv.client_cases (h : w.Inv) (hfirst : w.operations.first i) (ha : a < w.leases.count)
    (hc : (w.leases.attachment a).client = (w.operations.operation i).client)
    (ho : (w.leases.attachment a).operation < i) :
    w.safe a ∨ w.leases.byClient (w.operations.operation i).client = some a := by
  obtain ⟨-, hatt, hcli⟩ := h.made a ha
  have hdone := hfirst _ ho hatt (hcli.trans hc)
  rcases h.owner a ha with hended | hs | hs | hreg | hclosed
  · exact .inl (.inl hended)
  · exact nomatch hdone.symm.trans hs
  · exact nomatch hdone.symm.trans hs
  · exact .inr (hc ▸ hreg)
  · have hclos := h.closer
    unfold CloserFits at hclos
    rw [hclosed] at hclos
    exact .inl (hclos.2.2 a ha)

theorem Inv.releaseCurrent (h : w.Inv) (hi : i < w.operations.count) (hs : (w.operations.operation i).stage = .queued)
    (hfirst : w.operations.first i) (ha : ¬ w.operations.attaches i) (publish : Bool) :
    (w.releaseCurrent i (w.operations.operation i).client publish).Inv := by
  obtain ⟨hnd, hidle⟩ := Stage.ownerless hs trivial
  unfold World.releaseCurrent
  split
  · rename_i a hreg
    have hw := h.release a publish
    refine hw.setStage hi hnd hfirst ?_ (fun b hs => absurd hs (hidle b)) ?_
    · unfold StageFits World.setStage
      rw [Operations.setStage_self]
      refine ⟨fun hatt => ha ((Operations.setStage_attaches i _ i).mp hatt), ?_, release_not_idle w.leases a publish⟩
      exact (h.leases.registered _ a hreg).1
    · intro _ b hb hc ho
      refine ⟨fun hs => (nomatch hs), fun b' hs => ?_⟩
      rw [← Stage.releasing.inj hs]
      refine (hw.client_cases hfirst hb hc ho).imp_right ?_
      intro hb'
      exact (Option.some.inj (hreg.symm.trans hb')).symm
  · rename_i hnone
    refine h.finish hi hnd hfirst (fun a hs => absurd hs (hidle a)) ?_
    intro _ a hlt hc ho
    refine (h.client_cases hfirst hlt hc ho).resolve_right ?_
    rw [hnone]
    simp

theorem requireAttachment_some {client : Nat} {target : Option (String × Nat)} {named : String × Nat}
    (hr : w.requireAttachment client target = some (a, named)) :
    w.leases.byClient client = some a ∧ named.1 = w.sessionOf a ∧ named.2 = a ∧ target = some named := by
  unfold World.requireAttachment at hr
  split at hr
  · cases hr
  · split at hr
    · rename_i named' b hreg
      split at hr
      · rename_i hnames
        cases hr
        exact ⟨hreg, hnames.1.symm, hnames.2.symm, rfl⟩
      · cases hr
    · cases hr

theorem Inv.startServiceCall (h : w.Inv) (hi : i < w.operations.count)
    (hs : (w.operations.operation i).stage = .queued) (hfirst : w.operations.first i)
    (hk : (w.operations.operation i).kind ≠ .disconnect) (target : Option (String × Nat)) :
    (w.startServiceCall i (w.operations.operation i).client target).Inv := by
  obtain ⟨hnd, hidle⟩ := Stage.ownerless hs trivial
  have hfin := h.finish hi hnd hfirst (fun a hs => absurd hs (hidle a)) (fun hd => absurd hd hk)
  unfold World.startServiceCall
  split
  · rename_i a named hr
    obtain ⟨hreg, -, hnamed, -⟩ := requireAttachment_some hr
    exact ⟨hfin.sessions, hfin.leases.invoke hreg hnamed, hfin.operations, hfin.made, hfin.owner,
      hfin.stages, hfin.hosted, hfin.removals, hfin.disconnects, hfin.closer⟩
  · exact hfin

theorem Inv.begin (h : w.Inv) (hw : w.begin i = some w') : w'.Inv := by
  unfold World.begin at hw
  dsimp only at hw
  split at hw
  · rename_i hbegins
    obtain ⟨hi, hs, hprev⟩ := hbegins
    have hfirst := h.operations.first_of_previous hi hprev
    cases hk : (w.operations.operation i).kind <;> rw [hk] at hw
    case attach sessionId =>
      cases hw
      refine h.attachNow hi hs hfirst ?_ sessionId
      unfold Operations.attaches
      rw [hk]
      rfl
    case detach =>
      cases hw
      refine h.releaseCurrent hi hs hfirst ?_ true
      unfold Operations.attaches
      rw [hk]
      exact Bool.false_ne_true
    case disconnect =>
      cases hw
      refine h.releaseCurrent hi hs hfirst ?_ false
      unfold Operations.attaches
      rw [hk]
      exact Bool.false_ne_true
    case call target =>
      cases hw
      refine h.startServiceCall hi hs hfirst ?_ target
      rw [hk]
      simp
  · cases hw

variable {current : Option Nat}

variable {source : Source}

/-- The session of an operation that attaches is there. -/
theorem Inv.acquiredSession (h : w.Inv) {session : Nat}
    (hi : i < w.operations.count) (hs : (w.operations.operation i).stage = .acquiring source current) :
    (w.acquiredSession i (w.operations.operation i).client session current).Inv := by
  have hfits := h.stages i hi
  unfold StageFits at hfits
  dsimp only at hfits
  rw [hs] at hfits
  obtain ⟨ha, hreg, hlt⟩ := hfits
  obtain ⟨hnd, hidle⟩ := Stage.ownerless hs trivial
  have hfirst := h.operations.serial i hi (by rw [hs]; simp)
  have hkind := attaches_not_disconnect ha
  unfold World.acquiredSession
  split
  · exact h.finish hi hnd hfirst (fun a hs => absurd hs (hidle a)) (fun hk => absurd hk hkind)
  · cases current with
    | none =>
      refine h.attachTo hi ha (.inl ⟨source, none, hs⟩) ?_
      rcases hreg with hnone | hnone <;> exact hnone
    | some a =>
      refine (h.release a false).setStage hi hnd hfirst ?_ (fun b hs => absurd hs (hidle b)) (fun hk => absurd hk hkind)
      unfold StageFits World.setStage
      rw [Operations.setStage_self]
      exact ⟨(Operations.setStage_attaches i _ i).mpr ha, hreg, hlt a rfl, release_not_idle w.leases a false⟩

/-- A removal of the session is at work and has not seen the attachment. -/
def overlooked (w : World) (a : Nat) : Bool :=
  (w.leases.attachment a).releasing = .idle && (List.range w.removalCount).any fun r =>
    (w.removal r).session = some (w.leases.attachment a).session && match (w.removal r).stage with
      | .settled _ => false
      | _ => true

theorem overlooked.not_removing (ho : w.overlooked a = false) (hr : w.removing (w.leases.attachment a).session) :
    (w.leases.attachment a).releasing ≠ .idle := by
  intro hidle
  obtain ⟨r, hlt, hsess, hstage⟩ := hr
  unfold overlooked at ho
  rw [hidle, decide_eq_true rfl, Bool.true_and, List.any_eq_false] at ho
  refine ho r (List.mem_range.mpr hlt) ?_
  rw [hsess]
  cases hs : (w.removal r).stage with
  | settled fulfilled => exact absurd hs (hstage fulfilled)
  | releasing | closing => simp

/-- The operation that made the attachment registers it. -/
def registers (w : World) (a : Nat) : Bool :=
  (w.leases.attachment a).acquiring = .fulfilled && w.sessions.hosted (w.sessionOf a) = some (w.leases.attachment a).session &&
    (w.leases.attachment a).member && !w.refuses (w.leases.attachment a).client

theorem Inv.acquiredLease (h : w.Inv) (hi : i < w.operations.count)
    (hs : (w.operations.operation i).stage = .attaching a)
    (hacq : (w.leases.attachment a).acquiring = .fulfilled) (ho : w.registers a = true → w.overlooked a = false) :
    (w.acquiredLease i a).Inv := by
  have hfits := h.stages i hi
  unfold StageFits at hfits
  dsimp only at hfits
  rw [hs] at hfits
  obtain ⟨ha, hnone, hlt, hoper⟩ := hfits
  have hnd : (w.operations.operation i).stage ≠ .done := by
    rw [hs]
    simp
  have hfirst := h.operations.serial i hi (by rw [hs]; simp)
  obtain ⟨hinv, hlater⟩ := h.leases.setLease hacq
  have hleased := h.later hinv hlater
  have hself : (w.leases.set a { w.leases.attachment a with lease := true }).attachment a =
      { w.leases.attachment a with lease := true } := update_self _ _ _
  unfold World.acquiredLease
  dsimp only
  split
  · have hrel := hleased.release a true
    refine hrel.setStage hi hnd hfirst ?_ ?_ (fun hk => absurd hk (attaches_not_disconnect ha))
    · unfold StageFits World.setStage
      rw [Operations.setStage_self]
      refine ⟨(Operations.setStage_attaches i _ i).mpr ha, hnone, hlt, ?_, release_not_idle _ a true⟩
      have hsame := (hlater.trans (.releaseAll (fun b => b = a) true)).same a
      exact (congrArg (·.2.2) hsame).trans hoper
    · intro b hb
      rcases hb with hb | hb
      · right
        right
        rw [Stage.attaching.inj (hs.symm.trans hb)]
      · exact nomatch hs.symm.trans hb
  · rename_i hregs
    rw [Bool.or_eq_true, Bool.or_eq_true, not_or, not_or] at hregs
    obtain ⟨⟨hhosted, hmember⟩, href⟩ := hregs
    have hhosted : w.sessions.hosted (w.sessionOf a) = some (w.leases.attachment a).session := by simpa using hhosted
    have hmember : (w.leases.attachment a).member = true := by simpa using hmember
    have hunfin : ¬ (w.leases.attachment a).finished := by
      intro hf
      have hno := ((h.leases.fits a).of_finished hf).1
      rw [hmember] at hno
      cases hno
    refine hleased.register hi hs ?_ ?_ ?_ ?_
    · exact congrArg ClientAttachment.lease hself
    · intro hf
      have hx : (w.leases.set a { w.leases.attachment a with lease := true }).attachment a |>.finished := hf
      rw [hself] at hx
      exact hunfin hx
    · show w.sessions.hosted (w.sessions.handle ((w.leases.set a _).attachment a).session).id =
        some ((w.leases.set a _).attachment a).session
      rw [hself]
      exact hhosted
    · intro hr
      have hr : w.removing ((w.leases.set a { w.leases.attachment a with lease := true }).attachment a).session := hr
      rw [hself] at hr
      show ((w.leases.set a { w.leases.attachment a with lease := true }).attachment a).releasing ≠ .idle
      rw [hself]
      refine overlooked.not_removing (ho ?_) hr
      unfold registers
      rw [Bool.not_eq_true] at href
      rw [hacq, hhosted, hmember, href]
      simp

theorem outcome_finished {l : Leases} (ho : (l.outcome a).isSome = true) : (l.attachment a).finished := by
  unfold Leases.outcome at ho
  unfold ClientAttachment.finished
  cases hr : (l.attachment a).releasing <;> rw [hr] at ho
  case settled => trivial
  all_goals cases ho

theorem Inv.resumeAcquiring (h : w.Inv) (hi : i < w.operations.count)
    (hs : (w.operations.operation i).stage = .acquiring source current)
    (hw : w.resumeAcquiring i (w.operations.operation i).client source current = some w') : w'.Inv := by
  unfold World.resumeAcquiring at hw
  split at hw
  · cases hw
    exact h.acquiredSession hi hs
  · split at hw
    · cases hw
    · have hfin : (w.finish i).Inv := by
        have hfits := h.stages i hi
        unfold StageFits at hfits
        dsimp only at hfits
        rw [hs] at hfits
        refine h.finish hi ?_ (h.operations.serial i hi ?_) ?_ (fun hk => absurd hk (attaches_not_disconnect hfits.1))
        all_goals rw [hs]; simp
      split at hw
      · cases hw
        exact h.acquiredSession hi hs
      · cases hw
        exact hfin
      · cases hw
        exact hfin
      · cases hw

theorem Inv.resumeAttaching (h : w.Inv) (hi : i < w.operations.count)
    (hs : (w.operations.operation i).stage = .attaching a) (ho : w.registers a = true → w.overlooked a = false)
    (hw : w.resumeAttaching i a = some w') : w'.Inv := by
  unfold World.resumeAttaching at hw
  split at hw
  · cases hw
  · rename_i hacq
    cases hw
    exact h.acquiredLease hi hs hacq ho
  · rename_i hrej
    cases hw
    have hfits := h.stages i hi
    unfold StageFits at hfits
    dsimp only at hfits
    rw [hs] at hfits
    obtain ⟨hinv, hlater⟩ := h.leases.dropMember hrej
    refine (h.later hinv hlater).finish hi ?_ (h.operations.serial i hi ?_) ?_
      (fun hk => absurd hk (attaches_not_disconnect hfits.1))
    · show (w.operations.operation i).stage ≠ .done
      rw [hs]
      simp
    · rw [hs]
      simp
    · intro b hb
      have hab : a = b := by
        rcases hb with hb | hb
        · exact Stage.attaching.inj (hs.symm.trans hb)
        · exact nomatch hs.symm.trans hb
      rw [← hab]
      exact ended_later hlater (.inr hrej)

theorem Inv.resume (h : w.Inv)
    (ho : ∀ a, (w.operations.operation i).stage = .attaching a → w.registers a = true → w.overlooked a = false)
    (hw : w.resume i = some w') : w'.Inv := by
  unfold World.resume at hw
  split at hw
  · rename_i hi
    have hfits := h.stages i hi
    unfold World.resumeStage at hw
    unfold StageFits at hfits
    dsimp only at hw hfits
    cases hs : (w.operations.operation i).stage <;> rw [hs] at hw hfits
    case queued => cases hw
    case done => cases hw
    case acquiring source current => exact h.resumeAcquiring hi hs hw
    case attaching a => exact h.resumeAttaching hi hs (ho a hs) hw
    all_goals
      have hnd : (w.operations.operation i).stage ≠ .done := by
        rw [hs]
        simp
      have hfirst := h.operations.serial i hi (by rw [hs]; simp)
    case replacing session a =>
      obtain ⟨ha, hreg, hlt, -⟩ := hfits
      obtain ⟨fulfilled, houtcome, hw⟩ := Option.map_eq_some_iff.mp hw
      have hf : (w.leases.attachment a).finished := outcome_finished (by rw [houtcome]; rfl)
      cases fulfilled with
      | false =>
        cases hw
        refine h.finish hi hnd hfirst ?_ (fun hk => absurd hk (attaches_not_disconnect ha))
        rw [hs]
        simp
      | true =>
        cases hw
        refine h.attachTo hi ha (.inr ⟨session, a, hs⟩) ?_
        rcases hreg with hnone | hsome
        · exact hnone
        · exact absurd hf (h.leases.registered _ a hsome).2.2.2
    case undoing a =>
      obtain ⟨fulfilled, houtcome, hw⟩ := Option.map_eq_some_iff.mp hw
      cases hw
      have hf : (w.leases.attachment a).finished := outcome_finished (by rw [houtcome]; rfl)
      refine h.finish hi hnd hfirst ?_ (fun hk => absurd hk (attaches_not_disconnect hfits.1))
      intro b hb
      have hab : a = b := by
        rcases hb with hb | hb
        · exact nomatch hs.symm.trans hb
        · exact Stage.undoing.inj (hs.symm.trans hb)
      exact .inl (hab ▸ hf)
    case publishing =>
      cases hw
      refine h.finish hi hnd hfirst ?_ (fun hk => absurd hk (attaches_not_disconnect hfits))
      rw [hs]
      simp
    case releasing a =>
      obtain ⟨fulfilled, houtcome, hw⟩ := Option.map_eq_some_iff.mp hw
      cases hw
      have hf : (w.leases.attachment a).finished := outcome_finished (by rw [houtcome]; rfl)
      refine h.finish hi hnd hfirst ?_ ?_
      · rw [hs]
        simp
      · intro hk b hb hc hlt
        rcases (h.disconnects i b hi hk hb hc hlt).2 a hs with hsafe | heq
        · exact hsafe
        · rw [heq]
          exact .inl (.inl hf)
  · cases hw

/-! ## Sessions -/

variable {s : Sessions} {fulfilled : Bool} {o : Nat}

theorem Inv.resolved (h : w.Inv) (hs : w.sessions.resolved o fulfilled = some s) :
    (w.withSessions s).Inv := by
  have i := h.sessions.resolved hs
  unfold Sessions.resolved at hs
  split at hs
  · cases hs
    exact h.keepSessions i (fun hc => hc) (Nat.le_refl _) (fun _ _ hc => hc) (fun _ _ hc => hc) (fun _ _ => rfl)
  · cases hs

theorem Inv.opened (h : w.Inv) (hs : w.sessions.opened o fulfilled = some s) : (w.withSessions s).Inv := by
  have i := h.sessions.opened hs
  unfold Sessions.opened at hs
  split at hs
  · rename_i ho
    split at hs
    · have hhandle : ∀ x, x < w.sessions.handleCount →
          update w.sessions.handle w.sessions.handleCount ⟨(w.sessions.openings o).id, false, false⟩ x = w.sessions.handle x :=
        fun x hx => update_of_ne hx.ne _ _
      have hclosed : ∀ x, x < w.sessions.handleCount → (w.sessions.handle x).closed = true →
          (update w.sessions.handle w.sessions.handleCount ⟨(w.sessions.openings o).id, false, false⟩ x).closed = true := by
        intro x hlt hx
        rw [hhandle x hlt]
        exact hx
      split at hs
      · cases hs
        exact h.keepSessions i (fun hc => hc) (Nat.le_succ _) hclosed (fun _ _ hc => hc)
          (fun x hx => congrArg Handle.id (hhandle x hx))
      · cases hs
        refine h.keepSessions i (fun hc => hc) (Nat.le_succ _) hclosed ?_ (fun x hx => congrArg Handle.id (hhandle x hx))
        -- what is being opened is not hosted
        intro id x hx
        have hne : id ≠ (w.sessions.openings o).id := by
          intro heq
          rw [heq, h.sessions.vacant o ho.1 (by rw [ho.2]; rfl)] at hx
          cases hx
        exact (update_of_ne hne _ _).trans hx
    · cases hs
      exact h.keepSessions i (fun hc => hc) (Nat.le_refl _) (fun _ _ hc => hc) (fun _ _ hc => hc) (fun _ _ => rfl)
  · cases hs

variable {x : Nat} (h : w.Inv)
include h

/-- A handle is closed or terminated, and keeps its session. -/
theorem Inv.setHandle {handle : Handle} (hid : handle.id = (w.sessions.handle x).id)
    (hclosed : (w.sessions.handle x).closed = true → handle.closed = true)
    (i : ({ w.sessions with handle := update w.sessions.handle x handle } : Sessions).Inv) :
    (w.withSessions { w.sessions with handle := update w.sessions.handle x handle }).Inv := by
  refine h.keepSessions i (fun hc => hc) (Nat.le_refl _) ?_ (fun _ _ hc => hc) ?_
  · intro y _ hy
    dsimp only
    by_cases hne : y = x
    · rw [hne, update_self]
      exact hclosed (hne ▸ hy)
    · rw [update_of_ne hne]
      exact hy
  · intro y _
    dsimp only
    by_cases hne : y = x
    · rw [hne, update_self, hid]
    · rw [update_of_ne hne]

theorem Inv.closeHandle (x : Nat) : (w.withSessions (w.sessions.closeHandle x)).Inv :=
  h.setHandle rfl (fun _ => rfl) (h.sessions.closeHandle x)

theorem Inv.drained (hs : w.sessions.drained o fulfilled = some s) : (w.withSessions s).Inv := by
  have i := h.sessions.drained hs
  unfold Sessions.drained at hs
  split at hs
  · rename_i x hstage
    cases fulfilled with
    | true =>
      cases hs
      exact (h.closeHandle x).keepSessions i (fun hc => hc) (Nat.le_refl _) (fun _ _ hc => hc) (fun _ _ hc => hc) (fun _ _ => rfl)
    | false =>
      cases hs
      exact h.keepSessions i (fun hc => hc) (Nat.le_refl _) (fun _ _ hc => hc) (fun _ _ hc => hc) (fun _ _ => rfl)
  · cases hs

theorem Inv.forget (hs : w.sessions.forget o = some s) : (w.withSessions s).Inv := by
  have i := h.sessions.forget hs
  unfold Sessions.forget at hs
  split at hs
  · cases hs
    exact h.keepSessions i (fun hc => hc) (Nat.le_refl _) (fun _ _ hc => hc) (fun _ _ hc => hc) (fun _ _ => rfl)
  · cases hs

theorem Inv.terminate (hs : w.sessions.terminate x = some s) : (w.withSessions s).Inv := by
  have i := h.sessions.terminate hs
  unfold Sessions.terminate at hs
  split at hs
  · cases hs
    exact h.setHandle rfl (fun hc => hc) i
  · cases hs

/-- A session leaves the map, and no attachment counts on it. -/
theorem Inv.delete (hx : (w.sessions.handle x).closed = true ∨ (w.sessions.handle x).terminated = true)
    (hnone : ∀ c a, w.leases.byClient c = some a → (w.leases.attachment a).session = x →
      (w.leases.attachment a).releasing ≠ .idle) : (w.withSessions (w.sessions.delete x)).Inv := by
  have i := h.sessions.delete hx
  unfold Sessions.delete at i ⊢
  split at i
  · rename_i hhosted
    rw [if_pos hhosted]
    refine h.withSessions i (fun hc => hc) (Nat.le_refl _) (fun _ _ hc => hc) ?_
    intro c a hc hidle
    have hs := h.hosted c a hc hidle
    dsimp only
    rw [update_of_ne]
    · exact hs
    · intro heq
      have hid : w.sessionOf a = (w.sessions.handle x).id := heq
      rw [hid, hhosted] at hs
      exact hnone c a hc (Option.some.inj hs).symm hidle
  · rename_i hhosted
    rw [if_neg hhosted]
    exact h

end World

end Shuvpi.Router
