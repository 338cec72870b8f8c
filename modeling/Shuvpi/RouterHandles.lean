import Shuvpi.SessionRouter
import Mathlib.Tactic

/-!
# One handle for each session

What the maps `hostedSessions` and `openingSessions` keep: a session that is being opened is
not hosted, and every handle that is neither closed nor terminated is hosted, or is the one
that an opening holds while the router is closing.
-/
namespace Shuvpi.Router

open Function

namespace OpeningStage

/-- A handle may still come of it, or was left open. -/
def busy : OpeningStage → Bool
  | .hosted _ | .failed => false
  | _ => true

/-- The handle that is not hosted. -/
def holds : OpeningStage → Option Nat
  | .draining h | .leaked h => some h
  | _ => none

end OpeningStage

namespace Sessions

/-- A handle that is neither closed nor terminated. -/
def isOpen (s : Sessions) (h : Nat) : Prop :=
  h < s.handleCount ∧ (s.handle h).closed = false ∧ (s.handle h).terminated = false

structure Inv (s : Sessions) : Prop where
  hosted : ∀ id h, s.hosted id = some h → h < s.handleCount ∧ (s.handle h).id = id
  opening : ∀ id o, s.opening id = some o → o < s.openingCount ∧ (s.openings o).id = id
  unsettled : ∀ o, o < s.openingCount → (s.openings o).stage.isSettled = false → s.opening (s.openings o).id = some o
  held : ∀ o h, o < s.openingCount → (s.openings o).stage.holds = some h →
    s.closing = true ∧ h < s.handleCount ∧ (s.handle h).id = (s.openings o).id
  vacant : ∀ o, o < s.openingCount → (s.openings o).stage.busy = true → s.hosted (s.openings o).id = none
  one : ∀ o o', o < s.openingCount → o' < s.openingCount → (s.openings o).id = (s.openings o').id →
    (s.openings o).stage.busy = true → (s.openings o').stage.busy = true → o = o'
  present : ∀ h, s.isOpen h → s.hosted (s.handle h).id = some h ∨
    ∃ o, o < s.openingCount ∧ (s.openings o).id = (s.handle h).id ∧ (s.openings o).stage.holds = some h

variable {stage : OpeningStage} {h : Nat}

theorem holds_busy (hs : stage.holds = some h) : stage.busy = true := by
  cases stage <;> simp_all [OpeningStage.holds, OpeningStage.busy]

theorem busy_cases (hs : stage.busy = true) : stage.isSettled = false ∨ ∃ h, stage = .leaked h := by
  cases stage <;> simp_all [OpeningStage.isSettled, OpeningStage.busy]

variable {s s' : Sessions}

theorem initial_inv : World.initial.sessions.Inv where
  hosted := fun _ _ h => nomatch h
  opening := fun _ _ h => nomatch h
  unsettled := fun o ho => absurd ho (Nat.not_lt_zero o)
  held := fun o _ ho => absurd ho (Nat.not_lt_zero o)
  vacant := fun o ho => absurd ho (Nat.not_lt_zero o)
  one := fun o _ ho => absurd ho (Nat.not_lt_zero o)
  present := fun h ho => absurd ho.1 (Nat.not_lt_zero h)

/-- Two handles of one session are not open at the same time. -/
theorem Inv.open_unique (i : s.Inv) {h h' : Nat} (hh : s.isOpen h) (hh' : s.isOpen h') (hid : (s.handle h).id = (s.handle h').id) :
    h = h' := by
  rcases i.present h hh with hp | ⟨o, ho, hoid, hs⟩
  · rcases i.present h' hh' with hp' | ⟨o, ho, hoid, hs⟩
    · rw [hid, hp'] at hp
      exact (Option.some.inj hp).symm
    · have hnone := i.vacant o ho (holds_busy hs)
      rw [hoid, ← hid, hp] at hnone
      cases hnone
  · rcases i.present h' hh' with hp' | ⟨o', ho', hoid', hs'⟩
    · have hnone := i.vacant o ho (holds_busy hs)
      rw [hoid, hid, hp'] at hnone
      cases hnone
    · have heq := i.one o o' ho ho' (hoid.trans (hid.trans hoid'.symm)) (holds_busy hs) (holds_busy hs')
      rw [heq, hs'] at hs
      exact (Option.some.inj hs).symm

/-! ## Changes of the maps -/

theorem Inv.drain (i : s.Inv) : ({ s with closing := true } : Sessions).Inv :=
  ⟨i.hosted, i.opening, i.unsettled, fun o h ho hs => ⟨rfl, (i.held o h ho hs).2⟩, i.vacant, i.one, i.present⟩

theorem Inv.open_ (i : s.Inv) {id : String} (hopen : s.closing = false) (hhosted : s.hosted id = none)
    (hopens : s.opening id = none) : (s.open_ id).Inv := by
  have hself : (s.open_ id).openings s.openingCount = ⟨id, .resolving⟩ := update_self _ _ _
  have hother : ∀ {o}, o ≠ s.openingCount → (s.open_ id).openings o = s.openings o := fun ho => update_of_ne ho _ _
  have hmap : ∀ {name}, name ≠ id → (s.open_ id).opening name = s.opening name := fun hn => update_of_ne hn _ _
  have hold : ∀ {o}, o < (s.open_ id).openingCount → o ≠ s.openingCount → o < s.openingCount := by
    intro o ho hne
    exact Nat.lt_of_le_of_ne (Nat.le_of_lt_succ ho) hne
  -- nothing is busy with the session, for the router is not closing
  have hidle : ∀ o, o < s.openingCount → (s.openings o).stage.busy = true → (s.openings o).id ≠ id := by
    intro o ho hbusy heq
    rcases busy_cases hbusy with hunset | ⟨h, hleaked⟩
    · have hsome := i.unsettled o ho hunset
      rw [heq, hopens] at hsome
      cases hsome
    · have hshut := (i.held o h ho (by rw [hleaked]; rfl)).1
      rw [hopen] at hshut
      cases hshut
  refine ⟨i.hosted, ?_, ?_, ?_, ?_, ?_, ?_⟩
  · intro name o ho
    by_cases hname : name = id
    · have hsome : (s.open_ id).opening name = some s.openingCount := by
        rw [hname]
        exact update_self _ _ _
      rw [hsome] at ho
      rw [← Option.some.inj ho, hself, hname]
      exact ⟨Nat.lt_succ_self _, rfl⟩
    · rw [hmap hname] at ho
      obtain ⟨hlt, hid⟩ := i.opening name o ho
      rw [hother hlt.ne]
      exact ⟨Nat.lt_succ_of_lt hlt, hid⟩
  · intro o ho hs
    by_cases hne : o = s.openingCount
    · rw [hne, hself]
      exact update_self _ _ _
    · rw [hother hne] at hs ⊢
      have hsome := i.unsettled o (hold ho hne) hs
      rw [hmap ?_]
      · exact hsome
      · intro heq
        rw [heq, hopens] at hsome
        cases hsome
  · intro o h ho hs
    by_cases hne : o = s.openingCount
    · rw [hne, hself] at hs
      cases hs
    · rw [hother hne] at hs ⊢
      exact i.held o h (hold ho hne) hs
  · intro o ho hs
    by_cases hne : o = s.openingCount
    · rw [hne, hself]
      exact hhosted
    · rw [hother hne] at hs ⊢
      exact i.vacant o (hold ho hne) hs
  · intro o o' ho ho' hid hs hs'
    by_cases hne : o = s.openingCount
    · by_cases hne' : o' = s.openingCount
      · rw [hne, hne']
      · rw [hother hne'] at hid hs'
        rw [hne, hself] at hid
        exact absurd hid.symm (hidle o' (hold ho' hne') hs')
    · rw [hother hne] at hid hs
      by_cases hne' : o' = s.openingCount
      · rw [hne', hself] at hid
        exact absurd hid (hidle o (hold ho hne) hs)
      · rw [hother hne'] at hid hs'
        exact i.one o o' (hold ho hne) (hold ho' hne') hid hs hs'
  · intro h hh
    refine (i.present h hh).imp_right ?_
    rintro ⟨o, ho, hoid, hs⟩
    refine ⟨o, Nat.lt_succ_of_lt ho, ?_⟩
    rw [hother ho.ne]
    exact ⟨hoid, hs⟩

theorem setStage_self (o : Nat) (stage : OpeningStage) : (s.setStage o stage).openings o = { s.openings o with stage := stage } :=
  update_self _ _ _

theorem setStage_of_ne {o o' : Nat} (hne : o' ≠ o) (stage : OpeningStage) : (s.setStage o stage).openings o' = s.openings o' :=
  update_of_ne hne _ _

theorem closeHandle_self (h : Nat) : (s.closeHandle h).handle h = { s.handle h with closed := true } := update_self _ _ _

variable {o : Nat}

/-- An opening goes on: what it is busy with, it was busy with before. -/
theorem Inv.setStage (i : s.Inv)
    (hunset : stage.isSettled = false → (s.openings o).stage.isSettled = false)
    (hbusy : stage.busy = true → (s.openings o).stage.busy = true)
    (hholds : ∀ h, stage.holds = some h → (s.openings o).stage.holds = some h ∨
      (s.closing = true ∧ h < s.handleCount ∧ (s.handle h).id = (s.openings o).id))
    (hkept : ∀ h, (s.openings o).stage.holds = some h → s.isOpen h → stage.holds = some h) : (s.setStage o stage).Inv := by
  have hid : ∀ o', ((s.setStage o stage).openings o').id = (s.openings o').id := by
    intro o'
    by_cases hne : o' = o
    · rw [hne, setStage_self]
    · rw [setStage_of_ne hne]
  have hself : ((s.setStage o stage).openings o).stage = stage := by rw [setStage_self]
  have hother : ∀ {o'}, o' ≠ o → ((s.setStage o stage).openings o').stage = (s.openings o').stage := by
    intro o' hne
    rw [setStage_of_ne hne]
  have hbusies : ∀ {o'}, ((s.setStage o stage).openings o').stage.busy = true → (s.openings o').stage.busy = true := by
    intro o' hb
    by_cases hne : o' = o
    · rw [hne, hself] at hb
      rw [hne]
      exact hbusy hb
    · rwa [hother hne] at hb
  refine ⟨i.hosted, ?_, ?_, ?_, ?_, ?_, ?_⟩
  · intro name o' ho
    rw [hid]
    exact i.opening name o' ho
  · intro o' ho hs
    rw [hid]
    refine i.unsettled o' ho ?_
    by_cases hne : o' = o
    · rw [hne, hself] at hs
      rw [hne]
      exact hunset hs
    · rwa [hother hne] at hs
  · intro o' h ho hs
    rw [hid]
    by_cases hne : o' = o
    · rw [hne, hself] at hs
      rw [hne] at ho ⊢
      rcases hholds h hs with hold | hnew
      · exact i.held o h ho hold
      · exact hnew
    · rw [hother hne] at hs
      exact i.held o' h ho hs
  · intro o' ho hs
    rw [hid]
    exact i.vacant o' ho (hbusies hs)
  · intro o₁ o₂ ho₁ ho₂ heq hs₁ hs₂
    rw [hid, hid] at heq
    exact i.one o₁ o₂ ho₁ ho₂ heq (hbusies hs₁) (hbusies hs₂)
  · intro h hh
    refine (i.present h hh).imp_right ?_
    rintro ⟨o', ho, hoid, hs⟩
    refine ⟨o', ho, (hid o').trans hoid, ?_⟩
    by_cases hne : o' = o
    · rw [hne] at hs ⊢
      rw [hself]
      exact hkept h hs hh
    · rw [hother hne]
      exact hs

/-- Handles are closed or terminated. -/
theorem Inv.setHandle (i : s.Inv) {x : Handle} (hid : x.id = (s.handle h).id)
    (hopen : x.closed = false → x.terminated = false → (s.handle h).closed = false ∧ (s.handle h).terminated = false) :
    ({ s with handle := update s.handle h x } : Sessions).Inv := by
  have hids : ∀ h', (update s.handle h x h').id = (s.handle h').id := by
    intro h'
    by_cases hne : h' = h
    · rw [hne, update_self, hid]
    · rw [update_of_ne hne]
  have hopens : ∀ h', ({ s with handle := update s.handle h x } : Sessions).isOpen h' → s.isOpen h' := by
    rintro h' ⟨hlt, hclosed, hterm⟩
    dsimp only at hclosed hterm
    by_cases hne : h' = h
    · rw [hne] at hlt hclosed hterm ⊢
      rw [update_self] at hclosed hterm
      exact ⟨hlt, hopen hclosed hterm⟩
    · rw [update_of_ne hne] at hclosed hterm
      exact ⟨hlt, hclosed, hterm⟩
  refine ⟨?_, i.opening, i.unsettled, ?_, i.vacant, i.one, ?_⟩
  · intro name h' hs
    rw [hids]
    exact i.hosted name h' hs
  · intro o h' ho hs
    rw [hids]
    exact i.held o h' ho hs
  · intro h' hh
    rw [hids]
    exact i.present h' (hopens h' hh)

theorem Inv.closeHandle (i : s.Inv) (h : Nat) : (s.closeHandle h).Inv :=
  i.setHandle rfl fun hclosed => nomatch hclosed

theorem Inv.terminate (i : s.Inv) (hs : s.terminate h = some s') : s'.Inv := by
  unfold Sessions.terminate at hs
  split at hs
  · cases hs
    exact i.setHandle rfl fun _ hterm => nomatch hterm
  · cases hs

variable {fulfilled : Bool}

theorem Inv.resolved (i : s.Inv) (hs : s.resolved o fulfilled = some s') : s'.Inv := by
  unfold Sessions.resolved at hs
  split at hs
  · rename_i ho
    cases hs
    refine i.setStage ?_ ?_ ?_ ?_
    · rw [ho.2]
      exact fun _ => rfl
    · rw [ho.2]
      exact fun _ => rfl
    · cases fulfilled <;> exact fun _ hholds => nomatch hholds
    · rw [ho.2]
      exact fun _ hholds => nomatch hholds
  · cases hs

theorem Inv.drained (i : s.Inv) (hs : s.drained o fulfilled = some s') : s'.Inv := by
  unfold Sessions.drained at hs
  split at hs
  · rename_i h hstage
    cases fulfilled with
    | true =>
      cases hs
      refine (i.closeHandle h).setStage (fun hf => nomatch hf) (fun hf => nomatch hf) (fun _ hf => nomatch hf) ?_
      -- the handle it held is closed
      intro h' hholds hopen
      have hheld : (s.openings o).stage.holds = some h' := hholds
      rw [hstage] at hheld
      have hclosed : ((s.closeHandle h).handle h).closed = true := by rw [closeHandle_self]
      rw [← Option.some.inj hheld] at hopen
      exact nomatch hclosed.symm.trans hopen.2.1
    | false =>
      cases hs
      refine i.setStage (fun hf => nomatch hf) (fun _ => by rw [hstage]; rfl) ?_ ?_
      · rw [hstage]
        exact fun h' hholds => .inl hholds
      · rw [hstage]
        exact fun h' hholds _ => hholds
  · cases hs

theorem Inv.forget (i : s.Inv) (hs : s.forget o = some s') : s'.Inv := by
  unfold Sessions.forget at hs
  split at hs
  · rename_i ho
    cases hs
    refine ⟨i.hosted, ?_, ?_, i.held, i.vacant, i.one, i.present⟩
    · intro name o' ho'
      dsimp only at ho'
      by_cases hname : name = (s.openings o).id
      · rw [hname, update_self] at ho'
        cases ho'
      · rw [update_of_ne hname] at ho'
        exact i.opening name o' ho'
    · intro o' ho' hs
      have hsome := i.unsettled o' ho' hs
      dsimp only
      rw [update_of_ne]
      · exact hsome
      · intro heq
        rw [heq, ho.2] at hsome
        rw [Option.some.inj hsome, hs] at ho
        cases ho.1
  · cases hs

/-- A session whose handle is closed or terminated leaves the map. -/
theorem Inv.delete (i : s.Inv) (hh : (s.handle h).closed = true ∨ (s.handle h).terminated = true) : (s.delete h).Inv := by
  unfold Sessions.delete
  split
  · rename_i hhosted
    refine ⟨?_, i.opening, i.unsettled, i.held, ?_, i.one, ?_⟩
    · intro name h' hs
      dsimp only at hs
      by_cases hname : name = (s.handle h).id
      · rw [hname, update_self] at hs
        cases hs
      · rw [update_of_ne hname] at hs
        exact i.hosted name h' hs
    · intro o ho hs
      dsimp only
      by_cases hname : (s.openings o).id = (s.handle h).id
      · rw [hname, update_self]
      · rw [update_of_ne hname]
        exact i.vacant o ho hs
    · intro h' hopen
      refine (i.present h' hopen).imp_left ?_
      intro hs
      dsimp only
      rw [update_of_ne]
      · exact hs
      · intro heq
        rw [heq, hhosted] at hs
        have hclosed := hopen.2
        rw [← Option.some.inj hs] at hclosed
        rcases hh with hh | hh
        · exact nomatch hh.symm.trans hclosed.1
        · exact nomatch hh.symm.trans hclosed.2
  · exact i

/-- The handle that `host.openSession` returns. -/
def addHandle (s : Sessions) (id : String) : Sessions :=
  { s with handleCount := s.handleCount + 1, handle := update s.handle s.handleCount ⟨id, false, false⟩ }

theorem addHandle_last (s : Sessions) (id : String) : (s.addHandle id).handle s.handleCount = ⟨id, false, false⟩ :=
  update_self _ _ _

theorem addHandle_of_ne (id : String) (hne : h ≠ s.handleCount) : (s.addHandle id).handle h = s.handle h :=
  update_of_ne hne _ _

theorem addHandle_isOpen {id : String} (hopen : (s.addHandle id).isOpen h) (hne : h ≠ s.handleCount) : s.isOpen h := by
  obtain ⟨hlt, hopen⟩ := hopen
  rw [addHandle_of_ne id hne] at hopen
  exact ⟨Nat.lt_of_le_of_ne (Nat.le_of_lt_succ hlt) hne, hopen⟩

/-- The handle of an opening is hosted, or it is held while it is closed. -/
theorem Inv.host (i : s.Inv) (ho : o < s.openingCount) (hstage : (s.openings o).stage = .opening)
    {hosted : String → Option Nat}
    (hcases : (stage = .hosted s.handleCount ∧ hosted = update s.hosted (s.openings o).id (some s.handleCount)) ∨
      (stage = .draining s.handleCount ∧ hosted = s.hosted ∧ s.closing = true)) :
    ({ (s.addHandle (s.openings o).id).setStage o stage with hosted := hosted } : Sessions).Inv := by
  have hidle := i.vacant o ho (by rw [hstage]; rfl)
  have hself : ((s.addHandle (s.openings o).id).setStage o stage).openings o = { s.openings o with stage := stage } :=
    update_self _ _ _
  have hother : ∀ {o'}, o' ≠ o → ((s.addHandle (s.openings o).id).setStage o stage).openings o' = s.openings o' :=
    fun hne => update_of_ne hne _ _
  have hid : ∀ o', (((s.addHandle (s.openings o).id).setStage o stage).openings o').id = (s.openings o').id := by
    intro o'
    by_cases hne : o' = o
    · rw [hne, hself]
    · rw [hother hne]
  have hlt : ∀ {h}, h < s.handleCount → (s.addHandle (s.openings o).id).handle h = s.handle h :=
    fun hh => addHandle_of_ne _ hh.ne
  have hbusies : ∀ {o'}, (((s.addHandle (s.openings o).id).setStage o stage).openings o').stage.busy = true →
      (s.openings o').stage.busy = true ∧ (o' = o → stage.busy = true) := by
    intro o' hb
    by_cases hne : o' = o
    · rw [hne, hself] at hb
      rw [hne, hstage]
      exact ⟨rfl, fun _ => hb⟩
    · rw [hother hne] at hb
      exact ⟨hb, fun heq => absurd heq hne⟩
  have hhosted : ∀ id h, hosted id = some h → s.hosted id = some h ∨ (id = (s.openings o).id ∧ h = s.handleCount) := by
    intro id h hs
    rcases hcases with ⟨-, hmap⟩ | ⟨-, hmap, -⟩
    · rw [hmap] at hs
      by_cases heq : id = (s.openings o).id
      · rw [heq, update_self] at hs
        exact .inr ⟨heq, (Option.some.inj hs).symm⟩
      · rw [update_of_ne heq] at hs
        exact .inl hs
    · exact .inl (hmap ▸ hs)
  refine ⟨?_, ?_, ?_, ?_, ?_, ?_, ?_⟩
  · intro id h hs
    rcases hhosted id h hs with hold | ⟨hname, hnew⟩
    · obtain ⟨hh, hids⟩ := i.hosted id h hold
      exact ⟨Nat.lt_succ_of_lt hh, (congrArg Handle.id (hlt hh)).trans hids⟩
    · rw [hname, hnew]
      exact ⟨Nat.lt_succ_self _, congrArg Handle.id (addHandle_last s _)⟩
  · intro id o' hs
    obtain ⟨ho', hids⟩ := i.opening id o' hs
    exact ⟨ho', (hid o').trans hids⟩
  · intro o' ho' hs
    rw [hid]
    refine i.unsettled o' ho' ?_
    by_cases hne : o' = o
    · rw [hne, hstage]
      rfl
    · rwa [hother hne] at hs
  · intro o' h ho' hs
    rw [hid]
    by_cases hne : o' = o
    · rw [hne, hself] at hs
      rcases hcases with ⟨heq, -⟩ | ⟨heq, -, hshut⟩
      · rw [heq] at hs
        cases hs
      · rw [heq] at hs
        rw [← Option.some.inj hs, hne]
        exact ⟨hshut, Nat.lt_succ_self _, congrArg Handle.id (addHandle_last s _)⟩
    · rw [hother hne] at hs
      obtain ⟨hshut, hh, hids⟩ := i.held o' h ho' hs
      exact ⟨hshut, Nat.lt_succ_of_lt hh, (congrArg Handle.id (hlt hh)).trans hids⟩
  · intro o' ho' hs
    obtain ⟨hb, hsame⟩ := hbusies hs
    rw [hid]
    dsimp only
    rcases hcases with ⟨heq, hmap⟩ | ⟨-, hmap, -⟩
    · have hne : o' ≠ o := by
        intro h
        have hbusy := hsame h
        rw [heq] at hbusy
        cases hbusy
      rw [hmap, update_of_ne]
      · exact i.vacant o' ho' hb
      · exact fun hids => hne (i.one o' o ho' ho hids hb (by rw [hstage]; rfl))
    · rw [hmap]
      exact i.vacant o' ho' hb
  · intro o₁ o₂ ho₁ ho₂ heq hs₁ hs₂
    rw [hid, hid] at heq
    exact i.one o₁ o₂ ho₁ ho₂ heq (hbusies hs₁).1 (hbusies hs₂).1
  · intro h hh
    by_cases hne : h = s.handleCount
    · have hids : ((s.addHandle (s.openings o).id).handle h).id = (s.openings o).id := by
        rw [hne, addHandle_last]
      rcases hcases with ⟨-, hmap⟩ | ⟨heq, -, -⟩
      · refine .inl ?_
        rw [hmap]
        exact (congrArg _ hids).trans ((update_self _ _ _).trans (congrArg some hne.symm))
      · refine .inr ⟨o, ho, (hid o).trans hids.symm, ?_⟩
        rw [hself, heq, hne]
        rfl
    · have hold := addHandle_isOpen hh hne
      have hx : (s.addHandle (s.openings o).id).handle h = s.handle h := addHandle_of_ne _ hne
      rcases i.present h hold with hp | ⟨o', ho', hids, hs⟩
      · refine .inl ?_
        have hname : (s.handle h).id ≠ (s.openings o).id := by
          intro heq
          rw [heq, hidle] at hp
          cases hp
        show hosted ((s.addHandle (s.openings o).id).handle h).id = some h
        rw [hx]
        rcases hcases with ⟨-, hmap⟩ | ⟨-, hmap, -⟩
        · rw [hmap, update_of_ne hname]
          exact hp
        · rw [hmap]
          exact hp
      · refine .inr ⟨o', ho', (hid o').trans (hids.trans (congrArg Handle.id hx).symm), ?_⟩
        rw [hother]
        · exact hs
        · intro heq
          rw [heq, hstage] at hs
          cases hs

theorem Inv.opened (i : s.Inv) (hs : s.opened o fulfilled = some s') : s'.Inv := by
  unfold Sessions.opened at hs
  split at hs
  · rename_i ho
    cases fulfilled with
    | false =>
      cases hs
      refine i.setStage (fun hf => nomatch hf) (fun hf => nomatch hf) (fun _ hf => nomatch hf) ?_
      rw [ho.2]
      exact fun _ hf => nomatch hf
    | true =>
      rw [if_pos rfl] at hs
      split at hs
      · rename_i hshut
        cases hs
        exact i.host ho.1 ho.2 (.inr ⟨rfl, rfl, hshut⟩)
      · cases hs
        exact i.host ho.1 ho.2 (.inl ⟨rfl, rfl⟩)
  · cases hs

theorem delete_handle (s : Sessions) (h : Nat) : (s.delete h).handle = s.handle := by
  unfold delete
  split <;> rfl

theorem deleteAll_closing (s : Sessions) (handles : List Nat) : (handles.foldl Sessions.delete s).closing = s.closing := by
  induction handles generalizing s with
  | nil => rfl
  | cons h handles ih =>
    rw [List.foldl_cons, ih]
    unfold delete
    split <;> rfl

/-- Sessions whose handles are closed leave the map one after the other. -/
theorem Inv.deleteAll (i : s.Inv) {handles : List Nat} (hh : ∀ h ∈ handles, (s.handle h).closed = true) :
    (handles.foldl Sessions.delete s).Inv := by
  induction handles generalizing s with
  | nil => exact i
  | cons h handles ih =>
    refine ih (i.delete (.inl (hh h List.mem_cons_self))) ?_
    intro h' hmem
    rw [delete_handle]
    exact hh h' (List.mem_cons_of_mem _ hmem)

end Sessions

end Shuvpi.Router
