import Shuvpi.RouterHandles
import Shuvpi.RouterLeases
import Shuvpi.RouterOperations

/-!
# Who releases a lease

Every attachment that may still hold a lease is the business of someone: of the operation that
makes it, of the client it is registered for, or of the release that was begun for it. The
client's attachment is that of a hosted session unless its release has begun, which is what
lets shutdown find it.
-/
namespace Shuvpi.Router

open Function

namespace World

/-- What an operation may count on while it waits. -/
def StageFits (w : World) (i : Nat) : Prop :=
  let x := w.operations.operation i
  match x.stage with
  | .queued | .done => True
  | .publishing => w.operations.attaches i
  | .acquiring _ current => w.operations.attaches i ∧
      (w.leases.byClient x.client = none ∨ w.leases.byClient x.client = current) ∧ ∀ a, current = some a → a < w.leases.count
  | .replacing _ a => w.operations.attaches i ∧
      (w.leases.byClient x.client = none ∨ w.leases.byClient x.client = some a) ∧ a < w.leases.count ∧
        (w.leases.attachment a).releasing ≠ .idle
  | .attaching a => w.operations.attaches i ∧ w.leases.byClient x.client = none ∧ a < w.leases.count ∧
      (w.leases.attachment a).operation = i
  | .undoing a => w.operations.attaches i ∧ w.leases.byClient x.client = none ∧ a < w.leases.count ∧
      (w.leases.attachment a).operation = i ∧ (w.leases.attachment a).releasing ≠ .idle
  | .releasing a => ¬ w.operations.attaches i ∧ a < w.leases.count ∧ (w.leases.attachment a).releasing ≠ .idle

/-- No operation attaches any more. -/
def attached (w : World) : Prop :=
  ∀ i, i < w.operations.count → w.operations.attaches i → (w.operations.operation i).stage = .done

/-- The lease of an attachment was released, or there is none. -/
def safe (w : World) (a : Nat) : Prop := (w.leases.attachment a).ended ∨ (w.leases.attachment a).releases = 1

def CloserFits (w : World) : Prop :=
  match w.closer with
  | .open_ => True
  | .waiting operations _ => w.sessions.closing = true ∧ ∀ i, i < w.operations.count → w.operations.attaches i →
      (w.operations.operation i).stage = .done ∨
        ∃ l ∈ operations, l < w.operations.count ∧ (w.operations.operation l).client = (w.operations.operation i).client ∧ i ≤ l
  | .releasing attachments => w.sessions.closing = true ∧ w.attached ∧
      ∀ a, a < w.leases.count → w.safe a ∨ a ∈ attachments
  | .closing handles fulfilled => w.sessions.closing = true ∧ w.attached ∧ (∀ a, a < w.leases.count → w.safe a) ∧
      (∀ h ∈ handles, h < w.sessions.handleCount) ∧
        ∀ h ∈ fulfilled, h < w.sessions.handleCount ∧ (w.sessions.handle h).closed = true
  | .closed => w.sessions.closing = true ∧ w.attached ∧ ∀ a, a < w.leases.count → w.safe a

/-- A removal that is not over is at work on the session. -/
def removing (w : World) (h : Nat) : Prop :=
  ∃ r, r < w.removalCount ∧ (w.removal r).session = some h ∧ ∀ fulfilled, (w.removal r).stage ≠ .settled fulfilled

structure Inv (w : World) : Prop where
  sessions : w.sessions.Inv
  leases : w.leases.Inv
  operations : w.operations.Inv
  made : ∀ a, a < w.leases.count → (w.leases.attachment a).operation < w.operations.count ∧
    w.operations.attaches (w.leases.attachment a).operation ∧
      (w.operations.operation (w.leases.attachment a).operation).client = (w.leases.attachment a).client
  owner : ∀ a, a < w.leases.count → (w.leases.attachment a).ended ∨
    (w.operations.operation (w.leases.attachment a).operation).stage = .attaching a ∨
      (w.operations.operation (w.leases.attachment a).operation).stage = .undoing a ∨
        w.leases.byClient (w.leases.attachment a).client = some a ∨ w.closer = .closed
  stages : ∀ i, i < w.operations.count → w.StageFits i
  hosted : ∀ c a, w.leases.byClient c = some a → (w.leases.attachment a).releasing = .idle →
    w.sessions.hosted (w.sessionOf a) = some (w.leases.attachment a).session
  removals : ∀ c a, w.leases.byClient c = some a → w.removing (w.leases.attachment a).session →
    (w.leases.attachment a).releasing ≠ .idle
  disconnects : ∀ d a, d < w.operations.count → (w.operations.operation d).kind = .disconnect → a < w.leases.count →
    (w.leases.attachment a).client = (w.operations.operation d).client → (w.leases.attachment a).operation < d →
      ((w.operations.operation d).stage = .done → w.safe a) ∧
        ∀ b, (w.operations.operation d).stage = .releasing b → w.safe a ∨ a = b
  closer : w.CloserFits

theorem initial_inv : initial.Inv where
  sessions := Sessions.initial_inv
  leases := Leases.initial_inv
  operations := Operations.initial_inv
  made := fun _ ha => absurd ha (Nat.not_lt_zero _)
  owner := fun _ ha => absurd ha (Nat.not_lt_zero _)
  stages := fun _ hi => absurd hi (Nat.not_lt_zero _)
  hosted := fun _ _ h => nomatch h
  removals := fun _ _ h => nomatch h
  disconnects := fun _ _ hd => absurd hd (Nat.not_lt_zero _)
  closer := trivial

variable {w w' : World}

/-! ## Releases go on -/

section Later

variable {l : Leases}

theorem ended_later (h : w.leases.Later l) {a : Nat} (ha : (w.leases.attachment a).ended) : (l.attachment a).ended := by
  rcases ha with hf | hr
  · exact .inl (h.finished a hf)
  · exact .inr ((h.acquiring a (by rw [hr]; simp)).trans hr)

theorem safe_later (h : w.leases.Later l) (i : l.Inv) {a : Nat} (ha : w.safe a) : (w.withLeases l).safe a := by
  rcases ha with hended | hone
  · exact .inl (ended_later h hended)
  · right
    have hle := h.releases a
    rw [hone] at hle
    rcases (i.fits a).releases_cases with hzero | ⟨hone', -⟩
    · rw [hzero] at hle
      omega
    · exact hone'

theorem Inv.later (h : w.Inv) (i : l.Inv) (hl : w.leases.Later l) : (w.withLeases l).Inv := by
  have hcli : ∀ a, (l.attachment a).client = (w.leases.attachment a).client := fun a => congrArg (·.1) (hl.same a)
  have hsess : ∀ a, (l.attachment a).session = (w.leases.attachment a).session := fun a => congrArg (·.2.1) (hl.same a)
  have hoper : ∀ a, (l.attachment a).operation = (w.leases.attachment a).operation := fun a => congrArg (·.2.2) (hl.same a)
  have hreg : ∀ {c a}, l.byClient c = some a → w.leases.byClient c = some a := by
    intro c a ha
    rcases hl.byClient c with hc | ⟨hnone, -⟩
    · exact hc.symm.trans ha
    · rw [hnone] at ha
      cases ha
  have hnone : ∀ {c}, w.leases.byClient c = none → l.byClient c = none := by
    intro c hc
    rcases hl.byClient c with hc' | ⟨hnone, -⟩
    · exact hc'.trans hc
    · exact hnone
  have hnoneOr : ∀ {c current}, w.leases.byClient c = none ∨ w.leases.byClient c = current →
      l.byClient c = none ∨ l.byClient c = current := by
    intro c current hc
    rcases hl.byClient c with hc' | ⟨hnone, -⟩
    · rw [hc']
      exact hc
    · exact .inl hnone
  have hidle : ∀ {a}, (l.attachment a).releasing = .idle → (w.leases.attachment a).releasing = .idle := by
    intro a ha
    by_contra hne
    exact hl.releasing a hne ha
  refine ⟨h.sessions, i, h.operations, ?_, ?_, ?_, ?_, ?_, ?_, ?_⟩
  · intro a ha
    dsimp only [withLeases] at ha ⊢
    rw [hoper, hcli]
    exact h.made a (hl.count ▸ ha)
  · intro a ha
    dsimp only [withLeases] at ha ⊢
    rw [hoper, hcli]
    rcases h.owner a (hl.count ▸ ha) with hended | ho | ho | ho | ho
    · exact .inl (ended_later hl hended)
    · exact .inr (.inl ho)
    · exact .inr (.inr (.inl ho))
    · rcases hl.byClient (w.leases.attachment a).client with hc | ⟨-, hf⟩
      · exact .inr (.inr (.inr (.inl (hc.trans ho))))
      · exact .inl (.inl (hf a ho))
    · exact .inr (.inr (.inr (.inr ho)))
  · intro j hj
    have hfits := h.stages j hj
    unfold StageFits at hfits ⊢
    dsimp only [withLeases] at hfits ⊢
    rw [hl.count]
    cases hs : (w.operations.operation j).stage <;> rw [hs] at hfits
    case queued => trivial
    case done => trivial
    case publishing => exact hfits
    case acquiring => exact ⟨hfits.1, hnoneOr hfits.2.1, hfits.2.2⟩
    case replacing => exact ⟨hfits.1, hnoneOr hfits.2.1, hfits.2.2.1, hl.releasing _ hfits.2.2.2⟩
    case attaching => exact ⟨hfits.1, hnone hfits.2.1, hfits.2.2.1, (hoper _).trans hfits.2.2.2⟩
    case undoing =>
      exact ⟨hfits.1, hnone hfits.2.1, hfits.2.2.1, (hoper _).trans hfits.2.2.2.1, hl.releasing _ hfits.2.2.2.2⟩
    case releasing => exact ⟨hfits.1, hfits.2.1, hl.releasing _ hfits.2.2⟩
  · intro c a hc hi
    show w.sessions.hosted (w.sessions.handle (l.attachment a).session).id = some (l.attachment a).session
    rw [hsess]
    exact h.hosted c a (hreg hc) (hidle hi)
  · intro c a hc hr
    dsimp only [withLeases] at hr ⊢
    rw [hsess] at hr
    exact hl.releasing a (h.removals c a (hreg hc) hr)
  · intro d a hd hk ha hc ho
    dsimp only [withLeases] at ha hc ho ⊢
    rw [hcli] at hc
    rw [hoper] at ho
    obtain ⟨hdone, hrel⟩ := h.disconnects d a hd hk (hl.count ▸ ha) hc ho
    exact ⟨fun hs => safe_later hl i (hdone hs), fun b hs => (hrel b hs).imp_left (safe_later hl i)⟩
  · have hclos := h.closer
    unfold CloserFits at hclos ⊢
    dsimp only [withLeases]
    rw [hl.count]
    cases hs : w.closer <;> rw [hs] at hclos
    case open_ => trivial
    case waiting => exact hclos
    case releasing =>
      exact ⟨hclos.1, hclos.2.1, fun a ha => (hclos.2.2 a ha).imp_left (safe_later hl i)⟩
    case closing =>
      exact ⟨hclos.1, hclos.2.1, fun a ha => safe_later hl i (hclos.2.2.1 a ha), hclos.2.2.2⟩
    case closed => exact ⟨hclos.1, hclos.2.1, fun a ha => safe_later hl i (hclos.2.2 a ha)⟩

end Later

/-! ## Operations go on -/

section Operations

variable {ops : Operations} {i : Nat}

/-- An operation goes on, and all else stays. -/
structure Onward (w : World) (ops : Operations) (i : Nat) : Prop where
  inv : ops.Inv
  count : ops.count = w.operations.count
  below : i < w.operations.count
  client : ∀ j, (ops.operation j).client = (w.operations.operation j).client
  kind : ∀ j, (ops.operation j).kind = (w.operations.operation j).kind
  other : ∀ j, j ≠ i → (ops.operation j).stage = (w.operations.operation j).stage
  unfinished : (w.operations.operation i).stage ≠ .done

theorem Onward.setStage (h : w.Inv) (hi : i < w.operations.count) (hnd : (w.operations.operation i).stage ≠ .done)
    (hfirst : w.operations.first i) (stage : Stage) : w.Onward (w.operations.setStage i stage) i where
  inv := h.operations.setStage hnd hfirst
  count := rfl
  below := hi
  client := fun j => (Operations.setStage_key i stage j).1
  kind := fun j => (Operations.setStage_key i stage j).2.1
  other := fun _ hj => congrArg (·.stage) (Operations.setStage_of_ne hj stage)
  unfinished := hnd

theorem Onward.finish (h : w.Inv) (hi : i < w.operations.count) (hnd : (w.operations.operation i).stage ≠ .done)
    (hfirst : w.operations.first i) : w.Onward (w.operations.finish i) i where
  inv := h.operations.finish hi hnd hfirst
  count := rfl
  below := hi
  client := fun j => (Operations.setStage_key i .done j).1
  kind := fun j => (Operations.setStage_key i .done j).2.1
  other := fun _ hj => congrArg (·.stage) (Operations.setStage_of_ne hj .done)
  unfinished := hnd

variable (n : w.Onward ops i)

include n

theorem Onward.attaches (j : Nat) : ops.attaches j ↔ w.operations.attaches j := by
  unfold Operations.attaches
  rw [n.kind j]

theorem Onward.done {j : Nat} (hj : (w.operations.operation j).stage = .done) : (ops.operation j).stage = .done := by
  have hne : j ≠ i := by
    intro heq
    rw [heq] at hj
    exact n.unfinished hj
  rw [n.other j hne]
  exact hj

theorem Onward.attached (h : w.attached) : ({ w with operations := ops } : World).attached := by
  intro j hj ha
  exact n.done (h j (n.count ▸ hj) ((n.attaches j).mp ha))

theorem CloserFits.onward (h : w.CloserFits) : ({ w with operations := ops } : World).CloserFits := by
  unfold CloserFits at h ⊢
  cases hs : w.closer <;> rw [hs] at h
  case open_ => trivial
  case waiting =>
    refine ⟨h.1, ?_⟩
    intro j hj ha
    rw [n.count] at hj ⊢
    refine (h.2 j hj ((n.attaches j).mp ha)).imp n.done ?_
    rintro ⟨l, hmem, hlt, hcli, hle⟩
    exact ⟨l, hmem, hlt, (n.client l).trans (hcli.trans (n.client j).symm), hle⟩
  case releasing => exact ⟨h.1, n.attached h.2.1, h.2.2⟩
  case closing => exact ⟨h.1, n.attached h.2.1, h.2.2⟩
  case closed => exact ⟨h.1, n.attached h.2.1, h.2.2⟩

/-- What the stages of other operations count on does not change. -/
theorem StageFits.other {j : Nat} (h : w.StageFits j) (hj : j ≠ i) : ({ w with operations := ops } : World).StageFits j := by
  unfold StageFits at h ⊢
  dsimp only at h ⊢
  rw [n.other j hj, n.client j]
  cases hs : (w.operations.operation j).stage <;> rw [hs] at h
  case queued => trivial
  case done => trivial
  case releasing => exact ⟨fun ha => h.1 ((n.attaches j).mp ha), h.2⟩
  case publishing => exact (n.attaches j).mpr h
  all_goals exact ⟨(n.attaches j).mpr h.1, h.2⟩

theorem Inv.onward (h : w.Inv) (hfits : ({ w with operations := ops } : World).StageFits i)
    (howner : ∀ a, (w.operations.operation i).stage = .attaching a ∨ (w.operations.operation i).stage = .undoing a →
      (w.leases.attachment a).ended ∨ (ops.operation i).stage = .attaching a ∨ (ops.operation i).stage = .undoing a)
    (hdisconnects : (w.operations.operation i).kind = .disconnect → ∀ a, a < w.leases.count →
      (w.leases.attachment a).client = (w.operations.operation i).client → (w.leases.attachment a).operation < i →
        ((ops.operation i).stage = .done → w.safe a) ∧ ∀ b, (ops.operation i).stage = .releasing b → w.safe a ∨ a = b) :
    ({ w with operations := ops } : World).Inv := by
  refine ⟨h.sessions, h.leases, n.inv, ?_, ?_, ?_, h.hosted, h.removals, ?_, CloserFits.onward n h.closer⟩
  · intro a ha
    rw [n.count, n.attaches, n.client]
    exact h.made a ha
  · intro a ha
    by_cases hi : (w.leases.attachment a).operation = i
    · rw [hi]
      rcases h.owner a ha with ho | ho | ho | ho
      · exact .inl ho
      · rw [hi] at ho
        rcases howner a (.inl ho) with hended | hs | hs
        · exact .inl hended
        · exact .inr (.inl hs)
        · exact .inr (.inr (.inl hs))
      · rw [hi] at ho
        rcases howner a (.inr ho) with hended | hs | hs
        · exact .inl hended
        · exact .inr (.inl hs)
        · exact .inr (.inr (.inl hs))
      · exact .inr (.inr (.inr ho))
    · rw [n.other _ hi]
      exact h.owner a ha
  · intro j hj
    by_cases hji : j = i
    · rw [hji]
      exact hfits
    · exact StageFits.other n (h.stages j (n.count ▸ hj)) hji
  · intro d a hd hk ha hc ho
    rw [n.count] at hd
    rw [n.kind] at hk
    rw [n.client] at hc
    by_cases hdi : d = i
    · rw [hdi] at hk hc ho ⊢
      exact hdisconnects hk a ha hc ho
    · rw [n.other d hdi]
      exact h.disconnects d a hd hk ha hc ho

end Operations

/-! ## Sessions change -/

/-- The handles that were closed stay closed, and what is hosted stays hosted for those attachments that count on it. -/
theorem Inv.withSessions (h : w.Inv) {s : Sessions} (i : s.Inv) (hshut : w.sessions.closing = true → s.closing = true)
    (hcount : w.sessions.handleCount ≤ s.handleCount)
    (hclosed : ∀ x, x < w.sessions.handleCount → (w.sessions.handle x).closed = true → (s.handle x).closed = true)
    (hhosted : ∀ c a, w.leases.byClient c = some a → (w.leases.attachment a).releasing = .idle →
      s.hosted (s.handle (w.leases.attachment a).session).id = some (w.leases.attachment a).session) :
    (w.withSessions s).Inv := by
  refine ⟨i, h.leases, h.operations, h.made, h.owner, h.stages, hhosted, h.removals, h.disconnects, ?_⟩
  have hclos := h.closer
  unfold CloserFits at hclos ⊢
  dsimp only [World.withSessions]
  cases hs : w.closer <;> rw [hs] at hclos
  case open_ => trivial
  case waiting => exact ⟨hshut hclos.1, hclos.2⟩
  case releasing => exact ⟨hshut hclos.1, hclos.2⟩
  case closing =>
    refine ⟨hshut hclos.1, hclos.2.1, hclos.2.2.1, ?_, ?_⟩
    · exact fun x hx => (hclos.2.2.2.1 x hx).trans_le hcount
    · intro x hx
      obtain ⟨hlt, hx⟩ := hclos.2.2.2.2 x hx
      exact ⟨hlt.trans_le hcount, hclosed x hlt hx⟩
  case closed => exact ⟨hshut hclos.1, hclos.2⟩

/-- Nothing that is hosted leaves the map, and the handles that there are keep their sessions. -/
theorem Inv.keepSessions (h : w.Inv) {s : Sessions} (i : s.Inv) (hshut : w.sessions.closing = true → s.closing = true)
    (hcount : w.sessions.handleCount ≤ s.handleCount)
    (hclosed : ∀ x, x < w.sessions.handleCount → (w.sessions.handle x).closed = true → (s.handle x).closed = true)
    (hhosted : ∀ id x, w.sessions.hosted id = some x → s.hosted id = some x)
    (hid : ∀ x, x < w.sessions.handleCount → (s.handle x).id = (w.sessions.handle x).id) : (w.withSessions s).Inv := by
  refine h.withSessions i hshut hcount hclosed ?_
  intro c a hc hidle
  have hs := h.hosted c a hc hidle
  rw [hid _ (h.sessions.hosted _ _ hs).1]
  exact hhosted _ _ hs

/-! ## New operations -/

theorem Inv.add (h : w.Inv) (client : Nat) (kind : Kind) (disconnected : Nat → Bool)
    (hshut : w.sessions.closing = true → kind.isAttach = false) :
    ({ w with operations := { w.operations.add client kind with disconnected := disconnected } } : World).Inv := by
  have hold : ∀ {j}, j < w.operations.count → (w.operations.add client kind).operation j = w.operations.operation j :=
    fun hj => Operations.add_of_lt client kind hj
  have hlast : (w.operations.add client kind).operation w.operations.count = ⟨client, kind, w.operations.last client, .queued⟩ :=
    Operations.add_last client kind
  have hcases : ∀ {j}, j < w.operations.count + 1 → j < w.operations.count ∨ j = w.operations.count :=
    fun hj => Nat.lt_succ_iff_lt_or_eq.mp hj
  have hatt : ∀ {j}, j < w.operations.count → ((w.operations.add client kind).attaches j ↔ w.operations.attaches j) := by
    intro j hj
    unfold Operations.attaches
    rw [hold hj]
  have hattached : w.sessions.closing = true → w.attached →
      ({ w with operations := { w.operations.add client kind with disconnected := disconnected } } : World).attached := by
    intro hc hall j hj ha
    rcases hcases hj with hlt | rfl
    · dsimp only
      rw [hold hlt]
      exact hall j hlt ((hatt hlt).mp ha)
    · have hkind : ((w.operations.add client kind).operation w.operations.count).kind.isAttach = true := ha
      rw [hlast, hshut hc] at hkind
      cases hkind
  refine ⟨h.sessions, h.leases, h.operations.add client kind disconnected, ?_, ?_, ?_, h.hosted, h.removals, ?_, ?_⟩
  · intro a ha
    obtain ⟨hlt, hattach, hcli⟩ := h.made a ha
    refine ⟨Nat.lt_succ_of_lt hlt, (hatt hlt).mpr hattach, ?_⟩
    rw [hold hlt]
    exact hcli
  · intro a ha
    rw [hold (h.made a ha).1]
    exact h.owner a ha
  · intro j hj
    rcases hcases hj with hlt | rfl
    · have hfits := h.stages j hlt
      unfold StageFits at hfits ⊢
      dsimp only at hfits ⊢
      rw [hold hlt]
      cases hs : (w.operations.operation j).stage <;> rw [hs] at hfits
      case queued => trivial
      case done => trivial
      case releasing => exact ⟨fun ha => hfits.1 ((hatt hlt).mp ha), hfits.2⟩
      case publishing => exact (hatt hlt).mpr hfits
      all_goals exact ⟨(hatt hlt).mpr hfits.1, hfits.2⟩
    · unfold StageFits
      rw [hlast]
      trivial
  · intro d a hd hk ha hc ho
    rcases hcases hd with hlt | rfl
    · rw [hold hlt] at hk hc ⊢
      exact h.disconnects d a hlt hk ha hc ho
    · rw [hlast]
      exact ⟨fun hs => (nomatch hs), fun b hs => (nomatch hs)⟩
  · have hclos := h.closer
    unfold CloserFits at hclos ⊢
    cases hs : w.closer <;> rw [hs] at hclos
    case open_ => trivial
    case waiting =>
      refine ⟨hclos.1, ?_⟩
      intro j hj ha
      rcases hcases hj with hlt | rfl
      · rw [hold hlt]
        refine (hclos.2 j hlt ((hatt hlt).mp ha)).imp_right ?_
        rintro ⟨l, hmem, hl, hcli, hle⟩
        refine ⟨l, hmem, Nat.lt_succ_of_lt hl, ?_, hle⟩
        rw [hold hl]
        exact hcli
      · have hkind : ((w.operations.add client kind).operation w.operations.count).kind.isAttach = true := ha
        rw [hlast, hshut hclos.1] at hkind
        cases hkind
    case releasing => exact ⟨hclos.1, hattached hclos.1 hclos.2.1, hclos.2.2⟩
    case closing => exact ⟨hclos.1, hattached hclos.1 hclos.2.1, hclos.2.2⟩
    case closed => exact ⟨hclos.1, hattached hclos.1 hclos.2.1, hclos.2.2⟩

/-! ## New attachments -/

variable {i : Nat}

/-- An operation that attaches and is under way keeps shutdown from releasing. -/
theorem not_attached (hi : i < w.operations.count) (ha : w.operations.attaches i)
    (hnd : (w.operations.operation i).stage ≠ .done) : ¬ w.attached := fun hall => hnd (hall i hi ha)

/-- While an operation that attaches is under way, no other one does for its client. -/
theorem Inv.alone (h : w.Inv) {j : Nat} (hi : i < w.operations.count) (ha : w.operations.attaches i)
    (hs : (w.operations.operation i).stage ≠ .queued ∧ (w.operations.operation i).stage ≠ .done) (hj : j < w.operations.count)
    (hji : j ≠ i) (haj : w.operations.attaches j)
    (hsj : (w.operations.operation j).stage ≠ .queued ∧ (w.operations.operation j).stage ≠ .done) :
    (w.operations.operation j).client ≠ (w.operations.operation i).client :=
  fun hc => hji (h.operations.attaching_unique hj hi haj ha hc hsj hs)

/-- The attachments that a disconnecting client looks after were made by operations that are done. -/
theorem Inv.not_after (h : w.Inv) {d : Nat} (hd : d < w.operations.count) (hds : (w.operations.operation d).stage ≠ .queued)
    (ha : w.operations.attaches i) (hc : (w.operations.operation i).client = (w.operations.operation d).client)
    (his : (w.operations.operation i).stage ≠ .done) : ¬ i < d :=
  fun hlt => his (h.operations.serial d hd hds i hlt ha hc)

theorem CloserFits.early (h : w.CloserFits) (hno : ¬ w.attached) {operations : Operations}
    (n : w.Onward operations i) (leases : Leases) : ({ w with operations := operations, leases := leases } : World).CloserFits := by
  have honward := CloserFits.onward n h
  unfold CloserFits at h honward ⊢
  cases hs : w.closer <;> rw [hs] at h honward
  case open_ => trivial
  case waiting => exact honward
  case releasing => exact absurd h.2.1 hno
  case closing => exact absurd h.2.1 hno
  case closed => exact absurd h.2.1 hno

theorem Inv.attachTo (h : w.Inv) {session : Nat} (hi : i < w.operations.count) (ha : w.operations.attaches i)
    (hs : (∃ source current, (w.operations.operation i).stage = .acquiring source current) ∨
      ∃ session current, (w.operations.operation i).stage = .replacing session current)
    (hnone : w.leases.byClient (w.operations.operation i).client = none) :
    (w.attachTo i (w.operations.operation i).client session).Inv := by
  have hstage : (w.operations.operation i).stage ≠ .queued ∧ (w.operations.operation i).stage ≠ .done := by
    rcases hs with ⟨source, current, hs⟩ | ⟨session, current, hs⟩ <;> rw [hs] <;> simp
  have hfirst := h.operations.serial i hi hstage.1
  have n := Onward.setStage h hi hstage.2 hfirst (.attaching w.leases.count)
  have hself : ((w.operations.setStage i (.attaching w.leases.count)).operation i).stage = .attaching w.leases.count := by
    rw [Operations.setStage_self]
  have hlast := Leases.create_last (l := w.leases) (w.operations.operation i).client session i
  have hold : ∀ {a}, a < w.leases.count →
      (w.leases.create (w.operations.operation i).client session i).attachment a = w.leases.attachment a :=
    fun hlt => Leases.create_of_lt _ _ _ hlt
  have hcases : ∀ {a}, a < w.leases.count + 1 → a < w.leases.count ∨ a = w.leases.count :=
    fun hlt => Nat.lt_succ_iff_lt_or_eq.mp hlt
  have hreg : ∀ {c a}, w.leases.byClient c = some a → a < w.leases.count := fun hc => (h.leases.registered _ _ hc).1
  unfold World.attachTo World.setStage
  refine ⟨h.sessions, h.leases.create _ _ _, n.inv, ?_, ?_, ?_, ?_, ?_, ?_, ?_⟩
  · intro a hlt
    rcases hcases hlt with hlt | rfl
    · rw [hold hlt, n.attaches, n.client]
      exact h.made a hlt
    · rw [hlast, n.attaches, n.client]
      exact ⟨hi, ha, rfl⟩
  · intro a hlt
    rcases hcases hlt with hlt | rfl
    · rw [hold hlt]
      rcases h.owner a hlt with ho | ho | ho | ho
      · exact .inl ho
      · have hne : (w.leases.attachment a).operation ≠ i := by
          intro heq
          rw [heq] at ho
          rcases hs with ⟨_, _, hs⟩ | ⟨_, _, hs⟩ <;> exact nomatch hs.symm.trans ho
        rw [n.other _ hne]
        exact .inr (.inl ho)
      · have hne : (w.leases.attachment a).operation ≠ i := by
          intro heq
          rw [heq] at ho
          rcases hs with ⟨_, _, hs⟩ | ⟨_, _, hs⟩ <;> exact nomatch hs.symm.trans ho
        rw [n.other _ hne]
        exact .inr (.inr (.inl ho))
      · exact .inr (.inr (.inr ho))
    · rw [hlast]
      exact .inr (.inl hself)
  · intro j hj
    by_cases hji : j = i
    · rw [hji]
      unfold StageFits
      dsimp only
      rw [hself, n.client]
      exact ⟨(n.attaches i).mpr ha, hnone, Nat.lt_succ_self _, congrArg ClientAttachment.operation hlast⟩
    · have hfits := StageFits.other n (h.stages j hj) hji
      unfold StageFits at hfits ⊢
      dsimp only at hfits ⊢
      cases hsj : ((w.operations.setStage i (.attaching w.leases.count)).operation j).stage <;> rw [hsj] at hfits
      case queued => trivial
      case done => trivial
      case publishing => exact hfits
      case acquiring => exact ⟨hfits.1, hfits.2.1, fun a hc => Nat.lt_succ_of_lt (hfits.2.2 a hc)⟩
      case replacing =>
        have hx := hold hfits.2.2.1
        exact ⟨hfits.1, hfits.2.1, Nat.lt_succ_of_lt hfits.2.2.1, by rw [hx]; exact hfits.2.2.2⟩
      case attaching =>
        have hx := hold hfits.2.2.1
        exact ⟨hfits.1, hfits.2.1, Nat.lt_succ_of_lt hfits.2.2.1, by rw [hx]; exact hfits.2.2.2⟩
      case undoing =>
        have hx := hold hfits.2.2.1
        exact ⟨hfits.1, hfits.2.1, Nat.lt_succ_of_lt hfits.2.2.1, by rw [hx]; exact hfits.2.2.2⟩
      case releasing =>
        have hx := hold hfits.2.1
        exact ⟨hfits.1, Nat.lt_succ_of_lt hfits.2.1, by rw [hx]; exact hfits.2.2⟩
  · intro c a hc
    unfold sessionOf
    rw [hold (hreg hc)]
    exact h.hosted c a hc
  · intro c a hc
    rw [hold (hreg hc)]
    exact h.removals c a hc
  · intro d a hd hk hlt hc ho
    rw [n.kind] at hk
    rw [n.client] at hc
    have hdi : d ≠ i := by
      intro heq
      unfold Operations.attaches at ha
      rw [heq] at hk
      rw [hk] at ha
      cases ha
    rw [n.other d hdi]
    rcases hcases hlt with hlt | rfl
    · rw [hold hlt] at hc ho
      unfold safe
      rw [hold hlt]
      exact h.disconnects d a hd hk hlt hc ho
    · -- the disconnecting client waits for this operation
      rw [hlast] at hc ho
      refine ⟨fun hds => ?_, fun b hds => ?_⟩
      · exact absurd ho (h.not_after hd (by rw [hds]; simp) ha hc hstage.2)
      · exact absurd ho (h.not_after hd (by rw [hds]; simp) ha hc hstage.2)
  · exact CloserFits.early h.closer (not_attached hi ha hstage.2) n _

theorem Inv.register (h : w.Inv) {a : Nat} (hi : i < w.operations.count) (hs : (w.operations.operation i).stage = .attaching a)
    (hl : (w.leases.attachment a).lease = true) (hf : ¬ (w.leases.attachment a).finished)
    (hhosted : w.sessions.hosted (w.sessionOf a) = some (w.leases.attachment a).session)
    (hrem : w.removing (w.leases.attachment a).session → (w.leases.attachment a).releasing ≠ .idle) :
    ({ w with
      leases := w.leases.register a
      operations := w.operations.setStage i .publishing } : World).Inv := by
  have hstage : (w.operations.operation i).stage ≠ .queued ∧ (w.operations.operation i).stage ≠ .done := by
    rw [hs]
    simp
  have hfits := h.stages i hi
  unfold StageFits at hfits
  dsimp only at hfits
  rw [hs] at hfits
  obtain ⟨ha, hnone, hlt, hoper⟩ := hfits
  have hcli : (w.operations.operation i).client = (w.leases.attachment a).client := by
    have hmade := (h.made a hlt).2.2
    rwa [hoper] at hmade
  have n := Onward.setStage h hi hstage.2 (h.operations.serial i hi hstage.1) .publishing
  have hself : ((w.operations.setStage i .publishing).operation i).stage = .publishing := by rw [Operations.setStage_self]
  have hmap : (w.leases.register a).byClient (w.leases.attachment a).client = some a := update_self _ _ _
  have hother : ∀ {c}, c ≠ (w.leases.attachment a).client → (w.leases.register a).byClient c = w.leases.byClient c :=
    fun hc => update_of_ne hc _ _
  have hcases : ∀ {c b}, (w.leases.register a).byClient c = some b → b = a ∨ w.leases.byClient c = some b := by
    intro c b hc
    by_cases heq : c = (w.leases.attachment a).client
    · rw [heq, hmap] at hc
      exact .inl (Option.some.inj hc).symm
    · rw [hother heq] at hc
      exact .inr hc
  refine ⟨h.sessions, h.leases.register hlt hl hf, n.inv, ?_, ?_, ?_, ?_, ?_, ?_, ?_⟩
  · intro b hb
    rw [n.attaches, n.client]
    exact h.made b hb
  · intro b hb
    by_cases hba : b = a
    · rw [hba]
      exact .inr (.inr (.inr (.inl hmap)))
    · rcases h.owner b hb with ho | ho | ho | ho | ho
      · exact .inl ho
      · have hne : (w.leases.attachment b).operation ≠ i := by
          intro heq
          rw [heq, hs] at ho
          exact hba (Stage.attaching.inj ho).symm
        exact .inr (.inl ((n.other _ hne).trans ho))
      · have hne : (w.leases.attachment b).operation ≠ i := by
          intro heq
          rw [heq, hs] at ho
          cases ho
        exact .inr (.inr (.inl ((n.other _ hne).trans ho)))
      · have hne : (w.leases.attachment b).client ≠ (w.leases.attachment a).client := by
          intro heq
          rw [heq, ← hcli, hnone] at ho
          cases ho
        exact .inr (.inr (.inr (.inl ((hother hne).trans ho))))
      · exact .inr (.inr (.inr (.inr ho)))
  · intro j hj
    by_cases hji : j = i
    · rw [hji]
      unfold StageFits
      dsimp only
      rw [hself]
      exact (n.attaches i).mpr ha
    · have hold := h.stages j hj
      have halone := h.alone hi ha hstage hj hji
      unfold StageFits at hold ⊢
      dsimp only at hold ⊢
      rw [n.other j hji, n.client]
      cases hsj : (w.operations.operation j).stage <;> rw [hsj] at hold halone
      case queued => trivial
      case done => trivial
      case releasing => exact ⟨fun haj => hold.1 ((n.attaches j).mp haj), hold.2⟩
      case publishing => exact (n.attaches j).mpr hold
      all_goals
        have hne := halone hold.1 (by simp)
        rw [hcli] at hne
        rw [hother hne]
        exact ⟨(n.attaches j).mpr hold.1, hold.2⟩
  · intro c b hc hidle
    rcases hcases hc with rfl | hold
    · exact hhosted
    · exact h.hosted c b hold hidle
  · intro c b hc hr
    rcases hcases hc with rfl | hold
    · exact hrem hr
    · exact h.removals c b hold hr
  · intro d b hd hk hb hc ho
    rw [n.kind] at hk
    rw [n.client] at hc
    have hdi : d ≠ i := by
      intro heq
      unfold Operations.attaches at ha
      rw [heq] at hk
      rw [hk] at ha
      cases ha
    rw [n.other d hdi]
    exact h.disconnects d b hd hk hb hc ho
  · exact CloserFits.early h.closer (not_attached hi ha hstage.2) n _

end World

end Shuvpi.Router
