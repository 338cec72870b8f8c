import Shuvpi.FileMutationQueue

/-!
# Mutations of one file exclude each other

The chains of the table put the calls of one key in the order of the calls. Two calls for one file
are in one chain wherever the absolute path of a file that does not exist yet is the path that the
file will have.
-/
namespace Shuvpi.FileMutationQueue

open MutationQueueState
open List Option

variable {P : Type}

/-! ## Transitions -/

@[simp] theorem phase_setPhase (s : MutationQueueState P) (i j : Nat) (p : Phase P) :
    (s.setPhase i p).phase j = if i = j then (s.phase j).map fun _ => p else s.phase j := by
  rw [phase, phase, setPhase, getElem?_modify]
  split
  · cases s.calls[j]? <;> rfl
  · cases s.calls[j]? <;> rfl

variable {i j : Nat}

theorem take_registered {s : MutationQueueState P}
    (h : ((s.calls.take i).all fun call => call.phase.registered) = true)
    (hi : s.phase i ≠ none) :
    ∀ j, j < i → ∃ q, s.phase j = some q ∧ q.registered = true := by
  intro j hj
  have hlen : i < s.calls.length := by
    by_contra hle
    exact hi (by rw [phase, List.getElem?_eq_none (by omega), Option.map_none])
  have hin : j < s.calls.length := by omega
  have hat : s.calls[j]? = some s.calls[j] := List.getElem?_eq_getElem hin
  refine ⟨_, by rw [phase, hat, Option.map_some], ?_⟩
  rw [List.all_eq_true] at h
  exact h _ (List.mem_take_iff_getElem.mpr ⟨j, by omega, rfl⟩)

/-- What an action of call `i` does: the phase before, the phase after and the state after. -/
inductive Move [DecidableEq P] (names : PathNames P) (s : MutationQueueState P) (i : Nat) :
    Phase P → Phase P → MutationQueueState P → Prop where
  | beginRegistration : (∀ j, j < i → ∃ q, s.phase j = some q ∧ q.registered = true) →
      Move names s i .waiting .resolving (s.setPhase i .resolving)
  | absolutePath {absolutePath : P} :
      Move names s i .resolving (.canonicalizing absolutePath) (s.setPhase i (.canonicalizing absolutePath))
  | failAbsolute {code : FileErrorCode} : Move names s i .resolving (.failed code) (s.setPhase i (.failed code))
  | canonicalPath {absolutePath key : P} : getMutationQueueKey s.fs absolutePath = .ok key →
      Move names s i (.canonicalizing absolutePath) (.resolved key (names.file s.fs absolutePath))
        (s.setPhase i (.resolved key (names.file s.fs absolutePath)))
  | failCanonical {absolutePath : P} {code : FileErrorCode} :
      Move names s i (.canonicalizing absolutePath) (.failed code) (s.setPhase i (.failed code))
  | register {key file : P} : Move names s i (.resolved key file) (.queued key file (s.queues.get key))
      { s.setPhase i (.queued key file (s.queues.get key)) with queues := s.queues.set key i }
  | start {key file : P} {currentQueue : Option Nat} : s.released currentQueue = true →
      Move names s i (.queued key file currentQueue) (.running key file) (s.setPhase i (.running key file))
  | finish {key file : P} {ok : Bool} : Move names s i (.running key file) (.finished key file ok)
      { s.setPhase i (.finished key file ok) with
        queues := if s.queues.get key = some i then s.queues.delete key else s.queues }

variable [DecidableEq P] {names : PathNames P} {s s' : MutationQueueState P} {i : Nat} {q p : Phase P}

/-- A move changes the phase of its call only. -/
theorem Move.phase_eq (h : Move names s i q p s') (hi : s.phase i = some q) (j : Nat) :
    s'.phase j = if i = j then some p else s.phase j := by
  have hset : (s.setPhase i p).phase j = if i = j then some p else s.phase j := by
    rw [phase_setPhase]
    split
    · rename_i hij
      rw [← hij, hi, map_some]
    · rfl
  cases h <;> exact hset

variable {action : Action P}

/-- All that an action can do. -/
theorem step_cases (h : step names s action = some s') :
    (∃ path, action = .call path ∧ s' = { s with calls := s.calls ++ [{ path := path }] }) ∨
      (∃ fs, action = .change fs ∧ s' = { s with fs := fs }) ∨
        action.ofCall = true ∧ ∃ i q p, s.phase i = some q ∧ Move names s i q p s' ∧
          ∀ absolutePath, q = .canonicalizing absolutePath → action = .canonicalPath i := by
  cases action with
  | call path =>
    cases h
    exact .inl ⟨path, rfl, rfl⟩
  | change fs =>
    cases h
    exact .inr (.inl ⟨fs, rfl, rfl⟩)
  | beginRegistration i =>
    simp only [step] at h
    split at h
    · rename_i hphase
      split at h
      · rename_i hearlier
        cases h
        exact .inr (.inr ⟨rfl, i, _, _, hphase,
          .beginRegistration (take_registered hearlier (by rw [hphase]; exact some_ne_none _)),
          fun _ hq => (by cases hq)⟩)
      · cases h
    · cases h
  | absolutePath i =>
    simp only [step] at h
    split at h
    · rename_i path hcall
      have hphase : s.phase i = some .resolving := by rw [phase, hcall, map_some]
      split at h
      · cases h
        exact .inr (.inr ⟨rfl, i, _, _, hphase, .absolutePath, fun _ hq => (by cases hq)⟩)
      · cases h
        exact .inr (.inr ⟨rfl, i, _, _, hphase, .failAbsolute, fun _ hq => (by cases hq)⟩)
    · cases h
  | canonicalPath i =>
    simp only [step] at h
    split at h
    · rename_i hphase
      split at h
      · rename_i hkey
        cases h
        exact .inr (.inr ⟨rfl, i, _, _, hphase, .canonicalPath hkey, fun _ _ => rfl⟩)
      · cases h
        exact .inr (.inr ⟨rfl, i, _, _, hphase, .failCanonical, fun _ _ => rfl⟩)
    · cases h
  | register i =>
    simp only [step] at h
    split at h
    · rename_i hphase
      cases h
      exact .inr (.inr ⟨rfl, i, _, _, hphase, .register, fun _ hq => (by cases hq)⟩)
    · cases h
  | start i =>
    simp only [step] at h
    split at h
    · rename_i hphase
      split at h
      · rename_i hrel
        cases h
        exact .inr (.inr ⟨rfl, i, _, _, hphase, .start hrel, fun _ hq => (by cases hq)⟩)
      · cases h
    · cases h
  | finish i ok =>
    simp only [step] at h
    split at h
    · rename_i hphase
      cases h
      exact .inr (.inr ⟨rfl, i, _, _, hphase, .finish, fun _ hq => (by cases hq)⟩)
    · cases h

/-! ## The chains -/

def Registered (s : MutationQueueState P) (i : Nat) : Prop := ∃ p, s.phase i = some p ∧ p.registered = true

def Finished (s : MutationQueueState P) (i : Nat) : Prop := ∃ p, s.phase i = some p ∧ p.isFinished = true

/-- The call is or was in the chain of the key. -/
def Keyed (s : MutationQueueState P) (i : Nat) (key : P) : Prop := ∃ p, s.phase i = some p ∧ p.key? = some key

/-- The mutation of the call has begun. -/
def Started (s : MutationQueueState P) (i : Nat) : Prop :=
  ∃ p, s.phase i = some p ∧ (p.isRunning = true ∨ p.isFinished = true)

/-- All calls of the key before this one have finished. -/
def AllBefore (s : MutationQueueState P) (j : Nat) (key : P) : Prop := ∀ i, i < j → Keyed s i key → Finished s i

/-- Registrations are settled in the order of the calls; the table names the last call of a chain
that is not through; a call stands directly behind the one before it in its chain. -/
structure Inv (s : MutationQueueState P) : Prop where
  order : ∀ i j p, i < j → s.phase j = some p → p ≠ .waiting → Registered s i
  last : ∀ key j, s.queues.get key = some j → Keyed s j key ∧ ¬ Finished s j ∧ ∀ i, Keyed s i key → i ≤ j
  free : ∀ key, s.queues.get key = none → ∀ i, Keyed s i key → Finished s i
  first : ∀ j key file, s.phase j = some (.queued key file none) → AllBefore s j key
  behind : ∀ i j key file, s.phase j = some (.queued key file (some i)) →
    i < j ∧ Keyed s i key ∧ ∀ m, m < j → Keyed s m key → m ≤ i
  started : ∀ j key, Started s j → Keyed s j key → AllBefore s j key

omit [DecidableEq P] in
theorem Finished.started (h : Finished s i) : Started s i := by
  obtain ⟨p, hp, hfin⟩ := h
  exact ⟨p, hp, .inr hfin⟩

variable {p : Phase P}

omit [DecidableEq P] in
theorem Phase.key_of_started (h : p.isRunning = true ∨ p.isFinished = true) :
    ∃ key, p.key? = some key := by
  cases p with
  | running key file => exact ⟨key, rfl⟩
  | finished key file ok => exact ⟨key, rfl⟩
  | _ => simp [Phase.isRunning, Phase.isFinished] at h

omit [DecidableEq P] in
theorem Phase.registered_of_key {key : P} (h : p.key? = some key) : p.registered = true := by
  cases p <;> first | rfl | cases h

omit [DecidableEq P] in
theorem Phase.finished_of_settled {key : P} (h : p.settled = true) (hkey : p.key? = some key) :
    p.isFinished = true := by
  cases p with
  | finished key file ok => rfl
  | failed code => cases hkey
  | _ => cases h

variable (h : Move names s i q p s')
include h

theorem Move.keeps_registered (hq : q.registered = true) : p.registered = true := by
  cases h <;> first | rfl | cases hq

theorem Move.registered_mono (hi : s.phase i = some q)
    (hj : Registered s j) : Registered s' j := by
  obtain ⟨r, hr, hreg⟩ := hj
  by_cases hij : i = j
  · subst hij
    rw [hi, some.injEq] at hr
    subst hr
    exact ⟨p, by rw [h.phase_eq hi, if_pos rfl], h.keeps_registered hreg⟩
  · exact ⟨r, by rw [h.phase_eq hi, if_neg hij, hr], hreg⟩

/-- Registrations stay in the order of the calls. -/
theorem Move.order (hi : s.phase i = some q) (hinv : Inv s) :
    ∀ i j p, i < j → s'.phase j = some p → p ≠ .waiting → Registered s' i := by
  intro m j r hmj hr hwait
  rw [h.phase_eq hi] at hr
  split at hr
  · rename_i hij
    subst hij
    refine h.registered_mono hi ?_
    by_cases hq : q = .waiting
    · subst hq
      cases h with
      | beginRegistration hearlier => exact hearlier m hmj
    · exact hinv.order m i q hmj hi hq
  · exact h.registered_mono hi (hinv.order m j r hmj hr hwait)

omit h

section Frame

variable (hsame : ∀ j p key, p.key? = some key → (s'.phase j = some p ↔ s.phase j = some p))

include hsame

omit [DecidableEq P] in
theorem keyed_congr (j : Nat) (key : P) : Keyed s' j key ↔ Keyed s j key :=
  exists_congr fun p => and_congr_left fun hkey => hsame j p key hkey

omit [DecidableEq P] in
theorem finished_congr (j : Nat) : Finished s' j ↔ Finished s j := by
  refine exists_congr fun p => and_congr_left fun hfin => ?_
  obtain ⟨key, hkey⟩ := Phase.key_of_started (.inr hfin)
  exact hsame j p key hkey

omit [DecidableEq P] in
theorem started_congr (j : Nat) : Started s' j ↔ Started s j := by
  refine exists_congr fun p => and_congr_left fun hstart => ?_
  obtain ⟨key, hkey⟩ := Phase.key_of_started hstart
  exact hsame j p key hkey

/-- What does not touch a chain keeps the invariant. -/
theorem Inv.frame (h : Inv s) (hqs : s'.queues = s.queues)
    (horder : ∀ i j p, i < j → s'.phase j = some p → p ≠ .waiting → Registered s' i) : Inv s' := by
  have hbef (j : Nat) (key : P) : AllBefore s' j key ↔ AllBefore s j key := by
    simp only [AllBefore, keyed_congr hsame, finished_congr hsame]
  refine ⟨horder, ?_, ?_, ?_, ?_, ?_⟩
  · intro key j hget
    rw [hqs] at hget
    simpa only [keyed_congr hsame, finished_congr hsame] using h.last key j hget
  · intro key hget
    rw [hqs] at hget
    simpa only [keyed_congr hsame, finished_congr hsame] using h.free key hget
  · intro j key file hj
    rw [hbef]
    exact h.first j key file ((hsame j _ key rfl).mp hj)
  · intro i j key file hj
    simpa only [keyed_congr hsame] using h.behind i j key file ((hsame j _ key rfl).mp hj)
  · intro j key hstart hkeyed
    rw [hbef]
    exact h.started j key ((started_congr hsame j).mp hstart) ((keyed_congr hsame j key).mp hkeyed)

end Frame

/-- A move of a call that is in no chain before and after. -/
theorem Move.same_of_no_key (h : Move names s i q p s') (hi : s.phase i = some q) (hq : q.key? = none)
    (hp : p.key? = none) : ∀ j r key, r.key? = some key → (s'.phase j = some r ↔ s.phase j = some r) := by
  intro j r key hr
  rw [h.phase_eq hi]
  split
  · rename_i hij
    subst hij
    refine iff_of_false ?_ ?_
    · rintro ⟨rfl⟩
      rw [hp] at hr
      cases hr
    · rw [hi]
      rintro ⟨rfl⟩
      rw [hq] at hr
      cases hr
  · rfl

variable {key file : P}

/-- A call enters the chain of its key at the end. -/
theorem Inv.register (h : Inv s) (hi : s.phase i = some (.resolved key file))
    (hmove : Move names s i (.resolved key file) (.queued key file (s.queues.get key)) s')
    (hqs : s'.queues = s.queues.set key i) : Inv s' := by
  have hphase := hmove.phase_eq hi
  have hself : s'.phase i = some (.queued key file (s.queues.get key)) := by rw [hphase, if_pos rfl]
  have hother {j : Nat} (hj : i ≠ j) : s'.phase j = s.phase j := by rw [hphase, if_neg hj]
  -- no later call has a key yet: its registration would be settled before this one's
  have hbef {j : Nat} {k : P} (hj : Keyed s j k) : j < i := by
    obtain ⟨r, hr, hkey⟩ := hj
    obtain hlt | rfl | hgt := Nat.lt_trichotomy j i
    · exact hlt
    · rw [hi, some.injEq] at hr
      subst hr
      cases hkey
    · have hne : r ≠ .waiting := by
        rintro rfl
        cases hkey
      obtain ⟨r', hr', hreg⟩ := h.order i j r hgt hr hne
      rw [hi, some.injEq] at hr'
      subst hr'
      cases hreg
  have hkeyed (j : Nat) (k : P) : Keyed s' j k ↔ Keyed s j k ∨ (j = i ∧ k = key) := by
    by_cases hj : i = j
    · subst hj
      have hnot : ¬ Keyed s i k := fun hk => absurd (hbef hk) (Nat.lt_irrefl i)
      rw [or_iff_right hnot]
      constructor
      · rintro ⟨r, hr, hk⟩
        rw [hself, some.injEq] at hr
        subst hr
        exact ⟨rfl, (some.inj hk).symm⟩
      · rintro ⟨-, rfl⟩
        exact ⟨_, hself, rfl⟩
    · simp only [Keyed, hother hj, Ne.symm hj, false_and, or_false]
  have hfin (j : Nat) : Finished s' j ↔ Finished s j := by
    by_cases hj : i = j
    · subst hj
      simp only [Finished, hself, hi, some.injEq]
      exact iff_of_false (by rintro ⟨_, rfl, hf⟩; cases hf) (by rintro ⟨_, rfl, hf⟩; cases hf)
    · simp only [Finished, hother hj]
  have hall {j : Nat} {k : P} (hj : j ≤ i) (hb : AllBefore s j k) : AllBefore s' j k := by
    intro m hm hk
    obtain hk | ⟨rfl, -⟩ := (hkeyed m k).mp hk
    · exact (hfin m).mpr (hb m hm hk)
    · omega
  refine ⟨hmove.order hi h, ?_, ?_, ?_, ?_, ?_⟩
  · intro k j hget
    rw [hqs, JsMap.get_set] at hget
    split at hget
    · rename_i hk
      subst hk
      cases hget
      refine ⟨(hkeyed i key).mpr (.inr ⟨rfl, rfl⟩), ?_, ?_⟩
      · rw [hfin]
        rintro ⟨r, hr, hf⟩
        rw [hi, some.injEq] at hr
        subst hr
        cases hf
      · intro m hm
        obtain hm | ⟨rfl, -⟩ := (hkeyed m key).mp hm
        · exact (hbef hm).le
        · exact le_rfl
    · rename_i hk
      obtain ⟨hj, hnot, hmax⟩ := h.last k j hget
      refine ⟨(hkeyed j k).mpr (.inl hj), by rwa [hfin], ?_⟩
      intro m hm
      obtain hm | ⟨-, rfl⟩ := (hkeyed m k).mp hm
      · exact hmax m hm
      · exact absurd rfl hk
  · intro k hget m hm
    rw [hqs, JsMap.get_set] at hget
    split at hget
    · cases hget
    · rename_i hk
      obtain hm | ⟨-, rfl⟩ := (hkeyed m k).mp hm
      · exact (hfin m).mpr (h.free k hget m hm)
      · exact absurd rfl hk
  · intro j k f hj
    by_cases hij : i = j
    · subst hij
      rw [hself, some.injEq, Phase.queued.injEq] at hj
      obtain ⟨rfl, -, hnone⟩ := hj
      exact hall le_rfl fun m _ hm => h.free key hnone m hm
    · rw [hother hij] at hj
      exact hall (hbef ⟨_, hj, rfl⟩).le (h.first j k f hj)
  · intro m j k f hj
    by_cases hij : i = j
    · subst hij
      rw [hself, some.injEq, Phase.queued.injEq] at hj
      obtain ⟨rfl, -, hsome⟩ := hj
      obtain ⟨hm, -, hmax⟩ := h.last key m hsome
      refine ⟨hbef hm, (hkeyed m key).mpr (.inl hm), fun n hn hk => ?_⟩
      obtain hk | ⟨rfl, -⟩ := (hkeyed n key).mp hk
      · exact hmax n hk
      · omega
    · rw [hother hij] at hj
      obtain ⟨hlt, hm, hmax⟩ := h.behind m j k f hj
      have hji := hbef ⟨_, hj, rfl⟩
      refine ⟨hlt, (hkeyed m k).mpr (.inl hm), fun n hn hk => ?_⟩
      obtain hk | ⟨rfl, -⟩ := (hkeyed n k).mp hk
      · exact hmax n hn hk
      · omega
  · intro j k hstart hk
    obtain ⟨r, hr, hs⟩ := hstart
    by_cases hij : i = j
    · subst hij
      rw [hself, some.injEq] at hr
      subst hr
      simp [Phase.isRunning, Phase.isFinished] at hs
    · rw [hother hij] at hr
      obtain hk | ⟨rfl, -⟩ := (hkeyed j k).mp hk
      · exact hall (hbef hk).le (h.started j k ⟨r, hr, hs⟩ hk)
      · exact absurd rfl hij

/-- Within a chain a call keeps its key. -/
theorem Move.keyed_iff (h : Move names s i q p s') (hi : s.phase i = some q) (hkey : p.key? = q.key?)
    (j : Nat) (key : P) : Keyed s' j key ↔ Keyed s j key := by
  by_cases hij : i = j
  · subst hij
    simp only [Keyed, h.phase_eq hi, if_pos, hi, some.injEq, exists_eq_left', hkey]
  · simp only [Keyed, h.phase_eq hi, if_neg hij]

/-- A call that starts has seen all calls of its chain before it finish. -/
theorem Inv.start {currentQueue : Option Nat} (h : Inv s)
    (hi : s.phase i = some (.queued key file currentQueue))
    (hmove : Move names s i (.queued key file currentQueue) (.running key file) s')
    (hrel : s.released currentQueue = true) (hqs : s'.queues = s.queues) : Inv s' := by
  have hphase := hmove.phase_eq hi
  have hself : s'.phase i = some (.running key file) := by rw [hphase, if_pos rfl]
  have hother {j : Nat} (hj : i ≠ j) : s'.phase j = s.phase j := by rw [hphase, if_neg hj]
  have hkeyed := hmove.keyed_iff hi rfl
  have hfin (j : Nat) : Finished s' j ↔ Finished s j := by
    by_cases hj : i = j
    · subst hj
      simp only [Finished, hself, hi, some.injEq, exists_eq_left', Phase.isFinished]
    · simp only [Finished, hother hj]
  have hall (j : Nat) (k : P) : AllBefore s' j k ↔ AllBefore s j k := by
    simp only [AllBefore, hkeyed, hfin]
  have hbef : AllBefore s i key := by
    cases currentQueue with
    | none => exact h.first i key file hi
    | some m =>
      obtain ⟨-, hm, hmax⟩ := h.behind m i key file hi
      have hdone : Finished s m := by
        rw [released] at hrel
        cases hm : s.phase m with
        | none => simp [hm] at hrel
        | some r => exact ⟨r, hm, by simpa [hm] using hrel⟩
      intro n hn hk
      obtain rfl | hlt := Nat.eq_or_lt_of_le (hmax n hn hk)
      · exact hdone
      · exact h.started m key hdone.started hm n hlt hk
  refine ⟨hmove.order hi h, ?_, ?_, ?_, ?_, ?_⟩
  · intro k j hget
    rw [hqs] at hget
    simpa only [hkeyed, hfin] using h.last k j hget
  · intro k hget
    rw [hqs] at hget
    simpa only [hkeyed, hfin] using h.free k hget
  · intro j k f hj
    by_cases hij : i = j
    · subst hij
      rw [hself] at hj
      cases hj
    · rw [hother hij] at hj
      exact (hall j k).mpr (h.first j k f hj)
  · intro m j k f hj
    by_cases hij : i = j
    · subst hij
      rw [hself] at hj
      cases hj
    · rw [hother hij] at hj
      simpa only [hkeyed] using h.behind m j k f hj
  · intro j k hstart hk
    rw [hall]
    by_cases hij : i = j
    · subst hij
      obtain ⟨r, hr, hk⟩ := hk
      rw [hself, some.injEq] at hr
      subst hr
      cases hk
      exact hbef
    · obtain ⟨r, hr, hs⟩ := hstart
      rw [hother hij] at hr
      exact h.started j k ⟨r, hr, hs⟩ ((hkeyed j k).mp hk)

/-- The table loses a chain when its last call is through. -/
theorem Inv.finish {ok : Bool} (h : Inv s) (hi : s.phase i = some (.running key file))
    (hmove : Move names s i (.running key file) (.finished key file ok) s')
    (hqs : s'.queues = if s.queues.get key = some i then s.queues.delete key else s.queues) : Inv s' := by
  have hphase := hmove.phase_eq hi
  have hself : s'.phase i = some (.finished key file ok) := by rw [hphase, if_pos rfl]
  have hother {j : Nat} (hj : i ≠ j) : s'.phase j = s.phase j := by rw [hphase, if_neg hj]
  have hkeyed := hmove.keyed_iff hi rfl
  have hfin (j : Nat) : Finished s' j ↔ Finished s j ∨ j = i := by
    by_cases hj : i = j
    · subst hj
      exact iff_of_true ⟨_, hself, rfl⟩ (.inr rfl)
    · simp only [Finished, hother hj, Ne.symm hj, or_false]
  have hall {j : Nat} {k : P} (hb : AllBefore s j k) : AllBefore s' j k := by
    intro m hm hk
    exact (hfin m).mpr (.inl (hb m hm ((hkeyed m k).mp hk)))
  have hrun : Started s i := ⟨_, hi, .inl rfl⟩
  refine ⟨hmove.order hi h, ?_, ?_, ?_, ?_, ?_⟩
  · intro k j hget
    have hold : s.queues.get k = some j ∧ ¬ (k = key ∧ j = i) := by
      rw [hqs] at hget
      split at hget
      · rename_i hmine
        rw [JsMap.get_delete] at hget
        split at hget
        · cases hget
        · rename_i hk
          exact ⟨hget, fun heq => hk heq.1.symm⟩
      · rename_i hmine
        exact ⟨hget, fun heq => hmine (by rw [← heq.1, ← heq.2]; exact hget)⟩
    obtain ⟨hj, hnot, hmax⟩ := h.last k j hold.1
    refine ⟨(hkeyed j k).mpr hj, ?_, fun m hm => hmax m ((hkeyed m k).mp hm)⟩
    rw [hfin]
    rintro (hf | rfl)
    · exact hnot hf
    · obtain ⟨r, hr, hk⟩ := hj
      rw [hi, some.injEq] at hr
      subst hr
      cases hk
      exact hold.2 ⟨rfl, rfl⟩
  · intro k hget m hm
    rw [hfin]
    have hm' := (hkeyed m k).mp hm
    rw [hqs] at hget
    split at hget
    · rename_i hmine
      rw [JsMap.get_delete] at hget
      split at hget
      · rename_i hk
        subst hk
        obtain rfl | hlt := Nat.eq_or_lt_of_le ((h.last key i hmine).2.2 m hm')
        · exact .inr rfl
        · exact .inl (h.started i key hrun ⟨_, hi, rfl⟩ m hlt hm')
      · exact .inl (h.free k hget m hm')
    · exact .inl (h.free k hget m hm')
  · intro j k f hj
    by_cases hij : i = j
    · subst hij
      rw [hself] at hj
      cases hj
    · rw [hother hij] at hj
      exact hall (h.first j k f hj)
  · intro m j k f hj
    by_cases hij : i = j
    · subst hij
      rw [hself] at hj
      cases hj
    · rw [hother hij] at hj
      simpa only [hkeyed] using h.behind m j k f hj
  · intro j k hstart hk
    have hk' := (hkeyed j k).mp hk
    by_cases hij : i = j
    · subst hij
      exact hall (h.started i k hrun hk')
    · obtain ⟨r, hr, hs⟩ := hstart
      rw [hother hij] at hr
      exact hall (h.started j k ⟨r, hr, hs⟩ hk')

theorem Inv.move (h : Inv s) (hi : s.phase i = some q) (hmove : Move names s i q p s') : Inv s' := by
  have horder := hmove.order hi h
  have hsame := hmove.same_of_no_key hi
  cases hmove with
  | register => exact h.register hi (Move.register : Move names s i _ _ _) rfl
  | start hrel => exact h.start hi (Move.start hrel : Move names s i _ _ _) hrel rfl
  | finish => exact h.finish hi (Move.finish : Move names s i _ _ _) rfl
  | _ => exact h.frame (hsame rfl rfl) rfl horder

omit [DecidableEq P] in
theorem phase_call (path : P) (j : Nat) :
    ({ s with calls := s.calls ++ [{ path := path }] } : MutationQueueState P).phase j =
      if j = s.calls.length then some .waiting else s.phase j := by
  rw [phase, phase, getElem?_append]
  split
  · rename_i hlt
    rw [if_neg (by omega)]
  · rename_i hle
    obtain heq | hgt : j = s.calls.length ∨ s.calls.length < j := by omega
    · simp [heq]
    · rw [if_neg (by omega), getElem?_eq_none (by simp; omega), getElem?_eq_none (by omega)]

theorem step_inv (h : Inv s) (hstep : step names s action = some s') : Inv s' := by
  obtain ⟨path, -, rfl⟩ | ⟨fs, -, rfl⟩ | ⟨-, i, q, p, hi, hmove, -⟩ := step_cases hstep
  · refine h.frame ?_ rfl ?_
    · intro j r key hr
      rw [phase_call]
      split
      · rename_i hj
        refine iff_of_false (by rintro ⟨rfl⟩; cases hr) ?_
        rw [hj, phase, getElem?_eq_none le_rfl]
        exact fun hnone => (by cases hnone)
      · rfl
    · intro m j r hmj hr hwait
      rw [phase_call] at hr
      split at hr
      · cases hr
        exact absurd rfl hwait
      · obtain ⟨r', hr', hreg⟩ := h.order m j r hmj hr hwait
        refine ⟨r', ?_, hreg⟩
        rw [phase_call, if_neg ?_, hr']
        rintro rfl
        rw [phase, getElem?_eq_none le_rfl] at hr'
        cases hr'
  · exact Inv.frame (s := s) (fun _ _ _ _ => Iff.rfl) h rfl h.order
  · exact h.move hi hmove

/-! ## Runs -/

/-- A step that finds the canonical path of an absolute path missing or not supported finds that this
absolute path is the file that it denotes. -/
def NamesFile (names : PathNames P) (s : MutationQueueState P) : Action P → Prop
  | .canonicalPath i => ∀ absolutePath, s.phase i = some (.canonicalizing absolutePath) →
      (s.fs.canonicalPath absolutePath = .error .notFound ∨ s.fs.canonicalPath absolutePath = .error .notSupported) →
        names.file s.fs absolutePath = absolutePath
  | _ => True

/-- Every step of the run meets the condition. -/
def NamesFiles (names : PathNames P) (s : MutationQueueState P) : List (Action P) → Prop
  | [] => True
  | action :: actions =>
    NamesFile names s action ∧ ∀ s', step names s action = some s' → NamesFiles names s' actions

/-- The path of the call denotes the file. -/
def Denotes (s : MutationQueueState P) (i : Nat) (file : P) : Prop := ∃ p, s.phase i = some p ∧ p.file? = some file

def Settled (s : MutationQueueState P) (i : Nat) : Prop := ∃ p, s.phase i = some p ∧ p.settled = true

/-- A phase whose key is the file. -/
def Phase.Fits : Phase P → Prop
  | .resolved key file => key = file
  | .queued key file _ => key = file
  | .running key file => key = file
  | .finished key file _ => key = file
  | _ => True

/-- The keys are the files. -/
def KeysFit (s : MutationQueueState P) : Prop := ∀ i p, s.phase i = some p → p.Fits

omit [DecidableEq P] in
theorem key_fits {absolutePath key : P} (hkey : getMutationQueueKey s.fs absolutePath = .ok key)
    (hnames : (s.fs.canonicalPath absolutePath = .error .notFound ∨
      s.fs.canonicalPath absolutePath = .error .notSupported) → names.file s.fs absolutePath = absolutePath) :
    key = names.file s.fs absolutePath := by
  rw [getMutationQueueKey] at hkey
  cases hcanon : s.fs.canonicalPath absolutePath with
  | ok canonicalPath =>
    rw [hcanon] at hkey
    cases hkey
    rw [PathNames.file, hcanon]
  | error code =>
    rw [hcanon] at hkey hnames
    cases code with
    | notFound => cases hkey; exact (hnames (.inl rfl)).symm
    | notSupported => cases hkey; exact (hnames (.inr rfl)).symm
    | _ => cases hkey

theorem Move.fits (h : Move names s i q p s') (hq : q.Fits)
    (hnames : ∀ absolutePath, q = .canonicalizing absolutePath → (s.fs.canonicalPath absolutePath = .error .notFound ∨
        s.fs.canonicalPath absolutePath = .error .notSupported) →
        names.file s.fs absolutePath = absolutePath) : p.Fits := by
  cases h with
  | canonicalPath hkey => exact key_fits hkey (hnames _ rfl)
  | register | start | finish => exact hq
  | _ => trivial

theorem step_fits (h : KeysFit s) (hstep : step names s action = some s')
    (hnames : NamesFile names s action) : KeysFit s' := by
  intro j r hr
  obtain ⟨path, -, rfl⟩ | ⟨fs, -, rfl⟩ | ⟨-, i, q, p, hi, hmove, haction⟩ := step_cases hstep
  · rw [phase_call] at hr
    split at hr
    · cases hr
      trivial
    · exact h j r hr
  · exact h j r hr
  · rw [hmove.phase_eq hi] at hr
    split at hr
    · cases hr
      refine hmove.fits (h i q hi) fun absolutePath hq => ?_
      rw [haction absolutePath hq] at hnames
      exact hnames absolutePath (by rw [hi, hq])
    · exact h j r hr

theorem init_inv (fs : FileSystem P) : Inv { fs := fs } ∧ KeysFit { fs := fs } := by
  have hnone (i : Nat) : ({ fs := fs } : MutationQueueState P).phase i = none := rfl
  refine ⟨⟨?_, ?_, ?_, ?_, ?_, ?_⟩, ?_⟩
  · intro i j p _ hj
    rw [hnone] at hj
    cases hj
  · intro key j hget
    cases hget
  · rintro key - i ⟨p, hp, -⟩
    rw [hnone] at hp
    cases hp
  · intro j key file hj
    rw [hnone] at hj
    cases hj
  · intro i j key file hj
    rw [hnone] at hj
    cases hj
  · rintro j key ⟨p, hp, -⟩
    rw [hnone] at hp
    cases hp
  · intro i p hp
    rw [hnone] at hp
    cases hp

variable {actions : List (Action P)}

theorem run_inv (hinv : Inv s) (hfits : KeysFit s)
    (hrun : run names s actions = some s') (hnames : NamesFiles names s actions) : Inv s' ∧ KeysFit s' := by
  induction actions generalizing s with
  | nil =>
    cases hrun
    exact ⟨hinv, hfits⟩
  | cons action actions ih =>
    rw [run, bind_eq_some_iff] at hrun
    obtain ⟨t, hstep, hrun⟩ := hrun
    exact ih (step_inv hinv hstep) (step_fits hfits hstep hnames.1) hrun (hnames.2 t hstep)

/-! ## Exclusion -/

variable {file : P}

omit [DecidableEq P] in
theorem Denotes.keyed (hfits : KeysFit s) (h : Denotes s i file) (hreg : Registered s i) :
    Keyed s i file := by
  obtain ⟨p, hp, hfile⟩ := h
  obtain ⟨p', hp', hreg⟩ := hreg
  rw [hp, some.injEq] at hp'
  subst hp'
  have hfit := hfits i p hp
  refine ⟨p, hp, ?_⟩
  cases p with
  | queued | running | finished => cases hfile; exact congrArg some hfit
  | failed code => cases hfile
  | _ => cases hreg

omit [DecidableEq P] in
theorem Started.registered (h : Started s i) : Registered s i := by
  obtain ⟨p, hp, hs⟩ := h
  obtain ⟨key, hkey⟩ := Phase.key_of_started hs
  exact ⟨p, hp, Phase.registered_of_key hkey⟩

/-- The first call that is not settled can go on. -/
theorem Inv.progress (h : Inv s) (hi : i < s.calls.length) (hnot : ¬ Settled s i)
    (hbef : ∀ j, j < i → Settled s j) :
    ∃ action s', action.ofCall = true ∧ step names s action = some s' := by
  have hcall : s.calls[i]? = some s.calls[i] := getElem?_eq_getElem hi
  have hphase : s.phase i = some s.calls[i].phase := by rw [phase, hcall, map_some]
  have hreg : ((s.calls.take i).all fun call => call.phase.registered) = true := by
    rw [List.all_eq_true]
    intro call hmem
    obtain ⟨j, hj, rfl⟩ := mem_take_iff_getElem.mp hmem
    obtain ⟨r, hr, hsettled⟩ := hbef j (by omega)
    rw [phase, getElem?_eq_getElem (by omega), map_some, some.injEq] at hr
    rw [hr]
    cases r <;> first | rfl | cases hsettled
  have hfin (j : Nat) (key : P) (hj : j < i) (hk : Keyed s j key) : Finished s j := by
    obtain ⟨r, hr, hsettled⟩ := hbef j hj
    obtain ⟨r', hr', hkey⟩ := hk
    rw [hr, some.injEq] at hr'
    subst hr'
    exact ⟨r, hr, Phase.finished_of_settled hsettled hkey⟩
  generalize hcur : s.calls[i] = call at hcall hphase
  obtain ⟨path, r⟩ := call
  cases r with
  | waiting => exact ⟨.beginRegistration i, _, rfl, by rw [step, hphase]; exact if_pos hreg⟩
  | resolving =>
    cases habsolute : s.fs.absolutePath path with
    | ok | error => exact ⟨.absolutePath i, _, rfl, by rw [step, hcall]; dsimp only; rw [habsolute]⟩
  | canonicalizing absolutePath =>
    cases hkey : getMutationQueueKey s.fs absolutePath with
    | ok | error => exact ⟨.canonicalPath i, _, rfl, by rw [step, hphase]; dsimp only; rw [hkey]⟩
  | resolved key file => exact ⟨.register i, _, rfl, by rw [step, hphase]⟩
  | queued key file currentQueue =>
    have hrel : s.released currentQueue = true := by
      cases currentQueue with
      | none => rfl
      | some m =>
        obtain ⟨hm, hk, -⟩ := h.behind m i key file hphase
        obtain ⟨r, hr, hf⟩ := hfin m key hm hk
        rw [released, hr, map_some, getD_some, hf]
    exact ⟨.start i, _, rfl, by rw [step, hphase]; exact if_pos hrel⟩
  | running key file => exact ⟨.finish i true, _, rfl, by rw [step, hphase]⟩
  | finished | failed => exact absurd ⟨_, hphase, rfl⟩ hnot

end Shuvpi.FileMutationQueue
