import Shuvpi.SettingsManager

/-!
# Settings writes are not lost

What a manager has set stays marked, queued or written until somebody else changes it, as long as no
write fails or reload drops the last trace of it and no write puts an older value over a later one.
-/
namespace Shuvpi.SettingsManager

open SettingsFile
open List hiding cons nil
open Option hiding or_assoc
open Function

/-! ## Marks and assignments -/

theorem mem_addTo {set : List JsString} {key other : JsString} :
    other ∈ addTo set key ↔ other ∈ set ∨ other = key := by
  rw [addTo]
  split
  · rename_i hmem
    exact ⟨.inl, fun h => h.elim id fun h => h ▸ hmem⟩
  · rw [mem_append, mem_singleton]

variable {k : Key}

theorem marked_valid (hk : k.Valid) :
    k.marked.nestedKey.isSome = true ↔ k.field ∈ nestedFields ∧ k.field ∉ wholeFields := by
  rw [Key.marked]
  split
  · rename_i hwhole
    simp [hwhole]
  · rename_i hwhole
    rw [show k.nestedKey.isSome = true ↔ k.field ∈ nestedFields from hk]
    simp [hwhole]

theorem marked_field (k : Key) : k.marked.field = k.field := by
  rw [Key.marked]
  split <;> rfl

/-- A key is marked with another one when both are marked in one way. -/
theorem marked_markModified (marks : Marks) {k' : Key} (hk : k.Valid) (hk' : k'.Valid) :
    (marks.markModified k.marked).Marked k' ↔ marks.Marked k' ∨ k'.marked = k.marked := by
  have hv := marked_valid hk
  have hv' := marked_valid hk'
  have heq : k'.marked = k.marked ↔ k'.field = k.field ∧ k'.marked.nestedKey = k.marked.nestedKey := by
    rw [Key.ext_iff, marked_field, marked_field]
  rw [heq, Marks.Marked, Marks.Marked]
  simp only [Marks.markModified, marked_field]
  cases hn' : k'.marked.nestedKey with
  | none =>
    cases hn : k.marked.nestedKey with
    | none => simp [mem_addTo]
    | some key =>
      have hne : k'.field ≠ k.field := by
        intro heq
        have hsome := hv.mp (by rw [hn]; rfl)
        rw [← heq] at hsome
        exact absurd (hv'.mpr hsome) (by rw [hn']; simp)
      simp [mem_addTo, hne]
  | some key' =>
    cases hn : k.marked.nestedKey with
    | none => simp
    | some key =>
      by_cases hfield : k.field = k'.field
      · simp [hfield, JsMap.get_set, mem_addTo]
      · simp [JsMap.get_set, hfield, Ne.symm hfield]

variable {field : JsString}

theorem get?_putKey_ne (settings : Settings) (k : Key) (value : Option Json)
    (h : k.field ≠ field) : (putKey settings k value).get? field = settings.get? field := by
  rw [putKey]
  split
  · rw [get?_put, if_neg h]
  · rw [get?_put, if_neg h]

variable {settings : Settings}

theorem isObject_putKey (hk : k.Valid) (value : Option Json) (hfield : field ∈ nestedFields)
    (hwhole : field ∉ wholeFields) (h : isObject (settings.get? field) = true ∨ k.field = field) :
    isObject ((putKey settings k value).get? field) = true := by
  by_cases hsame : k.field = field
  · obtain ⟨key, hkey⟩ := isSome_iff_exists.mp (hk.mpr (hsame ▸ hfield))
    subst hsame
    rw [putKey, hkey]
    rw [get?_put, if_pos rfl, if_neg fun hempty => hwhole hempty.1]
    rfl
  · rw [get?_putKey_ne settings k value hsame]
    exact h.resolve_right hsame

/-- A setter keeps the marks in order. -/
theorem wellMarked_set {marks : Marks} (h : WellMarked marks settings) (hk : k.Valid) (value : Option Json) :
    WellMarked (marks.markModified k.marked) (putKey settings k value) := by
  have hv := marked_valid hk
  refine ⟨?_, ?_, ?_⟩
  · intro field hmem hnest hwhole
    rw [Marks.markModified, mem_addTo, marked_field] at hmem
    refine ⟨?_, isObject_putKey hk value hnest hwhole
      (hmem.imp (fun hmem => (h.nested field hmem hnest hwhole).2) Eq.symm)⟩
    rw [Marks.markModified]
    split
    · rename_i key hkey
      rw [JsMap.get_set, marked_field]
      split
      · rfl
      · rename_i hne
        exact (h.nested field (hmem.resolve_right (Ne.symm hne)) hnest hwhole).1
    · rename_i hkey
      have hne : field ≠ k.field := by
        rintro rfl
        exact absurd (hv.mpr ⟨hnest, hwhole⟩) (by rw [hkey]; simp)
      exact (h.nested field (hmem.resolve_right hne) hnest hwhole).1
  · intro field hfield
    rw [Marks.markModified]
    split
    · rename_i key hkey
      have hne : k.marked.field ≠ field := by
        rw [marked_field]
        rintro rfl
        have hboth := hv.mp (by rw [hkey]; rfl)
        exact hfield.elim (fun hnot => hnot hboth.1) hboth.2
      rw [JsMap.get_set, if_neg hne]
      exact h.plain field hfield
    · exact h.plain field hfield
  · intro field hne
    rw [Marks.markModified] at hne ⊢
    rw [mem_addTo]
    split at hne
    · rename_i key hkey
      rw [JsMap.get_set] at hne
      split at hne
      · rename_i hsame
        exact .inr hsame.symm
      · exact .inl (h.fields field hne)
    · exact .inl (h.fields field hne)

variable {assignments : List (Key × Option Json)}

/-- A list of assignments: what is assigned last is recorded and read back, the rest is unchanged. -/
theorem assign_cases {M : Type} (author : Option M) (hval : ∀ p ∈ assignments, p.1.Valid)
    (latest : Key → Option (Option M × Option Json)) (settings : Settings) (hk : k.Valid) :
    (∃ v, (k, v) ∈ assignments ∧ record latest author assignments k = some (author, v) ∧
        read (assign settings assignments) k = v) ∨
      k ∉ assignments.map Prod.fst ∧ record latest author assignments k = latest k ∧
        read (assign settings assignments) k = read settings k := by
  induction assignments generalizing latest settings with
  | nil => exact .inr ⟨not_mem_nil, rfl, rfl⟩
  | cons p assignments ih =>
    obtain ⟨v, hmem, hrec, hread⟩ | ⟨hnot, hrec, hread⟩ :=
      ih (fun p hp => hval p (mem_cons_of_mem _ hp)) (update latest p.1 (some (author, p.2)))
        (putKey settings p.1 p.2)
    · exact .inl ⟨v, mem_cons_of_mem _ hmem, hrec, hread⟩
    · rw [read_putKey settings (hval p mem_cons_self) hk] at hread
      by_cases hkp : p.1 = k
      · subst hkp
        rw [update_self] at hrec
        rw [if_pos rfl] at hread
        exact .inl ⟨p.2, mem_cons_self, hrec, hread⟩
      · rw [update_of_ne (Ne.symm hkp)] at hrec
        rw [if_neg hkp] at hread
        refine .inr ⟨?_, hrec, hread⟩
        rw [map_cons, mem_cons, not_or]
        exact ⟨Ne.symm hkp, hnot⟩

theorem marked_foldl (hval : ∀ p ∈ assignments, p.1.Valid) (marks : Marks) (hk : k.Valid) :
    (assignments.foldl (fun marks p => marks.markModified p.1.marked) marks).Marked k ↔
      marks.Marked k ∨ k.marked ∈ assignments.map fun p => p.1.marked := by
  induction assignments generalizing marks with
  | nil => simp
  | cons p assignments ih =>
    rw [List.foldl_cons, ih (fun p hp => hval p (List.mem_cons_of_mem _ hp)),
      marked_markModified marks (hval p List.mem_cons_self) hk, List.map_cons, List.mem_cons, or_assoc]

theorem wellMarked_foldl (hval : ∀ p ∈ assignments, p.1.Valid) {marks : Marks} (h : WellMarked marks settings) :
    WellMarked (assignments.foldl (fun marks p => marks.markModified p.1.marked) marks)
      (assign settings assignments) := by
  induction assignments generalizing marks settings with
  | nil => exact h
  | cons p assignments ih =>
    exact ih (fun p hp => hval p (mem_cons_of_mem _ hp))
      (wellMarked_set h (hval p mem_cons_self) p.2)

theorem wellMarked_empty (settings : Settings) : WellMarked {} settings :=
  ⟨fun _ hmem => absurd hmem not_mem_nil, fun _ _ => rfl, fun _ hne => absurd rfl hne⟩

theorem not_marked_empty (k : Key) : ¬ ({} : Marks).Marked k := by
  rw [Marks.Marked]
  split <;> exact not_mem_nil

/-! ## What is pending -/

/-- The settings in the file. -/
def content : Option FileText → Settings
  | some (.settings settings) => settings
  | _ => []

def Write.Carries (w : Write) (k : Key) : Prop := w.marks.Marked k

instance (w : Write) (k : Key) : Decidable (w.Carries k) := inferInstanceAs (Decidable (w.marks.Marked k))

/-- The manager still has the key to write. -/
def Manager.Pending (manager : Manager) (k : Key) : Prop :=
  manager.marks.Marked k ∨ ∃ w ∈ manager.writeQueue, w.Carries k

/-- The last write of the queue that carries the key has the value. -/
def Manager.Carried (manager : Manager) (k : Key) (v : Option Json) : Prop :=
  ∀ front w back, manager.writeQueue = front ++ w :: back → w.Carries k →
    (∀ w' ∈ back, ¬ w'.Carries k) → read w.snapshot k = v

/-- What is in order at every manager. -/
structure Manager.Ordered (manager : Manager) : Prop where
  marks : WellMarked manager.marks manager.globalSettings
  queue : ∀ w ∈ manager.writeQueue, WellMarked w.marks w.snapshot
  fresh : manager.lastWrite ≠ some false → ∀ k, k.Valid → manager.marks.Marked k → manager.writeQueue ≠ []

/-- What a manager has set last, and nobody has changed since, is in the file or pending; a marked key
is carried by the last write of the queue. -/
structure Holds (file : Option FileText) (manager : Manager) (k : Key) (v : Option Json) : Prop where
  settable : Settable k v
  touched : k ∈ manager.touched
  marked : manager.marks.Marked k → read manager.globalSettings k = v ∧
    ∀ w, manager.writeQueue.getLast? = some w → w.Carries k
  carried : manager.Carried k v
  held : read (content file) k = v ∨ manager.Pending k

structure Inv {M : Type} (s : State M) : Prop where
  ordered : ∀ m, (s.managers m).Ordered
  holds : ∀ k m v, s.latest k = some (some m, v) → Holds s.file (s.managers m) k v

/-! ## The condition -/

section Condition

variable {M : Type}

/-- Nobody else has changed later what the manager has set and the write carries, unless that manager is
still going to write it; and what the write carries besides is in the file as it is. -/
structure NotStale (s : State M) (m : M) (w : Write) : Prop where
  own : ∀ k, k.Valid → w.Carries k → k ∈ (s.managers m).touched → ∀ author v, s.latest k = some (author, v) →
    author = some m ∨ ∃ m', author = some m' ∧ (s.managers m').Pending k
  others : ∀ k, k.Valid → w.Carries k → k ∉ (s.managers m).touched →
    read w.snapshot k = read (content s.file) k

/-- When a step loses nothing. -/
def StepOk (s : State M) : Action M → Prop
  | .set m call => (s.managers m).globalSettingsLoadError = false ∧
      ∀ list, call.assignments (s.managers m).globalSettings = some list → ∀ p ∈ list, ∀ k v, k ≠ p.1 →
        k.marked = p.1.marked → s.latest k = some (some m, v) → read (s.managers m).globalSettings k = v
  | .write m _ => ∀ w rest, (s.managers m).writeQueue = w :: rest → NotStale s m w
  | .create m _ => ∀ w rest, (s.managers m).writeQueue = w :: rest → NotStale s m w ∧
      ∀ k, k.Valid → ¬ w.Carries k → read (migrateSettings (content s.file)) k = none
  | .fail m damage => damage = .untouched ∧ ∀ w rest, (s.managers m).writeQueue = w :: rest →
      ∀ k ∈ (s.managers m).touched, k.Valid → w.Carries k →
        read (content s.file) k = read w.snapshot k ∨ (s.managers m).marks.Marked k ∨ ∃ w' ∈ rest, w'.Carries k
  | .reload m => ∀ k ∈ (s.managers m).touched, k.Valid → (s.managers m).marks.Marked k →
      read (content s.file) k = read (s.managers m).globalSettings k ∨ ∃ w ∈ (s.managers m).writeQueue, w.Carries k
  | _ => True

variable [DecidableEq M]

/-- Every step of the run meets the condition. -/
def RunOk (s : State M) : List (Action M) → Prop
  | [] => True
  | action :: actions => StepOk s action ∧ ∀ s', step s action = some s' → RunOk s' actions

end Condition

/-! ## Writes -/

section Writes

variable {M : Type} [DecidableEq M] {s s' : State M} {m : M}

/-- A write that has put its snapshot over `base`. -/
structure Written (s s' : State M) (m : M) (w : Write) (rest : List Write) (base : Settings) (ok : Bool) : Prop where
  queue : (s.managers m).writeQueue = w :: rest
  managers : s'.managers = Function.update s.managers m ((s.managers m).ended rest ok)
  file : content s'.file = persist w.snapshot w.marks base
  latest : s'.latest = s.latest

variable {base : Settings} {ok : Bool}

theorem read_written {k : Key} {rest : List Write} {w : Write} (h : Written s s' m w rest base ok) (hinv : Inv s)
    (hk : k.Valid) :
    read (content s'.file) k = if w.Carries k then read w.snapshot k else read base k := by
  rw [h.file]
  exact read_persist ((hinv.ordered m).queue w (by rw [h.queue]; exact mem_cons_self)) base hk

variable {manager : Manager}

theorem ended_ordered {rest : List Write} {w : Write} (h : manager.Ordered) (hqueue : manager.writeQueue = w :: rest)
    (ok : Bool) :
    (manager.ended rest ok).Ordered := by
  have hmem : ∀ w' ∈ rest, w' ∈ manager.writeQueue := fun w' hw' => by rw [hqueue]; exact mem_cons_of_mem _ hw'
  cases ok with
  | true =>
    exact ⟨wellMarked_empty _, fun w' hw' => h.queue w' (hmem w' hw'), fun _ k _ hk => absurd hk (not_marked_empty k)⟩
  | false => exact ⟨h.marks, fun w' hw' => h.queue w' (hmem w' hw'), fun hne => absurd rfl hne⟩

variable {v : Option Json}

theorem carried_tail {k : Key} {rest : List Write} {w : Write} (h : manager.Carried k v)
    (hqueue : manager.writeQueue = w :: rest) (ok : Bool) :
    (manager.ended rest ok).Carried k v := by
  intro front w' back hsplit hcarries hback
  have hrest : rest = front ++ w' :: back := hsplit
  exact h (w :: front) w' back (by rw [hqueue, hrest, cons_append]) hcarries hback

variable {file : Option FileText}

theorem last_tail {rest : List Write} {w : Write} (hqueue : manager.writeQueue = w :: rest) {last : Write}
    (h : rest.getLast? = some last) :
    manager.writeQueue.getLast? = some last := by
  obtain ⟨front, rfl⟩ := getLast?_eq_some_iff.mp h
  rw [hqueue, ← cons_append, getLast?_concat]

/-- The write's own keys are written with their last value or carried again, and what it does not
carry is pending elsewhere in the queue if it was pending at all. -/
theorem Holds.ended {k : Key} {rest : List Write} {w : Write} {file' : Option FileText} (h : Holds file manager k v)
    (hqueue : manager.writeQueue = w :: rest) (hwrit : w.Carries k → read (content file') k = read w.snapshot k)
    (hkept : ¬ w.Carries k → read (content file) k = v → read (content file') k = v) :
    Holds file' (manager.ended rest ok) k v := by
  refine ⟨h.settable, h.touched, ?_, carried_tail h.carried hqueue ok, ?_⟩
  · intro hmark
    cases ok with
    | true => exact absurd hmark (not_marked_empty k)
    | false => exact ⟨(h.marked hmark).1, fun w' hw' => (h.marked hmark).2 w' (last_tail hqueue hw')⟩
  by_cases hlater : ∃ w' ∈ rest, w'.Carries k
  · exact .inr (.inr hlater)
  · have hnot : ∀ w' ∈ rest, ¬ w'.Carries k := fun w' hw' hc => hlater ⟨w', hw', hc⟩
    by_cases hcarries : w.Carries k
    · have hv := h.carried [] w rest (by rw [hqueue]; rfl) hcarries hnot
      exact .inl ((hwrit hcarries).trans hv)
    · obtain hread | hmark | ⟨w', hw', hc⟩ := h.held
      · exact .inl (hkept hcarries hread)
      · -- the last write carries a marked key, and it is not this one
        obtain ⟨last, hlast⟩ : ∃ last, manager.writeQueue.getLast? = some last := by
          rw [hqueue]
          exact ⟨_, getLast?_cons⟩
        have hc := (h.marked hmark).2 last hlast
        rw [hqueue] at hlast
        obtain heq | hmem := mem_cons.mp (mem_of_getLast? hlast)
        · exact absurd (heq ▸ hc) hcarries
        · exact absurd hc (hnot last hmem)
      · rw [hqueue] at hw'
        obtain rfl | hmem := mem_cons.mp hw'
        · exact absurd hc hcarries
        · exact absurd hc (hnot w' hmem)

variable (hinv : Inv s)
include hinv

/-- A successful write keeps the invariant, if it is not stale and its base has what the file has. -/
theorem Inv.written {rest : List Write} {w : Write} (h : Written s s' m w rest base ok) (hstale : NotStale s m w)
    (hbase : ∀ k v, Settable k v → ¬ w.Carries k → read (content s.file) k = v → read base k = v) : Inv s' := by
  refine ⟨?_, ?_⟩
  · intro n
    rw [h.managers]
    by_cases hn : n = m
    · subst hn
      rw [update_self]
      exact ended_ordered (hinv.ordered n) h.queue ok
    · rw [update_of_ne hn]
      exact hinv.ordered n
  · intro k n v hlast
    rw [h.latest] at hlast
    have hold := hinv.holds k n v hlast
    have hread := read_written h hinv hold.settable.valid
    have hkept : ¬ w.Carries k → read (content s.file) k = v → read (content s'.file) k = v := by
      intro hcarries hv
      rw [hread, if_neg hcarries]
      exact hbase k v hold.settable hcarries hv
    rw [h.managers]
    by_cases hn : n = m
    · subst hn
      rw [update_self]
      exact hold.ended h.queue (fun hcarries => by rw [hread, if_pos hcarries]) hkept
    · rw [update_of_ne hn]
      refine ⟨hold.settable, hold.touched, hold.marked, hold.carried, ?_⟩
      by_cases hcarries : w.Carries k
      · by_cases htouched : k ∈ (s.managers m).touched
        · obtain hself | ⟨n', hn', hpending⟩ := hstale.own k hold.settable.valid hcarries htouched _ v hlast
          · exact absurd (some.inj hself) hn
          · cases hn'
            exact .inr hpending
        · rw [hread, if_pos hcarries, hstale.others k hold.settable.valid hcarries htouched]
          exact hold.held
      · exact hold.held.imp (hkept hcarries) id

/-- A step that changes one manager only. -/
theorem Inv.update (hord : manager.Ordered)
    (hholds : ∀ k v, s.latest k = some (some m, v) → Holds s.file manager k v) : Inv (s.update m manager) := by
  refine ⟨?_, ?_⟩
  · intro n
    rw [State.update]
    dsimp only
    by_cases hn : n = m
    · rwa [hn, update_self]
    · rw [update_of_ne hn]
      exact hinv.ordered n
  · intro k n v hlast
    rw [State.update] at hlast ⊢
    dsimp only at hlast ⊢
    by_cases hn : n = m
    · subst hn
      rw [update_self]
      exact hholds k v hlast
    · rw [update_of_ne hn]
      exact hinv.holds k n v hlast

/-- A failed write is still marked, carried or in the file. -/
theorem Inv.failed {rest : List Write} {w : Write} (hqueue : (s.managers m).writeQueue = w :: rest)
    (hok : StepOk s (.fail m .untouched)) :
    Inv (s.update m ((s.managers m).ended rest false)) := by
  refine hinv.update (ended_ordered (hinv.ordered m) hqueue false) fun k v hlast => ?_
  have hold := hinv.holds k m v hlast
  refine ⟨hold.settable, hold.touched,
    fun hmark => ⟨(hold.marked hmark).1, fun w' hw' => (hold.marked hmark).2 w' (last_tail hqueue hw')⟩,
    carried_tail hold.carried hqueue false, ?_⟩
  · obtain hread | hmark | ⟨w', hw', hc⟩ := hold.held
    · exact .inl hread
    · exact .inr (.inl hmark)
    · rw [hqueue] at hw'
      obtain rfl | hmem := mem_cons.mp hw'
      · obtain hread | hmark | hlater := hok.2 w' rest hqueue k hold.touched hold.settable.valid hc
        · by_cases hlater : ∃ w ∈ rest, w.Carries k
          · exact .inr (.inr hlater)
          · have hv := hold.carried [] w' rest hqueue hc fun w hw hc => hlater ⟨w, hw, hc⟩
            exact .inl (hread.trans hv)
        · exact .inr (.inl hmark)
        · exact .inr (.inr hlater)
      · exact .inr (.inr ⟨w', hmem, hc⟩)

/-- A reload forgets no mark that is not carried or in the file. -/
theorem Inv.reloaded (hok : StepOk s (.reload m)) (settings : Settings) (failed : Bool) :
    Inv (s.update m { s.managers m with
      globalSettings := settings, globalSettingsLoadError := failed, marks := {} }) := by
  have hord := hinv.ordered m
  refine hinv.update ⟨wellMarked_empty _, hord.queue, fun _ k _ hk => absurd hk (not_marked_empty k)⟩ fun k v hlast => ?_
  have hold := hinv.holds k m v hlast
  refine ⟨hold.settable, hold.touched, fun hk => absurd hk (not_marked_empty k), hold.carried, ?_⟩
  obtain hread | hmark | hcarried := hold.held
  · exact .inl hread
  · obtain hread | hcarried := hok k hold.touched hold.settable.valid hmark
    · exact .inl (hread.trans (hold.marked hmark).1)
    · exact .inr (.inr hcarried)
  · exact .inr (.inr hcarried)

omit hinv

omit [DecidableEq M] in
theorem record_of_not_mem {k : Key} {assignments : List (Key × Option Json)} (author : Option M)
    (latest : Key → Option (Option M × Option Json)) (hk : k ∉ assignments.map Prod.fst) :
    record latest author assignments k = latest k := by
  induction assignments generalizing latest with
  | nil => rfl
  | cons p assignments ih =>
    rw [map_cons, mem_cons, not_or] at hk
    exact (ih _ hk.2).trans (update_of_ne hk.1 _ _)

omit [DecidableEq M] in
/-- What is recorded after some assignments is of a valid key, if it was before. -/
theorem valid_of_record {k : Key} {assignments : List (Key × Option Json)} (hinv : Inv s) {author : Option M}
    (hval : ∀ p ∈ assignments, p.1.Valid) {n : M} (h : record s.latest author assignments k = some (some n, v)) :
    k.Valid := by
  by_cases hmem : k ∈ assignments.map Prod.fst
  · obtain ⟨p, hp, rfl⟩ := mem_map.mp hmem
    exact hval p hp
  · rw [record_of_not_mem author s.latest hmem] at h
    exact (hinv.holds k n v h).settable.valid

theorem set_ordered {assignments : List (Key × Option Json)} (h : manager.Ordered)
    (hloaded : manager.globalSettingsLoadError = false) (hval : ∀ p ∈ assignments, p.1.Valid) :
    (manager.set assignments).Ordered := by
  have hmarks := wellMarked_foldl hval h.marks
  have hqueue : (manager.set assignments).writeQueue =
      manager.writeQueue ++ [⟨(manager.set assignments).globalSettings, (manager.set assignments).marks⟩] := by
    rw [Manager.set, hloaded]
    rfl
  refine ⟨hmarks, ?_, ?_⟩
  · intro w hw
    rw [hqueue, mem_append, mem_singleton] at hw
    obtain hw | rfl := hw
    · exact h.queue w hw
    · exact hmarks
  · intro _ k _ _
    rw [hqueue]
    simp

/-- Splitting a queue with one more write at the end. -/
theorem carried_concat {k : Key} {manager' : Manager} {new : Write}
    (hqueue : manager'.writeQueue = manager.writeQueue ++ [new]) (hnew : new.Carries k → read new.snapshot k = v)
    (hold : ¬ new.Carries k → manager.Carried k v) :
    manager'.Carried k v := by
  intro front w back hsplit hcarries hback
  rw [hqueue] at hsplit
  obtain rfl | ⟨back, last, rfl⟩ := eq_nil_or_concat back
  · obtain ⟨-, hlast⟩ := append_inj' hsplit rfl
    cases hlast
    exact hnew hcarries
  · rw [concat_eq_append, ← cons_append, ← append_assoc] at hsplit
    obtain ⟨hinit, hlast⟩ := append_inj' hsplit rfl
    cases hlast
    refine hold (hback new (by simp)) front w back hinit hcarries fun w' hw' => hback w' (by simp [hw'])

/-- A setter call records and marks what it assigns, and queues it. -/
theorem Inv.set {assignments : List (Key × Option Json)} (hinv : Inv s)
    (hloaded : (s.managers m).globalSettingsLoadError = false) (hsettable : ∀ p ∈ assignments, Settable p.1 p.2)
    (hwhole : ∀ p ∈ assignments, ∀ k v, k ≠ p.1 → k.marked = p.1.marked →
      s.latest k = some (some m, v) → read (s.managers m).globalSettings k = v) :
    Inv { s.update m ((s.managers m).set assignments) with latest := record s.latest (some m) assignments } := by
  have hval : ∀ p ∈ assignments, p.1.Valid := fun p hp => (hsettable p hp).valid
  have hqueue : ((s.managers m).set assignments).writeQueue = (s.managers m).writeQueue ++
      [⟨((s.managers m).set assignments).globalSettings, ((s.managers m).set assignments).marks⟩] := by
    rw [Manager.set, hloaded]
    rfl
  have hlast {w : Write} (hw : ((s.managers m).set assignments).writeQueue.getLast? = some w) :
      w = ⟨((s.managers m).set assignments).globalSettings, ((s.managers m).set assignments).marks⟩ := by
    rw [hqueue, getLast?_concat, some.injEq] at hw
    exact hw.symm
  refine ⟨?_, ?_⟩
  · intro n
    rw [State.update]
    dsimp only
    by_cases hn : n = m
    · rw [hn, update_self]
      exact set_ordered (hinv.ordered m) hloaded hval
    · rw [update_of_ne hn]
      exact hinv.ordered n
  · intro k n v hlatest
    rw [State.update]
    dsimp only at hlatest ⊢
    have hk := valid_of_record hinv hval hlatest
    have hmarked := marked_foldl hval (s.managers m).marks hk
    obtain ⟨v', hmem, hrec, hread⟩ | ⟨hnot, hrec, hread⟩ :=
      assign_cases (some m) hval s.latest (s.managers m).globalSettings hk
    · rw [hlatest] at hrec
      cases hrec
      rw [update_self]
      have hmark : ((s.managers m).set assignments).marks.Marked k := hmarked.mpr (.inr (mem_map.mpr ⟨_, hmem, rfl⟩))
      refine ⟨hsettable _ hmem, mem_append_right _ (mem_map.mpr ⟨_, hmem, rfl⟩), fun _ => ⟨hread, fun w hw => ?_⟩, ?_, .inr (.inl hmark)⟩
      · rw [hlast hw]
        exact hmark
      · exact carried_concat hqueue (fun _ => hread) fun hno => absurd hmark hno
    · rw [hlatest] at hrec
      have hold := hinv.holds k n v hrec.symm
      by_cases hn : n = m
      · subst hn
        rw [update_self]
        have hback (h : ((s.managers n).set assignments).marks.Marked k) : read (s.managers n).globalSettings k = v := by
          obtain hmark | hwith := hmarked.mp h
          · exact (hold.marked hmark).1
          · obtain ⟨p, hp, heq⟩ := mem_map.mp hwith
            refine hwhole p hp k v ?_ heq.symm hrec.symm
            rintro rfl
            exact hnot (mem_map_of_mem hp)
        refine ⟨hold.settable, mem_append_left _ hold.touched, fun h => ⟨hread.trans (hback h), fun w hw => ?_⟩, ?_, ?_⟩
        · rw [hlast hw]
          exact h
        · exact carried_concat hqueue (fun hc => hread.trans (hback hc)) fun _ => hold.carried
        · refine hold.held.imp id fun hpending => ?_
          obtain hmark | ⟨w, hw, hc⟩ := hpending
          · exact .inl (hmarked.mpr (.inl hmark))
          · exact .inr ⟨w, by rw [hqueue]; exact mem_append_left _ hw, hc⟩
      · rw [update_of_ne hn]
        exact hold

omit [DecidableEq M] in
/-- Another program's changes are recorded, and leave the other keys. -/
theorem Inv.edit {assignments : List (Key × Option Json)} (hinv : Inv s) (hval : ∀ p ∈ assignments, p.1.Valid)
    (hfile : content file = assign (content s.file) assignments) :
    Inv { s with file := file, latest := record s.latest none assignments } := by
  refine ⟨hinv.ordered, fun k n v hlast => ?_⟩
  dsimp only at hlast ⊢
  have hk := valid_of_record hinv hval hlast
  obtain ⟨v', -, hrec, -⟩ | ⟨-, hrec, hread⟩ := assign_cases none hval s.latest (content s.file) hk
  · rw [hlast] at hrec
    cases hrec
  · rw [hlast] at hrec
    have hold := hinv.holds k n v hrec.symm
    refine ⟨hold.settable, hold.touched, hold.marked, hold.carried, hold.held.imp (fun h => ?_) id⟩
    rw [hfile, hread, h]

/-! ## Steps -/

omit [DecidableEq M] in
theorem content_migrate_empty (file : Option FileText) (h : file = some .empty) :
    migrateSettings (content file) = [] := by
  rw [h]
  rfl

/-- A write merges into the migrated content of the file. -/
theorem step_write (h : step s (.write m ok) = some s') :
    ∃ w rest, Written s s' m w rest (migrateSettings (content s.file)) ok := by
  simp only [step] at h
  split at h
  · rename_i w rest hqueue hmissed hfile
    cases h
    refine ⟨w, rest, hqueue, rfl, ?_, rfl⟩
    rw [content_migrate_empty _ hfile]
    rfl
  · rename_i w rest current hqueue hmissed hfile
    cases h
    refine ⟨w, rest, hqueue, rfl, ?_, rfl⟩
    rw [hfile]
    rfl
  · cases h

/-- A write that has found no file starts from nothing. -/
theorem step_create (h : step s (.create m ok) = some s') : ∃ w rest, Written s s' m w rest [] ok := by
  simp only [step] at h
  split at h
  · rename_i w rest hqueue hmissed
    cases h
    exact ⟨w, rest, hqueue, rfl, rfl, rfl⟩
  · cases h

variable {action : Action M}

theorem step_inv (hinv : Inv s) (hok : StepOk s action) (h : step s action = some s') :
    Inv s' := by
  cases action with
  | set m call =>
    simp only [step] at h
    split at h
    · cases h
    · cases h
      exact hinv
    · rename_i first others hassign
      cases h
      exact hinv.set hok.1 (assigns_call _ call _ hassign) (hok.2 _ hassign)
  | write m released =>
    obtain ⟨w, rest, hwrit⟩ := step_write h
    exact hinv.written hwrit (hok w rest hwrit.queue) fun k v hk _ hv => read_migrateSettings hk hv
  | miss m =>
    simp only [step] at h
    split at h
    · cases h
      have hord := hinv.ordered m
      refine hinv.update ⟨hord.marks, hord.queue, hord.fresh⟩ ?_
      intro k v hlast
      have hold := hinv.holds k m v hlast
      exact ⟨hold.settable, hold.touched, hold.marked, hold.carried, hold.held⟩
    · cases h
  | create m released =>
    obtain ⟨w, rest, hwrit⟩ := step_create h
    obtain ⟨hstale, hnone⟩ := hok w rest hwrit.queue
    refine hinv.written hwrit hstale fun k v hk hcarries hv => ?_
    rw [← read_migrateSettings hk hv, hnone k hk.valid hcarries, read_nil]
  | fail m damage =>
    simp only [step] at h
    obtain rfl := hok.1
    split at h
    · rename_i w rest hqueue
      cases h
      exact hinv.failed hqueue hok
    · cases h
  | reload m =>
    simp only [step] at h
    split at h
    · cases h
      exact hinv.reloaded hok _ _
    · cases h
      exact hinv.reloaded hok _ _
  | edit assignments =>
    simp only [step] at h
    split at h
    · rename_i hval
      cases h
      refine hinv.edit hval ?_
      rw [content]
      congr 1
    · cases h

omit [DecidableEq M] in
theorem init_inv (file : Option FileText) : Inv (init file : State M) := by
  refine ⟨fun m => ?_, fun k m v h => (by cases h)⟩
  have hempty (settings : Settings) (failed : Bool) :
      ({ globalSettings := settings, globalSettingsLoadError := failed } : Manager).Ordered :=
    ⟨wellMarked_empty _, fun w hw => absurd hw not_mem_nil, fun _ k _ hk => absurd hk (not_marked_empty k)⟩
  rw [init]
  split
  · exact hempty _ false
  · exact hempty _ true

theorem run_inv (hinv : Inv s) {actions : List (Action M)} (hrun : run s actions = some s')
    (hok : RunOk s actions) : Inv s' := by
  induction actions generalizing s with
  | nil =>
    cases hrun
    exact hinv
  | cons action actions ih =>
    obtain ⟨t, hstep, hrun⟩ := bind_eq_some_iff.mp hrun
    exact ih (step_inv hinv hok.1 hstep) hrun (hok.2 t hstep)

end Writes

/-! ## Runs of one manager -/

open JsText (ofString)

end Shuvpi.SettingsManager
