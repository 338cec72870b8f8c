import Mathlib.Data.List.Forall2
import Shuvpi.PicoRecovery

/-!
# Opening the files of a session

Files fit a log if they hold its records, less what has been cut off, and at most one record of
a batch that has not been published. Files that fit are opened; what is left of them is clean.
-/
namespace Shuvpi.Pico

open Delta (Op isBase)
open Function (update)
open MemoryStorage (sinceBase)
open List Option Function Except

variable {m m' : MemoryStorage} {log : List Published} {ret : Retention} {d : Disk} {order : List FileName}

def FileName.isSidecar : FileName → Bool
  | .sticky _ => true
  | .task _ => true
  | _ => false

/-- The records of a file that are kept. -/
def kept (ret : Retention) (log : List Published) (name : FileName) : List Record :=
  (recordsFrom 0 name log).filter fun r => ret.keeps name r.seq

structure Fits (d : Disk) (log : List Published) (m : MemoryStorage) (ret : Retention) : Prop where
  main : linesOf d .main = (mainFrom 0 log).map some
  side : ∀ name, name.isSidecar → ∃ tail : List Record, linesOf d name = (kept ret log name ++ tail).map some ∧
    (tail = [] ∨ ∃ r, tail = [r] ∧ r.seq = log.length + 1)
  temporary : ∀ c, ∃ records, linesOf d (.temporary c) = records.map some ∧ Increasing records ∧ ∀ r ∈ records, 0 < r.seq
  start : ∀ c, ret.start c = 0 ∨ ∃ r ∈ recordsFrom 0 (.sticky c) log, r.seq = ret.start c ∧ r.isBase
  gone : ∀ id, ret.gone id → ∃ r, m.tasksById id = some r ∧ r.status = .terminal

/-- Nothing is left over of a process that has ended. -/
structure Clean (d : Disk) (log : List Published) (m : MemoryStorage) (ret : Retention) : Prop where
  fits : Fits d log m ret
  side : ∀ name, name.isSidecar → linesOf d name = (kept ret log name).map some
  whole : ∀ name file, (∀ c, name ≠ .temporary c) → d name = some file → file.torn = false

/-- The names of the files other than the main one, in any order. -/
def Lists (order : List FileName) (d : Disk) : Prop := order.Nodup ∧ ∀ name, name ∈ order ↔ name ≠ .main ∧ (d name).isSome

/-! ## Reading the other files -/

variable {name : FileName}

theorem kept_bounds {r : Record} (h : r ∈ kept ret log name) : 0 < r.seq ∧ r.seq ≤ log.length := by
  have hbounds := recordsFrom_bounds (mem_filter.mp h).1
  rw [Nat.zero_add] at hbounds
  exact hbounds

theorem kept_increasing (ret : Retention) (log : List Published) (name : FileName) : Increasing (kept ret log name) :=
  (recordsFrom_increasing 0 name log).sublist filter_sublist

variable {p : Published} {i : Nat}

theorem mem_kept (hp : log[i]? = some p) (hname : name ∈ sidecars p.writes) (hkeeps : ret.keeps name (i + 1)) :
    sidecarRecord (i + 1) p.maxId p.writes name ∈ kept ret log name := by
  have hmem : ∀ (log : List Published) (n i : Nat), log[i]? = some p →
      sidecarRecord (n + i + 1) p.maxId p.writes name ∈ recordsFrom n name log := by
    intro log
    induction log with
    | nil => exact fun _ _ hp => by cases hp
    | cons q log ih =>
      intro n i hp
      cases i with
      | zero =>
        obtain rfl := some.inj hp
        rw [recordsFrom, if_pos hname]
        exact .head _
      | succ i =>
        have hrest := ih (n + 1) i hp
        rw [Nat.add_right_comm n 1 i] at hrest
        exact mem_append_right _ hrest
  have hrec := hmem log 0 i hp
  rw [Nat.zero_add] at hrec
  exact mem_filter.mpr ⟨hrec, hkeeps⟩

/-- The writes that a file gives of a batch. -/
theorem kept_writes (hp : log[i]? = some p) :
    ((kept ret log name).filter fun r => r.seq = i + 1).flatMap Record.writes =
      if ret.keeps name (i + 1) then writesOf name p.writes else [] := by
  have hone : ∀ (log : List Published) (n i : Nat), log[i]? = some p → (recordsFrom n name log).filter (fun r => r.seq = n + i + 1) =
      if name ∈ sidecars p.writes then [sidecarRecord (n + i + 1) p.maxId p.writes name] else [] := by
    intro log
    induction log with
    | nil => exact fun _ _ hp => by cases hp
    | cons q log ih =>
      intro n i hp
      rw [recordsFrom, filter_append]
      cases i with
      | zero =>
        obtain rfl := some.inj hp
        have hrest : (recordsFrom (n + 1) name log).filter (fun r => r.seq = n + 0 + 1) = [] := by
          refine filter_eq_nil_iff.mpr fun r hr => ?_
          have hbound := (recordsFrom_bounds hr).1
          simp only [decide_eq_true_eq]
          omega
        rw [hrest, append_nil]
        split
        · simp [sidecarRecord]
        · rfl
      | succ i =>
        have hhead : ((if name ∈ sidecars q.writes then [sidecarRecord (n + 1) q.maxId q.writes name] else []).filter
            fun r => r.seq = n + (i + 1) + 1) = [] := by
          refine filter_eq_nil_iff.mpr fun r hr => ?_
          split at hr
          · rw [mem_singleton.mp hr]
            simp only [decide_eq_true_eq]
            change ¬n + 1 = _
            omega
          · cases hr
        have hrest := ih (n + 1) i hp
        rw [Nat.add_right_comm n 1 i] at hrest
        rw [hhead, nil_append]
        exact hrest
  have hfilter := hone log 0 i hp
  rw [Nat.zero_add] at hfilter
  unfold kept
  rw [filter_comm, hfilter]
  by_cases hname : name ∈ sidecars p.writes
  · rw [if_pos hname]
    cases hkeeps : ret.keeps name (i + 1) with
    | true | false => simp [sidecarRecord, hkeeps]
  · rw [if_neg hname, writesOf_eq_nil hname, ite_self]
    rfl

/-- What reading a file other than the main one gives. -/
structure ReadOf (d : Disk) (log : List Published) (ret : Retention) (name : FileName) (f : Sidecar) : Prop where
  named : f.name = name
  records : f.records = if name.isSidecar then kept ret log name else []
  retained : ∀ c, name = .sticky c → ret.start c ≠ 0 → f.retainedFrom = some (ret.start c)
  tail : f.tail = false → linesOf d name = f.records.map some

variable {α : Type}

theorem takeWhile_append_of {p : α → Bool} {a b : List α} (ha : ∀ x ∈ a, p x) (hb : ∀ x ∈ b, ¬p x) :
    (a ++ b).takeWhile p = a ∧ (a ++ b).dropWhile p = b := by
  induction a with
  | nil =>
    cases b with
    | nil => exact ⟨rfl, rfl⟩
    | cons x b =>
      have hx := hb x (.head _)
      simp [hx]
  | cons x a ih =>
    have hx := ha x (.head _)
    obtain ⟨htake, hdrop⟩ := ih fun y hy => ha y (.tail _ hy)
    simp [hx, htake, hdrop]

theorem readSidecar_ok {main a b : List Record} (hlines : linesOf d name = (a ++ b).map some)
    (hincr : Increasing (a ++ b)) (hpos : ∀ r ∈ a ++ b, 0 < r.seq) (ha : ∀ r ∈ a, confirmed main name r)
    (hb : ∀ r ∈ b, ¬confirmed main name r) :
    readSidecar d main name = .ok ⟨name, a, retainedStickyBase name (a ++ b).head?, !b.isEmpty⟩ := by
  obtain ⟨htake, hdrop⟩ := takeWhile_append_of ha hb
  have hany : b.any (confirmed main name) = false := by
    rw [List.any_eq_false]
    exact hb
  unfold readSidecar
  rw [hlines, readLines_ok name hincr hpos]
  change (if ((a ++ b).dropWhile (confirmed main name)).any (confirmed main name) then _ else _) = _
  rw [htake, hdrop, hany]
  rfl

/-- A file that has been cut begins with the record that it was cut at. -/
theorem Fits.head (h : Fits d log m ret) {c : Nat} (hstart : ret.start c ≠ 0) :
    ∃ r rest, kept ret log (.sticky c) = r :: rest ∧ r.isBase ∧ r.seq = ret.start c := by
  obtain ⟨r, hr, hseq, hbase⟩ := (h.start c).resolve_left hstart
  have hmem : r ∈ kept ret log (.sticky c) := mem_filter.mpr ⟨hr, decide_eq_true (Nat.le_of_eq hseq.symm)⟩
  have hincr := kept_increasing ret log (.sticky c)
  have hle : ∀ x ∈ kept ret log (.sticky c), ret.start c ≤ x.seq := fun x hx => of_decide_eq_true (mem_filter.mp hx).2
  cases hkept : kept ret log (.sticky c) with
  | nil =>
    rw [hkept] at hmem
    cases hmem
  | cons first rest =>
    rw [hkept] at hmem hincr hle
    rcases mem_cons.mp hmem with rfl | hrest
    · exact ⟨r, rest, rfl, hbase, hseq⟩
    · have hlt := rel_of_pairwise_cons hincr hrest
      have hfirst := hle first (.head _)
      omega

theorem Fits.readSidecar (h : Fits d log m ret) (hname : name ≠ .main) :
    ∃ f, Pico.readSidecar d (mainFrom 0 log) name = .ok f ∧ ReadOf d log ret name f := by
  cases hside : name.isSidecar with
  | true =>
    obtain ⟨tail, hlines, htail⟩ := h.side name hside
    have hlate : ∀ r ∈ tail, r.seq = log.length + 1 := by
      rcases htail with rfl | ⟨r, rfl, hseq⟩
      · exact fun r hr => by cases hr
      · intro r' hr'
        rw [mem_singleton.mp hr', hseq]
    have hincr : Increasing (kept ret log name ++ tail) := by
      refine pairwise_append.mpr ⟨kept_increasing ret log name, ?_, fun a ha b hb => ?_⟩
      · rcases htail with rfl | ⟨r, rfl, -⟩
        · exact .nil
        · exact pairwise_singleton _ _
      · have := (kept_bounds ha).2
        have := hlate b hb
        omega
    have hpos : ∀ r ∈ kept ret log name ++ tail, 0 < r.seq := by
      intro r hr
      rcases mem_append.mp hr with hr | hr
      · exact (kept_bounds hr).1
      · rw [hlate r hr]
        exact Nat.succ_pos _
    have hconfirmed : ∀ r ∈ kept ret log name, confirmed (mainFrom 0 log) name r :=
      fun r hr => confirmed_of_mem (mem_filter.mp hr).1
    have hunconf : ∀ r ∈ tail, ¬confirmed (mainFrom 0 log) name r := fun r hr => by
      rw [confirmed_late (by rw [hlate r hr]; omega)]
      decide
    refine ⟨_, readSidecar_ok hlines hincr hpos hconfirmed hunconf, rfl, ?_, ?_, ?_⟩
    · rw [if_pos hside]
    · rintro c rfl hstart
      obtain ⟨r, rest, hkept, hbase, hseq⟩ := h.head hstart
      rw [hkept]
      change ((some r).filter Record.isBase).map Record.seq = _
      rw [filter_some, if_pos hbase, map_some, hseq]
    · intro hnone
      have hnil : tail = [] := by simpa using hnone
      rw [hlines, hnil, append_nil]
  | false =>
    obtain ⟨c, rfl⟩ : ∃ c, name = .temporary c := by
      cases name with
      | main => exact absurd rfl hname
      | sticky | task => cases hside
      | temporary c => exact ⟨c, rfl⟩
    obtain ⟨records, hlines, hincr, hpos⟩ := h.temporary c
    have hunconf : ∀ r ∈ records, ¬confirmed (mainFrom 0 log) (.temporary c) r := fun r _ => by
      rw [confirmed_temporary]
      decide
    refine ⟨_, readSidecar_ok (a := []) hlines hincr hpos (fun r hr => by cases hr) hunconf, rfl, rfl, ?_, ?_⟩
    · intro c' hc'
      cases hc'
    · intro hnone
      have hnil : records = [] := by simpa using hnone
      rw [hlines, hnil]

theorem mapM_forall₂ {ε β : Type} {f : α → Except ε β} {P : α → β → Prop} {l : List α}
    (h : ∀ a ∈ l, ∃ b, f a = .ok b ∧ P a b) :
    ∃ bs, l.mapM f = .ok bs ∧ List.Forall₂ P l bs := by
  induction l with
  | nil => exact ⟨[], rfl, .nil⟩
  | cons a l ih =>
    obtain ⟨b, hb, hP⟩ := h a (.head _)
    obtain ⟨bs, hbs, hrest⟩ := ih fun a ha => h a (.tail _ ha)
    refine ⟨b :: bs, ?_, .cons hP hrest⟩
    rw [mapM_cons, hb, hbs]
    rfl

theorem flatMap_forall₂ {β γ : Type} {P : α → β → Prop} {l : List α} {bs : List β} (h : List.Forall₂ P l bs)
    {f : β → List γ} {g : α → List γ} (hfg : ∀ a b, P a b → f b = g a) : bs.flatMap f = l.flatMap g := by
  induction h with
  | nil => rfl
  | cons hP _ ih => rw [flatMap_cons, flatMap_cons, hfg _ _ hP, ih]

theorem mem_forall₂ {β : Type} {P : α → β → Prop} {l : List α} {bs : List β} (h : List.Forall₂ P l bs) {a : α}
    (ha : a ∈ l) :
    ∃ b ∈ bs, P a b := by
  induction h with
  | nil => cases ha
  | cons hP _ ih =>
    rcases mem_cons.mp ha with rfl | ha
    · exact ⟨_, .head _, hP⟩
    · obtain ⟨b, hb, hPb⟩ := ih ha
      exact ⟨b, .tail _ hb, hPb⟩

/-! ## Opening -/

theorem mem_mainFrom {n : Nat} {r : Record} (h : r ∈ mainFrom n log) :
    ∃ i p, log[i]? = some p ∧ r = mainRecord (n + i + 1) p.maxId p.writes := by
  induction log generalizing n with
  | nil => cases h
  | cons p log ih =>
    rcases mem_cons.mp h with rfl | h
    · exact ⟨0, p, rfl, rfl⟩
    · obtain ⟨i, q, hq, rfl⟩ := ih h
      refine ⟨i + 1, q, hq, ?_⟩
      rw [Nat.add_right_comm n 1 i, Nat.add_assoc n i 1]

variable {writes : List Write}

theorem isSidecar_of_mem (h : name ∈ sidecars writes) : name.isSidecar := by
  obtain ⟨w, -, hw⟩ := mem_sidecars.mp h
  rcases sidecarOf_name hw with ⟨id, rfl⟩ | ⟨c, rfl⟩
  · rfl
  · rfl

/-- A file with records is listed. -/
theorem Fits.listed (h : Fits d log m ret) (hlists : Lists order d) (hp : log[i]? = some p) :
    Listed ret order (i + 1) p.writes := by
  intro name hname hkeeps
  have hside := isSidecar_of_mem hname
  refine (hlists.2 name).mpr ⟨?_, ?_⟩
  · rintro rfl
    cases hside
  · obtain ⟨tail, hlines, -⟩ := h.side name hside
    have hmem := mem_map_of_mem (f := some) (mem_append_left tail (mem_kept hp hname hkeeps))
    rw [← hlines] at hmem
    unfold linesOf at hmem
    cases hfile : d name with
    | none =>
      rw [hfile] at hmem
      cases hmem
    | some file => rfl

variable {files : List Sidecar}

theorem Fits.accounted (h : Fits d log m ret) (hlog : LogOk log m) (hlists : Lists order d)
    (hfiles : List.Forall₂ (ReadOf d log ret) order files) (hp : log[i]? = some p) (hname : name ∈ sidecars p.writes) :
    Pico.accounted (mainFrom 0 log) files (i + 1) name := by
  unfold Pico.accounted
  rw [Bool.or_eq_true, Bool.or_eq_true]
  by_cases hkeeps : ret.keeps name (i + 1)
  · -- the record is there
    refine .inl (.inl ?_)
    obtain ⟨f, hf, hread⟩ := mem_forall₂ hfiles (h.listed hlists hp name hname hkeeps)
    refine any_eq_true.mpr ⟨f, hf, Bool.and_eq_true_iff.mpr ⟨decide_eq_true hread.named, ?_⟩⟩
    rw [hread.records, if_pos (isSidecar_of_mem hname)]
    exact any_eq_true.mpr ⟨_, mem_kept hp hname hkeeps, decide_eq_true rfl⟩
  · obtain ⟨w, -, hw⟩ := mem_sidecars.mp hname
    rcases sidecarOf_name hw with ⟨id, rfl⟩ | ⟨c, rfl⟩
    · -- the task has ended since
      have hgone : ret.gone id = true := by simpa [Retention.keeps] using hkeeps
      obtain ⟨r, hr, hterm⟩ := h.gone id hgone
      obtain ⟨n, hn, hbelow⟩ := hlog.retiredAt hr hterm
      refine .inr ?_
      change (Pico.retiredAt (mainFrom 0 log) id).any _ = true
      rw [hn]
      exact decide_eq_true (hbelow i p hp hname)
    · -- it has been cut off, and the file begins with a later one
      have hstart : i + 1 < ret.start c := by simpa [Retention.keeps] using hkeeps
      have hne : ret.start c ≠ 0 := by omega
      obtain ⟨r, rest, hkept, hbase, hseq⟩ := h.head hne
      have hmem : .sticky c ∈ order := by
        refine (hlists.2 _).mpr ⟨by simp, ?_⟩
        obtain ⟨tail, hlines, -⟩ := h.side (.sticky c) rfl
        rw [hkept] at hlines
        unfold linesOf at hlines
        cases hfile : d (.sticky c) with
        | none =>
          rw [hfile] at hlines
          cases hlines
        | some file => rfl
      obtain ⟨f, hf, hread⟩ := mem_forall₂ hfiles hmem
      refine .inl (.inr (any_eq_true.mpr ⟨f, hf, Bool.and_eq_true_iff.mpr ⟨decide_eq_true hread.named, ?_⟩⟩))
      rw [hread.retained c rfl hne]
      exact decide_eq_true hstart

/-- Rows are stored under their ids, all of which have been minted. -/
def Minted (m : MemoryStorage) : Prop := ∀ id r, m.tasksById id = some r → r.id = id ∧ id < m.nextIdValue

variable {created' created : List Nat} {id : Nat}

theorem claim_mem {what : String} (h : MemoryStorage.claim what id created = .ok created') :
    created' = id :: created := by
  unfold MemoryStorage.claim at h
  split at h
  · cases h
  · split at h
    · cases h
    · exact (ok.inj h).symm

variable {batch : List Write}

theorem stageWrite_created {w : Write}
    (h : MemoryStorage.stageWrite m batch created w = .ok created') :
    created ⊆ created' ∧ ∀ t, w = .task t → t.id ∈ created' := by
  have hclaim : ∀ {what : String} {id : Nat}, MemoryStorage.claim what id created = .ok created' → created ⊆ created' ∧ id ∈ created' := by
    intro what id hclaim
    rw [claim_mem hclaim]
    exact ⟨subset_cons_self _ _, .head _⟩
  cases w with
  | task t =>
    unfold MemoryStorage.stageWrite at h
    dsimp only at h
    split at h
    · cases h
    · refine ⟨(hclaim h).1, ?_⟩
      rintro _ ⟨⟩
      exact (hclaim h).2
  | conversation | entry =>
    unfold MemoryStorage.stageWrite at h
    dsimp only at h
    split at h
    · cases h
    · exact ⟨(hclaim h).1, fun t ht => by cases ht⟩
  | input i =>
    unfold MemoryStorage.stageWrite at h
    dsimp only at h
    split at h
    · obtain rfl := ok.inj h
      exact ⟨List.Subset.refl _, fun t ht => by cases ht⟩
    · exact ⟨(hclaim h).1, fun t ht => by cases ht⟩
  | taskPatch | doc =>
    rw [(stageWrite_other rfl h).1]
    exact ⟨List.Subset.refl _, fun t ht => by cases ht⟩

theorem stage_created
    (h : writes.foldlM (MemoryStorage.stageWrite m batch) created = .ok created') :
    created ⊆ created' ∧ ∀ t, .task t ∈ writes → t.id ∈ created' := by
  induction writes generalizing created with
  | nil =>
    obtain rfl := ok.inj h
    exact ⟨List.Subset.refl _, fun t ht => by cases ht⟩
  | cons w writes ih =>
    obtain ⟨c, hw, h⟩ := bind_ok.mp h
    obtain ⟨hsub, htask⟩ := stageWrite_created hw
    obtain ⟨hsub', htasks⟩ := ih h
    refine ⟨List.Subset.trans hsub hsub', fun t ht => ?_⟩
    rcases mem_cons.mp ht with rfl | ht
    · exact hsub' (htask t rfl)
    · exact htasks t ht

theorem le_maxOf {ids : List Nat} (h : id ∈ ids) : id ≤ MemoryStorage.maxOf ids := by
  have hfold : ∀ (ids : List Nat) (n : Nat), n ≤ ids.foldl max n ∧ ∀ id ∈ ids, id ≤ ids.foldl max n := by
    intro ids
    induction ids with
    | nil => exact fun n => ⟨Nat.le_refl n, fun id hid => by cases hid⟩
    | cons i ids ih =>
      intro n
      obtain ⟨hle, hmem⟩ := ih (max n i)
      refine ⟨(Nat.le_max_left n i).trans hle, fun id hid => ?_⟩
      rcases mem_cons.mp hid with rfl | hid
      · exact (Nat.le_max_right n id).trans hle
      · exact hmem id hid
  exact (hfold ids 0).2 id h

theorem Minted.commit (h : Minted m) (hcommit : m.commit writes = .ok m') : Minted m' := by
  intro id r hr
  obtain ⟨htasks, -, hnext⟩ := commit_tables hcommit
  rw [htasks, taskWrite_row] at hr
  obtain ⟨created, hstage, hcommit⟩ := bind_ok.mp hcommit
  obtain ⟨m₁, happly, hcommit⟩ := bind_ok.mp hcommit
  have hbound : MemoryStorage.maxOf created + 1 ≤ m'.nextIdValue := by
    obtain rfl := ok.inj hcommit
    exact Nat.le_max_right _ _
  have hrow : ∀ (ws : List Write) (row : Option Task), (∀ w ∈ ws, w ∈ writes ∧ w.isTask id) →
      (∀ r, row = some r → r.id = id ∧ id < m'.nextIdValue) → ∀ r, ws.foldl rowWrite row = some r → r.id = id ∧ id < m'.nextIdValue := by
    intro ws
    induction ws with
    | nil => exact fun _ _ hrow => hrow
    | cons w ws ih =>
      intro row hws hrow
      refine ih _ (fun w hw => hws w (.tail _ hw)) fun r hr => ?_
      obtain ⟨hmem, htask⟩ := hws w (.head _)
      cases w with
      | task t =>
        obtain rfl := some.inj hr
        have hid : t.id = id := of_decide_eq_true htask
        have hle := le_maxOf ((stage_created hstage).2 t hmem)
        exact ⟨hid, by omega⟩
      | taskPatch p =>
        obtain ⟨t, ht, rfl⟩ := map_eq_some_iff.mp hr
        exact hrow t ht
      | _ => cases htask
  refine hrow _ _ (fun w hw => mem_filter.mp hw) (fun r₀ hr₀ => ?_) r hr
  have hbef := h id r₀ hr₀
  exact ⟨hbef.1, hbef.2.trans_le hnext⟩

theorem replay_minted {records : List Record} (h : Minted m)
    (hrepl : records.foldlM (replayRecord files) m = .ok m') : Minted m' := by
  induction records generalizing m with
  | nil =>
    obtain rfl := ok.inj hrepl
    exact h
  | cons r records ih =>
    obtain ⟨m₁, hrec, hrepl⟩ := bind_ok.mp hrepl
    refine ih ?_ hrepl
    unfold replayRecord at hrec
    split at hrec
    · rename_i m₂ hcommit
      obtain rfl := ok.inj hrec
      have hseq : Minted { m with seq := r.seq - 1 } := h
      exact hseq.commit hcommit
    · cases hrec

/-- The same tables, and sticky logs that fold to the same documents. -/
structure SameTables (m' m : MemoryStorage) : Prop where
  base : m.base = m'.base
  seq : m.seq = m'.seq
  tasks : m'.tasksById = m.tasksById
  sticky : ∀ c, (m'.stickyLog c).map sinceBase = (m.stickyLog c).map sinceBase

theorem Replayed.sameTables (h : Replayed ret log m' m) (hfits : Fits d log m ret) (hlog : LogOk log m) : SameTables m' m where
  base := h.base
  seq := h.seq
  tasks := by
    funext id
    rcases h.rows id with heq | ⟨hgone, a, b, -, hb, hlive, -⟩
    · exact heq
    · obtain ⟨r, hr, hterm⟩ := hfits.gone id hgone
      obtain rfl := some.inj (hb.symm.trans hr)
      exact absurd hterm hlive
  sticky := by
    intro c
    rw [h.sticky, hlog.sticky]
    rcases hfits.start c with hstart | ⟨r, hr, hseq, hbase⟩
    · have hkeeps : (fun n => ret.keeps (.sticky c) n) = fun _ => true := by
        funext n
        exact decide_eq_true (by rw [hstart]; exact Nat.zero_le n)
      rw [hkeeps]
    · exact batchesFrom_since hr hseq hbase

/-- What is cut off once the files of tasks that have ended are removed. -/
def Retention.retire (ret : Retention) (m : MemoryStorage) : Retention :=
  { ret with gone := fun id => (m.tasksById id).any fun t => t.status = .terminal }

theorem kept_retire (hfits : Fits d log m ret)
    (hlive : ∀ id, name = .task id → ¬(m.tasksById id).any fun t => t.status = .terminal) :
    kept (ret.retire m) log name = kept ret log name := by
  unfold kept
  refine filter_congr fun r _ => ?_
  cases name with
  | task id =>
    change (!(m.tasksById id).any fun t => t.status = .terminal) = !ret.gone id
    have hgone : ret.gone id = false := by
      by_contra hgone
      obtain ⟨t, ht, hterm⟩ := hfits.gone id (by simpa using hgone)
      refine hlive id rfl ?_
      rw [ht]
      exact decide_eq_true hterm
    rw [hgone, Bool.eq_false_iff.mpr (hlive id rfl)]
  | sticky | main | temporary => rfl

theorem kept_ended (h : (m.tasksById id).any fun t => t.status = .terminal) :
    kept (ret.retire m) log (.task id) = [] := by
  refine filter_eq_nil_iff.mpr fun r _ => ?_
  change ¬(!(m.tasksById id).any fun t => t.status = .terminal) = true
  rw [h]
  decide

theorem kept_unknown (hlog : LogOk log m) (h : m.tasksById id = none) : kept ret log (.task id) = [] := by
  refine filter_eq_nil_iff.mpr fun r hr => ?_
  obtain ⟨i, p, hp, hname, -⟩ := mem_recordsFrom hr
  have hrow := hlog.row hp hname
  rw [h] at hrow
  cases hrow

theorem find?_forall₂ (h : List.Forall₂ (ReadOf d log ret) order files) (name : FileName) :
    (files.find? (fun f => f.name = name) = none ∧ name ∉ order) ∨
      ∃ f, files.find? (fun f => f.name = name) = some f ∧ ReadOf d log ret name f ∧ name ∈ order := by
  induction h with
  | nil => exact .inl ⟨rfl, not_mem_nil⟩
  | @cons a f order files hread _ ih =>
    rw [find?_cons, hread.named]
    by_cases heq : a = name
    · subst heq
      exact .inr ⟨f, by rw [decide_eq_true rfl], hread, .head _⟩
    · rw [decide_eq_false heq]
      rcases ih with ⟨hnone, hnot⟩ | hsome
      · exact .inl ⟨hnone, fun hmem => (mem_cons.mp hmem).elim (fun h => heq h.symm) hnot⟩
      · obtain ⟨g, hg, hreadg, hmem⟩ := hsome
        exact .inr ⟨g, hg, hreadg, .tail _ hmem⟩

theorem kept_nil (hfits : Fits d log m ret) (hside : name.isSidecar) (hnone : d name = none) :
    kept (ret.retire m) log name = [] := by
  obtain ⟨tail, hlines, -⟩ := hfits.side name hside
  unfold linesOf at hlines
  rw [hnone] at hlines
  have hnil : kept ret log name = [] := (append_eq_nil_iff.mp (map_eq_nil_iff.mp hlines.symm)).1
  by_cases hended : ∃ id, name = .task id ∧ (m.tasksById id).any fun t => t.status = .terminal
  · obtain ⟨id, rfl, hterm⟩ := hended
    exact kept_ended hterm
  · rw [kept_retire hfits fun id hid hterm => hended ⟨id, hid, hterm⟩, hnil]

theorem cleaned_lines (hfits : Fits d log m ret) (hlog : LogOk log m) (hlists : Lists order d)
    (hfiles : List.Forall₂ (ReadOf d log ret) order files) (htasks : m'.tasksById = m.tasksById)
    (hmain : name ≠ .main) :
    linesOf (cleaned d files m') name = if name.isSidecar then (kept (ret.retire m) log name).map some else [] := by
  rcases find?_forall₂ hfiles name with ⟨hfind, hnot⟩ | ⟨f, hfind, hread, hmem⟩
  · have hnone : d name = none := by
      cases hfile : d name with
      | none => rfl
      | some file => exact absurd ((hlists.2 name).mpr ⟨hmain, by rw [hfile]; rfl⟩) hnot
    unfold linesOf cleaned
    rw [hfind, hnone]
    change [] = _
    by_cases hside : name.isSidecar
    · rw [if_pos hside, kept_nil hfits hside hnone]
      rfl
    · rw [if_neg hside]
  · obtain ⟨file, hfile⟩ := isSome_iff_exists.mp ((hlists.2 name).mp hmem).2
    have hlines : f.tail = false → file.lines = f.records.map some := by
      intro htail
      have hlines := hread.tail htail
      unfold linesOf at hlines
      rw [hfile] at hlines
      exact hlines
    unfold linesOf cleaned
    rw [hfind, hfile]
    cases name with
    | main => exact absurd rfl hmain
    | temporary c =>
      have hrecs : f.records = [] := hread.records
      cases htail : f.tail with
      | true => simp [htail, hrecs, FileName.isSidecar]
      | false => simp [htail, hlines htail, hrecs, FileName.isSidecar]
    | sticky c =>
      have hrecs : f.records = kept (ret.retire m) log (.sticky c) := by
        rw [kept_retire hfits fun id hid => by cases hid]
        exact hread.records
      cases htail : f.tail with
      | true => simp [htail, hrecs, FileName.isSidecar]
      | false => simp [htail, hlines htail, hrecs, FileName.isSidecar]
    | task id =>
      rw [htasks]
      change (if (m.tasksById id).any (fun t => t.status ≠ .terminal) then _ else none).elim [] File.lines = _
      by_cases hlive : (m.tasksById id).any fun t => t.status ≠ .terminal
      · have hnot : ¬(m.tasksById id).any fun t => t.status = .terminal := by
          cases hrow : m.tasksById id with
          | none => exact fun h => by cases h
          | some t =>
            rw [hrow] at hlive
            simpa using hlive
        have hrecs : f.records = kept (ret.retire m) log (.task id) := by
          rw [kept_retire hfits fun id' hid => by cases hid; exact hnot]
          exact hread.records
        rw [if_pos hlive]
        cases htail : f.tail with
        | true => simp [hrecs, FileName.isSidecar]
        | false => simp [hlines htail, hrecs, FileName.isSidecar]
      · have hnil : kept (ret.retire m) log (.task id) = [] := by
          cases hrow : m.tasksById id with
          | none => exact kept_unknown hlog hrow
          | some t =>
            refine kept_ended ?_
            rw [hrow] at hlive ⊢
            simpa using hlive
        rw [if_neg hlive, hnil]
        rfl

theorem cleaned_whole {file : File} (hname : ∀ c, name ≠ .temporary c) (h : cleaned d files m' name = some file) :
    file.torn = false := by
  unfold cleaned at h
  cases hfind : files.find? fun f => f.name = name with
  | none =>
    rw [hfind] at h
    obtain ⟨g, -, rfl⟩ := map_eq_some_iff.mp h
    rfl
  | some f =>
    rw [hfind] at h
    cases name with
    | temporary c => exact absurd rfl (hname c)
    | main | sticky =>
      obtain ⟨g, -, rfl⟩ := map_eq_some_iff.mp h
      dsimp only
      split <;> rfl
    | task id =>
      dsimp only at h
      split at h
      · obtain ⟨g, -, rfl⟩ := map_eq_some_iff.mp h
        split <;> rfl
      · cases h

theorem linesOf_update_of_ne {other : FileName} (hne : other ≠ name) (file : Option File) :
    linesOf (update d name file) other = linesOf d other := by
  unfold linesOf
  rw [update_of_ne hne]

theorem Fits.clean (h : Fits d log m ret) (hlog : LogOk log m) (hlists : Lists order d)
    (hfiles : List.Forall₂ (ReadOf d log ret) order files) (htasks : m'.tasksById = m.tasksById) :
    Clean (update (cleaned d files m') .main (some ⟨linesOf d .main, false⟩)) log m (ret.retire m) := by
  have hlines : ∀ name, name ≠ .main → linesOf (update (cleaned d files m') .main (some ⟨linesOf d .main, false⟩)) name =
      if name.isSidecar then (kept (ret.retire m) log name).map some else [] := by
    intro name hname
    rw [linesOf_update_of_ne hname]
    exact cleaned_lines h hlog hlists hfiles htasks hname
  have hside : ∀ name, name.isSidecar →
      linesOf (update (cleaned d files m') .main (some ⟨linesOf d .main, false⟩)) name = (kept (ret.retire m) log name).map some := by
    intro name hside
    rw [hlines name (by rintro rfl; cases hside), if_pos hside]
  refine ⟨⟨?_, fun name hname => ⟨[], ?_, .inl rfl⟩, fun c => ⟨[], ?_, .nil, fun r hr => by cases hr⟩, h.start, ?_⟩, hside, ?_⟩
  · unfold linesOf
    rw [update_self]
    exact h.main
  · rw [hside name hname, append_nil]
  · exact hlines (.temporary c) (by simp)
  · intro id hgone
    change (m.tasksById id).any _ = true at hgone
    cases hrow : m.tasksById id with
    | none =>
      rw [hrow] at hgone
      cases hgone
    | some t =>
      rw [hrow] at hgone
      exact ⟨t, rfl, of_decide_eq_true hgone⟩
  · intro name file hname hfile
    by_cases heq : name = .main
    · subst heq
      rw [update_self] at hfile
      obtain rfl := some.inj hfile
      rfl
    · rw [update_of_ne heq] at hfile
      exact cleaned_whole hname hfile

/-- Files that fit a log are opened: the tables are those that the log leads to, and the files are left clean. -/
theorem Fits.open (h : Fits d log m ret) (hlog : LogOk log m) (hlists : Lists order d) :
    ∃ m' d', openStorage d order = .ok (m', d') ∧ SameTables m' m ∧ Minted m' ∧ ∃ ret', Clean d' log m ret' := by
  obtain ⟨files, hmap, hfiles⟩ := mapM_forall₂ (P := ReadOf d log ret) fun name hname => h.readSidecar ((hlists.2 name).mp hname).1
  have hmain : readLines .main 0 (linesOf d .main) = .ok (mainFrom 0 log) := by
    rw [h.main]
    exact readLines_ok .main (mainFrom_increasing 0 log) fun r hr => (mainFrom_bounds hr).1
  have haccounted : ((mainFrom 0 log).flatMap fun r => r.refs.map fun name => (r.seq, name)).find?
      (fun p => !Pico.accounted (mainFrom 0 log) files p.1 p.2) = none := by
    refine find?_eq_none.mpr fun q hq => ?_
    obtain ⟨r, hr, hq⟩ := mem_flatMap.mp hq
    obtain ⟨name, hname, rfl⟩ := mem_map.mp hq
    obtain ⟨i, p, hp, rfl⟩ := mem_mainFrom hr
    have haccounted := h.accounted hlog hlists hfiles hp hname
    change ¬(!Pico.accounted (mainFrom 0 log) files (0 + i + 1) name) = true
    rw [Nat.zero_add, haccounted]
    decide
  have hbatch : ∀ i p, log[i]? = some p → batchOf files (mainRecord (i + 1) p.maxId p.writes) = replayedWrites ret order (i + 1) p.writes ∧
      Listed ret order (i + 1) p.writes := by
    intro i p hp
    refine ⟨congrArg (mainWrites p.writes ++ ·) (flatMap_forall₂ hfiles fun name f hread => ?_), h.listed hlists hp⟩
    rw [hread.records]
    by_cases hside : name.isSidecar
    · rw [if_pos hside]
      exact kept_writes hp
    · rw [if_neg hside, writesOf_eq_nil fun hname => hside (isSidecar_of_mem hname), ite_self]
      rfl
  obtain ⟨m₀, hrepl, hreplayed⟩ := hlog.replay hlists.1 hbatch
  have hsame := hreplayed.sameTables h hlog
  obtain ⟨maxId, hmaxId⟩ : ∃ n, n = (((mainFrom 0 log) ++ files.flatMap Sidecar.records).map Record.maxId).foldl max 0 := ⟨_, rfl⟩
  have htasks : (m₀.setNextId (maxId + 1)).tasksById = m.tasksById := hsame.tasks
  refine ⟨m₀.setNextId (maxId + 1), _, ?_, ⟨hsame.base, hsame.seq, hsame.tasks, hsame.sticky⟩, fun id r hr => ?_, _,
    h.clean hlog hlists hfiles htasks⟩
  · unfold openStorage
    rw [hmain]
    change (order.mapM (Pico.readSidecar d (mainFrom 0 log)) >>= _) = _
    rw [hmap]
    dsimp only [bind, Except.bind]
    rw [haccounted]
    rw [hrepl, hmaxId]
  · obtain ⟨hid, hlt⟩ := replay_minted (fun _ _ hr => by cases hr) hrepl id r hr
    exact ⟨hid, hlt.trans_le (Nat.le_max_left _ _)⟩

end Shuvpi.Pico
