import Shuvpi.PicoTransacted

/-!
# Sessions that keep their files

A session on `JsonlStorage`: it commits transactions and truncates sticky documents, its
process can end at any time, also in the middle of a commit, and the files are opened again.
As long as no transaction has both a terminal patch of a task and another one, terminal
patches carry the mark of their tasks and the operations on the session document can be
applied, every opening gives the tables of the commits that have been published.
-/
namespace Shuvpi.Pico

open Delta (Op isBase DeltaError)
open Function (update)
open MemoryStorage (sinceBase applyWrite)
open List Option Function

variable {m m' : MemoryStorage} {writes : List Write} {log : List Published} {ret : Retention} {d d' : Disk} {order : List FileName}

/-! ## The same tables -/

theorem sinceBase_of_not_any {l : List (List Op)} (h : ¬l.any isBase) : sinceBase l = l := by
  unfold sinceBase
  have hnil : (l.zipIdx.filter fun p => isBase p.1) = [] := by
    refine filter_eq_nil_iff.mpr fun p hp hbase => h ?_
    obtain ⟨x, i⟩ := p
    obtain ⟨-, -, hget⟩ := mem_zipIdx hp
    exact any_eq_true.mpr ⟨x, hget ▸ getElem_mem _, hbase⟩
  rw [hnil]
  rfl

theorem sinceBase_sinceBase (l : List (List Op)) : sinceBase (sinceBase l) = sinceBase l := by
  by_cases h : l.any isBase
  · obtain ⟨a, b, c, rfl, hb, hc⟩ := exists_last h
    rw [sinceBase_last hb hc]
    exact sinceBase_last (a := []) hb hc
  · rw [sinceBase_of_not_any h, sinceBase_of_not_any h]

/-- What is added to a log counts from the last replacement on. -/
theorem sinceBase_concat (l b : List (List Op)) : sinceBase (l ++ b) = if b.any isBase then sinceBase b else sinceBase l ++ b := by
  split
  · rename_i h
    exact sinceBase_append h
  · rename_i h
    by_cases hl : l.any isBase
    · obtain ⟨a, x, c, rfl, hx, hc⟩ := exists_last hl
      have hrest : ∀ y ∈ c ++ b, ¬isBase y := by
        intro y hy hbase
        rcases mem_append.mp hy with hy | hy
        · exact hc y hy hbase
        · exact h (any_eq_true.mpr ⟨y, hy, hbase⟩)
      rw [append_assoc, cons_append, sinceBase_last hx hrest, sinceBase_last hx hc]
      rfl
    · rw [sinceBase_of_not_any hl, sinceBase_of_not_any]
      rw [any_append, Bool.or_eq_true]
      rintro (h' | h')
      · exact hl h'
      · exact h h'

theorem pushAll_since {a b : Option (List (List Op))} (h : a.map sinceBase = b.map sinceBase) (batches : List (List Op)) :
    (pushAll a batches).map sinceBase = (pushAll b batches).map sinceBase := by
  unfold pushAll
  split
  · exact h
  · have hgetD : sinceBase (a.getD []) = sinceBase (b.getD []) := by
      cases a with
      | none =>
        cases b with
        | none => rfl
        | some b => cases h
      | some a =>
        cases b with
        | none => cases h
        | some b => exact some.inj h
    rw [map_some, map_some, sinceBase_concat, sinceBase_concat, hgetD]

variable (h : SameTables m' m)
include h

/-- The same batch is committed to the same tables alike. -/
theorem SameTables.commit {m₁' : MemoryStorage} (hcommit : m'.commit writes = .ok m₁') :
    ∃ m₁, m.commit writes = .ok m₁ ∧ SameTables m₁' m₁ := by
  have hkeys : SameKeys m' m := ⟨h.base.symm, fun id => by rw [h.tasks]⟩
  have hknown : ∀ p, .taskPatch p ∈ writes → Known m writes p.id := by
    intro p hp
    obtain ⟨created, hstage, -⟩ := bind_ok.mp hcommit
    have hknown := stage_known hstage p hp
    unfold Known at hknown ⊢
    rw [h.tasks] at hknown
    exact hknown
  obtain ⟨m₁, hcommit', hbase⟩ := commit_of hcommit hkeys h.seq.symm (fun _ _ => rfl) hknown
  obtain ⟨htasks, hstick, hseq⟩ := commit_slots hcommit
  obtain ⟨htasks', hstick', hseq'⟩ := commit_slots hcommit'
  refine ⟨m₁, hcommit', hbase.symm, by rw [hseq, hseq', h.seq], by rw [htasks, htasks', h.tasks], fun c => ?_⟩
  rw [hstick, hstick']
  exact pushAll_since (h.sticky c) _

theorem SameTables.truncate (c : Nat) : SameTables (m'.truncate (.sticky c)) m where
  base := h.base
  seq := h.seq
  tasks := h.tasks
  sticky := by
    intro c'
    change (update m'.stickyLog c ((m'.stickyLog c).map sinceBase) c').map sinceBase = _
    by_cases heq : c' = c
    · subst heq
      rw [update_self, ← h.sticky c']
      cases m'.stickyLog c' with
      | none => rfl
      | some l => exact congrArg some (sinceBase_sinceBase l)
    · rw [update_of_ne heq]
      exact h.sticky c'

theorem SameTables.doc (ref : DocRef) : m'.doc ref = m.doc ref := by
  cases ref with
  | session =>
    have hdoc : m.sessionDoc = m'.sessionDoc :=
      (congrArg MemoryStorage.sessionDoc h.base : m.base.sessionDoc = m'.base.sessionDoc)
    change pure (some (m'.sessionDoc.getD _)) = pure (some (m.sessionDoc.getD _))
    rw [hdoc]
  | rewindable c =>
    have hlog : m.rewindableLog = m'.rewindableLog :=
      (congrArg MemoryStorage.rewindableLog h.base : m.base.rewindableLog = m'.base.rewindableLog)
    unfold MemoryStorage.doc
    rw [hlog]
  | sticky c =>
    have hlog := h.sticky c
    unfold MemoryStorage.doc
    dsimp only
    cases hm' : m'.stickyLog c with
    | none =>
      rw [hm'] at hlog
      cases hm : m.stickyLog c with
      | none => rfl
      | some l =>
        rw [hm] at hlog
        cases hlog
    | some l' =>
      rw [hm'] at hlog
      cases hm : m.stickyLog c with
      | none =>
        rw [hm] at hlog
        cases hlog
      | some l =>
        rw [hm] at hlog
        have hsince : sinceBase l' = sinceBase l := some.inj hlog
        dsimp only
        unfold MemoryStorage.fold
        rw [hsince]

/-! ## Operations on files -/

omit h

/-- No bytes follow the last newline of a file. -/
def Whole (d : Disk) : Prop := ∀ name file, (∀ c, name ≠ .temporary c) → d name = some file → file.torn = false

theorem append_whole (h : Whole d) (name : FileName) (r : Record) : Whole (FileOp.run d (.append name r)) := by
  intro other file hother hfile
  change update d name _ other = some file at hfile
  by_cases heq : other = name
  · subst heq
    rw [update_self] at hfile
    obtain rfl := some.inj hfile
    rfl
  · rw [update_of_ne heq] at hfile
    exact h other file hother hfile

theorem append_lines (h : Whole d) {name : FileName} (hname : ∀ c, name ≠ .temporary c) (r : Record) (other : FileName) :
    linesOf (FileOp.run d (.append name r)) other = linesOf d other ++ if other = name then [some r] else [] := by
  unfold linesOf
  change (update d name _ other).elim [] File.lines = _
  by_cases heq : other = name
  · subst heq
    rw [update_self, if_pos rfl]
    cases hfile : d other with
    | none => rfl
    | some file =>
      change (file.append r).lines = file.lines ++ [some r]
      unfold File.append
      rw [h other file hname hfile]
      rfl
  · rw [update_of_ne heq, if_neg heq, append_nil]

/-- Records are appended to some files, one to each. -/
theorem appends_lines (rec : FileName → Record) {names : List FileName} (hnodup : names.Nodup) (hnames : ∀ name ∈ names, name.isSidecar)
    (h : Whole d) :
    Whole (runOps d (names.map fun name => .append name (rec name))) ∧
      ∀ other, linesOf (runOps d (names.map fun name => .append name (rec name))) other =
        linesOf d other ++ if other ∈ names then [some (rec other)] else [] := by
  induction hnodup generalizing d with
  | nil => exact ⟨h, fun other => (append_nil _).symm⟩
  | @cons name names hnot _ ih =>
    have hname : ∀ c, name ≠ .temporary c := by
      rintro c rfl
      cases hnames _ (.head _)
    obtain ⟨hwhole, hlines⟩ := ih (fun n hn => hnames n (.tail _ hn)) (append_whole h name (rec name))
    refine ⟨hwhole, fun other => (hlines other).trans ?_⟩
    rw [append_lines h hname]
    by_cases heq : other = name
    · subst heq
      have hmem : other ∉ names := fun hmem => hnot other hmem rfl
      rw [if_pos rfl, if_neg hmem, if_pos (.head _), append_nil]
    · rw [if_neg heq, append_nil]
      simp [heq]

theorem unlinks_lines (ids : List Nat) (h : Whole d) : Whole (runOps d (ids.map fun id => .unlink (.task id))) ∧
      ∀ other, linesOf (runOps d (ids.map fun id => .unlink (.task id))) other =
        if ∃ id ∈ ids, other = .task id then [] else linesOf d other := by
  induction ids generalizing d with
  | nil => exact ⟨h, fun other => by simp [runOps]⟩
  | cons id ids ih =>
    have hwhole : Whole (FileOp.run d (.unlink (.task id))) := by
      intro other file hother hfile
      change update d (.task id) none other = some file at hfile
      by_cases heq : other = .task id
      · subst heq
        rw [update_self] at hfile
        cases hfile
      · rw [update_of_ne heq] at hfile
        exact h other file hother hfile
    obtain ⟨hwhole', hlines⟩ := ih hwhole
    refine ⟨hwhole', fun other => (hlines other).trans ?_⟩
    have hone : linesOf (FileOp.run d (.unlink (.task id))) other = if other = .task id then [] else linesOf d other := by
      unfold linesOf
      change (update d (.task id) none other).elim [] File.lines = _
      by_cases heq : other = .task id
      · subst heq
        rw [update_self, if_pos rfl]
        rfl
      · rw [update_of_ne heq, if_neg heq]
    rw [hone]
    by_cases hrest : ∃ id ∈ ids, other = .task id
    · obtain ⟨id', hid', rfl⟩ := hrest
      rw [if_pos ⟨id', hid', rfl⟩, if_pos ⟨id', .tail _ hid', rfl⟩]
    · rw [if_neg hrest]
      by_cases heq : other = .task id
      · rw [if_pos heq, if_pos ⟨id, .head _, heq⟩]
      · rw [if_neg heq, if_neg]
        rintro ⟨id', hid', rfl⟩
        rcases mem_cons.mp hid' with rfl | hid'
        · exact heq rfl
        · exact hrest ⟨id', hid', rfl⟩

/-- An append that is cut off leaves the lines as they are, and so does an operation that has not begun. -/
theorem cut_lines {op : FileOp} (hcut : op.Cut d d') (hop : ∀ c lines, op ≠ .rewrite c lines) (other : FileName) :
    linesOf d' other = linesOf d other := by
  have hsame : ∀ (name : FileName) (file : File), file.lines = linesOf d name → linesOf (update d name (some file)) other = linesOf d other := by
    intro name file hfile
    by_cases heq : other = name
    · subst heq
      unfold linesOf at hfile ⊢
      rw [update_self]
      exact hfile
    · exact linesOf_update_of_ne heq _
  cases hcut with
  | before => rfl
  | opened name record =>
    refine hsame name _ ?_
    unfold linesOf
    cases d name <;> rfl
  | torn name record =>
    refine hsame name _ ?_
    unfold linesOf
    cases d name <;> rfl
  | rewriting c n torn lines => exact absurd rfl (hop c lines)

/-! ## Commits and files -/

/-- A task that has ended is left alone. -/
theorem Transacted.ended (h : Transacted m writes) (hcommit : m.commit writes = .ok m') {id : Nat} {r : Task}
    (hr : m.tasksById id = some r) (hterm : r.status = .terminal) : m'.tasksById id = some r := by
  have hnil : writes.filter (Write.isTask id) = [] := by
    refine filter_eq_nil_iff.mpr fun w hw htask => ?_
    cases w with
    | task t =>
      have hid : t.id = id := of_decide_eq_true htask
      have hnone := (h.created t hw).1
      rw [hid, hr] at hnone
      cases hnone
    | taskPatch p =>
      have hid : p.id = id := of_decide_eq_true htask
      rcases h.live p hw with ⟨r', hr', hlive⟩ | ⟨hnone, -⟩
      · rw [hid, hr] at hr'
        exact hlive (some.inj hr' ▸ hterm)
      · rw [hid, hr] at hnone
        cases hnone
    | _ => cases htask
  rw [(commit_slots hcommit).1, taskWrite_row, hnil]
  exact hr

theorem foldl_terminal {ws : List Write} (h : ∀ w ∈ ws, ∃ p, w = .taskPatch p ∧ p.status = some .terminal) (hne : ws ≠ []) (r : Task) :
    ∃ r', ws.foldl rowWrite (some r) = some r' ∧ r'.status = .terminal := by
  induction ws generalizing r with
  | nil => exact absurd rfl hne
  | cons w ws ih =>
    obtain ⟨p, rfl, hp⟩ := h w (.head _)
    have hstat : (MemoryStorage.patchTask r p).status = .terminal := by
      change p.status.getD r.status = _
      rw [hp]
      rfl
    cases ws with
    | nil => exact ⟨_, rfl, hstat⟩
    | cons w' ws => exact ih (fun w hw => h w (.tail _ hw)) (by simp) _

def Write.creates : Write → Bool
  | .task _ => true
  | _ => false

/-- A terminal patch ends its task. -/
theorem Transacted.retired (h : Transacted m writes) (hseparate : Separate writes) (hcommit : m.commit writes = .ok m') {id : Nat}
    (hid : id ∈ Pico.retired writes) : ∃ r, m'.tasksById id = some r ∧ r.status = .terminal := by
  obtain ⟨p, hp, hpid, hpterminal⟩ := mem_retired.mp hid
  -- first the task is created, if it is, and then patched
  have hsplit : (writes.filter (Write.isTask id)).filter Write.creates ++
      (writes.filter (Write.isTask id)).filter (fun w => !w.creates) = writes.filter (Write.isTask id) := by
    refine filter_append_filter_not ?_
    refine (h.ordered.sublist filter_sublist : (writes.filter (Write.isTask id)).Pairwise _).imp_of_mem fun {a b} ha hb hrel hcreate => ?_
    have ha := (mem_filter.mp ha).2
    have hb := (mem_filter.mp hb).2
    cases b with
    | task t =>
      cases a with
      | task t' => rfl
      | taskPatch q =>
        have hqid : q.id = id := of_decide_eq_true ha
        have htid : t.id = id := of_decide_eq_true hb
        exact absurd (hqid.trans htid.symm) (hrel q t rfl rfl)
      | _ => cases ha
    | _ => cases hcreate
  have hpatches : ∀ w ∈ (writes.filter (Write.isTask id)).filter (fun w => !w.creates),
      ∃ q, w = .taskPatch q ∧ q.status = some .terminal := by
    intro w hw
    obtain ⟨hw, hnot⟩ := mem_filter.mp hw
    obtain ⟨hmem, htask⟩ := mem_filter.mp hw
    cases w with
    | task t => cases hnot
    | taskPatch q =>
      have hqid : q.id = id := of_decide_eq_true htask
      exact ⟨q, rfl, hseparate p q hp hmem (hpid.trans hqid.symm) hpterminal⟩
    | _ => cases htask
  have hne : (writes.filter (Write.isTask id)).filter (fun w => !w.creates) ≠ [] :=
    ne_nil_of_mem (mem_filter.mpr ⟨mem_filter.mpr ⟨hp, decide_eq_true hpid⟩, rfl⟩)
  have hrow : (((writes.filter (Write.isTask id)).filter Write.creates).foldl rowWrite (m.tasksById id)).isSome := by
    rcases h.live p hp with ⟨r, hr, -⟩ | ⟨-, t, ht, htid⟩
    · exact row_isSome (by rw [← hpid, hr]; rfl)
    · have hmem : .task t ∈ (writes.filter (Write.isTask id)).filter Write.creates :=
        mem_filter.mpr ⟨mem_filter.mpr ⟨ht, decide_eq_true (htid.trans hpid)⟩, rfl⟩
      obtain ⟨l₁, l₂, heq⟩ := append_of_mem hmem
      rw [heq, foldl_append, foldl_cons]
      exact row_isSome rfl
  obtain ⟨r, hr⟩ := isSome_iff_exists.mp hrow
  rw [(commit_slots hcommit).1, taskWrite_row, ← hsplit, foldl_append, hr]
  exact foldl_terminal hpatches hne r

/-- The files of a commit that has not been published. -/
theorem Clean.before (h : Clean d log m ret) (rec : FileName → Record) {names : List FileName} (hnodup : names.Nodup)
    (hnames : ∀ name ∈ names, name.isSidecar) (hrec : ∀ name, (rec name).seq = log.length + 1)
    (hlines : ∀ other, linesOf d' other = linesOf (runOps d (names.map fun name => .append name (rec name))) other) : Fits d' log m ret := by
  obtain ⟨-, happends⟩ := appends_lines rec hnodup hnames h.whole
  have hother : ∀ name, ¬name.isSidecar → linesOf d' name = linesOf d name := by
    intro name hname
    rw [hlines, happends, if_neg fun hmem => hname (hnames name hmem), append_nil]
  refine ⟨?_, fun name hname => ?_, fun c => ?_, h.fits.start, h.fits.gone⟩
  · rw [hother .main (by simp [FileName.isSidecar])]
    exact h.fits.main
  · rw [hlines, happends, h.side name hname]
    by_cases hmem : name ∈ names
    · exact ⟨[rec name], by rw [if_pos hmem, map_append]; rfl, .inr ⟨rec name, rfl, hrec name⟩⟩
    · exact ⟨[], by rw [if_neg hmem, append_nil, append_nil], .inl rfl⟩
  · rw [hother (.temporary c) (by simp [FileName.isSidecar])]
    exact h.fits.temporary c

/-- The files of some tasks are removed. -/
def Retention.drop (ret : Retention) (ids : List Nat) : Retention := { ret with gone := fun id => ret.gone id || ids.contains id }

theorem recordsFrom_concat (log : List Published) (p : Published) (name : FileName) :
    recordsFrom 0 name (log ++ [p]) =
      recordsFrom 0 name log ++ if name ∈ sidecars p.writes then [sidecarRecord (log.length + 1) p.maxId p.writes name] else [] := by
  rw [recordsFrom_append, recordsFrom, recordsFrom, append_nil, Nat.zero_add]

/-- The files of a commit that has been published, with some of the files of the tasks that it ends removed. -/
theorem Clean.published (h : Clean d log m ret) {p : Published} (hcommit : m.commit p.writes = .ok m') (htransacted : Transacted m p.writes)
    (hseparate : Separate p.writes) {ids : List Nat} (hids : ∀ id ∈ ids, id ∈ retired p.writes) :
    Clean (runOps d (((sidecars p.writes).map fun name => .append name (sidecarRecord (log.length + 1) p.maxId p.writes name)) ++
        .append .main (mainRecord (log.length + 1) p.maxId p.writes) :: ids.map fun id => .unlink (.task id)))
      (log ++ [p]) m' (ret.drop ids) := by
  obtain ⟨hwhole₁, hlines₁⟩ := appends_lines (sidecarRecord (log.length + 1) p.maxId p.writes) (sidecars_nodup p.writes)
    (fun name hname => isSidecar_of_mem hname) h.whole
  have hwhole₂ := append_whole hwhole₁ .main (mainRecord (log.length + 1) p.maxId p.writes)
  have hlines₂ := append_lines hwhole₁ (by simp : ∀ c, FileName.main ≠ .temporary c) (mainRecord (log.length + 1) p.maxId p.writes)
  obtain ⟨hwhole₃, hlines₃⟩ := unlinks_lines ids hwhole₂
  have hrun : runOps d (((sidecars p.writes).map fun name => .append name (sidecarRecord (log.length + 1) p.maxId p.writes name)) ++
      .append .main (mainRecord (log.length + 1) p.maxId p.writes) :: ids.map fun id => .unlink (.task id)) =
      runOps (FileOp.run (runOps d ((sidecars p.writes).map fun name => .append name (sidecarRecord (log.length + 1) p.maxId p.writes name)))
        (.append .main (mainRecord (log.length + 1) p.maxId p.writes))) (ids.map fun id => .unlink (.task id)) := by
    unfold runOps
    rw [foldl_append, foldl_cons]
  rw [hrun]
  -- the lines of a file other than the main one
  have hside : ∀ name, name.isSidecar → linesOf (runOps (FileOp.run (runOps d ((sidecars p.writes).map fun name =>
      .append name (sidecarRecord (log.length + 1) p.maxId p.writes name))) (.append .main (mainRecord (log.length + 1) p.maxId p.writes)))
      (ids.map fun id => .unlink (.task id))) name = (kept (ret.drop ids) (log ++ [p]) name).map some := by
    intro name hname
    rw [hlines₃]
    by_cases hdrop : ∃ id ∈ ids, name = .task id
    · obtain ⟨id, hid, rfl⟩ := hdrop
      rw [if_pos ⟨id, hid, rfl⟩]
      have hnil : kept (ret.drop ids) (log ++ [p]) (.task id) = [] := by
        refine filter_eq_nil_iff.mpr fun r _ => ?_
        simp [Retention.keeps, Retention.drop, hid]
      rw [hnil]
      rfl
    · have hkeeps : ∀ n, (ret.drop ids).keeps name n = ret.keeps name n := by
        intro n
        cases name with
        | task id =>
          have hid : id ∉ ids := fun hid => hdrop ⟨id, hid, rfl⟩
          simp [Retention.keeps, Retention.drop, hid]
        | sticky | main | temporary => rfl
      have hnew : ∀ r ∈ (if name ∈ sidecars p.writes then [sidecarRecord (log.length + 1) p.maxId p.writes name] else []), ret.keeps name r.seq := by
        intro r hr
        split at hr
        · rename_i hmem
          rw [mem_singleton.mp hr]
          change ret.keeps name (log.length + 1) = true
          obtain ⟨w, hw, hwside⟩ := mem_sidecars.mp hmem
          rcases sidecarOf_name hwside with ⟨id, rfl⟩ | ⟨c, rfl⟩
          · -- a task with a patch has not ended
            obtain ⟨q, rfl, hqid, -⟩ := sidecarOf_patch hwside
            change (!ret.gone id) = true
            cases hgone : ret.gone id with
            | false => rfl
            | true =>
              obtain ⟨t, ht, hterm⟩ := h.fits.gone id hgone
              rcases htransacted.live q hw with ⟨t', ht', hlive⟩ | ⟨hnone, -⟩
              · rw [hqid, ht] at ht'
                exact absurd (some.inj ht' ▸ hterm) hlive
              · rw [hqid, ht] at hnone
                cases hnone
          · refine decide_eq_true ?_
            rcases h.fits.start c with hstart | ⟨r', hr', hseq, -⟩
            · omega
            · have := (recordsFrom_bounds hr').2
              omega
        · cases hr
      have hmain : name ≠ .main := by
        rintro rfl
        cases hname
      rw [if_neg hdrop, hlines₂, if_neg hmain, append_nil, hlines₁, h.side name hname]
      unfold kept
      rw [recordsFrom_concat, filter_append, map_append]
      congr 1
      · exact congrArg _ (filter_congr fun r _ => (hkeeps r.seq).symm)
      · rw [filter_eq_self.mpr fun r hr => (hkeeps r.seq).trans (hnew r hr)]
        split <;> rfl
  have hother : ∀ name, ¬name.isSidecar → name ∉ sidecars p.writes := fun name hname hmem => hname (isSidecar_of_mem hmem)
  refine ⟨⟨?_, fun name hname => ⟨[], ?_, .inl rfl⟩, fun c => ?_, fun c => ?_, fun id hgone => ?_⟩, hside, hwhole₃⟩
  · rw [hlines₃, if_neg (by simp), hlines₂, if_pos rfl, hlines₁, if_neg (hother .main (by decide)), append_nil, h.fits.main,
      mainFrom_append, map_append, Nat.zero_add]
    rfl
  · rw [hside name hname, append_nil]
  · rw [hlines₃, if_neg (by simp), hlines₂, if_neg (by simp), hlines₁, if_neg (hother (.temporary c) (by simp [FileName.isSidecar])),
      append_nil, append_nil]
    exact h.fits.temporary c
  · rcases h.fits.start c with hstart | ⟨r, hr, hseq, hbase⟩
    · exact .inl hstart
    · exact .inr ⟨r, by rw [recordsFrom_concat]; exact mem_append_left _ hr, hseq, hbase⟩
  · rcases Bool.or_eq_true_iff.mp hgone with hgone | hid
    · obtain ⟨r, hr, hterm⟩ := h.fits.gone id hgone
      exact ⟨r, htransacted.ended hcommit hr hterm, hterm⟩
    · exact htransacted.retired hseparate hcommit (hids id (by simpa using hid))

/-! ## Truncation and files -/

/-- The operations of a truncation, in terms of the records that are kept. -/
theorem truncateOps_cases (h : Clean d log m ret) (c : Nat) :
    truncateOps d c = [] ∨ ∃ a b rest, kept ret log (.sticky c) = a ++ b :: rest ∧ b.isBase ∧
      truncateOps d c = [.rewrite c ((b :: rest).map some), .rename c] := by
  unfold truncateOps
  cases hfile : d (.sticky c) with
  | none => exact .inl rfl
  | some file =>
    have hlines : file.lines = (kept ret log (.sticky c)).map some := by
      have hside := h.side (.sticky c) rfl
      unfold linesOf at hside
      rw [hfile] at hside
      exact hside
    dsimp only
    rw [hlines]
    by_cases hany : ((kept ret log (.sticky c)).map some).any fun l => l.any Record.isBase
    · obtain ⟨a, b, rest, heq, hb, hrest⟩ := exists_last hany
      rw [heq, getLast?_zipIdx hb hrest]
      dsimp only
      split
      · exact .inl rfl
      · obtain ⟨a', l', hkept, rfl, hl'⟩ := map_eq_append_iff.mp heq
        obtain ⟨b', rest', rfl, rfl, rfl⟩ := map_eq_cons_iff.mp hl'
        refine .inr ⟨a', b', rest', hkept, hb, ?_⟩
        rw [drop_left, map_cons]
    · have hnil : (((kept ret log (.sticky c)).map some).zipIdx.filter fun p => p.1.any Record.isBase) = [] := by
        refine filter_eq_nil_iff.mpr fun p hp hbase => hany ?_
        obtain ⟨x, i⟩ := p
        obtain ⟨-, -, hget⟩ := mem_zipIdx hp
        exact any_eq_true.mpr ⟨x, hget ▸ getElem_mem _, hbase⟩
      rw [hnil]
      exact .inl rfl

variable {c : Nat}

/-- The temporary file does not count. -/
theorem Fits.temporary_lines (h : Fits d log m ret) {records : List Record} (hincr : Increasing records)
    (hpos : ∀ r ∈ records, 0 < r.seq) (hlines : linesOf d' (.temporary c) = records.map some)
    (hother : ∀ other, other ≠ .temporary c → linesOf d' other = linesOf d other) : Fits d' log m ret := by
  refine ⟨?_, fun name hname => ?_, fun c' => ?_, h.start, h.gone⟩
  · rw [hother .main (by simp)]
    exact h.main
  · rw [hother name (by rintro rfl; cases hname)]
    exact h.side name hname
  · by_cases heq : c' = c
    · subst heq
      exact ⟨records, hlines, hincr, hpos⟩
    · rw [hother (.temporary c') (by simpa using heq)]
      exact h.temporary c'

/-- A sticky document is cut at a record. -/
def Retention.cut (ret : Retention) (c seq : Nat) : Retention := { ret with start := update ret.start c seq }

variable {a rest : List Record}

theorem kept_cut {b : Record} (hkept : kept ret log (.sticky c) = a ++ b :: rest) :
    kept (ret.cut c b.seq) log (.sticky c) = b :: rest := by
  have hincr := kept_increasing ret log (.sticky c)
  have hstart : ret.start c ≤ b.seq := by
    have hmem : b ∈ kept ret log (.sticky c) := by
      rw [hkept]
      exact mem_append_right _ (.head _)
    exact of_decide_eq_true (mem_filter.mp hmem).2
  have hfilter : kept (ret.cut c b.seq) log (.sticky c) = (kept ret log (.sticky c)).filter fun r => b.seq ≤ r.seq := by
    unfold kept
    rw [List.filter_filter]
    refine List.filter_congr fun r _ => ?_
    change decide (update ret.start c b.seq c ≤ r.seq) = (decide (b.seq ≤ r.seq) && decide (ret.start c ≤ r.seq))
    rw [update_self, Bool.eq_iff_iff, Bool.and_eq_true, decide_eq_true_iff, decide_eq_true_iff]
    omega
  rw [hkept] at hincr hfilter
  obtain ⟨-, hrest, hbef⟩ := pairwise_append.mp hincr
  rw [hfilter, filter_append]
  have hnone : (a.filter fun r => b.seq ≤ r.seq) = [] := by
    refine filter_eq_nil_iff.mpr fun r hr => ?_
    have hlt := hbef r hr b (.head _)
    simp only [decide_eq_true_eq]
    omega
  have hall : ((b :: rest).filter fun r => b.seq ≤ r.seq) = b :: rest := by
    refine filter_eq_self.mpr fun r hr => decide_eq_true ?_
    rcases mem_cons.mp hr with rfl | hr
    · exact Nat.le_refl _
    · exact Nat.le_of_lt (rel_of_pairwise_cons hrest hr)
  rw [hnone, hall, nil_append]

/-- The file of a sticky document is replaced. -/
theorem Clean.cut (h : Clean d log m ret) {b : Record}
    (hkept : kept ret log (.sticky c) = a ++ b :: rest) (hbase : b.isBase) :
    Clean (runOps d [.rewrite c ((b :: rest).map some), .rename c]) log m (ret.cut c b.seq) := by
  have hrun : runOps d [.rewrite c ((b :: rest).map some), .rename c] =
      update (update (update d (.temporary c) (some ⟨(b :: rest).map some, false⟩)) (.sticky c) (some ⟨(b :: rest).map some, false⟩))
        (.temporary c) none := by
    change update (update (update d (.temporary c) _) (.sticky c) (update d (.temporary c) _ (.temporary c))) (.temporary c) none = _
    rw [update_self]
  rw [hrun]
  have hother : ∀ other, other ≠ .sticky c → other ≠ .temporary c →
      update (update (update d (.temporary c) (some ⟨(b :: rest).map some, false⟩)) (.sticky c) (some ⟨(b :: rest).map some, false⟩))
        (.temporary c) none other = d other := by
    intro other hstick htemp
    rw [update_of_ne htemp, update_of_ne hstick, update_of_ne htemp]
  have hstick : update (update (update d (.temporary c) (some ⟨(b :: rest).map some, false⟩)) (.sticky c) (some ⟨(b :: rest).map some, false⟩))
      (.temporary c) none (.sticky c) = some ⟨(b :: rest).map some, false⟩ := by
    rw [update_of_ne (by simp), update_self]
  have htemp : update (update (update d (.temporary c) (some ⟨(b :: rest).map some, false⟩)) (.sticky c)
      (some ⟨(b :: rest).map some, false⟩)) (.temporary c) none (.temporary c) = none := update_self ..
  generalize update (update (update d (.temporary c) (some ⟨(b :: rest).map some, false⟩)) (.sticky c) (some ⟨(b :: rest).map some, false⟩))
      (.temporary c) none = d' at hother hstick htemp ⊢
  have hlines : ∀ other, other ≠ .sticky c → other ≠ .temporary c → linesOf d' other = linesOf d other := by
    intro other hne hne'
    unfold linesOf
    rw [hother other hne hne']
  have hside : ∀ name, name.isSidecar → linesOf d' name = (kept (ret.cut c b.seq) log name).map some := by
    intro name hname
    by_cases heq : name = .sticky c
    · subst heq
      rw [kept_cut hkept]
      unfold linesOf
      rw [hstick]
      rfl
    · have hsame : kept (ret.cut c b.seq) log name = kept ret log name := by
        refine filter_congr fun r _ => ?_
        cases name with
        | sticky c' =>
          change decide (update ret.start c b.seq c' ≤ r.seq) = decide (ret.start c' ≤ r.seq)
          rw [update_of_ne fun hc => heq (by rw [hc])]
        | task | main | temporary => rfl
      rw [hsame, hlines name heq (by rintro rfl; cases hname)]
      exact h.side name hname
  refine ⟨⟨?_, fun name hname => ⟨[], ?_, .inl rfl⟩, fun c' => ?_, fun c' => ?_, h.fits.gone⟩, hside, fun name file hname hfile => ?_⟩
  · rw [hlines .main (by simp) (by simp)]
    exact h.fits.main
  · rw [hside name hname, append_nil]
  · by_cases heq : c' = c
    · subst heq
      refine ⟨[], ?_, .nil, fun r hr => by cases hr⟩
      unfold linesOf
      rw [htemp]
      rfl
    · rw [hlines (.temporary c') (by simp) (by simpa using heq)]
      exact h.fits.temporary c'
  · by_cases heq : c' = c
    · subst heq
      have hmem : b ∈ kept ret log (.sticky c') := by
        rw [hkept]
        exact mem_append_right _ (.head _)
      exact .inr ⟨b, (mem_filter.mp hmem).1, by simp [Retention.cut], hbase⟩
    · rw [show (ret.cut c b.seq).start c' = ret.start c' from update_of_ne heq ..]
      exact h.fits.start c'
  · by_cases heq : name = .sticky c
    · subst heq
      rw [hstick] at hfile
      obtain rfl := some.inj hfile
      rfl
    · rw [hother name heq (hname c)] at hfile
      exact h.whole name file hname hfile

theorem Clean.truncate (h : Clean d log m ret) (c : Nat) : ∃ ret', Clean (runOps d (truncateOps d c)) log m ret' := by
  rcases truncateOps_cases h c with hnil | ⟨a, b, rest, hkept, hbase, hops⟩
  · rw [hnil]
    exact ⟨ret, h⟩
  · rw [hops]
    exact ⟨_, h.cut hkept hbase⟩

/-! ## Processes that end -/

theorem Fits.of_lines (h : Fits d log m ret) (hlines : ∀ other, linesOf d' other = linesOf d other) : Fits d' log m ret := by
  refine ⟨?_, fun name hname => ?_, fun c => ?_, h.start, h.gone⟩
  · rw [hlines]
    exact h.main
  · rw [hlines]
    exact h.side name hname
  · rw [hlines]
    exact h.temporary c

variable {done : Nat}

/-- The process ends during a truncation. -/
theorem Clean.truncate_cut (h : Clean d log m ret) (hcut : CutOps d (truncateOps d c) done d') :
    ∃ ret', Fits d' log m ret' := by
  rcases truncateOps_cases h c with hnil | ⟨a, b, rest, hkept, hbase, hops⟩
  · rw [hnil] at hcut
    have hnone : ([] : List FileOp).drop done = [] := drop_nil
    unfold CutOps at hcut
    rw [hnone] at hcut
    obtain rfl := hcut
    exact ⟨ret, h.fits⟩
  · rw [hops] at hcut
    have hmem : ∀ r ∈ b :: rest, r ∈ kept ret log (.sticky c) := by
      intro r hr
      rw [hkept]
      exact mem_append_right _ hr
    have hincr : Increasing (b :: rest) := by
      have hall := kept_increasing ret log (.sticky c)
      rw [hkept] at hall
      exact (pairwise_append.mp hall).2.1
    have hpos : ∀ r ∈ b :: rest, 0 < r.seq := fun r hr => (kept_bounds (hmem r hr)).1
    match done with
    | 0 =>
      refine ⟨ret, ?_⟩
      cases (hcut : FileOp.Cut d (.rewrite c ((b :: rest).map some)) d') with
      | before => exact h.fits
      | rewriting _ n torn _ =>
        refine h.fits.temporary_lines (c := c) (hincr.sublist (take_sublist n _)) (fun r hr => hpos r (mem_of_mem_take hr)) ?_
          fun other hne => linesOf_update_of_ne hne _
        unfold linesOf
        rw [update_self, map_take]
        rfl
    | 1 =>
      refine ⟨ret, ?_⟩
      cases (hcut : FileOp.Cut (runOps d [.rewrite c ((b :: rest).map some)]) (.rename c) d') with
      | before =>
        refine h.fits.temporary_lines (c := c) hincr hpos ?_ fun other hne => linesOf_update_of_ne hne _
        change (update d (.temporary c) (some ⟨(b :: rest).map some, false⟩) (.temporary c)).elim [] File.lines = _
        rw [update_self]
        rfl
    | done + 2 =>
      have hcut : d' = runOps d [.rewrite c ((b :: rest).map some), .rename c] := by simpa [CutOps] using hcut
      rw [hcut]
      exact ⟨_, (h.cut hkept hbase).fits⟩

theorem drop_after {α : Type} (a : List α) (x : α) (b : List α) (j : Nat) :
    (a ++ x :: b).drop (a.length + (j + 1)) = b.drop j ∧ (a ++ x :: b).take (a.length + (j + 1)) = a ++ x :: b.take j := by
  induction a with
  | nil => exact ⟨by rw [length_nil, Nat.zero_add]; rfl, by rw [length_nil, Nat.zero_add]; rfl⟩
  | cons y a ih =>
    obtain ⟨hdrop, htake⟩ := ih
    rw [length_cons, Nat.add_right_comm a.length 1 (j + 1)]
    exact ⟨hdrop, congrArg (y :: ·) htake⟩

variable {mm : MemoryStorage}

theorem commitOps_eq (hseq : mm.seq = log.length) :
    commitOps mm writes = ((sidecars writes).map fun name => .append name (sidecarRecord (log.length + 1) (nextIdAfter mm writes) writes name)) ++
      .append .main (mainRecord (log.length + 1) (nextIdAfter mm writes) writes) :: (retired writes).map fun id => .unlink (.task id) := by
  unfold commitOps
  rw [hseq]

/-- The process ends during a commit, before it is published. -/
theorem Clean.commit_before (h : Clean d log m ret) (hseq : mm.seq = log.length)
    (hcut : CutOps d (commitOps mm writes) done d') (hdone : done ≤ (sidecars writes).length) : Fits d' log m ret := by
  rw [commitOps_eq hseq] at hcut
  unfold CutOps at hcut
  rw [drop_append_of_le_length (by rwa [length_map]), take_append_of_le_length (by rwa [length_map]), ← map_take] at hcut
  refine h.before (sidecarRecord (log.length + 1) (nextIdAfter mm writes) writes)
    ((take_sublist done _).nodup (sidecars_nodup writes)) (fun name hname => isSidecar_of_mem (mem_of_mem_take hname))
    (fun _ => rfl) fun other => ?_
  split at hcut
  · rename_i hnil
    simp at hnil
  · rename_i op rest hops
    refine cut_lines hcut ?_ other
    rintro c lines rfl
    rw [← map_drop] at hops
    cases hrest : (sidecars writes).drop done with
    | nil | cons =>
      rw [hrest] at hops
      cases hops

/-- The process ends during a commit that has been published. -/
theorem Clean.commit_after (h : Clean d log m ret) (hseq : mm.seq = log.length)
    (hcut : CutOps d (commitOps mm writes) done d') (hdone : (sidecars writes).length < done)
    (hcommit : m.commit writes = .ok m') (htransacted : Transacted m writes) (hseparate : Separate writes) :
    ∃ ret', Fits d' (log ++ [⟨nextIdAfter mm writes, writes⟩]) m' ret' := by
  obtain ⟨j, rfl⟩ : ∃ j, done = (sidecars writes).length + 1 + j := ⟨done - ((sidecars writes).length + 1), by omega⟩
  have hids : ∀ id ∈ (retired writes).take j, id ∈ retired writes := fun id hid => mem_of_mem_take hid
  have hclean := h.published (p := ⟨nextIdAfter mm writes, writes⟩) hcommit htransacted hseparate hids
  refine ⟨_, hclean.fits.of_lines fun other => ?_⟩
  rw [commitOps_eq hseq] at hcut
  generalize hA : ((sidecars writes).map fun name => FileOp.append name
    (sidecarRecord (log.length + 1) (nextIdAfter mm writes) writes name)) = A at hcut ⊢
  have hlen : A.length = (sidecars writes).length := by rw [← hA, length_map]
  rw [← hlen, Nat.add_assoc, Nat.add_comm 1 j] at hcut
  unfold CutOps at hcut
  rw [(drop_after A _ _ j).1, (drop_after A _ _ j).2, ← map_take, ← map_drop] at hcut
  cases hrest : (retired writes).drop j with
  | nil =>
    rw [hrest] at hcut
    have htake : (retired writes).take j = retired writes := by
      have hsplit := take_append_drop j (retired writes)
      rwa [hrest, append_nil] at hsplit
    rw [htake]
    exact congrArg (linesOf · other) hcut
  | cons id ids =>
    rw [hrest] at hcut
    exact cut_lines hcut (by simp) other

/-! ## Sessions with files -/

/-- A session, the files of its storage, and the batches that have been published. -/
structure Store where
  session : Session
  disk : Disk
  log : List Published

/-- A transaction of a session, up to where it is stored. -/
def Session.transaction (s : Session) (invoker : Invoker) (closing : Bool) (ops : List TxOp) : Except TxError Tx := do
  assertAuthority s invoker
  (Tx.start s invoker closing).run s ops

/-- The storage of a session after a transaction has minted ids. -/
def Session.minted (s : Session) (tx : Tx) : MemoryStorage := { s.storage with nextIdValue := tx.nextIdValue }

def Session.published (s : Session) (tx : Tx) : Published := ⟨nextIdAfter (s.minted tx) tx.writes, tx.writes⟩

/-- What the operations of a batch on the session document lead to. -/
def sessionWrite (doc : Option Json) : Write → Except DeltaError (Option Json)
  | .doc .session ops => Delta.applyImmutable (some (doc.getD MemoryStorage.emptySession)) ops
  | _ => .ok doc

/-- A batch that can be read back: no task has both a terminal patch and another one, the terminal patch of a marked task
has the mark, and the operations on the session document can be applied. -/
structure Recoverable (m : MemoryStorage) (writes : List Write) : Prop where
  separate : Separate writes
  carries : CarriesMark m writes
  applies : (writes.foldlM sessionWrite m.sessionDoc).isOk

/-- What a process leaves: files, and the batches whose main record is complete. -/
inductive Crash (P : MemoryStorage → List Write → Prop) (w : Store) : Disk → List Published → Prop
  | idle : Crash P w w.disk w.log
  | commit {invoker : Invoker} {closing : Bool} {ops : List TxOp} {tx : Tx} {done : Nat} {d : Disk}
      (htx : w.session.transaction invoker closing ops = .ok tx) (hP : P (w.session.minted tx) tx.writes)
      (hstage : ((w.session.minted tx).stage tx.writes).isOk) (hcut : CutOps w.disk (commitOps (w.session.minted tx) tx.writes) done d) :
      Crash P w d (if done ≤ (sidecars tx.writes).length then w.log else w.log ++ [w.session.published tx])
  | truncate {c done : Nat} {d : Disk} (hcut : CutOps w.disk (truncateOps w.disk c) done d) : Crash P w d w.log

/-- The steps of a session whose batches satisfy `P`. -/
inductive StoreStep (P : MemoryStorage → List Write → Prop) : Store → Store → Prop
  | commit {w : Store} {invoker : Invoker} {closing : Bool} {ops : List TxOp} {tx : Tx} {m : MemoryStorage}
      (htx : w.session.transaction invoker closing ops = .ok tx) (hP : P (w.session.minted tx) tx.writes)
      (hcommit : (w.session.minted tx).commit tx.writes = .ok m) :
      StoreStep P w ⟨applyChanges { w.session with storage := m } tx, runOps w.disk (commitOps (w.session.minted tx) tx.writes),
        w.log ++ [w.session.published tx]⟩
  /-- A transaction that is not stored has minted ids. -/
  | minted {w : Store} (n : Nat) (hn : w.session.storage.nextIdValue ≤ n) :
      StoreStep P w { w with session := { w.session with storage := { w.session.storage with nextIdValue := n } } }
  | truncate {w : Store} (c : Nat) :
      StoreStep P w ⟨{ w.session with storage := w.session.storage.truncate (.sticky c) }, runOps w.disk (truncateOps w.disk c), w.log⟩
  /-- The process ends, and the files are opened again. -/
  | reopen {w : Store} {d d' : Disk} {log : List Published} {order : List FileName} {m : MemoryStorage} (hcrash : Crash P w d log)
      (hlists : Lists order d) (hopen : openStorage d order = .ok (m, d')) (kinds : List String) :
      StoreStep P w ⟨Session.init m kinds, d', log⟩

def Store.init (kinds : List String) : Store := ⟨Session.init .empty kinds, fun _ => none, []⟩

/-- The states of a session with files from its first opening on. -/
def IsStore (P : MemoryStorage → List Write → Prop) (w : Store) : Prop :=
  ∃ kinds, Relation.ReflTransGen (StoreStep P) (Store.init kinds) w

/-- The storage that batches lead to, applied in order. -/
def memoryOf (log : List Published) : Except StorageError MemoryStorage := log.foldlM (fun m p => m.commit p.writes) .empty

/-! ## The invariant -/

/-- The log leads to the tables of the session, the files are clean, and the live tasks are those of the storage. -/
def StoreInv (w : Store) : Prop :=
  ∃ m ret, LogOk w.log m ∧ Clean w.disk w.log m ret ∧ SameTables w.session.storage m ∧ LiveStatus w.session

theorem foldlM_applies (seq : Nat) (h : (writes.foldlM sessionWrite m.sessionDoc).isOk) :
    ∃ m', writes.foldlM (applyWrite seq) m = .ok m' := by
  induction writes generalizing m with
  | nil => exact ⟨m, rfl⟩
  | cons w writes ih =>
    rw [foldlM_cons] at h ⊢
    have hother : ∀ m₁ : MemoryStorage, applyWrite seq m w = .ok m₁ → sessionWrite m.sessionDoc w = .ok m₁.sessionDoc →
        ∃ m', (applyWrite seq m w >>= fun m₁ => writes.foldlM (applyWrite seq) m₁) = .ok m' := by
      intro m₁ hw hdoc
      rw [hdoc] at h
      rw [hw]
      exact ih h
    cases w with
    | doc ref ops =>
      cases ref with
      | session =>
        cases hdoc : Delta.applyImmutable (some (m.sessionDoc.getD MemoryStorage.emptySession)) ops with
        | ok doc =>
          refine hother { m with sessionDoc := doc } ?_ hdoc
          unfold applyWrite
          dsimp only
          rw [hdoc]
          rfl
        | error e =>
          rw [show sessionWrite m.sessionDoc (.doc .session ops) = .error e from hdoc] at h
          cases h
      | rewindable | sticky => exact hother _ rfl rfl
    | _ => exact hother _ rfl rfl

/-- A batch that is accepted is committed if the session document's operations can be applied. -/
theorem commit_applies (hstage : (m.stage writes).isOk) (h : (writes.foldlM sessionWrite m.sessionDoc).isOk) :
    ∃ m', m.commit writes = .ok m' := by
  unfold MemoryStorage.commit
  cases hmade : m.stage writes with
  | error e =>
    rw [hmade] at hstage
    cases hstage
  | ok created =>
    obtain ⟨m', hm'⟩ := foldlM_applies (m.seq + 1) h
    rw [hm']
    exact ⟨_, rfl⟩

theorem Transacted.congr (h : Transacted m' writes) (htasks : m'.tasksById = m.tasksById) : Transacted m writes :=
  ⟨htasks ▸ h.created, h.ordered, htasks ▸ h.live, h.mark, h.complete⟩

theorem CarriesMark.congr (h : CarriesMark m' writes) (htasks : m'.tasksById = m.tasksById) : CarriesMark m writes := by
  unfold CarriesMark at h ⊢
  rw [← htasks]
  exact h

section Steps

variable {w w' : Store}

variable {invoker : Invoker} {ops : List TxOp} {closing : Bool}

variable {tx : Tx}

theorem transaction_written (hs : LiveStatus w.session)
    (htx : w.session.transaction invoker closing ops = .ok tx) : Written w.session tx := by
  obtain ⟨_, -, hrun⟩ := bind_ok.mp htx
  exact (written_start hs invoker closing).run hs hrun

theorem SameTables.minted {s : Session} (h : SameTables s.storage m) (tx : Tx) : SameTables (s.minted tx) m :=
  ⟨h.base, h.seq, h.tasks, h.sticky⟩

/-- The log after a batch. -/
theorem LogOk.commit (hlog : LogOk w.log m) (hsame : SameTables w.session.storage m)
    (hwrit : Written w.session tx) (hP : Recoverable (w.session.minted tx) tx.writes) {m₁' : MemoryStorage}
    (hcommit : (w.session.minted tx).commit tx.writes = .ok m₁') :
    Transacted m tx.writes ∧ ∃ m₁, m.commit tx.writes = .ok m₁ ∧ LogOk (w.log ++ [w.session.published tx]) m₁ ∧ SameTables m₁' m₁ := by
  have htransacted : Transacted m tx.writes := hwrit.transacted.congr hsame.tasks
  obtain ⟨m₁, hcommit', hsame'⟩ := (hsame.minted tx).commit hcommit
  have hcarries : CarriesMark m tx.writes := hP.carries.congr hsame.tasks
  exact ⟨htransacted, m₁, hcommit', .concat hlog hcommit' htransacted hP.separate hcarries, hsame'⟩

theorem LiveStatus.commit (hs : LiveStatus w.session) (hwrit : Written w.session tx)
    (hcommit : (w.session.minted tx).commit tx.writes = .ok m) : LiveStatus (applyChanges { w.session with storage := m } tx) := by
  have hminted : Minted (w.session.minted tx) := fun id r hr =>
    ⟨(hs.minted id r hr).1, (hs.minted id r hr).2.trans_le hwrit.next⟩
  rw [applyChanges_storage]
  refine ⟨fun id => ?_, hminted.commit hcommit⟩
  rw [(commit_slots hcommit).1]
  exact hwrit.live id

theorem liveStatus_init (hminted : Minted m) (kinds : List String) : LiveStatus (Session.init m kinds) := by
  refine ⟨fun id => ?_, hminted⟩
  have hget : liveTask (Session.init m kinds) id = (m.tasksById id).filter Live := get_range Task.id hminted Live id
  rw [hget]
  change _ = ((m.tasksById id).map Task.status).filter _
  cases m.tasksById id with
  | none => rfl
  | some t =>
    by_cases hterm : t.status = .terminal
    · simp [Option.filter, Live, hterm]
    · simp [Option.filter, Live, hterm]

/-- What a process leaves fits the batches that it has published. -/
theorem Crash.fits (h : StoreInv w) (hcrash : Crash Recoverable w d log) :
    ∃ m ret, LogOk log m ∧ Fits d log m ret := by
  obtain ⟨m, ret, hlog, hclean, hsame, hs⟩ := h
  cases hcrash with
  | idle => exact ⟨m, ret, hlog, hclean.fits⟩
  | truncate hcut =>
    obtain ⟨ret', hfits⟩ := hclean.truncate_cut hcut
    exact ⟨m, ret', hlog, hfits⟩
  | @commit _ _ _ tx done _ htx hP hstage hcut =>
    have hseq : (w.session.minted tx).seq = w.log.length := hsame.seq.symm.trans hlog.seq
    split
    · rename_i hdone
      exact ⟨m, ret, hlog, hclean.commit_before hseq hcut hdone⟩
    · rename_i hdone
      obtain ⟨m₁', hcommit⟩ := commit_applies hstage hP.applies
      obtain ⟨htransacted, m₁, hcommit', hlog', -⟩ := hlog.commit hsame (transaction_written hs htx) hP hcommit
      obtain ⟨ret', hfits⟩ := hclean.commit_after hseq hcut (Nat.lt_of_not_le hdone) hcommit' htransacted hP.separate
      exact ⟨m₁, ret', hlog', hfits⟩

theorem StoreInv.step (h : StoreInv w) (hstep : StoreStep Recoverable w w') : StoreInv w' := by
  cases hstep with
  | @commit _ _ _ tx m' htx hP hcommit =>
    obtain ⟨m, ret, hlog, hclean, hsame, hs⟩ := h
    have hwrit := transaction_written hs htx
    have hseq : (w.session.minted tx).seq = w.log.length := hsame.seq.symm.trans hlog.seq
    obtain ⟨htransacted, m₁, hcommit', hlog', hsame'⟩ := hlog.commit hsame hwrit hP hcommit
    have hids : ∀ id ∈ retired tx.writes, id ∈ retired tx.writes := fun _ hid => hid
    have hdisk := hclean.published (p := w.session.published tx) hcommit' htransacted hP.separate hids
    refine ⟨m₁, ret.drop (retired tx.writes), hlog', ?_, ?_, hs.commit hwrit hcommit⟩
    · dsimp only
      rw [commitOps_eq hseq]
      exact hdisk
    · rw [applyChanges_storage]
      exact hsame'
  | minted n hn =>
    obtain ⟨m, ret, hlog, hclean, hsame, hs⟩ := h
    refine ⟨m, ret, hlog, hclean, ⟨hsame.base, hsame.seq, hsame.tasks, hsame.sticky⟩, hs.live, fun id r hr => ?_⟩
    exact ⟨(hs.minted id r hr).1, (hs.minted id r hr).2.trans_le hn⟩
  | truncate c =>
    obtain ⟨m, ret, hlog, hclean, hsame, hs⟩ := h
    obtain ⟨ret', hclean'⟩ := hclean.truncate c
    exact ⟨m, ret', hlog, hclean', hsame.truncate c, hs.live, hs.minted⟩
  | reopen hcrash hlists hopen kinds =>
    obtain ⟨m, ret, hlog, hfits⟩ := hcrash.fits h
    obtain ⟨m₁, d₁, hopen', hsame, hminted, ret', hclean⟩ := hfits.open hlog hlists
    obtain ⟨rfl, rfl⟩ := Prod.mk.inj (Except.ok.inj (hopen.symm.trans hopen'))
    exact ⟨m, ret', hlog, hclean, hsame, liveStatus_init hminted kinds⟩

theorem storeInv_init (kinds : List String) : StoreInv (Store.init kinds) := by
  refine ⟨.empty, ⟨fun _ => 0, fun _ => false⟩, .nil, ⟨⟨rfl, fun name _ => ⟨[], rfl, .inl rfl⟩, fun c => ⟨[], rfl, .nil, fun r hr => by cases hr⟩,
    fun c => .inl rfl, fun id hgone => by cases hgone⟩, fun name _ => rfl, fun name file _ hfile => by cases hfile⟩,
    ⟨rfl, rfl, rfl, fun c => rfl⟩, liveStatus_init (fun id r hr => by cases hr) kinds⟩

theorem IsStore.inv (h : IsStore Recoverable w) : StoreInv w := by
  obtain ⟨kinds, hrun⟩ := h
  induction hrun with
  | refl => exact storeInv_init kinds
  | tail _ hstep ih => exact ih.step hstep

theorem LogOk.memoryOf (h : LogOk log m) : Pico.memoryOf log = .ok m := by
  induction h with
  | nil => rfl
  | concat _ hcommit _ _ _ ih =>
    unfold Pico.memoryOf at ih ⊢
    rw [foldlM_append, ih]
    simp only [foldlM_cons, foldlM_nil, hcommit, Except.bind, bind]
    rfl

theorem SameTables.eq (h : SameTables m' m) : m' = { m with stickyLog := m'.stickyLog, nextIdValue := m'.nextIdValue } := by
  obtain ⟨hbase, hseq, htasks, -⟩ := h
  cases m
  cases m'
  obtain ⟨rfl, rfl, rfl, -, rfl, rfl, rfl, -, rfl, rfl, -⟩ := hbase
  dsimp only at hseq htasks
  rw [hseq, htasks]

/-- In a session whose batches can be read back, whatever a process leaves can be opened. The tables and documents are those
that the batches with a complete main record lead to. -/
theorem recovered_of_recoverable (h : IsStore Recoverable w) (hcrash : Crash Recoverable w d log) (hlists : Lists order d) :
    ∃ m m' d', linesOf d .main = (mainFrom 0 log).map some ∧ memoryOf log = .ok m ∧ openStorage d order = .ok (m', d') ∧
      m' = { m with stickyLog := m'.stickyLog, nextIdValue := m'.nextIdValue } ∧ ∀ ref, m'.doc ref = m.doc ref := by
  obtain ⟨m, ret, hlog, hfits⟩ := hcrash.fits h.inv
  obtain ⟨m', d', hopen, hsame, -⟩ := hfits.open hlog hlists
  exact ⟨m, m', d', hfits.main, hlog.memoryOf, hopen, hsame.eq, hsame.doc⟩

/-! ### A task of a session with files -/

/-- The files that an operation may leave. -/
def FileOp.names : FileOp → List FileName
  | .append name _ => [name]
  | .rewrite c _ => [.temporary c]
  | .rename c => [.sticky c]
  | .unlink _ => []

variable {names : List FileName}

theorem run_names {op : FileOp} (h : ∀ name, (d name).isSome → name ∈ names) :
    ∀ name, (op.run d name).isSome → name ∈ names ++ op.names := by
  have hupd : ∀ {d : Disk} {name : FileName} {file : Option File} {names : List FileName}, (∀ name, (d name).isSome → name ∈ names) →
      (file.isSome → name ∈ names) → ∀ other, (update d name file other).isSome → other ∈ names := by
    intro d name file names h hfile other hother
    by_cases heq : other = name
    · subst heq
      rw [update_self] at hother
      exact hfile hother
    · rw [update_of_ne heq] at hother
      exact h other hother
  have hmore : ∀ more name, (d name).isSome → name ∈ names ++ more := fun more name hname => mem_append_left _ (h name hname)
  cases op with
  | append | rewrite => exact hupd (hmore _) fun _ => mem_append_right _ (.head _)
  | rename c => exact hupd (hupd (hmore _) fun _ => mem_append_right _ (.head _)) fun hnone => by cases hnone
  | unlink name => exact hupd (hmore _) fun hnone => by cases hnone

theorem runOps_names {ops : List FileOp} (h : ∀ name, (d name).isSome → name ∈ names) :
    ∀ name, (runOps d ops name).isSome → name ∈ names ++ ops.flatMap FileOp.names := by
  induction ops generalizing d names with
  | nil =>
    intro name hname
    rw [flatMap_nil, append_nil]
    exact h name hname
  | cons op ops ih =>
    intro name hname
    have hmem := ih (run_names h) name hname
    rwa [append_assoc] at hmem

theorem lists_of_names (h : ∀ name, (d name).isSome → name ∈ names) (hnodup : order.Nodup)
    (hcheck : ∀ name ∈ names ++ order, name ∈ order ↔ name ≠ .main ∧ (d name).isSome) : Lists order d := by
  refine ⟨hnodup, fun name => ⟨fun hmem => ?_, fun hname => ?_⟩⟩
  · exact (hcheck name (mem_append_right _ hmem)).mp hmem
  · exact (hcheck name (mem_append_left _ (h name hname.2))).mpr hname

/-- The file operations of a transaction, none if it is not stored. -/
def Store.opsOf (w : Store) (invoker : Invoker) (closing : Bool) (ops : List TxOp) : List FileOp :=
  match w.session.transaction invoker closing ops with
  | .error _ => []
  | .ok tx =>
    match (w.session.minted tx).commit tx.writes with
    | .error _ => []
    | .ok _ => commitOps (w.session.minted tx) tx.writes

/-- The session after a transaction. -/
def Store.after (w : Store) (invoker : Invoker) (closing : Bool) (ops : List TxOp) : Store :=
  match w.session.transaction invoker closing ops with
  | .error _ => w
  | .ok tx =>
    match (w.session.minted tx).commit tx.writes with
    | .error _ => w
    | .ok m => ⟨applyChanges { w.session with storage := m } tx, runOps w.disk (commitOps (w.session.minted tx) tx.writes),
        w.log ++ [w.session.published tx]⟩

theorem after_disk (w : Store) (invoker : Invoker) (closing : Bool) (ops : List TxOp) :
    (w.after invoker closing ops).disk = runOps w.disk (w.opsOf invoker closing ops) := by
  unfold Store.after Store.opsOf
  split
  · rfl
  · split <;> rfl

theorem after_names (h : ∀ name, (w.disk name).isSome → name ∈ names)
    (hops : ∀ name ∈ (w.opsOf invoker closing ops).flatMap FileOp.names, name ∈ names) :
    ∀ name, ((w.after invoker closing ops).disk name).isSome → name ∈ names := by
  intro name hname
  rw [after_disk] at hname
  rcases mem_append.mp (runOps_names h name hname) with hmem | hmem
  · exact hmem
  · exact hops name hmem

theorem isStore_after {P : MemoryStorage → List Write → Prop} (h : IsStore P w)
    (hP : ∀ tx, w.session.transaction invoker closing ops = .ok tx → P (w.session.minted tx) tx.writes) :
    IsStore P (w.after invoker closing ops) := by
  obtain ⟨kinds, hrun⟩ := h
  unfold Store.after
  split
  · exact ⟨kinds, hrun⟩
  · rename_i tx htx
    split
    · exact ⟨kinds, hrun⟩
    · rename_i m hcommit
      exact ⟨kinds, hrun.tail (.commit htx (hP tx htx) hcommit)⟩

/-- A batch without terminal patches and without operations on the session document. -/
def unended (writes : List Write) : Bool := writes.all fun
    | .taskPatch p => p.status ≠ some .terminal
    | .doc .session _ => false
    | _ => true

theorem foldlM_sessionWrite (h : unended writes) : ∀ doc, writes.foldlM sessionWrite doc = .ok doc := by
  induction writes with
  | nil => exact fun doc => rfl
  | cons w writes ih =>
    intro doc
    rw [unended, all_cons, Bool.and_eq_true] at h
    have hw : sessionWrite doc w = .ok doc := by
      match w, h.1 with
      | .doc (.rewindable _) _, _ | .doc (.sticky _) _, _ | .conversation _, _ | .entry _, _ | .task _, _ | .taskPatch _, _
      | .input _, _ => rfl
    rw [foldlM_cons, hw]
    exact ih h.2 doc

theorem unended_recoverable (h : unended writes) : Recoverable m writes := by
  have hpatch : ∀ p, .taskPatch p ∈ writes → p.status ≠ some .terminal := by
    intro p hp
    simpa using all_eq_true.mp h _ hp
  refine ⟨fun p q hp _ _ hterm => absurd hterm (hpatch p hp), fun p hp hterm => absurd hterm (hpatch p hp), ?_⟩
  rw [foldlM_sessionWrite h]
  rfl

/-- A session in which a job is asked for. -/
def jobAsked : Store := (Store.init ["job"]).after .kernel false
    [.createConversation {}, .createTask true { kind := "job", conversationId := some 1, input := .null }]

def jobStarted : Store := jobAsked.after .kernel false [.setTask .live 2 .running]

/-- The job creates a conversation in the transaction that ends it. -/
def jobEnded : Store :=
  jobStarted.after (.task 2 1 false .run) true [.createConversation {}, .setTask .task 2 (.terminal (.completed .null))]

theorem isStore_jobAsked : IsStore Recoverable jobAsked := by
  refine isStore_after ⟨["job"], .refl⟩ fun tx htx => unended_recoverable ?_
  have hcheck : (((Store.init ["job"]).session.transaction .kernel false
      [.createConversation {}, .createTask true { kind := "job", conversationId := some 1, input := .null }]).map
        fun tx => unended tx.writes).toOption = some true := by decide
  rw [htx] at hcheck
  exact some.inj hcheck

theorem jobAsked_names : ∀ name, (jobAsked.disk name).isSome → name ∈ [.main, .sticky 1, .task 2, .sticky 3] :=
  after_names (fun name hname => by cases hname) (by decide)

theorem jobStarted_names : ∀ name, (jobStarted.disk name).isSome → name ∈ [.main, .sticky 1, .task 2, .sticky 3] :=
  after_names jobAsked_names (by decide)

def jobStart : List FileOp := jobAsked.opsOf .kernel false [.setTask .live 2 .running]

/-- The files when the process ends while it appends the main record with which the job starts: the record of the job is there. -/
def jobCut : Disk :=
  let d := runOps jobAsked.disk (jobStart.take 1)
  Function.update d .main (some { (d .main).getD ⟨[], false⟩ with torn := true })

theorem jobCut_names : ∀ name, (jobCut name).isSome → name ∈ [.main, .sticky 1, .task 2, .sticky 3] := by
  intro name hname
  by_cases hmain : name = .main
  · subst hmain
    decide
  · have hops : ∀ name ∈ (jobStart.take 1).flatMap FileOp.names, name ∈ [.main, .sticky 1, .task 2, .sticky 3] := by decide
    unfold jobCut at hname
    rw [Function.update_of_ne hmain] at hname
    rcases mem_append.mp (runOps_names jobAsked_names name hname) with hmem | hmem
    · exact hmem
    · exact hops name hmem

theorem jobCut_crash : Crash Recoverable jobAsked jobCut jobAsked.log := by
  have hcheck : ((jobAsked.session.transaction .kernel false [.setTask .live 2 .running]).map fun tx =>
      (unended tx.writes, ((jobAsked.session.minted tx).stage tx.writes).isOk,
        ((jobAsked.session.minted tx).commit tx.writes).isOk, (sidecars tx.writes).length)).toOption = some (true, true, true, 1) := by
    decide
  obtain ⟨record, rest, hdrop⟩ : ∃ record rest, jobStart.drop 1 = .append .main record :: rest := ⟨_, _, rfl⟩
  cases htx : jobAsked.session.transaction .kernel false [.setTask .live 2 .running] with
  | error e =>
    rw [htx] at hcheck
    cases hcheck
  | ok tx =>
    rw [htx] at hcheck
    obtain ⟨hunended, hrest⟩ := Prod.mk.inj (some.inj hcheck)
    obtain ⟨hstage, hrest⟩ := Prod.mk.inj hrest
    obtain ⟨hcommit, hone⟩ := Prod.mk.inj hrest
    have hops : jobStart = commitOps (jobAsked.session.minted tx) tx.writes := by
      unfold jobStart Store.opsOf
      rw [htx]
      dsimp only
      split
      · rename_i hfail
        rw [hfail] at hcommit
        cases hcommit
      · rfl
    have hcut : CutOps jobAsked.disk (commitOps (jobAsked.session.minted tx) tx.writes) 1 jobCut := by
      unfold CutOps
      rw [← hops, hdrop]
      exact .torn .main record
    have hcrash := Crash.commit htx (unended_recoverable hunended) hstage hcut
    rwa [if_pos hone.ge] at hcrash

theorem recovered_of_recoverable_cut :
    ∃ m m' d', linesOf jobCut .main = (mainFrom 0 jobAsked.log).map some ∧ memoryOf jobAsked.log = .ok m ∧
      openStorage jobCut [.sticky 1, .task 2] = .ok (m', d') ∧
      m' = { m with stickyLog := m'.stickyLog, nextIdValue := m'.nextIdValue } ∧ ∀ ref, m'.doc ref = m.doc ref :=
  recovered_of_recoverable isStore_jobAsked jobCut_crash (lists_of_names jobCut_names (by decide) (by decide))

def errorOf {ε α : Type} : Except ε α → Option ε
  | .error e => some e
  | .ok _ => none

/-- The file of the job is gone, and its patch that is not terminal is missing. -/
theorem ended_unopened :
    IsStore (fun _ _ => True) jobEnded ∧ Lists [.sticky 1, .sticky 3] jobEnded.disk ∧ Crash (fun _ _ => True) jobEnded jobEnded.disk jobEnded.log ∧
      (memoryOf jobEnded.log).isOk ∧ openStorage jobEnded.disk [.sticky 1, .sticky 3] = .error (.missing (.task 2) 3) := by
  have hstore : IsStore (fun _ _ => True) jobEnded :=
    isStore_after (isStore_after (isStore_after ⟨["job"], .refl⟩ fun _ _ => trivial) fun _ _ => trivial) fun _ _ => trivial
  have hnames : ∀ name, (jobEnded.disk name).isSome → name ∈ [.main, .sticky 1, .task 2, .sticky 3] :=
    after_names jobStarted_names (by decide)
  refine ⟨hstore, lists_of_names hnames (by decide) (by decide), .idle, by decide, ?_⟩
  have herror : errorOf (openStorage jobEnded.disk [.sticky 1, .sticky 3]) = some (.missing (.task 2) 3) := by decide
  cases hopen : openStorage jobEnded.disk [.sticky 1, .sticky 3] with
  | error e =>
    rw [hopen] at herror
    exact congrArg _ (Option.some.inj herror)
  | ok r =>
    rw [hopen] at herror
    cases herror

end Steps

end Shuvpi.Pico
