import Shuvpi.DeltaDoc

/-!
# Batches that turn one value into another

`Emits path before after ops` says of a batch that it is valid as soon as its path is,
and that in a document with `before` at the path it has the effect of putting `after`
there. Such batches compose, and a batch for a child is a batch for its container, so
every diff of the program is justified case by case. The string case rests on
`overlap`, which is embedded here with the search it makes.
-/
namespace Shuvpi.Delta

open DataTree

structure Emits (path : Path) (before after : Doc) (ops : List Op) : Prop where
  valid : assertSafePath path = .ok () → ∀ op ∈ ops, assertValidOp op = .ok ()
  meaning : ∀ x, look path x = some before → edits ops x = alter path (overwrite (some after)) x

namespace Emits

variable {path : Path} {before after : Doc}

variable {ops : List Op}

/-- What the batch leaves behind. -/
theorem result (h : Emits path before after ops) {x : Option Doc}
    (hx : look path x = some before) :
    ∃ y, edits ops x = some y ∧ alter path (overwrite (some after)) x = some y ∧ look path y = some after := by
  obtain ⟨y, hy, hlook⟩ := alter_of_look (f := overwrite (some after)) hx rfl
  exact ⟨y, by rw [h.meaning x hx, hy], hy, hlook⟩

theorem nil (path : Path) (value : Doc) : Emits path value value [] where
  valid := by intro _ op hop; cases hop
  meaning := by
    intro x hx
    obtain ⟨y, hy, _⟩ := alter_of_look (f := overwrite (some value)) hx rfl
    have hback := overwrite_look hy
    rw [hx] at hback
    have hsame := alter_overwritten hy hback
    rw [hsame]
    rfl

theorem trans {middle : Doc} {ops' : List Op} (h : Emits path before middle ops)
    (h' : Emits path middle after ops') : Emits path before after (ops ++ ops') where
  valid := by
    intro hsafe op hop
    rcases List.mem_append.mp hop with hop | hop
    · exact h.valid hsafe op hop
    · exact h'.valid hsafe op hop
  meaning := by
    intro x hx
    obtain ⟨y, hy, hover, hlook⟩ := h.result hx
    obtain ⟨z, hz, hover', _⟩ := h'.result hlook
    rw [edits_append_some hy hz, alter_overwritten hover hover']

/-- A batch for a child of a container. -/
theorem child {seg : Seg} {c c' : Doc} (hseg : seg.reserved = false)
    (h : Emits (path ++ [seg]) c c' ops) (hchild : before.child seg = some c)
    (hafter : alterChild seg (overwrite (some c')) before = some after) : Emits path before after ops where
  valid := by
    intro hsafe
    apply h.valid
    rw [assertSafePath_append]
    exact ⟨hsafe, by simp [assertSafePath, hseg]⟩
  meaning := by
    intro x hx
    have hlook : look (path ++ [seg]) x = some c := by
      rw [look_append, hx]
      exact hchild
    obtain ⟨y, hy, hover, _⟩ := h.result hlook
    rw [hy]
    rw [alter_append] at hover
    symm
    apply alter_congr hover
    intro z hz
    rw [hx] at hz ⊢
    simp only [alter, Option.bind_some, hafter, Option.map_some, Option.some.injEq] at hz
    rw [← hz]
    rfl

theorem single {op : Op} (hpath : op.path = path) (hval : assertSafePath path = .ok () → assertValidOp op = .ok ())
    (h : op.contentEdit (some before) = some (some after)) : Emits path before after [op] where
  valid := by
    intro hsafe op' hop'
    rw [List.mem_singleton] at hop'
    rw [hop']
    exact hval hsafe
  meaning := by
    intro x hx
    obtain ⟨y, hy, _⟩ := alter_of_look hx h
    rw [edits_single, Op.edit, hpath, hy]
    symm
    apply alter_congr hy
    intro z hz
    rw [hx, h] at hz
    cases hz
    rfl

end Emits

/-! ## Single operations -/

section Single

variable {path : Path} (hpath : path ≠ [])
include hpath

theorem validAt {op : Op} (hop : op.path = path) (hm : ∀ path order, op ≠ .m path order)
    (hsafe : assertSafePath path = .ok ()) : assertValidOp op = .ok () := by
  rw [assertValidOp_ok_iff, hop]
  refine ⟨hsafe, fun _ => hpath, ?_⟩
  intro path order he
  exact absurd he (hm path order)

theorem emits_set (before : Doc) (value : Json) : Emits path before value.doc [.s path value] :=
  .single rfl (validAt hpath rfl (by intro _ _ h; cases h)) rfl

theorem emits_append (s text : JsString) :
    Emits path (.leaf (.string s)) (.leaf (.string (s ++ text))) [.a path text] :=
  .single rfl (validAt hpath rfl (by intro _ _ h; cases h)) rfl

theorem emits_truncate (s : JsString) (count : Nat) :
    Emits path (.leaf (.string s)) (.leaf (.string (s.drop count))) [.t path count] :=
  .single rfl (validAt hpath rfl (by intro _ _ h; cases h)) rfl

end Single

theorem emits_replace (before : Doc) (value : Json) : Emits [] before value.doc [.r value] :=
  .single rfl (fun _ => rfl) rfl

variable (path : Path)

theorem emits_splice (target : List Doc) (index remove : Nat) (items : List Json)
    (h : index + remove ≤ target.length) :
    Emits path (.seq target) (.seq (splice target index remove (items.map Json.doc)))
      [.p path index remove items] := by
  apply Emits.single (show (Op.p path index remove items).path = path from rfl)
  · intro hsafe
    rw [assertValidOp_ok_iff]
    refine ⟨hsafe, ?_, ?_⟩
    · intro hf
      cases hf
    · intro path order he
      cases he
  · simp only [Op.contentEdit, spliceEdit, if_pos h]

theorem emits_order (previous : List Doc) (order : List Nat) (hlen : previous.length = order.length)
    (hperm : assertPermutation order = .ok ()) :
    Emits path (.seq previous) (.seq (order.map fun j => previous.getD j (.leaf .null))) [.m path order] := by
  apply Emits.single (show (Op.m path order).path = path from rfl)
  · intro hsafe
    rw [assertValidOp_ok_iff]
    refine ⟨hsafe, ?_, ?_⟩
    · intro hf
      cases hf
    · intro path order he
      cases he
      exact hperm
  · simp only [Op.contentEdit, orderEdit, if_pos hlen]

variable (fields : JsString → Option Doc)

/-- A field of a record is set. -/
theorem emits_setKey (key : JsString) (value : Json)
    (hkey : Seg.reserved (.key key) = false) :
    Emits path (.record fields) (.record (Function.update fields key (some value.doc)))
      [.s (path ++ [.key key]) value] where
  valid := by
    intro hsafe op hop
    rw [List.mem_singleton] at hop
    rw [hop]
    apply validAt (show path ++ [.key key] ≠ [] by simp) rfl (by intro _ _ h; cases h)
    rw [assertSafePath_append]
    exact ⟨hsafe, by simp [assertSafePath, hkey]⟩
  meaning := by
    intro x hx
    obtain ⟨y, hy, _⟩ := alter_of_look (f := alter [.key key] (overwrite (some value.doc))) hx rfl
    rw [edits_single, Op.edit, Op.path, Op.contentEdit, alter_append, hy]
    symm
    apply alter_congr hy
    intro z hz
    rw [hx] at hz ⊢
    exact hz

/-- A field of a record is removed. -/
theorem emits_deleteKey (key : JsString)
    (hkey : Seg.reserved (.key key) = false) :
    Emits path (.record fields) (.record (Function.update fields key none)) [.d (path ++ [.key key])] where
  valid := by
    intro hsafe op hop
    rw [List.mem_singleton] at hop
    rw [hop]
    apply validAt (show path ++ [.key key] ≠ [] by simp) rfl (by intro _ _ h; cases h)
    rw [assertSafePath_append]
    exact ⟨hsafe, by simp [assertSafePath, hkey]⟩
  meaning := by
    intro x hx
    obtain ⟨y, hy, _⟩ := alter_of_look (f := alter [.key key] (overwrite none)) hx rfl
    rw [edits_single, Op.edit, Op.path, Op.contentEdit, alter_append, hy]
    symm
    apply alter_congr hy
    intro z hz
    rw [hx] at hz ⊢
    exact hz

/-! ## Overlapping strings -/

/-- `text.indexOf(head, from)`; `fuel` counts the positions left to try. -/
def indexOf (text head : JsString) (start : Nat) : Nat → Option Nat
  | 0 => none
  | fuel + 1 =>
    if start + head.length ≤ text.length ∧ (text.drop start).take head.length = head then some start
    else indexOf text head (start + 1) fuel

/-- The candidate loop for one head: how many positions have been tried, and the next
one to search from. -/
def tryCandidates (tail b head : JsString) (maxCandidates : Nat) (tried start : Nat) : Nat → Option Nat
  | 0 => none
  | fuel + 1 =>
    match indexOf tail head start (tail.length + 1 - start) with
    | none => none
    | some k =>
      if tried + 1 > maxCandidates then none
      else if tail.length - k ≤ b.length ∧ tail.drop k = b.take (tail.length - k) then some (tail.length - k)
      else tryCandidates tail b head maxCandidates (tried + 1) (k + 1) fuel

/-- `overlap(a, b, scan, probe, maxCandidates)`: a long head first, then one unit. -/
def overlap (a b : JsString) (scan : Nat) (probe maxCandidates : Nat) : Nat :=
  if a.length = 0 ∨ b.length = 0 ∨ scan = 0 then 0
  else
    let tail := if a.length > scan then a.drop (a.length - scan) else a
    let h := min probe b.length
    match tryCandidates tail b (b.take h) maxCandidates 0 0 (tail.length + 1) with
    | some n => n
    | none => if h = 1 then 0 else (tryCandidates tail b (b.take 1) maxCandidates 0 0 (tail.length + 1)).getD 0

variable {tail b head : JsString} {maxCandidates tried start fuel n : Nat}

theorem tryCandidates_sound
    (h : tryCandidates tail b head maxCandidates tried start fuel = some n) :
    n ≤ tail.length ∧ n ≤ b.length ∧ tail.drop (tail.length - n) = b.take n := by
  induction fuel generalizing tried start with
  | zero => cases h
  | succ fuel ih =>
    rw [tryCandidates] at h
    split at h
    · cases h
    · rename_i k hk
      split at h
      · cases h
      · split at h
        · rename_i hmatch
          cases h
          refine ⟨Nat.sub_le _ _, hmatch.1, ?_⟩
          by_cases hle : k ≤ tail.length
          · rw [Nat.sub_sub_self hle]
            exact hmatch.2
          · have hz : tail.length - k = 0 := by omega
            simp [hz]
        · exact ih h

/-- `text.indexOf(head, start)` is the first place from `start` on. -/
theorem indexOf_least {text : JsString} {k : Nat} (h : indexOf text head start fuel = some k) :
    k + head.length ≤ text.length ∧
      ∀ j, start ≤ j → j + head.length ≤ text.length → (text.drop j).take head.length = head → k ≤ j := by
  induction fuel generalizing start with
  | zero => cases h
  | succ fuel ih =>
    rw [indexOf] at h
    split at h
    · rename_i hat
      cases h
      exact ⟨hat.1, fun j hj _ _ => hj⟩
    · rename_i hat
      refine ⟨(ih h).1, fun j hj hle hhead => (ih h).2 j ?_ hle hhead⟩
      have hne : j ≠ start := fun heq => hat (heq ▸ ⟨hle, hhead⟩)
      omega

/-- What is found has the whole head, and no match from `start` on with the whole head is longer. -/
theorem tryCandidates_longest {h : Nat} (hb : h ≤ b.length)
    (hn : tryCandidates tail b (b.take h) maxCandidates tried start fuel = some n) :
    h ≤ n ∧ ∀ m, h ≤ m → m ≤ tail.length - start → m ≤ b.length → tail.drop (tail.length - m) = b.take m → m ≤ n := by
  induction fuel generalizing tried start with
  | zero => cases hn
  | succ fuel ih =>
    rw [tryCandidates] at hn
    split at hn
    · cases hn
    · rename_i k hk
      obtain ⟨hfits, hleast⟩ := indexOf_least hk
      rw [List.length_take_of_le hb] at hfits hleast
      have hbef : ∀ m, h ≤ m → m ≤ tail.length - start → tail.drop (tail.length - m) = b.take m →
          m ≤ tail.length - k := by
        intro m hhm hm hmatch
        by_cases hz : m = 0
        · omega
        · have hle := hleast (tail.length - m) (by omega) (by omega)
            (by rw [hmatch, List.take_take, Nat.min_eq_left hhm])
          omega
      split at hn
      · cases hn
      · split at hn
        · cases hn
          exact ⟨by omega, fun m hhm hm _ hmatch => hbef m hhm hm hmatch⟩
        · rename_i hno
          refine ⟨(ih hn).1, fun m hhm hm hmb hmatch => (ih hn).2 m hhm ?_ hmb hmatch⟩
          have hle := hbef m hhm hm hmatch
          have hne : m ≠ tail.length - k := by
            rintro rfl
            rw [Nat.sub_sub_self (by omega)] at hmatch
            exact hno ⟨hmb, hmatch⟩
          omega

variable (a b : JsString) (scan probe maxCandidates : Nat)

/-- The part of `a` that is looked at has its ends up to the length `scan`. -/
theorem tail_ends (htail : tail = if a.length > scan then a.drop (a.length - scan) else a) (n : Nat) :
    (n ≤ tail.length ↔ n ≤ scan ∧ n ≤ a.length) ∧
      (n ≤ tail.length → tail.drop (tail.length - n) = a.drop (a.length - n)) := by
  subst htail
  split
  · rw [List.length_drop, List.drop_drop]
    refine ⟨by omega, fun hn => ?_⟩
    congr 1
    omega
  · exact ⟨by omega, fun _ => rfl⟩

/-- A result other than 0 is found with one of the two heads. -/
theorem overlap_found : overlap a b scan probe maxCandidates = 0 ∨ ∃ tail h,
    (tail = if a.length > scan then a.drop (a.length - scan) else a) ∧ h ≤ b.length ∧
      tryCandidates tail b (b.take h) maxCandidates 0 0 (tail.length + 1) = some (overlap a b scan probe maxCandidates) := by
  unfold overlap
  split
  · exact .inl rfl
  · rename_i hne
    dsimp only
    generalize (if a.length > scan then a.drop (a.length - scan) else a) = tail
    split
    · exact .inr ⟨tail, _, rfl, Nat.min_le_right .., ‹_›⟩
    · split
      · exact .inl rfl
      · cases hone : tryCandidates tail b (b.take 1) maxCandidates 0 0 (tail.length + 1) with
        | none => exact .inl rfl
        | some n => exact .inr ⟨tail, 1, rfl, by omega, hone⟩

/-- The end of `a` of the length found is the beginning of `b`. -/
theorem overlap_sound :
    overlap a b scan probe maxCandidates ≤ a.length ∧ overlap a b scan probe maxCandidates ≤ b.length ∧
      a.drop (a.length - overlap a b scan probe maxCandidates) = b.take (overlap a b scan probe maxCandidates) := by
  rcases overlap_found a b scan probe maxCandidates with hzero | ⟨tail, h, htail, -, hn⟩
  · rw [hzero]
    simp
  · obtain ⟨hle, hb, hd⟩ := tryCandidates_sound hn
    obtain ⟨hends, hdrop⟩ := tail_ends a scan htail (overlap a b scan probe maxCandidates)
    exact ⟨(hends.mp hle).2, hb, (hdrop hle).symm.trans hd⟩

/-- A bound on the candidates can lose the overlap, but does not give a shorter one. -/
theorem overlap_longest :
    overlap a b scan probe maxCandidates ≤ a.length ∧ overlap a b scan probe maxCandidates ≤ b.length ∧
      a.drop (a.length - overlap a b scan probe maxCandidates) = b.take (overlap a b scan probe maxCandidates) ∧
      (0 < overlap a b scan probe maxCandidates → overlap a b scan probe maxCandidates ≤ scan ∧
        ∀ n, n ≤ scan → n ≤ a.length → n ≤ b.length → a.drop (a.length - n) = b.take n →
          n ≤ overlap a b scan probe maxCandidates) := by
  obtain ⟨ha, hb, hd⟩ := overlap_sound a b scan probe maxCandidates
  refine ⟨ha, hb, hd, fun hpos => ?_⟩
  rcases overlap_found a b scan probe maxCandidates with hzero | ⟨tail, h, htail, hh, hn⟩
  · omega
  · obtain ⟨hle, hlongest⟩ := tryCandidates_longest hh hn
    refine ⟨((tail_ends a scan htail _).1.mp (tryCandidates_sound hn).1).1, fun n hscan hna hnb hmatch => ?_⟩
    obtain ⟨hends, hdrop⟩ := tail_ends a scan htail n
    have hin := hends.mpr ⟨hscan, hna⟩
    by_cases hnh : h ≤ n
    · exact hlongest n hnh hin hnb ((hdrop hin).trans hmatch)
    · omega

/-- The operations for a changed string below the root: an append, or a truncation to
the overlap and an append, or a replacement. -/
def emitString (scan : Nat) (before after : JsString) (path : Path) : List Op :=
  if before = after then []
  else if after.length > before.length ∧ after.take before.length = before then [.a path (after.drop before.length)]
  else
    let shared := overlap before after scan 64 8
    if shared = 0 then [.s path (.string after)]
    else .t path (before.length - shared) :: if after.length > shared then [.a path (after.drop shared)] else []

theorem emitString_emits (scan : Nat) (before after : JsString) {path : Path} (hpath : path ≠ []) :
    Emits path (.leaf (.string before)) (.leaf (.string after)) (emitString scan before after path) := by
  rw [emitString]
  split
  · rename_i he
    rw [he]
    exact .nil _ _
  · split
    · rename_i happ
      have h := emits_append hpath before (after.drop before.length)
      have he : before ++ after.drop before.length = after := by
        conv_lhs => rw [← happ.2]
        rw [happ.2]
        conv_rhs => rw [← List.take_append_drop before.length after, happ.2]
      rwa [he] at h
    · dsimp only
      obtain ⟨_, hb, hd⟩ := overlap_sound before after scan 64 8
      split
      · exact emits_set hpath _ (.string after)
      · have ht := emits_truncate hpath before (before.length - overlap before after scan 64 8)
        rw [hd] at ht
        split
        · have ha := emits_append hpath (after.take (overlap before after scan 64 8)) (after.drop (overlap before after scan 64 8))
          rw [List.take_append_drop] at ha
          exact ht.trans ha
        · rw [List.take_of_length_le (by omega)] at ht
          exact ht

end Shuvpi.Delta
