import Shuvpi.StateDiff

/-!
# The diff of two revisions is exact

Each strategy of the diff is a step function on the batch collected so far. `Diffs`
says what such a step adds: operations that turn one value into another, unless the
batch has become overlong, in which case `diffRevisions` falls back to a base. Steps
compose like the batches they add.
-/
open List hiding cons nil
open Function

namespace Shuvpi.StateDiff

open Delta DataTree

/-! ## Permutations -/

section Permutation

/-- The positions not handed out yet. -/
def remaining (positions : List Positions) : List Nat := positions.flatMap fun e => e.indices.drop e.used

/-- The positions of an entry hold what the entry stands for. -/
def Located (live : Rev → Prop) (docs : List Doc) (positions : List Positions) : Prop :=
  ∀ e ∈ positions, live e.value ∧ ∀ j ∈ e.indices, docs[j]? = some e.value.doc

def Unused (positions : List Positions) : Prop := ∀ e ∈ positions, e.used = 0

variable {live : Rev → Prop} (heap : Heap live) (docs : List Doc)
include heap

variable {positions : List Positions}

theorem addPosition_spec {value : Rev} {index : Nat} (hvalue : live value)
    (hindex : docs[index]? = some value.doc) (hl : Located live docs positions) (hu : Unused positions) :
    Located live docs (addPosition value index positions) ∧ Unused (addPosition value index positions) ∧
      (remaining (addPosition value index positions)).Perm (index :: remaining positions) := by
  induction positions with
  | nil =>
    refine ⟨?_, ?_, ?_⟩
    · intro e he
      rw [addPosition, mem_singleton] at he
      rw [he]
      refine ⟨hvalue, ?_⟩
      intro j hj
      rw [mem_singleton] at hj
      rw [hj, hindex]
    · intro e he
      rw [addPosition, mem_singleton] at he
      rw [he]
    · exact List.Perm.refl _
  | cons entry positions ih =>
    have hentry := hl entry mem_cons_self
    have hused := hu entry mem_cons_self
    have hl' : Located live docs positions := fun e he => hl e (mem_cons_of_mem _ he)
    have hu' : Unused positions := fun e he => hu e (mem_cons_of_mem _ he)
    rw [addPosition]
    by_cases hsame : same entry.value value = true
    · rw [if_pos hsame]
      refine ⟨?_, ?_, ?_⟩
      · intro e he
        rcases mem_cons.mp he with rfl | he
        · refine ⟨hentry.1, ?_⟩
          intro j hj
          rcases mem_append.mp hj with hj | hj
          · exact hentry.2 j hj
          · rw [mem_singleton] at hj
            rw [hj, hindex, same_doc heap hentry.1 hvalue hsame]
        · exact hl' e he
      · intro e he
        rcases mem_cons.mp he with rfl | he
        · exact hused
        · exact hu' e he
      · simp only [remaining, flatMap_cons, hused, drop_zero]
        rw [append_assoc]
        exact perm_middle
    · rw [if_neg hsame]
      obtain ⟨ihl, ihu, ihp⟩ := ih hl' hu'
      refine ⟨?_, ?_, ?_⟩
      · intro e he
        rcases mem_cons.mp he with rfl | he
        · exact hentry
        · exact ihl e he
      · intro e he
        rcases mem_cons.mp he with rfl | he
        · exact hused
        · exact ihu e he
      · simp only [remaining, flatMap_cons]
        exact (ihp.append_left _).trans perm_middle

theorem positionsOf_spec (items : List Rev) (index : Nat) (positions : List Positions)
    (hitems : ∀ v ∈ items, live v) (hdocs : ∀ i, (items.map Rev.doc)[i]? = docs[index + i]? ∨ items.length ≤ i)
    (hl : Located live docs positions) (hu : Unused positions) :
    Located live docs (positionsOf items index positions) ∧
      (remaining (positionsOf items index positions)).Perm (range' index items.length ++ remaining positions) := by
  induction items generalizing index positions with
  | nil => exact ⟨hl, List.Perm.refl _⟩
  | cons value items ih =>
    have hindex : docs[index]? = some value.doc := by
      have := (hdocs 0).resolve_right (by simp)
      simpa using this.symm
    obtain ⟨hl', hu', hp⟩ := addPosition_spec heap docs (hitems value mem_cons_self) hindex hl hu
    obtain ⟨hl'', hp'⟩ := ih (index + 1) _ (fun v hv => hitems v (mem_cons_of_mem _ hv)) (by
      intro i
      rcases hdocs (i + 1) with h | h
      · left
        rw [map_cons, getElem?_cons_succ] at h
        rw [h]
        congr 1
        omega
      · right
        simpa using h) hl' hu'
    refine ⟨hl'', hp'.trans ?_⟩
    rw [length_cons, range'_succ]
    exact (hp.append_left _).trans perm_middle

theorem takePosition_spec {value : Rev} {positions positions' : List Positions} {index : Nat} (hvalue : live value)
    (hl : Located live docs positions) (h : takePosition value positions = some (index, positions')) :
    Located live docs positions' ∧ (remaining positions).Perm (index :: remaining positions') ∧
      docs[index]? = some value.doc := by
  induction positions generalizing positions' with
  | nil => cases h
  | cons entry positions ih =>
    have hentry := hl entry List.mem_cons_self
    have hl' : Located live docs positions := fun e he => hl e (List.mem_cons_of_mem _ he)
    rw [takePosition] at h
    by_cases hsame : same entry.value value = true
    · rw [if_pos hsame] at h
      cases hi : entry.indices[entry.used]? with
      | none => rw [hi] at h; cases h
      | some j =>
        rw [hi] at h
        cases h
        obtain ⟨hlt, hj⟩ := List.getElem?_eq_some_iff.mp hi
        refine ⟨?_, ?_, ?_⟩
        · intro e he
          rcases List.mem_cons.mp he with rfl | he
          · exact hentry
          · exact hl' e he
        · simp only [remaining, List.flatMap_cons]
          rw [List.drop_eq_getElem_cons hlt, hj]
          exact List.Perm.refl _
        · rw [hentry.2 index (List.mem_of_getElem? hi), same_doc heap hentry.1 hvalue hsame]
    · rw [if_neg hsame] at h
      cases ht : takePosition value positions with
      | none => rw [ht] at h; cases h
      | some r =>
        obtain ⟨j, positions₁⟩ := r
        rw [ht] at h
        cases h
        obtain ⟨ihl, ihp, ihd⟩ := ih hl' ht
        refine ⟨?_, ?_, ihd⟩
        · intro e he
          rcases List.mem_cons.mp he with rfl | he
          · exact hentry
          · exact ihl e he
        · simp only [remaining, List.flatMap_cons]
          exact (ihp.append_left _).trans List.perm_middle

variable {order : List Nat}

theorem takePositions_spec {items : List Rev}
    (hitems : ∀ v ∈ items, live v) (hl : Located live docs positions)
    (h : takePositions items positions = some order) :
    (∃ rest, (remaining positions).Perm (order ++ rest)) ∧
      order.map (fun j => docs.getD j (.leaf .null)) = items.map Rev.doc := by
  induction items generalizing positions order with
  | nil =>
    cases h
    exact ⟨⟨remaining positions, List.Perm.refl _⟩, rfl⟩
  | cons value items ih =>
    rw [takePositions] at h
    cases ht : takePosition value positions with
    | none => rw [ht] at h; cases h
    | some r =>
      obtain ⟨index, positions'⟩ := r
      rw [ht] at h
      obtain ⟨order', ho, rfl⟩ := Option.map_eq_some_iff.mp h
      obtain ⟨hl', hp, hd⟩ := takePosition_spec heap docs (hitems value mem_cons_self) hl ht
      obtain ⟨⟨rest, hrest⟩, hmap⟩ := ih (fun v hv => hitems v (mem_cons_of_mem _ hv)) hl' ho
      refine ⟨⟨rest, hp.trans (hrest.cons index)⟩, ?_⟩
      rw [map_cons, map_cons, hmap, getD_eq_getElem?_getD, hd]
      rfl

omit heap in
theorem assertDistinct_ok (length : Nat) (seen order : List Nat) (hlt : ∀ j ∈ order, j < length)
    (hnd : order.Nodup) (hseen : ∀ j ∈ order, j ∉ seen) : assertDistinct length seen order = .ok () := by
  induction order generalizing seen with
  | nil => rfl
  | cons j order ih =>
    have hj := hlt j mem_cons_self
    have hs := hseen j mem_cons_self
    rw [nodup_cons] at hnd
    rw [assertDistinct, if_neg (by simp [hs]; omega)]
    apply ih _ (fun i hi => hlt i (mem_cons_of_mem _ hi)) hnd.2
    intro i hi hmem
    rcases mem_cons.mp hmem with rfl | hmem
    · exact hnd.1 hi
    · exact hseen i (mem_cons_of_mem _ hi) hmem

/-- A permutation that was found is one, and reorders `before` into `after`. -/
theorem permutation_spec {before after : List Rev} (hbef : ∀ v ∈ before, live v)
    (hafter : ∀ v ∈ after, live v) (h : permutation before after = some order) :
    before.length = order.length ∧ assertPermutation order = .ok () ∧
      order.map (fun j => (before.map Rev.doc).getD j (.leaf .null)) = after.map Rev.doc := by
  rw [permutation] at h
  split at h
  · cases h
  · rename_i hlen
    have hlen : before.length = after.length := by simpa using hlen
    obtain ⟨hl, hp⟩ := positionsOf_spec heap (before.map Rev.doc) before 0 [] hbef (by
      intro i
      left
      rw [Nat.zero_add]) (by intro e he; cases he) (by intro e he; cases he)
    obtain ⟨⟨rest, hrest⟩, hmap⟩ := takePositions_spec heap (before.map Rev.doc) hafter hl h
    have horder : order.length = after.length := by
      have := congrArg length hmap
      simpa using this
    have hperm : (range' 0 before.length).Perm (order ++ rest) := by
      have := hp.symm.trans hrest
      simpa [remaining] using this
    have hrest : rest = [] := by
      have := hperm.length_eq
      rw [length_range', length_append] at this
      exact length_eq_zero_iff.mp (by omega)
    rw [hrest, append_nil] at hperm
    refine ⟨by omega, ?_, hmap⟩
    apply assertDistinct_ok
    · intro j hj
      have := hperm.symm.subset hj
      rw [mem_range'_1] at this
      omega
    · exact hperm.nodup_iff.mp nodup_range'
    · intro j _
      exact not_mem_nil

end Permutation

/-! ## Shifts -/

section Shift

variable {live : Rev → Prop} (heap : Heap live)
include heap

theorem matchesFrom_docs {a b : List Rev} (ha : ∀ v ∈ a, live v) (hb : ∀ v ∈ b, live v)
    (h : matchesFrom a b = true) : a.map Rev.doc = (b.map Rev.doc).take a.length := by
  induction a generalizing b with
  | nil => rfl
  | cons x a ih =>
    cases b with
    | nil => cases h
    | cons y b =>
      rw [matchesFrom, Bool.and_eq_true] at h
      rw [map_cons, map_cons, length_cons, take_succ_cons,
        same_doc heap (ha x mem_cons_self) (hb y mem_cons_self) h.1,
        ih (fun v hv => ha v (mem_cons_of_mem _ hv)) (fun v hv => hb v (mem_cons_of_mem _ hv)) h.2]

theorem findShift_docs {a b : List Rev} (ha : ∀ v ∈ a, live v) (hb : ∀ v ∈ b, live v) {shift candidates fuel k : Nat}
    (h : findShift a b shift candidates fuel = some k) :
    k < a.length ∧ (a.map Rev.doc).drop k = (b.map Rev.doc).take (a.length - k) := by
  induction fuel generalizing shift candidates with
  | zero => cases h
  | succ fuel ih =>
    rw [findShift] at h
    split at h
    · rename_i hlt
      split at h
      · split at h
        · split at h
          · rename_i hm
            cases h
            refine ⟨hlt.1, ?_⟩
            have := matchesFrom_docs heap (fun v hv => ha v (mem_of_mem_drop hv)) hb hm
            rwa [length_drop, map_drop] at this
          · exact ih h
        · exact ih h
      · cases h
    · cases h

theorem emitSameLengthShift_emits {before after : List Rev} (hbef : ∀ v ∈ before, live v)
    (hafter : ∀ v ∈ after, live v) (hlen : before.length = after.length) (path : Path) {ops : List Op}
    (h : emitSameLengthShift before after path = some ops) :
    Emits path (.seq (before.map Rev.doc)) (.seq (after.map Rev.doc)) ops := by
  have hmap : ∀ l : List Rev, (l.map Rev.erase).map Json.doc = l.map Rev.doc := by
    intro l
    rw [map_map]
    rfl
  simp only [emitSameLengthShift] at h
  split at h
  · cases h
  · split at h
    · rename_i k hk
      cases h
      obtain ⟨hlt, hdrop⟩ := findShift_docs heap hbef hafter hk
      have h₁ := emits_splice path (before.map Rev.doc) 0 k [] (by rw [length_map]; omega)
      have h₂ := emits_splice path ((before.map Rev.doc).drop k) (before.length - k) 0
        ((after.drop (before.length - k)).map Rev.erase) (by rw [length_drop, length_map]; omega)
      have he₁ : splice (before.map Rev.doc) 0 k (([] : List Json).map Json.doc) = (before.map Rev.doc).drop k := by
        simp [splice]
      have he₂ : splice ((before.map Rev.doc).drop k) (before.length - k) 0
          (((after.drop (before.length - k)).map Rev.erase).map Json.doc) = after.map Rev.doc := by
        have hnil : ((after.map Rev.doc).take (before.length - k)).drop (before.length - k) = [] :=
          drop_eq_nil_of_le (by rw [length_take]; omega)
        rw [splice, hmap, map_drop, hdrop, take_take, Nat.min_self, Nat.add_zero, hnil, append_nil, take_append_drop]
      rw [he₁] at h₁
      rw [he₂] at h₂
      exact h₁.trans h₂
    · split at h
      · rename_i k hk
        cases h
        obtain ⟨hlt, hdrop⟩ := findShift_docs heap hafter hbef hk
        have h₁ := emits_splice path (before.map Rev.doc) 0 0 ((after.take k).map Rev.erase) (by omega)
        have he₁ : splice (before.map Rev.doc) 0 0 (((after.take k).map Rev.erase).map Json.doc) =
            (after.map Rev.doc).take k ++ before.map Rev.doc := by
          rw [hmap, map_take]
          simp [splice]
        rw [he₁] at h₁
        have hklen : ((after.map Rev.doc).take k).length = k := by rw [length_take, length_map]; omega
        have h₂ := emits_splice path ((after.map Rev.doc).take k ++ before.map Rev.doc) before.length k []
          (by rw [length_append, hklen, length_map]; omega)
        have he₂ : splice ((after.map Rev.doc).take k ++ before.map Rev.doc) before.length k
            (([] : List Json).map Json.doc) = after.map Rev.doc := by
          rw [splice, map_nil, append_nil, drop_eq_nil_of_le
            (by rw [length_append, hklen, length_map]; omega), append_nil, take_append, hklen,
            take_of_length_le (by omega), hlen, ← hdrop, take_append_drop]
        rw [he₂] at h₂
        exact h₁.trans h₂
      · cases h

end Shift

/-! ## Steps on the batch -/

/-- What a step adds to the batch turns `before` into `after`, unless the batch has
become overlong. -/
def Diffs (path : Path) (before after : Doc) (step : List Op → List Op) : Prop :=
  ∀ ops, ∃ new, step ops = ops ++ new ∧ ((ops ++ new).length ≤ MAX_DELTA_OPERATIONS → Emits path before after new)

namespace Diffs

variable {path : Path} {before middle after : Doc} {step step' : List Op → List Op}

theorem of_emits {new : List Op} (h : Emits path before after new) : Diffs path before after (fun ops => ops ++ new) :=
  fun _ => ⟨new, rfl, fun _ => h⟩

theorem same (path : Path) (value : Doc) : Diffs path value value (fun ops => ops) :=
  fun ops => ⟨[], (append_nil ops).symm, fun _ => .nil path value⟩

theorem trans (h : Diffs path before middle step) (h' : Diffs path middle after step') :
    Diffs path before after (fun ops => step' (step ops)) := by
  intro ops
  obtain ⟨new, he, hnew⟩ := h ops
  obtain ⟨new', he', hnew'⟩ := h' (ops ++ new)
  refine ⟨new ++ new', by dsimp only; rw [he, he', append_assoc], ?_⟩
  intro hlen
  rw [← append_assoc] at hlen
  apply (hnew _).trans (hnew' hlen)
  rw [length_append] at hlen
  omega

/-- The check that ends a loop. -/
theorem guard (h : Diffs path before after step) :
    Diffs path before after (fun ops => if ops.length > MAX_DELTA_OPERATIONS then ops else step ops) := by
  intro ops
  dsimp only
  split
  · refine ⟨[], (append_nil ops).symm, ?_⟩
    intro hlen
    rw [append_nil] at hlen
    omega
  · exact h ops

theorem child {seg : Seg} {c c' : Doc} (hseg : seg.reserved = false) (h : Diffs (path ++ [seg]) c c' step)
    (hchild : before.child seg = some c) (hafter : alterChild seg (overwrite (some c')) before = some after) :
    Diffs path before after step := by
  intro ops
  obtain ⟨new, he, hnew⟩ := h ops
  exact ⟨new, he, fun hlen => (hnew hlen).child hseg hchild hafter⟩

end Diffs

theorem emitSet_diffs (path : Path) (before : Doc) (value : Rev) :
    Diffs path before value.doc (emitSet path value) := by
  apply Diffs.of_emits
  split
  · rename_i he
    rw [he]
    exact emits_replace before value.erase
  · rename_i he
    exact emits_set he before value.erase

/-! ## Arrays -/

section Arrays

variable {live : Rev → Prop} (heap : Heap live)

variable {before after : List Rev}

/-- The elements before the current one are those of `after` already. -/
theorem diffItems_diffs (hlen : before.length = after.length) (path : Path)
    (ih : ∀ y ∈ after, ∀ x ∈ before, ∀ path, Diffs path x.doc y.doc (diffValue x y path)) (done : List Doc) :
    Diffs path (.seq (done ++ before.map Rev.doc)) (.seq (done ++ after.map Rev.doc))
      (diffItems before after done.length path) := by
  induction after generalizing before done with
  | nil =>
    rw [length_nil, length_eq_zero_iff] at hlen
    rw [hlen]
    exact Diffs.same _ _
  | cons y after ihl =>
    cases before with
    | nil => cases hlen
    | cons x before =>
      have hfirst : Diffs path (.seq (done ++ (x :: before).map Rev.doc))
          (.seq (done ++ [y.doc] ++ before.map Rev.doc)) (diffValue x y (path ++ [.index done.length])) := by
        apply Diffs.child rfl (ih y mem_cons_self x mem_cons_self _)
        · simp [child]
        · simp [alterChild, overwrite]
      have hrest := ihl (by simpa using hlen) (fun y' hy' x' hx' =>
        ih y' (mem_cons_of_mem _ hy') x' (mem_cons_of_mem _ hx')) (done ++ [y.doc])
      have hboth := (hfirst.trans hrest).guard
      simpa [length_append, diffItems] using hboth

/-- The splice between the common beginning and the common end. -/
theorem splice_between (before after : List Doc) (front back : Nat) (hb : front + back ≤ before.length)
    (ha : front + back ≤ after.length) (hfront : before.take front = after.take front)
    (hback : before.drop (before.length - back) = after.drop (after.length - back)) :
    splice before front (before.length - front - back) ((after.take (after.length - back)).drop front) = after := by
  have hend : front + (before.length - front - back) = before.length - back := by omega
  have htake : after.take front = (after.take (after.length - back)).take front := by
    rw [take_take, Nat.min_eq_left (by omega)]
  rw [splice, hend, hback, hfront, htake, take_append_drop, take_append_drop]

include heap

theorem commonLength_docs (hbef : ∀ v ∈ before, live v) (hafter : ∀ v ∈ after, live v) :
    commonLength before after ≤ before.length ∧ commonLength before after ≤ after.length ∧
      (before.map Rev.doc).take (commonLength before after) = (after.map Rev.doc).take (commonLength before after) := by
  induction before generalizing after with
  | nil => simp [commonLength]
  | cons x before ih =>
    cases after with
    | nil => simp [commonLength]
    | cons y after =>
      rw [commonLength]
      split
      · rename_i he
        obtain ⟨h₁, h₂, h₃⟩ := ih (fun v hv => hbef v (mem_cons_of_mem _ hv))
          (fun v hv => hafter v (mem_cons_of_mem _ hv))
        refine ⟨by simpa using h₁, by simpa using h₂, ?_⟩
        rw [map_cons, map_cons, take_succ_cons, take_succ_cons, h₃,
          equalJson_doc heap x y (hbef x mem_cons_self) (hafter y mem_cons_self) he]
      · simp

theorem mismatches_zero (hlen : before.length = after.length)
    (hbef : ∀ v ∈ before, live v) (hafter : ∀ v ∈ after, live v) (h : mismatches before after = 0) :
    before.map Rev.doc = after.map Rev.doc := by
  induction before generalizing after with
  | nil =>
    rw [length_nil, eq_comm, length_eq_zero_iff] at hlen
    rw [hlen]
  | cons x before ih =>
    cases after with
    | nil => cases hlen
    | cons y after =>
      rw [mismatches] at h
      have hsame : same x y = true := by
        by_contra hne
        rw [if_neg hne] at h
        omega
      rw [map_cons, map_cons, same_doc heap (hbef x mem_cons_self) (hafter y mem_cons_self) hsame,
        ih (by simpa using hlen) (fun v hv => hbef v (mem_cons_of_mem _ hv))
          (fun v hv => hafter v (mem_cons_of_mem _ hv)) (by omega)]

theorem diffArray_diffs (hbef : ∀ v ∈ before, live v) (hafter : ∀ v ∈ after, live v)
    (path : Path) {elements : List Op → List Op}
    (helements : before.length = after.length →
      Diffs path (.seq (before.map Rev.doc)) (.seq (after.map Rev.doc)) elements) :
    Diffs path (.seq (before.map Rev.doc)) (.seq (after.map Rev.doc)) (diffArray before after path elements) := by
  by_cases hlen : before.length = after.length
  · intro ops
    simp only [diffArray, if_pos hlen]
    split
    · rename_i hz
      rw [mismatches_zero heap hlen hbef hafter hz]
      exact Diffs.same _ _ ops
    · split
      · rename_i structural hs
        refine ⟨structural, rfl, fun _ => ?_⟩
        split at hs
        · split at hs
          · rename_i order horder
            cases hs
            obtain ⟨hl, hp, hmap⟩ := permutation_spec heap hbef hafter horder
            have h := emits_order path (before.map Rev.doc) order (by rw [length_map, hl]) hp
            rwa [hmap] at h
          · exact emitSameLengthShift_emits heap hbef hafter hlen path hs
        · cases hs
      · exact helements hlen ops
  · intro ops
    simp only [diffArray, if_neg hlen]
    refine ⟨_, rfl, fun _ => ?_⟩
    have hrev : ∀ l : List Rev, (∀ v ∈ l, live v) → ∀ v ∈ l.reverse, live v := fun l h v hv => h v (mem_reverse.mp hv)
    obtain ⟨hf₁, hf₂, hfront⟩ := commonLength_docs heap hbef hafter
    obtain ⟨_, _, hend⟩ := commonLength_docs heap (hrev before hbef) (hrev after hafter)
    generalize commonLength before after = front at *
    generalize hk : commonLength before.reverse after.reverse = k at *
    generalize hback : min k (min before.length after.length - front) = back
    have hsplice := splice_between (before.map Rev.doc) (after.map Rev.doc) front back
      (by rw [length_map]; omega) (by rw [length_map]; omega) hfront (by
        have hshort := congrArg (take back) hend
        rw [take_take, take_take, Nat.min_eq_left (by omega), map_reverse, map_reverse,
          take_reverse, take_reverse, reverse_inj] at hshort
        exact hshort)
    have h := emits_splice path (before.map Rev.doc) front (before.length - front - back)
      (((after.take (after.length - back)).drop front).map Rev.erase) (by rw [length_map]; omega)
    have hdocs : (((after.take (after.length - back)).drop front).map Rev.erase).map Json.doc =
        ((after.map Rev.doc).take ((after.map Rev.doc).length - back)).drop front := by
      rw [map_map, ← map_take, ← map_drop, length_map]
      rfl
    rw [length_map] at hsplice
    rwa [hdocs, hsplice] at h

end Arrays

/-! ## Objects -/

section Objects

/-- The fields after the loop over the keys of `after`. -/
def setAll (fields : JsString → Option Doc) (props : List (JsString × Rev)) (key : JsString) : Option Doc :=
  match JsProps.get? props key with
  | some value => some value.doc
  | none => fields key

theorem setAll_cons (fields : JsString → Option Doc) {key : JsString} {value : Rev} {props : List (JsString × Rev)}
    (hnew : key ∉ JsProps.keys props) :
    setAll (update fields key (some value.doc)) props = setAll fields ((key, value) :: props) := by
  funext other
  rw [setAll, setAll, JsProps.get?_cons]
  by_cases he : key = other
  · subst he
    rw [(JsProps.get?_eq_none_iff props key).mpr hnew, if_pos rfl, update_self]
  · rw [if_neg he, update_of_ne (Ne.symm he)]

variable {before after : List (JsString × Rev)}

/-- The keys still to come hold what they held in `before`. -/
theorem diffKeys_diffs (path : Path) (hnd : (JsProps.keys after).Nodup)
    (hkeys : ∀ key ∈ JsProps.keys after, isReserved key = false)
    (ih : ∀ p ∈ after, ∀ x, JsProps.get? before p.1 = some x → ∀ path, Diffs path x.doc p.2.doc (diffValue x p.2 path))
    (fields : JsString → Option Doc)
    (hfields : ∀ key ∈ JsProps.keys after, fields key = (JsProps.get? before key).map Rev.doc) :
    Diffs path (.record fields) (.record (setAll fields after)) (diffKeys before after path) := by
  induction after generalizing fields with
  | nil => exact Diffs.same _ _
  | cons p after ihl =>
    obtain ⟨key, value⟩ := p
    have hkey : key ∈ JsProps.keys ((key, value) :: after) := mem_cons_self
    obtain ⟨hnew, hnd'⟩ := nodup_cons.mp hnd
    have hfirst : Diffs path (.record fields) (.record (update fields key (some value.doc)))
        (fun ops => match JsProps.get? before key with
          | some value' => diffValue value' value (path ++ [.key key]) ops
          | none => emitSet (path ++ [.key key]) value ops) := by
      cases hget : JsProps.get? before key with
      | some value' =>
        apply Diffs.child (hkeys key hkey) (ih _ mem_cons_self value' hget _)
        · rw [child, hfields key hkey, hget]
          rfl
        · rfl
      | none =>
        have h := Diffs.of_emits (emits_setKey path fields key value.erase (hkeys key hkey))
        simpa [emitSet] using show Diffs path _ (.record (update fields key (some value.doc))) _ from h
    have hrest := ihl hnd' (fun k hk => hkeys k (mem_cons_of_mem _ hk))
      (fun p hp => ih p (mem_cons_of_mem _ hp)) (update fields key (some value.doc)) (by
        intro k hk
        have hne : k ≠ key := fun he => hnew (he ▸ hk)
        rw [update_of_ne hne, hfields k (mem_cons_of_mem _ hk)])
    rw [setAll_cons fields hnew] at hrest
    intro ops
    rw [diffKeys]
    exact (hfirst.trans hrest).guard ops

/-- The fields after the loop that deletes. -/
def dropAll (after : List (JsString × Rev)) (fields : JsString → Option Doc) (keys : List JsString)
    (key : JsString) : Option Doc :=
  if key ∈ keys ∧ JsProps.hasOwn after key = false then none else fields key

theorem deleteKeys_diffs (after : List (JsString × Rev)) (path : Path) (keys : List JsString)
    (hkeys : ∀ key ∈ keys, isReserved key = false) (fields : JsString → Option Doc) :
    Diffs path (.record fields) (.record (dropAll after fields keys)) (deleteKeys after path keys) := by
  induction keys generalizing fields with
  | nil =>
    have he : dropAll after fields [] = fields := by
      funext key
      rw [dropAll, if_neg]
      intro h
      exact absurd h.1 not_mem_nil
    rw [he]
    exact Diffs.same _ _
  | cons key keys ih =>
    have hkeys' : ∀ k ∈ keys, isReserved k = false := fun k hk => hkeys k (mem_cons_of_mem _ hk)
    by_cases hown : JsProps.hasOwn after key = true
    · have he : dropAll after fields (key :: keys) = dropAll after fields keys := by
        funext other
        by_cases ho : other = key
        · subst ho
          simp [dropAll, hown]
        · simp [dropAll, ho]
      have h := (ih hkeys' fields).guard
      rw [← he] at h
      simpa only [deleteKeys, if_pos hown] using h
    · have he : dropAll after (update fields key none) keys = dropAll after fields (key :: keys) := by
        funext other
        by_cases ho : other = key
        · subst ho
          simp [dropAll, hown]
        · simp [dropAll, ho]
      have hfirst := Diffs.of_emits (emits_deleteKey path fields key (hkeys key mem_cons_self))
      have hrest := ih hkeys' (update fields key none)
      rw [he] at hrest
      have h := (hfirst.trans hrest).guard
      simpa only [deleteKeys, if_neg hown] using h

theorem dropAll_setAll (before after : List (JsString × Rev)) :
    dropAll after (setAll (fun key => (JsProps.get? before key).map Rev.doc) after) (JsProps.keys before) =
      fun key => (JsProps.get? after key).map Rev.doc := by
  funext key
  rw [dropAll, setAll, JsProps.hasOwn]
  cases hget : JsProps.get? after key with
  | some value => simp
  | none =>
    by_cases hmem : key ∈ JsProps.keys before
    · simp [hmem]
    · simp [hmem, (JsProps.get?_eq_none_iff before key).mpr hmem]

variable {live : Rev → Prop} (heap : Heap live)
include heap

theorem diffObject_diffs {ref ref' : Nat} (hbef : live (.object ref before))
    (hafter : live (.object ref' after)) (path : Path) {sets : List Op → List Op}
    (hsets : (∀ key ∈ JsProps.keys after, isReserved key = false) → Diffs path (Rev.object ref before).doc
        (.record (setAll (fun key => (JsProps.get? before key).map Rev.doc) after)) sets) :
    Diffs path (Rev.object ref before).doc (Rev.object ref' after).doc
      (diffObject (.object ref before) (.object ref' after) before after path sets) := by
  by_cases hres : (JsProps.keys before ++ JsProps.keys after).any isReserved = true
  · by_cases heq : equalJson (.object ref before) (.object ref' after) = true
    · intro ops
      simp only [diffObject, if_pos hres, if_pos heq]
      rw [equalJson_doc heap _ _ hbef hafter heq]
      exact Diffs.same _ _ ops
    · intro ops
      simp only [diffObject, if_pos hres, if_neg heq]
      exact emitSet_diffs path _ _ ops
  · have hsafe : ∀ key ∈ JsProps.keys before ++ JsProps.keys after, isReserved key = false := by
      intro key hkey
      by_contra hne
      exact hres (any_eq_true.mpr ⟨key, hkey, by simpa using hne⟩)
    have hfirst := hsets fun key hkey => hsafe key (mem_append_right _ hkey)
    have hrest := deleteKeys_diffs after path (JsProps.keys before)
      (fun key hkey => hsafe key (mem_append_left _ hkey))
      (setAll (fun key => (JsProps.get? before key).map Rev.doc) after)
    rw [dropAll_setAll, ← Rev.doc_object ref'] at hrest
    intro ops
    simp only [diffObject, if_neg hres]
    exact hfirst.trans hrest ops

end Objects

/-! ## Values -/

section Values

variable {live : Rev → Prop} (heap : Heap live)
include heap

variable {before after : Rev}

/-- The two checks `diffValue` begins with. -/
theorem diffs_unless_same (hbef : live before) (hafter : live after) {path : Path}
    {step : List Op → List Op} (h : Diffs path before.doc after.doc step) :
    Diffs path before.doc after.doc
      (fun ops => if same before after || decide (ops.length > MAX_DELTA_OPERATIONS) then ops else step ops) := by
  cases hsame : same before after with
  | true =>
    rw [same_doc heap hbef hafter hsame]
    simpa using Diffs.same path after.doc
  | false => simpa using h.guard

omit heap in
theorem string_diffs (before after : JsString) (path : Path) :
    Diffs path (Rev.string before).doc (Rev.string after).doc (fun ops =>
      if path = [] then emitSet path (.string after) ops else ops ++ emitString DEFAULT_OVERLAP_SCAN before after path) := by
  by_cases hpath : path = []
  · simp only [if_pos hpath]
    exact emitSet_diffs path _ _
  · simp only [if_neg hpath]
    exact Diffs.of_emits (emitString_emits _ before after hpath)

theorem diffValue_diffs (after : Rev) : ∀ before, live before → live after → ∀ path,
    Diffs path before.doc after.doc (diffValue before after path) := by
  induction after using Rev.induction with
  | null | boolean | number =>
    intro before hbef hafter path
    cases before <;> exact diffs_unless_same heap hbef hafter (emitSet_diffs path _ _)
  | string s =>
    intro before hbef hafter path
    cases before with
    | string s' => exact diffs_unless_same heap hbef hafter (string_diffs s' s path)
    | _ => exact diffs_unless_same heap hbef hafter (emitSet_diffs path _ _)
  | array ref items ih =>
    intro before hbef hafter path
    cases before with
    | array ref' items' =>
      have hitems' := heap.item ref' items' hbef
      have hitems := heap.item ref items hafter
      have helements : items'.length = items.length →
          Diffs path (.seq (items'.map Rev.doc)) (.seq (items.map Rev.doc)) (diffItems items' items 0 path) :=
        fun hlen => diffItems_diffs hlen path (fun y hy x hx => ih y hy x (hitems' x hx) (hitems y hy)) []
      have h := diffArray_diffs heap hitems' hitems path helements
      rw [← Rev.doc_array ref', ← Rev.doc_array ref] at h
      exact diffs_unless_same heap hbef hafter h
    | _ => exact diffs_unless_same heap hbef hafter (emitSet_diffs path _ _)
  | object ref props ih =>
    intro before hbef hafter path
    cases before with
    | object ref' props' =>
      obtain ⟨_, hprops'⟩ := heap.prop ref' props' hbef
      obtain ⟨hnd, hprops⟩ := heap.prop ref props hafter
      apply diffs_unless_same heap hbef hafter
      apply diffObject_diffs heap hbef hafter
      intro hkeys
      rw [Rev.doc_object]
      apply diffKeys_diffs path hnd hkeys
      · intro p hp x hx
        exact ih p hp x (hprops' _ (JsProps.mem_of_get? hx)) (hprops p hp)
      · intro key _
        rfl
    | _ => exact diffs_unless_same heap hbef hafter (emitSet_diffs path _ _)

/-- Whatever `diffRevisions` returns turns the one revision into the other. -/
theorem diffRevisions_emits (numberLength : JsNumber → Nat) (hbef : live before)
    (hafter : live after) : Emits [] before.doc after.doc (diffRevisions numberLength before after) := by
  obtain ⟨new, he, hnew⟩ := diffValue_diffs heap after before hbef hafter [] []
  rw [nil_append] at he hnew
  have hbase := emits_replace before.doc after.erase
  simp only [diffRevisions, he]
  split
  · exact hbase
  · rename_i hlen
    have hemits := hnew (by omega)
    split
    · exact hemits
    · split
      · exact hemits
      · split
        · exact hbase
        · exact hemits

/-- The diff is valid, applies to `before`, and leaves `after`; it is empty only between
equal revisions. -/
theorem diffRevisions_exact (numberLength : JsNumber → Nat) {before after : Rev} (hbefore : live before)
    (hafter : live after) :
    (∀ op ∈ diffRevisions numberLength before after, assertValidOp op = .ok ()) ∧
      (∃ result, applyImmutable (some before.erase) (diffRevisions numberLength before after) = .ok (some result) ∧
        result.Same after.erase) ∧
      (diffRevisions numberLength before after = [] → before.erase.Same after.erase) := by
  have hemits := diffRevisions_emits heap numberLength hbefore hafter
  have hvalid := hemits.valid rfl
  have happly : ∃ result, applyImmutable (some before.erase) (diffRevisions numberLength before after) =
      .ok (some result) ∧ result.Same after.erase := by
    have hmeaning : edits (diffRevisions numberLength before after) ((some before.erase).map Json.doc) =
        some (some after.doc) := hemits.meaning _ rfl
    obtain ⟨next, hnext, hdoc⟩ := applyImmutable_follows hvalid hmeaning
    cases next with
    | none => cases hdoc
    | some result =>
      exact ⟨result, hnext, (Option.some.inj hdoc).symm⟩
  refine ⟨hvalid, happly, ?_⟩
  intro hempty
  obtain ⟨result, hresult, hsame⟩ := happly
  rw [hempty] at hresult
  cases hresult
  exact hsame

end Values

/-- Two revisions that share a container and hold it at different positions. -/
def sharedItem : Rev := .object 1 [([105, 100], .null)]

def sharedBefore : Rev := .array 2 [sharedItem, .null]

def sharedAfter : Rev := .array 3 [.null, sharedItem]

inductive SharedLive : Rev → Prop
  | before : SharedLive sharedBefore
  | after : SharedLive sharedAfter
  | item : SharedLive sharedItem
  | null : SharedLive .null

theorem sharedLive_heap : Heap SharedLive where
  identity := by
    intro u v hu hv ref hru hrv
    cases hu <;> cases hv <;> cases hru <;> cases hrv <;> rfl
  item := by
    intro ref items h v hv
    generalize hw : Rev.array ref items = w at h
    cases h with
    | before =>
      cases hw
      rcases mem_pair.mp hv with rfl | rfl
      · exact .item
      · exact .null
    | after =>
      cases hw
      rcases mem_pair.mp hv with rfl | rfl
      · exact .null
      · exact .item
    | item | null => cases hw
  prop := by
    intro ref props h
    generalize hw : Rev.object ref props = w at h
    cases h with
    | before | after | null => cases hw
    | item =>
      cases hw
      refine ⟨nodup_singleton _, ?_⟩
      intro p hp
      rw [mem_singleton.mp hp]
      exact .null

theorem diffRevisions_exact_shared : diffRevisions (fun _ => 1) sharedBefore sharedAfter = [.m [] [1, 0]] ∧
      ∃ result, applyImmutable (some sharedBefore.erase) [.m [] [1, 0]] = .ok (some result) ∧
        result.Same sharedAfter.erase := by
  have hops : diffRevisions (fun _ => 1) sharedBefore sharedAfter = [.m [] [1, 0]] := by rfl
  obtain ⟨_, hresult, _⟩ := diffRevisions_exact sharedLive_heap (fun _ => 1) SharedLive.before SharedLive.after
  rw [hops] at hresult
  exact ⟨hops, hresult⟩

end Shuvpi.StateDiff
