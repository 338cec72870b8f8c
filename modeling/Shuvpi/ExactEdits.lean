import Shuvpi.EditDiff

/-!
# Edits whose texts are there as they are

Where each text to find stands in the content as it is, the edits that are made are those that
were asked for: at its place each, all at once and in no order. That the place is the only one is
counted in the normalised content, where occurrences are cut out one after the other.
-/
namespace Shuvpi.EditDiff

open Occurrence
open List

/-! ## Occurrences -/

section Occurrences
variable {content needle : JsString}

def OccursAt (content oldText : JsString) (k : Nat) : Prop := oldText <+: content.drop k

instance (content oldText : JsString) (k : Nat) : Decidable (OccursAt content oldText k) :=
  inferInstanceAs (Decidable (oldText <+: content.drop k))

theorem indexOf_first {i : Nat} (h : indexOf? needle content = some i) :
    OccursAt content needle i ∧ ∀ k, OccursAt content needle k → i ≤ k := by
  induction content generalizing i with
  | nil =>
    rw [indexOf?] at h
    split at h
    · rename_i hn
      cases h
      exact ⟨by rw [hn]; exact nil_prefix, fun _ _ => Nat.zero_le _⟩
    · cases h
  | cons u content ih =>
    by_cases hp : needle <+: u :: content
    · rw [indexOf?_here hp] at h
      cases h
      exact ⟨hp, fun _ _ => Nat.zero_le _⟩
    · rw [indexOf?_later hp, Option.map_eq_some_iff] at h
      obtain ⟨j, hj, rfl⟩ := h
      obtain ⟨hat, hleast⟩ := ih hj
      refine ⟨hat, fun k hk => ?_⟩
      cases k with
      | zero => exact absurd hk hp
      | succ k => exact Nat.succ_le_succ (hleast k hk)

theorem indexOf_none : indexOf? needle content = none ↔ ∀ k, ¬OccursAt content needle k := by
  induction content with
  | nil =>
    rw [indexOf?]
    by_cases hn : needle = []
    · rw [if_pos hn]
      exact ⟨fun h => (by cases h), fun h => absurd (by rw [hn]; exact nil_prefix) (h 0)⟩
    · rw [if_neg hn]
      refine ⟨fun _ k hk => hn (prefix_nil.mp ?_), fun _ => rfl⟩
      rwa [OccursAt, drop_nil] at hk
  | cons u content ih =>
    by_cases hp : needle <+: u :: content
    · rw [indexOf?_here hp]
      exact ⟨fun h => (by cases h), fun h => absurd hp (h 0)⟩
    · rw [indexOf?_later hp, Option.map_eq_none_iff, ih]
      constructor
      · intro h k
        cases k with
        | zero => exact hp
        | succ k => exact h k
      · exact fun h k => h (k + 1)

theorem OccursAt.bound {k : Nat} (hn : needle ≠ []) (h : OccursAt content needle k) : k + needle.length ≤ content.length := by
  have hle := h.length_le
  have hpos := length_pos_of_ne_nil hn
  rw [length_drop] at hle
  omega

/-- Two occurrences do not overlap. -/
def Apart (content oldText : JsString) : Prop :=
  ∀ j k, OccursAt content oldText j → OccursAt content oldText k → j < k → j + oldText.length ≤ k

theorem partsFrom_one (hn : needle ≠ []) {n : Nat} (hlen : content.length ≤ n) :
    (partsFrom needle n content).length ≤ 1 ↔ ∀ k, ¬OccursAt content needle k := by
  rw [← indexOf_none]
  cases n with
  | zero =>
    obtain rfl := eq_nil_of_length_eq_zero (Nat.le_zero.mp hlen)
    rw [indexOf?, if_neg hn]
    exact ⟨fun _ => rfl, fun _ => le_rfl⟩
  | succ n =>
    rw [partsFrom]
    cases hi : indexOf? needle content with
    | none => exact ⟨fun _ => rfl, fun _ => le_rfl⟩
    | some i =>
      refine ⟨fun h => ?_, fun h => by cases h⟩
      have hrest : 0 < (partsFrom needle n (content.drop (i + needle.length))).length := by
        cases n with
        | zero => exact Nat.one_pos
        | succ n =>
          rw [partsFrom]
          split <;> simp
      simp only [length_cons] at h
      omega

/-- One occurrence is the only one if none overlap and the content is cut into two parts at most. -/
theorem unique_iff (hn : needle ≠ []) {i : Nat} (hi : indexOf? needle content = some i) :
    (∃ k, OccursAt content needle k ∧ ∀ j, OccursAt content needle j → j = k) ↔
      Apart content needle ∧ (split content needle).length ≤ 2 := by
  obtain ⟨hat, hleast⟩ := indexOf_first hi
  have hbound := hat.bound hn
  have hpos := length_pos_of_ne_nil hn
  have hcut : (split content needle).length ≤ 2 ↔ ∀ k, ¬OccursAt (content.drop (i + needle.length)) needle k := by
    obtain ⟨n, hlen⟩ : ∃ n, content.length = n + 1 := ⟨content.length - 1, by omega⟩
    have hrest : (content.drop (i + needle.length)).length ≤ n := by
      rw [length_drop]
      omega
    rw [split, if_neg hn, hlen, partsFrom, hi, ← partsFrom_one hn hrest, length_cons]
    omega
  have hlater : ∀ k, OccursAt (content.drop (i + needle.length)) needle k ↔
      OccursAt content needle (i + needle.length + k) := fun k => by
    rw [OccursAt, drop_drop, OccursAt]
  rw [hcut]
  constructor
  · rintro ⟨k, -, honly⟩
    obtain rfl := honly i hat
    refine ⟨fun j l hj hl hlt => ?_, fun j hj => ?_⟩
    · have := honly j hj
      have := honly l hl
      omega
    · have := honly _ ((hlater j).mp hj)
      omega
  · rintro ⟨hapart, hnone⟩
    refine ⟨i, hat, fun j hj => ?_⟩
    by_contra hne
    have hle := hleast j hj
    have hend := hapart i j hat hj (by omega)
    refine hnone (j - (i + needle.length)) ((hlater _).mpr ?_)
    rwa [Nat.add_sub_cancel' hend]

end Occurrences

/-! ## Replacements -/

/-- All replacements made at once: what is between them stays. -/
inductive Replaced : Nat → JsString → List TextReplacement → JsString → Prop
  | rest (offset : Nat) (content : JsString) : Replaced offset content [] content
  | replace {offset : Nat} {gap old newText content result : JsString} {replacements : List TextReplacement} :
    Replaced (offset + gap.length + old.length) content replacements result →
    Replaced offset (gap ++ old ++ content) (⟨offset + gap.length, old.length, newText⟩ :: replacements)
      (gap ++ newText ++ result)

def Before (a b : TextReplacement) : Prop := a.matchIndex + a.matchLength ≤ b.matchIndex

variable {replacements : List TextReplacement}

/-- What is before all replacements stays. -/
theorem applyReplacements_append (front content : JsString) {offset : Nat}
    (h : ∀ r ∈ replacements, offset + front.length ≤ r.matchIndex) :
    applyReplacements (front ++ content) replacements offset =
      front ++ applyReplacements content replacements (offset + front.length) := by
  induction replacements with
  | nil => rfl
  | cons r replacements ih =>
    obtain ⟨hr, hrest⟩ := forall_mem_cons.mp h
    rw [applyReplacements] at ih ⊢
    rw [foldr_cons, ih hrest]
    have hindex : r.matchIndex - offset = front.length + (r.matchIndex - (offset + front.length)) := by omega
    rw [hindex, take_length_add_append, Nat.add_assoc, drop_length_add_append]
    simp only [applyReplacements, foldr_cons, append_assoc]

theorem applyReplacements_replaced {offset : Nat} {content : JsString}
    (hbef : replacements.Pairwise Before) (hstart : ∀ r ∈ replacements, offset ≤ r.matchIndex)
    (hend : ∀ r ∈ replacements, r.matchIndex + r.matchLength ≤ offset + content.length) :
    Replaced offset content replacements (applyReplacements content replacements offset) := by
  induction replacements generalizing offset content with
  | nil => exact .rest offset content
  | cons r replacements ih =>
    obtain ⟨hfirst, hrest⟩ := pairwise_cons.mp hbef
    obtain ⟨hr, -⟩ := forall_mem_cons.mp hstart
    obtain ⟨hr', hend'⟩ := forall_mem_cons.mp hend
    obtain ⟨index, length, newText⟩ := r
    dsimp only at hr hr'
    -- the content is what is before the replacement, what it replaces, and the rest
    obtain ⟨gap, old, rest, rfl, hgap, hold⟩ : ∃ gap old rest, content = gap ++ old ++ rest ∧ gap.length = index - offset ∧
        old.length = length := by
      refine ⟨content.take (index - offset), (content.drop (index - offset)).take length,
        content.drop (index - offset + length), ?_, ?_, ?_⟩
      · rw [append_assoc, ← drop_drop, take_append_drop, take_append_drop]
      · rw [length_take]
        omega
      · rw [length_take, length_drop]
        omega
    obtain rfl : index = offset + gap.length := by omega
    subst hold
    have hafter : ∀ r ∈ replacements, offset + (gap ++ old).length ≤ r.matchIndex := fun r hr => by
      have hr : offset + gap.length + old.length ≤ r.matchIndex := hfirst r hr
      rw [length_append]
      omega
    have hres := applyReplacements_append (gap ++ old) rest hafter
    rw [applyReplacements] at hres ⊢
    rw [foldr_cons, hres]
    have htake : ∀ x, (gap ++ old ++ x).take gap.length = gap := fun x => by rw [append_assoc, take_left]
    have hdrop : ∀ x, (gap ++ old ++ x).drop (gap.length + old.length) = x := fun x => by
      rw [← length_append, drop_left]
    rw [Nat.add_sub_cancel_left, htake, hdrop]
    refine .replace ?_
    rw [length_append, ← Nat.add_assoc]
    refine ih hrest (fun r hr => ?_) fun r hr => ?_
    · have := hafter r hr
      rw [length_append] at this
      omega
    · have := hend' r hr
      simp only [length_append] at this
      omega

/-! ## Matching -/

section Apply
variable {nfkc : JsString → JsString} {content : JsString} {path : String} {edits : List Edit}

/-- The replacement of an edit whose text is there. -/
def exactMatch (content : JsString) (edit : Edit) : TextReplacement :=
  ⟨(indexOf? edit.oldText content).getD 0, edit.oldText.length, edit.newText⟩

/-- All texts to find are there. -/
def Occur (content : JsString) (edits : List Edit) : Prop := ∀ edit ∈ edits, ∃ i, indexOf? edit.oldText content = some i

theorem exactMatch_occurs (h : Occur content edits) {edit : Edit} (hmem : edit ∈ edits) :
    OccursAt content edit.oldText (exactMatch content edit).matchIndex := by
  obtain ⟨i, hi⟩ := h edit hmem
  rw [exactMatch, hi]
  exact (indexOf_first hi).1

theorem fuzzyFindText_exact {oldText : JsString} {i : Nat} (h : indexOf? oldText content = some i) :
    fuzzyFindText nfkc content oldText = some ⟨i, oldText.length, false, content⟩ := by
  rw [fuzzyFindText, h]

/-- The edits are matched if the normalised content has each text once at most. -/
theorem matchEdits_exact (h : Occur content edits) (total i : Nat) :
    (∃ matched, matchEdits nfkc content path total i edits = .ok matched) ↔
      ∀ edit ∈ edits, countOccurrences nfkc content edit.oldText ≤ 1 := by
  induction edits generalizing i with
  | nil => exact ⟨fun _ => nofun, fun _ => ⟨[], rfl⟩⟩
  | cons edit edits ih =>
    obtain ⟨⟨k, hk⟩, hrest⟩ := forall_mem_cons.mp h
    have ih := ih hrest (i + 1)
    rw [matchEdits, fuzzyFindText_exact hk, forall_mem_cons, ← ih]
    dsimp only
    by_cases hcount : countOccurrences nfkc content edit.oldText > 1
    · rw [if_pos hcount]
      exact ⟨nofun, fun h => absurd h.1 (by omega)⟩
    · rw [if_neg hcount]
      constructor
      · rintro ⟨matched, hmat⟩
        refine ⟨by omega, ?_⟩
        cases hedits : matchEdits nfkc content path total (i + 1) edits with
        | error e =>
          rw [hedits] at hmat
          cases hmat
        | ok matched' => exact ⟨matched', rfl⟩
      · rintro ⟨-, matched, hmat⟩
        rw [hmat]
        exact ⟨_, rfl⟩

variable {matched : List MatchedEdit}

theorem matchEdits_matched (h : Occur content edits) {total i : Nat}
    (hmat : matchEdits nfkc content path total i edits = .ok matched) :
    matched.map (·.toTextReplacement) = edits.map (exactMatch content) := by
  induction edits generalizing i matched with
  | nil =>
    cases hmat
    rfl
  | cons edit edits ih =>
    obtain ⟨⟨k, hk⟩, hrest⟩ := forall_mem_cons.mp h
    rw [matchEdits, fuzzyFindText_exact hk] at hmat
    dsimp only at hmat
    split at hmat
    · cases hmat
    · cases hedits : matchEdits nfkc content path total (i + 1) edits with
      | error e =>
        rw [hedits] at hmat
        cases hmat
      | ok matched' =>
        rw [hedits] at hmat
        cases hmat
        rw [map_cons, map_cons, ih hrest hedits, exactMatch, hk]
        rfl

theorem checkOverlaps_iff (path : String) (matched : List MatchedEdit) :
    checkOverlaps path matched = .ok () ↔ (matched.map (·.toTextReplacement)).Pairwise Before := by
  have htrans : Trans Before Before Before := ⟨fun {a b c} hab hbc => by
    unfold Before at *
    omega⟩
  have hchain : checkOverlaps path matched = .ok () ↔ (matched.map (·.toTextReplacement)).IsChain Before := by
    induction matched with
    | nil => exact ⟨fun _ => .nil, fun _ => rfl⟩
    | cons a rest ih =>
      cases rest with
      | nil => exact ⟨fun _ => .singleton _, fun _ => rfl⟩
      | cons b rest =>
        rw [map_cons, map_cons, isChain_cons_cons, checkOverlaps]
        split
        · rename_i hover
          refine ⟨nofun, fun h => absurd h.1 ?_⟩
          rw [Before]
          omega
        · rename_i hover
          rw [Before]
          exact ⟨fun h => ⟨by omega, ih.mp h⟩, fun h => ih.mpr h.2⟩
  rw [hchain]
  exact isChain_iff_pairwise

/-- The replacements of the edits, in their order in the content. -/
def ordered (content : JsString) (edits : List Edit) : List TextReplacement :=
  (edits.map (exactMatch content)).insertionSort byMatchIndex

theorem ordered_matched (h : matched.map (·.toTextReplacement) = edits.map (exactMatch content)) :
    (matched.insertionSort fun a b => byMatchIndex a.toTextReplacement b.toTextReplacement).map (·.toTextReplacement) =
      ordered content edits := by
  rw [ordered, ← h]
  exact map_insertionSort _ _ _ _ fun _ _ _ _ => Iff.rfl

/-- What is returned where all texts are there. -/
theorem apply_exact_iff (h : Occur content (edits.map normalizeEdit)) (result : AppliedEditsResult) :
    applyEditsToNormalizedContent nfkc content edits path = .ok result ↔
      (∀ edit ∈ edits.map normalizeEdit, edit.oldText ≠ []) ∧
      (∀ edit ∈ edits.map normalizeEdit, countOccurrences nfkc content edit.oldText ≤ 1) ∧
      (ordered content (edits.map normalizeEdit)).Pairwise Before ∧
      content ≠ applyReplacements content (ordered content (edits.map normalizeEdit)) 0 ∧
      result = ⟨content, applyReplacements content (ordered content (edits.map normalizeEdit)) 0⟩ := by
  rw [applyEditsToNormalizedContent]
  generalize edits.map normalizeEdit = normalized at *
  have hfuzzy : (normalized.map fun edit => fuzzyFindText nfkc content edit.oldText).any
      (fun found => found.any (·.usedFuzzyMatch)) = false := by
    rw [any_eq_false]
    intro found hfound
    obtain ⟨edit, hmem, rfl⟩ := mem_map.mp hfound
    obtain ⟨i, hi⟩ := h edit hmem
    rw [fuzzyFindText_exact hi]
    exact Bool.false_ne_true
  dsimp only
  rw [hfuzzy]
  cases hempty : normalized.findIdx? fun edit => edit.oldText.length = 0 with
  | some i =>
    refine ⟨nofun, fun hall => ?_⟩
    obtain ⟨hlt, hnil, -⟩ := findIdx?_eq_some_iff_getElem.mp hempty
    exact absurd (eq_nil_of_length_eq_zero (by simpa using hnil)) (hall.1 _ (getElem_mem hlt))
  | none =>
    have hne : ∀ edit ∈ normalized, edit.oldText ≠ [] := fun edit hmem hnil => by
      have := findIdx?_eq_none_iff.mp hempty edit hmem
      rw [hnil] at this
      cases this
    have hmatches := @matchEdits_exact nfkc content path normalized h normalized.length 0
    rw [and_iff_right hne, ← hmatches]
    simp only [Bool.false_eq_true, if_false]
    cases hmat : matchEdits nfkc content path normalized.length 0 normalized with
    | error e => exact ⟨nofun, fun hall => by obtain ⟨⟨_, hm⟩, -⟩ := hall; cases hm⟩
    | ok matched =>
      have hord := ordered_matched (matchEdits_matched h hmat)
      have hcheck := checkOverlaps_iff path (matched.insertionSort fun a b => byMatchIndex a.toTextReplacement b.toTextReplacement)
      rw [hord] at hcheck
      rw [and_iff_right ⟨matched, rfl⟩, ← hcheck]
      simp only [bind, Except.bind, hord]
      cases hover : checkOverlaps path
          (matched.insertionSort fun a b => byMatchIndex a.toTextReplacement b.toTextReplacement) with
      | error e => exact ⟨nofun, fun hall => by cases hall.1⟩
      | ok _ =>
        dsimp only
        split
        · rename_i hsame
          exact ⟨nofun, fun hall => absurd hsame hall.2.1⟩
        · rename_i hchg
          exact ⟨fun h => ⟨rfl, hchg, (Except.ok.inj h).symm⟩, fun h => by rw [h.2.2]⟩

theorem ordered_perm : (ordered content edits).Perm (edits.map (exactMatch content)) := perm_insertionSort _ _

theorem ordered_sorted : (ordered content edits).Pairwise byMatchIndex := by
  have htotal : Std.Total byMatchIndex := ⟨fun a b => Nat.le_total a.matchIndex b.matchIndex⟩
  have htrans : IsTrans TextReplacement byMatchIndex := ⟨fun a b c hab hbc => Nat.le_trans hab hbc⟩
  exact pairwise_insertionSort _ _

/-- The order in which edits are given does not matter. -/
theorem ordered_eq {edits' : List Edit} (hperm : edits'.Perm edits) (hnonempty : ∀ edit ∈ edits, edit.oldText ≠ [])
    (hbef : (ordered content edits).Pairwise Before) : ordered content edits' = ordered content edits := by
  refine List.Perm.eq_of_pairwise (fun a b ha hb hab hba => ?_) ordered_sorted ordered_sorted
    (ordered_perm.trans ((hperm.map _).trans ordered_perm.symm))
  have ha' : a ∈ ordered content edits := ordered_perm.symm.subset ((hperm.map _).subset (ordered_perm.subset ha))
  have hlen : ∀ r ∈ ordered content edits, 0 < r.matchLength := fun r hr => by
    obtain ⟨edit, hmem, rfl⟩ := mem_map.mp (ordered_perm.subset hr)
    exact length_pos_of_ne_nil (hnonempty edit hmem)
  have hsame : a.matchIndex = b.matchIndex := Nat.le_antisymm hab hba
  by_contra hne
  -- of two replacements one is before the other
  have hpair := pairwise_iff_getElem.mp hbef
  obtain ⟨i, hi, rfl⟩ := getElem_of_mem ha'
  obtain ⟨j, hj, rfl⟩ := getElem_of_mem hb
  have hposI := hlen _ (getElem_mem hi)
  have hposJ := hlen _ (getElem_mem hj)
  rcases Nat.lt_trichotomy i j with hlt | rfl | hlt
  · have := hpair i j hi hj hlt
    rw [Before] at this
    omega
  · exact hne rfl
  · have := hpair j i hj hi hlt
    rw [Before] at this
    omega

end Apply

/-- What is said of edits whose texts are all there. -/
structure Unambiguous (nfkc : JsString → JsString) (content : JsString) (edits : List Edit) (path : String)
    (result : AppliedEditsResult) : Prop where
  unique : ∀ edit ∈ edits, ∃ k, OccursAt content (normalizeToLF edit.oldText) k ∧
    ∀ j, OccursAt content (normalizeToLF edit.oldText) j → j = k
  replaced : ∃ position : Edit → Nat, (∀ edit ∈ edits, OccursAt content (normalizeToLF edit.oldText) (position edit)) ∧
    ∃ replacements : List TextReplacement, replacements.Perm (edits.map fun edit =>
      ⟨position edit, (normalizeToLF edit.oldText).length, normalizeToLF edit.newText⟩) ∧
      Replaced 0 content replacements result.newContent
  order : ∀ edits' : List Edit, edits'.Perm edits → applyEditsToNormalizedContent nfkc content edits' path = .ok result

/-- Edits whose texts are all in the content, when they are applied, replace each of them, all at
once and in no order. Each text is there once only unless it overlaps itself, or the content as it
is has more of it than the normalised content. -/
theorem exact_edits (nfkc : JsString → JsString) {content : JsString} {edits : List Edit} {path : String}
    {result : AppliedEditsResult} (hresult : applyEditsToNormalizedContent nfkc content edits path = .ok result)
    (hoccur : ∀ edit ∈ edits, ∃ k, OccursAt content (normalizeToLF edit.oldText) k) :
    Unambiguous nfkc content edits path result ↔ ∀ edit ∈ edits, Apart content (normalizeToLF edit.oldText) ∧
      (split content (normalizeToLF edit.oldText)).length ≤ max 2
        (split (normalizeForFuzzyMatch nfkc content) (normalizeForFuzzyMatch nfkc (normalizeToLF edit.oldText))).length := by
  have hindex : ∀ edit ∈ edits, ∃ i, indexOf? (normalizeToLF edit.oldText) content = some i := fun edit hmem => by
    obtain ⟨k, hk⟩ := hoccur edit hmem
    exact Option.ne_none_iff_exists'.mp fun hnone => indexOf_none.mp hnone k hk
  have hall : Occur content (edits.map normalizeEdit) := fun edit hmem => by
    obtain ⟨given, hgiven, rfl⟩ := List.mem_map.mp hmem
    exact hindex given hgiven
  have happlied := (apply_exact_iff hall result).mp hresult
  obtain ⟨hnonempty, hcount, hbefore, hchange, rfl⟩ := happlied
  have hnonempty' : ∀ edit ∈ edits, normalizeToLF edit.oldText ≠ [] := fun edit hmem =>
    hnonempty (normalizeEdit edit) (List.mem_map_of_mem hmem)
  have hunique : ∀ edit ∈ edits, (∃ k, OccursAt content (normalizeToLF edit.oldText) k ∧
      ∀ j, OccursAt content (normalizeToLF edit.oldText) j → j = k) ↔ Apart content (normalizeToLF edit.oldText) ∧
      (split content (normalizeToLF edit.oldText)).length ≤ max 2
        (split (normalizeForFuzzyMatch nfkc content) (normalizeForFuzzyMatch nfkc (normalizeToLF edit.oldText))).length := by
    intro edit hmem
    obtain ⟨i, hi⟩ := hindex edit hmem
    have hfew : countOccurrences nfkc content (normalizeToLF edit.oldText) ≤ 1 :=
      hcount (normalizeEdit edit) (List.mem_map_of_mem hmem)
    have hmax : max 2 (split (normalizeForFuzzyMatch nfkc content)
        (normalizeForFuzzyMatch nfkc (normalizeToLF edit.oldText))).length = 2 := by
      rw [countOccurrences] at hfew
      omega
    rw [hmax]
    exact unique_iff (hnonempty' edit hmem) hi
  constructor
  · exact fun h edit hmem => (hunique edit hmem).mp (h.unique edit hmem)
  · intro h
    refine ⟨fun edit hmem => (hunique edit hmem).mpr (h edit hmem), ?_, fun edits' hperm => ?_⟩
    · refine ⟨fun edit => (indexOf? (normalizeToLF edit.oldText) content).getD 0, fun edit hmem => ?_, _, ?_,
        applyReplacements_replaced hbefore (fun _ _ => Nat.zero_le _) fun r hr => ?_⟩
      · exact exactMatch_occurs hall (List.mem_map_of_mem hmem : normalizeEdit edit ∈ edits.map normalizeEdit)
      · refine ordered_perm.trans ?_
        rw [List.map_map]
        exact List.Perm.refl _
      · obtain ⟨edit, hmem, rfl⟩ := List.mem_map.mp (ordered_perm.subset hr)
        rw [Nat.zero_add]
        exact (exactMatch_occurs hall hmem).bound (hnonempty edit hmem)
    · have hperm' := hperm.map normalizeEdit
      have hall' : Occur content (edits'.map normalizeEdit) := fun edit hmem => hall edit (hperm'.subset hmem)
      rw [apply_exact_iff hall', ordered_eq hperm' hnonempty hbefore]
      exact ⟨fun edit hmem => hnonempty edit (hperm'.subset hmem), fun edit hmem => hcount edit (hperm'.subset hmem),
        hbefore, hchange, rfl⟩

/-- Two texts apart from each other, given in the other order. -/
def twoEdits : List Edit := [⟨[99, 100], []⟩, ⟨[97, 98], [120]⟩]

theorem exact_edits_two : let content : JsString := [97, 98, 32, 99, 100, 10]
    let result : AppliedEditsResult := ⟨content, [120, 32, 10]⟩
    applyEditsToNormalizedContent id content twoEdits "f" = .ok result ∧ Unambiguous id content twoEdits "f" result := by
  intro content result
  have hresult : applyEditsToNormalizedContent id content twoEdits "f" = .ok result := by decide
  have hfirst : ∀ k ≤ 4, OccursAt content [97, 98] k → k = 0 := by decide
  have hsecond : ∀ k ≤ 4, OccursAt content [99, 100] k → k = 3 := by decide
  have hoccur : ∀ edit ∈ twoEdits, ∃ k, OccursAt content (normalizeToLF edit.oldText) k := by
    simp only [twoEdits, List.forall_mem_cons, List.not_mem_nil, false_implies, implies_true, and_true]
    exact ⟨⟨3, by decide⟩, 0, by decide⟩
  refine ⟨hresult, (exact_edits id hresult hoccur).mpr ?_⟩
  simp only [twoEdits, List.forall_mem_cons, List.not_mem_nil, false_implies, implies_true, and_true]
  constructor
  · refine ⟨fun j k hj hk hlt => ?_, by decide⟩
    have hboundj : j + 2 ≤ 6 := hj.bound (List.cons_ne_nil _ _)
    have hboundk : k + 2 ≤ 6 := hk.bound (List.cons_ne_nil _ _)
    have := hsecond j (by omega) hj
    have := hsecond k (by omega) hk
    omega
  · refine ⟨fun j k hj hk hlt => ?_, by decide⟩
    have hboundj : j + 2 ≤ 6 := hj.bound (List.cons_ne_nil _ _)
    have hboundk : k + 2 ≤ 6 := hk.bound (List.cons_ne_nil _ _)
    have := hfirst j (by omega) hj
    have := hfirst k (by omega) hk
    omega

def oneEdit : List Edit := [⟨[97, 97], [98]⟩]

/-- A text that overlaps itself: the first of two places is taken. -/
theorem exact_edits_overlapping : ∃ result, applyEditsToNormalizedContent id [97, 97, 97] oneEdit "f" = .ok result ∧
    OccursAt [97, 97, 97] [97, 97] 0 ∧ OccursAt [97, 97, 97] [97, 97] 1 ∧
    ¬Unambiguous id [97, 97, 97] oneEdit "f" result := by
  refine ⟨⟨[97, 97, 97], [98, 97]⟩, by decide, by decide, by decide, fun h => ?_⟩
  obtain ⟨k, -, honly⟩ := h.unique _ (List.mem_singleton.mpr rfl)
  have hzero := honly 0 (by decide)
  have hone := honly 1 (by decide)
  omega

end Shuvpi.EditDiff
