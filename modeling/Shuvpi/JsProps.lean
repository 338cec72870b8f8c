import Shuvpi.JsText

/-!
# Own properties of a JavaScript object

The enumerable string-keyed data properties of a plain object, in the order in
which `Object.keys` lists them: array-index keys first, ascending, then the
other keys in the order of their creation. `define` is the effect of an
assignment or of `Object.defineProperty` with a full data descriptor, `erase` the
effect of `delete`. The values are arbitrary.
-/
open List

namespace Shuvpi

abbrev JsProps (α : Type) := List (JsString × α)

namespace JsProps

variable {α β : Type}

/-- The number that a list of decimal digits spells. -/
def digitsValue (key : JsString) : Nat := key.foldl (fun n u => 10 * n + (u.toNat - 48)) 0

/-- The array index that a key is the canonical spelling of. -/
def arrayIndex? (key : JsString) : Option Nat :=
  if key ≠ [] ∧ (∀ u ∈ key, 48 ≤ u.toNat ∧ u.toNat ≤ 57) ∧ (key.head? ≠ some 48 ∨ key.length = 1) ∧
      digitsValue key < 2 ^ 32 - 1 then
    some (digitsValue key)
  else none

/-- Whether a new key is listed before an existing one. -/
def listedBefore (key other : JsString) : Bool :=
  match arrayIndex? key, arrayIndex? other with
  | some i, some j => i < j
  | some _, none => true
  | none, _ => false

def get? (props : JsProps α) (key : JsString) : Option α := (props.find? fun p => p.1 = key).map Prod.snd

def keys (props : JsProps α) : List JsString := props.map Prod.fst

def hasOwn (props : JsProps α) (key : JsString) : Bool := (get? props key).isSome

def insertNew (props : JsProps α) (key : JsString) (value : α) : JsProps α :=
  match props with
  | [] => [(key, value)]
  | p :: rest => if listedBefore key p.1 then (key, value) :: p :: rest else p :: insertNew rest key value

def define (props : JsProps α) (key : JsString) (value : α) : JsProps α :=
  if key ∈ keys props then props.map fun p => if p.1 = key then (key, value) else p
  else insertNew props key value

def erase (props : JsProps α) (key : JsString) : JsProps α := props.filter fun p => p.1 ≠ key

/-- The order in which own keys are listed. -/
def Listed (props : JsProps α) : Prop := props.Pairwise fun p q => listedBefore q.1 p.1 = false

/-- What holds of the properties of every object: no key occurs twice, and they
are in listing order. -/
structure Wf (props : JsProps α) : Prop where
  nodup : (keys props).Nodup
  listed : Listed props

theorem mem_keys {props : JsProps α} {key : JsString} : key ∈ keys props ↔ ∃ value, (key, value) ∈ props := by
  simp [keys]

variable (props : JsProps α) (key : JsString)

theorem get?_isSome_iff : (get? props key).isSome ↔ key ∈ keys props := by
  simp [get?, keys]

theorem get?_eq_none_iff : get? props key = none ↔ key ∉ keys props := by
  rw [← get?_isSome_iff]
  cases get? props key <;> simp

@[simp] theorem get?_nil : get? ([] : JsProps α) key = none := rfl

theorem get?_cons (p : JsString × α) (props : JsProps α) (key : JsString) :
    get? (p :: props) key = if p.1 = key then some p.2 else get? props key := by
  by_cases h : p.1 = key <;> simp [get?, h]

theorem mem_of_get? {props : JsProps α} {key : JsString} {value : α} (h : get? props key = some value) :
    (key, value) ∈ props := by
  induction props with
  | nil => simp at h
  | cons p props ih =>
    rw [get?_cons] at h
    split at h
    · rename_i hk
      cases h
      simp [← hk]
    · exact mem_cons_of_mem _ (ih h)

theorem get?_of_mem {props : JsProps α} {key : JsString} {value : α} (hnd : (keys props).Nodup)
    (h : (key, value) ∈ props) : get? props key = some value := by
  induction props with
  | nil => simp at h
  | cons p props ih =>
    rw [get?_cons]
    simp only [keys, map_cons, nodup_cons] at hnd
    rcases mem_cons.mp h with rfl | h
    · simp
    · have hne : p.1 ≠ key := by
        intro he
        exact hnd.1 (mem_map.mpr ⟨_, h, he.symm⟩)
      rw [if_neg hne, ih hnd.2 h]

variable (value : α)

theorem insertNew_perm : (insertNew props key value).Perm ((key, value) :: props) := by
  induction props with
  | nil => exact List.Perm.refl _
  | cons p props ih =>
    rw [insertNew]
    split
    · exact List.Perm.refl _
    · exact (List.Perm.cons p ih).trans (List.Perm.swap _ _ _)

theorem get?_insertNew (h : key ∉ keys props)
    (other : JsString) :
    get? (insertNew props key value) other = if key = other then some value else get? props other := by
  induction props with
  | nil => rw [insertNew, get?_cons]
  | cons p props ih =>
    simp only [keys, map_cons, mem_cons, not_or] at h
    rw [insertNew]
    split
    · rw [get?_cons]
    · rw [get?_cons, ih h.2, get?_cons]
      split
      · rename_i hp
        rw [if_neg (by rw [← hp]; exact h.1)]
      · rfl

theorem get?_map_replace (other : JsString) : get? (props.map fun p => if p.1 = key then (key, value) else p) other =
      if key = other ∧ key ∈ keys props then some value else get? props other := by
  induction props with
  | nil => simp [keys]
  | cons p props ih =>
    rw [map_cons, get?_cons, ih, get?_cons]
    by_cases hp : p.1 = key <;> by_cases ho : key = other
    · simp [hp, ho, keys]
    · simp [hp, ho]
    · have hmem : key ∈ keys (p :: props) ↔ key ∈ keys props := by simp [keys, Ne.symm hp]
      subst ho
      simp only [hp, if_false, hmem]
    · simp [hp, ho]

/-- Reading after a definition. -/
@[simp] theorem get?_define (other : JsString) :
    get? (define props key value) other = if key = other then some value else get? props other := by
  rw [define]
  split
  · rename_i h
    rw [get?_map_replace]
    simp [h]
  · rename_i h
    exact get?_insertNew props key value h other

/-- Reading after a deletion. -/
@[simp] theorem get?_erase (key other : JsString) :
    get? (erase props key) other = if key = other then none else get? props other := by
  induction props with
  | nil => simp [erase]
  | cons p props ih =>
    rw [erase] at ih
    rw [erase, filter_cons]
    by_cases hp : p.1 = key
    · simp only [hp, ne_eq, not_true_eq_false, decide_false, Bool.false_eq_true, if_false]
      rw [ih, get?_cons, hp]
      split <;> rfl
    · simp only [ne_eq, hp, not_false_eq_true, decide_true, if_true]
      rw [get?_cons, ih, get?_cons]
      by_cases ho : key = other
      · subst ho; simp [hp]
      · simp [ho]

theorem keys_map_replace : keys (props.map fun p => if p.1 = key then (key, value) else p) = keys props := by
  simp only [keys, map_map]
  apply map_congr_left
  intro p _
  simp only [Function.comp]
  split
  · rename_i h; exact h.symm
  · rfl

theorem listed_of_keys {props : JsProps α} {props' : JsProps β} (h : keys props = keys props')
    (hl : Listed props) : Listed props' := by
  have h1 : (keys props).Pairwise fun k k' => listedBefore k' k = false := pairwise_map.mpr hl
  rw [h] at h1
  exact pairwise_map.mp h1

theorem listedBefore_trans {a b c : JsString} (h : listedBefore a b = true) (h' : listedBefore c b = false) :
    listedBefore c a = false := by
  simp only [listedBefore] at *
  cases ha : arrayIndex? a <;> cases hb : arrayIndex? b <;> cases hc : arrayIndex? c <;>
    simp_all
  omega

theorem listedBefore_asymm {a b : JsString} (h : listedBefore a b = true) : listedBefore b a = false := by
  simp only [listedBefore] at *
  cases ha : arrayIndex? a <;> cases hb : arrayIndex? b <;> simp_all
  omega

theorem insertNew_listed (h : Listed props) : Listed (insertNew props key value) := by
  induction props with
  | nil => exact pairwise_singleton _ _
  | cons p props ih =>
    obtain ⟨hp, hrest⟩ := pairwise_cons.mp h
    rw [insertNew]
    split
    · rename_i hb
      refine pairwise_cons.mpr ⟨?_, h⟩
      intro q hq
      rcases mem_cons.mp hq with rfl | hq
      · exact listedBefore_asymm hb
      · exact listedBefore_trans hb (hp q hq)
    · rename_i hb
      refine pairwise_cons.mpr ⟨?_, ih hrest⟩
      intro q hq
      rcases mem_cons.mp ((insertNew_perm props key value).mem_iff.mp hq) with rfl | hq
      · simpa using hb
      · exact hp q hq

/-- Defining a property keeps an object well formed. -/
theorem define_wf (h : Wf props) : Wf (define props key value) := by
  rw [define]
  split
  · rename_i hk
    have hkeys := keys_map_replace props key value
    exact ⟨hkeys ▸ h.nodup, listed_of_keys hkeys.symm h.listed⟩
  · rename_i hk
    refine ⟨?_, insertNew_listed props key value h.listed⟩
    have hperm := (insertNew_perm props key value).map Prod.fst
    exact (hperm.nodup_iff).mpr (nodup_cons.mpr ⟨hk, h.nodup⟩)

theorem wf_filter (keep : JsString × α → Bool) (h : Wf props) : Wf (props.filter keep) :=
  ⟨h.nodup.sublist (List.Sublist.map _ filter_sublist), List.Pairwise.sublist filter_sublist h.listed⟩

theorem wf_nil : Wf ([] : JsProps α) := ⟨nodup_nil, List.Pairwise.nil⟩

theorem wf_append_left {props rest : JsProps α} (h : Wf (props ++ rest)) : Wf props :=
  ⟨h.nodup.sublist (List.Sublist.map _ (sublist_append_left _ _)),
    List.Pairwise.sublist (sublist_append_left _ _) h.listed⟩

theorem insertNew_last
    (h : ∀ p ∈ props, listedBefore key p.1 = false) : insertNew props key value = props ++ [(key, value)] := by
  induction props with
  | nil => rfl
  | cons p props ih =>
    rw [insertNew, h p (by simp)]
    simp only [Bool.false_eq_true, if_false, cons_append]
    rw [ih (fun q hq => h q (by simp [hq]))]

/-- Properties defined in listing order end up in that order. -/
theorem define_last {props : JsProps α} {key : JsString} {value : α} (h : Wf (props ++ [(key, value)])) :
    define props key value = props ++ [(key, value)] := by
  have hnd := h.nodup
  simp only [keys, map_append, map_cons, map_nil] at hnd
  have hnew : key ∉ keys props := by
    intro hk
    exact (nodup_append.mp hnd).2.2 key hk key (by simp) rfl
  rw [define, if_neg hnew]
  apply insertNew_last
  intro p hp
  exact (pairwise_append.mp h.listed).2.2 p hp (key, value) (by simp)

theorem define_perm (h : key ∉ keys props) : (define props key value).Perm ((key, value) :: props) := by
  rw [define, if_neg h]
  exact insertNew_perm props key value

end JsProps
end Shuvpi
