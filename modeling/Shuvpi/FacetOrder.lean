import Mathlib.Data.List.Perm.Subperm
import Shuvpi.Acyclic
import Shuvpi.JsMap

/-!
# The order in which facets are activated

`validateFacets` and `topologicalOrder` of `chord/facets/host.ts`. Maps that have an entry for
each facet are functions of the facet's id, and the members of a set stand in the order in which
they were added. The loop of `topologicalOrder` may take as many steps as there are facets, and
gives nothing when it needs more.
-/
open List Relation

namespace Shuvpi.Facets

inductive ServiceMode where
  | singleton
  | keyed
  deriving DecidableEq

def ServiceMode.text : ServiceMode → String
  | .singleton => "singleton"
  | .keyed => "keyed"

structure FacetServiceReference where
  serviceId : String
  mode : ServiceMode

structure FacetShape where
  facetId : String
  requires : List FacetServiceReference
  provides : List FacetServiceReference

/-- An entry of `providers`: the host has no facet id, and there is always a mode. -/
structure Provider where
  facetId : Option String
  mode : ServiceMode

/-! ## The providers -/

/-- A reference with the id of the facet that makes it. -/
abbrev Reference := String × FacetServiceReference

/-- What the loops over the records and their provisions run through. -/
def provisions (records : List FacetShape) : List Reference :=
  records.flatMap fun record => record.provides.map fun provision => (record.facetId, provision)

/-- The host's services, which are provided first. -/
def hosted (externalServices : JsMap String ServiceMode) : JsMap String Provider :=
  externalServices.map fun p => (p.1, ⟨none, p.2⟩)

def addProvision (providers : JsMap String Provider) (p : Reference) : Except String (JsMap String Provider) :=
  match JsMap.get providers p.2.serviceId with
  | some existing =>
    if existing.mode ≠ p.2.mode then
      .error ("Service " ++ p.2.serviceId ++ " is provided as both singleton and keyed")
    else match existing.facetId with
      | none => .error ("Service " ++ p.2.serviceId ++ " is provided by both the host and " ++ p.1)
      | some facetId => .error ("Service " ++ p.2.serviceId ++ " is provided by both " ++ facetId ++ " and " ++ p.1)
  | none => .ok (JsMap.set providers p.2.serviceId ⟨some p.1, p.2.mode⟩)

/-! ## The graph -/

def requirements (records : List FacetShape) : List Reference :=
  records.flatMap fun record => record.requires.map fun requirement => (record.facetId, requirement)

structure Graph where
  dependencies : String → List String
  dependents : String → List String

def addMember (members : List String) (id : String) : List String :=
  if id ∈ members then members else members ++ [id]

def addRequirement (providers : JsMap String Provider) (g : Graph) (r : Reference) : Except String Graph :=
  match JsMap.get providers r.2.serviceId with
  | none => .error ("Facet " ++ r.1 ++ " requires local/" ++ r.2.serviceId ++ "/" ++ r.2.mode.text ++
      ", but no facet provides it")
  | some provider =>
    if provider.mode ≠ r.2.mode then
      .error ("Facet " ++ r.1 ++ " requires " ++ r.2.serviceId ++ " as " ++ r.2.mode.text ++ ", but " ++
        provider.facetId.getD "the host" ++ " provides it as " ++ provider.mode.text)
    else match provider.facetId with
      | none => .ok g
      | some facetId =>
        if facetId = r.1 then .ok g
        else .ok {
          dependencies := Function.update g.dependencies r.1 (addMember (g.dependencies r.1) facetId)
          dependents := Function.update g.dependents facetId (addMember (g.dependents facetId) r.1) }

/-! ## The order -/

structure Sorting where
  remaining : String → Int
  ready : List String
  order : List String

/-- A dependency of `dependent` is in the order now. -/
def Sorting.release (s : Sorting) (dependent : String) : Sorting :=
  let count := s.remaining dependent - 1
  { s with
    remaining := Function.update s.remaining dependent count
    ready := if count = 0 then s.ready ++ [dependent] else s.ready }

/-- The loop while a facet is ready. -/
def drain (dependents : String → List String) : Nat → Sorting → Option Sorting
  | 0, s => if s.ready = [] then some s else none
  | steps + 1, s =>
    match s.ready with
    | [] => some s
    | id :: ready => drain dependents steps ((dependents id).foldl .release { s with ready, order := s.order ++ [id] })

def topologicalOrder (records : List FacetShape) (g : Graph) : Option (Except String (List String)) :=
  let ids := records.map FacetShape.facetId
  let remaining := fun id => ((g.dependencies id).length : Int)
  (drain g.dependents records.length ⟨remaining, ids.filter fun id => remaining id = 0, []⟩).map fun s =>
    if s.order.length ≠ records.length then
      .error ("Facet dependency cycle: " ++ ", ".intercalate (ids.filter fun id => 0 < s.remaining id))
    else .ok s.order

def validateFacets (records : List FacetShape) (externalServices : JsMap String ServiceMode) :
    Option (Except String (List String)) :=
  let graph : Except String Graph := do
    let providers ← (provisions records).foldlM addProvision (hosted externalServices)
    (requirements records).foldlM (addRequirement providers) ⟨fun _ => [], fun _ => []⟩
  match graph with
  | .error message => some (.error message)
  | .ok g => topologicalOrder records g

/-! ## What is asked of the facets -/

/-- `g` is another facet, which provides a service that `f` requires. -/
def Precedes (records : List FacetShape) (g f : String) : Prop :=
  g ≠ f ∧ ∃ p ∈ provisions records, ∃ r ∈ requirements records, p.1 = g ∧ r.1 = f ∧ p.2.serviceId = r.2.serviceId

structure Fits (records : List FacetShape) (externalServices : JsMap String ServiceMode) : Prop where
  provided_once : ((provisions records).map fun p => p.2.serviceId).Nodup
  not_external : ∀ p ∈ provisions records, JsMap.get externalServices p.2.serviceId = none
  required : ∀ r ∈ requirements records, JsMap.get externalServices r.2.serviceId = some r.2.mode ∨
    ∃ p ∈ provisions records, p.2.serviceId = r.2.serviceId ∧ p.2.mode = r.2.mode
  acyclic : ∀ f, ¬ TransGen (Precedes records) f f

/-! ## The loop -/

section Loop
variable {ids ready : List String} {g : Graph} {s : Sorting} {id : String}

/-- The two maps say the same. -/
structure Linked (g : Graph) : Prop where
  inverse : ∀ f d, f ∈ g.dependents d ↔ d ∈ g.dependencies f
  nodup : ∀ f, (g.dependencies f).Nodup ∧ (g.dependents f).Nodup

/-- The maps speak of facets only. -/
structure Edges (ids : List String) (g : Graph) : Prop extends Linked g where
  within : ∀ f d, d ∈ g.dependencies f → f ∈ ids ∧ d ∈ ids

/-- A facet counts its dependencies that are not in the order, and is ready when there are none. -/
structure Sorted (ids : List String) (g : Graph) (s : Sorting) : Prop where
  remaining : ∀ f, s.remaining f = ((g.dependencies f).filter fun d => d ∉ s.order).length
  nodup : (s.order ++ s.ready).Nodup
  listed : ∀ f, f ∈ s.order ++ s.ready ↔ f ∈ ids ∧ s.remaining f = 0
  ordered : ∀ before f after, s.order = before ++ f :: after → ∀ d ∈ g.dependencies f, d ∈ before

variable {l order : List String}

theorem foldl_release (hl : l.Nodup) : (l.foldl .release s).order = s.order ∧
    (∀ f, (l.foldl .release s).remaining f = s.remaining f - if f ∈ l then 1 else 0) ∧
      (l.foldl .release s).ready = s.ready ++ l.filter fun f => s.remaining f = 1 := by
  induction l generalizing s with
  | nil => simp
  | cons d l ih =>
    obtain ⟨hd, hl⟩ := nodup_cons.mp hl
    obtain ⟨ho, hrem, hready⟩ := @ih (s.release d) hl
    have hother : ∀ f, f ≠ d → (s.release d).remaining f = s.remaining f := fun f hf => Function.update_of_ne hf _ _
    have hself : (s.release d).remaining d = s.remaining d - 1 := Function.update_self _ _ _
    refine ⟨ho, fun f => ?_, ?_⟩
    · rw [foldl_cons, hrem]
      by_cases hf : f = d
      · subst hf
        rw [hself, if_neg hd, if_pos mem_cons_self, Int.sub_zero]
      · simp only [hother f hf, mem_cons, hf, false_or]
    · have hsame : (l.filter fun f => (s.release d).remaining f = 1) = l.filter fun f => s.remaining f = 1 :=
        filter_congr fun f hf => by rw [hother f fun heq => hd (heq ▸ hf)]
      rw [foldl_cons, hready, hsame, filter_cons]
      simp only [Sorting.release, Int.sub_eq_zero, decide_eq_true_eq]
      split <;> simp

theorem filter_snoc (hl : l.Nodup) (hid : id ∉ order) :
    ((l.filter fun d => d ∉ order ++ [id]).length : Int) =
      (l.filter fun d => d ∉ order).length - if id ∈ l then 1 else 0 := by
  induction l with
  | nil => rfl
  | cons d l ih =>
    obtain ⟨hd, hl⟩ := nodup_cons.mp hl
    by_cases hdid : d = id
    · subst hdid
      have := ih hl
      simp_all
    · have := ih hl
      by_cases hdo : d ∈ order <;> simp_all [Ne.symm hdid]
      omega

theorem Sorted.step (e : Edges ids g) (h : Sorted ids g s) (hr : s.ready = id :: ready) :
    Sorted ids g ((g.dependents id).foldl .release { s with ready, order := s.order ++ [id] }) := by
  obtain ⟨ho, hrem, hready⟩ := foldl_release (s := { s with ready, order := s.order ++ [id] }) (e.nodup id).2
  have hnodup := h.nodup
  rw [hr] at hnodup
  have hid : id ∉ s.order := fun hmem => (nodup_append.mp hnodup).2.2 id hmem id mem_cons_self rfl
  have hdone : ∀ d ∈ g.dependencies id, d ∈ s.order := by
    have hzero := h.remaining id
    rw [((h.listed id).mp (by rw [hr]; simp)).2, eq_comm, Int.natCast_eq_zero, length_eq_zero_iff, filter_eq_nil_iff] at hzero
    simpa using hzero
  have hold : s.order ++ [id] ++ ready = s.order ++ s.ready := by rw [hr, append_assoc, singleton_append]
  constructor
  · intro f
    rw [hrem, ho, filter_snoc (e.nodup f).1 hid, ← h.remaining]
    simp only [e.inverse]
  · rw [ho, hready, ← append_assoc, hold, nodup_append]
    refine ⟨h.nodup, (e.nodup id).2.filter _, ?_⟩
    rintro f hf _ hf' rfl
    have hone := of_decide_eq_true (mem_filter.mp hf').2
    rw [((h.listed f).mp hf).2] at hone
    cases hone
  · intro f
    rw [hrem, ho, hready, ← append_assoc, hold, mem_append, h.listed, mem_filter, decide_eq_true_eq]
    by_cases hf : f ∈ g.dependents id
    · have hdep := (e.inverse f id).mp hf
      have hne : s.remaining f ≠ 0 := by
        have hmem : id ∈ (g.dependencies f).filter fun d => d ∉ s.order := mem_filter.mpr ⟨hdep, by simpa using hid⟩
        have hpos := length_pos_of_mem hmem
        rw [h.remaining]
        omega
      simp only [hf, (e.within f id hdep).1, hne, true_and, and_false, false_or, if_true]
      omega
    · simp [hf]
  · intro before f after hsplit d hd
    rw [ho] at hsplit
    rcases eq_nil_or_concat after with rfl | ⟨after, last, rfl⟩
    · obtain ⟨rfl, hlast⟩ := append_inj' hsplit rfl
      obtain rfl : id = f := by simpa using hlast
      exact hdone d hd
    · have hsplit' : s.order ++ [id] = (before ++ f :: after) ++ [last] := by simpa using hsplit
      exact h.ordered before f after (append_inj' hsplit' rfl).1 d hd

theorem Sorted.drain {steps : Nat} (e : Edges ids g) (h : Sorted ids g s) (hsteps : ids.length ≤ s.order.length + steps) :
    ∃ t, drain g.dependents steps s = some t ∧ Sorted ids g t ∧ t.ready = [] := by
  induction steps generalizing s with
  | zero =>
    have hlen := (h.nodup.subperm fun f hf => ((h.listed f).mp hf).1).length_le
    rw [length_append] at hlen
    have hnil : s.ready = [] := length_eq_zero_iff.mp (by omega)
    exact ⟨s, by rw [Facets.drain, if_pos hnil], h, hnil⟩
  | succ steps ih =>
    cases hr : s.ready with
    | nil => exact ⟨s, by rw [Facets.drain, hr], h, hr⟩
    | cons id ready =>
      have hnext := h.step e hr
      obtain ⟨t, ht⟩ := ih hnext (by
        rw [(foldl_release (e.nodup id).2).1, length_append, length_singleton]
        omega)
      exact ⟨t, by rw [Facets.drain, hr]; exact ht.1, ht.2⟩

/-- A facet that is not in the order at the end has a dependency that is not. -/
theorem Sorted.complete (h : Sorted ids g s) (hr : s.ready = []) {f : String}
    (hacc : Acc (fun d f => d ∈ g.dependencies f) f) (hf : f ∈ ids) (e : Edges ids g) : f ∈ s.order := by
  induction hacc with
  | intro f _ ih =>
    have hmem := (h.listed f).mpr ⟨hf, ?_⟩
    · rwa [hr, append_nil] at hmem
    · rw [h.remaining, Int.natCast_eq_zero, length_eq_zero_iff, filter_eq_nil_iff]
      intro d hd
      simpa using ih d hd (e.within f d hd).2

/-- An order in which each facet comes after its dependencies shows that there is no cycle. -/
theorem acc_of_order (hall : ∀ f ∈ ids, f ∈ order)
    (hordered : ∀ before f after, order = before ++ f :: after → ∀ d ∈ g.dependencies f, d ∈ before)
    (e : Edges ids g) (f : String) : Acc (fun d f => d ∈ g.dependencies f) f := by
  refine (Subrelation.wf (fun {d f} hd => ?_) (measure order.idxOf).wf).apply f
  obtain ⟨before, after, rfl, hnot⟩ := eq_append_cons_of_mem (hall f (e.within f d hd).1)
  have hmem := hordered before f after rfl d hd
  show idxOf d _ < idxOf f _
  rw [idxOf_append_of_mem hmem, idxOf_append_of_notMem hnot, idxOf_cons_self]
  exact idxOf_lt_length_of_mem hmem

theorem topologicalOrder_spec {records : List FacetShape} (e : Edges (records.map FacetShape.facetId) g)
    (hids : (records.map FacetShape.facetId).Nodup) : ∃ result, topologicalOrder records g = some result ∧
      ((∃ order, result = .ok order) ↔ ∀ f, ¬ TransGen (fun d f => d ∈ g.dependencies f) f f) ∧
        ∀ order, result = .ok order → order.Perm (records.map FacetShape.facetId) ∧
          ∀ before f after, order = before ++ f :: after → ∀ d ∈ g.dependencies f, d ∈ before := by
  have hstart : Sorted (records.map FacetShape.facetId) g ⟨fun id => (g.dependencies id).length,
      (records.map FacetShape.facetId).filter fun id => ((g.dependencies id).length : Int) = 0, []⟩ := by
    refine ⟨fun f => by simp, hids.filter _, fun f => by simp, fun before f after hsplit => ?_⟩
    simp at hsplit
  obtain ⟨t, ht, hsorted, hready⟩ := @Sorted.drain _ g _ records.length e hstart (by simp)
  have hsub : t.order.Subperm (records.map FacetShape.facetId) := by
    have hnodup := hsorted.nodup
    rw [hready, append_nil] at hnodup
    refine hnodup.subperm fun f hf => ((hsorted.listed f).mp ?_).1
    exact mem_append_left _ hf
  have hperm : t.order.length = records.length → t.order.Perm (records.map FacetShape.facetId) := fun hlen =>
    hsub.perm_of_length_le (by rw [length_map, hlen])
  unfold topologicalOrder
  dsimp only
  rw [ht]
  by_cases hlen : t.order.length = records.length
  · refine ⟨.ok t.order, by simp [hlen], ⟨fun _ f => not_transGen_self ?_, fun _ => ⟨_, rfl⟩⟩, ?_⟩
    · exact acc_of_order (fun f hf => (hperm hlen).mem_iff.mpr hf) hsorted.ordered e f
    · rintro _ ⟨⟩
      exact ⟨hperm hlen, hsorted.ordered⟩
  · refine ⟨_, by rw [Option.map_some, if_pos hlen], ⟨?_, fun hacyclic => absurd ?_ hlen⟩, fun _ h => by cases h⟩
    · rintro ⟨_, ⟨⟩⟩
    · have hall : ∀ f ∈ records.map FacetShape.facetId, f ∈ t.order := fun f hf =>
        hsorted.complete hready (acc_of_acyclic (fun _ _ hd => (e.within _ _ hd).2) hacyclic hf) hf e
      have hle := (hids.subperm hall).length_le
      have hle' := hsub.length_le
      rw [length_map] at hle hle'
      omega

end Loop

/-! ## Providers and dependencies -/

variable {p : Reference} {l : List Reference}
  {providers : JsMap String Provider} {g g' : Graph}

/-- The provisions can be added. -/
def Free (providers : JsMap String Provider) (l : List Reference) : Prop :=
  (l.map fun p => p.2.serviceId).Nodup ∧ ∀ p ∈ l, JsMap.get providers p.2.serviceId = none

theorem free_cons (hp : JsMap.get providers p.2.serviceId = none) (provider : Provider) :
    Free providers (p :: l) ↔ Free (JsMap.set providers p.2.serviceId provider) l := by
  simp only [Free, map_cons, nodup_cons, mem_map, not_exists, not_and, forall_mem_cons, hp, true_and, JsMap.get_set]
  constructor
  · rintro ⟨⟨hnew, hnodup⟩, hfree⟩
    exact ⟨hnodup, fun q hq => by rw [if_neg (Ne.symm (hnew q hq)), hfree q hq]⟩
  · rintro ⟨hnodup, hfree⟩
    refine ⟨⟨fun q hq heq => ?_, hnodup⟩, fun q hq => ?_⟩
    · have hnone := hfree q hq
      rw [if_pos heq.symm] at hnone
      cases hnone
    · have hnone := hfree q hq
      split at hnone
      · cases hnone
      · exact hnone

theorem addProvision_taken {existing : Provider} (hp : JsMap.get providers p.2.serviceId = some existing) :
    ∃ message, addProvision providers p = .error message := by
  unfold addProvision
  rw [hp]
  dsimp only
  split
  · exact ⟨_, rfl⟩
  · split <;> exact ⟨_, rfl⟩

theorem addProvisions_spec (l : List Reference) (providers : JsMap String Provider) :
    match l.foldlM addProvision providers with
    | .error _ => ¬ Free providers l
    | .ok all => Free providers l ∧ ∀ k provider, JsMap.get all k = some provider ↔
        JsMap.get providers k = some provider ∨ ∃ p ∈ l, p.2.serviceId = k ∧ provider = ⟨some p.1, p.2.mode⟩ := by
  induction l generalizing providers with
  | nil => simp [Free, pure, Except.pure]
  | cons p l ih =>
    rw [foldlM_cons]
    cases hp : JsMap.get providers p.2.serviceId with
    | some existing =>
      obtain ⟨message, he⟩ := addProvision_taken hp
      rw [he]
      intro hfree
      rw [hfree.2 p mem_cons_self] at hp
      cases hp
    | none =>
      rw [addProvision, hp]
      have hset := ih (JsMap.set providers p.2.serviceId ⟨some p.1, p.2.mode⟩)
      rw [free_cons hp ⟨some p.1, p.2.mode⟩]
      simp only [bind, Except.bind]
      split
      · rename_i hl
        rwa [hl] at hset
      · rename_i all hl
        rw [hl] at hset
        refine ⟨hset.1, fun k provider => ?_⟩
        rw [hset.2, JsMap.get_set]
        by_cases hk : p.2.serviceId = k
        · subst hk
          simp [hp, eq_comm]
        · simp [hk]

variable {members : List String}

theorem mem_addMember {id x : String} : x ∈ addMember members id ↔ x ∈ members ∨ x = id := by
  unfold addMember
  split <;> grind

theorem nodup_addMember (h : members.Nodup) (id : String) : (addMember members id).Nodup := by
  unfold addMember
  split
  · exact h
  · rename_i hid
    exact nodup_append.mpr ⟨h, nodup_singleton id, by simpa using fun a ha => ne_of_mem_of_not_mem ha hid⟩

/-- A provider of the mode that the requirement asks for. -/
def Met (providers : JsMap String Provider) (r : Reference) : Prop :=
  ∃ provider, JsMap.get providers r.2.serviceId = some provider ∧ provider.mode = r.2.mode

/-- The edge that a requirement adds. -/
def Adds (providers : JsMap String Provider) (r : Reference) (f d : String) : Prop :=
  r.1 = f ∧ d ≠ f ∧ ∃ provider, JsMap.get providers r.2.serviceId = some provider ∧ provider.facetId = some d

theorem addRequirement_spec (g : Graph) (h : Linked g) (r : Reference) :
    match addRequirement providers g r with
    | .error _ => ¬ Met providers r
    | .ok g' => Met providers r ∧ Linked g' ∧ ∀ f d, d ∈ g'.dependencies f ↔ d ∈ g.dependencies f ∨ Adds providers r f d := by
  unfold addRequirement Met Adds
  cases hr : JsMap.get providers r.2.serviceId with
  | none => simp
  | some provider =>
    dsimp only
    by_cases hmode : provider.mode = r.2.mode
    · rw [if_neg (not_not.mpr hmode)]
      cases hid : provider.facetId with
      | none => exact ⟨⟨provider, rfl, hmode⟩, h, by simp [hid]⟩
      | some facetId =>
        dsimp only
        by_cases hself : facetId = r.1
        · rw [if_pos hself]
          exact ⟨⟨provider, rfl, hmode⟩, h, by grind⟩
        · rw [if_neg hself]
          refine ⟨⟨provider, rfl, hmode⟩, ⟨fun f d => ?_, fun f => ⟨?_, ?_⟩⟩, fun f d => ?_⟩
          · have := h.inverse f d
            simp only [Function.update_apply]
            split <;> split <;> grind [mem_addMember]
          · simp only [Function.update_apply]
            split
            · exact nodup_addMember (h.nodup _).1 _
            · exact (h.nodup f).1
          · simp only [Function.update_apply]
            split
            · exact nodup_addMember (h.nodup _).2 _
            · exact (h.nodup f).2
          · simp only [Function.update_apply]
            split <;> grind [mem_addMember]
    · rw [if_pos hmode]
      simpa using hmode

theorem addRequirements_spec (l : List Reference) (g : Graph) (h : Linked g) :
    match l.foldlM (addRequirement providers) g with
    | .error _ => ¬ ∀ r ∈ l, Met providers r
    | .ok g' => (∀ r ∈ l, Met providers r) ∧ Linked g' ∧
        ∀ f d, d ∈ g'.dependencies f ↔ d ∈ g.dependencies f ∨ ∃ r ∈ l, Adds providers r f d := by
  induction l generalizing g with
  | nil => simpa [pure, Except.pure] using h
  | cons r l ih =>
    have hr := @addRequirement_spec providers g h r
    rw [foldlM_cons, forall_mem_cons]
    cases hg : addRequirement providers g r with
    | error message =>
      rw [hg] at hr
      exact fun hall => hr hall.1
    | ok next =>
      rw [hg] at hr
      have hrest := ih next hr.2.1
      simp only [bind, Except.bind]
      split
      · rename_i hl
        rw [hl] at hrest
        exact fun hall => hrest hall.2
      · rename_i hl
        rw [hl] at hrest
        refine ⟨⟨hr.1, hrest.1⟩, hrest.2.1, fun f d => ?_⟩
        rw [hrest.2.2, hr.2.2, exists_mem_cons_iff, or_assoc]

/-! ## Validation -/

section Validation
variable {records : List FacetShape} {externalServices : JsMap String ServiceMode}

theorem get_hosted (externalServices : JsMap String ServiceMode) (k : String) :
    JsMap.get (hosted externalServices) k = (JsMap.get externalServices k).map (Provider.mk none) := by
  induction externalServices with
  | nil => rfl
  | cons p l ih =>
    rw [hosted, map_cons, ← hosted, JsMap.get_cons, JsMap.get_cons, ih]
    split <;> rfl

/-- The host's services and those of the facets are what is provided. -/
def Known (records : List FacetShape) (externalServices : JsMap String ServiceMode) (providers : JsMap String Provider) : Prop :=
  ∀ k provider, JsMap.get providers k = some provider ↔ (JsMap.get externalServices k).map (Provider.mk none) = some provider ∨
    ∃ p ∈ provisions records, p.2.serviceId = k ∧ provider = ⟨some p.1, p.2.mode⟩

variable (h : Known records externalServices providers)
include h

theorem Known.met (r : Reference) :
    Met providers r ↔ JsMap.get externalServices r.2.serviceId = some r.2.mode ∨
      ∃ p ∈ provisions records, p.2.serviceId = r.2.serviceId ∧ p.2.mode = r.2.mode := by
  simp only [Met, h _ _, Option.map_eq_some_iff]
  constructor
  · rintro ⟨_, ⟨mode, hget, rfl⟩ | ⟨p, hp, hid, rfl⟩, hmode⟩
    · exact .inl (hget.trans (congrArg some hmode))
    · exact .inr ⟨p, hp, hid, hmode⟩
  · rintro (hget | ⟨p, hp, hid, hmode⟩)
    · exact ⟨_, .inl ⟨_, hget, rfl⟩, rfl⟩
    · exact ⟨_, .inr ⟨p, hp, hid, rfl⟩, hmode⟩

theorem Known.adds (f d : String) :
    (∃ r ∈ requirements records, Adds providers r f d) ↔ Precedes records d f := by
  simp only [Adds, Precedes, h _ _, Option.map_eq_some_iff]
  constructor
  · rintro ⟨r, hr, hf, hne, _, ⟨mode, _, rfl⟩ | ⟨p, hp, hid, rfl⟩, hd⟩
    · cases hd
    · exact ⟨hne, p, hp, r, hr, Option.some.inj hd, hf, hid⟩
  · rintro ⟨hne, p, hp, r, hr, hd, hf, hid⟩
    exact ⟨r, hr, hf, hne, _, .inr ⟨p, hp, hid, rfl⟩, congrArg some hd⟩

omit h

theorem Precedes.within {g f : String} (h : Precedes records g f) :
    f ∈ records.map FacetShape.facetId ∧ g ∈ records.map FacetShape.facetId := by
  obtain ⟨_, p, hp, r, hr, rfl, rfl, _⟩ := h
  simp only [provisions, requirements, mem_flatMap, mem_map] at hp hr ⊢
  obtain ⟨record, hrec, _, _, rfl⟩ := hp
  obtain ⟨record', hrec', _, _, rfl⟩ := hr
  exact ⟨⟨record', hrec', rfl⟩, ⟨record, hrec, rfl⟩⟩

theorem free_hosted : Free (hosted externalServices) (provisions records) ↔
    ((provisions records).map fun p => p.2.serviceId).Nodup ∧
      ∀ p ∈ provisions records, JsMap.get externalServices p.2.serviceId = none := by
  simp [Free, get_hosted]

theorem validateFacets_spec (records : List FacetShape) (externalServices : JsMap String ServiceMode)
    (hids : (records.map FacetShape.facetId).Nodup) : ∃ result, validateFacets records externalServices = some result ∧
      ((∃ order, result = .ok order) ↔ Fits records externalServices) ∧
        ∀ order, result = .ok order → order.Perm (records.map FacetShape.facetId) ∧
          ∀ before f after, order = before ++ f :: after → ∀ g, Precedes records g f → g ∈ before := by
  have hproviders := addProvisions_spec (provisions records) (hosted externalServices)
  unfold validateFacets
  cases hp : (provisions records).foldlM addProvision (hosted externalServices) with
  | error message =>
    rw [hp] at hproviders
    refine ⟨_, rfl, ⟨?_, fun h => absurd (free_hosted.mpr ⟨h.provided_once, h.not_external⟩) hproviders⟩, fun _ h => by cases h⟩
    rintro ⟨_, ⟨⟩⟩
  | ok providers =>
    rw [hp] at hproviders
    obtain ⟨hfree, hknown⟩ := hproviders
    have hknown : Known records externalServices providers := fun k provider => by rw [hknown, get_hosted]
    have hgraph := @addRequirements_spec providers (requirements records) ⟨fun _ => [], fun _ => []⟩
      ⟨fun _ _ => by simp, fun _ => by simp⟩
    simp only [bind, Except.bind]
    cases hg : (requirements records).foldlM (addRequirement providers) ⟨fun _ => [], fun _ => []⟩ with
    | error message =>
      rw [hg] at hgraph
      refine ⟨_, rfl, ⟨?_, fun h => absurd (fun r hr => (hknown.met r).mpr (h.required r hr)) hgraph⟩, fun _ h => by cases h⟩
      rintro ⟨_, ⟨⟩⟩
    | ok g =>
      rw [hg] at hgraph
      obtain ⟨hmet, hlinked, hdeps⟩ := hgraph
      have hdeps : ∀ f d, d ∈ g.dependencies f ↔ Precedes records d f := fun f d => by simp [hdeps, hknown.adds]
      obtain ⟨result, hresult, hok, horder⟩ := topologicalOrder_spec (g := g)
        { hlinked with within := fun f d hd => ((hdeps f d).mp hd).within } hids
      simp only [hdeps] at hok horder
      refine ⟨result, hresult, hok.trans ⟨fun hacyclic => ?_, Fits.acyclic⟩, horder⟩
      have hfree := free_hosted.mp hfree
      exact ⟨hfree.1, hfree.2, fun r hr => (hknown.met r).mp (hmet r hr), hacyclic⟩

theorem validateFacets_spec_pair :
    let records : List FacetShape := [⟨"view", [⟨"rows", .singleton⟩, ⟨"clock", .keyed⟩], []⟩, ⟨"store", [], [⟨"rows", .singleton⟩]⟩]
    validateFacets records [("clock", .keyed)] = some (.ok ["store", "view"]) ∧ Fits records [("clock", .keyed)] := by
  intro records
  have horder : validateFacets records [("clock", .keyed)] = some (.ok ["store", "view"]) := by decide
  obtain ⟨result, hresult, hok, -⟩ := validateFacets_spec records [("clock", .keyed)] (by decide)
  exact ⟨horder, hok.mp ⟨_, Option.some.inj (hresult.symm.trans horder)⟩⟩

end Validation

end Shuvpi.Facets
