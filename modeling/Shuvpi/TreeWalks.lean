import Mathlib.Algebra.GroupWithZero.Nat
import Shuvpi.Acyclic
import Shuvpi.JsMap

/-!
# Walks over the entries of a session file

`buildSessionPath`, `getBranch` and `getTree` of `core/session-manager.ts`. The entries come
from a file that its user may edit: nothing checks that their ids differ or that the chain
of parents from an entry ends. A loop has a number of steps here, and gives nothing when it
needs more.
-/
open List Relation

namespace Shuvpi.TreeWalks

structure SessionEntry (R : Type) where
  entryId : String
  /-- The id, or null. -/
  parentId : Option String
  timestamp : String
  rest : R

variable {R : Type} {entries : List (SessionEntry R)} {e f : SessionEntry R}

/-! ## Paths -/

def buildEntryIndex (entries : List (SessionEntry R)) : JsMap String (SessionEntry R) :=
  entries.foldl (fun index entry => JsMap.set index entry.entryId entry) []

/-- `current.parentId ? index.get(current.parentId) : undefined` -/
def parentIn (index : JsMap String (SessionEntry R)) (current : SessionEntry R) : Option (SessionEntry R) :=
  match current.parentId with
  | none => none
  | some parentId => if parentId = "" then none else JsMap.get index parentId

/-- The loop from the leaf up to the root. -/
def walk (index : JsMap String (SessionEntry R)) :
    Nat → Option (SessionEntry R) → List (SessionEntry R) → Option (List (SessionEntry R))
  | _, none, path => some path.reverse
  | 0, some _, _ => none
  | steps + 1, some current, path => walk index steps (parentIn index current) (path ++ [current])

/-- The argument `leafId`. -/
inductive Leaf where
  | unspecified
  | null
  | entry (id : String)

def leafIn (entries : List (SessionEntry R)) : Leaf → Option (SessionEntry R)
  | .entry id =>
    if id = "" then entries.getLast?
    else (JsMap.get (buildEntryIndex entries) id).or entries.getLast?
  | _ => entries.getLast?

def buildSessionPath (steps : Nat) (entries : List (SessionEntry R)) : Leaf → Option (List (SessionEntry R))
  | .null => some []
  | leaf => walk (buildEntryIndex entries) steps (leafIn entries leaf) []

/-- `leafId` is the leaf of the manager. -/
def getBranch (steps : Nat) (entries : List (SessionEntry R)) (leafId fromId : Option String) :
    Option (List (SessionEntry R)) :=
  let start := match fromId.or leafId with
    | none => none
    | some startId => if startId = "" then none else JsMap.get (buildEntryIndex entries) startId
  walk (buildEntryIndex entries) steps start []

/-! ## The tree -/

/-- The node of an entry is an object that `nodeMap` finds by its id, with its children kept
aside and its label left out; it stands where the id does. -/
structure Forest where
  roots : List String
  children : String → List String

/-- The node whose children a node is put among; it is a root when there is none. -/
def parentNode (nodeMap : JsMap String (SessionEntry R)) (entry : SessionEntry R) : Option String :=
  match entry.parentId with
  | none => none
  | some parentId =>
    if parentId = entry.entryId then none
    else if JsMap.has nodeMap parentId then some parentId else none

def Forest.place (nodeMap : JsMap String (SessionEntry R)) (forest : Forest)
    (entry : SessionEntry R) : Forest :=
  match parentNode nodeMap entry with
  | none => { forest with roots := forest.roots ++ [entry.entryId] }
  | some parent => { forest with
      children := Function.update forest.children parent (forest.children parent ++ [entry.entryId]) }

def plant (nodeMap : JsMap String (SessionEntry R)) (entries : List (SessionEntry R)) : Forest :=
  entries.foldl (Forest.place nodeMap) ⟨[], fun _ => []⟩

/-- `new Date(timestamp).getTime()`; a time that is not a number is not before another. -/
def isBefore (getTime : String → Option Int) (nodeMap : JsMap String (SessionEntry R))
    (a b : String) : Bool :=
  let timeOf id := (JsMap.get nodeMap id).bind fun entry => getTime entry.timestamp
  match timeOf a, timeOf b with
  | some s, some t => s < t
  | _, _ => false

def sortChildren (getTime : String → Option Int) (nodeMap : JsMap String (SessionEntry R))
    (children : List String) : List String :=
  children.mergeSort fun a b => !isBefore getTime nodeMap b a

/-- The loop over the stack, whose top is its first element. `visited` are the nodes that
were popped: each node of the result, once for each place that it has there. -/
def sortLoop (sort : List String → List String) :
    Nat → List String → Forest → List String → Option (Forest × List String)
  | _, [], forest, visited => some (forest, visited)
  | 0, _ :: _, _, _ => none
  | steps + 1, node :: stack, forest, visited =>
    let sorted := sort (forest.children node)
    sortLoop sort steps (sorted.reverse ++ stack)
      { forest with children := Function.update forest.children node sorted } (visited ++ [node])

def getTree (getTime : String → Option Int) (steps : Nat) (entries : List (SessionEntry R)) :
    Option (Forest × List String) :=
  let nodeMap := buildEntryIndex entries
  let forest := plant nodeMap entries
  sortLoop (sortChildren getTime nodeMap) steps forest.roots.reverse forest []

/-- The three walks end, and the tree has each id once. -/
structure WalksEnd (getTime : String → Option Int) (entries : List (SessionEntry R)) : Prop where
  path : ∀ leafId, ∃ steps, (buildSessionPath steps entries leafId).isSome
  branch : ∀ leafId fromId, ∃ steps, (getBranch steps entries leafId fromId).isSome
  tree : ∃ steps forest visited,
    getTree getTime steps entries = some (forest, visited) ∧ visited.Nodup ∧ ∀ id, id ∈ visited ↔ id ∈ entries.map SessionEntry.entryId

/-- An entry that names another one by its id; an empty id names no parent of its own entry. -/
def IsParent (entries : List (SessionEntry R)) (parent child : SessionEntry R) : Prop :=
  parent ∈ entries ∧ child ∈ entries ∧ child.parentId = some parent.entryId ∧
    (child.entryId = parent.entryId → child.entryId ≠ "")

/-! ## Indexes -/

theorem get_index (entries : List (SessionEntry R)) (id : String) :
    JsMap.get (buildEntryIndex entries) id = entries.reverse.find? fun e => e.entryId = id := by
  have hrun : ∀ m, JsMap.get (entries.foldl (fun m e => JsMap.set m e.entryId e) m) id =
      (entries.reverse.find? fun e => e.entryId = id).or (JsMap.get m id) := by
    induction entries with
    | nil => exact fun _ => rfl
    | cons e entries ih =>
      intro m
      rw [foldl_cons, ih, JsMap.get_set, reverse_cons, find?_append]
      cases entries.reverse.find? fun e => e.entryId = id with
      | some f => rfl
      | none =>
        by_cases h : e.entryId = id
        · simp [h]
        · simp [h]
  rw [buildEntryIndex, hrun, JsMap.get_nil, Option.or_none]

theorem of_get_index {id : String} (h : JsMap.get (buildEntryIndex entries) id = some e) :
    e ∈ entries ∧ e.entryId = id := by
  rw [get_index] at h
  exact ⟨mem_reverse.mp (mem_of_find?_eq_some h), by simpa using find?_some h⟩

variable (hids : (entries.map SessionEntry.entryId).Nodup)
include hids

theorem unique (he : e ∈ entries) (hf : f ∈ entries)
    (h : e.entryId = f.entryId) : e = f := inj_on_of_nodup_map hids he hf h

theorem get_index_of_mem (he : e ∈ entries) :
    JsMap.get (buildEntryIndex entries) e.entryId = some e := by
  cases h : JsMap.get (buildEntryIndex entries) e.entryId with
  | none =>
    rw [get_index, find?_eq_none] at h
    exact absurd (decide_eq_true rfl) (h e (mem_reverse.mpr he))
  | some f =>
    obtain ⟨hf, hid⟩ := of_get_index h
    rw [unique hids hf he hid]

omit hids

theorem has_index (id : String) :
    JsMap.has (buildEntryIndex entries) id = true ↔ id ∈ entries.map SessionEntry.entryId := by
  rw [JsMap.has, get_index]
  simp [find?_isSome]

/-! ## Paths -/

theorem parentIn_some (he : e ∈ entries) (h : parentIn (buildEntryIndex entries) e = some f) :
    IsParent entries f e := by
  rw [parentIn] at h
  split at h
  · cases h
  · rename_i parentId hparent
    split at h
    · cases h
    · rename_i hne
      obtain ⟨hf, hid⟩ := of_get_index h
      refine ⟨hf, he, by rw [hid, hparent], fun heq => ?_⟩
      rw [heq, hid]
      exact hne

theorem walk_ends (hacc : Acc (IsParent entries) e) (he : e ∈ entries) (path : List (SessionEntry R)) :
    ∃ steps, (walk (buildEntryIndex entries) steps (some e) path).isSome := by
  induction hacc generalizing path with
  | intro e _ ih =>
    cases hparent : parentIn (buildEntryIndex entries) e with
    | none => exact ⟨1, by rw [walk, hparent, walk]; rfl⟩
    | some f =>
      have hf := parentIn_some he hparent
      obtain ⟨steps, hsteps⟩ := ih f hf hf.1 (path ++ [e])
      exact ⟨steps + 1, by rwa [walk, hparent]⟩

/-- An entry that is its own parent keeps the loop going. -/
theorem walk_self {index : JsMap String (SessionEntry R)} (h : parentIn index e = some e) (steps : Nat)
    (path : List (SessionEntry R)) : walk index steps (some e) path = none := by
  induction steps generalizing path with
  | zero => rfl
  | succ steps ih => rw [walk, h, ih]

/-! ## The forest -/

section Forest
variable {nodeMap : JsMap String (SessionEntry R)} {forest forest' : Forest} {visited visited' stack : List String}
  {sort : List String → List String}

theorem roots_foldl (entries : List (SessionEntry R)) (forest : Forest) :
    (entries.foldl (Forest.place nodeMap) forest).roots =
      forest.roots ++ (entries.filter fun e => parentNode nodeMap e = none).map SessionEntry.entryId := by
  induction entries generalizing forest with
  | nil => simp
  | cons e entries ih =>
    rw [foldl_cons, ih, Forest.place]
    cases h : parentNode nodeMap e with
    | none | some => simp [h]

theorem children_foldl (entries : List (SessionEntry R)) (forest : Forest) (p : String) :
    (entries.foldl (Forest.place nodeMap) forest).children p =
      forest.children p ++ (entries.filter fun e => parentNode nodeMap e = some p).map SessionEntry.entryId := by
  induction entries generalizing forest with
  | nil => simp
  | cons e entries ih =>
    rw [foldl_cons, ih, Forest.place]
    cases h : parentNode nodeMap e with
    | none => simp [h]
    | some q =>
      by_cases hq : p = q
      · subst hq
        simp [h]
      · simp [h, hq, Ne.symm hq]

theorem parentNode_some {p : String} (h : parentNode nodeMap e = some p) :
    e.parentId = some p ∧ p ≠ e.entryId ∧ JsMap.has nodeMap p = true := by
  rw [parentNode] at h
  split at h
  · cases h
  · rename_i parentId hparent
    split at h
    · cases h
    · rename_i hne
      split at h
      · rename_i hhas
        cases h
        exact ⟨hparent, hne, hhas⟩
      · cases h

variable {steps : Nat}

/-- The nodes that the loop pops are those on the stack and the children of those popped. -/
theorem sortLoop_length (hsort : ∀ l, (sort l).Perm l)
    (h : sortLoop sort steps stack forest visited = some (forest', visited')) :
    ∃ popped, visited' = visited ++ popped ∧
      popped.length = stack.length + (popped.map fun node => (forest.children node).length).sum := by
  induction steps generalizing stack forest visited with
  | zero =>
    cases stack with
    | nil => cases h; exact ⟨[], by simp⟩
    | cons node stack => cases h
  | succ steps ih =>
    cases stack with
    | nil => cases h; exact ⟨[], by simp⟩
    | cons node stack =>
      obtain ⟨popped, rfl, hlen⟩ := ih h
      have hsame : ∀ n, (Function.update forest.children node (sort (forest.children node)) n).length =
          (forest.children n).length := by
        intro n
        by_cases hn : n = node
        · rw [hn, Function.update_self, (hsort _).length_eq]
        · rw [Function.update_of_ne hn]
      refine ⟨node :: popped, by simp, ?_⟩
      simp only [hsame, length_append, length_reverse, (hsort _).length_eq] at hlen
      simp only [length_cons, map_cons, sum_cons, hlen]
      omega

theorem placed_length {α κ : Type} [DecidableEq κ] (parent : α → Option κ) {keys : List κ} (hkeys : keys.Nodup)
    {items : List α} (h : ∀ a ∈ items, ∀ p, parent a = some p → p ∈ keys) :
    (items.filter fun a => parent a = none).length +
      (keys.map fun p => (items.filter fun a => parent a = some p).length).sum = items.length := by
  induction items with
  | nil => simp
  | cons a items ih =>
    have ih := ih fun b hb => h b (mem_cons_of_mem _ hb)
    cases ha : parent a with
    | none =>
      simp only [filter_cons, ha, decide_true, if_true, length_cons, reduceCtorEq, decide_false,
        Bool.false_eq_true, if_false]
      omega
    | some q =>
      have hone : (keys.map fun p => if q = p then 1 else 0).sum = 1 := by
        have hcount : ∀ l : List κ, (l.map fun p => if q = p then 1 else 0).sum = l.count q := by
          intro l
          induction l with
          | nil => rfl
          | cons p l ih =>
            by_cases hp : q = p
            · subst hp
              simp [ih, Nat.add_comm]
            · simp [hp, ih, Ne.symm hp]
        rw [hcount, count_eq_one_of_mem hkeys (h a mem_cons_self q ha)]
      have hadd : (keys.map fun p => ((a :: items).filter fun b => parent b = some p).length).sum =
          (keys.map fun p => if q = p then 1 else 0).sum +
            (keys.map fun p => (items.filter fun b => parent b = some p).length).sum := by
        rw [← sum_map_add]
        refine congrArg sum (map_congr_left fun p _ => ?_)
        by_cases hp : q = p
        · simp [ha, hp, Nat.add_comm]
        · simp [ha, hp]
      rw [hadd, hone, filter_cons_of_neg (by simp [ha]), length_cons]
      omega

/-- `parent` is the entry whose node has the node of `child` among its children. -/
def Below (entries : List (SessionEntry R)) (nodeMap : JsMap String (SessionEntry R))
    (parent child : SessionEntry R) : Prop :=
  parent ∈ entries ∧ child ∈ entries ∧ parentNode nodeMap child = some parent.entryId

/-- What the loop keeps when the ids differ: no node is met twice, a node is met once its
parent is popped, and the chain of parents from a node that is met ends. -/
structure Inv (entries : List (SessionEntry R)) (nodeMap : JsMap String (SessionEntry R))
    (forest : Forest) (visited stack : List String) : Prop where
  nodup : (visited ++ stack).Nodup
  children : ∀ p, (forest.children p).Perm
    ((entries.filter fun e => parentNode nodeMap e = some p).map SessionEntry.entryId)
  placed : ∀ e ∈ entries, e.entryId ∈ visited ++ stack ↔ ∀ p, parentNode nodeMap e = some p → p ∈ visited
  grounded : ∀ id ∈ visited ++ stack, ∃ e ∈ entries, e.entryId = id ∧ Acc (Below entries nodeMap) e

variable (hids : (entries.map SessionEntry.entryId).Nodup) (hsort : ∀ l, (sort l).Perm l)
include hids hsort

theorem Inv.pop {node : String}
    (h : Inv entries nodeMap forest visited (node :: stack)) :
    Inv entries nodeMap
      { forest with children := Function.update forest.children node (sort (forest.children node)) }
      (visited ++ [node]) ((sort (forest.children node)).reverse ++ stack) := by
  have hchild : ∀ x, x ∈ forest.children node ↔
      ∃ e ∈ entries, parentNode nodeMap e = some node ∧ e.entryId = x := fun x => by
    rw [(h.children node).mem_iff]
    simp [and_assoc]
  have hperm : (visited ++ [node] ++ ((sort (forest.children node)).reverse ++ stack)).Perm
      (visited ++ node :: stack ++ forest.children node) := by
    have hsorted := (reverse_perm _).trans (hsort (forest.children node))
    simpa using ((hsorted.append_right stack).trans perm_append_comm).cons node |>.append_left visited
  have hmem : ∀ x, x ∈ visited ++ [node] ++ ((sort (forest.children node)).reverse ++ stack) ↔
      x ∈ visited ++ node :: stack ∨ x ∈ forest.children node := fun x => by rw [hperm.mem_iff, mem_append]
  have hnew : node ∉ visited := fun hv => (nodup_append.mp h.nodup).2.2 node hv node mem_cons_self rfl
  refine ⟨hperm.nodup_iff.mpr (nodup_append.mpr ⟨h.nodup, ?_, fun x hx y hy hxy => ?_⟩), fun p => ?_, fun e he => ?_,
    fun id hid => ?_⟩
  · exact (h.children node).nodup_iff.mpr ((filter_sublist.map _).nodup hids)
  · obtain ⟨e, he, hparent, rfl⟩ := (hchild y).mp hy
    exact hnew ((h.placed e he).mp (hxy ▸ hx) node hparent)
  · by_cases hp : p = node
    · subst hp
      simpa using (hsort _).trans (h.children p)
    · simpa [hp] using h.children p
  · have hunder : e.entryId ∈ forest.children node ↔ parentNode nodeMap e = some node := by
      rw [hchild]
      exact ⟨fun ⟨f, hf, hparent, hid⟩ => unique hids hf he hid ▸ hparent, fun hparent => ⟨e, he, hparent, rfl⟩⟩
    rw [hmem, h.placed e he, hunder]
    constructor
    · rintro (hold | hparent) p hp
      · exact mem_append_left _ (hold p hp)
      · rw [hparent] at hp
        cases hp
        simp
    · intro hall
      cases hparent : parentNode nodeMap e with
      | none => exact .inl nofun
      | some q =>
        rcases mem_append.mp (hall q hparent) with hq | hq
        · refine .inl fun p hp => ?_
          cases hp
          exact hq
        · exact .inr (by rw [mem_singleton.mp hq])
  · rcases (hmem id).mp hid with hold | hid
    · exact h.grounded id hold
    · obtain ⟨e, he, hparent, rfl⟩ := (hchild id).mp hid
      obtain ⟨f, _, hf, hacc⟩ := h.grounded node (mem_append_right _ mem_cons_self)
      refine ⟨e, he, rfl, .intro e fun g hg => ?_⟩
      have hname : g.entryId = f.entryId := by
        rw [hf]
        exact Option.some.inj (hg.2.2.symm.trans hparent)
      exact unique hids hg.1 ‹_› hname ▸ hacc

variable (h : Inv entries nodeMap forest visited stack)
include h

theorem Inv.run (hrun : sortLoop sort steps stack forest visited = some (forest', visited')) :
    Inv entries nodeMap forest' visited' [] := by
  induction steps generalizing stack forest visited with
  | zero =>
    cases stack with
    | nil => cases hrun; exact h
    | cons node stack => cases hrun
  | succ steps ih =>
    cases stack with
    | nil => cases hrun; exact h
    | cons node stack => exact ih (h.pop hids hsort) hrun

/-- Each step of the loop pops another entry. -/
theorem Inv.ends
    (hsteps : entries.length ≤ visited.length + steps) :
    ∃ result, sortLoop sort steps stack forest visited = some result := by
  induction steps generalizing stack forest visited with
  | zero =>
    cases stack with
    | nil => exact ⟨_, rfl⟩
    | cons node stack =>
      have hsub : visited ++ node :: stack ⊆ entries.map SessionEntry.entryId := fun id hid => by
        obtain ⟨e, he, rfl, _⟩ := h.grounded id hid
        exact mem_map_of_mem he
      have hlen := (subperm_of_subset h.nodup hsub).length_le
      simp at hlen
      omega
  | succ steps ih =>
    cases stack with
    | nil => exact ⟨_, rfl⟩
    | cons node stack => exact ih (h.pop hids hsort) (by simp; omega)

end Forest

/-! ## When the walks end -/

section Trees
variable {getTime : String → Option Int}

theorem sortChildren_perm (nodeMap : JsMap String (SessionEntry R)) (l : List String) :
    (sortChildren getTime nodeMap l).Perm l := mergeSort_perm _ _

theorem parentNode_mem {p : String} (h : parentNode (buildEntryIndex entries) e = some p) :
    p ∈ entries.map SessionEntry.entryId := (has_index p).mp (parentNode_some h).2.2

theorem planted_inv (hids : (entries.map SessionEntry.entryId).Nodup) :
    Inv entries (buildEntryIndex entries) (plant (buildEntryIndex entries) entries) []
      (plant (buildEntryIndex entries) entries).roots.reverse := by
  have hroot : ∀ x, x ∈ (plant (buildEntryIndex entries) entries).roots ↔
      ∃ e ∈ entries, parentNode (buildEntryIndex entries) e = none ∧ e.entryId = x := fun x => by
    rw [plant, roots_foldl]
    simp [and_assoc]
  refine ⟨?_, fun p => ?_, fun e he => ?_, fun id hid => ?_⟩
  · rw [nil_append, nodup_reverse, plant, roots_foldl]
    exact (filter_sublist.map _).nodup hids
  · rw [plant, children_foldl]
    rfl
  · rw [nil_append, mem_reverse, hroot]
    constructor
    · rintro ⟨f, hf, hnone, hid⟩ p hp
      rw [unique hids hf he hid, hp] at hnone
      cases hnone
    · intro hall
      refine ⟨e, he, ?_, rfl⟩
      cases hparent : parentNode (buildEntryIndex entries) e with
      | none => rfl
      | some p => cases hall p hparent
  · rw [nil_append, mem_reverse, hroot] at hid
    obtain ⟨e, he, hnone, rfl⟩ := hid
    refine ⟨e, he, rfl, .intro e fun g hg => ?_⟩
    rw [hg.2.2] at hnone
    cases hnone

variable {visited : List String}

variable {forest : Forest}

/-- With ids that differ, the tree has the entries from which the chain of parents ends. -/
theorem tree_visits (hids : (entries.map SessionEntry.entryId).Nodup) {steps : Nat}
    (h : getTree getTime steps entries = some (forest, visited)) :
    visited.Nodup ∧ visited ⊆ entries.map SessionEntry.entryId ∧ ∀ e ∈ entries,
      e.entryId ∈ visited ↔ Acc (Below entries (buildEntryIndex entries)) e := by
  have hend := (planted_inv hids).run hids (sortChildren_perm _) h
  refine ⟨by simpa using hend.nodup, fun id hid => ?_, fun e he => ⟨fun hv => ?_, fun hacc => ?_⟩⟩
  · obtain ⟨f, hf, rfl, _⟩ := hend.grounded id (by simpa using hid)
    exact mem_map_of_mem hf
  · obtain ⟨f, hf, hid, hacc⟩ := hend.grounded e.entryId (by simpa using hv)
    exact unique hids hf he hid ▸ hacc
  · induction hacc with
    | intro e _ ih =>
      have hplaced := hend.placed e he
      rw [append_nil] at hplaced
      refine hplaced.mpr fun p hp => ?_
      obtain ⟨f, hf, rfl⟩ := mem_map.mp (parentNode_mem hp)
      exact ih f ⟨hf, he, hp⟩ hf

/-- Each entry has a place in the tree, so a tree with each id once has distinct ids. -/
theorem ids_nodup {steps : Nat}
    (h : getTree getTime steps entries = some (forest, visited)) (hnodup : visited.Nodup)
    (hmem : ∀ id, id ∈ visited ↔ id ∈ entries.map SessionEntry.entryId) :
    (entries.map SessionEntry.entryId).Nodup := by
  obtain ⟨popped, hvisited, hlen⟩ := sortLoop_length (sortChildren_perm _) h
  rw [nil_append] at hvisited
  subst hvisited
  simp only [length_reverse, plant, roots_foldl, children_foldl, nil_append, length_map] at hlen
  have hplaced := placed_length (parentNode (buildEntryIndex entries)) hnodup
    fun e (_ : e ∈ entries) p hp => (hmem p).mpr (parentNode_mem hp)
  rw [hplaced] at hlen
  have hsub := subperm_of_subset hnodup fun id hid => (hmem id).mp hid
  exact (hsub.perm_of_length_le (by rw [hlen, length_map])).nodup_iff.mp hnodup

/-- `buildSessionPath`, `getBranch` and `getTree` end, and the tree has each id once, just
when the ids differ and no entry is among its own ancestors. -/
theorem walks_end_iff (getTime : String → Option Int) (entries : List (SessionEntry R)) : WalksEnd getTime entries ↔
      (entries.map SessionEntry.entryId).Nodup ∧ ∀ e, ¬ TransGen (IsParent entries) e e := by
  constructor
  · intro h
    obtain ⟨steps, forest, visited, hrun, hnodup, hmem⟩ := h.tree
    have hids := ids_nodup hrun hnodup hmem
    have hloop : ∀ e, parentIn (buildEntryIndex entries) e ≠ some e := fun e hself => by
      obtain ⟨steps, hsteps⟩ := h.branch (some e.entryId) none
      have hstart : getBranch steps entries (some e.entryId) none =
          walk (buildEntryIndex entries) steps (some e) [] := by
        rw [parentIn] at hself
        split at hself
        · cases hself
        · rename_i parentId hparent
          split at hself
          · cases hself
          · rename_i hne
            rw [getBranch, Option.none_or]
            dsimp only
            rw [(of_get_index hself).2, if_neg hne, hself]
      rw [hstart, walk_self hself] at hsteps
      cases hsteps
    have hbelow : ∀ a b, IsParent entries a b → Below entries (buildEntryIndex entries) a b := by
      rintro a b ⟨ha, hb, hparent, hempty⟩
      have hne : a.entryId ≠ b.entryId := fun he => by
        refine hloop b ?_
        rw [parentIn, hparent]
        dsimp only
        rw [he, if_neg (hempty he.symm), get_index_of_mem hids hb]
      refine ⟨ha, hb, ?_⟩
      rw [parentNode, hparent]
      dsimp only
      rw [if_neg hne, if_pos ((has_index _).mpr (mem_map_of_mem ha))]
    refine ⟨hids, fun e hcycle => ?_⟩
    obtain ⟨_, hfirst, _⟩ := TransGen.head'_iff.mp hcycle
    have hacc := ((tree_visits hids hrun).2.2 e hfirst.1).mp ((hmem _).mpr (mem_map_of_mem hfirst.1))
    exact not_transGen_self (Subrelation.accessible (hbelow _ _) hacc) hcycle
  · rintro ⟨hids, hacyclic⟩
    have hwalk : ∀ start, (∀ e, start = some e → e ∈ entries) →
        ∃ steps, (walk (buildEntryIndex entries) steps start []).isSome := fun start hstart => by
      cases start with
      | none => exact ⟨0, rfl⟩
      | some e => exact walk_ends (acc_of_acyclic (fun _ _ hp => hp.1) hacyclic (hstart e rfl)) (hstart e rfl) []
    refine ⟨fun leafId => ?_, fun leafId fromId => ?_, ?_⟩
    · cases leafId with
      | null => exact ⟨0, rfl⟩
      | unspecified => exact hwalk _ fun e he => mem_of_getLast? he
      | entry id =>
        refine hwalk (leafIn entries (.entry id)) fun e he => ?_
        rw [leafIn] at he
        split at he
        · exact mem_of_getLast? he
        · rcases Option.or_eq_some_iff.mp he with he | ⟨_, he⟩
          · exact (of_get_index he).1
          · exact mem_of_getLast? he
    · refine hwalk _ fun e he => ?_
      split at he
      · cases he
      · split at he
        · cases he
        · exact (of_get_index he).1
    · have hends : ∃ result, getTree getTime entries.length entries = some result :=
        (planted_inv hids).ends hids (sortChildren_perm _) (by simp)
      obtain ⟨⟨forest, visited⟩, hrun⟩ := hends
      obtain ⟨hnodup, hsub, hmem⟩ := tree_visits hids hrun
      refine ⟨entries.length, forest, visited, hrun, hnodup, fun id => ⟨fun hid => hsub hid, fun hid => ?_⟩⟩
      obtain ⟨e, he, rfl⟩ := mem_map.mp hid
      refine (hmem e he).mpr (Subrelation.accessible (fun {a b} hbelow => ?_) (acc_of_acyclic (fun _ _ hp => hp.1) hacyclic he))
      obtain ⟨hparent, hne, _⟩ := parentNode_some hbelow.2.2
      exact ⟨hbelow.1, hbelow.2.1, hparent, fun heq => absurd heq.symm hne⟩

/-- An entry that names itself as its parent keeps `getBranch` going. -/
theorem walks_end_selfParent :
    ¬ WalksEnd (fun _ => none) [(⟨"a", some "a", "", ()⟩ : SessionEntry Unit)] := by
  intro h
  obtain ⟨steps, hsteps⟩ := h.branch (some "a") none
  have hself : parentIn (buildEntryIndex [⟨"a", some "a", "", ()⟩]) (⟨"a", some "a", "", ()⟩ : SessionEntry Unit) =
    some ⟨"a", some "a", "", ()⟩ := rfl
  have hnone : getBranch steps [⟨"a", some "a", "", ()⟩] (some "a") none = none := walk_self hself steps []
  rw [hnone] at hsteps
  cases hsteps

end Trees

end Shuvpi.TreeWalks
