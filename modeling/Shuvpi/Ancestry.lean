import Mathlib.Data.List.Basic
import Mathlib.Order.Basic
import Mathlib.Order.Lattice

/-!
# Paths to the root

Nodes that name their parents, which are of lower rank. The path of a node is the node, its
parent, and so on up to a node without parent. It exists and is unique, its ranks fall, and
the path of any node on it is the part of it that starts there.
-/
open List

namespace Shuvpi.Ancestry

variable {α κ : Type} (id : α → κ) (parent : α → Option κ) (rank : α → Nat)

structure Forest (nodes : List α) : Prop where
  unique : ∀ a ∈ nodes, ∀ b ∈ nodes, id a = id b → a = b
  parents : ∀ a ∈ nodes, ∀ p, parent a = some p → ∃ b ∈ nodes, id b = p ∧ rank b < rank a

/-- The path of a node, from the node on. -/
inductive Path (nodes : List α) : α → List α → Prop where
  | root {a : α} (hmem : a ∈ nodes) (hparent : parent a = none) : Path nodes a [a]
  | step {a b : α} {l : List α} (hmem : a ∈ nodes) (hparent : parent a = some (id b)) (hpath : Path nodes b l) :
      Path nodes a (a :: l)

variable {id parent rank} {nodes : List α}

variable {a : α} {l : List α} (h : Path id parent nodes a l)
include h

theorem Path.head : ∃ rest, l = a :: rest := by
  cases h with
  | root | step => exact ⟨_, rfl⟩

theorem Path.self_mem : a ∈ l := by
  obtain ⟨rest, rfl⟩ := h.head
  exact mem_cons_self

theorem Path.mem_nodes : ∀ x ∈ l, x ∈ nodes := by
  induction h with
  | root hmem hparent =>
    intro x hx
    rw [mem_singleton.mp hx]
    exact hmem
  | step hmem hparent hpath ih =>
    intro x hx
    rcases mem_cons.mp hx with rfl | hx
    · exact hmem
    · exact ih x hx

omit h

theorem Path.mono {nodes' : List α} (hsub : ∀ x ∈ nodes, x ∈ nodes')
    (h : Path id parent nodes a l) : Path id parent nodes' a l := by
  induction h with
  | root hmem hparent => exact .root (hsub _ hmem) hparent
  | step hmem hparent hpath ih => exact .step (hsub _ hmem) hparent ih

namespace Forest

theorem path_exists (h : Forest id parent rank nodes) (ha : a ∈ nodes) : ∃ l, Path id parent nodes a l := by
  obtain ⟨n, hn⟩ : ∃ n, n = rank a := ⟨_, rfl⟩
  induction n using Nat.strongRecOn generalizing a with
  | _ n ih =>
    cases hp : parent a with
    | none => exact ⟨[a], .root ha hp⟩
    | some p =>
      obtain ⟨b, hb, rfl, hlt⟩ := h.parents a ha p hp
      obtain ⟨l, hl⟩ := ih (rank b) (by omega) hb rfl
      exact ⟨a :: l, .step ha hp hl⟩

theorem parent_eq {l : List α} (h : Forest id parent rank nodes) {a b : α} (ha : a ∈ nodes)
    (hp : parent a = some (id b)) (hb : Path id parent nodes b l) : rank b < rank a := by
  obtain ⟨b', hb', hid, hlt⟩ := h.parents a ha (id b) hp
  rw [h.unique b' hb' b (hb.mem_nodes b hb.self_mem) hid] at hlt
  exact hlt

theorem path_unique (h : Forest id parent rank nodes) {l l' : List α} (hl : Path id parent nodes a l)
    (hl' : Path id parent nodes a l') : l = l' := by
  induction hl generalizing l' with
  | root hmem hparent =>
    cases hl' with
    | root => rfl
    | step hmem' hpar' hpath' =>
      rw [hparent] at hpar'
      cases hpar'
  | @step a b l hmem hparent hpath ih =>
    cases hl' with
    | root hmem' hpar' =>
      rw [hparent] at hpar'
      cases hpar'
    | @step _ b' l'' hmem' hpar' hpath' =>
      have hid : id b = id b' := Option.some.inj (hparent.symm.trans hpar')
      have heq : b = b' := h.unique b (hpath.mem_nodes b hpath.self_mem) b' (hpath'.mem_nodes b' hpath'.self_mem) hid
      subst heq
      rw [ih hpath']

/-- Ranks fall along a path. -/
theorem path_rank {l : List α} (h : Forest id parent rank nodes) (hl : Path id parent nodes a l) :
    l.Pairwise (fun x y => rank y < rank x) ∧ ∀ x ∈ l, rank x ≤ rank a := by
  induction hl with
  | root hmem hparent =>
    refine ⟨pairwise_singleton _ _, ?_⟩
    intro x hx
    exact Nat.le_of_eq (congrArg rank (mem_singleton.mp hx))
  | @step a b l hmem hparent hpath ih =>
    have hlt := h.parent_eq hmem hparent hpath
    refine ⟨pairwise_cons.mpr ⟨?_, ih.1⟩, ?_⟩
    · intro x hx
      exact Nat.lt_of_le_of_lt (ih.2 x hx) hlt
    · intro x hx
      rcases mem_cons.mp hx with rfl | hx
      · exact Nat.le_refl _
      · exact Nat.le_trans (ih.2 x hx) (Nat.le_of_lt hlt)

/-- The path of a node on a path is what is of no higher rank on it. -/
theorem path_below {l : List α} (h : Forest id parent rank nodes) {a x : α} (hl : Path id parent nodes a l)
    (hx : x ∈ l) :
    ∃ l', Path id parent nodes x l' ∧ ∀ y, y ∈ l' ↔ y ∈ l ∧ rank y ≤ rank x := by
  induction hl with
  | root hmem hparent =>
    refine ⟨_, .root (mem_singleton.mp hx ▸ hmem) (mem_singleton.mp hx ▸ hparent), ?_⟩
    intro y
    rw [mem_singleton.mp hx]
    constructor
    · intro hy
      rw [mem_singleton.mp hy]
      exact ⟨mem_singleton.mpr rfl, Nat.le_refl _⟩
    · exact fun hy => hy.1
  | @step a b l hmem hparent hpath ih =>
    have hall := h.path_rank (.step hmem hparent hpath)
    rcases mem_cons.mp hx with rfl | hxl
    · refine ⟨x :: l, .step hmem hparent hpath, ?_⟩
      intro y
      exact ⟨fun hy => ⟨hy, hall.2 y hy⟩, fun hy => hy.1⟩
    · obtain ⟨l', hl', hiff⟩ := ih hxl
      refine ⟨l', hl', ?_⟩
      intro y
      rw [hiff y, mem_cons]
      constructor
      · exact fun hy => ⟨.inr hy.1, hy.2⟩
      · rintro ⟨rfl | hy, hle⟩
        · have hlt := (pairwise_cons.mp hall.1).1 x hxl
          omega
        · exact ⟨hy, hle⟩

/-- Of two nodes on a path the one of lower rank is on the path of the other. -/
theorem path_between (h : Forest id parent rank nodes) {a x : α} {l l' : List α} (hl : Path id parent nodes a l)
    (hx : x ∈ l) (hl' : Path id parent nodes x l') (y : α) : y ∈ l' ↔ y ∈ l ∧ rank y ≤ rank x := by
  obtain ⟨l'', hl'', hiff⟩ := h.path_below hl hx
  rw [h.path_unique hl' hl'']
  exact hiff y

end Forest

end Shuvpi.Ancestry
