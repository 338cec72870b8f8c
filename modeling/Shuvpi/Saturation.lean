import Mathlib.Data.List.Nodup
import Mathlib.Data.List.Sublists
import Mathlib.Logic.Relation

/-!
# Saturation

The loop that finds what can be reached along edges from a child to its parent: it goes over
all edges and adds the children of what it has found, until a pass adds nothing.
-/
namespace Shuvpi.Saturation

open List

variable {α : Type} [DecidableEq α]

/-- One edge, from a child to its parent. -/
def visit (out : List α) (edge : α × α) : List α :=
  if edge.1 ∈ out then out else if edge.2 ∈ out then out ++ [edge.1] else out

def pass (edges : List (α × α)) (out : List α) : List α := edges.foldl visit out

def loop (edges : List (α × α)) : Nat → List α → List α
  | 0, out => out
  | rounds + 1, out =>
    let next := pass edges out
    if next.length = out.length then next else loop edges rounds next

/-- Every pass but the last adds the child of an edge, so that a round for each edge and one more are enough. -/
def saturate (edges : List (α × α)) (root : α) : List α := loop edges (edges.length + 1) [root]

/-- The step from a parent to its child. -/
def Child (edges : List (α × α)) (parent child : α) : Prop := (child, parent) ∈ edges

/-! ## Soundness -/

variable {edges : List (α × α)} {out : List α} {P : α → Prop}

theorem visit_sound {edge : α × α} (hP : ∀ a b, P a → Child edges a b → P b) (hedge : edge ∈ edges)
    (h : ∀ a ∈ out, P a) : ∀ a ∈ visit out edge, P a := by
  unfold visit
  split
  · exact h
  · split
    · rename_i hparent
      intro a ha
      rcases mem_append.mp ha with ha | ha
      · exact h a ha
      · rw [mem_singleton.mp ha]
        exact hP edge.2 edge.1 (h _ hparent) hedge
    · exact h

variable {todo : List (α × α)}

variable (hP : ∀ a b, P a → Child edges a b → P b)
include hP

theorem foldl_sound (htodo : ∀ edge ∈ todo, edge ∈ edges)
    (h : ∀ a ∈ out, P a) : ∀ a ∈ todo.foldl visit out, P a := by
  induction todo generalizing out with
  | nil => exact h
  | cons edge todo ih =>
    exact ih (fun e he => htodo e (.tail _ he)) (visit_sound hP (htodo edge (.head _)) h)

theorem loop_sound (rounds : Nat) (h : ∀ a ∈ out, P a) :
    ∀ a ∈ loop edges rounds out, P a := by
  induction rounds generalizing out with
  | zero => exact h
  | succ rounds ih =>
    have hpass : ∀ a ∈ pass edges out, P a := foldl_sound hP (fun _ he => he) h
    unfold loop
    dsimp only
    split
    · exact hpass
    · exact ih hpass

/-! ## Completeness -/

omit hP

/-- The children of what has been found have been found. -/
def Closed (edges : List (α × α)) (out : List α) : Prop := ∀ edge ∈ edges, edge.2 ∈ out → edge.1 ∈ out

theorem visit_extends (out : List α) (edge : α × α) : out <+: visit out edge := by
  unfold visit
  split
  · exact prefix_rfl
  · split
    · exact prefix_append _ _
    · exact prefix_rfl

theorem foldl_extends (todo : List (α × α)) (out : List α) : out <+: todo.foldl visit out := by
  induction todo generalizing out with
  | nil => exact prefix_rfl
  | cons edge todo ih => exact (visit_extends out edge).trans (ih _)

/-- A pass that adds nothing has found nothing to add. -/
theorem closed_of_length (h : (todo.foldl visit out).length = out.length) : Closed todo out := by
  induction todo generalizing out with
  | nil => exact fun _ he => by cases he
  | cons edge todo ih =>
    have hrest := foldl_extends todo (visit out edge)
    have hsame : visit out edge = out := by
      refine ((visit_extends out edge).eq_of_length (Nat.le_antisymm (visit_extends out edge).length_le ?_)).symm
      calc (visit out edge).length ≤ (todo.foldl visit (visit out edge)).length := hrest.length_le
        _ = out.length := h
    rw [foldl_cons, hsame] at h
    intro e he hparent
    rcases mem_cons.mp he with rfl | he
    · by_contra hchild
      unfold visit at hsame
      rw [if_neg hchild, if_pos hparent] at hsame
      simpa using congrArg length hsame
    · exact ih h e he hparent

theorem visit_nodup (edge : α × α) (h : out.Nodup) : (visit out edge).Nodup := by
  unfold visit
  split
  · exact h
  · split
    · rename_i hnot _
      refine nodup_append.mpr ⟨h, nodup_singleton _, fun a ha b hb => ?_⟩
      rw [mem_singleton.mp hb]
      exact fun heq => hnot (heq ▸ ha)
    · exact h

theorem foldl_nodup (h : out.Nodup) : (todo.foldl visit out).Nodup := by
  induction todo generalizing out with
  | nil => exact h
  | cons edge todo ih => exact ih (visit_nodup edge h)

/-- With enough rounds the loop ends by itself. -/
theorem loop_closed {root : α} {rounds : Nat} (hnodup : out.Nodup) (hout : ∀ a ∈ out, a ∈ root :: edges.map Prod.fst)
    (hrounds : edges.length + 1 < rounds + out.length) :
    Closed edges (loop edges rounds out) ∧ out ⊆ loop edges rounds out := by
  have hbound : ∀ out : List α, out.Nodup → (∀ a ∈ out, a ∈ root :: edges.map Prod.fst) → out.length ≤ edges.length + 1 := by
    intro out hnodup hout
    have := (subperm_of_subset hnodup hout).length_le
    simpa using this
  induction rounds generalizing out with
  | zero =>
    have := hbound out hnodup hout
    omega
  | succ rounds ih =>
    have hext := foldl_extends edges out
    have hnodup' : (pass edges out).Nodup := foldl_nodup hnodup
    have hout' : ∀ a ∈ pass edges out, a ∈ root :: edges.map Prod.fst := by
      refine foldl_sound (fun a b _ hchild => ?_) (fun _ he => he) hout
      exact mem_cons_of_mem _ (mem_map.mpr ⟨(b, a), hchild, rfl⟩)
    unfold loop
    dsimp only
    split
    · rename_i hlen
      have hsame : out = pass edges out := hext.eq_of_length hlen.symm
      rw [← hsame]
      exact ⟨closed_of_length hlen, fun _ ha => ha⟩
    · rename_i hlen
      have hle : out.length ≤ (pass edges out).length := hext.length_le
      obtain ⟨hclosed, hsub⟩ := ih hnodup' hout' (by omega)
      exact ⟨hclosed, fun a ha => hsub (hext.subset ha)⟩

theorem mem_saturate {root a : α} : a ∈ saturate edges root ↔ Relation.ReflTransGen (Child edges) root a := by
  constructor
  · refine loop_sound (fun b c hb hchild => hb.tail hchild) _ (fun b hb => ?_) a
    rw [mem_singleton.mp hb]
  · intro h
    have hroot : ∀ b ∈ [root], b ∈ root :: edges.map Prod.fst := fun b hb => by simp [mem_singleton.mp hb]
    obtain ⟨hclosed, hsub⟩ := loop_closed (nodup_singleton root) hroot
      (by simp : edges.length + 1 < edges.length + 1 + [root].length)
    induction h with
    | refl => exact hsub (.head _)
    | tail _ hchild ih => exact hclosed _ hchild ih

end Shuvpi.Saturation
