import Mathlib.Data.Set.Finite.List
import Mathlib.Order.WellFounded

/-!
# Relations without cycles

On a finite list, a relation in which nothing is reached from itself is well-founded, and the
other way round.
-/
open List Relation

namespace Shuvpi

variable {α : Type} {r : α → α → Prop} {a : α}

theorem acc_of_acyclic {l : List α} (hin : ∀ a b, r a b → a ∈ l) (h : ∀ a, ¬ TransGen r a a) (ha : a ∈ l) :
    Acc r a := by
  let s (a b : {a // a ∈ l}) : Prop := TransGen r a.1 b.1
  have : Finite {a // a ∈ l} := (finite_toSet l).to_subtype
  have : Std.Irrefl s := ⟨fun a => h a.1⟩
  have hwf : WellFounded s := Finite.wellFounded_of_trans_of_irrefl s
  have hall : ∀ a : {a // a ∈ l}, Acc r a.1 := fun a =>
    hwf.induction (C := fun a => Acc r a.1) a fun _ ih => ⟨_, fun b hb => ih ⟨b, hin _ _ hb⟩ (.single hb)⟩
  exact hall ⟨a, ha⟩

theorem not_transGen_self (h : Acc r a) : ¬ TransGen r a a := by
  have htrans : Acc (TransGen r) a := h.transGen
  clear h
  induction htrans with
  | intro a _ ih => exact fun hself => ih a hself hself

end Shuvpi
