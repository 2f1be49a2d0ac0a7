import Mathlib

/-!
# Weights that reach a threshold

The weight of a set in a list of weighted entries, and the least set of nodes that
contains given ones and every node whose threshold it reaches.
-/

namespace Freezone.Weights

open Classical in
/-- The weight that the members of a set have in a list. -/
noncomputable def weight {ι : Type} (A : Set ι) (l : List (ι × Nat)) : Nat :=
  (l.map fun e => if e.1 ∈ A then e.2 else 0).sum

variable {ι : Type} {A B : Set ι}

@[simp] theorem weight_nil : weight A [] = 0 := rfl

theorem weight_cons_of_mem {i : ι} (h : i ∈ A) (w : Nat) (l : List (ι × Nat)) :
    weight A ((i, w) :: l) = w + weight A l := by
  rw [weight, List.map_cons, if_pos h, List.sum_cons, weight]

theorem weight_cons_of_not_mem {i : ι} (h : i ∉ A) (w : Nat) (l : List (ι × Nat)) :
    weight A ((i, w) :: l) = weight A l := by
  rw [weight, List.map_cons, if_neg h, List.sum_cons, Nat.zero_add, weight]

theorem weight_le_weight_cons (e : ι × Nat) (l : List (ι × Nat)) :
    weight A l ≤ weight A (e :: l) := by
  by_cases h : e.1 ∈ A
  · rw [weight_cons_of_mem h]
    exact Nat.le_add_left _ _
  · rw [weight_cons_of_not_mem h]

/-- A larger set weighs no less. -/
theorem weight_mono (h : A ⊆ B) (l : List (ι × Nat)) : weight A l ≤ weight B l := by
  induction l with
  | nil => exact le_rfl
  | cons e l ih =>
    by_cases ha : e.1 ∈ A
    · rw [weight_cons_of_mem ha, weight_cons_of_mem (h ha)]
      exact Nat.add_le_add_left ih _
    · rw [weight_cons_of_not_mem ha]
      exact ih.trans (weight_le_weight_cons e l)

/-- No set weighs more than the whole list. -/
theorem weight_le_sum (A : Set ι) (l : List (ι × Nat)) : weight A l ≤ (l.map Prod.snd).sum := by
  induction l with
  | nil => exact le_rfl
  | cons e l ih =>
    by_cases h : e.1 ∈ A
    · rw [weight_cons_of_mem h]
      exact Nat.add_le_add_left ih _
    · rw [weight_cons_of_not_mem h]
      exact ih.trans (Nat.le_add_left _ _)

end Freezone.Weights
