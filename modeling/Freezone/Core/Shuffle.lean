import Mathlib.GroupTheory.Perm.Basic
import Mathlib.Logic.Equiv.Fin.Basic

/-!
# Shuffles in place

An array as a function of its places, and the loop that exchanges each of the first
places with a chosen one. The result is the array after a permutation of its places
that keeps the first ones among themselves.
-/

namespace Freezone

variable {α : Type} {n : Nat}

/-- Exchange two places of an array, if it has them. -/
def swapPlaces (i j : Nat) (a : Fin n → α) : Fin n → α :=
  if h : i < n ∧ j < n then a ∘ Equiv.swap ⟨i, h.1⟩ ⟨j, h.2⟩ else a

/-- Exchange each of the first places with the one chosen for it. -/
def shuffle (choose : Nat → Nat) (count : Nat) (a : Fin n → α) : Fin n → α :=
  (List.range count).foldl (fun a i => swapPlaces i (choose i) a) a

/-- A permutation of places that keeps the first ones among themselves. -/
def KeepsFirst (count : Nat) (σ : Equiv.Perm (Fin n)) : Prop :=
  ∀ i, (σ i : Nat) < count ↔ (i : Nat) < count

variable {count : Nat}

/-- A swap among the first places keeps them first. -/
theorem keepsFirst_swap {i j : Fin n} (hi : (i : Nat) < count)
    (hj : (j : Nat) < count) : KeepsFirst count (Equiv.swap i j) := by
  intro k
  by_cases hki : k = i
  · subst hki
    rw [Equiv.swap_apply_left]
    exact iff_of_true hj hi
  · by_cases hkj : k = j
    · subst hkj
      rw [Equiv.swap_apply_right]
      exact iff_of_true hi hj
    · rw [Equiv.swap_apply_of_ne_of_ne hki hkj]

theorem exists_swapPlaces {i j : Nat} (hi : i < count) (hj : j < count) (a : Fin n → α) :
    ∃ σ : Equiv.Perm (Fin n), KeepsFirst count σ ∧ swapPlaces i j a = a ∘ σ := by
  unfold swapPlaces
  split_ifs with h
  · exact ⟨Equiv.swap ⟨i, h.1⟩ ⟨j, h.2⟩, keepsFirst_swap hi hj, rfl⟩
  · exact ⟨1, fun _ => Iff.rfl, rfl⟩

/-- A shuffle permutes the first places. -/
theorem exists_shuffle {choose : Nat → Nat} (hchoose : ∀ i < count, choose i < count)
    (a : Fin n → α) :
    ∃ σ : Equiv.Perm (Fin n), KeepsFirst count σ ∧ shuffle choose count a = a ∘ σ := by
  unfold shuffle
  have hrange : ∀ i ∈ List.range count, i < count := fun i hi => List.mem_range.mp hi
  generalize List.range count = places at hrange
  induction places generalizing a with
  | nil => exact ⟨1, fun _ => Iff.rfl, rfl⟩
  | cons i places ih =>
    have hi := hrange i List.mem_cons_self
    obtain ⟨τ, hτ, hswap⟩ := exists_swapPlaces hi (hchoose i hi) a
    obtain ⟨σ, hσ, hrest⟩ := ih (swapPlaces i (choose i) a)
      fun j hj => hrange j (List.mem_cons_of_mem _ hj)
    refine ⟨τ * σ, fun k => (hτ (σ k)).trans (hσ k), ?_⟩
    rw [List.foldl_cons, hrest, hswap]
    rfl

end Freezone
