import Mathlib

/-!
# Order statistics

The element that a partial sort puts at a position: the one a full sort puts
there. All elements from that position on are at least as large, which bounds
from below how many elements of the list reach it.
-/

namespace Freezone.NthElement

open List

variable {α : Type} [LinearOrder α]

/-- The element at position `k` of the sorted list. -/
def nthElement (l : List α) (k : Nat) : Option α := (l.insertionSort (· ≤ ·))[k]?

variable {l : List α} {k : Nat} {a : α}

theorem mem_of_nthElement (h : nthElement l k = some a) : a ∈ l :=
  (perm_insertionSort (· ≤ ·) l).mem_iff.mp (mem_of_getElem? h)

theorem exists_nthElement (hk : k < l.length) : ∃ a, nthElement l k = some a := by
  have hlen : k < (l.insertionSort (· ≤ ·)).length := by
    rw [length_insertionSort]
    exact hk
  exact ⟨_, List.getElem?_eq_getElem hlen⟩

/-- At least `l.length - k` elements are as large as the one at position `k`. -/
theorem length_sub_le_countP (h : nthElement l k = some a) :
    l.length - k ≤ l.countP fun b => a ≤ b := by
  have hperm := perm_insertionSort (· ≤ ·) l
  have hsorted := pairwise_insertionSort (· ≤ ·) l
  rw [← hperm.countP_eq, ← hperm.length_eq]
  unfold nthElement at h
  generalize l.insertionSort (· ≤ ·) = s at h hsorted
  have hdrop : (s.drop k).countP (fun b => a ≤ b) = (s.drop k).length := by
    rw [countP_eq_length]
    intro b hb
    obtain ⟨hlt, hget⟩ := List.getElem?_eq_some_iff.mp h
    rw [drop_eq_getElem_cons hlt, hget] at hb
    rcases mem_cons.mp hb with rfl | hb
    · simp
    · have htail := hsorted.drop (i := k)
      rw [drop_eq_getElem_cons hlt, hget] at htail
      simpa using rel_of_pairwise_cons htail hb
  calc s.length - k = (s.drop k).length := length_drop.symm
    _ = (s.drop k).countP (fun b => a ≤ b) := hdrop.symm
    _ ≤ s.countP fun b => a ≤ b := (drop_sublist k s).countP_le

end Freezone.NthElement
