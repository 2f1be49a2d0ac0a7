import Mathlib.Data.List.Basic

/-!
# Loops that fill a quota

A loop over a list that looks at one element after the other until a number of
them have passed a test, or none is left. It looks at an initial part of the list,
and what passes is the first so many of all elements that pass.
-/

namespace Freezone

open List

variable {α : Type} {p : α → Bool}

/-- The elements that a loop looks at until `n` of them have passed. -/
def takeQuota (p : α → Bool) : Nat → List α → List α
  | 0, _ => []
  | _ + 1, [] => []
  | n + 1, a :: l => a :: takeQuota p (if p a then n else n + 1) l

theorem isPrefix_takeQuota (n : Nat) (l : List α) : takeQuota p n l <+: l := by
  induction l generalizing n with
  | nil => cases n <;> exact nil_prefix
  | cons a l ih =>
    cases n with
    | zero => exact nil_prefix
    | succ n => exact (prefix_cons_inj a).mpr (ih _)

/-- The quota counts only what satisfies the condition. -/
theorem filter_takeQuota (n : Nat) (l : List α) :
    (takeQuota p n l).filter p = (l.filter p).take n := by
  induction l generalizing n with
  | nil => cases n <;> rfl
  | cons a l ih =>
    cases n with
    | zero => rw [takeQuota, filter_nil, take_zero]
    | succ n =>
      rw [takeQuota]
      by_cases ha : p a = true
      · rw [if_pos ha, filter_cons_of_pos ha, filter_cons_of_pos ha, ih,
          take_succ_cons]
      · rw [if_neg ha, filter_cons_of_neg ha, filter_cons_of_neg ha, ih]

/-- An element of a sorted list with few before it is among the first. -/
theorem mem_take_of_countP_lt {r : α → α → Prop} [DecidableRel r] {l : List α}
    (hl : l.Pairwise r) {a : α} (ha : a ∈ l) {n : Nat} (hn : l.countP (fun b => r b a) < n) :
    a ∈ l.take n := by
  obtain ⟨s, t, rfl⟩ := append_of_mem ha
  have hbefore : s.countP (fun b => r b a) = s.length := by
    refine countP_eq_length.mpr fun b hb => ?_
    simpa using (pairwise_append.mp hl).2.2 b hb a mem_cons_self
  rw [countP_append, hbefore] at hn
  refine mem_take_iff_getElem.mpr ⟨s.length, ?_, ?_⟩
  · rw [length_append, length_cons]
    omega
  · simp

end Freezone
