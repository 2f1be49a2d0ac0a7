import Mathlib.Algebra.BigOperators.Fin
import Mathlib.Algebra.BigOperators.Intervals
import Mathlib.Algebra.BigOperators.Ring.Finset
import Mathlib.Data.Int.Basic
import Mathlib.Logic.Function.Basic
import Mathlib.Tactic.Ring

/-!
# Forests

A forest is given by the parents of its nodes. Nodes carry weights, and the weights
that reach a node over a number of hops are added up. This says how such sums change
when a weight changes, when a tree is cut off and when it is attached elsewhere.
-/

namespace Freezone.Forest

open Finset Option Function

section Hops

variable {α : Type} {parent : α → Option α} {p x : α} {n m : Nat}

/-- The ancestor over a number of hops, if there is one. -/
def hop (parent : α → Option α) : Nat → α → Option α
  | 0, x => some x
  | n + 1, x => (parent x).bind (hop parent n)

/-- Hops add up. -/
theorem hop_add (parent : α → Option α) (m n : Nat) (x : α) :
    hop parent (m + n) x = (hop parent m x).bind (hop parent n) := by
  induction m generalizing x with
  | zero => rw [Nat.zero_add, hop, bind_some]
  | succ m ih =>
    rw [Nat.succ_add, hop, hop, bind_assoc]
    exact congrArg _ (funext ih)

theorem hop_of_root (h : parent x = none) (n : Nat) : hop parent (n + 1) x = none := by
  rw [hop, h, bind_none]

theorem hop_of_parent (h : parent x = some p) (n : Nat) :
    hop parent (n + 1) x = hop parent n p := by
  rw [hop, h, bind_some]

/-- An ancestor is the parent of some node. -/
theorem exists_child_of_hop (h : hop parent (n + 1) x = some p) : ∃ y, parent y = some p := by
  rw [hop_add parent n 1, bind_eq_some_iff] at h
  obtain ⟨y, -, hy⟩ := h
  rw [hop, bind_eq_some_iff] at hy
  obtain ⟨q, hq, hqp⟩ := hy
  cases hqp
  exact ⟨y, hq⟩

/-- No node is an ancestor of itself. -/
def Acyclic (parent : α → Option α) : Prop := ∀ n x, hop parent (n + 1) x ≠ some x

/-- Every chain of parents ends. -/
def Grounded (parent : α → Option α) : Prop := ∀ x, ∃ n, hop parent n x = none

/-- Beyond the end of a chain there is nothing. -/
theorem hop_eq_none (h : hop parent n x = none) (hle : n ≤ m) : hop parent m x = none := by
  obtain ⟨k, rfl⟩ := Nat.exists_eq_add_of_le hle
  rw [hop_add, h, bind_none]

/-- A cycle has no end. -/
theorem hop_cycle (h : hop parent n x = some x) (t : Nat) : hop parent (t * n) x = some x := by
  induction t with
  | zero =>
    rw [Nat.zero_mul]
    rfl
  | succ t ih => rw [Nat.succ_mul, hop_add, ih, bind_some, h]

/-- A forest in which every path ends has no cycle. -/
theorem Grounded.acyclic (h : Grounded parent) : Acyclic parent := by
  intro n x hcycle
  obtain ⟨m, hend⟩ := h x
  have hnone := hop_eq_none hend (Nat.le_mul_of_pos_right m n.succ_pos)
  rw [hop_cycle hcycle] at hnone
  cases hnone

end Hops

variable {α : Type} [DecidableEq α] {parent : α → Option α} {a p x y : α} {n m : Nat}

/-- The forest in which a node has no parent. -/
def cut (parent : α → Option α) (a : α) : α → Option α := Function.update parent a none

theorem cut_self (parent : α → Option α) (a : α) : cut parent a a = none := by
  rw [cut, update_self]

theorem cut_of_ne (h : x ≠ a) : cut parent a x = parent x := by
  rw [cut, update_of_ne h]

/-- The forest in which a node has a new parent. -/
def attach (parent : α → Option α) (a p : α) : α → Option α := Function.update parent a (some p)

theorem attach_self (parent : α → Option α) (a p : α) : attach parent a p a = some p := by
  rw [attach, update_self]

theorem attach_of_ne (h : x ≠ a) : attach parent a p x = parent x := by
  rw [attach, update_of_ne h]

/-- Cutting undoes an attachment. -/
theorem cut_attach (h : parent a = none) : cut (attach parent a p) a = parent := by
  rw [cut, attach, update_idem, ← h, update_eq_self]

/-- Cutting keeps no chain longer than it was. -/
theorem hop_cut_none (h : hop parent n x = none) : hop (cut parent a) n x = none := by
  induction n generalizing x with
  | zero => cases h
  | succ n ih =>
    by_cases hx : x = a
    · rw [hx]
      exact hop_of_root (cut_self parent a) n
    cases hp : parent x with
    | none => exact hop_of_root ((cut_of_ne hx).trans hp) n
    | some q =>
      rw [hop_of_parent hp] at h
      rw [hop_of_parent ((cut_of_ne hx).trans hp)]
      exact ih h

/-- What is above a node after a cut was above it before. -/
theorem hop_of_hop_cut (h : hop (cut parent a) n x = some y) : hop parent n x = some y := by
  induction n generalizing x with
  | zero => exact h
  | succ n ih =>
    by_cases hx : x = a
    · rw [hx, hop_of_root (cut_self parent a)] at h
      cases h
    cases hp : parent x with
    | none =>
      rw [hop_of_root ((cut_of_ne hx).trans hp)] at h
      cases h
    | some q =>
      rw [hop_of_parent ((cut_of_ne hx).trans hp)] at h
      rw [hop_of_parent hp]
      exact ih h

/-- Every path still ends after a cut. -/
theorem Grounded.cut (h : Grounded parent) (a : α) : Grounded (cut parent a) := by
  intro x
  obtain ⟨n, hn⟩ := h x
  exact ⟨n, hop_cut_none hn⟩

/-- The chains that avoid a node do not depend on its parent. -/
theorem hop_attach_of_avoids (h : ∀ n, hop parent n x ≠ some a) (n : Nat) :
    hop (attach parent a p) n x = hop parent n x := by
  induction n generalizing x with
  | zero => rfl
  | succ n ih =>
    have hx : x ≠ a := fun hx => h 0 (congrArg some hx)
    cases hp : parent x with
    | none => rw [hop_of_root hp, hop_of_root ((attach_of_ne hx).trans hp)]
    | some q =>
      rw [hop_of_parent hp, hop_of_parent ((attach_of_ne hx).trans hp)]
      refine ih fun k => ?_
      rw [← hop_of_parent hp]
      exact h (k + 1)

/-- A tree may be attached to a node outside of it. -/
theorem Grounded.attach (h : Grounded parent) (hp : ∀ n, hop parent n p ≠ some a) :
    Grounded (attach parent a p) := by
  -- by the length of the old chain: it ends, or it reaches the node and goes on from the new parent
  have hfrom : ∀ n x, hop parent n x = none → ∃ m, hop (Forest.attach parent a p) m x = none := by
    intro n
    induction n with
    | zero =>
      intro x hx
      cases hx
    | succ n ih =>
      intro x hx
      by_cases hxa : x = a
      · obtain ⟨m, hm⟩ := h p
        refine ⟨m + 1, ?_⟩
        rw [hxa, hop_of_parent (attach_self parent a p), hop_attach_of_avoids hp, hm]
      · cases hq : parent x with
        | none => exact ⟨1, hop_of_root ((attach_of_ne hxa).trans hq) 0⟩
        | some q =>
          rw [hop_of_parent hq] at hx
          obtain ⟨m, hm⟩ := ih q hx
          exact ⟨m + 1, (hop_of_parent ((attach_of_ne hxa).trans hq) m).trans hm⟩
  intro x
  obtain ⟨n, hn⟩ := h x
  exact hfrom n x hn

section Sums

variable (nodes : Finset α) (w : α → Int)

/-- The weights of the nodes that are a number of hops away. -/
def hopSum (nodes : Finset α) (parent : α → Option α) (w : α → Int) (n : Nat) (x : α) : Int :=
  ∑ y ∈ nodes, if hop parent n y = some x then w y else 0

/-- A weight changes the sums of the ancestors. -/
theorem hopSum_update (ha : a ∈ nodes) (d : Int) :
    hopSum nodes parent (Function.update w a (w a + d)) n x =
      hopSum nodes parent w n x + if hop parent n a = some x then d else 0 := by
  have hterm : ∀ y, (if hop parent n y = some x then update w a (w a + d) y else 0) =
      (if hop parent n y = some x then w y else 0) +
        if y = a then (if hop parent n a = some x then d else 0) else 0 := by
    intro y
    by_cases hy : y = a
    · rw [hy, update_self, if_pos rfl]
      split_ifs
      · rfl
      · rfl
    · rw [update_of_ne hy, if_neg hy, add_zero]
  unfold hopSum
  rw [sum_congr rfl fun y _ => hterm y, sum_add_distrib, sum_ite_eq_of_mem' _ _ _ ha]

/-- A node without weight can be added. -/
theorem hopSum_insert (h : a ∉ nodes) (hw : w a = 0) :
    hopSum (insert a nodes) parent w n x = hopSum nodes parent w n x := by
  unfold hopSum
  rw [sum_insert h, hw, ite_self, zero_add]

/-- A path either avoids the edge above a node or consists of a path to the node and one from it. -/
theorem hop_cut (h : Acyclic parent) (a : α) (n : Nat) (x y : α) :
    (if hop parent n y = some x then (1 : Int) else 0) =
      (if hop (cut parent a) n y = some x then 1 else 0) +
        ∑ m ∈ Finset.range n, (if hop parent (n - (m + 1)) y = some a then 1 else 0) *
          if hop parent (m + 1) a = some x then 1 else 0 := by
  induction n generalizing y with
  | zero =>
    rw [range_zero, sum_empty, add_zero]
    rfl
  | succ n ih =>
    rw [sum_range_succ, Nat.sub_self]
    by_cases hy : y = a
    · -- no path from the node returns to it
      have hroot : hop (cut parent a) (n + 1) a ≠ some x := by
        rw [hop_of_root (cut_self parent a)]
        nofun
      have hself : hop parent 0 a = some a := rfl
      rw [hy, if_neg hroot, sum_eq_zero, if_pos hself, one_mul, zero_add, zero_add]
      intro m hm
      have hlt := mem_range.mp hm
      obtain ⟨k, hk⟩ : ∃ k, n + 1 - (m + 1) = k + 1 := ⟨n - m - 1, by omega⟩
      rw [hk, if_neg (h k a), zero_mul]
    · have hzero : hop parent 0 y ≠ some a := fun hn => hy (some.inj hn)
      rw [if_neg hzero, zero_mul, add_zero]
      cases hp : parent y with
      | none =>
        rw [hop_of_root hp, hop_of_root ((cut_of_ne hy).trans hp), sum_eq_zero]
        · rfl
        · intro m hm
          have hlt := mem_range.mp hm
          obtain ⟨k, hk⟩ : ∃ k, n + 1 - (m + 1) = k + 1 := ⟨n - m - 1, by omega⟩
          rw [hk, hop_of_root hp, if_neg nofun, zero_mul]
      | some q =>
        rw [hop_of_parent hp, hop_of_parent ((cut_of_ne hy).trans hp), ih q]
        refine congrArg _ (sum_congr rfl fun m hm => ?_)
        have hlt := mem_range.mp hm
        rw [show n + 1 - (m + 1) = n - (m + 1) + 1 by omega, hop_of_parent hp]

/-- What a cut takes away: the sums at the node, shifted along the chain above it. -/
theorem hopSum_cut (h : Acyclic parent) (a : α) (n : Nat) (x : α) :
    hopSum nodes parent w n x = hopSum nodes (cut parent a) w n x +
      ∑ m ∈ Finset.range n, if hop parent (m + 1) a = some x then
        hopSum nodes parent w (n - (m + 1)) a else 0 := by
  have hterm : ∀ y, (if hop parent n y = some x then w y else 0) =
      (if hop (cut parent a) n y = some x then w y else 0) +
        ∑ m ∈ range n, if hop parent (m + 1) a = some x then
          (if hop parent (n - (m + 1)) y = some a then w y else 0) else 0 := by
    intro y
    have hpath := congrArg (· * w y) (hop_cut h a n x y)
    simp only [add_mul, sum_mul, ite_mul, one_mul, zero_mul] at hpath
    rw [hpath]
    refine congrArg _ (sum_congr rfl fun m _ => ?_)
    split_ifs <;> rfl
  unfold hopSum
  rw [sum_congr rfl fun y _ => hterm y, sum_add_distrib, sum_comm]
  refine congrArg _ (sum_congr rfl fun m _ => ?_)
  split_ifs
  · rfl
  · exact sum_const_zero

/-- What attaching adds: the sums at the node, shifted along its new chain. -/
theorem hopSum_attach (h : Acyclic (attach parent a p)) (ha : parent a = none) (n : Nat) (x : α) :
    hopSum nodes (attach parent a p) w n x = hopSum nodes parent w n x +
      ∑ m ∈ Finset.range n, if hop (attach parent a p) (m + 1) a = some x then
        hopSum nodes parent w (n - (m + 1)) a else 0 := by
  have hself : ∀ k, hopSum nodes (attach parent a p) w k a = hopSum nodes parent w k a := by
    intro k
    rw [hopSum_cut nodes w h a k a, cut_attach ha, sum_eq_zero, add_zero]
    intro m _
    exact if_neg (h m a)
  rw [hopSum_cut nodes w h a n x, cut_attach ha]
  simp only [hself]

end Sums

end Freezone.Forest
