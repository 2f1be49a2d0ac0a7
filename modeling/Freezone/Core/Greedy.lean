import Mathlib

/-!
# Paying from a budget in order

Each element of a list is paid what it wants, in turn, until one is met that must not
be paid or one wants all that is left of the budget and gets just that.
-/

namespace Freezone.Greedy

open List

variable {α : Type} (stop : α → Prop) [DecidablePred stop] (want : α → Int)

/-- Who is paid, and how much. -/
def fill : List α → Int → List (α × Int)
  | [], _ => []
  | a :: l, budget =>
    if stop a then []
    else (a, min (want a) budget) :: if budget ≤ want a then [] else fill l (budget - want a)

variable {stop want} {l : List α} {budget : Int}

/-- The first of a list is paid if it may be. -/
theorem fill_cons_of_not {a : α} (ha : ¬ stop a) : fill stop want (a :: l) budget =
    (a, min (want a) budget) ::
      if budget ≤ want a then [] else fill stop want l (budget - want a) := by
  rw [fill, if_neg ha]

theorem fill_cons_of_stop {a : α} (ha : stop a) : fill stop want (a :: l) budget = [] := by
  rw [fill, if_pos ha]

/-- Those who are paid come first in the list. -/
theorem fill_take : ∃ rest, l = (fill stop want l budget).map Prod.fst ++ rest ∧
    ((∀ a ∈ rest.head?, stop a) ∨ ((fill stop want l budget).map Prod.snd).sum = budget) := by
  induction l generalizing budget with
  | nil => exact ⟨[], rfl, .inl nofun⟩
  | cons a l ih =>
    by_cases ha : stop a
    · rw [fill_cons_of_stop ha]
      refine ⟨a :: l, rfl, .inl fun b hb => ?_⟩
      rw [head?_cons, Option.mem_some_iff] at hb
      exact hb ▸ ha
    · rw [fill_cons_of_not ha]
      split_ifs with hlast
      · refine ⟨l, rfl, .inr ?_⟩
        rw [map_cons, map_nil, sum_singleton, min_eq_right hlast]
      obtain ⟨rest, hl, hrest⟩ := @ih (budget - want a)
      refine ⟨rest, ?_, hrest.imp_right fun hsum => ?_⟩
      · rw [map_cons, cons_append, ← hl]
      · rw [map_cons, sum_cons, hsum, min_eq_left (not_le.mp hlast).le]
        omega

/-- Those who may be paid. -/
def payable (stop : α → Prop) [DecidablePred stop] (l : List α) : List α :=
  l.takeWhile fun a => ¬ stop a

theorem payable_cons_of_not {a : α} (ha : ¬ stop a) :
    payable stop (a :: l) = a :: payable stop l := by
  rw [payable, takeWhile_cons_of_pos (by simpa using ha), payable]

/-- If nobody may be paid, the first one stops. -/
theorem stop_of_payable_nil (h : payable stop l = []) : ∀ a ∈ l.head?, stop a := by
  intro a ha
  obtain ⟨m, rfl⟩ := head?_eq_some_iff.mp ha
  by_contra hstop
  rw [payable_cons_of_not hstop] at h
  cases h

/-- If nobody may be paid, nobody is. -/
theorem fill_of_payable_nil (h : payable stop l = []) : fill stop want l budget = [] := by
  cases l with
  | nil => rfl
  | cons a l => exact fill_cons_of_stop (stop_of_payable_nil h a rfl)

/-- A negative budget is handed to the first who may be paid. -/
theorem fill_of_neg (hwant : ∀ a, 0 ≤ want a) (hneg : budget < 0) (h : payable stop l ≠ []) :
    ∃ a, fill stop want l budget = [(a, budget)] := by
  cases l with
  | nil => exact absurd rfl h
  | cons a l =>
    by_cases ha : stop a
    · exact absurd (by rw [payable, takeWhile_cons_of_neg (by simpa using ha)]) h
    · have hle : budget ≤ want a := hneg.le.trans (hwant a)
      exact ⟨a, by rw [fill_cons_of_not ha, if_pos hle, min_eq_right hle]⟩

theorem sum_want_nonneg (hwant : ∀ a, 0 ≤ want a) (l : List α) : 0 ≤ (l.map want).sum := by
  refine sum_nonneg fun x hx => ?_
  obtain ⟨a, -, rfl⟩ := mem_map.mp hx
  exact hwant a

/-- Everybody is paid before whom the budget is not used up. -/
theorem fill_reached {pre post : List α} {a : α} (hwant : ∀ a, 0 ≤ want a)
    (h : payable stop l = pre ++ a :: post) (hpre : (pre.map want).sum < budget) :
    ∃ after, fill stop want l budget = pre.map (fun b => (b, want b)) ++
      (a, min (want a) (budget - (pre.map want).sum)) :: after := by
  induction l generalizing budget pre with
  | nil => exact absurd h (by simp [payable])
  | cons b l ih =>
    by_cases hb : stop b
    · rw [payable, takeWhile_cons_of_neg (by simpa using hb)] at h
      exact absurd h (by simp)
    rw [payable_cons_of_not hb] at h
    rw [fill_cons_of_not hb]
    cases pre with
    | nil =>
      rw [nil_append, cons.injEq] at h
      obtain ⟨rfl, -⟩ := h
      exact ⟨_, by rw [map_nil, map_nil, sum_nil, sub_zero, nil_append]⟩
    | cons c pre =>
      rw [cons_append, cons.injEq] at h
      obtain ⟨rfl, h⟩ := h
      rw [map_cons, sum_cons] at hpre
      have hnonneg := sum_want_nonneg hwant pre
      have hrest : (pre.map want).sum < budget - want b := by omega
      obtain ⟨after, hafter⟩ := ih h hrest
      refine ⟨after, ?_⟩
      rw [if_neg (by omega), hafter, min_eq_left (by omega), map_cons, map_cons, sum_cons,
        cons_append, sub_sub]

/-- Who is paid may be, before them each is paid what they want, and they what they want or the
rest. -/
theorem fill_split {pre after : List (α × Int)} {x : α × Int} (hbudget : 0 < budget)
    (h : fill stop want l budget = pre ++ x :: after) : ∃ post,
      payable stop l = pre.map Prod.fst ++ x.1 :: post ∧
      pre.map Prod.snd = (pre.map Prod.fst).map want ∧ ((pre.map Prod.fst).map want).sum < budget ∧
      x.2 = min (want x.1) (budget - ((pre.map Prod.fst).map want).sum) ∧
      (budget - ((pre.map Prod.fst).map want).sum ≤ want x.1 → after = []) := by
  induction l generalizing budget pre with
  | nil => exact absurd h (by simp [fill])
  | cons a l ih =>
    by_cases ha : stop a
    · rw [fill_cons_of_stop ha] at h
      exact absurd h (by simp)
    rw [fill_cons_of_not ha] at h
    rw [payable_cons_of_not ha]
    cases pre with
    | nil =>
      rw [nil_append, cons.injEq] at h
      obtain ⟨rfl, hafter⟩ := h
      refine ⟨payable stop l, rfl, rfl, hbudget, by rw [map_nil, map_nil, sum_nil, sub_zero], ?_⟩
      intro hlast
      rw [map_nil, map_nil, sum_nil, sub_zero] at hlast
      rw [← hafter, if_pos hlast]
    | cons y pre =>
      rw [cons_append, cons.injEq] at h
      obtain ⟨rfl, hrest⟩ := h
      split_ifs at hrest with hlast
      · exact absurd hrest (by simp)
      have hlt := not_le.mp hlast
      obtain ⟨post, hpost, hsnd, hsum, hamount, hend⟩ := ih (by omega) hrest
      refine ⟨post, ?_, ?_, ?_, ?_, ?_⟩
      · rw [hpost, map_cons, cons_append]
      · rw [map_cons, map_cons, map_cons, hsnd, min_eq_left hlt.le]
      · rw [map_cons, map_cons, sum_cons]
        change want a + _ < budget
        omega
      · rw [map_cons, map_cons, sum_cons, ← sub_sub]
        exact hamount
      · rw [map_cons, map_cons, sum_cons, ← sub_sub]
        exact hend

/-- What is paid in all. -/
theorem sum_fill (hwant : ∀ a, 0 ≤ want a) (hbudget : 0 ≤ budget) :
    ((fill stop want l budget).map Prod.snd).sum =
      min budget ((payable stop l).map want).sum := by
  induction l generalizing budget with
  | nil =>
    rw [fill, payable, takeWhile_nil, map_nil, map_nil, sum_nil, min_eq_right hbudget]
  | cons a l ih =>
    by_cases ha : stop a
    · rw [fill_cons_of_stop ha, payable, takeWhile_cons_of_neg (by simpa using ha),
        map_nil, map_nil,
        sum_nil, min_eq_right hbudget]
    rw [fill_cons_of_not ha, payable_cons_of_not ha, map_cons, map_cons, sum_cons, sum_cons]
    have hnonneg := sum_want_nonneg hwant (payable stop l)
    split_ifs with hlast
    · rw [map_nil, sum_nil]
      omega
    · rw [ih (by omega)]
      omega

/-- No more is paid than the budget, and nothing negative. -/
theorem fill_sum (hwant : ∀ a, 0 ≤ want a) (hbudget : 0 ≤ budget) :
    (∀ x ∈ fill stop want l budget, 0 ≤ x.2) ∧
      ((fill stop want l budget).map Prod.snd).sum ≤ budget := by
  induction l generalizing budget with
  | nil => exact ⟨nofun, hbudget⟩
  | cons a l ih =>
    by_cases ha : stop a
    · rw [fill_cons_of_stop ha]
      exact ⟨nofun, hbudget⟩
    rw [fill_cons_of_not ha]
    split_ifs with hlast
    · refine ⟨fun x hx => ?_, ?_⟩
      · rw [mem_singleton.mp hx]
        exact le_min (hwant a) hbudget
      · rw [map_cons, map_nil, sum_singleton]
        exact min_le_right _ _
    · have hlt := not_le.mp hlast
      obtain ⟨hnonneg, hsum⟩ := @ih (budget - want a) (by omega)
      refine ⟨fun x hx => ?_, ?_⟩
      · rcases mem_cons.mp hx with rfl | hx
        · exact le_min (hwant a) hbudget
        · exact hnonneg x hx
      · rw [map_cons, sum_cons, min_eq_left hlt.le]
        omega

end Freezone.Greedy
