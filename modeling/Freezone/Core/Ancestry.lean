import Mathlib

/-!
# Ancestors along parent links

A partial function `parent` links each node of a set to at most one other node of
the set, one level below. A node then has at most one ancestor on each level, and
two ancestors of one node are comparable. Branches are lists of successive links.
-/

namespace Freezone.Ancestry

open List

variable {α : Type}

/-- `y` is `a` or is reached from `a` along links. -/
def Above (parent : α → Option α) (a y : α) : Prop :=
  Relation.ReflTransGen (fun c p => parent c = some p) a y

/-- A list of successive links that starts at `a`. -/
structure IsBranch (parent : α → Option α) (a : α) (l : List α) : Prop where
  head : l.head? = some a
  linked : l.IsChain fun c p => parent c = some p

/-- Links stay inside `s` and lead one level down. -/
structure Graded (s : Set α) (parent : α → Option α) (level : α → Nat) : Prop where
  closed : ∀ {a p : α}, a ∈ s → parent a = some p → p ∈ s
  step : ∀ {a p : α}, a ∈ s → parent a = some p → level a = level p + 1

variable {parent : α → Option α} {level : α → Nat} {s : Set α} {a p x y : α}

theorem Above.refl (a : α) : Above parent a a := Relation.ReflTransGen.refl

theorem Above.of_parent (h : parent a = some p) (hp : Above parent p y) : Above parent a y :=
  Relation.ReflTransGen.head h hp

/-- An ancestor is the node itself or an ancestor of its parent. -/
theorem Above.cases_parent (h : Above parent a y) :
    y = a ∨ ∃ p, parent a = some p ∧ Above parent p y := by
  rcases Relation.ReflTransGen.cases_head h with rfl | ⟨p, hp, h'⟩
  · exact .inl rfl
  · exact .inr ⟨p, hp, h'⟩

variable {l : List α}

/-- Every member of a branch is an ancestor of its first node. -/
theorem IsBranch.above (h : IsBranch parent a l) (hx : x ∈ l) : Above parent a x := by
  induction l generalizing a with
  | nil => cases hx
  | cons b l ih =>
    obtain rfl : b = a := by simpa using h.head
    rcases mem_cons.mp hx with rfl | hxl
    · exact Above.refl x
    cases l with
    | nil => cases hxl
    | cons c l =>
      have hlink := h.linked
      rw [isChain_cons_cons] at hlink
      exact Above.of_parent hlink.1 (ih ⟨rfl, hlink.2⟩ hxl)

/-- A branch that ends without a parent has every ancestor of its first node. -/
theorem IsBranch.mem_of_above (h : IsBranch parent a l)
    (hend : ∀ y ∈ l.getLast?, parent y = none) (hx : Above parent a x) : x ∈ l := by
  induction l generalizing a with
  | nil => cases h.head
  | cons b l ih =>
    obtain rfl : b = a := by simpa using h.head
    rcases hx.cases_parent with rfl | ⟨p, hp, hpx⟩
    · exact mem_cons_self
    cases l with
    | nil =>
      rw [hend b rfl] at hp
      cases hp
    | cons c l =>
      have hlink := h.linked
      rw [isChain_cons_cons, hp] at hlink
      obtain rfl : p = c := by simpa using hlink.1
      exact mem_cons_of_mem _ (ih ⟨rfl, hlink.2⟩ (by simpa using hend) hpx)

/-- A branch from the parent extends to a branch from the node. -/
theorem IsBranch.cons (hp : parent a = some p) (h : IsBranch parent p l) :
    IsBranch parent a (a :: l) where
  head := rfl
  linked := by
    refine h.linked.cons ?_
    intro y hy
    rw [h.head] at hy
    obtain rfl : p = y := by simpa using hy
    exact hp

theorem IsBranch.singleton (a : α) : IsBranch parent a [a] where
  head := rfl
  linked := isChain_singleton a

/-- Two branches of which the first ends where the second starts. -/
theorem IsBranch.append {m : List α} (hl : IsBranch parent a (l ++ [x]))
    (hm : IsBranch parent x m) : IsBranch parent a (l ++ m) := by
  obtain ⟨t, rfl⟩ : ∃ t, m = x :: t := by
    cases m with
    | nil => cases hm.head
    | cons b t =>
      obtain rfl : b = x := by simpa using hm.head
      exact ⟨t, rfl⟩
  constructor
  · have h := hl.head
    cases l <;> simpa using h
  · have h := hl.linked
    rw [show l ++ x :: t = l ++ [x] ++ t by simp]
    exact h.append_overlap hm.linked (by simp)

/-- Of two branches from one node the shorter one is the start of the longer one. -/
theorem IsBranch.eq_take {m : List α} (hl : IsBranch parent a l) (hm : IsBranch parent a m)
    (hle : l.length ≤ m.length) : l = m.take l.length := by
  induction l generalizing a m with
  | nil => rfl
  | cons b l ih =>
    obtain rfl : b = a := by simpa using hl.head
    cases m with
    | nil => cases hm.head
    | cons c m =>
      obtain rfl : c = b := by simpa using hm.head
      congr 1
      cases l with
      | nil => rfl
      | cons d l =>
        cases m with
        | nil => simp at hle
        | cons e m =>
          have hd := hl.linked
          have he := hm.linked
          rw [isChain_cons_cons] at hd he
          obtain rfl : d = e := by simpa using hd.1.symm.trans he.1
          exact ih ⟨rfl, hd.2⟩ ⟨rfl, he.2⟩ (by simpa using hle)

namespace Graded

theorem mem (hg : Graded s parent level) (ha : a ∈ s) (h : Above parent a y) : y ∈ s := by
  induction h with
  | refl => exact ha
  | tail _ hp ih => exact hg.closed ih hp

theorem level_le (hg : Graded s parent level) (ha : a ∈ s) (h : Above parent a y) :
    level y ≤ level a := by
  induction h with
  | refl => exact le_rfl
  | tail hy hp ih =>
    have hstep := hg.step (hg.mem ha hy) hp
    omega

/-- Levels count down along a branch. -/
theorem level_add (hg : Graded s parent level) (ha : a ∈ s)
    (hl : IsBranch parent a l) {i : Nat} (hi : l[i]? = some x) : level x + i = level a := by
  induction i generalizing a l with
  | zero =>
    have hx : x = a := by
      rw [← head?_eq_getElem?, hl.head] at hi
      simpa using hi.symm
    rw [hx]
    rfl
  | succ i ih =>
    cases l with
    | nil => cases hi
    | cons b l =>
      obtain rfl : b = a := by simpa using hl.head
      cases l with
      | nil => simp at hi
      | cons c l =>
        have hlink := hl.linked
        rw [isChain_cons_cons] at hlink
        have hstep := hg.step ha hlink.1
        have hrest := ih (hg.closed ha hlink.1) ⟨rfl, hlink.2⟩ (by simpa using hi)
        omega

/-- The lower of two ancestors is an ancestor of the higher one. -/
theorem above_of_level_le (hg : Graded s parent level) (ha : a ∈ s) (hy : Above parent a y)
    (hz : Above parent a z) (hle : level z ≤ level y) : Above parent y z := by
  induction hy using Relation.ReflTransGen.head_induction_on with
  | refl => exact hz
  | @head c p hp hpy ih =>
    rcases hz.cases_parent with rfl | ⟨q, hq, hqz⟩
    · have hstep := hg.step ha hp
      have hlow := hg.level_le (hg.closed ha hp) hpy
      omega
    · rw [hp] at hq
      obtain rfl : p = q := by simpa using hq
      exact ih (hg.closed ha hp) hqz

/-- An ancestor on the level of the node is the node. -/
theorem eq_self_of_level_eq (hg : Graded s parent level) (ha : a ∈ s) (hy : Above parent a y)
    (heq : level y = level a) : y = a := by
  rcases hy.cases_parent with rfl | ⟨p, hp, hpy⟩
  · rfl
  · have hstep := hg.step ha hp
    have hlow := hg.level_le (hg.closed ha hp) hpy
    omega

end Graded

end Freezone.Ancestry
