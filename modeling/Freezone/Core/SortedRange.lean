import Mathlib

/-!
# Ranges of a sorted list

An ordered index holds its elements by key. The walk from the lower bound of one
key to the upper bound of another meets the elements between the two, and only
them, whatever else the index holds.
-/

namespace Freezone.SortedRange

variable {α κ ρ : Type}

variable {r : α → α → Prop} {p : α → Bool} {l : List α}

/-- Dropping from a sorted list while a downward closed property holds keeps the rest. -/
theorem dropWhile_eq_filter (hl : l.Pairwise r)
    (hp : ∀ a b, r a b → p b = true → p a = true) : l.dropWhile p = l.filter fun a => !p a := by
  induction l with
  | nil => rfl
  | cons a l ih =>
    rw [List.pairwise_cons] at hl
    by_cases ha : p a = true
    · rw [List.dropWhile_cons_of_pos ha, List.filter_cons_of_neg (by simp [ha]), ih hl.2]
    have hrest : ∀ b ∈ l, (!p b) = true := by
      intro b hb
      rw [Bool.not_eq_true']
      exact Bool.eq_false_iff.mpr fun h => ha (hp a b (hl.1 b hb) h)
    rw [List.dropWhile_cons_of_neg ha, List.filter_cons_of_pos (by simp [ha]),
      List.filter_eq_self.mpr hrest]

/-- Taking from a sorted list while a downward closed property holds takes all that have it. -/
theorem takeWhile_eq_filter (hl : l.Pairwise r)
    (hp : ∀ a b, r a b → p b = true → p a = true) : l.takeWhile p = l.filter p := by
  induction l with
  | nil => rfl
  | cons a l ih =>
    rw [List.pairwise_cons] at hl
    by_cases ha : p a = true
    · rw [List.takeWhile_cons_of_pos ha, List.filter_cons_of_pos ha, ih hl.2]
    · have hrest : ∀ b ∈ l, ¬ p b = true := fun b hb h => ha (hp a b (hl.1 b hb) h)
      rw [List.takeWhile_cons_of_neg ha, List.filter_cons_of_neg ha,
        List.filter_eq_nil_iff.mpr hrest]

/-- The first element of a sorted list that passes a test is least among those that do. -/
theorem find?_least (hr : ∀ a, r a a)
    (hl : l.Pairwise r) {a b : α} (ha : l.find? p = some a) (hb : b ∈ l) (hp : p b = true) :
    r a b := by
  induction l with
  | nil => cases hb
  | cons c l ih =>
    rw [List.pairwise_cons] at hl
    rw [List.find?_cons] at ha
    by_cases hc : p c = true
    · rw [hc, Option.some.injEq] at ha
      subst ha
      rcases List.mem_cons.mp hb with rfl | hb
      · exact hr b
      · exact hl.1 b hb
    · rw [Bool.not_eq_true] at hc
      rw [hc] at ha
      rcases List.mem_cons.mp hb with rfl | hb
      · rw [hp] at hc
        cases hc
      · exact ih hl.2 ha hb

/-- A list sorted by a comparison of ranks is sorted by them. -/
theorem pairwise_insertionSort [LinearOrder ρ] [DecidableRel r] (rank : α → ρ)
    (hr : ∀ a b, r a b ↔ rank a ≤ rank b) (l : List α) :
    (l.insertionSort r).Pairwise fun a b => rank a ≤ rank b := by
  have : Std.Total r := ⟨fun a b => by
    rw [hr, hr]
    exact le_total _ _⟩
  have : IsTrans α r := ⟨fun a b c hab hbc => by
    rw [hr] at hab hbc ⊢
    exact hab.trans hbc⟩
  exact (List.pairwise_insertionSort r l).imp fun h => (hr _ _).mp h

variable (before : κ → κ → Prop) [DecidableRel before] (key : α → κ)

/-- The elements from `lower_bound` of a key to `upper_bound` of another. -/
def range (lo hi : κ) (l : List α) : List α :=
  (l.dropWhile fun a => before (key a) lo).takeWhile fun a => ¬ before hi (key a)

/-- The range of a list that is sorted by the rank of its keys. -/
theorem mem_range [LinearOrder ρ] (rank : κ → ρ) (hrank : ∀ k k', before k k' ↔ rank k < rank k')
    (hl : l.Pairwise fun a b => rank (key a) ≤ rank (key b)) {lo hi : κ} {a : α} :
    a ∈ range before key lo hi l ↔
      a ∈ l ∧ ¬ before (key a) lo ∧ ¬ before hi (key a) := by
  have hdrop := dropWhile_eq_filter (p := fun a => decide (before (key a) lo)) hl
    fun a b hab h => by
    rw [decide_eq_true_eq, hrank] at h ⊢
    exact hab.trans_lt h
  have htake := takeWhile_eq_filter (p := fun a => decide (¬ before hi (key a)))
    (hl.sublist (List.filter_sublist (p := fun a => !decide (before (key a) lo))))
    fun a b hab h => by
      rw [decide_eq_true_eq, hrank, not_lt] at h ⊢
      exact hab.trans h
  rw [range, hdrop, htake, List.mem_filter, List.mem_filter]
  simp only [Bool.not_eq_true', decide_eq_false_iff_not, decide_eq_true_eq, and_assoc]

/-- The lower bound of one key lies behind the upper bound of another. -/
def Overruns (lo hi : κ) (l : List α) : Prop :=
  (l.dropWhile fun a => before (key a) lo).length <
    (l.dropWhile fun a => ¬ before hi (key a)).length

instance (lo hi : κ) (l : List α) : Decidable (Overruns before key lo hi l) :=
  inferInstanceAs (Decidable (_ < _))

/-- The elements that lie strictly between push the two bounds past each other. -/
theorem overruns_iff [LinearOrder ρ] (rank : κ → ρ) (hrank : ∀ k k', before k k' ↔ rank k < rank k')
    (hl : l.Pairwise fun a b => rank (key a) ≤ rank (key b)) (lo hi : κ) :
    Overruns before key lo hi l ↔ ∃ a ∈ l, before (key a) lo ∧ before hi (key a) := by
  have hlo := dropWhile_eq_filter (p := fun a => decide (before (key a) lo)) hl fun a b hab h => by
    rw [decide_eq_true_eq, hrank] at h ⊢
    exact hab.trans_lt h
  have hhi := dropWhile_eq_filter (p := fun a => decide (¬ before hi (key a))) hl
    fun a b hab h => by
      rw [decide_eq_true_eq, hrank, not_lt] at h ⊢
      exact hab.trans h
  rw [Overruns, hlo, hhi, ← List.countP_eq_length_filter, ← List.countP_eq_length_filter]
  constructor
  · intro hlt
    by_contra! hnone
    refine hlt.not_ge (List.countP_mono_left fun a ha habove => ?_)
    simp only [Bool.not_eq_true', decide_eq_false_iff_not, not_not] at habove ⊢
    exact fun hbelow => hnone a ha hbelow habove
  · rintro ⟨a, ha, hbelow, habove⟩
    rw [List.countP_eq_length_filter, List.countP_eq_length_filter]
    have hsub : (l.filter fun a => !decide (before (key a) lo)).Sublist
        (l.filter fun a => !decide (¬ before hi (key a))) := by
      refine List.monotone_filter_right l fun b h => ?_
      rw [hrank] at habove hbelow
      simp only [Bool.not_eq_true', decide_eq_false_iff_not, not_not] at h ⊢
      rw [hrank] at h ⊢
      exact (habove.trans hbelow).trans_le (not_lt.mp h)
    refine hsub.length_le.lt_of_ne fun heq => ?_
    have hmem : a ∈ l.filter fun a => !decide (before (key a) lo) := by
      rw [hsub.eq_of_length heq, List.mem_filter]
      exact ⟨ha, by simpa using habove⟩
    exact absurd hbelow (by simpa using (List.mem_filter.mp hmem).2)

/-- A range takes elements in their order. -/
theorem range_sublist (lo hi : κ) (l : List α) : (range before key lo hi l).Sublist l :=
  (List.takeWhile_sublist _).trans (List.dropWhile_sublist _)

end Freezone.SortedRange
