import Mathlib

/-!
# Drawing from sources in turn

A budget is drawn from the sources of a list in turn, from each what it can give. A
source may occur more than once. If the last draw from a source decides what is left
of it, the earlier draws from it are lost.
-/

namespace Freezone.Draw

open List Option

variable {κ α β : Type}

variable (usable : κ → Int)

/-- What is drawn from each source in turn. -/
def taken : List κ → Int → List (κ × Int)
  | [], _ => []
  | k :: l, budget =>
    (k, min (usable k) budget) :: taken l (budget - min (usable k) budget)

/-- All that is drawn. -/
def total (l : List κ) (budget : Int) : Int := ((taken usable l budget).map Prod.snd).sum

/-- A source that comes again has nothing to give, or the sources before it meet the budget. -/
def Spared (l : List κ) (budget : Int) : Prop :=
  ∀ l₁ k l₂, l = l₁ ++ k :: l₂ → k ∈ l₂ → usable k = 0 ∨ budget ≤ (l₁.map usable).sum

variable {usable} {l : List κ} {budget : Int}

theorem taken_keys : (taken usable l budget).map Prod.fst = l := by
  induction l generalizing budget with
  | nil => rfl
  | cons k l ih => rw [taken, map_cons, ih]

theorem total_cons (k : κ) : total usable (k :: l) budget =
    min (usable k) budget + total usable l (budget - min (usable k) budget) := rfl

/-- The budget is met as far as the sources reach. -/
theorem total_eq_min (hu : ∀ k ∈ l, 0 ≤ usable k) (hb : 0 ≤ budget) :
    total usable l budget = min budget (l.map usable).sum := by
  induction l generalizing budget with
  | nil => exact (min_eq_right hb).symm
  | cons k l ih =>
    have hsum : 0 ≤ (l.map usable).sum := sum_nonneg fun x hx => by
      obtain ⟨q, hq, rfl⟩ := mem_map.mp hx
      exact hu q (mem_cons_of_mem _ hq)
    rw [total_cons, ih (fun q hq => hu q (mem_cons_of_mem _ hq)) (by omega),
      map_cons, sum_cons]
    omega

/-- No source gives more than is usable of it. -/
theorem taken_bounds (hu : ∀ k ∈ l, 0 ≤ usable k) (hb : 0 ≤ budget) {e : κ × Int}
    (he : e ∈ taken usable l budget) : 0 ≤ e.2 ∧ e.2 ≤ usable e.1 := by
  induction l generalizing budget with
  | nil => cases he
  | cons k l ih =>
    have hk := hu k mem_cons_self
    rcases mem_cons.mp he with rfl | he
    · exact ⟨le_min hk hb, min_le_left _ _⟩
    · exact ih (fun q hq => hu q (mem_cons_of_mem _ hq)) (by omega) he

variable {k : κ}

/-- A source that comes again must give nothing before. -/
theorem spared_cons (hu : 0 ≤ usable k) (hul : ∀ q ∈ l, 0 ≤ usable q) (hb : 0 ≤ budget) :
    Spared usable (k :: l) budget ↔ (k ∈ l → min (usable k) budget = 0) ∧
      Spared usable l (budget - min (usable k) budget) := by
  constructor
  · intro h
    refine ⟨fun hk => ?_, fun l1 q l2 heq hq => ?_⟩
    · have := h [] k l rfl hk
      simp only [map_nil, sum_nil] at this
      omega
    · have := h (k :: l1) q l2 (by rw [heq, cons_append]) hq
      rw [map_cons, sum_cons] at this
      have hsum : 0 ≤ (l1.map usable).sum := sum_nonneg fun x hx => by
        obtain ⟨q', hq', rfl⟩ := mem_map.mp hx
        exact hul q' (heq ▸ mem_append_left _ hq')
      omega
  · rintro ⟨hk, h⟩ l1 q l2 heq hq
    cases l1 with
    | nil =>
      obtain ⟨rfl, rfl⟩ := cons.inj heq
      have := hk hq
      simp only [map_nil, sum_nil]
      omega
    | cons k' l1 =>
      obtain ⟨rfl, rfl⟩ := cons.inj heq
      have := h l1 q l2 rfl hq
      rw [map_cons, sum_cons]
      omega

variable [DecidableEq κ]

/-- The last entry under a key. -/
def last : List (κ × α) → κ → Option α
  | [], _ => none
  | e :: l, k => (last l k).or (if e.1 = k then some e.2 else none)

theorem last_isSome {l : List (κ × α)} (h : k ∈ l.map Prod.fst) : (last l k).isSome := by
  induction l with
  | nil => cases h
  | cons e l ih =>
    rw [last, isSome_or, Bool.or_eq_true]
    rcases mem_cons.mp h with rfl | h
    · exact .inr (by rw [if_pos rfl, isSome_some])
    · exact .inl (ih h)

theorem mem_of_last {l : List (κ × α)} {a : α} (h : last l k = some a) : (k, a) ∈ l := by
  induction l with
  | nil => cases h
  | cons e l ih =>
    rw [last, or_eq_some_iff] at h
    rcases h with h | ⟨-, h⟩
    · exact mem_cons_of_mem _ (ih h)
    · split_ifs at h with hk
      obtain rfl := some.inj h
      exact hk ▸ mem_cons_self

theorem last_eq_none {l : List (κ × α)} (h : k ∉ l.map Prod.fst) : last l k = none := by
  induction l with
  | nil => rfl
  | cons e l ih =>
    rw [map_cons, mem_cons, not_or] at h
    rw [last, ih h.2, if_neg (Ne.symm h.1), or_none]

theorem last_map (f : κ → α → β) (l : List (κ × α)) (k : κ) :
    last (l.map fun e => (e.1, f e.1 e.2)) k = (last l k).map (f k) := by
  induction l with
  | nil => rfl
  | cons e l ih =>
    rw [map_cons, last, last, ih]
    cases last l k with
    | some a => rfl
    | none =>
      by_cases he : e.1 = k
      · subst he
        simp
      · simp [he]

/-- What the last draws from the sources come to. -/
def kept (usable : κ → Int) (l : List κ) (budget : Int) : Int :=
  (l.dedup.map fun k => (last (taken usable l budget) k).getD 0).sum

/-- The first draw from a source is lost if the source comes again. -/
theorem kept_cons (k : κ) : kept usable (k :: l) budget =
    (if k ∈ l then 0 else min (usable k) budget) +
      kept usable l (budget - min (usable k) budget) := by
  have hlater : ∀ q ∈ l, last (taken usable (k :: l) budget) q =
      last (taken usable l (budget - min (usable k) budget)) q := by
    intro q hq
    have hmem : q ∈ (taken usable l (budget - min (usable k) budget)).map Prod.fst := by
      rwa [taken_keys]
    obtain ⟨x, hx⟩ := isSome_iff_exists.mp (last_isSome hmem)
    rw [taken, last, hx, some_or]
  have htail : (l.dedup.map fun q => (last (taken usable (k :: l) budget) q).getD 0).sum =
      kept usable l (budget - min (usable k) budget) := by
    refine congrArg sum (map_congr_left fun q hq => ?_)
    rw [hlater q (mem_dedup.mp hq)]
  unfold kept at htail ⊢
  by_cases hk : k ∈ l
  · rw [dedup_cons_of_mem hk, htail, if_pos hk, zero_add]
  · have hnone : last (taken usable l (budget - min (usable k) budget)) k = none :=
      last_eq_none (by rwa [taken_keys])
    rw [dedup_cons_of_notMem hk, map_cons, sum_cons, htail, if_neg hk, taken, last,
      hnone, if_pos rfl, none_or, getD_some]

/-- Nothing is lost exactly if the sources that come again are spared. -/
theorem kept_eq_total_iff (hu : ∀ k ∈ l, 0 ≤ usable k) (hb : 0 ≤ budget) :
    kept usable l budget ≤ total usable l budget ∧
      (kept usable l budget = total usable l budget ↔ Spared usable l budget) := by
  induction l generalizing budget with
  | nil => exact ⟨le_rfl, fun _ l1 k l2 h => absurd h (by simp), fun _ => rfl⟩
  | cons k l ih =>
    have hk := hu k mem_cons_self
    have hul : ∀ q ∈ l, 0 ≤ usable q := fun q hq => hu q (mem_cons_of_mem _ hq)
    obtain ⟨hle, hiff⟩ := ih hul (show 0 ≤ budget - min (usable k) budget by omega)
    rw [kept_cons, total_cons, spared_cons hk hul hb, ← hiff]
    split_ifs with hmem
    · constructor
      · omega
      · simp only [hmem, true_implies]
        omega
    · constructor
      · omega
      · simp only [hmem, false_implies, true_and]
        omega

end Freezone.Draw
