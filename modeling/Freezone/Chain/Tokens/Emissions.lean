import Freezone.Chain.Tokens.Model

/-!
# The amounts of an emission

An emission intends a number of new tokens, which is computed from its two endpoints
and from the supply, and hands it out by the weights of its targets. Over unbounded
numbers the floors lose less than one token for each target. In 64 bits the relative
amount is narrowed and the new supply is added up before the maximal supply caps it,
and an intention below the sum of the weights is not handed out at all.
-/

namespace Freezone.Chain.Tokens

open List

/-- Each of the parts by weight, rounded down, is less than one short. -/
theorem unitSum_parts (unit : List (UnitTarget × Nat)) (n : Int) {total : Int}
    (htotal : 0 < total) :
    total * (unit.map fun x => x.2 * n / total).sum ≤ unitSum unit * n ∧
      unitSum unit * n ≤
        total * (unit.map fun x => x.2 * n / total).sum + (total - 1) * unit.length := by
  induction unit with
  | nil => simp [unitSum]
  | cons x l ih =>
    have hdiv := Int.mul_ediv_add_emod (x.2 * n) total
    have hnonneg := Int.emod_nonneg (x.2 * n) htotal.ne'
    have hlt := Int.emod_lt_of_pos (x.2 * n) htotal
    simp only [unitSum, map_cons, sum_cons, length_cons, Nat.cast_add, mul_add,
      add_mul, Nat.cast_one] at ih ⊢
    constructor <;> linarith [ih.1, ih.2]

namespace Emission

variable (e : Emission) (t : Token) (time : Nat) {lep rep b : Int}

/-- A value given at the two endpoints of an emission, at a time. -/
def between (lep rep : Int) : Int :=
  if time ≤ e.lepTime then lep
  else if e.repTime ≤ time then rep
  else (lep * (time - e.lepTime : Nat) + rep * (e.repTime - time : Nat)) /
    (e.repTime - e.lepTime : Nat)

/-- The tokens relative to the supply. -/
def relAmount : Int :=
  t.currentSupply * e.between time e.lepRelAmountNumerator e.repRelAmountNumerator /
    2 ^ e.relAmountDenomBits

/-- The tokens asked for, whatever the maximal supply is. -/
def amount : Int :=
  if e.floorEmissions then min (e.between time e.lepAbsAmount e.repAbsAmount) (e.relAmount t time)
  else max (e.between time e.lepAbsAmount e.repAbsAmount) (e.relAmount t time)

/-- The tokens that an emission is meant to create. -/
def intended : Int := min (e.amount t time) (t.maxSupply - t.currentSupply)

/-- Between two nonnegative bounds the amount is not negative. -/
theorem between_nonneg (hlep : 0 ≤ lep) (hrep : 0 ≤ rep) : 0 ≤ e.between time lep rep := by
  unfold between
  split_ifs
  · exact hlep
  · exact hrep
  · positivity

/-- The amount stays below what both ends stay below. -/
theorem between_lt (hlep : lep < b) (hrep : rep < b) : e.between time lep rep < b := by
  unfold between
  split_ifs with h h'
  · exact hlep
  · exact hrep
  apply Int.ediv_lt_of_lt_mul (by omega)
  have hsplit : ((e.repTime - e.lepTime : Nat) : Int) =
      (time - e.lepTime : Nat) + (e.repTime - time : Nat) := by omega
  have hl : 0 < ((time - e.lepTime : Nat) : Int) := by omega
  have hr : 0 < ((e.repTime - time : Nat) : Int) := by omega
  rw [hsplit, mul_add]
  exact add_lt_add (mul_lt_mul_of_pos_right hlep hl) (mul_lt_mul_of_pos_right hrep hr)

/-- The conversion of an interpolated amount never throws. -/
theorem amountsAt_eq (hlep : e.lepAbsAmount < 2 ^ 63) (hrep : e.repAbsAmount < 2 ^ 63) :
    ∃ n : Nat, e.amountsAt time = .ok (e.between time e.lepAbsAmount e.repAbsAmount, n) ∧
      (n : Int) = e.between time e.lepRelAmountNumerator e.repRelAmountNumerator := by
  have hlt := e.between_lt time hlep hrep
  unfold amountsAt between at *
  split_ifs at * with h h'
  · exact ⟨_, rfl, rfl⟩
  · exact ⟨_, rfl, rfl⟩
  · exact ⟨_, Checked.bind_eq_ok.2 ⟨(), ensure_eq_ok.2 hlt, rfl⟩, by push_cast; rfl⟩

/-- An emission is not negative. -/
theorem amount_nonneg (hcurrent : 0 ≤ t.currentSupply) : 0 ≤ e.amount t time := by
  have habs := e.between_nonneg time e.lep_nonneg e.rep_nonneg
  have hrel : 0 ≤ e.relAmount t time :=
    Int.ediv_nonneg (mul_nonneg hcurrent (e.between_nonneg time (by simp) (by simp)))
        (by positivity)
  unfold amount
  split_ifs <;> omega

/-- When the supply after an emission can be computed. -/
theorem newTokenSupply_eq_ok {n : Int} (hlep : e.lepAbsAmount < 2 ^ 63)
    (hrep : e.repAbsAmount < 2 ^ 63) (hcurrent : 0 ≤ t.currentSupply) :
    e.newTokenSupply t time = .ok n ↔
      e.relAmount t time < 2 ^ 63 ∧ t.currentSupply + e.amount t time < 2 ^ 63 ∧
        e.intended t time = n := by
  obtain ⟨m, hamounts, hm⟩ := e.amountsAt_eq time hlep hrep
  have hnonneg := e.amount_nonneg t time hcurrent
  have hcap : (if t.maxSupply < t.currentSupply + e.amount t time
      then t.maxSupply - t.currentSupply else e.amount t time) = e.intended t time := by
    unfold intended
    split_ifs <;> omega
  simp only [newTokenSupply, returns, hamounts, exists_eq_left', hm, exists_const, Safe.add_eq_ok,
    Safe.InRange]
  rw [← relAmount, ← amount]
  constructor
  · rintro ⟨hrel, _, ⟨hrange, rfl⟩, rfl⟩
    exact ⟨hrel, hrange.2, hcap.symm⟩
  · rintro ⟨hrel, hsum, rfl⟩
    exact ⟨hrel, _, ⟨⟨by omega, hsum⟩, rfl⟩, hcap⟩

theorem length_le_unitSum : e.emissionsUnit.length ≤ unitSum e.emissionsUnit := by
  rw [unitSum, ← length_map Prod.snd]
  apply length_le_sum_of_one_le
  simp only [mem_map, forall_exists_index, and_imp, forall_apply_eq_imp_iff₂]
  intro x hx
  exact (e.unit_valid x hx).2.1

/-- The parts by weight of tokens that the weights do not exceed. -/
theorem le_sum_parts {unit : List (UnitTarget × Nat)} {total n : Int} (htotal : 0 < total) :
    unitSum unit * (n / total) ≤ (unit.map fun x => x.2 * n / total).sum := by
  induction unit with
  | nil => simp [unitSum]
  | cons x l ih =>
    have hpart : x.2 * (n / total) ≤ x.2 * n / total := by
      rw [Int.le_ediv_iff_mul_le htotal, mul_assoc]
      exact mul_le_mul_of_nonneg_left (Int.ediv_mul_le n htotal.ne') (by simp)
    simp only [unitSum, map_cons, sum_cons, Nat.cast_add, add_mul] at ih ⊢
    linarith

/-- With a sum of weights that has wrapped, more is handed out than intended. -/
theorem lt_sum_parts_of_wrapped {unit : List (UnitTarget × Nat)} {n : Int}
    (hwrap : 2 ^ 32 ≤ unitSum unit) (hpos : 0 < unitSum unit % 2 ^ 32)
    (hle : (unitSum unit % 2 ^ 32 : Nat) ≤ n) :
    n < (unit.map fun x => x.2 * n / (unitSum unit % 2 ^ 32 : Nat)).sum := by
  have hlt := Nat.mod_lt (unitSum unit) (show 0 < 2 ^ 32 by decide)
  have htwice : 2 * (unitSum unit % 2 ^ 32) < unitSum unit := by omega
  generalize unitSum unit % 2 ^ 32 = total at *
  have htotal : (0 : Int) < total := by omega
  refine lt_of_lt_of_le ?_ (le_sum_parts htotal)
  have hq : 1 ≤ n / (total : Int) := (Int.le_ediv_iff_mul_le htotal).mpr (by omega)
  calc n < total * (n / total) + total := Int.lt_mul_ediv_self_add htotal
    _ ≤ total * (n / total) + total * (n / total) := by nlinarith
    _ = 2 * total * (n / total) := by ring
    _ ≤ unitSum unit * (n / total) := mul_le_mul_of_nonneg_right (by omega) (by omega)

/-- An emission is generated without an exception, and hands out what it intends, no more and less
by at most one token for each target, if and only if the relative amount and the new supply fit
into 64 bits, and the intention covers the weights and these fit into 32 bits, or it is small
enough to be lost. -/
theorem generateEmissions_fair_iff (hlep : e.lepAbsAmount < 2 ^ 63)
    (hrep : e.repAbsAmount < 2 ^ 63) (hcurrent : 0 ≤ t.currentSupply)
    (hsupply : t.currentSupply ≤ t.maxSupply) :
    (∃ l, e.generateEmissions t time = .ok l ∧ (∀ x ∈ l, 0 ≤ x.2) ∧
      (l.map Prod.snd).sum ≤ e.intended t time ∧
      (l.map Prod.snd).sum ≤ t.maxSupply - t.currentSupply ∧
      e.intended t time - e.emissionsUnit.length < (l.map Prod.snd).sum) ↔
    e.relAmount t time < 2 ^ 63 ∧ t.currentSupply + e.amount t time < 2 ^ 63 ∧
      (unitSum e.emissionsUnit < 2 ^ 32 ∧ unitSum e.emissionsUnit ≤ e.intended t time ∨
        e.intended t time < e.emissionsUnit.length ∧ e.intended t time < e.tokenUnitSum) := by
  have hlength := e.length_le_unitSum
  have hpos := length_pos_of_ne_nil e.unit_ne_nil
  have hintended : 0 ≤ e.intended t time := le_min (e.amount_nonneg t time hcurrent) (by omega)
  have hleft : e.intended t time ≤ t.maxSupply - t.currentSupply := min_le_right _ _
  simp only [generateEmissions, returns, e.newTokenSupply_eq_ok t time hlep hrep hcurrent]
  constructor
  · rintro ⟨l, ⟨n, ⟨hrel, hsum, rfl⟩, hl⟩, -, hover, -, hlow⟩
    refine ⟨hrel, hsum, ?_⟩
    by_cases hunit : e.tokenUnitSum ≤ e.intended t time
    · rw [if_pos hunit] at hl
      simp only [returns] at hl
      obtain ⟨-, hne, -, -, rfl⟩ := hl
      rw [map_map] at hover
      have hfits : unitSum e.emissionsUnit < 2 ^ 32 := by
        by_contra hwrap
        exact (lt_sum_parts_of_wrapped (not_lt.mp hwrap)
          (Nat.pos_of_ne_zero hne) hunit).not_ge hover
      rw [tokenUnitSum, Nat.mod_eq_of_lt hfits] at hunit
      exact .inl ⟨hfits, hunit⟩
    · rw [if_neg hunit] at hl
      cases hl
      exact .inr ⟨by simpa using hlow, not_le.mp hunit⟩
  · rintro ⟨hrel, hsum, ⟨hfits, hle⟩ | ⟨hfew, hlt⟩⟩
    · have htotal : (0 : Int) < unitSum e.emissionsUnit := by omega
      have hunit : e.tokenUnitSum = unitSum e.emissionsUnit := Nat.mod_eq_of_lt hfits
      obtain ⟨hupper, hlower⟩ := unitSum_parts e.emissionsUnit (e.intended t time) htotal
      have hover := le_of_mul_le_mul_left hupper htotal
      have hnonneg : ∀ y ∈ e.emissionsUnit.map fun x =>
          x.2 * e.intended t time / (unitSum e.emissionsUnit : Int), 0 ≤ y := by
        simp only [mem_map, forall_exists_index, and_imp, forall_apply_eq_imp_iff₂]
        intro x _
        positivity
      have hamount : e.intended t time ≤ e.amount t time := min_le_left _ _
      rw [hunit]
      refine ⟨e.emissionsUnit.map fun x =>
        (x.1, x.2 * e.intended t time / unitSum e.emissionsUnit), ⟨_, ⟨hrel, hsum, rfl⟩, ?_⟩,
        ?_, ?_, ?_, ?_⟩
      · rw [if_pos hle]
        simp only [returns]
        refine ⟨(), by omega, (), fun y hy => ?_, trivial⟩
        obtain ⟨x, hx, rfl⟩ := mem_map.mp hy
        have hpart := single_le_sum hnonneg _ (mem_map_of_mem hx)
        dsimp only at hpart ⊢
        omega
      · intro y hy
        obtain ⟨x, hx, rfl⟩ := mem_map.mp hy
        exact hnonneg _ (mem_map_of_mem hx)
      · rw [map_map]
        exact hover
      · rw [map_map]
        exact hover.trans hleft
      · rw [map_map]
        refine lt_of_mul_lt_mul_left ?_ htotal.le
        change _ < _ * (e.emissionsUnit.map fun x => x.2 * e.intended t time / _).sum
        linarith
    · refine ⟨_, ⟨_, ⟨hrel, hsum, rfl⟩, if_neg (not_le.mpr hlt)⟩, by simp, ?_, ?_, ?_⟩
      · simpa using hintended
      · simpa using hsupply
      · simpa using hfew

/-- A single emission of an absolute amount. -/
def single (amount : Int) (hamount : 0 < amount) : Emission where
  symbol := 1
  scheduleTime := 100
  emissionsUnit := [(.rewards, 2), (.vesting, 1)]
  intervalSeconds := emissionMinIntervalSeconds
  emissionCount := 1
  lepTime := 100
  repTime := 100
  lepAbsAmount := amount
  repAbsAmount := amount
  lepRelAmountNumerator := 0
  repRelAmountNumerator := 0
  relAmountDenomBits := 0
  floorEmissions := false
  unit_ne_nil := by simp
  unit_valid := by decide
  interval_ge := le_rfl
  count_pos := by decide
  lep_le_rep := le_rfl
  modulated := fun h => absurd rfl h
  lep_nonneg := hamount.le
  rep_nonneg := hamount.le
  positive := .inl hamount

theorem generateEmissions_fair_single : ∃ l, (single 10 (by decide)).generateEmissions
        { controlAccount := 0, currentSupply := 1, maxSupply := 8 } 100 = .ok l ∧
      (∀ x ∈ l, 0 ≤ x.2) ∧ (l.map Prod.snd).sum ≤ (single 10 (by decide)).intended
        { controlAccount := 0, currentSupply := 1, maxSupply := 8 } 100 ∧
      (l.map Prod.snd).sum ≤ 8 - 1 ∧ (single 10 (by decide)).intended
        { controlAccount := 0, currentSupply := 1, maxSupply := 8 } 100 - 2 <
        (l.map Prod.snd).sum :=
  (generateEmissions_fair_iff (single 10 (by decide))
    { controlAccount := 0, currentSupply := 1, maxSupply := 8 } 100 (by decide) (by decide)
    (by decide) (by decide)).2 (by decide)

/-- The supply would be capped to what is left, but the sum is made first. -/
theorem generateEmissions_overflow : ¬ ∃ l, (single (2 ^ 63 - 1) (by decide)).generateEmissions
    { controlAccount := 0, currentSupply := 1, maxSupply := 8 } 100 = .ok l := by
  rintro ⟨l, h⟩
  have hthrows : (single (2 ^ 63 - 1) (by decide)).generateEmissions
    { controlAccount := 0, currentSupply := 1, maxSupply := 8 } 100 = .error "overflow" := by decide
  cases hthrows.symm.trans h

/-! ### The course between the endpoints -/

/-- The line from the left endpoint to the right one, rounded down, which is constant outside. -/
def Interpolates (lep rep : Int) (f : Nat → Int) : Prop :=
  (∀ t, f t = lep + (rep - lep) * (min t e.repTime - e.lepTime : Nat) /
    (e.repTime - e.lepTime : Nat)) ∧
  f e.lepTime = lep ∧ f e.repTime = rep ∧ (lep ≤ rep → Monotone f) ∧ (rep ≤ lep → Antitone f)

/-- The endpoints whose weights can be swapped without a difference. -/
def Swappable (lep rep : Int) : Prop :=
  (e.lepTime = e.repTime → lep = rep) ∧
    (e.repTime ≤ e.lepTime + 2 ∨ lep ≤ rep + 1 ∧ rep ≤ lep + 1)

variable {e time}

/-- The distance to the right endpoint stands where that to the left one belongs. -/
theorem between_inside (hl : e.lepTime < time) (hr : time < e.repTime) : e.between time lep rep =
      lep + (rep - lep) * (e.repTime - time : Nat) / (e.repTime - e.lepTime : Nat) := by
  have hsplit : ((time - e.lepTime : Nat) : Int) =
      (e.repTime - e.lepTime : Nat) - (e.repTime - time : Nat) := by omega
  rw [between, if_neg (by omega), if_neg (by omega), hsplit, ← Int.mul_add_ediv_left _ _ (by omega)]
  congr 1
  ring

/-- A part of a step of one is lost, downwards. -/
theorem ediv_of_step {d l total : Int} (hd : -1 ≤ d ∧ d ≤ 1) (hl : 0 < l) (htotal : l < total) :
    d * l / total = min d 0 := by
  obtain rfl | rfl | rfl : d = -1 ∨ d = 0 ∨ d = 1 := by omega
  · apply le_antisymm
    · exact Int.lt_add_one_iff.1 (Int.ediv_lt_of_lt_mul (by omega) (by simpa using hl))
    · exact Int.le_ediv_of_mul_le (by omega) (by simp; omega)
  · simp
  · simpa using Int.ediv_eq_zero_of_lt hl.le htotal

/-- Just after the left endpoint the two weights agree on small steps only. -/
theorem step_of_ediv {d k : Int} (hk : 3 ≤ k) (h : d * (k - 1) / k = d / k) : -1 ≤ d ∧ d ≤ 1 := by
  rw [show d * (k - 1) = k * d + -d by ring, Int.mul_add_ediv_left _ _ (by omega)] at h
  have hlow := Int.mul_ediv_self_le (x := d) (k := k) (by omega)
  have hhigh := Int.lt_mul_ediv_self_add (x := d) (k := k) (by omega)
  have hlow' := Int.mul_ediv_self_le (x := -d) (k := k) (by omega)
  have hhigh' := Int.lt_mul_ediv_self_add (x := -d) (k := k) (by omega)
  generalize d / k = q at *
  generalize -d / k = p at *
  obtain hsum | hsum : q + p = 0 ∨ q + p = -1 := by
    have : -2 < q + p := by nlinarith
    have : q + p < 1 := by nlinarith
    omega
  · have : q ≤ 0 := by nlinarith
    have : 0 ≤ q := by nlinarith
    omega
  · have : q ≤ 0 := by nlinarith
    have : -1 ≤ q := by nlinarith
    omega

section

variable (htimes : e.lepTime = e.repTime → lep = rep)
include htimes

/-- The line reaches its right end. -/
theorem line_right : lep + (rep - lep) * (e.repTime - e.lepTime : Nat) /
    (e.repTime - e.lepTime : Nat) = rep := by
  obtain heq | hlt := e.lep_le_rep.eq_or_lt
  · simp [heq, htimes heq]
  · rw [Int.mul_ediv_cancel _ (by omega), add_sub_cancel]

theorem interpolates_of_eq {f : Nat → Int} (h : ∀ t, f t = lep + (rep - lep) *
    (min t e.repTime - e.lepTime : Nat) / (e.repTime - e.lepTime : Nat)) :
    e.Interpolates lep rep f := by
  have hclamp {t t'} (ht : t ≤ t') : ((min t e.repTime - e.lepTime : Nat) : Int) ≤
      (min t' e.repTime - e.lepTime : Nat) := by omega
  refine ⟨h, by simp [h, e.lep_le_rep], ?_, fun hrep t t' ht => ?_, fun hlep t t' ht => ?_⟩
  · rw [h, min_self, line_right htimes]
  all_goals
    rw [h, h]
    refine Int.add_le_add_left ?_ _
    obtain heq | hlt := e.lep_le_rep.eq_or_lt
    · simp [heq]
    refine Int.ediv_le_ediv (by omega) ?_
  · exact mul_le_mul_of_nonneg_left (hclamp ht) (by omega)
  · exact mul_le_mul_of_nonpos_left (hclamp ht) (by omega)

end

/-- The amount interpolates if the ends may be swapped. -/
theorem between_interpolates_iff :
    e.Interpolates lep rep (e.between · lep rep) ↔ e.Swappable lep rep := by
  constructor
  · rintro ⟨heq, -, hright, -, -⟩
    refine ⟨fun htimes => by simpa [between, htimes] using hright, ?_⟩
    by_contra! hfar
    have hstep := (between_inside (by omega) (by omega)).symm.trans (heq (e.lepTime + 1))
    rw [min_eq_left (by omega), Int.add_right_inj, Nat.add_sub_cancel_left, Nat.cast_one, mul_one,
      show ((e.repTime - (e.lepTime + 1) : Nat) : Int) = (e.repTime - e.lepTime : Nat) - 1
        by omega] at hstep
    have hsmall := step_of_ediv (by omega) hstep
    omega
  · rintro ⟨htimes, hsteps⟩
    refine interpolates_of_eq htimes fun t => ?_
    obtain hl | hl := le_or_gt t e.lepTime
    · simp [between, hl, Nat.sub_eq_zero_of_le ((min_le_left t e.repTime).trans hl)]
    obtain hr | hr := le_or_gt e.repTime t
    · rw [between, if_neg hl.not_ge, if_pos hr, min_eq_right hr, line_right htimes]
    rw [between_inside hl hr, min_eq_left hr.le]
    obtain htwo | hone := hsteps
    · rw [show e.repTime - t = t - e.lepTime by omega]
    · rw [ediv_of_step (by omega) (by omega) (by omega),
        ediv_of_step (by omega) (by omega) (by omega)]

/-- The amounts of an emission follow the line between its endpoints if and only if the weights,
which the code swaps, make no difference. -/
theorem amountsAt_interpolates_iff (hlep : e.lepAbsAmount < 2 ^ 63)
    (hrep : e.repAbsAmount < 2 ^ 63) :
    (∃ (abs : Nat → Int) (rel : Nat → Nat), (∀ t, e.amountsAt t = .ok (abs t, rel t)) ∧
      e.Interpolates e.lepAbsAmount e.repAbsAmount abs ∧
      e.Interpolates e.lepRelAmountNumerator e.repRelAmountNumerator fun t => rel t) ↔
    e.Swappable e.lepAbsAmount e.repAbsAmount ∧
      e.Swappable e.lepRelAmountNumerator e.repRelAmountNumerator := by
  choose n hamounts hn using fun t => e.amountsAt_eq t hlep hrep
  rw [← between_interpolates_iff, ← between_interpolates_iff]
  simp only [← hn]
  constructor
  · rintro ⟨abs, rel, hok, habs, hrel⟩
    obtain ⟨rfl, rfl⟩ : abs = (e.between · e.lepAbsAmount e.repAbsAmount) ∧ rel = n := by
      simpa [funext_iff, forall_and, hamounts, eq_comm] using hok
    exact ⟨habs, hrel⟩
  · rintro ⟨habs, hrel⟩
    exact ⟨_, n, hamounts, habs, hrel⟩

/-- From 10 to 20 tokens in two seconds, with 15 tokens in between. -/
theorem amountsAt_interpolates_twoSeconds : ∃ e : Emission, e.lepTime = 100 ∧ e.repTime = 102 ∧
    e.lepAbsAmount = 10 ∧ e.repAbsAmount = 20 ∧ e.amountsAt 101 = .ok (15, 0) ∧
    ∃ (abs : Nat → Int) (rel : Nat → Nat), (∀ t, e.amountsAt t = .ok (abs t, rel t)) ∧
      e.Interpolates 10 20 abs ∧ e.Interpolates 0 0 fun t => rel t := by
  refine ⟨{ single 10 (by decide) with
      emissionCount := 2
      repTime := 102
      repAbsAmount := 20
      count_pos := by decide
      lep_le_rep := by decide
      modulated := by decide
      rep_nonneg := by decide
      positive := by decide }, rfl, rfl, rfl, rfl, by decide, ?_⟩
  apply (amountsAt_interpolates_iff (by decide) (by decide)).2
  unfold Swappable
  decide

/-- From 10 to 13 tokens in three seconds, the emission jumps to 12 and then falls. -/
theorem amountsAt_falls : ∃ e : Emission, e.lepTime = 100 ∧ e.repTime = 103 ∧
    e.lepAbsAmount = 10 ∧ e.repAbsAmount = 13 ∧
    e.amountsAt 101 = .ok (12, 0) ∧ e.amountsAt 102 = .ok (11, 0) :=
  ⟨{ single 10 (by decide) with
      emissionCount := 2
      repTime := 103
      repAbsAmount := 13
      count_pos := by decide
      lep_le_rep := by decide
      modulated := by decide
      rep_nonneg := by decide
      positive := by decide }, by decide⟩

end Emission

end Freezone.Chain.Tokens
