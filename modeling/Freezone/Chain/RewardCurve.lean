import Freezone.Core.Checked

/-!
# Reward curves

`evaluate_reward_curve` turns the rshares of a comment or of a vote into a claim or a
weight. It computes in 128 bits, which wrap around, and divides where a curve is a
quotient. The constant of a curve comes from the parameters of a token, which are
checked for their curves only.
-/

namespace Freezone.Chain

/-- `curve_id`. -/
inductive CurveId
  | quadratic
  | bounded
  | linear
  | squareRoot
  | convergentLinear
  | convergentSquareRoot
  deriving DecidableEq

/-- `approx_sqrt`. -/
def approxSqrt (x : Nat) : Nat :=
  if x = 0 then 0
  else
    let msbX := x.log2
    let msbZ := msbX >>> 1
    let mantissaX := x &&& (2 ^ msbX - 1)
    let mantissaZHi := if msbX % 2 = 1 then 2 ^ msbZ else 0
    let mantissaZLo := mantissaX >>> (msbX - msbZ)
    2 ^ msbZ ||| (mantissaZHi ||| mantissaZLo) >>> 1

/-- A sum or product of 128-bit numbers. -/
def wrap128 (x : Nat) : Nat := x % 2 ^ 128

/-- A quotient of 128-bit numbers. -/
def divide128 (a b : Nat) : Except String Nat := do
  ensure (b ≠ 0) "Division by zero."
  .ok (a / b)

/-- `(rshares + s) * (rshares + s) - s * s` in 128 bits. -/
def squareGain (rshares s : Nat) : Nat :=
  let sum := wrap128 (rshares + s)
  wrap128 (wrap128 (sum * sum) + 2 ^ 128 - wrap128 (s * s))

/-- `evaluate_reward_curve`. -/
def evaluateRewardCurve (rshares : Nat) (curve : CurveId) (var1 : Nat) : Except String Nat :=
  match curve with
  | .quadratic => .ok (squareGain rshares var1)
  | .bounded => divide128 (rshares % 2 ^ 64 * 2 ^ 64) (wrap128 (wrap128 (var1 * 2) + rshares))
  | .linear => .ok rshares
  | .squareRoot => .ok (approxSqrt rshares)
  | .convergentLinear =>
    divide128 (squareGain rshares var1) (wrap128 (rshares + wrap128 (4 * var1)))
  | .convergentSquareRoot =>
    divide128 rshares (approxSqrt (wrap128 (rshares + wrap128 (2 * var1))))

/-- The formulas of the curves over unbounded integers. -/
def rewardCurve (rshares : Nat) (curve : CurveId) (s : Nat) : Nat :=
  match curve with
  | .quadratic => (rshares + s) * (rshares + s) - s * s
  | .bounded => rshares * 2 ^ 64 / (2 * s + rshares)
  | .linear => rshares
  | .squareRoot => approxSqrt rshares
  | .convergentLinear => ((rshares + s) * (rshares + s) - s * s) / (rshares + 4 * s)
  | .convergentSquareRoot => rshares / approxSqrt (rshares + 2 * s)

/-- No sum or product of an evaluation wraps around, and no divisor is zero. -/
def CurveExact (rshares : Nat) (curve : CurveId) (s : Nat) : Prop :=
  match curve with
  | .quadratic =>
    rshares + s < 2 ^ 128 ∧ (rshares + s) * (rshares + s) < 2 ^ 128 ∧ s * s < 2 ^ 128
  | .bounded => s * 2 < 2 ^ 128 ∧ 2 * s + rshares < 2 ^ 128 ∧ 2 * s + rshares ≠ 0
  | .convergentLinear =>
    (rshares + s < 2 ^ 128 ∧ (rshares + s) * (rshares + s) < 2 ^ 128 ∧ s * s < 2 ^ 128) ∧
      4 * s < 2 ^ 128 ∧ rshares + 4 * s < 2 ^ 128 ∧ rshares + 4 * s ≠ 0
  | .convergentSquareRoot =>
    2 * s < 2 ^ 128 ∧ rshares + 2 * s < 2 ^ 128 ∧ approxSqrt (rshares + 2 * s) ≠ 0
  | _ => True

/-! ### The approximate square root -/

/-- The root of a power of two. -/
def rootOfPow (n : Nat) : Nat := 2 ^ (n / 2) + (if n % 2 = 1 then 2 ^ (n / 2) else 0) / 2

/-- A number below a power of two shares no bit with it. -/
theorem two_pow_or {n b : Nat} (hb : b < 2 ^ n) : 2 ^ n ||| b = 2 ^ n + b := by
  have h := Nat.two_pow_add_eq_or_of_lt hb 1
  rw [mul_one] at h
  exact h.symm

/-- The leading bits of a mantissa, half as many as it has. -/
theorem mantissa_lt (x n : Nat) : x % 2 ^ n / 2 ^ (n - n / 2) < 2 ^ (n / 2) := by
  rw [Nat.div_lt_iff_lt_mul (by positivity), ← pow_add, show n / 2 + (n - n / 2) = n by omega]
  exact Nat.mod_lt _ (by positivity)

/-- The root adds half of the leading bits of the mantissa to a power of two. -/
theorem approxSqrt_eq {x : Nat} (hx : x ≠ 0) : approxSqrt x = 2 ^ (x.log2 / 2) +
    ((if x.log2 % 2 = 1 then 2 ^ (x.log2 / 2) else 0) +
      x % 2 ^ x.log2 / 2 ^ (x.log2 - x.log2 / 2)) / 2 := by
  have hlow := mantissa_lt x x.log2
  simp only [approxSqrt, if_neg hx, Nat.and_two_pow_sub_one_eq_mod, Nat.shiftRight_eq_div_pow,
    pow_one]
  generalize x % 2 ^ x.log2 / 2 ^ (x.log2 - x.log2 / 2) = low at *
  generalize x.log2 / 2 = k at *
  split
  · rw [two_pow_or hlow, two_pow_or (by omega)]
  · rw [Nat.zero_or, Nat.zero_add, two_pow_or (by omega)]

/-- The mantissa of a number. -/
theorem mod_two_pow_log2 {x : Nat} (hx : x ≠ 0) : x % 2 ^ x.log2 = x - 2 ^ x.log2 := by
  have hle := Nat.log2_self_le hx
  have hlt := Nat.lt_log2_self (n := x)
  rw [Nat.mod_eq_sub_mod hle, Nat.mod_eq_of_lt (by omega)]

/-- The root of the power of two below is a lower bound. -/
theorem rootOfPow_le_approxSqrt {x : Nat} (hx : x ≠ 0) : rootOfPow x.log2 ≤ approxSqrt x := by
  rw [approxSqrt_eq hx, rootOfPow]
  exact Nat.add_le_add_left (Nat.div_le_div_right (Nat.le_add_right _ _)) _

/-- The root of the power of two above is an upper bound. -/
theorem approxSqrt_le_rootOfPow {x : Nat} (hx : x ≠ 0) : approxSqrt x ≤ rootOfPow (x.log2 + 1) := by
  have hlow := mantissa_lt x x.log2
  rw [approxSqrt_eq hx, rootOfPow]
  rcases Nat.mod_two_eq_zero_or_one x.log2 with heven | hodd
  · have hnext : (x.log2 + 1) / 2 = x.log2 / 2 := by omega
    have hodd : (x.log2 + 1) % 2 = 1 := by omega
    rw [hnext, if_neg (by omega), if_pos hodd]
    omega
  · have hnext : (x.log2 + 1) / 2 = x.log2 / 2 + 1 := by omega
    rw [hnext, if_pos hodd, if_neg (by omega), pow_succ]
    omega

theorem rootOfPow_monotone : Monotone rootOfPow := by
  apply monotone_nat_of_le_succ
  intro n
  have hpow : approxSqrt (2 ^ n) ≤ rootOfPow (n + 1) := by
    have h := approxSqrt_le_rootOfPow (x := 2 ^ n) (by positivity)
    rwa [Nat.log2_two_pow] at h
  have hroot := rootOfPow_le_approxSqrt (x := 2 ^ n) (by positivity)
  rw [Nat.log2_two_pow] at hroot
  exact hroot.trans hpow

theorem approxSqrt_monotone : Monotone approxSqrt := by
  intro x y hxy
  by_cases hx : x = 0
  · rw [hx]
    exact Nat.zero_le _
  have hy : y ≠ 0 := by omega
  have hlog : x.log2 ≤ y.log2 := by
    rw [Nat.log2_eq_log_two, Nat.log2_eq_log_two]
    exact Nat.log_mono_right hxy
  rcases hlog.eq_or_lt with heq | hlt
  · -- the numbers have the same leading bit, so their mantissas are in order
    have hmod : x % 2 ^ y.log2 ≤ y % 2 ^ y.log2 := by
      rw [← heq, mod_two_pow_log2 hx, heq, mod_two_pow_log2 hy]
      exact Nat.sub_le_sub_right hxy _
    rw [approxSqrt_eq hx, approxSqrt_eq hy, heq]
    gcongr
  · calc approxSqrt x ≤ rootOfPow (x.log2 + 1) := approxSqrt_le_rootOfPow hx
      _ ≤ rootOfPow y.log2 := rootOfPow_monotone hlt
      _ ≤ approxSqrt y := rootOfPow_le_approxSqrt hy

/-- A number between the squares that its root stands for: the root is a power of two with half of
an odd exponent's leading bit and half of the leading bits of the mantissa. -/
theorem approxSqrt_parts {x : Nat} (hx : x ≠ 0) : ∃ a hi low, (hi = 0 ∨ hi = a) ∧ low < a ∧
    approxSqrt x = a + (hi + low) / 2 ∧ a * a + a * hi + low * (a + hi) ≤ x ∧
    x < a * a + a * hi + (low + 1) * (a + hi) := by
  have hmod := mod_two_pow_log2 hx
  have hle := Nat.log2_self_le hx
  have hlow := Nat.div_mul_le_self (x % 2 ^ x.log2) (2 ^ (x.log2 - x.log2 / 2))
  have hhigh := Nat.lt_mul_div_succ (x % 2 ^ x.log2) (Nat.two_pow_pos (x.log2 - x.log2 / 2))
  refine ⟨_, _, _, by split <;> simp, mantissa_lt x x.log2, approxSqrt_eq hx, ?_⟩
  generalize x % 2 ^ x.log2 / 2 ^ (x.log2 - x.log2 / 2) = low at *
  obtain ⟨hpow, hunit⟩ : 2 ^ x.log2 = 2 ^ (x.log2 / 2) * 2 ^ (x.log2 / 2) +
      2 ^ (x.log2 / 2) * (if x.log2 % 2 = 1 then 2 ^ (x.log2 / 2) else 0) ∧
      2 ^ (x.log2 - x.log2 / 2) =
        2 ^ (x.log2 / 2) + if x.log2 % 2 = 1 then 2 ^ (x.log2 / 2) else 0 := by
    obtain ⟨k, hk | hk⟩ := Nat.even_or_odd' x.log2
    · rw [hk, show 2 * k / 2 = k by omega, if_neg (by omega), show 2 * k - k = k by omega]
      exact ⟨by ring, rfl⟩
    · rw [hk, show (2 * k + 1) / 2 = k by omega, if_pos (by omega),
        show 2 * k + 1 - k = k + 1 by omega]
      exact ⟨by ring, by ring⟩
  rw [← hpow, ← hunit]
  rw [mul_comm] at hhigh
  omega

/-- The approximate root is monotone, not below the root rounded down, and its square is at most
nine eighths of the number. -/
theorem approxSqrt_bounds (x : Nat) (hx : 1 ≤ x) : (∀ y, x ≤ y → approxSqrt x ≤ approxSqrt y) ∧
    x.sqrt ≤ approxSqrt x ∧ 8 * approxSqrt x ^ 2 ≤ 9 * x := by
  obtain ⟨a, hi, low, hhi, hlow, heq, hle, hlt⟩ := approxSqrt_parts (Nat.ne_of_gt hx)
  refine ⟨fun y hxy => approxSqrt_monotone hxy, ?_, ?_⟩
  · have hhalf : hi + low + 1 ≤ 2 * ((hi + low) / 2 + 1) := by omega
    rw [heq]
    refine Nat.le_of_lt_succ (Nat.sqrt_lt'.mpr ?_)
    -- twice the root and two are at least `2 * a + hi + low + 1`
    rcases hhi with rfl | rfl <;> nlinarith
  · have hhalf : 2 * ((hi + low) / 2) ≤ hi + low := by omega
    rw [heq]
    rcases hhi with rfl | rfl <;> nlinarith

theorem approxSqrt_bounds_eight : approxSqrt 8 = 3 ∧ 8 * approxSqrt 8 ^ 2 ≤ 9 * 8 :=
  ⟨by decide, (approxSqrt_bounds 8 (by decide)).2.2⟩

theorem approxSqrt_ne_zero {x : Nat} : approxSqrt x ≠ 0 ↔ 0 < x := by
  constructor
  · intro h
    by_contra hx
    rw [Nat.eq_zero_of_not_pos hx] at h
    exact h rfl
  · intro hx
    rw [approxSqrt_eq hx.ne']
    positivity

/-! ### Exact evaluations -/

variable {r r' s : Nat}

/-- Without overflow the difference of the squares is exact. -/
theorem squareGain_eq (hsum : r + s < 2 ^ 128) (hsquare : (r + s) * (r + s) < 2 ^ 128)
    (hs : s * s < 2 ^ 128) : squareGain r s = (r + s) * (r + s) - s * s := by
  have hle : s * s ≤ (r + s) * (r + s) := Nat.mul_le_mul (by omega) (by omega)
  simp only [squareGain, wrap128, Nat.mod_eq_of_lt hsum, Nat.mod_eq_of_lt hsquare,
    Nat.mod_eq_of_lt hs]
  omega

theorem divide128_eq {a b : Nat} (hb : b ≠ 0) : divide128 a b = .ok (a / b) := by
  simp only [divide128, returns]
  exact ⟨(), hb, trivial⟩

/-- An evaluation that does not wrap around gives the formula. -/
theorem evaluateRewardCurve_of_exact {curve : CurveId} (hr : r < 2 ^ 63)
    (h : CurveExact r curve s) : evaluateRewardCurve r curve s = .ok (rewardCurve r curve s) := by
  cases curve with
  | quadratic => exact congrArg Except.ok (squareGain_eq h.1 h.2.1 h.2.2)
  | bounded =>
    obtain ⟨hdouble, hsum, hne⟩ := h
    have hcommute : s * 2 = 2 * s := mul_comm s 2
    rw [evaluateRewardCurve, wrap128, wrap128, Nat.mod_eq_of_lt hdouble, hcommute,
      Nat.mod_eq_of_lt hsum, Nat.mod_eq_of_lt (by omega)]
    exact divide128_eq hne
  | linear | squareRoot => rfl
  | convergentLinear =>
    obtain ⟨⟨hsum, hsquare, hs⟩, hfour, hdivisor, hne⟩ := h
    rw [evaluateRewardCurve, squareGain_eq hsum hsquare hs, wrap128, wrap128,
      Nat.mod_eq_of_lt hfour, Nat.mod_eq_of_lt hdivisor]
    exact divide128_eq hne
  | convergentSquareRoot =>
    obtain ⟨hdouble, hsum, hne⟩ := h
    rw [evaluateRewardCurve, wrap128, wrap128, Nat.mod_eq_of_lt hdouble, Nat.mod_eq_of_lt hsum]
    exact divide128_eq hne

/-- The constants and rshares for which the evaluation of a curve is exact. -/
def CurveAdmits (rshares : Nat) (curve : CurveId) (s : Nat) : Prop :=
  match curve with
  | .quadratic => rshares + s < 2 ^ 64
  | .bounded => 0 < 2 * s + rshares ∧ 2 * s + rshares < 2 ^ 128
  | .convergentLinear => 0 < rshares + s ∧ rshares + s < 2 ^ 64
  | .convergentSquareRoot => 0 < rshares + 2 * s ∧ rshares + 2 * s < 2 ^ 128
  | _ => True

/-- A square fits into 128 bits if and only if its root fits into 64. -/
theorem square_fits_iff : (r + s < 2 ^ 128 ∧ (r + s) * (r + s) < 2 ^ 128 ∧ s * s < 2 ^ 128) ↔
    r + s < 2 ^ 64 := by
  have hle : s * s ≤ (r + s) * (r + s) := Nat.mul_le_mul (by omega) (by omega)
  have hsquare : (r + s) * (r + s) < 2 ^ 64 * 2 ^ 64 ↔ r + s < 2 ^ 64 :=
    Nat.mul_self_lt_mul_self_iff
  constructor
  · exact fun h => hsquare.mp h.2.1
  · intro h
    omega

/-- The 128-bit steps of a curve are exact where it admits its arguments. -/
theorem curveExact_iff {curve : CurveId} : CurveExact r curve s ↔ CurveAdmits r curve s := by
  cases curve with
  | quadratic => exact square_fits_iff
  | bounded =>
    simp only [CurveExact, CurveAdmits]
    omega
  | linear | squareRoot => exact Iff.rfl
  | convergentLinear =>
    simp only [CurveExact, CurveAdmits, square_fits_iff]
    omega
  | convergentSquareRoot =>
    simp only [CurveExact, CurveAdmits, approxSqrt_ne_zero]
    omega

/-- The rshares and constants for which the weight of a vote fits into 64 bits. -/
def WeightFits (rshares : Nat) (curve : CurveId) (s : Nat) : Prop :=
  match curve with
  | .quadratic => rshares * (rshares + 2 * s) < 2 ^ 64
  | .bounded => 0 < s
  | _ => True

theorem square_sub (r s : Nat) : (r + s) * (r + s) - s * s = r * (r + 2 * s) := by
  rw [show (r + s) * (r + s) = r * (r + 2 * s) + s * s by ring, Nat.add_sub_cancel]

/-- When the weight of a vote fits in 64 bits. -/
theorem rewardCurve_lt_iff {curve : CurveId} (hr : r < 2 ^ 63) (h : CurveAdmits r curve s) :
    rewardCurve r curve s < 2 ^ 64 ↔ WeightFits r curve s := by
  cases curve with
  | quadratic => rw [rewardCurve, square_sub, WeightFits]
  | bounded =>
    rw [rewardCurve, Nat.div_lt_iff_lt_mul h.1, WeightFits]
    omega
  | linear => exact iff_of_true (by rw [rewardCurve]; omega) trivial
  | squareRoot =>
    have hroot : approxSqrt (2 ^ 63) < 2 ^ 64 := by decide
    exact iff_of_true ((approxSqrt_monotone hr.le).trans_lt hroot) trivial
  | convergentLinear =>
    have hle : rewardCurve r .convergentLinear s ≤ r := by
      rw [rewardCurve, square_sub, mul_comm r]
      exact Nat.div_le_of_le_mul (Nat.mul_le_mul_right r (by omega))
    exact iff_of_true (by omega) trivial
  | convergentSquareRoot =>
    have hle : rewardCurve r .convergentSquareRoot s ≤ r := Nat.div_le_self _ _
    exact iff_of_true (by omega) trivial

/-- The curves of a token are evaluated by their formulas, and the weight of a vote fits into 64
bits, if and only if the constant admits it. -/
theorem evaluateRewardCurve_exact_iff (author curation : CurveId) (rshares s : Nat)
    (hr : rshares < 2 ^ 63) :
    (evaluateRewardCurve rshares author s = .ok (rewardCurve rshares author s) ∧
      CurveExact rshares author s ∧
      evaluateRewardCurve rshares curation s = .ok (rewardCurve rshares curation s) ∧
      CurveExact rshares curation s ∧ rewardCurve rshares curation s < 2 ^ 64) ↔
    CurveAdmits rshares author s ∧ CurveAdmits rshares curation s ∧
      WeightFits rshares curation s := by
  constructor
  · rintro ⟨-, hauthor, -, hcuration, hweight⟩
    have hadmits := curveExact_iff.mp hcuration
    exact ⟨curveExact_iff.mp hauthor, hadmits, (rewardCurve_lt_iff hr hadmits).mp hweight⟩
  · rintro ⟨hauthor, hcuration, hweight⟩
    have hexact := curveExact_iff.mpr hauthor
    have hexact' := curveExact_iff.mpr hcuration
    exact ⟨evaluateRewardCurve_of_exact hr hexact, hexact, evaluateRewardCurve_of_exact hr hexact',
      hexact', (rewardCurve_lt_iff hr hcuration).mpr hweight⟩

theorem evaluateRewardCurve_exact_iff_million :
    1000000 < 2 ^ 63 ∧ evaluateRewardCurve 1000000 .convergentLinear 2000000000000 =
      .ok (rewardCurve 1000000 .convergentLinear 2000000000000) :=
  ⟨by decide, ((evaluateRewardCurve_exact_iff .convergentLinear .bounded 1000000 2000000000000
    (by decide)).mpr ⟨by simp [CurveAdmits], by simp [CurveAdmits], by simp [WeightFits]⟩).1⟩

/-- Without a constant the first vote on a comment throws. -/
theorem evaluateRewardCurve_zero : ¬ ∃ w, evaluateRewardCurve 0 .bounded 0 = .ok w := by
  rintro ⟨w, h⟩
  cases h

/-! ### Monotonicity -/

/-- Quotients are compared by their cross products. -/
theorem div_le_div_of_cross {a b c d : Nat} (hb : 0 < b) (hd : 0 < d) (h : a * d ≤ c * b) :
    a / b ≤ c / d := by
  rw [Nat.le_div_iff_mul_le hd]
  refine Nat.le_of_mul_le_mul_right ?_ hb
  calc a / b * d * b = a / b * b * d := by ring
    _ ≤ a * d := Nat.mul_le_mul_right d (Nat.div_mul_le_self a b)
    _ ≤ c * b := h

/-- More shares do not earn less. -/
theorem rewardCurve_mono {curve : CurveId} (hcurve : curve ≠ .convergentSquareRoot) (hs : 0 < s)
    (h : r ≤ r') : rewardCurve r curve s ≤ rewardCurve r' curve s := by
  have hscaled : ∀ c, r * (r' + c) ≤ r' * (r + c) := by
    intro c
    have hc := Nat.mul_le_mul_right c h
    rw [mul_add, mul_add, mul_comm r' r]
    omega
  cases curve with
  | quadratic =>
    rw [rewardCurve, rewardCurve, square_sub, square_sub]
    exact Nat.mul_le_mul h (by omega)
  | bounded =>
    refine div_le_div_of_cross (by omega) (by omega) ?_
    have hcross := Nat.mul_le_mul_right (2 ^ 64) (hscaled (2 * s))
    calc r * 2 ^ 64 * (2 * s + r') = r * (r' + 2 * s) * 2 ^ 64 := by ring
      _ ≤ r' * (r + 2 * s) * 2 ^ 64 := hcross
      _ = r' * 2 ^ 64 * (2 * s + r) := by ring
  | linear => exact h
  | squareRoot => exact approxSqrt_monotone h
  | convergentLinear =>
    refine div_le_div_of_cross (by omega) (by omega) ?_
    rw [square_sub, square_sub]
    calc r * (r + 2 * s) * (r' + 4 * s) = r * (r' + 4 * s) * (r + 2 * s) := by ring
      _ ≤ r' * (r + 4 * s) * (r' + 2 * s) := Nat.mul_le_mul (hscaled _) (by omega)
      _ = r' * (r' + 2 * s) * (r + 4 * s) := by ring
  | convergentSquareRoot => exact absurd rfl hcurve

/-- Below the step of the root the quotient is larger than at the step. -/
theorem convergentSquareRoot_decreases : evaluateRewardCurve 21 .convergentSquareRoot 1 = .ok 5 ∧
      evaluateRewardCurve 22 .convergentSquareRoot 1 = .ok 4 :=
  ⟨rfl, rfl⟩

/-- More rshares never weigh less on a curve if and only if it is not the convergent square
root. -/
theorem evaluateRewardCurve_monotone_iff (curve : CurveId) :
    (∀ s, 1 ≤ s → s ≤ 2 ^ 60 → ∀ r r', r ≤ r' → r' < 2 ^ 63 → ∃ w w',
      evaluateRewardCurve r curve s = .ok w ∧ evaluateRewardCurve r' curve s = .ok w' ∧ w ≤ w') ↔
    curve ≠ .convergentSquareRoot := by
  constructor
  · rintro h rfl
    obtain ⟨w, w', hw, hw', hle⟩ := h 1 (by decide) (by decide) 21 22 (by decide) (by decide)
    cases hw
    cases hw'
    exact absurd hle (by decide)
  · intro hcurve s hs hmax r r' hle hr
    have hadmits : ∀ x < 2 ^ 63, CurveExact x curve s := by
      intro x hx
      rw [curveExact_iff]
      cases curve <;> simp only [CurveAdmits] <;> omega
    exact ⟨_, _, evaluateRewardCurve_of_exact (by omega) (hadmits r (by omega)),
      evaluateRewardCurve_of_exact hr (hadmits r' hr), rewardCurve_mono hcurve hs hle⟩

end Freezone.Chain
