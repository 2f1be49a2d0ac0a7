import Freezone.Protocol.Asset

/-!
# Resource dynamics

A pool of subsidized accounts grows by a budget and decays by a fraction of itself.
`rd_setup_dynamics_params` computes the least pool at which the decay makes up for
the budget and checks its own result twice. For the parameters that witnesses can
choose, and for those derived from them for a single witness, both checks pass.
-/

namespace Freezone.Chain.Witnesses

open Protocol

/-- `freezone_RD_DECAY_DENOM_SHIFT`. -/
def rdDecayDenomShift : Nat := 36

/-- `freezone_RD_MIN_BUDGET`. -/
def rdMinBudget : Int := 1

/-- `freezone_RD_MAX_BUDGET`. -/
def rdMaxBudget : Int := min (min (2 ^ (64 + 6 - 36) - 1) (2 ^ (64 - 36) - 1)) (2 ^ 31 - 1)

/-- `freezone_RD_MIN_DECAY`. -/
def rdMinDecay : Nat := 2 ^ 6

/-- `freezone_RD_MAX_DECAY`. -/
def rdMaxDecay : Nat := 0xFFFFFFFF

/-- `freezone_ACCOUNT_SUBSIDY_PRECISION`. -/
def accountSubsidyPrecision : Nat := hundredPercent

/-- `freezone_WITNESS_SUBSIDY_BUDGET_PERCENT`. -/
def witnessSubsidyBudgetPercent : Int := 125 * 100

/-- `freezone_WITNESS_SUBSIDY_DECAY_PERCENT`. -/
def witnessSubsidyDecayPercent : Nat := 21 * hundredPercent

/-- `freezone_DECAY_BACKSTOP_PERCENT`. -/
def decayBackstopPercent : Int := 90 * 100

/-- `rd_user_params`. -/
structure RdUserParams where
  budgetPerTimeUnit : Int
  decayPerTimeUnit : Nat

/-- `rd_system_params`. -/
structure RdSystemParams where
  resourceUnit : Nat := accountSubsidyPrecision
  decayPerTimeUnitDenomShift : Nat := rdDecayDenomShift

/-- `rd_dynamics_params` with its `rd_decay_params`. -/
structure RdDynamicsParams where
  resourceUnit : Nat := 0
  budgetPerTimeUnit : Int := 0
  poolEq : Nat := 0
  maxPoolSize : Nat := 0
  decayPerTimeUnit : Nat := 0
  decayPerTimeUnitDenomShift : Nat := 0
  minDecay : Int := 0

/-- `rd_validate_user_params`. -/
def rdValidateUserParams (u : RdUserParams) : Except String Unit := do
  ensure (rdMinBudget ≤ u.budgetPerTimeUnit)
    "user_params.budget_per_time_unit >= freezone_RD_MIN_BUDGET"
  ensure (u.budgetPerTimeUnit ≤ rdMaxBudget)
    "user_params.budget_per_time_unit <= freezone_RD_MAX_BUDGET"
  ensure (rdMinDecay ≤ u.decayPerTimeUnit)
    "user_params.decay_per_time_unit >= freezone_RD_MIN_DECAY"
  ensure (u.decayPerTimeUnit ≤ rdMaxDecay)
    "user_params.decay_per_time_unit <= freezone_RD_MAX_DECAY"

/-- The decay of a pool in one time unit, which is no more than the pool. -/
def poolDecay (decayPerTimeUnit shift pool : Nat) : Nat :=
  min (decayPerTimeUnit * pool / 2 ^ shift) pool

/-- `rd_compute_pool_decay` for one time unit; a negative pool decays like a positive one. -/
def rdComputePoolDecay (decayPerTimeUnit shift : Nat) (currentPool : Int) : Int :=
  if currentPool < 0 then -poolDecay decayPerTimeUnit shift (-currentPool).toNat
  else poolDecay decayPerTimeUnit shift currentPool.toNat

/-- `rd_apply`. -/
def rdApply (rd : RdDynamicsParams) (pool : Int) : Int :=
  let decay := max (rdComputePoolDecay rd.decayPerTimeUnit rd.decayPerTimeUnitDenomShift pool)
    rd.minDecay
  max (min (pool + rd.budgetPerTimeUnit - decay) rd.maxPoolSize) 0

/-- The decay makes up for the budget. -/
def CheckPoolEq (p : RdDynamicsParams) (pool : Nat) : Prop :=
  p.budgetPerTimeUnit ≤ rdComputePoolDecay p.decayPerTimeUnit p.decayPerTimeUnitDenomShift pool

instance (p : RdDynamicsParams) (pool : Nat) : Decidable (CheckPoolEq p pool) :=
  inferInstanceAs (Decidable (_ ≤ _))

/-- The least pool at which budget and decay are in balance. -/
def equilibrium (u : RdUserParams) (shift : Nat) : Nat :=
  (u.budgetPerTimeUnit.toNat * 2 ^ shift + (u.decayPerTimeUnit - 1)) / u.decayPerTimeUnit

/-- The parameters that follow from those of a user and the system. -/
def dynamicsParams (u : RdUserParams) (s : RdSystemParams) : RdDynamicsParams where
  resourceUnit := s.resourceUnit
  budgetPerTimeUnit := u.budgetPerTimeUnit
  poolEq := equilibrium u s.decayPerTimeUnitDenomShift
  maxPoolSize := equilibrium u s.decayPerTimeUnitDenomShift
  decayPerTimeUnit := u.decayPerTimeUnit
  decayPerTimeUnitDenomShift := s.decayPerTimeUnitDenomShift

/-- `rd_setup_dynamics_params`. A pool of 63 bits or more is read as a negative one, which does not
make up for the budget. -/
def rdSetupDynamicsParams (u : RdUserParams) (s : RdSystemParams) :
    Except String RdDynamicsParams := do
  ensure (s.decayPerTimeUnitDenomShift = rdDecayDenomShift)
    "system_params.decay_per_time_unit_denom_shift == freezone_RD_DECAY_DENOM_SHIFT"
  ensure (equilibrium u s.decayPerTimeUnitDenomShift < 2 ^ 64) "to_uint64"
  let p := dynamicsParams u s
  ensure (p.poolEq < 2 ^ 63 ∧ CheckPoolEq p p.poolEq)
    "check_pool_eq( dparams_out, dparams_out.pool_eq   )"
  ensure (¬ CheckPoolEq p (p.poolEq - 1)) "!check_pool_eq( dparams_out, dparams_out.pool_eq-1 )"
  .ok p

/-- The parameters of a single witness, from those of all. -/
def perWitnessParams (u : RdUserParams) : RdUserParams where
  budgetPerTimeUnit :=
    min (u.budgetPerTimeUnit * witnessSubsidyBudgetPercent / hundredPercent) (2 ^ 31 - 1)
  decayPerTimeUnit :=
    min (u.decayPerTimeUnit * witnessSubsidyDecayPercent / hundredPercent) (2 ^ 32 - 1)

/-- Parameters for which the dynamics can be set up. -/
structure RdUserParams.Sound (u : RdUserParams) : Prop where
  budget_pos : 0 < u.budgetPerTimeUnit
  budget_lt : u.budgetPerTimeUnit < 2 ^ 31
  decay_pos : 2 ^ 6 ≤ u.decayPerTimeUnit
  decay_lt : u.decayPerTimeUnit < 2 ^ 32

variable {u : RdUserParams}

/-- The bounds of the parameters. -/
theorem rdValidateUserParams_eq_ok :
    rdValidateUserParams u = .ok () ↔ rdMinBudget ≤ u.budgetPerTimeUnit ∧
      u.budgetPerTimeUnit ≤ rdMaxBudget ∧ rdMinDecay ≤ u.decayPerTimeUnit ∧
      u.decayPerTimeUnit ≤ rdMaxDecay := by
  simp [rdValidateUserParams]

/-- The validated parameters are positive and small. -/
theorem RdUserParams.sound_of_valid (h : rdValidateUserParams u = .ok ()) : u.Sound := by
  obtain ⟨hmin, hmax, hlow, hhigh⟩ := rdValidateUserParams_eq_ok.mp h
  simp only [rdMinBudget, rdMaxBudget, rdMinDecay, rdMaxDecay] at hmin hmax hlow hhigh
  exact ⟨by omega, by omega, hlow, by omega⟩

theorem perWitnessParams_sound (h : rdValidateUserParams u = .ok ()) :
    (perWitnessParams u).Sound := by
  obtain ⟨hmin, hmax, hlow, hhigh⟩ := rdValidateUserParams_eq_ok.mp h
  simp only [rdMinBudget, rdMaxBudget, rdMinDecay, rdMaxDecay] at hmin hmax hlow hhigh
  constructor <;>
    simp only [perWitnessParams, witnessSubsidyBudgetPercent, witnessSubsidyDecayPercent,
      hundredPercent] <;> omega

/-- Decays below the denominator do not exceed the pool. -/
theorem poolDecay_eq {decay shift pool : Nat} (h : decay < 2 ^ shift) :
    poolDecay decay shift pool = decay * pool / 2 ^ shift := by
  refine min_eq_left ?_
  calc decay * pool / 2 ^ shift ≤ 2 ^ shift * pool / 2 ^ shift :=
        Nat.div_le_div_right (Nat.mul_le_mul_right pool h.le)
    _ = pool := Nat.mul_div_cancel_left pool (Nat.two_pow_pos shift)

/-- A pool is in balance when it loses at least the budget. -/
theorem checkPoolEq_natCast {p : RdDynamicsParams} {pool : Nat} : CheckPoolEq p pool ↔
    p.budgetPerTimeUnit ≤ poolDecay p.decayPerTimeUnit p.decayPerTimeUnitDenomShift pool := by
  rw [CheckPoolEq, rdComputePoolDecay, if_neg (by omega), Int.toNat_natCast]

/-- The equilibrium is the smallest pool at which the decay makes up for the budget. -/
theorem dynamicsParams_isLeast (hu : u.Sound) (s : RdSystemParams)
    (hs : s.decayPerTimeUnitDenomShift = rdDecayDenomShift) :
    IsLeast {pool | CheckPoolEq (dynamicsParams u s) pool} (dynamicsParams u s).poolEq := by
  have hdecay := hu.decay_pos
  have hiff : ∀ pool, CheckPoolEq (dynamicsParams u s) pool ↔
      (dynamicsParams u s).poolEq ≤ pool := by
    intro pool
    have hlt : u.decayPerTimeUnit < 2 ^ rdDecayDenomShift := hu.decay_lt.trans (by decide)
    have hpos := hu.budget_pos
    have hle := Nat.le_div_iff_mul_le (x := u.budgetPerTimeUnit.toNat)
      (y := u.decayPerTimeUnit * pool) (Nat.two_pow_pos rdDecayDenomShift)
    simp only [checkPoolEq_natCast, dynamicsParams, equilibrium, hs]
    rw [poolDecay_eq hlt, Nat.div_le_iff_le_mul (by omega), Nat.mul_comm pool]
    omega
  exact ⟨(hiff _).mpr le_rfl, fun pool hpool => (hiff pool).mp hpool⟩

/-- Setting up the dynamics never throws for sound parameters. -/
theorem rdSetupDynamicsParams_eq_ok (hu : u.Sound) {s : RdSystemParams}
    (hs : s.decayPerTimeUnitDenomShift = rdDecayDenomShift) :
    rdSetupDynamicsParams u s = .ok (dynamicsParams u s) := by
  have hbudget := hu.budget_pos
  have hbelow := hu.budget_lt
  have hdecay := hu.decay_pos
  obtain ⟨(hbalance : CheckPoolEq _ _), hleast⟩ := dynamicsParams_isLeast hu s hs
  have hsmall : equilibrium u s.decayPerTimeUnitDenomShift < 2 ^ 63 := by
    rw [equilibrium, hs]
    refine Nat.div_lt_of_lt_mul ?_
    simp only [rdDecayDenomShift]
    omega
  have hpos : 0 < (dynamicsParams u s).poolEq := by
    simp only [dynamicsParams, equilibrium, hs, rdDecayDenomShift]
    exact Nat.div_pos (by omega) (by omega)
  have hbefore : ¬ CheckPoolEq (dynamicsParams u s) ((dynamicsParams u s).poolEq - 1) := by
    intro h
    have := hleast h
    omega
  simp only [rdSetupDynamicsParams]
  rw [ensure, if_pos hs, ensure, if_pos (hsmall.trans (by decide)), ensure,
    if_pos ⟨hsmall, hbalance⟩, ensure, if_pos hbefore]
  rfl

/-- For valid parameters, and for those of a single witness that follow from them, the dynamics are
set up, and the equilibrium is the smallest pool at which the decay makes up for the budget. -/
theorem rdSetupDynamicsParams_least (u : RdUserParams) (h : rdValidateUserParams u = .ok ()) :
    ∀ v ∈ [u, perWitnessParams u], ∃ p, rdSetupDynamicsParams v {} = .ok p ∧
      IsLeast {pool | CheckPoolEq p pool} p.poolEq := by
  intro v hv
  have hsound : v.Sound := by
    rcases List.mem_pair.mp hv with rfl | rfl
    · exact RdUserParams.sound_of_valid h
    · exact perWitnessParams_sound h
  exact ⟨_, rdSetupDynamicsParams_eq_ok hsound rfl, dynamicsParams_isLeast hsound {} rfl⟩

theorem rdSetupDynamicsParams_least_default : ∃ p, rdSetupDynamicsParams ⟨797, 347321⟩ {} = .ok p ∧
    IsLeast {pool | CheckPoolEq p pool} p.poolEq :=
  rdSetupDynamicsParams_least ⟨797, 347321⟩ rfl _ List.mem_cons_self

/-! ### The pool over time -/

section Iterates

variable {p : RdDynamicsParams} {s : RdSystemParams}

/-- A larger pool decays more, but by no more than what it is larger. -/
theorem poolDecay_add {decay shift : Nat} (h : decay < 2 ^ shift) (x k : Nat) :
    poolDecay decay shift x ≤ poolDecay decay shift (x + k) ∧
      poolDecay decay shift (x + k) ≤ poolDecay decay shift x + k := by
  rw [poolDecay_eq h, poolDecay_eq h]
  refine ⟨Nat.div_le_div_right (Nat.mul_le_mul_left _ (Nat.le_add_right x k)), ?_⟩
  calc decay * (x + k) / 2 ^ shift ≤ (decay * x + 2 ^ shift * k) / 2 ^ shift := by
        rw [Nat.mul_add]
        gcongr
    _ = decay * x / 2 ^ shift + k := Nat.add_mul_div_left _ _ (Nat.two_pow_pos _)

/-- Dynamics that are in balance at the maximum of the pool and not before. -/
structure RdDynamicsParams.Balanced (p : RdDynamicsParams) : Prop where
  minDecay : p.minDecay = 0
  decay_lt : p.decayPerTimeUnit < 2 ^ p.decayPerTimeUnitDenomShift
  balance : (poolDecay p.decayPerTimeUnit p.decayPerTimeUnitDenomShift p.maxPoolSize : Int) =
    p.budgetPerTimeUnit
  before : ∀ pool < p.maxPoolSize,
    (poolDecay p.decayPerTimeUnit p.decayPerTimeUnitDenomShift pool : Int) < p.budgetPerTimeUnit

/-- The parameters that are set up keep the pool in balance. -/
theorem rdSetupDynamicsParams_balanced (hd : u.decayPerTimeUnit < 2 ^ 32)
    (h : rdSetupDynamicsParams u s = .ok p) : p.Balanced := by
  simp only [rdSetupDynamicsParams, returns, checkPoolEq_natCast] at h
  obtain ⟨-, hs, -, -, -, ⟨-, hbalance⟩, -, hbefore, rfl⟩ := h
  have hlt : (dynamicsParams u s).decayPerTimeUnit <
      2 ^ (dynamicsParams u s).decayPerTimeUnitDenomShift := by
    simp only [dynamicsParams, hs]
    exact hd.trans (by decide)
  obtain ⟨m, hm⟩ : ∃ m, (dynamicsParams u s).poolEq = m + 1 := by
    refine Nat.exists_eq_succ_of_ne_zero fun hzero => hbefore ?_
    rw [hzero] at hbalance ⊢
    exact hbalance
  have hmax : (dynamicsParams u s).maxPoolSize = m + 1 := hm
  rw [hm, Nat.add_sub_cancel] at hbefore
  rw [hm] at hbalance
  refine ⟨rfl, hlt, ?_, fun pool hpool => ?_⟩
  · have hstep := poolDecay_add hlt m 1
    rw [hmax]
    omega
  · obtain ⟨k, rfl⟩ := Nat.exists_eq_add_of_le (Nat.le_of_lt_succ (hmax ▸ hpool))
    have hmore := poolDecay_add hlt pool k
    omega

/-- Two pools up to the maximum stay in order with a step, at most at the maximum, and the smaller
one grows until it is there. -/
theorem RdDynamicsParams.Balanced.rdApply_le (hp : p.Balanced) {x y : Int} (hx : 0 ≤ x)
    (hxy : x ≤ y) (hy : y ≤ p.maxPoolSize) : min (x + 1) p.maxPoolSize ≤ rdApply p x ∧
      rdApply p x ≤ rdApply p y ∧ rdApply p y ≤ p.maxPoolSize := by
  obtain ⟨a, rfl⟩ := Int.eq_ofNat_of_zero_le hx
  obtain ⟨b, rfl⟩ := Int.eq_ofNat_of_zero_le (hx.trans hxy)
  obtain ⟨k, rfl⟩ := Nat.exists_eq_add_of_le (Nat.cast_le.mp hxy)
  obtain ⟨l, hl⟩ := Nat.exists_eq_add_of_le (Nat.cast_le.mp hy)
  have hfirst := poolDecay_add hp.decay_lt a k
  have hsecond := poolDecay_add hp.decay_lt (a + k) l
  have hbalance := hp.balance
  have hbefore := hp.before a
  rw [hl] at hbalance hbefore
  simp only [rdApply, rdComputePoolDecay, if_neg (Int.not_lt.mpr (Int.natCast_nonneg _)),
    Int.toNat_natCast, hp.minDecay, hl]
  omega

/-- The pool gains at least one in each step until it is full. -/
theorem RdDynamicsParams.Balanced.iterate_le (hp : p.Balanced) {x y : Int} (hx : 0 ≤ x)
    (hxy : x ≤ y) (hy : y ≤ p.maxPoolSize) (n : Nat) :
    min (x + n) p.maxPoolSize ≤ (rdApply p)^[n] x ∧ (rdApply p)^[n] x ≤ (rdApply p)^[n] y ∧
      (rdApply p)^[n] y ≤ p.maxPoolSize := by
  induction n with
  | zero => exact ⟨(min_le_left _ _).trans (by simp), hxy, hy⟩
  | succ n ih =>
    obtain ⟨hgrows, horder, hmax⟩ := ih
    have hstep := hp.rdApply_le (by omega) horder hmax
    rw [Function.iterate_succ_apply', Function.iterate_succ_apply']
    omega

/-- The pool under dynamics that have been set up, for parameters of their types: it stays between
zero and its maximum, never falls, keeps the order of two pools, and reaches the maximum, where the
decay is just the budget. -/
theorem rdApply_iterates (u : RdUserParams) (s : RdSystemParams) (p : RdDynamicsParams)
    (hd : u.decayPerTimeUnit < 2 ^ 32) (h : rdSetupDynamicsParams u s = .ok p) :
    (∀ pool : Int, 0 ≤ pool → pool ≤ p.maxPoolSize →
      (∀ n, 0 ≤ (rdApply p)^[n] pool ∧ (rdApply p)^[n] pool ≤ p.maxPoolSize ∧
        (rdApply p)^[n] pool ≤ (rdApply p)^[n + 1] pool) ∧
      ∃ n, ∀ m ≥ n, (rdApply p)^[m] pool = p.maxPoolSize) ∧
    (∀ a b : Int, 0 ≤ a → a ≤ b → b ≤ p.maxPoolSize →
      ∀ n, (rdApply p)^[n] a ≤ (rdApply p)^[n] b) ∧
    rdComputePoolDecay p.decayPerTimeUnit p.decayPerTimeUnitDenomShift p.maxPoolSize =
      p.budgetPerTimeUnit := by
  have hp := rdSetupDynamicsParams_balanced hd h
  refine ⟨fun pool h0 hmax => ⟨fun n => ?_, p.maxPoolSize, fun m hm => ?_⟩,
    fun a b ha hab hb n => (hp.iterate_le ha hab hb n).2.1, ?_⟩
  · have hn := hp.iterate_le h0 le_rfl hmax n
    have hstep := hp.rdApply_le (by omega) le_rfl hn.2.2
    rw [Function.iterate_succ_apply']
    omega
  · have hm := hp.iterate_le h0 le_rfl hmax m
    omega
  · rw [rdComputePoolDecay, if_neg (by omega), Int.toNat_natCast, hp.balance]

theorem rdApply_iterates_default : ∃ p, rdSetupDynamicsParams ⟨797, 347321⟩ {} = .ok p ∧
    ∃ n, ∀ m ≥ n, (rdApply p)^[m] 0 = p.maxPoolSize :=
  ⟨_, rfl, ((rdApply_iterates ⟨797, 347321⟩ {} _ (by decide) rfl).1 0 le_rfl
    (Int.natCast_nonneg _)).2⟩

end Iterates

end Freezone.Chain.Witnesses
