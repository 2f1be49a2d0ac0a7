import Freezone.Chain.Ledger.Conservation

/-!
# Supplies and stakes

What is held of the liquid currencies adds up to their supplies, and the shares of
the accounts add up to the vesting totals, in every state of a covered run. Two runs
show what goes wrong in others. A reward that is too small to buy a share is paid as
liquid FREEZONE and counted as backing of pending shares as well. Shares of the null
account whose value rounds to zero leave the total but not the account.
-/

namespace Freezone.Chain.Funds.Ledger

open Protocol List

variable {L : Ledger} {sbdInit : Int}

/-- The supplies are what is held, and nothing that is held is negative. The SBD of the genesis are
not part of their supply. -/
structure SupplyAgrees (sbdInit : Int) (L : Ledger) : Prop where
  freezone : L.held .freezone = L.props.currentSupply
  sbd : L.held .sbd = L.props.currentSbdSupply + sbdInit
  nonneg : L.NonNegative
  pending : 0 ≤ L.props.pendingRewardedVestingFreezone

/-- The shares of the accounts, their pending shares and what backs these add up to the totals, and
no total is negative. -/
structure StakeAgrees (L : Ledger) : Prop where
  shares : L.accounts.total Account.vestingShares = L.props.totalVestingShares
  pendingShares :
    L.accounts.total Account.rewardVestingBalance = L.props.pendingRewardedVestingShares
  pendingFreezone :
    L.accounts.total Account.rewardVestingFreezone = L.props.pendingRewardedVestingFreezone
  shares_nonneg : 0 ≤ L.props.totalVestingShares
  fund_nonneg : 0 ≤ L.props.totalVestingFundFreezone
  pendingShares_nonneg : 0 ≤ L.props.pendingRewardedVestingShares
  pendingFreezone_nonneg : 0 ≤ L.props.pendingRewardedVestingFreezone

/-- The supplies of a sound ledger are the sums of the holdings. -/
theorem Sound.supplyAgrees (hs : L.Sound sbdInit) : L.SupplyAgrees sbdInit where
  freezone := hs.held_eq .freezone
  sbd := by
    rw [hs.held_eq, ← hs.init]
    rfl
  nonneg := hs.nonneg
  pending := hs.counted_nonneg .rewardBacking

/-- The totals of the shares of a sound ledger are the sums of the holdings. -/
theorem Sound.stakeAgrees (hs : L.Sound sbdInit) : L.StakeAgrees where
  shares := hs.accounts_eq (b := .shares) (by decide)
  pendingShares := hs.accounts_eq (b := .rewardShares) (by decide)
  pendingFreezone := hs.accounts_eq (b := .rewardBacking) (by decide)
  shares_nonneg := hs.counted_nonneg .shares
  fund_nonneg := hs.nonneg.vestingFund
  pendingShares_nonneg := hs.counted_nonneg .rewardShares
  pendingFreezone_nonneg := hs.counted_nonneg .rewardBacking

/-- The beginning of a covered run is one. -/
theorem CoveredRun.take {steps : List LedgerStep} (h : L.CoveredRun steps) (n : Nat) :
    L.CoveredRun (steps.take n) := by
  induction steps generalizing L n with
  | nil =>
    rw [take_nil]
    exact trivial
  | cons step steps ih =>
    cases n with
    | zero => exact trivial
    | succ n => exact ⟨h.1, ih h.2 n⟩

/-- A covered run from the genesis goes through sound ledgers. -/
theorem sound_take (time initSupply sbdInitSupply : Nat) {steps : List LedgerStep}
    (h : (genesis time initSupply sbdInitSupply).CoveredRun steps) (n : Nat) :
    ((genesis time initSupply sbdInitSupply).run (steps.take n)).Sound sbdInitSupply :=
  (sound_genesis time initSupply sbdInitSupply).run (h.take n)

/-- A block with the hardforks up to 20, and the power-up of one unit. -/
def poweredUp : List LedgerStep :=
  .advance 1 1700000000 :: List.replicate 20 .applyHardfork ++ [.transferToVesting 2 none 1]

/-- A curator is paid out of what a block issues, and another account burns some FREEZONE. -/
def paidCurator : List LedgerStep :=
  poweredUp ++ [.advance 2 1700000003, .processFunds ⟨2, 1, 25⟩, .payCurator 2 5,
    .transfer 2 0 ⟨7, .freezone⟩, .clearNullAccountBalance, .processVestingWithdrawals]

/-- A null account without shares can be swept. -/
theorem sweepable_liquid (h : ∀ a ∈ L.accounts.find? nullAccount, a.vestingShares = 0 ∧
    a.rewardVestingBalance = 0 ∧ a.rewardVestingFreezone = 0) (a : Account)
    (ha : L.accounts.find? nullAccount = some a) : L.Sweepable a := by
  obtain ⟨hv, hr, hb⟩ := h a ha
  refine ⟨fun _ => hb, fun hpos => absurd hv hpos.ne', fun hpos => ?_⟩
  omega

theorem coveredRun_paidCurator : (genesis 1458835200 800000000 0).CoveredRun paidCurator := by
  simp only [paidCurator, poweredUp, replicate, cons_append, nil_append, CoveredRun,
    Covered, true_and, and_true]
  refine ⟨?_, ?_, fun _ => sweepable_liquid ?_, ?_⟩ <;> decide +kernel

/-- A power-down of all shares but one, over fifteen blocks that are more than a week apart, and the
payment of one unit to a curator. -/
def unfundedReward : List LedgerStep :=
  poweredUp ++ [.withdrawVesting 2 999] ++
    (List.range 15).flatMap (fun i => [.advance (i + 2) (1700700000 + 700000 * i),
      .processFunds ⟨2, 1, 25⟩, .processVestingWithdrawals]) ++ [.payCurator 2 1]

/-- The shares of the accounts add up to the totals, in every state of a covered run. -/
theorem run_stakeAgrees (time initSupply sbdInitSupply : Nat) (steps : List LedgerStep)
    (h : (genesis time initSupply sbdInitSupply).CoveredRun steps) (n : Nat) :
    ((genesis time initSupply sbdInitSupply).run (steps.take n)).StakeAgrees :=
  (sound_take time initSupply sbdInitSupply h n).stakeAgrees

theorem run_stakeAgrees_paidCurator :
    ((genesis 1458835200 800000000 0).run (paidCurator.take 28)).StakeAgrees :=
  run_stakeAgrees 1458835200 800000000 0 paidCurator coveredRun_paidCurator 28

/-- The creation of the treasury and the hardforks, a power-up and a power-down of few shares, after
which a unit of FREEZONE buys fewer shares than are worth one, and a power-up of the null account.
-/
def worthlessShares : List LedgerStep :=
  .advance 1 1458835203 :: .accountCreate 2 1 0 :: .advance 2 1700000000 ::
    List.replicate 22 .applyHardfork ++ [.transferToVesting 2 none 3, .withdrawVesting 2 100,
      .advance 3 1700700000, .processVestingWithdrawals, .transferToVesting 2 (some 0) 1]

/-- Up to then the run is covered. -/
theorem coveredRun_worthlessShares : (genesis 1458835200 1000 0).CoveredRun worthlessShares := by
  simp only [worthlessShares, replicate, cons_append, nil_append, CoveredRun,
    Covered, true_and, and_true]
  decide +kernel

theorem run_stakeAgrees_worthlessShares : ¬ ((genesis 1458835200 1000 0).run
    (worthlessShares ++ [.clearNullAccountBalance])).StakeAgrees := by
  intro h
  have hshares : ((genesis 1458835200 1000 0).run (worthlessShares ++
      [.clearNullAccountBalance])).accounts.total Account.vestingShares =
      ((genesis 1458835200 1000 0).run (worthlessShares ++
        [.clearNullAccountBalance])).props.totalVestingShares + 997 := by
    decide +kernel
  rw [h.shares] at hshares
  omega

end Freezone.Chain.Funds.Ledger
