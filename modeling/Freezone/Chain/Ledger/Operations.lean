import Freezone.Chain.Ledger.Model

/-!
# Operations on accounts

The evaluators of transfers, savings, conversions, vesting and reward claims, each
with the checks of the operation's `validate` in front. What `validate` says about
symbols is in the types of the amounts.
-/

namespace Freezone.Chain.Funds

open Protocol

/-- `freezone_SAVINGS_WITHDRAW_TIME`. -/
def savingsWithdrawTime : Nat := 3 * 24 * 60 * 60

/-- `freezone_SAVINGS_WITHDRAW_REQUEST_LIMIT`. -/
def savingsWithdrawRequestLimit : Nat := 100

/-- `freezone_CONVERSION_DELAY_PRE_HF_16` and `freezone_CONVERSION_DELAY`. -/
def conversionDelay (hardfork16 : Prop) [Decidable hardfork16] : Nat :=
  if hardfork16 then 84 * 60 * 60 else 7 * 24 * 60 * 60

/-- `freezone_VESTING_WITHDRAW_INTERVALS_PRE_HF_16` and `freezone_VESTING_WITHDRAW_INTERVALS`. -/
def vestingWithdrawIntervals (hardfork16 : Prop) [Decidable hardfork16] : Int :=
  if hardfork16 then 13 else 104

/-- `freezone_VESTING_WITHDRAW_INTERVAL_SECONDS`. -/
def vestingWithdrawIntervalSeconds : Nat := 60 * 60 * 24 * 7

/-- `freezone_MAX_WITHDRAW_ROUTES`. -/
def maxWithdrawRoutes : Nat := 10

/-- `freezone_TREASURY_FEE`. -/
def treasuryFee : Int := 10 * 1000

namespace Ledger

/-- `account_create_evaluator`; the authorities and the amount of the fee are left out. -/
def accountCreate (creator newAccountName : AccountName) (fee : Int) (L : Ledger) :
    Except String Ledger := do
  ensure (0 ≤ fee) "Account creation fee cannot be negative"
  let L ← L.adjustBalance creator ⟨-fee, .freezone⟩
  let L ← (if L.HasHardfork 20 then L.adjustBalance nullAccount ⟨fee, .freezone⟩ else .ok L)
  let accounts ← orThrow uniqueness (L.accounts.insert newAccountName {})
  let L := { L with accounts := accounts }
  if ¬ L.HasHardfork 20 ∧ 0 < fee then L.createVesting newAccountName fee false else .ok L

/-- `claim_account_evaluator`; the subsidies are left out. -/
def claimAccount (creator : AccountName) (fee : Int) (L : Ledger) : Except String Ledger := do
  ensure (0 ≤ fee) "Account creation fee cannot be negative"
  ensure (L.HasHardfork 20) "claim_account_operation is not enabled until hardfork 20."
  let a ← L.getAccount creator
  ensure (fee ≤ a.balance) "Insufficient balance to create account."
  let L ← L.adjustBalance nullAccount ⟨fee, .freezone⟩
  let a ← L.getAccount creator
  .ok (L.setAccount creator { a with balance := a.balance - fee })

/-- `transfer_evaluator`. -/
def transfer (fromAccount toAccount : AccountName) (amount : Asset Liquid) (L : Ledger) :
    Except String Ledger := do
  ensure (0 < amount.amount) "Cannot transfer a negative amount (aka: stealing)"
  ensure (L.HasHardfork 21 → amount.symbol = .sbd ∨ toAccount ≠ treasuryAccount)
    "Can only transfer SBD to ${s}"
  let L ← L.adjustBalance fromAccount (-amount)
  L.adjustBalance toAccount amount

/-- `transfer_to_vesting_evaluator`; without a receiver the shares go to the sender. -/
def transferToVesting (fromAccount : AccountName) (toAccount : Option AccountName) (amount : Int)
    (L : Ledger) : Except String Ledger := do
  ensure (0 < amount) "Must transfer a nonzero amount"
  ensure (L.HasHardfork 21 → toAccount ≠ some treasuryAccount) "Can only transfer SBD to ${s}"
  let L ← L.adjustBalance fromAccount ⟨-amount, .freezone⟩
  L.createVesting (toAccount.getD fromAccount) amount false

/-- The rate of `withdraw_vesting_evaluator`: an equal part of the shares for each interval, at
least one, and rounded up from hardfork 21 on. -/
def newVestingWithdrawRate (vestingShares : Int) (L : Ledger) : Int :=
  let intervals := vestingWithdrawIntervals (L.HasHardfork 16)
  let rate := if vestingShares / intervals = 0 then 1 else vestingShares / intervals
  if L.HasHardfork 21 ∧ rate * intervals < vestingShares then rate + 1 else rate

/-- `withdraw_vesting_evaluator`. -/
def withdrawVesting (account : AccountName) (vestingShares : Int) (L : Ledger) :
    Except String Ledger := do
  let a ← L.getAccount account
  if vestingShares < 0 then do
    ensure (¬ L.HasHardfork 20)
      "Cannot withdraw negative VESTS. account: ${account}, vests:${vests}"
    .ok L
  else do
    ensure (0 ≤ a.vestingShares) "Account does not have sufficient freezone Power for withdraw."
    ensure (vestingShares ≤ a.vestingShares - a.delegatedVestingShares)
      "Account does not have sufficient freezone Power for withdraw."
    if vestingShares = 0 then do
      ensure (L.HasHardfork 5 → a.vestingWithdrawRate ≠ 0)
        "This operation would not change the vesting withdraw rate."
      .ok (L.setAccount account { a with
        vestingWithdrawRate := 0
        nextVestingWithdrawal := maximumTime
        toWithdraw := 0
        withdrawn := 0 })
    else do
      let rate := L.newVestingWithdrawRate vestingShares
      ensure (L.HasHardfork 5 → a.vestingWithdrawRate ≠ rate)
        "This operation would not change the vesting withdraw rate."
      .ok (L.setAccount account { a with
        vestingWithdrawRate := rate
        nextVestingWithdrawal := L.props.time + vestingWithdrawIntervalSeconds
        toWithdraw := vestingShares
        withdrawn := 0 })

/-- The routes of an account in the order of the destinations. -/
def routesOf (account : AccountName) (L : Ledger) : List (AccountName × WithdrawVestingRoute) :=
  ((L.withdrawRoutes.entries.filter fun e => e.1.1 = account).map fun e =>
      (e.1.2, e.2)).insertionSort
    fun e f => e.1 ≤ f.1

/-- Create, remove or change the route between two accounts. -/
def updateRoute (fromAccount toAccount : AccountName) (route : WithdrawVestingRoute) (a : Account)
    (L : Ledger) : Except String Ledger :=
  match L.withdrawRoutes.find? (fromAccount, toAccount) with
  | none => do
    ensure (route.percent ≠ 0) "Cannot create a 0% destination."
    ensure (a.withdrawRoutes < maxWithdrawRoutes)
      "Account already has the maximum number of routes."
    let routes ← orThrow uniqueness (L.withdrawRoutes.insert (fromAccount, toAccount) route)
    .ok ({ L with withdrawRoutes := routes }.setAccount fromAccount
      { a with withdrawRoutes := a.withdrawRoutes + 1 })
  | some _ =>
    if route.percent = 0 then
      .ok ({ L with
        withdrawRoutes := L.withdrawRoutes.erase (fromAccount, toAccount) }.setAccount fromAccount
        { a with withdrawRoutes := a.withdrawRoutes - 1 })
    else .ok { L with withdrawRoutes := L.withdrawRoutes.set (fromAccount, toAccount) route }

/-- `set_withdraw_vesting_route_evaluator`. -/
def setWithdrawVestingRoute (fromAccount toAccount : AccountName) (percent : Nat) (autoVest : Bool)
    (L : Ledger) : Except String Ledger := do
  ensure (percent ≤ hundredPercent) "Percent must be valid freezone percent"
  let a ← L.getAccount fromAccount
  let _ ← L.getAccount toAccount
  ensure (L.HasHardfork 21 → toAccount ≠ treasuryAccount) "Cannot withdraw vesting to ${s}"
  let L ← L.updateRoute fromAccount toAccount ⟨percent, autoVest⟩ a
  ensure (((L.routesOf fromAccount).map fun r => r.2.percent).sum % 2 ^ 16 ≤ hundredPercent)
    "More than 100% of vesting withdrawals allocated to destinations."
  .ok L

/-- `convert_evaluator`. -/
def convert (owner : AccountName) (requestid : Nat) (amount : Int) (L : Ledger) :
    Except String Ledger := do
  ensure (0 < amount) "Must convert some SBD"
  let L ← L.adjustBalance owner ⟨-amount, .sbd⟩
  ensure L.currentMedianHistory.isSome "Cannot convert SBD because there is no price feed."
  let requests ← orThrow uniqueness (L.convertRequests.insert (owner, requestid)
    ⟨amount, L.props.time + conversionDelay (L.HasHardfork 16)⟩)
  .ok { L with convertRequests := requests }

/-- `transfer_to_savings_evaluator`. -/
def transferToSavings (fromAccount toAccount : AccountName) (amount : Asset Liquid) (L : Ledger) :
    Except String Ledger := do
  ensure (0 < amount.amount) "amount.amount > 0"
  let _ ← L.getAccount toAccount
  ensure (L.HasHardfork 21 → toAccount ≠ treasuryAccount) "Cannot transfer savings to ${s}"
  let L ← L.adjustBalance fromAccount (-amount)
  L.adjustSavingsBalance toAccount amount

/-- `transfer_from_savings_evaluator`. -/
def transferFromSavings (fromAccount : AccountName) (requestId : Nat) (toAccount : AccountName)
    (amount : Asset Liquid) (L : Ledger) : Except String Ledger := do
  ensure (0 < amount.amount) "amount.amount > 0"
  let a ← L.getAccount fromAccount
  let _ ← L.getAccount toAccount
  ensure (a.savingsWithdrawRequests < savingsWithdrawRequestLimit)
    "Account has reached limit for pending withdraw requests."
  ensure (L.HasHardfork 21 → amount.symbol = .sbd ∨ toAccount ≠ treasuryAccount)
    "Can only transfer SBD to ${s}"
  ensure (amount.amount ≤ a.getSavingsBalance amount.symbol)
    "_db.get_savings_balance( from, op.amount.symbol ) >= op.amount"
  let L ← L.adjustSavingsBalance fromAccount (-amount)
  let withdraws ← orThrow uniqueness (L.savingsWithdraws.insert (fromAccount, requestId)
    ⟨toAccount, amount, L.props.time + savingsWithdrawTime⟩)
  let a ← L.getAccount fromAccount
  .ok ({ L with savingsWithdraws := withdraws }.setAccount fromAccount
    { a with savingsWithdrawRequests := a.savingsWithdrawRequests + 1 })

/-- Count one request of an account less. -/
def dropSavingsRequest (account : AccountName) (L : Ledger) : Except String Ledger := do
  let a ← L.getAccount account
  .ok (L.setAccount account { a with savingsWithdrawRequests := a.savingsWithdrawRequests - 1 })

/-- `cancel_transfer_from_savings_evaluator`. -/
def cancelTransferFromSavings (fromAccount : AccountName) (requestId : Nat) (L : Ledger) :
    Except String Ledger := do
  let request ← orThrow "unknown key" (L.savingsWithdraws.find? (fromAccount, requestId))
  let L ← L.adjustSavingsBalance fromAccount request.amount
  let L := { L with savingsWithdraws := L.savingsWithdraws.erase (fromAccount, requestId) }
  L.dropSavingsRequest fromAccount

/-- The backing that a claim of pending shares moves: all of it with the last share, otherwise
its part of it rounded down. -/
def rewardVestingToMove (a : Account) (rewardVests : Int) : Int :=
  if rewardVests = a.rewardVestingBalance then a.rewardVestingFreezone
  else rewardVests * a.rewardVestingFreezone / a.rewardVestingBalance

/-- `claim_reward_balance_evaluator`. -/
def claimRewardBalance (account : AccountName) (rewardFreezone rewardSbd rewardVests : Int)
    (L : Ledger) : Except String Ledger := do
  ensure (0 ≤ rewardFreezone) "Cannot claim a negative amount"
  ensure (0 ≤ rewardSbd) "Cannot claim a negative amount"
  ensure (0 ≤ rewardVests) "Cannot claim a negative amount"
  ensure (0 < rewardFreezone ∨ 0 < rewardSbd ∨ 0 < rewardVests) "Must claim something."
  let a ← L.getAccount account
  ensure (rewardFreezone ≤ a.rewardFreezoneBalance)
    "Cannot claim that much freezone. Claim: ${c} Actual: ${a}"
  ensure (rewardSbd ≤ a.rewardSbdBalance) "Cannot claim that much SBD. Claim: ${c} Actual: ${a}"
  ensure (rewardVests ≤ a.rewardVestingBalance)
    "Cannot claim that much VESTS. Claim: ${c} Actual: ${a}"
  let toMove := rewardVestingToMove a rewardVests
  let L ← L.adjustRewardBalance account ⟨-rewardFreezone, .freezone⟩ 0
  let L ← L.adjustRewardBalance account ⟨-rewardSbd, .sbd⟩ 0
  let L ← L.adjustBalance account ⟨rewardFreezone, .freezone⟩
  let L ← L.adjustBalance account ⟨rewardSbd, .sbd⟩
  let a ← L.getAccount account
  let L := L.setAccount account { a with
    vestingShares := a.vestingShares + rewardVests
    rewardVestingBalance := a.rewardVestingBalance - rewardVests
    rewardVestingFreezone := a.rewardVestingFreezone - toMove }
  .ok { L with props := { L.props with
    totalVestingShares := L.props.totalVestingShares + rewardVests
    totalVestingFundFreezone := L.props.totalVestingFundFreezone + toMove
    pendingRewardedVestingShares := L.props.pendingRewardedVestingShares - rewardVests
    pendingRewardedVestingFreezone := L.props.pendingRewardedVestingFreezone - toMove } }

/-- The fee of `create_proposal_evaluator`. -/
def payProposalFee (creator : AccountName) (L : Ledger) : Except String Ledger := do
  ensure (L.HasHardfork 21) "Proposals functionality not enabled until hardfork ${hf}"
  let L ← L.adjustBalance creator ⟨-treasuryFee, .sbd⟩
  L.adjustBalance treasuryAccount ⟨treasuryFee, .sbd⟩

end Ledger

end Freezone.Chain.Funds
