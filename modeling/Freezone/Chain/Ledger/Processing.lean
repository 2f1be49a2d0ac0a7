import Freezone.Chain.Ledger.Escrow
import Freezone.Chain.Ledger.Market
import Freezone.Chain.Ledger.Operations

/-!
# Processing with each block

What a block does to the ledger besides its operations: due conversions, savings
and power-downs are paid, the null account is emptied, new FREEZONE is issued, and
comments and proposals are paid. A step of the chain is an operation or one of
these; an exception leaves the ledger as it was.

Which comments and proposals are paid how much, and the rewards of the first
hardforks, are inputs of the steps.
-/

namespace Freezone.Chain.Funds

open Protocol

namespace Ledger

/-- The keys of the objects that are due at a time, by their times and then by age. -/
def dueBy {κ ν : Type} [DecidableEq κ] (time : ν → Nat) (now : Nat) (t : Table κ ν) :
    List (κ × ν) :=
  (t.entries.filter fun e => time e.2 ≤ now).insertionSort fun e f => time e.2 ≤ time f.2

/-- One round of the loop of `process_conversions`, with the SBD converted and the FREEZONE issued
so far. -/
def fillConversion (median : Price Liquid) (e : (AccountName × Nat) × ConvertRequest)
    (s : Ledger × Int × Int) : Except String (Ledger × Int × Int) := do
  let amountToIssue ← (⟨e.2.amount, .sbd⟩ : Asset Liquid).mul median
  let L ← s.1.adjustBalance e.1.1 amountToIssue
  .ok ({ L with convertRequests := L.convertRequests.erase e.1 }, s.2.1 + e.2.amount,
    s.2.2 + amountToIssue.amount)

/-- `process_conversions`. -/
def processConversions (L : Ledger) : Except String Ledger :=
  match L.currentMedianHistory with
  | none => .ok L
  | some median => do
    let due := dueBy ConvertRequest.conversionDate L.props.time L.convertRequests
    let (L, netSbd, netFreezone) ← forEach (fillConversion median) due (L, 0, 0)
    let value ← (⟨netSbd, .sbd⟩ : Asset Liquid).mul median
    .ok { L with props := { L.props with
      currentSupply := L.props.currentSupply + netFreezone
      currentSbdSupply := L.props.currentSbdSupply - netSbd
      virtualSupply := L.props.virtualSupply + netFreezone - value.amount } }

/-- One round of the loop of `process_savings_withdraws`. -/
def fillSavingsWithdraw (e : (AccountName × Nat) × SavingsWithdraw) (L : Ledger) :
    Except String Ledger := do
  let L ← L.adjustBalance e.2.toAccount e.2.amount
  let L ← L.dropSavingsRequest e.1.1
  .ok { L with savingsWithdraws := L.savingsWithdraws.erase e.1 }

/-- The order of `by_complete_from_rid`. -/
def completeFromRid (e f : (AccountName × Nat) × SavingsWithdraw) : Prop :=
  e.2.complete < f.2.complete ∨ e.2.complete = f.2.complete ∧
    (e.1.1 < f.1.1 ∨ e.1.1 = f.1.1 ∧ e.1.2 ≤ f.1.2)

instance : DecidableRel completeFromRid := fun _ _ => inferInstanceAs (Decidable (_ ∨ _))

/-- `process_savings_withdraws`. -/
def processSavingsWithdraws (L : Ledger) : Except String Ledger :=
  forEach fillSavingsWithdraw ((L.savingsWithdraws.entries.filter fun e =>
    e.2.complete ≤ L.props.time).insertionSort completeFromRid) L

/-- What one instalment of a power-down takes from an account. -/
def instalment (a : Account) : Int :=
  if a.toWithdraw - a.withdrawn < a.vestingWithdrawRate then
    min a.vestingShares (a.toWithdraw % a.vestingWithdrawRate)
  else min a.vestingShares a.vestingWithdrawRate

/-- The part of an instalment that goes along a route. -/
def routedPart (toWithdraw : Int) (r : WithdrawVestingRoute) : Int :=
  toWithdraw * r.percent / hundredPercent

/-- The first pass over the routes: shares that stay shares. -/
def depositVests (toWithdraw : Int) (r : AccountName × WithdrawVestingRoute) (L : Ledger) :
    Except String Ledger :=
  if r.2.autoVest ∧ 0 < routedPart toWithdraw r.2 then do
    let a ← L.getAccount r.1
    .ok (L.setAccount r.1 { a with vestingShares := a.vestingShares + routedPart toWithdraw r.2 })
  else .ok L

/-- Take shares and their value out of the vesting fund. -/
def leaveVesting (shares value : Int) (L : Ledger) : Ledger :=
  { L with props := { L.props with
    totalVestingFundFreezone := L.props.totalVestingFundFreezone - value
    totalVestingShares := L.props.totalVestingShares - shares } }

/-- The second pass over the routes: shares that are paid out. -/
def depositFreezone (toWithdraw : Int) (r : AccountName × WithdrawVestingRoute) (L : Ledger) :
    Except String Ledger :=
  if r.2.autoVest then .ok L
  else do
    let a ← L.getAccount r.1
    let converted ← L.vestingValue (routedPart toWithdraw r.2)
    if 0 < routedPart toWithdraw r.2 then
      .ok ((L.setAccount r.1 { a with balance := a.balance + converted }).leaveVesting
        (routedPart toWithdraw r.2) converted)
    else .ok L

/-- The account after an instalment. -/
def finishInstalment (toWithdraw converted : Int) (a : Account) : Account :=
  let a := { a with
    vestingShares := a.vestingShares - toWithdraw
    balance := a.balance + converted
    withdrawn := a.withdrawn + toWithdraw }
  if a.toWithdraw ≤ a.withdrawn ∨ a.vestingShares = 0 then
    { a with vestingWithdrawRate := 0, nextVestingWithdrawal := maximumTime }
  else { a with nextVestingWithdrawal := a.nextVestingWithdrawal + vestingWithdrawIntervalSeconds }

/-- One round of the loop of `process_vesting_withdrawals`. -/
def payInstalment (account : AccountName) (L : Ledger) : Except String Ledger := do
  let a ← L.getAccount account
  let toWithdraw := instalment a
  let routes := L.routesOf account
  let L ← forEach (depositVests toWithdraw) routes L
  let L ← forEach (depositFreezone toWithdraw) routes L
  let toConvert := toWithdraw - (routes.map fun r => routedPart toWithdraw r.2).sum
  ensure (0 ≤ toConvert) "Deposited more vests than were supposed to be withdrawn"
  let converted ← L.vestingValue toConvert
  let a ← L.getAccount account
  .ok ((L.setAccount account (finishInstalment toWithdraw converted a)).leaveVesting
    toConvert converted)

/-- The order of `by_next_vesting_withdrawal`. -/
def withdrawalBefore (e f : AccountName × Account) : Prop :=
  e.2.nextVestingWithdrawal < f.2.nextVestingWithdrawal ∨
    e.2.nextVestingWithdrawal = f.2.nextVestingWithdrawal ∧ e.1 ≤ f.1

instance : DecidableRel withdrawalBefore := fun _ _ => inferInstanceAs (Decidable (_ ∨ _))

/-- The loop of `process_vesting_withdrawals`. Its iterator moves on to the following account
before the current one gets its new place. -/
def payInstalments : Nat → Option AccountName → Ledger → Except String Ledger
  | 0, _, L => .ok L
  | _, none, L => .ok L
  | fuel + 1, some account, L => do
    let a ← L.getAccount account
    if a.nextVestingWithdrawal ≤ L.props.time then do
      let following := ((L.accounts.entries.filter fun e =>
        ¬ withdrawalBefore e (account, a)).insertionSort withdrawalBefore).head?
      let L ← L.payInstalment account
      payInstalments fuel (following.map Prod.fst) L
    else .ok L

/-- The number of instalments that can be due. -/
def dueInstalments (L : Ledger) : Nat :=
  ((L.accounts.entries.filter fun e => e.2.nextVestingWithdrawal ≤ L.props.time).map fun e =>
    (L.props.time - e.2.nextVestingWithdrawal) / vestingWithdrawIntervalSeconds + 1).sum

/-- `process_vesting_withdrawals`. -/
def processVestingWithdrawals (L : Ledger) : Except String Ledger :=
  L.payInstalments (L.dueInstalments + 1)
    ((L.accounts.entries.insertionSort withdrawalBefore).head?.map Prod.fst)

/-- What `clear_null_account_balance` removes. -/
structure Cleared where
  freezone : Int
  sbd : Int
  vests : Int

/-- The totals of `clear_null_account_balance`, given the value of the vesting shares. -/
def nullHoldings (a : Account) (vestingValue : Int) : Cleared where
  freezone := max a.balance 0 + max a.savingsBalance 0 +
    (if 0 < a.vestingShares then vestingValue else 0) + max a.rewardFreezoneBalance 0 +
    (if 0 < a.rewardVestingBalance then a.rewardVestingFreezone else 0)
  sbd := max a.sbd.balance 0 + max a.savingsSbd.balance 0 + max a.rewardSbdBalance 0
  vests := max a.vestingShares 0 + max a.rewardVestingBalance 0

/-- The account with all that it holds set to zero. -/
def emptied (a : Account) : Account :=
  { a with
    balance := 0
    savingsBalance := 0
    sbd := { a.sbd with balance := 0 }
    savingsSbd := { a.savingsSbd with balance := 0 }
    vestingShares := 0
    rewardFreezoneBalance := 0
    rewardSbdBalance := 0
    rewardVestingFreezone := 0
    rewardVestingBalance := 0 }

/-- Lower the vesting totals by the shares of the null account, and empty it if FREEZONE or SBD
are removed. -/
def removeHoldings (a : Account) (value : Int) (total : Cleared) (L : Ledger) : Ledger :=
  let L := if 0 < a.vestingShares then L.leaveVesting a.vestingShares value else L
  let L := if 0 < a.rewardVestingBalance then
      { L with props := { L.props with
        pendingRewardedVestingShares :=
          L.props.pendingRewardedVestingShares - a.rewardVestingBalance
        pendingRewardedVestingFreezone :=
          L.props.pendingRewardedVestingFreezone - a.rewardVestingFreezone } }
    else L
  if 0 < total.freezone ∨ 0 < total.sbd then L.setAccount nullAccount (emptied a) else L

/-- Lower the supplies by what has been removed. -/
def burn (total : Cleared) (L : Ledger) : Except String Ledger := do
  let L ← (if 0 < total.freezone then L.adjustSupply ⟨-total.freezone, .freezone⟩ false
    else .ok L)
  if 0 < total.sbd then L.adjustSupply ⟨-total.sbd, .sbd⟩ false else .ok L

/-- `clear_null_account_balance`. -/
def clearNullAccountBalance (L : Ledger) : Except String Ledger :=
  if ¬ L.HasHardfork 14 then .ok L
  else do
    let a ← L.getAccount nullAccount
    let value ← (if 0 < a.vestingShares then L.vestingValue a.vestingShares else .ok 0)
    let total := nullHoldings a value
    if total.freezone = 0 ∧ total.sbd = 0 ∧ total.vests = 0 then .ok L
    else (L.removeHoldings a value total).burn total

/-- The loop of `pay_reward_funds`: the funds with their shares and what was used. -/
def payRewardFunds (reward : Int) : List RewardFund → Int → Except String (List RewardFund × Int)
  | [], used => .ok ([], used)
  | fund :: rest, used => do
    let r := reward * fund.percentContentRewards / hundredPercent
    ensure (used + r ≤ reward) "used_rewards <= reward"
    let (rest, used) ← payRewardFunds reward rest (used + r)
    .ok ({ fund with rewardBalance := fund.rewardBalance + r } :: rest, used)

/-- `freezone_MAX_WITNESSES`. -/
def maxWitnesses : Int := 21

/-- The witness that is paid for a block, its weight and the normalization of the schedule. -/
structure ProducerPay where
  owner : AccountName
  weight : Nat
  normalization : Nat

/-- The rate of `process_funds`. -/
def inflationRate (headBlockNumber : Nat) : Int :=
  max (978 - (headBlockNumber / 250000 : Nat)) 95

/-- `freezone_100_PERCENT * freezone_BLOCKS_PER_YEAR`. -/
def inflationDivisor : Int := 10000 * (365 * 24 * 60 * 60 / 3)

/-- The part of `process_funds` for proposals: its value in SBD goes to the treasury. -/
def paySpsFund (spsFund : Int) (L : Ledger) : Except String (Ledger × Int) :=
  if spsFund = 0 then .ok (L, 0)
  else do
    let newSbd ← L.mulMedian ⟨spsFund, .freezone⟩
    let L ← L.adjustBalance treasuryAccount newSbd
    .ok (L, newSbd.amount)

/-- The FREEZONE that a block issues from hardfork 16 on. -/
def newFreezone (L : Ledger) : Int :=
  L.props.virtualSupply * inflationRate L.props.headBlockNumber / inflationDivisor

/-- Count what a block issues; the part for vesting goes to the vesting fund. -/
def countIssued (content vesting witness spsFund newSbd : Int) (L : Ledger) : Ledger :=
  { L with props := { L.props with
    totalVestingFundFreezone := L.props.totalVestingFundFreezone + vesting
    totalRewardFundFreezone :=
      L.props.totalRewardFundFreezone + (if L.HasHardfork 17 then 0 else content)
    currentSupply := L.props.currentSupply + (content + vesting + witness)
    currentSbdSupply := L.props.currentSbdSupply + newSbd
    virtualSupply := L.props.virtualSupply + (content + vesting + witness + spsFund) } }

/-- `process_funds` from hardfork 16 on. -/
def processFunds (pay : ProducerPay) (L : Ledger) : Except String Ledger := do
  let newFreezone := L.newFreezone
  let contentPercent : Int := if L.HasHardfork 21 then 6500 else 7500
  let spsPercent : Int := if L.HasHardfork 21 then 1000 else 0
  let (funds, contentReward) ←
    (if L.HasHardfork 17 then
      payRewardFunds (newFreezone * contentPercent / hundredPercent) L.rewardFunds 0
    else .ok (L.rewardFunds, newFreezone * contentPercent / hundredPercent))
  let vestingReward := newFreezone * 1500 / hundredPercent
  let spsFund := newFreezone * spsPercent / hundredPercent
  ensure (pay.normalization ≠ 0) "Division by zero."
  let witnessReward :=
    (newFreezone - contentReward - vestingReward - spsFund) * maxWitnesses * pay.weight /
      pay.normalization
  let (L, newSbd) ← { L with rewardFunds := funds }.paySpsFund spsFund
  (L.countIssued contentReward vestingReward witnessReward spsFund newSbd).createVesting pay.owner
    witnessReward false

/-- The rewards of a block before hardfork 16, which depend on the virtual supply. -/
structure EarlyRewards where
  content : Nat
  curation : Nat
  producer : Nat

/-- `process_funds` before hardfork 16; the producer is paid liquid until it holds shares and
again until miners are voted for. -/
def processEarlyFunds (owner : AccountName) (rewards : EarlyRewards) (L : Ledger) :
    Except String Ledger := do
  let a ← L.getAccount owner
  let L ← (if blocksPerDay * 30 ≤ L.props.headBlockNumber ∨ a.vestingShares = 0 then
      L.createVesting owner rewards.producer false
    else .ok (L.setAccount owner { a with balance := a.balance + rewards.producer }))
  let content : Int := rewards.content + rewards.curation
  let vesting : Int := if L.props.headBlockNumber < blocksPerDay * 7 then 0
    else (content + rewards.producer) * 9
  .ok { L with props := { L.props with
    totalVestingFundFreezone := L.props.totalVestingFundFreezone + vesting
    totalRewardFundFreezone := L.props.totalRewardFundFreezone + content
    currentSupply := L.props.currentSupply + (content + rewards.producer + vesting)
    virtualSupply := L.props.virtualSupply + (content + rewards.producer + vesting) } }

/-- Issue a reward: `pay_liquidity_reward` and the rewards of proofs of work, liquid or as
shares. -/
def payMinedReward (toAccount : AccountName) (reward : Nat) (asVesting : Bool) (L : Ledger) :
    Except String Ledger := do
  ensure (¬ L.HasHardfork 16) "pow rewards end with hardfork 16"
  let L ← L.adjustSupply ⟨reward, .freezone⟩ true
  if asVesting then L.createVesting toAccount reward false
  else L.adjustBalance toAccount ⟨reward, .freezone⟩

/-- Take a payment out of the fund for comments. The source adds up the payments of a block and
takes them out at its end. -/
def takeReward (claimed : Int) (L : Ledger) : Except String Ledger :=
  if L.HasHardfork 17 then
    match L.rewardFunds with
    | [] => .error "unknown key"
    | fund :: rest =>
      .ok { L with rewardFunds := { fund with rewardBalance :=
          fund.rewardBalance - claimed } :: rest }
  else
    .ok { L with props := { L.props with
      totalRewardFundFreezone := L.props.totalRewardFundFreezone - claimed } }

/-- The part of a payout that is paid in SBD as far as SBD is printed. -/
def sbdPart (tokens : Int) (percentFreezoneDollars : Nat) : Int :=
  tokens * percentFreezoneDollars / (2 * hundredPercent)

/-- The payment of a curator in `pay_curators`. -/
def payCurator (voter : AccountName) (claim : Nat) (L : Ledger) : Except String Ledger :=
  if claim = 0 then .ok L
  else do
    let L ← L.takeReward claim
    L.createVesting voter claim (decide (L.HasHardfork 17))

/-- The payment of the treasury as a beneficiary, in SBD. -/
def payTreasury (tokens : Int) (L : Ledger) : Except String Ledger := do
  let sbd ← L.mulMedian ⟨tokens, .freezone⟩
  let L ← L.adjustBalance treasuryAccount sbd
  let L ← L.adjustSupply ⟨-tokens, .freezone⟩ false
  L.adjustSupply sbd false

/-- What a beneficiary gets as vesting, `benefactor_vesting_freezone`. -/
def benefactorVesting (account : AccountName) (tokens : Int) (percentFreezoneDollars : Nat)
    (L : Ledger) : Int :=
  if L.HasHardfork 21 ∧ account = treasuryAccount then 0
  else if L.HasHardfork 20 then tokens - sbdPart tokens percentFreezoneDollars
  else tokens

/-- The payment of a beneficiary in `cashout_comment_helper`. -/
def payBeneficiary (account : AccountName) (tokens percentFreezoneDollars : Nat) (L : Ledger) :
    Except String Ledger := do
  ensure (percentFreezoneDollars ≤ hundredPercent) "Percent cannot exceed 100%"
  let L ← L.takeReward tokens
  let L ← (if L.HasHardfork 21 ∧ account = treasuryAccount then L.payTreasury tokens
    else if L.HasHardfork 20 then L.createSbd account (sbdPart tokens percentFreezoneDollars) true
    else .ok L)
  L.createVesting account (L.benefactorVesting account tokens percentFreezoneDollars)
    (decide (L.HasHardfork 17))

/-- The payment of the author in `cashout_comment_helper`. -/
def payAuthor (author : AccountName) (tokens percentFreezoneDollars : Nat) (L : Ledger) :
    Except String Ledger := do
  ensure (percentFreezoneDollars ≤ hundredPercent) "Percent cannot exceed 100%"
  let L ← L.takeReward tokens
  let L ← L.createSbd author (sbdPart tokens percentFreezoneDollars) (decide (L.HasHardfork 17))
  L.createVesting author (tokens - sbdPart tokens percentFreezoneDollars)
    (decide (L.HasHardfork 17))

/-- A proposal that is active: its receiver, votes and daily pay. -/
structure ActiveProposal where
  receiver : AccountName
  totalVotes : Nat
  dailyPay : Nat
  deriving DecidableEq

/-- The loop of `transfer_payments`. The ratio is computed with 32 bits, and its product with the
daily pay must fit in 64 bits. -/
def transferPayments (ratio : Nat) : List ActiveProposal → Int → Ledger → Except String Ledger
  | [], _, L => .ok L
  | p :: rest, budget, L =>
    if p.totalVotes = 0 then .ok L
    else do
      ensure (ratio * p.dailyPay < 2 ^ 64) "hi == 0"
      let periodPay : Int := (ratio * p.dailyPay / hundredPercent : Nat)
      let payment := min periodPay budget
      let L ← L.adjustBalance treasuryAccount ⟨-payment, .sbd⟩
      let L ← L.adjustBalance p.receiver ⟨payment, .sbd⟩
      if budget ≤ periodPay then .ok L else transferPayments ratio rest (budget - periodPay) L

/-- The seconds since the last budget. -/
def passedTimeSeconds (L : Ledger) : Nat := L.props.time - L.props.lastBudgetTime

/-- `calculate_maintenance_budget`: a hundredth of the treasury for each day. The 64-bit result is
read as a signed number. -/
def maintenanceBudget (treasury : Int) (L : Ledger) : Except String Int := do
  let budget := L.passedTimeSeconds * (treasury / 100) / 86400
  ensure (budget < 2 ^ 64) "hi == 0"
  .ok (budget.bmod (2 ^ 64))

/-- The ratio of `transfer_payments`: the days that passed, in hundredths of a percent. -/
def paymentRatio (L : Ledger) : Nat := L.passedTimeSeconds * hundredPercent % 2 ^ 32 / 86400

/-- `calculate_maintenance_budget` and `transfer_payments`. -/
def payProposals (proposals : List ActiveProposal) (L : Ledger) : Except String Ledger := do
  let treasury ← L.getAccount treasuryAccount
  let budget ← L.maintenanceBudget treasury.sbd.balance
  if budget = 0 then .ok L else L.transferPayments L.paymentRatio proposals budget

/-- `sps_processor::make_payments` for the active proposals in the order of their votes. -/
def makePayments (proposals : List ActiveProposal) (L : Ledger) : Except String Ledger :=
  if ¬ L.HasHardfork 21 ∨ L.props.time < L.props.nextMaintenanceTime then .ok L
  else do
    let L ← (if proposals = [] then .ok L else L.payProposals proposals)
    .ok { L with props := { L.props with
      nextMaintenanceTime := L.props.time + 3600
      lastBudgetTime := L.props.time } }

/-- `perform_vesting_share_split` of an account. -/
def splitShares (magnitude : Int) (a : Account) : Account :=
  { a with
    vestingShares := a.vestingShares * magnitude
    withdrawn := a.withdrawn * magnitude
    toWithdraw := a.toWithdraw * magnitude
    vestingWithdrawRate := if a.toWithdraw * magnitude / 104 = 0 then 1
      else a.toWithdraw * magnitude / 104 }

/-- `apply_hardfork` of the next hardfork, as far as it concerns the ledger. -/
def applyHardfork (L : Ledger) : Except String Ledger := do
  ensure (L.hardfork < numHardforks) "i <= freezone_NUM_HARDFORKS"
  let L := { L with hardfork := L.hardfork + 1 }
  if L.hardfork = 1 then
    .ok { L with
      accounts := L.accounts.map (splitShares 1000000)
      props := { L.props with totalVestingShares := L.props.totalVestingShares * 1000000 } }
  else if L.hardfork = 17 then
    .ok { L with
      rewardFunds := L.rewardFunds ++ [⟨hundredPercent, L.props.totalRewardFundFreezone⟩]
      props := { L.props with totalRewardFundFreezone := 0 } }
  else if L.hardfork = 21 then do
    let _ ← L.getAccount treasuryAccount
    .ok L
  else .ok L

/-- The head block moves on. -/
def advance (headBlockNumber time : Nat) (L : Ledger) : Except String Ledger := do
  ensure (L.props.headBlockNumber < headBlockNumber ∧ L.props.time < time)
    "blocks have increasing numbers and times"
  .ok { L with props := { L.props with headBlockNumber := headBlockNumber, time := time } }

end Ledger

/-- The steps that a chain makes. -/
inductive LedgerStep
  | accountCreate (creator newAccountName : AccountName) (fee : Int)
  | claimAccount (creator : AccountName) (fee : Int)
  | transfer (fromAccount toAccount : AccountName) (amount : Asset Liquid)
  | transferToVesting (fromAccount : AccountName) (toAccount : Option AccountName) (amount : Int)
  | withdrawVesting (account : AccountName) (vestingShares : Int)
  | setWithdrawVestingRoute (fromAccount toAccount : AccountName) (percent : Nat) (autoVest : Bool)
  | convert (owner : AccountName) (requestid : Nat) (amount : Int)
  | transferToSavings (fromAccount toAccount : AccountName) (amount : Asset Liquid)
  | transferFromSavings (fromAccount : AccountName) (requestId : Nat) (toAccount : AccountName)
      (amount : Asset Liquid)
  | cancelTransferFromSavings (fromAccount : AccountName) (requestId : Nat)
  | claimRewardBalance (account : AccountName) (rewardFreezone rewardSbd rewardVests : Int)
  | payProposalFee (creator : AccountName)
  | limitOrderCreate (o : LimitOrderCreate)
  | limitOrderCreate2 (o : LimitOrderCreate2)
  | limitOrderCancel (owner : AccountName) (orderid : Nat)
  | escrowTransfer (o : EscrowTransfer)
  | escrowApprove (o : EscrowApprove)
  | escrowDispute (o : EscrowDispute)
  | escrowRelease (o : EscrowRelease)
  | delegate (account : AccountName) (delegatedVestingShares : Int)
  | advance (headBlockNumber time : Nat)
  | setMedian (median : Price Liquid)
  | setInterestRate (sbdInterestRate : Nat)
  | updateVirtualSupply
  | clearExpiredOrders
  | clearNullAccountBalance
  | processFunds (pay : Ledger.ProducerPay)
  | processEarlyFunds (owner : AccountName) (rewards : Ledger.EarlyRewards)
  | processConversions
  | payCurator (voter : AccountName) (claim : Nat)
  | payBeneficiary (account : AccountName) (tokens percentFreezoneDollars : Nat)
  | payAuthor (author : AccountName) (tokens percentFreezoneDollars : Nat)
  | processVestingWithdrawals
  | processSavingsWithdraws
  | payMinedReward (toAccount : AccountName) (reward : Nat) (asVesting : Bool)
  | expireEscrowRatification
  | makePayments (proposals : List Ledger.ActiveProposal)
  | applyHardfork

namespace Ledger

/-- Change an account's delegated shares, which no other step does. -/
def delegate (account : AccountName) (delegatedVestingShares : Int) (L : Ledger) :
    Except String Ledger := do
  let a ← L.getAccount account
  .ok (L.setAccount account { a with delegatedVestingShares := delegatedVestingShares })

/-- Make a step. The virtual supply is brought up to date in each block before funds are
processed. -/
def apply (step : LedgerStep) (L : Ledger) : Except String Ledger :=
  match step with
  | .accountCreate creator name fee => L.accountCreate creator name fee
  | .claimAccount creator fee => L.claimAccount creator fee
  | .transfer fromAccount toAccount amount => L.transfer fromAccount toAccount amount
  | .transferToVesting fromAccount toAccount amount =>
    L.transferToVesting fromAccount toAccount amount
  | .withdrawVesting account shares => L.withdrawVesting account shares
  | .setWithdrawVestingRoute fromAccount toAccount percent autoVest =>
    L.setWithdrawVestingRoute fromAccount toAccount percent autoVest
  | .convert owner requestid amount => L.convert owner requestid amount
  | .transferToSavings fromAccount toAccount amount =>
    L.transferToSavings fromAccount toAccount amount
  | .transferFromSavings fromAccount requestId toAccount amount =>
    L.transferFromSavings fromAccount requestId toAccount amount
  | .cancelTransferFromSavings fromAccount requestId =>
    L.cancelTransferFromSavings fromAccount requestId
  | .claimRewardBalance account freezone sbd vests =>
    L.claimRewardBalance account freezone sbd vests
  | .payProposalFee creator => L.payProposalFee creator
  | .limitOrderCreate o => L.limitOrderCreate o
  | .limitOrderCreate2 o => L.limitOrderCreate2 o
  | .limitOrderCancel owner orderid => L.cancelOrder (owner, orderid)
  | .escrowTransfer o => L.escrowTransfer o
  | .escrowApprove o => L.escrowApprove o
  | .escrowDispute o => L.escrowDispute o
  | .escrowRelease o => L.escrowRelease o
  | .delegate account shares => L.delegate account shares
  | .advance number time => L.advance number time
  | .setMedian median => .ok { L with currentMedianHistory := some median }
  | .setInterestRate rate => .ok { L with props := { L.props with sbdInterestRate := rate } }
  | .updateVirtualSupply => L.updateVirtualSupply
  | .clearExpiredOrders => L.clearExpiredOrders
  | .clearNullAccountBalance => L.clearNullAccountBalance
  | .processFunds pay => do
    ensure (L.HasHardfork 16) "process_funds from hardfork 16 on"
    let L ← L.updateVirtualSupply
    L.processFunds pay
  | .processEarlyFunds owner rewards => do
    ensure (¬ L.HasHardfork 16) "process_funds before hardfork 16"
    L.processEarlyFunds owner rewards
  | .processConversions => L.processConversions
  | .payCurator voter claim => L.payCurator voter claim
  | .payBeneficiary account tokens percent => L.payBeneficiary account tokens percent
  | .payAuthor author tokens percent => L.payAuthor author tokens percent
  | .processVestingWithdrawals => L.processVestingWithdrawals
  | .processSavingsWithdraws => L.processSavingsWithdraws
  | .payMinedReward toAccount reward asVesting => L.payMinedReward toAccount reward asVesting
  | .expireEscrowRatification => L.expireEscrowRatification
  | .makePayments proposals => L.makePayments proposals
  | .applyHardfork => L.applyHardfork

/-- The ledger after a step, which stays as it was if the step throws. -/
def afterStep (L : Ledger) (step : LedgerStep) : Ledger :=
  match L.apply step with
  | .ok L' => L'
  | .error _ => L

/-- The ledger after a sequence of steps. -/
def run (steps : List LedgerStep) (L : Ledger) : Ledger := steps.foldl afterStep L

end Ledger

end Freezone.Chain.Funds
