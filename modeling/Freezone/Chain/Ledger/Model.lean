import Freezone.Core.Table
import Freezone.Protocol.Asset

/-!
# The ledger

The objects that hold FREEZONE, SBD and vesting shares, the global properties that
count them, and the functions of the database through which operations and block
processing change them. Tokens other than these do not exist: none can be created
before hardfork 23, and the main chain has 22.

Amounts are unbounded; so an exception of the 64-bit arithmetic is not modelled.
Virtual operations, manabars and witness votes are left out, and account names are
numbers in the order of the names.
-/

namespace Freezone.Chain.Funds

open Protocol

/-- Account names. -/
abbrev AccountName := Nat

/-- `freezone_NULL_ACCOUNT`. -/
def nullAccount : AccountName := 0

/-- `freezone_TREASURY_ACCOUNT`. -/
def treasuryAccount : AccountName := 1

/-- `freezone_INIT_MINER_NAME`. -/
def initMinerAccount : AccountName := 2

/-- `freezone_MINER_ACCOUNT`. -/
def minerAccount : AccountName := 3

/-- `freezone_TEMP_ACCOUNT`. -/
def tempAccount : AccountName := 4

/-- `freezone_NUM_HARDFORKS`. -/
def numHardforks : Nat := 22

/-- `time_point_sec::maximum()`. -/
def maximumTime : Nat := 2 ^ 32 - 1

/-- `freezone_SECONDS_PER_YEAR`. -/
def secondsPerYear : Int := 60 * 60 * 24 * 365

/-- `freezone_SBD_INTEREST_COMPOUND_INTERVAL_SEC`. -/
def sbdInterestCompoundInterval : Nat := 60 * 60 * 24 * 30

/-- `freezone_BLOCKS_PER_DAY`. -/
def blocksPerDay : Nat := 24 * 60 * 60 / 3

/-- A part of the whole in hundredths of a percent. -/
abbrev Percent := { n : Nat // n ≤ hundredPercent }

/-- The percentage nearest to a number. -/
def Percent.clamp (n : Nat) : Percent := ⟨min n hundredPercent, Nat.min_le_right _ _⟩

/-- An SBD balance that bears interest: `sbd_balance`, `sbd_seconds`,
`sbd_seconds_last_update` and `sbd_last_interest_payment`, or their `savings_` versions. -/
structure SbdHolding where
  balance : Int := 0
  seconds : Int := 0
  secondsLastUpdate : Nat := 0
  lastInterestPayment : Nat := 0
  deriving DecidableEq

/-- `account_object`. -/
structure Account where
  balance : Int := 0
  sbd : SbdHolding := {}
  savingsBalance : Int := 0
  savingsSbd : SbdHolding := {}
  savingsWithdrawRequests : Nat := 0
  rewardFreezoneBalance : Int := 0
  rewardSbdBalance : Int := 0
  rewardVestingBalance : Int := 0
  rewardVestingFreezone : Int := 0
  vestingShares : Int := 0
  delegatedVestingShares : Int := 0
  vestingWithdrawRate : Int := 0
  nextVestingWithdrawal : Nat := maximumTime
  withdrawn : Int := 0
  toWithdraw : Int := 0
  withdrawRoutes : Nat := 0
  deriving DecidableEq

/-- `convert_request_object`; the amount is SBD. -/
structure ConvertRequest where
  amount : Int
  conversionDate : Nat

/-- `limit_order_object`. -/
structure LimitOrder where
  created : Nat
  expiration : Nat
  forSale : Int
  sellPrice : Price Liquid

/-- `escrow_object`. -/
structure Escrow where
  id : Nat
  toAccount : AccountName
  agent : AccountName
  ratificationDeadline : Nat
  escrowExpiration : Nat
  sbdBalance : Int
  freezoneBalance : Int
  pendingFee : Asset Liquid
  toApproved : Bool := false
  agentApproved : Bool := false
  disputed : Bool := false

/-- `savings_withdraw_object`. -/
structure SavingsWithdraw where
  toAccount : AccountName
  amount : Asset Liquid
  complete : Nat

/-- `withdraw_vesting_route_object`. -/
structure WithdrawVestingRoute where
  percent : Nat
  autoVest : Bool

/-- `reward_fund_object`. -/
structure RewardFund where
  percentContentRewards : Nat
  rewardBalance : Int

/-- What happens to an escrow. The database keeps no such record. -/
inductive EscrowEvent
  | deposited (fromAccount toAccount agent : AccountName) (freezoneAmount sbdAmount : Int)
      (fee : Asset Liquid)
  | approved (who : AccountName)
  | rejected (who : AccountName)
  | expired
  | disputed (who : AccountName)
  | feePaid (receiver : AccountName) (amount : Asset Liquid)
  | refunded (receiver : AccountName) (amount : Asset Liquid)
  | released (who receiver : AccountName) (amount : Asset Liquid)
  deriving DecidableEq

/-- `dynamic_global_property_object`. -/
structure Properties where
  headBlockNumber : Nat := 0
  time : Nat := 0
  currentSupply : Int := 0
  currentSbdSupply : Int := 0
  initSbdSupply : Int := 0
  virtualSupply : Int := 0
  totalVestingFundFreezone : Int := 0
  totalVestingShares : Int := 0
  totalRewardFundFreezone : Int := 0
  pendingRewardedVestingShares : Int := 0
  pendingRewardedVestingFreezone : Int := 0
  sbdInterestRate : Nat := 0
  sbdPrintRate : Percent := ⟨hundredPercent, le_rfl⟩
  nextMaintenanceTime : Nat := 0
  lastBudgetTime : Nat := 0

/-- The objects of the database that hold or count funds, with the record of the escrows. -/
structure Ledger where
  hardfork : Nat := 0
  props : Properties := {}
  currentMedianHistory : Option (Price Liquid) := none
  accounts : Table AccountName Account := Table.empty
  convertRequests : Table (AccountName × Nat) ConvertRequest := Table.empty
  limitOrders : Table (AccountName × Nat) LimitOrder := Table.empty
  escrows : Table (AccountName × Nat) Escrow := Table.empty
  savingsWithdraws : Table (AccountName × Nat) SavingsWithdraw := Table.empty
  withdrawRoutes : Table (AccountName × AccountName) WithdrawVestingRoute := Table.empty
  rewardFunds : List RewardFund := []
  nextEscrowId : Nat := 0
  escrowLog : List (Nat × EscrowEvent) := []

/-- The error of a `create` under a key that is taken. -/
def uniqueness : String :=
  "could not insert object, most likely a uniqueness constraint was violated"

namespace SbdHolding

/-- The interest of `modify_balance` and `adjust_savings_balance`: the balance is weighted with
the time since the last change, and the sum compounds at most once a month. -/
def accrue (now rate : Nat) (h : SbdHolding) : SbdHolding × Option Int :=
  if h.secondsLastUpdate = now then (h, none)
  else
    let seconds := h.seconds + h.balance * (now - h.secondsLastUpdate : Nat)
    if 0 < seconds ∧ sbdInterestCompoundInterval < now - h.lastInterestPayment then
      let interest := seconds / secondsPerYear * rate / hundredPercent
      (⟨h.balance + interest, 0, now, now⟩, some interest)
    else (⟨h.balance, seconds, now, h.lastInterestPayment⟩, none)

/-- Add to the balance. -/
def add (d : Int) (h : SbdHolding) : SbdHolding := { h with balance := h.balance + d }

end SbdHolding

namespace Account

/-- `get_balance`. -/
def getBalance (a : Account) : Liquid → Int
  | .freezone => a.balance
  | .sbd => a.sbd.balance

/-- `get_savings_balance`. -/
def getSavingsBalance (a : Account) : Liquid → Int
  | .freezone => a.savingsBalance
  | .sbd => a.savingsSbd.balance

end Account

namespace Ledger

/-- `has_hardfork`. -/
def HasHardfork (L : Ledger) (n : Nat) : Prop := n ≤ L.hardfork

instance (L : Ledger) (n : Nat) : Decidable (L.HasHardfork n) :=
  inferInstanceAs (Decidable (n ≤ L.hardfork))

/-- `get_account`. -/
def getAccount (name : AccountName) (L : Ledger) : Except String Account :=
  orThrow "unknown key" (L.accounts.find? name)

def setAccount (name : AccountName) (a : Account) (L : Ledger) : Ledger :=
  { L with accounts := L.accounts.set name a }

/-- What a product with the null price throws: both sides of that price are FREEZONE. -/
def nullPriceText : Liquid → String
  | .freezone => "b.base.amount.value > 0"
  | .sbd => "invalid asset * price"

/-- The product with the median price of the feeds; it throws while that is null. -/
def mulMedian (a : Asset Liquid) (L : Ledger) : Except String (Asset Liquid) :=
  match L.currentMedianHistory with
  | none => .error (nullPriceText a.symbol)
  | some p => a.mul p

/-- The exact product with the median price of the feeds, for the virtual supply, which is brought
up to date before it is read. -/
def medianValue (a : Asset Liquid) (L : Ledger) : Except String (Asset Liquid) :=
  match L.currentMedianHistory with
  | none => .error (nullPriceText a.symbol)
  | some p => a.quotient p

/-- Count the interest that a holding has been paid. -/
def payInterest (paid : Option Int) (L : Ledger) : Except String Ledger :=
  match paid with
  | none => .ok L
  | some interest => do
    let value ← L.medianValue ⟨interest, .sbd⟩
    .ok { L with props := { L.props with
      currentSbdSupply := L.props.currentSbdSupply + interest
      virtualSupply := L.props.virtualSupply + value.amount } }

/-- `adjust_balance` for a liquid currency. -/
def adjustBalance (name : AccountName) (delta : Asset Liquid) (L : Ledger) :
    Except String Ledger := do
  let a ← L.getAccount name
  ensure (0 ≤ delta.amount ∨ -delta.amount ≤ a.getBalance delta.symbol)
    ("Account ${acc} does not have sufficient funds for balance adjustment. " ++
      "Required: ${r}, Available: ${a}")
  match delta.symbol with
  | .freezone => do
    ensure (L.HasHardfork 20 → 0 ≤ a.balance + delta.amount) "Insufficient freezone funds"
    .ok (L.setAccount name { a with balance := a.balance + delta.amount })
  | .sbd => do
    let sbd := a.sbd.accrue L.props.time L.props.sbdInterestRate
    let L ← L.payInterest sbd.2
    ensure (L.HasHardfork 20 → 0 ≤ sbd.1.balance + delta.amount) "Insufficient SBD funds"
    .ok (L.setAccount name { a with sbd := sbd.1.add delta.amount })

/-- `adjust_balance` for vesting shares. -/
def adjustVests (name : AccountName) (delta : Int) (L : Ledger) : Except String Ledger := do
  let a ← L.getAccount name
  -- a negative amount is looked up with get_balance, which does not know the symbol
  ensure (0 ≤ delta) "Invalid symbol: ${s}"
  ensure (L.HasHardfork 20 → 0 ≤ a.vestingShares + delta) "Insufficient VESTS funds"
  .ok (L.setAccount name { a with vestingShares := a.vestingShares + delta })

/-- `adjust_savings_balance`. -/
def adjustSavingsBalance (name : AccountName) (delta : Asset Liquid) (L : Ledger) :
    Except String Ledger := do
  let a ← L.getAccount name
  match delta.symbol with
  | .freezone => do
    ensure (L.HasHardfork 20 → 0 ≤ a.savingsBalance + delta.amount)
      "Insufficient savings freezone funds"
    .ok (L.setAccount name { a with savingsBalance := a.savingsBalance + delta.amount })
  | .sbd => do
    let sbd := a.savingsSbd.accrue L.props.time L.props.sbdInterestRate
    let L ← L.payInterest sbd.2
    ensure (L.HasHardfork 20 → 0 ≤ sbd.1.balance + delta.amount) "Insufficient savings SBD funds"
    .ok (L.setAccount name { a with savingsSbd := sbd.1.add delta.amount })

/-- `adjust_reward_balance`: a FREEZONE value without shares is a liquid reward. -/
def adjustRewardBalance (name : AccountName) (value : Asset Liquid) (shares : Int) (L : Ledger) :
    Except String Ledger := do
  let a ← L.getAccount name
  match value.symbol with
  | .freezone =>
    if shares = 0 then do
      ensure (L.HasHardfork 20 → 0 ≤ a.rewardFreezoneBalance + value.amount)
        "Insufficient reward freezone funds"
      .ok (L.setAccount name
        { a with rewardFreezoneBalance := a.rewardFreezoneBalance + value.amount })
    else do
      ensure (L.HasHardfork 20 → 0 ≤ a.rewardVestingBalance + shares)
        "Insufficient reward VESTS funds"
      .ok (L.setAccount name { a with
        rewardVestingFreezone := a.rewardVestingFreezone + value.amount
        rewardVestingBalance := a.rewardVestingBalance + shares })
  | .sbd => do
    ensure (shares = 0) "share_delta.amount.value == 0"
    ensure (L.HasHardfork 20 → 0 ≤ a.rewardSbdBalance + value.amount)
      "Insufficient reward SBD funds"
    .ok (L.setAccount name { a with rewardSbdBalance := a.rewardSbdBalance + value.amount })

/-- `adjust_supply`. -/
def adjustSupply (delta : Asset Liquid) (adjustVesting : Bool) (L : Ledger) :
    Except String Ledger :=
  match delta.symbol with
  | .freezone => do
    let newVesting : Int :=
      if adjustVesting ∧ blocksPerDay * 7 ≤ L.props.headBlockNumber ∧ 0 < delta.amount then
        delta.amount * 9
      else 0
    let supply := L.props.currentSupply + (delta.amount + newVesting)
    ensure (L.HasHardfork 20 → 0 ≤ supply) "props.current_supply.amount.value >= 0"
    .ok { L with props := { L.props with
      currentSupply := supply
      virtualSupply := L.props.virtualSupply + (delta.amount + newVesting)
      totalVestingFundFreezone := L.props.totalVestingFundFreezone + newVesting } }
  | .sbd => do
    let supply := L.props.currentSbdSupply + delta.amount
    let value ← L.medianValue ⟨supply, .sbd⟩
    ensure (L.HasHardfork 20 → 0 ≤ supply) "props.current_sbd_supply.amount.value >= 0"
    .ok { L with props := { L.props with
      currentSbdSupply := supply
      virtualSupply := value.amount + L.props.currentSupply } }

/-- `get_vesting_share_price`. -/
def vestingSharePrice (L : Ledger) : Except String (Price Stake) :=
  if L.props.totalVestingFundFreezone = 0 ∨ L.props.totalVestingShares = 0 then
    Price.make ⟨1000, .freezone⟩ ⟨1000000, .vests⟩
  else
    Price.make ⟨L.props.totalVestingShares, .vests⟩ ⟨L.props.totalVestingFundFreezone, .freezone⟩

/-- `get_reward_vesting_share_price`. -/
def rewardVestingSharePrice (L : Ledger) : Except String (Price Stake) :=
  Price.make
    ⟨L.props.totalVestingShares + L.props.pendingRewardedVestingShares, .vests⟩
    ⟨L.props.totalVestingFundFreezone + L.props.pendingRewardedVestingFreezone, .freezone⟩

/-- The value in FREEZONE of vesting shares, which is at most the fund and so needs no wrapping. -/
def vestingValue (shares : Int) (L : Ledger) : Except String Int := do
  let price ← L.vestingSharePrice
  let value ← (⟨shares, .vests⟩ : Asset Stake).quotient price
  .ok value.amount

/-- `create_vesting2`. -/
def createVesting (toAccount : AccountName) (liquid : Int) (toRewardBalance : Bool) (L : Ledger) :
    Except String Ledger := do
  let price ← (if toRewardBalance then L.rewardVestingSharePrice else L.vestingSharePrice)
  let newVesting ← (⟨liquid, .freezone⟩ : Asset Stake).mul price
  if toRewardBalance then do
    let L ← L.adjustRewardBalance toAccount ⟨liquid, .freezone⟩ newVesting.amount
    .ok { L with props := { L.props with
      pendingRewardedVestingShares := L.props.pendingRewardedVestingShares + newVesting.amount
      pendingRewardedVestingFreezone := L.props.pendingRewardedVestingFreezone + liquid } }
  else do
    let L ← L.adjustVests toAccount newVesting.amount
    .ok { L with props := { L.props with
      totalVestingFundFreezone := L.props.totalVestingFundFreezone + liquid
      totalVestingShares := L.props.totalVestingShares + newVesting.amount } }

/-- The payment of `create_sbd`, to the rewards or to the balance of an account. -/
def paySbd (toAccount : AccountName) (sbd freezone : Asset Liquid) (toRewardBalance : Bool)
    (L : Ledger) : Except String Ledger :=
  if toRewardBalance then do
    let L ← L.adjustRewardBalance toAccount sbd 0
    L.adjustRewardBalance toAccount freezone 0
  else do
    let L ← L.adjustBalance toAccount sbd
    L.adjustBalance toAccount freezone

/-- `create_sbd`: what is paid in SBD leaves the supply of FREEZONE. -/
def createSbd (toAccount : AccountName) (freezone : Int) (toRewardBalance : Bool) (L : Ledger) :
    Except String Ledger :=
  if freezone = 0 then .ok L
  else match L.currentMedianHistory with
  | none => L.adjustBalance toAccount ⟨freezone, .freezone⟩
  | some median => do
    let toSbd := L.props.sbdPrintRate.1 * freezone / hundredPercent
    let sbd ← (⟨toSbd, .freezone⟩ : Asset Liquid).mul median
    let L ← L.paySbd toAccount sbd ⟨freezone - toSbd, .freezone⟩ toRewardBalance
    let L ← L.adjustSupply ⟨-toSbd, .freezone⟩ false
    L.adjustSupply sbd false

/-- `update_virtual_supply`. -/
def updateVirtualSupply (L : Ledger) : Except String Ledger :=
  match L.currentMedianHistory with
  | none => .ok { L with props := { L.props with virtualSupply := L.props.currentSupply } }
  | some median => do
    let value ← (⟨L.props.currentSbdSupply, .sbd⟩ : Asset Liquid).mul median
    let virtualSupply := L.props.currentSupply + value.amount
    let L := { L with props := { L.props with virtualSupply := virtualSupply } }
    if L.HasHardfork 14 then do
      ensure (virtualSupply ≠ 0) "Division by zero."
      let half := if L.HasHardfork 21 then virtualSupply.tdiv 2 else 0
      -- negative numbers count as unsigned numbers of 128 bits
      let percentSbd :=
        (value.amount * hundredPercent + half) % 2 ^ 128 / (virtualSupply % 2 ^ 128)
      ensure (percentSbd < 2 ^ 64) "hi == 0"
      let percentSbd := percentSbd.toNat % 2 ^ 16
      let startPercent := if L.HasHardfork 20 then 900 else 200
      let stopPercent := if L.HasHardfork 20 then 1000 else 500
      let rate :=
        if percentSbd ≤ startPercent then hundredPercent
        else if stopPercent ≤ percentSbd then 0
        else (stopPercent - percentSbd) * hundredPercent / (stopPercent - startPercent)
      .ok { L with props := { L.props with sbdPrintRate := Percent.clamp rate } }
    else .ok L

theorem genesisNames_nodup :
    [minerAccount, nullAccount, tempAccount, initMinerAccount].Nodup := by decide

/-- The accounts of `init_genesis`. -/
def genesisAccounts (initSupply sbdInitSupply : Nat) : Table AccountName Account :=
  ⟨[(minerAccount, {}), (nullAccount, {}), (tempAccount, {}),
    (initMinerAccount, { balance := initSupply, sbd := { balance := sbdInitSupply } })],
    genesisNames_nodup⟩

/-- `init_genesis`. On the main chain both supplies are zero. -/
def genesis (time initSupply sbdInitSupply : Nat) : Ledger where
  props := {
    time := time
    currentSupply := initSupply
    initSbdSupply := sbdInitSupply
    virtualSupply := initSupply
    nextMaintenanceTime := time
    lastBudgetTime := time }
  accounts := genesisAccounts initSupply sbdInitSupply

end Ledger

end Freezone.Chain.Funds
