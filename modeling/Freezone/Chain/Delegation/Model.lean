import Freezone.Core.Safe
import Freezone.Core.TimedQueue
import Freezone.Protocol.Price
import Freezone.Chain.Delegation.Manabar
import Freezone.Chain.Ledger.Operations

/-!
# Delegations and power-downs of vesting shares

The functions of the database that delegate vesting shares, return them and power
them down, for VESTS and for every token. An account and the vesting symbol of a
token stand for the account's balance object of that token; the account object is
under VESTS.

Liquid balances are left out, and so are the exceptions of their arithmetic. Votes,
rewards and deposits enter as what they do to shares and manabars.
-/

namespace Freezone.Chain.Delegation

open Protocol
open Funds (AccountName nullAccount minerAccount tempAccount initMinerAccount maximumTime uniqueness
  vestingWithdrawIntervalSeconds WithdrawVestingRoute)

/-- `freezone_VOTING_MANA_REGENERATION_SECONDS`. -/
def votingManaRegenerationSeconds : Nat := 5 * 60 * 60 * 24

/-- `freezone_DELEGATION_RETURN_PERIOD_HF0`. -/
def delegationReturnPeriodHf0 : Nat := 60 * 60 * 24 * 7

/-- `freezone_DELEGATION_RETURN_PERIOD_HF20`. -/
def delegationReturnPeriodHf20 : Nat := votingManaRegenerationSeconds

/-- `freezone_CREATE_ACCOUNT_WITH_freezone_MODIFIER`. -/
def createAccountWithFreezoneModifier : Int := 30

/-- `freezone_CREATE_ACCOUNT_DELEGATION_RATIO`. -/
def createAccountDelegationRatio : Int := 5

/-- `freezone_CREATE_ACCOUNT_DELEGATION_TIME`. -/
def createAccountDelegationTime : Nat := 30 * 24 * 60 * 60

/-- `freezone_DOWNVOTE_POOL_PERCENT_HF21`. -/
def downvotePoolPercentHf21 : Nat := 2500

/-- `freezone_GENESIS_TIME`. -/
def genesisTime : Nat := 1458835200

/-- `freezone_NUM_HARDFORKS` with tokens. -/
def numHardforks : Nat := 23

/-- The factor of the split of vesting shares in hardfork 1. -/
def splitMagnitude : Int := 1000000

/-- `time_point_sec` has 32 bits. -/
def wrapTime (seconds : Nat) : Nat := seconds % 2 ^ 32

/-- An account under the symbol of vesting shares. -/
abbrev HolderKey := AccountName × AssetSymbol

/-- The key of `by_delegation`. -/
structure DelegationKey where
  delegator : AccountName
  delegatee : AccountName
  symbol : AssetSymbol
  deriving DecidableEq

/-- The balance from which a delegation comes. -/
def DelegationKey.source (k : DelegationKey) : HolderKey := (k.delegator, k.symbol)

/-- The balance to which a delegation goes. -/
def DelegationKey.target (k : DelegationKey) : HolderKey := (k.delegatee, k.symbol)

/-- `vesting_delegation_object`. -/
structure VestingDelegation where
  vestingShares : Int
  minDelegationTime : Nat

/-- `vesting_delegation_expiration_object`; the expiration is its time in the queue. -/
structure DelegationExpiration where
  delegator : AccountName
  symbol : AssetSymbol
  vestingShares : Int

/-- The balance to which the shares of an expiration return. -/
def DelegationExpiration.source (x : DelegationExpiration) : HolderKey := (x.delegator, x.symbol)

/-- The vesting shares with what the functions on them read; a token has its period of
regeneration under the symbol of its vesting shares. -/
structure Registry where
  hardfork : Nat := 0
  time : Nat
  downvotePoolPercent : Nat := 0
  delegationReturnPeriod : Nat := delegationReturnPeriodHf0
  accountCreationFee : Int := 1
  totalVestingFundFreezone : Int := 0
  totalVestingShares : Int := 0
  tokens : Table AssetSymbol Nat := Table.empty
  routes : Table (AccountName × AccountName) WithdrawVestingRoute := Table.empty
  holders : Table HolderKey VestingAccount := Table.empty
  delegations : Table DelegationKey VestingDelegation := Table.empty
  expirations : TimedQueue DelegationExpiration := TimedQueue.empty

namespace Registry

/-- `has_hardfork`. -/
def HasHardfork (S : Registry) (n : Nat) : Prop := n ≤ S.hardfork

instance (S : Registry) (n : Nat) : Decidable (S.HasHardfork n) :=
  inferInstanceAs (Decidable (n ≤ S.hardfork))

/-- `get_account` and `get` of a balance object. -/
def getHolder (k : HolderKey) (S : Registry) : Except String VestingAccount :=
  orThrow "unknown key" (S.holders.find? k)

def setHolder (k : HolderKey) (a : VestingAccount) (S : Registry) : Registry :=
  { S with holders := S.holders.set k a }

/-- `create` of an account or a balance object. -/
def createHolder (k : HolderKey) (a : VestingAccount) (S : Registry) : Except String Registry := do
  let holders ← orThrow uniqueness (S.holders.insert k a)
  .ok { S with holders := holders }

/-- `dynamic_global_property_object::get_vesting_share_price`. -/
def vestingSharePrice (S : Registry) : Except String (Price AssetSymbol) :=
  if S.totalVestingFundFreezone = 0 ∨ S.totalVestingShares = 0 then
    Price.make ⟨1000, .freezone⟩ ⟨1000000, .vests⟩
  else Price.make ⟨S.totalVestingShares, .vests⟩ ⟨S.totalVestingFundFreezone, .freezone⟩

/-- The vesting shares worth an amount of FREEZONE. -/
def worthOf (amount : Int) (S : Registry) : Except String Int := do
  let price ← S.vestingSharePrice
  let shares ← Asset.mul64 ⟨amount, .freezone⟩ price
  .ok shares.amount

/-- `update_manabar` with the global properties. -/
def updateManabar (regenSeconds : Nat) (newMana : Int) (S : Registry) (a : VestingAccount) :
    Except String VestingAccount :=
  a.updateManabar S.time S.downvotePoolPercent regenSeconds (S.HasHardfork 21) newMana

/-- `update_manabar` from a hardfork on. -/
def updateManabarSince (n regenSeconds : Nat) (newMana : Int) (S : Registry) (a : VestingAccount) :
    Except String VestingAccount :=
  if S.HasHardfork n then S.updateManabar regenSeconds newMana a else .ok a

/-- The shares that stand for an amount of downvote mana, in 64 bits before hardfork 22. -/
def downvoteShares (mana : Int) (S : Registry) : Int :=
  let whole := mana * hundredPercent
  (if S.HasHardfork 22 then whole else whole.bmod (2 ^ 64)).tdiv S.downvotePoolPercent +
    (hundredPercent / S.downvotePoolPercent : Nat) - 1

/-- `available_shares` and `available_downvote_shares` from hardfork 20 on. -/
def availableMana (maxMana : Int) (S : Registry) (a : VestingAccount) : Int × Int :=
  let voting := a.votingManabar.currentMana
  let downvote := if S.downvotePoolPercent = 0 then voting
    else S.downvoteShares a.downvoteManabar.currentMana
  let own := maxMana - a.receivedVestingShares
  -- mana leaves out this week's part of a power-down only
  let later := if a.nextVestingWithdrawal < maximumTime ∧
      a.vestingWithdrawRate < a.toWithdraw - a.withdrawn then
    a.weeklyWithdraw - (a.toWithdraw - a.withdrawn) else 0
  (min voting own + later, min downvote own + later)

/-- The beginning of `generic_delegate_vesting_shares_evaluator`: the delegator with its mana up to
date, and what it can delegate. -/
def refreshDelegator (k : HolderKey) (regenSeconds : Nat) (S : Registry) :
    Except String (Registry × Int × Int) := do
  let a ← S.getHolder k
  if S.HasHardfork 20 then do
    let maxMana := a.effectiveVestingShares
    let a ← S.updateManabar regenSeconds 0 a
    .ok (S.setHolder k a, S.availableMana maxMana a)
  else .ok (S, a.vestingShares - a.delegatedVestingShares - (a.toWithdraw - a.withdrawn), 0)

/-- `min_delegation` and `min_update`. -/
def minimums (symbol : AssetSymbol) (S : Registry) : Except String (Int × Int) :=
  if symbol = .vests then
    if S.HasHardfork 20 then do
      let minDelegation ← S.worthOf (S.accountCreationFee.tdiv 3)
      let minUpdate ← S.worthOf (S.accountCreationFee.tdiv 30)
      .ok (minDelegation, minUpdate)
    else do
      let minDelegation ← S.worthOf (S.accountCreationFee * 10)
      let minUpdate ← S.worthOf S.accountCreationFee
      .ok (minDelegation, minUpdate)
  else .ok (0, 0)

/-- The use of mana for shares that leave an account; the second number is that of downvote mana
from hardfork 21 to 22. -/
def spendMana (shares downvoteHf21 : Int) (S : Registry) (a : VestingAccount) : VestingAccount :=
  if S.HasHardfork 20 then
    { a with
      votingManabar := a.votingManabar.useMana shares
      downvoteManabar :=
        if S.HasHardfork 22 then
          a.downvoteManabar.useMana (shares * S.downvotePoolPercent / hundredPercent)
        else if S.HasHardfork 21 then a.downvoteManabar.useMana downvoteHf21
        else a.downvoteManabar }
  else a

/-- The accounts of a delegation that begins or increases. -/
def lendShares (k : DelegationKey) (delta : Int) (regenSeconds : Nat) (S : Registry) :
    Except String Registry := do
  let delegator ← S.getHolder k.source
  let S := S.setHolder k.source (S.spendMana delta delta
    { delegator with delegatedVestingShares := delegator.delegatedVestingShares + delta })
  let delegatee ← S.getHolder k.target
  let delegatee ← S.updateManabarSince 20 regenSeconds delta delegatee
  .ok (S.setHolder k.target
    { delegatee with receivedVestingShares := delegatee.receivedVestingShares + delta })

/-- The delegatee of a delegation that decreases to a number of shares. -/
def reclaimShares (k : DelegationKey) (delta shares : Int) (regenSeconds : Nat) (S : Registry) :
    Except String Registry := do
  let delegatee ← S.getHolder k.target
  let delegatee ← S.updateManabarSince 22 regenSeconds 0 delegatee
  .ok (S.setHolder k.target (S.spendMana delta shares
    { delegatee with receivedVestingShares := delegatee.receivedVestingShares - delta }))

/-- The text of a lack of mana. -/
def notEnoughMana : String :=
  "Account $\x7bacc\x7d does not have enough mana to delegate. " ++
    "required: $\x7br\x7d available: $\x7ba\x7d"

/-- The text of a lack of downvote mana. -/
def notEnoughDownvoteMana : String :=
  "Account $\x7bacc\x7d does not have enough downvote mana to delegate. required: $\x7br\x7d " ++
    "available: $\x7ba\x7d"

/-- The branch of a delegation that does not exist. -/
def createDelegation (k : DelegationKey) (shares : Int) (regenSeconds : Nat)
    (available availableDownvote minDelegation : Int) (S : Registry) : Except String Registry := do
  ensure (shares ≤ available) notEnoughMana
  ensure (S.HasHardfork 21 → shares ≤ availableDownvote) notEnoughDownvoteMana
  ensure (minDelegation ≤ shares) "Account must delegate a minimum of $\x7bv\x7d"
  let delegations ← orThrow uniqueness (S.delegations.insert k ⟨shares, S.time⟩)
  { S with delegations := delegations }.lendShares k shares regenSeconds

/-- The branch of a delegation that increases. -/
def increaseDelegation (k : DelegationKey) (d : VestingDelegation) (shares : Int)
    (regenSeconds : Nat) (available availableDownvote minUpdate : Int) (S : Registry) :
    Except String Registry := do
  let delta := shares - d.vestingShares
  ensure (minUpdate ≤ delta)
    "freezone Power increase is not enough of a difference. min_update: $\x7bmin\x7d"
  ensure (delta ≤ available) notEnoughMana
  ensure (S.HasHardfork 21 → delta ≤ availableDownvote) notEnoughDownvoteMana
  let S ← S.lendShares k delta regenSeconds
  .ok { S with delegations := S.delegations.set k { d with vestingShares := shares } }

/-- The branch of a delegation that decreases. -/
def decreaseDelegation (k : DelegationKey) (d : VestingDelegation) (shares : Int)
    (regenSeconds : Nat) (minDelegation minUpdate : Int) (S : Registry) :
    Except String Registry := do
  let delta := d.vestingShares - shares
  ensure (0 < shares → minUpdate ≤ delta)
    "freezone Power decrease is not enough of a difference. min_update: $\x7bmin\x7d"
  ensure (0 < shares → minDelegation ≤ shares)
    "Delegation must be removed or leave minimum delegation amount of $\x7bv\x7d"
  ensure (¬ 0 < shares → 0 < d.vestingShares)
    "Delegation would set vesting_shares to zero, but it is already zero"
  let expiration := max (wrapTime (S.time + S.delegationReturnPeriod)) d.minDelegationTime
  let S := { S with
    expirations := S.expirations.push ⟨k.delegator, k.symbol, delta⟩ expiration }
  let S ← S.reclaimShares k delta shares regenSeconds
  .ok { S with delegations :=
    if 0 < shares then S.delegations.set k { d with vestingShares := shares }
    else S.delegations.erase k }

/-- `generic_delegate_vesting_shares_evaluator`. -/
def genericDelegateVestingShares (k : DelegationKey) (shares : Int) (regenSeconds : Nat)
    (S : Registry) : Except String Registry := do
  let (S, available, availableDownvote) ← S.refreshDelegator k.source regenSeconds
  let (minDelegation, minUpdate) ← S.minimums k.symbol
  match S.delegations.find? k with
  | none => S.createDelegation k shares regenSeconds available availableDownvote minDelegation
  | some d =>
    if d.vestingShares ≤ shares then
      S.increaseDelegation k d shares regenSeconds available availableDownvote minUpdate
    else S.decreaseDelegation k d shares regenSeconds minDelegation minUpdate

/-- The balance of a delegatee, which is created if it is missing. -/
def ensureHolder (k : HolderKey) (S : Registry) : Except String Registry :=
  if (S.holders.find? k).isSome then .ok S else S.createHolder k {}

/-- `delegate_vesting_shares_evaluator` with the validation of the operation. The null account has
no keys to sign with. -/
def delegateVestingShares (k : DelegationKey) (shares : Int) (S : Registry) :
    Except String Registry := do
  ensure (k.delegator ≠ nullAccount) "missing required active authority"
  ensure (k.delegator ≠ k.delegatee) "You cannot delegate vesting shares to yourself."
  ensure k.symbol.isVesting "Delegation must be a vesting type."
  ensure (0 ≤ shares) "Delegation cannot be negative."
  if k.symbol.space = .legacySpace then do
    let _ ← S.getHolder k.source
    let _ ← S.getHolder k.target
    S.genericDelegateVestingShares k shares votingManaRegenerationSeconds
  else do
    let regenSeconds ← orThrow "unknown key" (S.tokens.find? k.symbol)
    ensure ((S.holders.find? k.source).isSome)
      "Account $\x7bacc\x7d does not have a balance for the given symbol. Symbol: $\x7bsym\x7d"
    let S ← S.ensureHolder k.target
    S.genericDelegateVestingShares k shares regenSeconds

/-- A new account, `initialize_account_object`. -/
def newAccount (S : Registry) : VestingAccount where
  votingManabar := ⟨if S.HasHardfork 20 then 0 else hundredPercent, S.time⟩
  downvoteManabar := ⟨0, S.time⟩

/-- The creation of an account. -/
def accountCreate (name : AccountName) (S : Registry) : Except String Registry :=
  S.createHolder (name, .vests) S.newAccount

/-- `account_create_with_delegation_evaluator` with the validation of the operation. -/
def accountCreateWithDelegation (creator name : AccountName) (fee delegation : Int)
    (S : Registry) : Except String Registry := do
  ensure (creator ≠ nullAccount) "missing required active authority"
  ensure (0 ≤ fee) "Account creation fee cannot be negative"
  ensure (0 ≤ delegation) "Delegation cannot be negative"
  ensure (¬ S.HasHardfork 20) "Account creation with delegation is deprecated as of Hardfork 20"
  let c ← S.getHolder (creator, .vests)
  ensure (delegation ≤ c.vestingShares - c.delegatedVestingShares - (c.toWithdraw - c.withdrawn))
    "Insufficient vesting shares to delegate to new account."
  let target ← S.worthOf (S.accountCreationFee * createAccountWithFreezoneModifier *
    createAccountDelegationRatio)
  let current ← S.worthOf (fee * createAccountDelegationRatio)
  ensure (target ≤ current + delegation)
    "Insufficient Delegation $\x7bf\x7d required, $\x7bp\x7d provided."
  ensure (S.accountCreationFee ≤ fee) "Insufficient Fee: $\x7bf\x7d required, $\x7bp\x7d provided."
  let S := S.setHolder (creator, .vests)
    { c with delegatedVestingShares := c.delegatedVestingShares + delegation }
  let S ← S.createHolder (name, .vests) { S.newAccount with receivedVestingShares := delegation }
  if 0 < delegation ∨ ¬ S.HasHardfork 19 then do
    let delegations ← orThrow uniqueness (S.delegations.insert ⟨creator, name, .vests⟩
      ⟨delegation, wrapTime (S.time + createAccountDelegationTime)⟩)
    .ok { S with delegations := delegations }
  else .ok S

/-- `generic_clear_expired_delegations`. -/
def returnShares (x : DelegationExpiration) (regenSeconds : Nat) (S : Registry) :
    Except String Registry := do
  let a ← S.getHolder x.source
  let a ← S.updateManabarSince 20 regenSeconds x.vestingShares a
  .ok (S.setHolder x.source
    { a with delegatedVestingShares := a.delegatedVestingShares - x.vestingShares })

/-- The period of regeneration of a token, or that of VESTS. -/
def regenerationPeriod (symbol : AssetSymbol) (S : Registry) : Except String Nat :=
  if symbol.space = .legacySpace then .ok votingManaRegenerationSeconds
  else orThrow "unknown key" (S.tokens.find? symbol)

/-- One round of the loop of `clear_expired_delegations`. -/
def clearDelegation (e : TimedEntry DelegationExpiration) (S : Registry) :
    Except String Registry := do
  let regenSeconds ← S.regenerationPeriod e.item.symbol
  let S ← S.returnShares e.item regenSeconds
  .ok { S with expirations := S.expirations.erase e.id }

/-- The loop of `clear_expired_delegations`. -/
def clearDelegations : Nat → Registry → Except String Registry
  | 0, S => .ok S
  | fuel + 1, S =>
    match S.expirations.first with
    | none => .ok S
    | some e =>
      if e.time < S.time then do
        let S ← S.clearDelegation e
        clearDelegations fuel S
      else .ok S

/-- `clear_expired_delegations`. -/
def clearExpiredDelegations (S : Registry) : Except String Registry :=
  S.clearDelegations S.expirations.entries.length

/-- The number of weeks of a power-down of VESTS. -/
def vestingWithdrawIntervals (S : Registry) : Int := if S.HasHardfork 16 then 13 else 104

/-- The weekly rate of a power-down, rounded up or down. -/
def withdrawRate (shares intervals : Int) (roundUp : Bool) : Int :=
  let rate := if shares / intervals = 0 then 1 else shares / intervals
  if roundUp ∧ rate * intervals < shares then rate + 1 else rate

/-- The end of a power-down by its owner. -/
def cancelWithdrawal (a : VestingAccount) : VestingAccount :=
  { a with
    vestingWithdrawRate := 0
    nextVestingWithdrawal := maximumTime
    toWithdraw := 0
    withdrawn := 0 }

/-- The beginning of a power-down. -/
def beginWithdrawal (shares rate : Int) (S : Registry) (a : VestingAccount) : VestingAccount :=
  { a with
    vestingWithdrawRate := rate
    nextVestingWithdrawal := wrapTime (S.time + vestingWithdrawIntervalSeconds)
    toWithdraw := shares
    withdrawn := 0 }

/-- The text of a power-down at the old rate. -/
def rateUnchanged : String := "This operation would not change the vesting withdraw rate."

/-- The branch of `withdraw_vesting_evaluator` for a token. -/
def withdrawToken (k : HolderKey) (shares : Int) (S : Registry) : Except String Registry := do
  ensure (S.HasHardfork 23)
    "Withdraw vesting operation for SSTs is not enabled until the SST hardfork."
  let a ← orThrow "Account does not have sufficient Token Power for withdrawal."
    (S.holders.find? k)
  ensure (shares ≤ a.vestingShares - a.delegatedVestingShares)
    "Account does not have sufficient Token Power for withdrawal."
  if shares = 0 then do
    ensure (a.vestingWithdrawRate ≠ 0) rateUnchanged
    .ok (S.setHolder k (cancelWithdrawal a))
  else do
    let rate := withdrawRate shares 13 true
    ensure (a.vestingWithdrawRate ≠ rate) rateUnchanged
    .ok (S.setHolder k (S.beginWithdrawal shares rate a))

/-- The branch of `withdraw_vesting_evaluator` for VESTS. -/
def withdrawVests (account : AccountName) (shares : Int) (S : Registry) :
    Except String Registry := do
  let a ← S.getHolder (account, .vests)
  ensure (0 ≤ a.vestingShares) "Account does not have sufficient freezone Power for withdraw."
  ensure (shares ≤ a.vestingShares - a.delegatedVestingShares)
    "Account does not have sufficient freezone Power for withdraw."
  if shares = 0 then do
    ensure (S.HasHardfork 5 → a.vestingWithdrawRate ≠ 0) rateUnchanged
    .ok (S.setHolder (account, .vests) (cancelWithdrawal a))
  else do
    let rate := withdrawRate shares S.vestingWithdrawIntervals (S.HasHardfork 21)
    ensure (S.HasHardfork 5 → a.vestingWithdrawRate ≠ rate) rateUnchanged
    .ok (S.setHolder (account, .vests) (S.beginWithdrawal shares rate a))

/-- `withdraw_vesting_evaluator` with the validation of the operation. -/
def withdrawVesting (k : HolderKey) (shares : Int) (S : Registry) : Except String Registry := do
  ensure (k.1 ≠ nullAccount) "missing required active authority"
  ensure k.2.isVesting "Vesting shares must be a vesting symbol."
  let _ ← S.getHolder (k.1, .vests)
  if shares < 0 then do
    ensure (¬ S.HasHardfork 20)
      "Cannot withdraw negative VESTS. account: $\x7baccount\x7d, vests:$\x7bvests\x7d"
    .ok S
  else if k.2.space = .sstNaiSpace then S.withdrawToken k shares
  else S.withdrawVests k.1 shares

/-- What one instalment of a power-down takes from an account. -/
def instalment (a : VestingAccount) : Int :=
  if a.toWithdraw - a.withdrawn < a.vestingWithdrawRate then
    min a.vestingShares (a.toWithdraw % a.vestingWithdrawRate)
  else min a.vestingShares a.vestingWithdrawRate

/-- The account after an instalment. -/
def payInstalment (amount : Int) (a : VestingAccount) : VestingAccount :=
  let shares := a.vestingShares - amount
  let withdrawn := a.withdrawn + amount
  if a.toWithdraw ≤ withdrawn ∨ shares = 0 then
    { a with
      vestingShares := shares
      withdrawn := withdrawn
      vestingWithdrawRate := 0
      nextVestingWithdrawal := maximumTime }
  else
    { a with
      vestingShares := shares
      withdrawn := withdrawn
      nextVestingWithdrawal :=
        wrapTime (a.nextVestingWithdrawal + vestingWithdrawIntervalSeconds) }

/-- The order of `by_next_vesting_withdrawal`. -/
def withdrawalBefore (e f : HolderKey × VestingAccount) : Prop :=
  e.2.nextVestingWithdrawal < f.2.nextVestingWithdrawal ∨
    e.2.nextVestingWithdrawal = f.2.nextVestingWithdrawal ∧
      (e.1.1 < f.1.1 ∨ e.1.1 = f.1.1 ∧ e.1.2 ≤ f.1.2)

instance : DecidableRel withdrawalBefore := fun _ _ => inferInstanceAs (Decidable (_ ∨ _))

/-- The index of the accounts, or that of the balances of tokens. -/
def byNextVestingWithdrawal (isToken : Bool) (S : Registry) : List (HolderKey × VestingAccount) :=
  (S.holders.entries.filter fun e => isToken = decide (e.1.2 ≠ .vests)).insertionSort
    withdrawalBefore

/-- What follows a position in an index. -/
def following (isToken : Bool) (e : HolderKey × VestingAccount) (S : Registry) : Option HolderKey :=
  ((S.byNextVestingWithdrawal isToken).find? fun f => ¬ withdrawalBefore f e).map Prod.fst

/-- The loop of `process_vesting_withdrawals` over the balances of tokens. Its iterator moves on
from the place that the current balance has after its instalment. -/
def payTokenInstalments : Nat → Option HolderKey → Registry → Except String Registry
  | 0, _, S => .ok S
  | _, none, S => .ok S
  | fuel + 1, some k, S => do
    let a ← S.getHolder k
    if a.nextVestingWithdrawal ≤ S.time then do
      let _ ← orThrow "unknown key" (S.tokens.find? k.2)
      let paid := payInstalment (instalment a) a
      let S := S.setHolder k paid
      payTokenInstalments fuel (S.following true (k, paid)) S
    else .ok S

/-- The routes of the power-down of an account. -/
def routesOf (account : AccountName) (S : Registry) : List (AccountName × WithdrawVestingRoute) :=
  ((S.routes.entries.filter fun e => e.1.1 = account).map fun e => (e.1.2, e.2)).insertionSort
    fun e f => e.1 ≤ f.1

/-- The part of an instalment that goes along a route. -/
def routedPart (amount : Int) (r : WithdrawVestingRoute) : Int :=
  amount * r.percent / hundredPercent

/-- The deposit of shares along a route. -/
def depositVests (amount : Int) (r : AccountName × WithdrawVestingRoute) (S : Registry) :
    Except String Registry :=
  if r.2.autoVest ∧ 0 < routedPart amount r.2 then do
    let a ← S.getHolder (r.1, .vests)
    .ok (S.setHolder (r.1, .vests)
      { a with vestingShares := a.vestingShares + routedPart amount r.2 })
  else .ok S

/-- One round of the loop of `process_vesting_withdrawals` over the accounts. -/
def payVestsInstalment (k : HolderKey) (amount : Int) (S : Registry) : Except String Registry := do
  let routes := S.routesOf k.1
  let S ← forEach (depositVests amount) routes S
  ensure (0 ≤ amount - (routes.map fun r => routedPart amount r.2).sum)
    "Deposited more vests than were supposed to be withdrawn"
  let a ← S.getHolder k
  .ok (S.setHolder k (payInstalment amount a))

/-- The loop of `process_vesting_withdrawals` over the accounts. Its iterator moves on to the
following account before the current one gets its new place. -/
def payVestsInstalments : Nat → Option HolderKey → Registry → Except String Registry
  | 0, _, S => .ok S
  | _, none, S => .ok S
  | fuel + 1, some k, S => do
    let a ← S.getHolder k
    if a.nextVestingWithdrawal ≤ S.time then do
      let next := S.following false (k, a)
      let S ← S.payVestsInstalment k (instalment a)
      payVestsInstalments fuel next S
    else .ok S

/-- The number of instalments that can be due. -/
def dueInstalments (S : Registry) : Nat :=
  ((S.holders.entries.filter fun e => e.2.nextVestingWithdrawal ≤ S.time).map fun e =>
    (S.time - e.2.nextVestingWithdrawal) / vestingWithdrawIntervalSeconds + 1).sum

/-- `process_vesting_withdrawals`. -/
def processVestingWithdrawals (S : Registry) : Except String Registry := do
  let S ← S.payTokenInstalments (S.dueInstalments + 1)
    ((S.byNextVestingWithdrawal true).head?.map Prod.fst)
  S.payVestsInstalments (S.dueInstalments + 1)
    ((S.byNextVestingWithdrawal false).head?.map Prod.fst)

/-- The text of a lack of funds. -/
def insufficientFunds : String :=
  "Account $\x7bacc\x7d does not have sufficient funds for balance adjustment. " ++
    "Required: $\x7br\x7d, Available: $\x7ba\x7d"

/-- `adjust_balance` of vesting shares; `get_balance`, which a debit asks, knows no VESTS. -/
def adjustVesting (k : HolderKey) (shares : Int) (S : Registry) : Except String Registry :=
  if k.2 = .vests then do
    ensure (0 ≤ shares) "Invalid symbol: $\x7bs\x7d"
    let a ← S.getHolder k
    let total ← Safe.add a.vestingShares shares
    .ok (S.setHolder k { a with vestingShares := total })
  else match S.holders.find? k with
    | none => do
      ensure (0 ≤ shares) insufficientFunds
      if shares = 0 then .ok S else S.createHolder k { vestingShares := shares }
    | some a => do
      ensure (shares < 0 → -shares ≤ a.vestingShares) insufficientFunds
      let total ← Safe.add a.vestingShares shares
      .ok (S.setHolder k { a with vestingShares := total })

/-- `create_vesting2` at a price of the shares: their number is a product of 64 bits. What goes to
the null account of a token leaves the supply. -/
def createVesting (k : HolderKey) (liquid num den : Int) (S : Registry) :
    Except String Registry :=
  if k.2 ≠ .vests ∧ k.1 = nullAccount then .ok S
  else do
    let shares ← scale liquid num den
    S.adjustVesting k shares

/-- The claim of rewarded shares, with the validation of the operation. -/
def claimRewardVesting (k : HolderKey) (shares : Int) (S : Registry) : Except String Registry := do
  ensure (k.1 ≠ nullAccount) "missing required posting authority"
  ensure (0 ≤ shares) "Cannot claim a negative amount"
  S.adjustVesting k shares

/-- What votes, and deposits of shares, do to the mana of an account. -/
def setManabars (k : HolderKey) (voting downvote : Manabar) (S : Registry) :
    Except String Registry := do
  let a ← S.getHolder k
  .ok (S.setHolder k { a with votingManabar := voting, downvoteManabar := downvote })

/-- The shares in `clear_null_account_balance` when something is burned. -/
def clearNullAccountBalance (S : Registry) : Except String Registry := do
  ensure (S.HasHardfork 14) "has_hardfork( freezone_HARDFORK_0_14__327 )"
  let a ← S.getHolder (nullAccount, .vests)
  .ok (S.setHolder (nullAccount, .vests) { a with vestingShares := 0 })

/-- The rate of a power-down after the split. -/
def splitRate (a : VestingAccount) : Int :=
  let rate := a.toWithdraw * splitMagnitude / 104
  if rate = 0 then 1 else rate

/-- `perform_vesting_share_split` of an account. -/
def splitShares (k : HolderKey) (a : VestingAccount) : VestingAccount :=
  if k.2 = .vests then
    { a with
      vestingShares := a.vestingShares * splitMagnitude
      withdrawn := a.withdrawn * splitMagnitude
      toWithdraw := a.toWithdraw * splitMagnitude
      vestingWithdrawRate := splitRate a }
  else a

/-- `apply_hardfork` of the next hardfork. -/
def applyHardfork (S : Registry) : Except String Registry := do
  ensure (S.hardfork < numHardforks) "i <= freezone_NUM_HARDFORKS"
  let S := { S with hardfork := S.hardfork + 1 }
  if S.hardfork = 1 then
    .ok { S with
      totalVestingShares := S.totalVestingShares * splitMagnitude
      holders := S.holders.mapWithKey splitShares }
  else if S.hardfork = 19 then
    .ok { S with delegations := S.delegations.keep fun _ d => d.vestingShares ≠ 0 }
  else if S.hardfork = 20 then
    .ok { S with
      delegationReturnPeriod := delegationReturnPeriodHf20
      accountCreationFee := S.accountCreationFee * createAccountWithFreezoneModifier }
  else if S.hardfork = 21 then .ok { S with downvotePoolPercent := downvotePoolPercentHf21 }
  else .ok S

/-- A new block. -/
def advance (time : Nat) (S : Registry) : Except String Registry := do
  ensure (S.time < time) "head_block_time() < next_block.timestamp"
  ensure (time ≤ maximumTime) "time_point_sec"
  .ok { S with time := time }

/-- `init_genesis`. -/
def genesis : Registry where
  time := genesisTime
  holders :=
    ⟨[((minerAccount, .vests), {}), ((nullAccount, .vests), {}), ((tempAccount, .vests), {}),
      ((initMinerAccount, .vests), {})],
      show [(minerAccount, AssetSymbol.vests), (nullAccount, .vests), (tempAccount, .vests),
        (initMinerAccount, .vests)].Nodup by decide⟩

end Registry

/-- The steps of the chain that concern vesting shares. What these steps only read is changed by
the rest of the chain. -/
inductive VestingStep
  | accountCreate (name : AccountName)
  | accountCreateWithDelegation (creator name : AccountName) (fee delegation : Int)
  | delegateVestingShares (k : DelegationKey) (shares : Int)
  | withdrawVesting (k : HolderKey) (shares : Int)
  | createVesting (k : HolderKey) (liquid num den : Int)
  | claimRewardVesting (k : HolderKey) (shares : Int)
  | setManabars (k : HolderKey) (voting downvote : Manabar)
  | clearExpiredDelegations
  | processVestingWithdrawals
  | clearNullAccountBalance
  | applyHardfork
  | advance (time : Nat)
  | elsewhere (accountCreationFee totalVestingFundFreezone totalVestingShares : Int)
      (tokens : Table AssetSymbol Nat)
      (routes : Table (AccountName × AccountName) WithdrawVestingRoute)

namespace Registry

/-- One step, which may throw. -/
def apply (S : Registry) : VestingStep → Except String Registry
  | .accountCreate name => S.accountCreate name
  | .accountCreateWithDelegation creator name fee delegation =>
    S.accountCreateWithDelegation creator name fee delegation
  | .delegateVestingShares k shares => S.delegateVestingShares k shares
  | .withdrawVesting k shares => S.withdrawVesting k shares
  | .createVesting k liquid num den => S.createVesting k liquid num den
  | .claimRewardVesting k shares => S.claimRewardVesting k shares
  | .setManabars k voting downvote => S.setManabars k voting downvote
  | .clearExpiredDelegations => S.clearExpiredDelegations
  | .processVestingWithdrawals => S.processVestingWithdrawals
  | .clearNullAccountBalance => S.clearNullAccountBalance
  | .applyHardfork => S.applyHardfork
  | .advance time => S.advance time
  | .elsewhere fee fund shares tokens routes => .ok { S with
      accountCreationFee := fee
      totalVestingFundFreezone := fund
      totalVestingShares := shares
      tokens := tokens
      routes := routes }

/-- A step that throws is undone. -/
def afterStep (S : Registry) (step : VestingStep) : Registry :=
  match S.apply step with
  | .ok S' => S'
  | .error _ => S

def run (S : Registry) (steps : List VestingStep) : Registry := steps.foldl afterStep S

end Registry

end Freezone.Chain.Delegation
