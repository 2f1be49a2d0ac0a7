import Freezone.Core.Safe
import Freezone.Chain.Tokens.Tiers

/-!
# Tokens, their emissions and their pending rewards

The tokens created by users, the emissions of new tokens, and the balances and pending
rewards in tokens, with the functions of the database that change them; and the claim of
pending rewards. FREEZONE is held by the ledger below. Sums of balances are unbounded,
except for the supply of a token.
-/

namespace Freezone.Chain.Tokens

open Protocol Funds

/-- `freezone_SST_HARDFORK`. -/
def sstHardfork : Nat := 23

/-- `SST_phase`. -/
inductive Phase
  | setup
  | setupCompleted
  | ico
  | icoCompleted
  | launchFailed
  | launchSuccess
  deriving DecidableEq

/-- `SST_token_object`. -/
structure Token where
  controlAccount : AccountName
  phase : Phase := .setup
  currentSupply : Int := 0
  totalVestingFund : Int := 0
  totalVestingShares : Int := 0
  totalVestingFundBallast : Int := 0
  totalVestingSharesBallast : Int := 0
  pendingRewardedVestingShares : Int := 0
  pendingRewardedVestingFund : Int := 0
  rewardBalance : Int := 0
  marketMakerFreezone : Int := 0
  marketMakerToken : Int := 0
  lastVirtualEmissionTime : Nat := 0
  allowVoting : Bool := true
  maxSupply : Int := 0
  deriving DecidableEq

/-- `account_regular_balance_object`. -/
structure RegularBalance where
  liquid : Int := 0
  vestingShares : Int := 0
  delegatedVestingShares : Int := 0
  vestingWithdrawRate : Int := 0
  nextVestingWithdrawal : Nat := maximumTime
  toWithdraw : Int := 0
  withdrawn : Int := 0
  deriving DecidableEq

namespace RegularBalance

def get (b : RegularBalance) (vesting : Bool) : Int := if vesting then b.vestingShares else b.liquid

/-- `SST_regular_balance_operator::add_to_balance`. -/
def add (b : RegularBalance) (vesting : Bool) (delta : Int) : RegularBalance :=
  if vesting then { b with vestingShares := b.vestingShares + delta }
  else { b with liquid := b.liquid + delta }

end RegularBalance

/-- `account_rewards_balance_object`. -/
structure RewardsBalance where
  pendingLiquid : Int := 0
  pendingVestingShares : Int := 0
  pendingVestingValue : Int := 0
  deriving DecidableEq

/-- `SST_EMISSION_MIN_INTERVAL_SECONDS`. -/
def emissionMinIntervalSeconds : Nat := 60 * 60 * 6

/-- `SST_EMIT_INDEFINITELY`. -/
def emitIndefinitely : Nat := 2 ^ 32 - 1

/-- `SST_token_emissions_object` as `SST_setup_emissions_operation` validates it. -/
structure Emission where
  symbol : Nat
  scheduleTime : Nat
  emissionsUnit : List (UnitTarget × Nat)
  intervalSeconds : Nat
  emissionCount : Nat
  lepTime : Nat
  repTime : Nat
  lepAbsAmount : Int
  repAbsAmount : Int
  lepRelAmountNumerator : Nat
  repRelAmountNumerator : Nat
  relAmountDenomBits : Nat
  floorEmissions : Bool
  unit_ne_nil : emissionsUnit ≠ []
  unit_valid : ∀ e ∈ emissionsUnit, ¬ e.1.IsContributor ∧ 0 < e.2 ∧ e.2 < 2 ^ 16
  interval_ge : emissionMinIntervalSeconds ≤ intervalSeconds
  count_pos : 0 < emissionCount
  lep_le_rep : lepTime ≤ repTime
  modulated : lepTime ≠ repTime → scheduleTime ≤ lepTime ∧
    (emissionCount ≠ emitIndefinitely →
      intervalSeconds * (emissionCount - 1) + scheduleTime < 2 ^ 31 ∧
        repTime ≤ scheduleTime + intervalSeconds * (emissionCount - 1))
  lep_nonneg : 0 ≤ lepAbsAmount
  rep_nonneg : 0 ≤ repAbsAmount
  positive : 0 < lepAbsAmount ∨ 0 < lepRelAmountNumerator ∨ 0 < repAbsAmount ∨
    0 < repRelAmountNumerator

namespace Emission

/-- The absolute amount and the numerator of the relative one at a time. -/
def amountsAt (e : Emission) (time : Nat) : Except String (Int × Nat) :=
  if time ≤ e.lepTime then .ok (e.lepAbsAmount, e.lepRelAmountNumerator)
  else if e.repTime ≤ time then .ok (e.repAbsAmount, e.repRelAmountNumerator)
  else do
    let lepDist := time - e.lepTime
    let repDist := e.repTime - time
    let totalDist := e.repTime - e.lepTime
    let absolute := (e.lepAbsAmount * lepDist + e.repAbsAmount * repDist) / totalDist
    ensure (absolute < 2 ^ 63) "lo <= uint64_t( std::numeric_limits<int64_t>::max() )"
    .ok (absolute,
      (e.lepRelAmountNumerator * lepDist + e.repRelAmountNumerator * repDist) / totalDist)

/-- The number of new tokens in `generate_emissions`. -/
def newTokenSupply (e : Emission) (t : Token) (time : Nat) : Except String Int := do
  let amounts ← e.amountsAt time
  let relative := t.currentSupply * amounts.2 / 2 ^ e.relAmountDenomBits
  ensure (relative < 2 ^ 63) "lo <= uint64_t( std::numeric_limits<int64_t>::max() )"
  let new := if e.floorEmissions then min amounts.1 relative else max amounts.1 relative
  let supply ← Safe.add t.currentSupply new
  .ok (if t.maxSupply < supply then t.maxSupply - t.currentSupply else new)

/-- `SST_emissions_unit::token_unit_sum`, in 32 bits. -/
def tokenUnitSum (e : Emission) : Nat := unitSum e.emissionsUnit % 2 ^ 32

/-- `generate_emissions`. -/
def generateEmissions (e : Emission) (t : Token) (time : Nat) :
    Except String (List (UnitTarget × Int)) := do
  let new ← e.newTokenSupply t time
  if e.tokenUnitSum ≤ new then do
    ensure (e.tokenUnitSum ≠ 0) "divide by zero"
    let emissions := e.emissionsUnit.map fun x => (x.1, x.2 * new / e.tokenUnitSum)
    ensure (∀ x ∈ emissions, x.2 < 2 ^ 63) "lo <= uint64_t( std::numeric_limits<int64_t>::max() )"
    .ok emissions
  else .ok []

end Emission

/-- The objects of the tokens over the ledger. -/
structure State where
  ledger : Ledger
  tokens : Table Nat Token := Table.empty
  balances : Table (AccountName × Nat) RegularBalance := Table.empty
  rewards : Table (AccountName × Nat) RewardsBalance := Table.empty

namespace State

def getToken (s : Nat) (S : State) : Except String Token := orThrow "unknown key" (S.tokens.find? s)

def setToken (s : Nat) (t : Token) (S : State) : State := { S with tokens := S.tokens.set s t }

/-- `adjust_supply` for a token. -/
def adjustSupply (s : Nat) (delta : Int) (S : State) : Except String State := do
  let t ← S.getToken s
  let supply ← Safe.add t.currentSupply delta
  ensure (0 ≤ supply) "SST_new_supply >= 0"
  .ok (S.setToken s { t with currentSupply := supply })

/-- `get_balance` for a token. -/
def getBalance (name : AccountName) (s : Nat) (vesting : Bool) (S : State) : Int :=
  match S.balances.find? (name, s) with
  | none => 0
  | some b => b.get vesting

/-- `adjust_SST_balance` of a regular balance. -/
def adjustSstBalance (name : AccountName) (s : Nat) (vesting : Bool) (delta : Int) (S : State) :
    Except String State :=
  match S.balances.find? (name, s) with
  | none => do
    ensure (0 ≤ delta) "Insufficient SST ${SST} funds"
    if delta = 0 then .ok S
    else do
      let balances ← orThrow uniqueness
        (S.balances.insert (name, s) (({} : RegularBalance).add vesting delta))
      .ok { S with balances := balances }
  | some b => do
    ensure (0 ≤ b.get vesting + delta) "Insufficient SST ${SST} funds"
    .ok { S with balances := S.balances.set (name, s) (b.add vesting delta) }

/-- `adjust_balance` for a token: what `null` is given leaves the supply. Its shares have no
token under their symbol. -/
def adjustBalance (name : AccountName) (s : Nat) (vesting : Bool) (delta : Int) (S : State) :
    Except String State := do
  ensure (0 ≤ delta ∨ -delta ≤ S.getBalance name s vesting)
    ("Account ${acc} does not have sufficient funds for balance adjustment. " ++
      "Required: ${r}, Available: ${a}")
  if name = nullAccount then
    if vesting then .error "unknown key" else S.adjustSupply s (-delta)
  else S.adjustSstBalance name s vesting delta

/-- An asset in a token or in its shares. -/
structure SstAsset where
  amount : Int
  symbol : Nat
  vesting : Bool
  deriving DecidableEq

/-- `<=` on assets. -/
def SstAsset.le (a b : SstAsset) : Except String Bool := do
  ensure (a.symbol = b.symbol ∧ a.vesting = b.vesting) "a.symbol == b.symbol"
  .ok (a.amount ≤ b.amount)

/-- `-=` on assets: the new amount. -/
def SstAsset.sub (a b : SstAsset) : Except String Int := do
  ensure (a.symbol = b.symbol ∧ a.vesting = b.vesting) "symbol == o.symbol"
  .ok (a.amount - b.amount)

/-- The backing that `claim_reward_balance2_evaluator` moves with claimed shares. -/
def vestingToMove (b : RewardsBalance) (a : SstAsset) : SstAsset :=
  if a.amount = b.pendingVestingShares then ⟨b.pendingVestingValue, a.symbol, false⟩
  else ⟨a.amount * b.pendingVestingValue / b.pendingVestingShares, a.symbol, true⟩

/-- `claim_reward_balance2_evaluator` for an asset in a token. The tokens are indexed by their
liquid symbols, and none is found under the symbol of the shares. -/
def claimReward (account : AccountName) (a : SstAsset) (S : State) : Except String State := do
  ensure (0 < a.amount) "Cannot claim a negative amount"
  ensure (S.ledger.HasHardfork sstHardfork)
    "claim_reward_balance2_operation is not enabled until hardfork ${hf}"
  let b ← orThrow "Account ${a} has no rewards balance for SST ${s}"
    (S.rewards.find? (account, a.symbol))
  let within ← a.le ⟨b.pendingLiquid, a.symbol, false⟩
  ensure within "Account only has ${p} pending in their rewards balance. Claimed: ${c}"
  if a.vesting then do
    let _ ← SstAsset.sub ⟨b.pendingVestingValue, a.symbol, false⟩ (vestingToMove b a)
    .error "unknown key"
  else do
    let liquid := b.pendingLiquid - a.amount
    let rewards := S.rewards.set (account, a.symbol) { b with pendingLiquid := liquid }
    { S with rewards := rewards }.adjustBalance account a.symbol false a.amount

end State

end Freezone.Chain.Tokens
