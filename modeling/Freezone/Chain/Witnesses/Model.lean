import Freezone.Chain.Ledger.Model
import Freezone.Chain.Witnesses.Resources

/-!
# Witnesses

The witness objects, the schedule object and the hardfork properties, with the
operations of witnesses and the adjustment of their votes.

The weight that stands behind a witness through the ballot of an account is a
natural number, set by operations that are not modelled here. The fields of a
witness that none of these functions reads are left out, and so is the condition
under which missed blocks clear a signing key. A version number is `v_num`; that of
a hardfork has no revision and is counted in steps of `2 ^ 16`.
-/

namespace Freezone.Chain.Witnesses

open Protocol
open Funds (AccountName initMinerAccount numHardforks uniqueness)

/-- `fc::uint128`, which wraps. -/
abbrev Uint128 := BitVec 128

/-- Keys of blocks; the null key is `none` where a key is expected. -/
abbrev PublicKey := Nat

/-- `freezone_MAX_WITNESSES`. -/
def maxWitnesses : Nat := 21

/-- `freezone_VIRTUAL_SCHEDULE_LAP_LENGTH`. -/
def virtualScheduleLapLength : Uint128 := BitVec.ofNat 128 (2 ^ 64 - 1)

/-- `freezone_VIRTUAL_SCHEDULE_LAP_LENGTH2`, which is `fc::uint128::max_value()`. -/
def virtualScheduleLapLength2 : Uint128 := BitVec.allOnes 128

/-- `freezone_START_MINER_VOTING_BLOCK`. -/
def startMinerVotingBlock : Nat := 24 * 60 * 60 / 3 * 30

/-- `freezone_GENESIS_TIME`. -/
def genesisTime : Nat := 1458835200

/-- `freezone_MIN_ACCOUNT_CREATION_FEE`. -/
def minAccountCreationFee : Int := 1

/-- `freezone_MAX_ACCOUNT_CREATION_FEE`. -/
def maxAccountCreationFee : Int := 1000000000

/-- `freezone_MIN_BLOCK_SIZE_LIMIT`. -/
def minBlockSizeLimit : Nat := 1024 * 64

/-- `freezone_SOFT_MAX_BLOCK_SIZE`. -/
def softMaxBlockSize : Nat := 2 * 1024 * 1024

/-- `freezone_CREATE_ACCOUNT_WITH_freezone_MODIFIER`. -/
def createAccountWithFreezoneModifier : Int := 30

/-- The factor of the split of vesting shares in hardfork 1. -/
def splitMagnitude : Nat := 1000000

/-- The times of the hardforks, from the first on. -/
def configuredHardforkTimes : List Nat :=
  [1461605400, 1461693600, 1461762000, 1462028400, 1464714000, 1467295200, 1467590400, 1467594000,
    1468454400, 1468584000, 1468767600, 1469545200, 1471269600, 1474383600, 1478620800, 1481040000,
    1490886000, 1490886000, 1497970800, 1537887600, 1566918000, 1567090800]

/-- `_hardfork_versions.times` as configured. -/
def hardforkTime (n : Nat) : Nat := (genesisTime :: configuredHardforkTimes).getD n 0

/-- `_hardfork_versions.versions`: hardfork `n` is version `0.n`. -/
def hardforkVersion (n : Nat) : Nat := n

/-- `witness_schedule_type`. -/
inductive ScheduleType
  | elected
  | timeshare
  | miner
  | none
  deriving DecidableEq

/-- `chain_properties`; the creation fee is in FREEZONE. -/
structure ChainProperties where
  accountCreationFee : Int := minAccountCreationFee
  maximumBlockSize : Nat := minBlockSizeLimit * 2
  sbdInterestRate : Nat := 10 * 100
  accountSubsidyBudget : Int := 797
  accountSubsidyDecay : Nat := 347321

/-- `legacy_chain_properties`. -/
structure LegacyChainProperties where
  accountCreationFee : Int := minAccountCreationFee
  maximumBlockSize : Nat := minBlockSizeLimit * 2
  sbdInterestRate : Nat := 10 * 100

/-- The properties of a `witness_set_properties_operation` that concern the schedule. -/
structure PropertyChanges where
  accountCreationFee : Option Int := none
  maximumBlockSize : Option Nat := none
  sbdInterestRate : Option Nat := none
  accountSubsidyBudget : Option Int := none
  accountSubsidyDecay : Option Nat := none
  newSigningKey : Option (Option PublicKey) := none

/-- `witness_object`; its owner is the key of the table. -/
structure Witness where
  id : Nat
  powWorker : Nat := 0
  signingKey : Option PublicKey := none
  props : ChainProperties := {}
  votes : Int := 0
  schedule : ScheduleType := .none
  virtualLastUpdate : Uint128 := 0
  virtualPosition : Uint128 := 0
  virtualScheduledTime : Uint128 := BitVec.allOnes 128
  runningVersion : Nat := 0
  hardforkVersionVote : Nat := 0
  hardforkTimeVote : Nat := genesisTime
  availableWitnessAccountSubsidies : Int := 0

/-- `witness_schedule_object`; an empty name is `none`. -/
structure WitnessSchedule where
  currentVirtualTime : Uint128 := 0
  nextShuffleBlockNum : Nat := 1
  currentShuffledWitnesses : Fin maxWitnesses → Option AccountName
  numScheduledWitnesses : Nat := 1
  electedWeight : Nat := 1
  timeshareWeight : Nat := 5
  minerWeight : Nat := 1
  witnessPayNormalizationFactor : Nat := 25
  medianProps : ChainProperties := {}
  majorityVersion : Nat := 0
  maxVotedWitnesses : Nat := 19
  maxMinerWitnesses : Nat := 1
  maxRunnerWitnesses : Nat := 1
  hardforkRequiredWitnesses : Nat := 17
  accountSubsidyRd : RdDynamicsParams := {}
  accountSubsidyWitnessRd : RdDynamicsParams := {}

/-- The part of the database that concerns witnesses. -/
structure Council where
  headBlockNum : Nat := 0
  headBlockTime : Nat := genesisTime
  totalVestingShares : Int := 0
  numPowWitnesses : Nat := 0
  totalPow : Nat := 0
  maximumBlockSize : Nat := 1024 * 64 * 3 * 2000
  sbdInterestRate : Nat := 10 * 100
  nextWitnessId : Nat := 0
  witnesses : Table AccountName Witness
  /-- The weight behind a witness through the ballot of an account. -/
  ballots : Table (AccountName × AccountName) Nat := Table.empty
  wso : WitnessSchedule
  processedHardforks : List Nat := [genesisTime]
  lastHardfork : Nat := 0
  currentHardforkVersion : Nat := 0
  nextHardfork : Nat := 0
  nextHardforkTime : Nat := 0
  hardforkTimes : Nat → Nat := hardforkTime
  /-- The `hardfork_operation`s posted, the latest last. -/
  hardforkOperations : List Nat := []

namespace Council

/-- `has_hardfork`. -/
def HasHardfork (S : Council) (n : Nat) : Prop := n < S.processedHardforks.length

instance (S : Council) (n : Nat) : Decidable (S.HasHardfork n) :=
  inferInstanceAs (Decidable (_ < _))

/-- `get_witness`. -/
def getWitness (name : AccountName) (S : Council) : Except String Witness :=
  orThrow "unknown key" (S.witnesses.find? name)

/-- `modify` of one witness. -/
def setWitness (name : AccountName) (w : Witness) (S : Council) : Council :=
  { S with witnesses := S.witnesses.set name w }

/-- `modify` of the witnesses among some names. -/
def modifyWitnesses (names : List AccountName) (f : Witness → Witness) (S : Council) : Council :=
  { S with witnesses := S.witnesses.mapWithKey fun name w => if name ∈ names then f w else w }

/-- `create< witness_object >`. -/
def createWitness (name : AccountName) (w : Witness) (S : Council) : Except String Council := do
  let witnesses ← orThrow uniqueness (S.witnesses.insert name { w with id := S.nextWitnessId })
  .ok { S with witnesses := witnesses, nextWitnessId := S.nextWitnessId + 1 }

/-! ### Operations of witnesses -/

/-- `legacy_chain_properties::validate`. -/
def validateProps (props : LegacyChainProperties) : Except String Unit := do
  ensure (minAccountCreationFee ≤ props.accountCreationFee)
    "account_creation_fee.amount >= freezone_MIN_ACCOUNT_CREATION_FEE"
  ensure (minBlockSizeLimit ≤ props.maximumBlockSize)
    "maximum_block_size >= freezone_MIN_BLOCK_SIZE_LIMIT"
  ensure (props.sbdInterestRate ≤ hundredPercent) "sbd_interest_rate <= freezone_100_PERCENT"

/-- `copy_legacy_chain_properties`. -/
def copyLegacyChainProperties (props : LegacyChainProperties) (w : Witness) : Witness :=
  { w with props := { w.props with
      accountCreationFee := props.accountCreationFee
      maximumBlockSize := props.maximumBlockSize
      sbdInterestRate := props.sbdInterestRate } }

/-- `witness_update_evaluator`. -/
def witnessUpdate (owner : AccountName) (blockSigningKey : Option PublicKey)
    (props : LegacyChainProperties) (S : Council) : Except String Council := do
  validateProps props
  ensure (S.HasHardfork 20 → props.accountCreationFee ≤ maxAccountCreationFee)
    "account_creation_fee greater than maximum account creation fee"
  ensure (S.HasHardfork 20 → props.maximumBlockSize ≤ softMaxBlockSize)
    "Max block size cannot be more than 2MiB"
  match S.witnesses.find? owner with
  | some w =>
    .ok (S.setWitness owner
      { copyLegacyChainProperties props w with signingKey := blockSigningKey })
  | none =>
    S.createWitness owner
      { copyLegacyChainProperties props { id := 0 } with signingKey := blockSigningKey }

/-- `witness_set_properties_operation::validate`. -/
def validateChanges (c : PropertyChanges) : Except String Unit := do
  ensure (∀ fee ∈ c.accountCreationFee, minAccountCreationFee ≤ fee)
    "account_creation_fee smaller than minimum account creation fee"
  ensure (∀ size ∈ c.maximumBlockSize, minBlockSizeLimit ≤ size)
    "maximum_block_size smaller than minimum max block size"
  ensure (∀ rate ∈ c.sbdInterestRate, rate ≤ hundredPercent)
    "sbd_interest_rate must not exceed 100%"
  ensure (∀ budget ∈ c.accountSubsidyBudget, rdMinBudget ≤ budget)
    "Budget must be at least freezone_RD_MIN_BUDGET"
  ensure (∀ budget ∈ c.accountSubsidyBudget, budget ≤ rdMaxBudget)
    "Budget must be at most freezone_RD_MAX_BUDGET"
  ensure (∀ decay ∈ c.accountSubsidyDecay, rdMinDecay ≤ decay)
    "Decay must be at least freezone_RD_MIN_DECAY"
  ensure (∀ decay ∈ c.accountSubsidyDecay, decay ≤ rdMaxDecay)
    "Decay must be at most freezone_RD_MAX_DECAY"

/-- The new properties of a witness. -/
def applyChanges (c : PropertyChanges) (w : Witness) : Witness :=
  { w with
    signingKey := c.newSigningKey.getD w.signingKey
    props :=
      { accountCreationFee := c.accountCreationFee.getD w.props.accountCreationFee
        maximumBlockSize := c.maximumBlockSize.getD w.props.maximumBlockSize
        sbdInterestRate := c.sbdInterestRate.getD w.props.sbdInterestRate
        accountSubsidyBudget := c.accountSubsidyBudget.getD w.props.accountSubsidyBudget
        accountSubsidyDecay := c.accountSubsidyDecay.getD w.props.accountSubsidyDecay } }

/-- `witness_set_properties_evaluator`. -/
def witnessSetProperties (owner : AccountName) (key : Option PublicKey) (c : PropertyChanges)
    (S : Council) : Except String Council := do
  validateChanges c
  ensure (S.HasHardfork 20) "witness_set_properties_evaluator not enabled until HF 20"
  let w ← S.getWitness owner
  ensure (key = w.signingKey) "'key' does not match witness signing key."
  ensure (∀ fee ∈ c.accountCreationFee, fee ≤ maxAccountCreationFee)
    "account_creation_fee greater than maximum account creation fee"
  .ok (S.setWitness owner (applyChanges c w))

/-- `pow_apply` and `pow2_evaluator`: the worker joins the mining queue. -/
def pow (worker : AccountName) (key : Option PublicKey) (props : LegacyChainProperties)
    (S : Council) : Except String Council := do
  validateProps props
  ensure (¬ S.HasHardfork 17) "mining is now disabled"
  let S := { S with totalPow := S.totalPow + 1, numPowWitnesses := S.numPowWitnesses + 1 }
  match S.witnesses.find? worker with
  | some w => do
    ensure (w.powWorker = 0) "This account is already scheduled for pow block production."
    .ok (S.setWitness worker { copyLegacyChainProperties props w with powWorker := S.totalPow })
  | none =>
    S.createWitness worker { copyLegacyChainProperties props { id := 0 } with
      signingKey := key, powWorker := S.totalPow }

/-- `process_header_extensions` of a `version`. -/
def reportVersion (owner : AccountName) (version : Nat) (S : Council) : Except String Council := do
  let w ← S.getWitness owner
  .ok (S.setWitness owner { w with runningVersion := version })

/-- `process_header_extensions` of a `hardfork_version_vote`. -/
def voteHardfork (owner : AccountName) (version time : Nat) (S : Council) :
    Except String Council := do
  let w ← S.getWitness owner
  .ok (S.setWitness owner { w with hardforkVersionVote := version, hardforkTimeVote := time })

/-- The missed block of a witness in `update_global_dynamic_data` that clears its key. -/
def shutdownWitness (owner : AccountName) (S : Council) : Except String Council := do
  ensure (S.HasHardfork 14 ∧ ¬ S.HasHardfork 20) "has_hardfork"
  let w ← S.getWitness owner
  .ok (S.setWitness owner { w with signingKey := none })

/-- `process_subsidized_accounts` for the witness of the block. -/
def processSubsidizedAccounts (owner : AccountName) (S : Council) : Except String Council := do
  let w ← S.getWitness owner
  if w.schedule = .elected then
    let available := rdApply S.wso.accountSubsidyWitnessRd w.availableWitnessAccountSubsidies
    .ok (S.setWitness owner { w with availableWitnessAccountSubsidies := available })
  else .ok S

/-- `claim_account_evaluator` for the witness of the block. -/
def claimAccount (owner : AccountName) (S : Council) : Except String Council := do
  ensure (S.HasHardfork 20) "claim_account_operation is not enabled until hardfork 20."
  let w ← S.getWitness owner
  ensure (w.schedule = .elected) "Subsidized accounts can only be claimed by elected witnesses."
  ensure ((accountSubsidyPrecision : Int) ≤ w.availableWitnessAccountSubsidies)
    "Witness does not have enough subsidized accounts to claim"
  .ok (S.setWitness owner { w with availableWitnessAccountSubsidies :=
    w.availableWitnessAccountSubsidies - accountSubsidyPrecision })

/-! ### Votes -/

/-- A lap divided by one more than the votes. -/
def perVote (lap : Uint128) (votes : Int) : Uint128 := lap / BitVec.ofInt 128 (votes + 1)

/-- The virtual time at which a witness completes its lap, in `adjust_witness_vote`. -/
def lapCompletion (S : Council) (position : Uint128) (votes : Int) : Uint128 :=
  let now := S.wso.currentVirtualTime
  let time :=
    if S.HasHardfork 2 then now + perVote (virtualScheduleLapLength2 - position) votes
    else now + perVote (virtualScheduleLapLength - position) votes
  -- low votes could overflow the time
  if S.HasHardfork 4 ∧ time < now then BitVec.allOnes 128 else time

/-- The witness after its votes have changed, in `adjust_witness_vote`. -/
def adjusted (S : Council) (w : Witness) (delta : Int) : Witness :=
  let position := w.virtualPosition +
    BitVec.ofInt 128 w.votes * (S.wso.currentVirtualTime - w.virtualLastUpdate)
  { w with
    virtualPosition := position
    virtualLastUpdate := S.wso.currentVirtualTime
    votes := w.votes + delta
    virtualScheduledTime := S.lapCompletion position (w.votes + delta) }

/-- `adjust_witness_vote`. -/
def adjustWitnessVote (name : AccountName) (delta : Int) (S : Council) : Except String Council := do
  let w ← S.getWitness name
  ensure (w.votes + delta ≤ S.totalVestingShares) "w.votes <= total_vesting_shares.amount"
  ensure (w.votes + delta + 1 ≠ 0) "divide by zero"
  .ok (S.setWitness name (S.adjusted w delta))

/-- The weight of a ballot. -/
def ballot (S : Council) (voter name : AccountName) : Nat :=
  (S.ballots.find? (voter, name)).getD 0

/-- Record the weight of a ballot. -/
def recordBallot (voter name : AccountName) (weight : Nat) (S : Council) : Council :=
  let changed := S.ballots.set (voter, name) weight
  { S with ballots := (S.ballots.insert (voter, name) weight).getD changed }

/-- A vote, or a change of the shares behind it: the witness gets the difference. -/
def changeBallot (voter name : AccountName) (weight : Nat) (S : Council) :
    Except String Council := do
  let S' ← S.adjustWitnessVote name (weight - S.ballot voter name)
  .ok (S'.recordBallot voter name weight)

/-- `retally_witness_votes`. -/
def retallyWitnessVotes (S : Council) : Except String Council :=
  forEach (fun e S => S.adjustWitnessVote e.1.2 e.2) S.ballots.entries
    { S with witnesses := S.witnesses.map fun w => { w with votes := 0, virtualPosition := 0 } }

end Council

end Freezone.Chain.Witnesses
