import Freezone.Chain.Witnesses.Schedule

/-!
# Hardforks and runs

Hardforks are applied by the first block, by their times up to the fifth, and by the
votes of the scheduled witnesses from then on. A run is any sequence of the steps
that concern witnesses.
-/

namespace Freezone.Chain.Witnesses

open Protocol
open Funds (AccountName initMinerAccount numHardforks)

namespace Council

/-- `perform_vesting_share_split`: the ballots grow, the votes of the witnesses do not. -/
def performVestingShareSplit (S : Council) : Except String Council := do
  ensure (S.totalVestingShares * splitMagnitude < 2 ^ 63) "Integer Overflow"
  .ok { S with
    totalVestingShares := S.totalVestingShares * splitMagnitude
    ballots := S.ballots.map fun weight => weight * splitMagnitude }

/-- The creation fees of scheduled witnesses in hardfork 20. -/
def raiseFee (w : Witness) : Witness :=
  { w with props := { w.props with accountCreationFee :=
      w.props.accountCreationFee * createAccountWithFreezoneModifier } }

/-- Hardfork 20, as far as it concerns witnesses. -/
def raiseFees (S : Council) : Except String Council := do
  let names := (List.finRange maxWitnesses).filterMap S.wso.currentShuffledWitnesses
  ensure (∀ name ∈ names, (S.witnesses.find? name).isSome) "unknown key"
  ensure (S.witnesses.All fun name w => name ∈ names →
      (raiseFee w).props.accountCreationFee < 2 ^ 63)
    "Integer Overflow"
  let raised := S.modifyWitnesses names raiseFee
  .ok { raised with wso := { raised.wso with medianProps := { raised.wso.medianProps with
      accountCreationFee :=
        raised.wso.medianProps.accountCreationFee * createAccountWithFreezoneModifier } } }

/-- The effects of a hardfork on witnesses, in `apply_hardfork`. -/
def hardforkEffects (n : Nat) (S : Council) : Except String Council :=
  if n = 1 then S.performVestingShareSplit
  else if n = 2 ∨ n = 3 then S.retallyWitnessVotes
  else if n = 4 then S.resetVirtualScheduleTime
  else if n = 17 then
    .ok { S with wso := { S.wso with
      maxVotedWitnesses := 20, maxMinerWitnesses := 0, maxRunnerWitnesses := 1 } }
  else if n = 20 then S.raiseFees
  else .ok S

/-- `apply_hardfork`. -/
def applyHardfork (n : Nat) (S : Council) : Except String Council := do
  let S' ← S.hardforkEffects n
  ensure (n = S'.lastHardfork + 1) "Hardfork being applied out of order"
  ensure (S'.processedHardforks.length = n) "Hardfork being applied out of order"
  .ok { S' with
    processedHardforks := S'.processedHardforks ++ [S'.hardforkTimes n]
    lastHardfork := n
    currentHardforkVersion := hardforkVersion n
    hardforkOperations := S'.hardforkOperations ++ [n] }

/-- The scheduled witnesses have decided on a later hardfork, and its time has come. -/
def HardforkDue (S : Council) : Prop :=
  hardforkVersion S.lastHardfork < S.nextHardfork ∧ S.nextHardforkTime ≤ S.headBlockTime

instance (S : Council) : Decidable S.HardforkDue := inferInstanceAs (Decidable (_ ∧ _))

/-- The loop of `process_hardforks` from hardfork 5 on, with the number of hardforks that are
left. -/
def applyVotedHardforks : Nat → Council → Except String Council
  | 0, S => if S.HardforkDue then .error "unknown_hardfork_exception" else .ok S
  | left + 1, S =>
    if S.HardforkDue then do
      let S' ← S.applyHardfork (S.lastHardfork + 1)
      applyVotedHardforks left S'
    else .ok S

/-- The loop of `process_hardforks` before hardfork 5, with the number of hardforks that are
left. -/
def applyTimedHardforks : Nat → Council → Except String Council
  | 0, S => .ok S
  | left + 1, S =>
    if S.hardforkTimes (S.lastHardfork + 1) ≤ S.headBlockTime ∧ S.lastHardfork < 5 then do
      let S' ← S.applyHardfork (S.lastHardfork + 1)
      applyTimedHardforks left S'
    else .ok S

/-- `process_hardforks`. -/
def processHardforks (S : Council) : Except String Council :=
  if S.HasHardfork 5 then applyVotedHardforks (numHardforks - S.lastHardfork) S
  else applyTimedHardforks (numHardforks - S.lastHardfork) S

/-- One round of the loop of `set_hardfork`. -/
def setHardfork (i : Nat) (S : Council) : Except String Council :=
  let S' :=
    if i ≤ 5 then { S with hardforkTimes := Function.update S.hardforkTimes i S.headBlockTime }
    else { S with nextHardfork := hardforkVersion i, nextHardforkTime := S.headBlockTime }
  S'.applyHardfork i

/-- The number of hardforks whose times have come, in `_apply_block`. -/
def genesisHardforkCount (S : Council) (timestamp : Nat) : Nat :=
  ((List.range numHardforks).takeWhile fun n => S.hardforkTimes (n + 1) ≤ timestamp).length

/-- The hardforks up to `n`, with the votes of the witnesses for them, in `_apply_block`. -/
def applyGenesisHardforks (n : Nat) (S : Council) : Except String Council := do
  let S' ← forEach setHardfork (List.range' (S.lastHardfork + 1) (n - S.lastHardfork)) S
  ensure (S'.currentHardforkVersion = hardforkVersion n) "Unexpected genesis hardfork state"
  .ok { S' with witnesses := S'.witnesses.map fun w =>
    { w with
      runningVersion := hardforkVersion n * 2 ^ 16
      hardforkVersionVote := hardforkVersion n
      hardforkTimeVote := S'.hardforkTimes n } }

/-- The hardforks of the first block, in `_apply_block`. -/
def genesisHardforks (timestamp : Nat) (S : Council) : Except String Council := do
  ensure (S.headBlockNum = 0) "next_block_num == 1"
  let n := S.genesisHardforkCount timestamp
  if 0 < n then S.applyGenesisHardforks n else .ok S

/-! ### Runs -/

/-- `init_genesis`. -/
def genesis : Council where
  nextWitnessId := 1
  witnesses := ⟨[(initMinerAccount, { id := 0, signingKey := some 0, schedule := .miner })],
    List.nodup_singleton _⟩
  wso :=
    { currentShuffledWitnesses := fun i => if (i : Nat) = 0 then some initMinerAccount else none
      accountSubsidyRd := dynamicsParams ⟨797, 347321⟩ {}
      accountSubsidyWitnessRd := dynamicsParams (perWitnessParams ⟨797, 347321⟩) {} }

end Council

/-- The steps that concern witnesses. -/
inductive WitnessStep
  | witnessUpdate (owner : AccountName) (key : Option PublicKey) (props : LegacyChainProperties)
  | witnessSetProperties (owner : AccountName) (key : Option PublicKey) (c : PropertyChanges)
  | pow (worker : AccountName) (key : Option PublicKey) (props : LegacyChainProperties)
  | reportVersion (owner : AccountName) (version : Nat)
  | voteHardfork (owner : AccountName) (version time : Nat)
  | shutdownWitness (owner : AccountName)
  | processSubsidizedAccounts (owner : AccountName)
  | claimAccount (owner : AccountName)
  | changeBallot (voter name : AccountName) (weight : Nat)
  | setTotalVestingShares (total : Int)
  | advance (time : Nat)
  | updateWitnessSchedule
  | processHardforks
  | genesisHardforks (timestamp : Nat)

namespace Council

/-- Make a step. -/
def apply (step : WitnessStep) (S : Council) : Except String Council :=
  match step with
  | .witnessUpdate owner key props => S.witnessUpdate owner key props
  | .witnessSetProperties owner key c => S.witnessSetProperties owner key c
  | .pow worker key props => S.pow worker key props
  | .reportVersion owner version => S.reportVersion owner version
  | .voteHardfork owner version time => S.voteHardfork owner version time
  | .shutdownWitness owner => S.shutdownWitness owner
  | .processSubsidizedAccounts owner => S.processSubsidizedAccounts owner
  | .claimAccount owner => S.claimAccount owner
  | .changeBallot voter name weight => S.changeBallot voter name weight
  | .setTotalVestingShares total => do
    ensure (total < 2 ^ 63) "Integer Overflow"
    .ok { S with totalVestingShares := total }
  | .advance time => do
    ensure (S.headBlockTime < time) "blocks have increasing times"
    .ok { S with headBlockNum := S.headBlockNum + 1, headBlockTime := time }
  | .updateWitnessSchedule => S.updateWitnessSchedule
  | .processHardforks => S.processHardforks
  | .genesisHardforks timestamp => S.genesisHardforks timestamp

/-- The council after a step, which stays as it was if the step throws. -/
def afterStep (S : Council) (step : WitnessStep) : Council :=
  match S.apply step with
  | .ok S' => S'
  | .error _ => S

/-- The council after a sequence of steps. -/
def run (steps : List WitnessStep) (S : Council) : Council := steps.foldl afterStep S

end Council

end Freezone.Chain.Witnesses
