import Freezone.Core.NthElement
import Freezone.Core.Quota
import Freezone.Core.Shuffle
import Freezone.Chain.Witnesses.Model

/-!
# The witness schedule

At the end of a round the witnesses of the next one are selected: the highest voted
ones, miners from their queue, and those who come first in virtual time. They are
shuffled, their votes for hardforks are counted, and the medians of their properties
become those of the chain. Before hardfork 4 the selection was another one.
-/

namespace Freezone.Chain.Witnesses.Council

open Protocol NthElement
open Funds (AccountName)

/-- The virtual schedule of a witness at the start of a lap. -/
def startLap (time : Uint128) (w : Witness) : Witness :=
  { w with
    virtualPosition := 0
    virtualLastUpdate := time
    virtualScheduledTime := time + perVote virtualScheduleLapLength2 w.votes }

/-- `reset_virtual_schedule_time`. -/
def resetVirtualScheduleTime (S : Council) : Except String Council := do
  ensure (S.witnesses.All fun _ w => w.votes + 1 ≠ 0) "divide by zero"
  .ok { S with
    wso := { S.wso with currentVirtualTime := 0 }
    witnesses := S.witnesses.map (startLap 0) }

/-- A place in the order of the witnesses to be scheduled. -/
def shuffledAt (S : Council) (i : Nat) : Option AccountName :=
  if h : i < maxWitnesses then S.wso.currentShuffledWitnesses ⟨i, h⟩ else none

/-- The scheduled witnesses in their order. -/
def scheduledWitnesses (S : Council) : Except String (List Witness) :=
  (List.range S.wso.numScheduledWitnesses).mapM fun i => do
    let name ← orThrow "unknown key" (S.shuffledAt i)
    S.getWitness name

/-- The value in the middle of the sorted values. -/
def median {α : Type} [LinearOrder α] (values : List α) : Except String α :=
  orThrow "out of range" (nthElement values (values.length / 2))

/-- `update_median_witness_props`. -/
def updateMedianWitnessProps (S : Council) : Except String Council := do
  let active ← S.scheduledWitnesses
  let fee ← median (active.map fun w => w.props.accountCreationFee)
  let blockSize ← median (active.map fun w => w.props.maximumBlockSize)
  let interestRate ← median (active.map fun w => w.props.sbdInterestRate)
  let budget ← median (active.map fun w => w.props.accountSubsidyBudget)
  let decay ← median (active.map fun w => w.props.accountSubsidyDecay)
  let available ← median (active.map fun w => w.availableWitnessAccountSubsidies)
  let params : RdUserParams := ⟨budget, decay⟩
  rdValidateUserParams params
  let rd ← rdSetupDynamicsParams params {}
  let witnessRd ← rdSetupDynamicsParams (perWitnessParams params) {}
  let medianDecay := max (rdComputePoolDecay witnessRd.decayPerTimeUnit
    witnessRd.decayPerTimeUnitDenomShift available) 0
  .ok { S with
    maximumBlockSize := blockSize
    sbdInterestRate := interestRate
    wso := { S.wso with
      medianProps := ⟨fee, blockSize, interestRate, budget, decay⟩
      accountSubsidyRd := rd
      accountSubsidyWitnessRd :=
        { witnessRd with minDecay := medianDecay * decayBackstopPercent / hundredPercent } } }

/-- The random number for a place of the shuffle. -/
def randomNumber (time i : Nat) : UInt64 :=
  let k := UInt64.ofNat time <<< 32 + UInt64.ofNat i * 2685821657736338717
  let k := k ^^^ (k >>> 12)
  let k := k ^^^ (k <<< 25)
  let k := k ^^^ (k >>> 27)
  k * 2685821657736338717

/-- The place with which a place is exchanged. -/
def choosePlace (time count i : Nat) : Nat := i + (randomNumber time i).toNat % (count - i)

/-- Write the active witnesses to the schedule and shuffle them. -/
def writeSchedule (active : List AccountName) (S : Council) : Council :=
  let count := max active.length 1
  { S with wso := { S.wso with
      currentShuffledWitnesses := shuffle (choosePlace S.headBlockTime count) count
        fun i : Fin maxWitnesses => active[(i : Nat)]?
      numScheduledWitnesses := count
      nextShuffleBlockNum := S.headBlockNum + count } }

/-- The order of `by_vote_name`. -/
def voteBefore (e f : AccountName × Witness) : Prop :=
  f.2.votes < e.2.votes ∨ f.2.votes = e.2.votes ∧ e.1 ≤ f.1

/-- The order of `by_pow`. -/
def powBefore (e f : AccountName × Witness) : Prop :=
  e.2.powWorker < f.2.powWorker ∨ e.2.powWorker = f.2.powWorker ∧ e.2.id ≤ f.2.id

/-- The order of `by_schedule_time`. -/
def scheduledBefore (e f : AccountName × Witness) : Prop :=
  e.2.virtualScheduledTime < f.2.virtualScheduledTime ∨
    e.2.virtualScheduledTime = f.2.virtualScheduledTime ∧ e.2.id ≤ f.2.id

instance : DecidableRel voteBefore := fun _ _ => inferInstanceAs (Decidable (_ ∨ _))

instance : DecidableRel powBefore := fun _ _ => inferInstanceAs (Decidable (_ ∨ _))

instance : DecidableRel scheduledBefore := fun _ _ => inferInstanceAs (Decidable (_ ∨ _))

/-- The index `by_vote_name`. -/
def byVoteName (S : Council) : List (AccountName × Witness) :=
  S.witnesses.entries.insertionSort voteBefore

/-- The mining queue: the index `by_pow` above zero. -/
def miningQueue (S : Council) : List (AccountName × Witness) :=
  (S.witnesses.entries.filter fun e => 0 < e.2.powWorker).insertionSort powBefore

/-- The index `by_schedule_time`. -/
def byScheduleTime (S : Council) : List (AccountName × Witness) :=
  S.witnesses.entries.insertionSort scheduledBefore

/-- From hardfork 14 on only witnesses with a signing key are scheduled. -/
def Eligible (S : Council) (w : Witness) : Prop := S.HasHardfork 14 → w.signingKey.isSome

instance (S : Council) (w : Witness) : Decidable (S.Eligible w) :=
  inferInstanceAs (Decidable (_ → _))

/-- A witness that may join those already selected. -/
def Suitable (S : Council) (selected : List AccountName) (e : AccountName × Witness) : Prop :=
  S.Eligible e.2 ∧ e.1 ∉ selected

instance (S : Council) (selected : List AccountName) (e : AccountName × Witness) :
    Decidable (S.Suitable selected e) := inferInstanceAs (Decidable (_ ∧ _))

/-- A loop over an index that selects witnesses up to a number. -/
def visited (S : Council) (selected : List AccountName) (count : Nat)
    (index : List (AccountName × Witness)) : List (AccountName × Witness) :=
  takeQuota (fun e => S.Suitable selected e) count index

/-- The names of the witnesses that such a loop selects. -/
def chosen (S : Council) (selected : List AccountName)
    (visited : List (AccountName × Witness)) : List AccountName :=
  (visited.filter fun e => S.Suitable selected e).map Prod.fst

/-- The highest voted witnesses. -/
def selectedVoted (S : Council) : List AccountName :=
  S.chosen [] (S.visited [] S.wso.maxVotedWitnesses S.byVoteName)

/-- The miners that are taken from the top of the mining queue. -/
def visitedMiners (S : Council) : List (AccountName × Witness) :=
  S.visited S.selectedVoted S.wso.maxMinerWitnesses S.miningQueue

/-- The miners that are scheduled. -/
def selectedMiners (S : Council) : List AccountName := S.chosen S.selectedVoted S.visitedMiners

/-- The witnesses that are processed in the order of their scheduled times. -/
def processedWitnesses (S : Council) : List (AccountName × Witness) :=
  S.visited (S.selectedVoted ++ S.selectedMiners)
    (maxWitnesses - (S.selectedVoted.length + S.selectedMiners.length)) S.byScheduleTime

/-- The running witnesses in the lead. -/
def selectedTimeshare (S : Council) : List AccountName :=
  S.chosen (S.selectedVoted ++ S.selectedMiners) S.processedWitnesses

/-- The witnesses of the next round. -/
def activeWitnesses (S : Council) : List AccountName :=
  S.selectedVoted ++ S.selectedMiners ++ S.selectedTimeshare

/-- The virtual time to which everyone advances. -/
def newVirtualTime (S : Council) : Uint128 :=
  (S.processedWitnesses.getLast?.map fun e => e.2.virtualScheduledTime).getD
    S.wso.currentVirtualTime

/-- The next lap of a processed witness ends past the end of virtual time. -/
def Overflows (S : Council) : Prop :=
  ∃ e ∈ S.processedWitnesses,
    S.newVirtualTime + perVote virtualScheduleLapLength2 e.2.votes < S.newVirtualTime

instance (S : Council) : Decidable S.Overflows := List.decidableBEx _ _

/-- Mark the selected witnesses and take the visited miners from the queue. -/
def markSelected (S : Council) : Council :=
  let marked := S.modifyWitnesses S.selectedVoted fun w => { w with schedule := .elected }
  let marked := marked.modifyWitnesses S.selectedMiners fun w => { w with schedule := .miner }
  let marked := marked.modifyWitnesses (S.visitedMiners.map Prod.fst) fun w =>
    { w with powWorker := 0 }
  { marked.modifyWitnesses S.selectedTimeshare fun w => { w with schedule := .timeshare } with
    numPowWitnesses := S.numPowWitnesses - S.visitedMiners.length }

/-- Start the next lap of the processed witnesses, or all laps if virtual time overflows. -/
def advanceVirtualTime (S marked : Council) : Except String Council :=
  if S.Overflows then marked.resetVirtualScheduleTime
  else do
    ensure (∀ e ∈ S.processedWitnesses, e.2.votes + 1 ≠ 0) "divide by zero"
    let next := marked.modifyWitnesses (S.processedWitnesses.map Prod.fst)
      (startLap S.newVirtualTime)
    .ok { next with wso := { next.wso with currentVirtualTime := S.newVirtualTime } }

/-- The highest version that the required number of witnesses have reached. -/
def majorityVersion (required current : Nat) (versions : List Nat) : Nat :=
  ((versions.dedup.insertionSort (· ≥ ·)).find? fun v =>
    decide (required ≤ versions.countP (v ≤ ·))).getD current

/-- The order of the pairs of a version and a time. -/
def pairBefore (p q : Nat × Nat) : Prop := p.1 < q.1 ∨ p.1 = q.1 ∧ p.2 ≤ q.2

instance : DecidableRel pairBefore := fun _ _ => inferInstanceAs (Decidable (_ ∨ _))

/-- The first pair of a version and a time that has the required number of votes. -/
def hardforkMajority (required : Nat) (votes : List (Nat × Nat)) : Option (Nat × Nat) :=
  (votes.dedup.insertionSort pairBefore).find? fun p => decide (required ≤ votes.count p)

/-- The hardfork that the votes of the scheduled witnesses decide on. -/
def setNextHardfork (votes : List (Nat × Nat)) (S : Council) : Council :=
  match hardforkMajority S.wso.hardforkRequiredWitnesses votes with
  | some p => { S with nextHardfork := p.1, nextHardforkTime := p.2 }
  | none => { S with nextHardfork := S.currentHardforkVersion }

/-- The pair that a witness votes for. -/
def hardforkVote (w : Witness) : Nat × Nat := (w.hardforkVersionVote, w.hardforkTimeVote)

/-- Count the versions and the votes for hardforks of the scheduled witnesses. -/
def countVersions (S : Council) : Except String Council :=
  if S.HasHardfork 5 then do
    let scheduled ← S.scheduledWitnesses
    let next := S.setNextHardfork (scheduled.map hardforkVote)
    let version := majorityVersion S.wso.hardforkRequiredWitnesses S.wso.majorityVersion
      (scheduled.map fun w => w.runningVersion)
    .ok { next with wso := { next.wso with majorityVersion := version } }
  else .ok S

/-- The pay of a round is divided by the weights of its witnesses. -/
def setNormalizationFactor (elected miners timeshare : Nat) (S : Council) : Council :=
  { S with wso := { S.wso with witnessPayNormalizationFactor :=
      S.wso.electedWeight * elected + S.wso.minerWeight * miners +
        S.wso.timeshareWeight * timeshare } }

/-- `update_witness_schedule4`. -/
def updateWitnessSchedule4 (S : Council) : Except String Council := do
  let advanced ← S.advanceVirtualTime S.markSelected
  ensure (S.activeWitnesses.length = min maxWitnesses S.witnesses.entries.length)
    "number of active witnesses does not equal expected_active_witnesses"
  let counted ← advanced.countVersions
  let written := (counted.writeSchedule S.activeWitnesses).setNormalizationFactor
    S.selectedVoted.length S.selectedMiners.length S.selectedTimeshare.length
  written.updateMedianWitnessProps

/-! ### The schedule before hardfork 4 -/

/-- Witnesses are scheduled by votes after the first blocks or if no miner waits. -/
def VoteScheduling (S : Council) : Prop :=
  S.numPowWitnesses = 0 ∨ startMinerVotingBlock < S.headBlockNum

instance (S : Council) : Decidable S.VoteScheduling := inferInstanceAs (Decidable (_ ∨ _))

/-- The highest voted witnesses that do not mine. -/
def topVoted (S : Council) : List AccountName :=
  ((S.byVoteName.filter fun e => e.2.powWorker = 0).take (maxWitnesses - 2)).map Prod.fst

/-- The next lap of the witness that is scheduled by virtual time. -/
def nextLap (S : Council) (w : Witness) : Witness :=
  { w with
    virtualPosition := 0
    virtualScheduledTime := w.virtualScheduledTime +
      if S.HasHardfork 2 then perVote virtualScheduleLapLength2 w.votes
      else perVote virtualScheduleLapLength w.votes }

/-- A round that is scheduled by votes: its witnesses and its virtual time. -/
def scheduleByVotes (S : Council) : Except String (Council × List AccountName × Uint128) :=
  let top := S.topVoted
  let ranked := S.modifyWitnesses top fun w =>
    { w with virtualScheduledTime := BitVec.allOnes 128 }
  match ranked.byScheduleTime.find? fun e => e.2.powWorker = 0 with
  | none => .ok (ranked, top, 0)
  | some e => do
    ensure (e.2.votes + 1 ≠ 0) "divide by zero"
    let time := if e.2.virtualScheduledTime = BitVec.allOnes 128 then 0
      else e.2.virtualScheduledTime
    .ok (ranked.setWitness e.1 (S.nextLap e.2), top ++ [e.1], time)

/-- The part of the round that votes decide. -/
def votedRound (S : Council) : Except String (Council × List AccountName × Uint128) :=
  if S.VoteScheduling then S.scheduleByVotes else .ok (S, [], 0)

/-- Take the first miner from a queue that is too long. -/
def popMiner (S : Council) : Council :=
  match S.miningQueue.head? with
  | some e =>
    if maxWitnesses < S.numPowWitnesses then
      { S.setWitness e.1 { e.2 with powWorker := 0 } with
        numPowWitnesses := S.numPowWitnesses - 1 }
    else S
  | none => S

/-- Add the miners to the round, or one of them once voting has taken over. -/
def pushMiners (single : Bool) : List AccountName → List AccountName → List AccountName
  | active, [] => active
  | active, miner :: queue =>
    if single ∨ maxWitnesses ≤ (active ++ [miner]).length then active ++ [miner]
    else pushMiners single (active ++ [miner]) queue

/-- Advance the virtual time of a round that is scheduled by votes. -/
def setVirtualTime (time : Uint128) (S : Council) : Council :=
  if S.VoteScheduling then { S with wso := { S.wso with currentVirtualTime := time } } else S

/-- The branch of `update_witness_schedule` before hardfork 4. -/
def updateWitnessSchedule0 (S : Council) : Except String Council := do
  let (voted, active, time) ← S.votedRound
  let popped := voted.popMiner
  let active := pushMiners (decide (startMinerVotingBlock < S.headBlockNum)) active
    (popped.miningQueue.map Prod.fst)
  ((popped.writeSchedule active).setVirtualTime time).updateMedianWitnessProps

/-- `update_witness_schedule`. -/
def updateWitnessSchedule (S : Council) : Except String Council :=
  if S.headBlockNum % maxWitnesses = 0 then
    if S.HasHardfork 4 then S.updateWitnessSchedule4 else S.updateWitnessSchedule0
  else .ok S

end Freezone.Chain.Witnesses.Council
