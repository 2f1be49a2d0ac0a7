import Freezone.Chain.Ledger.Processing

/-!
# Proposals and their payments

The proposal system: proposals ask for a daily pay from the treasury, accounts vote
for them, and once an hour the budget of the treasury is paid out in the order of
the votes. Removing a proposal erases its votes first; a node may bound how many
objects one call erases, and what is left is erased by later blocks.

The subjects of proposals are left out. Operations carry the signature of the account
they name, so that account exists.
-/

namespace Freezone.Chain.Proposals

open Protocol Funds

/-- `freezone_GENESIS_TIME`. -/
def genesisTime : Nat := 1458835200

/-- `freezone_PROPOSAL_MAINTENANCE_CLEANUP`. -/
def maintenanceCleanup : Nat := 60 * 60 * 24

/-- `freezone_PROPOSAL_MAX_IDS_NUMBER`. -/
def maxIdsNumber : Nat := 5

/-- The text of the operations before hardfork 21. -/
def notEnabled : String := "Proposals functionality not enabled until hardfork ${hf}"

/-- `proposal_object`; the daily pay is SBD. -/
structure Proposal where
  creator : AccountName
  receiver : AccountName
  startDate : Nat
  endDate : Nat
  dailyPay : Nat
  totalVotes : Nat := 0
  removed : Bool := false
  deriving DecidableEq

namespace Proposal

/-- `get_end_date_with_delay`, a sum of 32 bits. -/
def endDateWithDelay (p : Proposal) : Nat := (p.endDate + maintenanceCleanup) % 2 ^ 32

/-- The condition of `find_active_proposals`. -/
def IsActive (headTime : Nat) (p : Proposal) : Prop := p.startDate ≤ headTime ∧ headTime ≤ p.endDate

instance (headTime : Nat) (p : Proposal) : Decidable (p.IsActive headTime) :=
  inferInstanceAs (Decidable (_ ∧ _))

/-- What a payment reads of a proposal. -/
def toActive (p : Proposal) : Ledger.ActiveProposal := ⟨p.receiver, p.totalVotes, p.dailyPay⟩

end Proposal

/-- The fields of an account that decide what its vote weighs besides its own shares. -/
structure Proxying where
  proxy : Option AccountName := none
  proxiedVsfVotes : List Int := []

/-- The objects of the proposal system over the ledger. Votes are `proposal_vote_object`s by
proposal and voter, and the threshold is the one the node was started with. -/
structure Sps where
  ledger : Ledger
  proxying : AccountName → Proxying
  comments : List (AccountName × Nat)
  proposals : Table Nat Proposal
  votes : Table (Nat × AccountName) Unit
  nextProposalId : Nat
  removeThreshold : Int16

/-- `sps_removing_reducer`. -/
structure RemovingReducer where
  threshold : Int16
  counter : Int16 := 0
  done : Bool := false

/-- The part of `checker` that counts an object and decides whether to stop before it. -/
def RemovingReducer.check (r : RemovingReducer) : RemovingReducer :=
  if r.threshold < 0 then { r with done := false }
  else
    { r with counter := r.counter + 1, done := decide (r.threshold < r.counter + 1) }

/-- The ids of an operation, a `flat_set`. -/
structure ProposalIds where
  ids : List Nat
  sorted : ids.Pairwise (· < ·)

/-- The checks of the ids in `validate`. -/
def ProposalIds.validate (l : ProposalIds) : Except String Unit := do
  ensure (l.ids ≠ []) "proposal_ids.empty() == false"
  ensure (l.ids.length ≤ maxIdsNumber) "proposal_ids.size() <= freezone_PROPOSAL_MAX_IDS_NUMBER"

/-- `create_proposal_operation`. -/
structure CreateProposal where
  creator : AccountName
  receiver : AccountName
  startDate : Nat
  endDate : Nat
  dailyPay : Asset Liquid
  permlink : Nat

/-- `create_proposal_operation::validate`. -/
def CreateProposal.validate (o : CreateProposal) : Except String Unit := do
  ensure (o.startDate < o.endDate) "end date must be greater than start date"
  ensure (0 ≤ o.dailyPay.amount) "Daily pay can't be negative value"
  ensure (o.dailyPay.symbol = .sbd) "Daily pay should be expressed in SBD"

/-- `update_proposal_votes_operation`. -/
structure UpdateProposalVotes where
  voter : AccountName
  proposalIds : ProposalIds
  approve : Bool

/-- `remove_proposal_operation`. -/
structure RemoveProposal where
  proposalOwner : AccountName
  proposalIds : ProposalIds

/-- The order of `sort_by_votes`. -/
def VotedBefore (e e' : Nat × Proposal) : Prop :=
  e'.2.totalVotes < e.2.totalVotes ∨ e.2.totalVotes = e'.2.totalVotes ∧ e.1 ≤ e'.1

instance : DecidableRel VotedBefore := fun _ _ => inferInstanceAs (Decidable (_ ∨ _))

/-- `sort_by_votes`. -/
def sortByVotes (proposals : List (Nat × Proposal)) : List (Nat × Proposal) :=
  proposals.insertionSort VotedBefore

namespace Sps

/-- `head_block_time`. -/
def headTime (S : Sps) : Nat := S.ledger.props.time

/-! ### Operations -/

/-- `create_proposal_evaluator`. -/
def createProposal (o : CreateProposal) (S : Sps) : Except String Sps := do
  o.validate
  ensure (S.ledger.HasHardfork 21) notEnabled
  ensure (S.headTime < o.endDate) "Can't create inactive proposals..."
  let _ ← S.ledger.getAccount treasuryAccount
  let _ ← S.ledger.getAccount o.creator
  ensure (S.ledger.accounts.find? o.receiver).isSome
    "Specified receiver account: ${r} must exist in the blockchain"
  ensure ((o.creator, o.permlink) ∈ S.comments ∨ (o.receiver, o.permlink) ∈ S.comments)
    "Proposal permlink must point to the article posted by creator or receiver"
  let proposals ← orThrow uniqueness (S.proposals.insert S.nextProposalId {
    creator := o.creator
    receiver := o.receiver
    startDate := o.startDate
    endDate := o.endDate
    dailyPay := o.dailyPay.amount.toNat })
  let ledger ← S.ledger.payProposalFee o.creator
  .ok { S with
    ledger := ledger
    proposals := proposals
    nextProposalId := S.nextProposalId + 1 }

/-- The loop of `update_proposal_votes_evaluator` for one id. -/
def updateVote (voter : AccountName) (approve : Bool) (id : Nat) (S : Sps) : Except String Sps :=
  match S.proposals.find? id with
  | none => .ok S
  | some p =>
    if p.removed then .ok S
    else if approve then
      if (S.votes.find? (id, voter)).isSome then .ok S
      else do
        let votes ← orThrow uniqueness (S.votes.insert (id, voter) ())
        .ok { S with votes := votes }
    else .ok { S with votes := S.votes.erase (id, voter) }

/-- `update_proposal_votes_evaluator`. -/
def updateProposalVotes (o : UpdateProposalVotes) (S : Sps) : Except String Sps := do
  o.proposalIds.validate
  let _ ← S.ledger.getAccount o.voter
  ensure (S.ledger.HasHardfork 21) notEnabled
  forEach (updateVote o.voter o.approve) o.proposalIds.ids S

/-- The voters of a proposal in the order of the index by proposal and voter. -/
def votersOf (id : Nat) (S : Sps) : List AccountName :=
  (((S.votes.entries.map Prod.fst).filter fun k => k.1 = id).map Prod.snd).insertionSort (· ≤ ·)

/-- The loop of `sps_helper::remove_proposal` over the votes; it stops where the reducer says. -/
def removeVotes (id : Nat) : List AccountName → RemovingReducer → Sps → Sps × RemovingReducer
  | [], r, S => (S, r)
  | voter :: rest, r, S =>
    let r := r.check
    if r.done then (S, r)
    else removeVotes id rest r { S with votes := S.votes.erase (id, voter) }

/-- `sps_helper::remove_proposal`. -/
def removeProposal (id : Nat) (r : RemovingReducer) (S : Sps) : Sps × RemovingReducer :=
  let (S, r) := S.removeVotes id (S.votersOf id) r
  if r.done then (S, r)
  else
    let r := r.check
    if r.done then (S, r) else ({ S with proposals := S.proposals.erase id }, r)

/-- The loop of `sps_helper::remove_proposals`. -/
def removeOwned (owner : AccountName) : List Nat → RemovingReducer → Sps → Except String Sps
  | [], _, S => .ok S
  | id :: rest, r, S =>
    match S.proposals.find? id with
    | none => removeOwned owner rest r S
    | some p => do
      ensure (p.creator = owner) "Only proposal owner can remove it..."
      let (S, r) := S.removeProposal id r
      if r.done then .ok S else removeOwned owner rest r S

/-- The loop of `remove_proposal_evaluator` for one id: what is left of the proposal ends. -/
def markRemoved (id : Nat) (S : Sps) : Sps :=
  match S.proposals.find? id with
  | none => S
  | some p =>
    if p.removed then S
    else { S with proposals := S.proposals.set id { p with
      removed := true
      endDate := S.headTime - maintenanceCleanup } }

/-- `remove_proposal_evaluator`. -/
def removeProposals (o : RemoveProposal) (S : Sps) : Except String Sps := do
  o.proposalIds.validate
  let _ ← S.ledger.getAccount o.proposalOwner
  ensure (S.ledger.HasHardfork 21) notEnabled
  let S ← S.removeOwned o.proposalOwner o.proposalIds.ids { threshold := S.removeThreshold }
  .ok (o.proposalIds.ids.foldl (fun S id => S.markRemoved id) S)

/-! ### Blocks -/

/-- The proposals of the index by end date up to the head time. -/
def expiredProposals (S : Sps) : List Nat :=
  ((S.proposals.entries.filter fun e => e.2.endDateWithDelay ≤ S.headTime).insertionSort
    fun e e' => e.2.endDateWithDelay < e'.2.endDateWithDelay ∨
      e.2.endDateWithDelay = e'.2.endDateWithDelay ∧ e.1 ≤ e'.1).map Prod.fst

/-- The loop of `sps_processor::remove_proposals`. -/
def removeExpired : List Nat → RemovingReducer → Sps → Sps
  | [], _, S => S
  | id :: rest, r, S =>
    let (S, r) := S.removeProposal id r
    if r.done then S else removeExpired rest r S

/-- `sps_processor::remove_old_proposals`. -/
def removeOldProposals (S : Sps) : Sps :=
  S.removeExpired S.expiredProposals { threshold := S.removeThreshold }

/-- `find_active_proposals`, from the index by start date. -/
def findActiveProposals (S : Sps) : List (Nat × Proposal) :=
  (S.proposals.entries.filter fun e => e.2.IsActive S.headTime).insertionSort fun e e' =>
    e.2.startDate < e'.2.startDate ∨ e.2.startDate = e'.2.startDate ∧ e.1 ≤ e'.1

/-- `witness_vote_weight` of an account with the given shares. -/
def witnessVoteWeight (voter : AccountName) (a : Account) (S : Sps) : Int :=
  a.vestingShares + (S.proxying voter).proxiedVsfVotes.sum

/-- The loop of `calculate_votes`; the sum has 64 bits. -/
def calculateVotes (S : Sps) : List AccountName → Nat → Except String Nat
  | [], votes => .ok votes
  | voter :: rest, votes => do
    let a ← S.ledger.getAccount voter
    if (S.proxying voter).proxy = none then
      calculateVotes S rest ((votes + S.witnessVoteWeight voter a) % 2 ^ 64).toNat
    else calculateVotes S rest votes

/-- `calculate_votes` of the active proposals. -/
def countVotes (S : Sps) (proposals : List (Nat × Proposal)) :
    Except String (List (Nat × Proposal)) :=
  proposals.mapM fun e => do
    let votes ← S.calculateVotes (S.votersOf e.1) 0
    .ok (e.1, { e.2 with totalVotes := votes })

/-- The table with the objects that a loop has changed. -/
def storeAll (counted : List (Nat × Proposal)) (t : Table Nat Proposal) : Table Nat Proposal :=
  counted.foldl (fun t e => t.set e.1 e.2) t

/-- `sps_processor::make_payments`. -/
def makePayments (S : Sps) : Except String Sps :=
  if S.headTime < S.ledger.props.nextMaintenanceTime then .ok S
  else do
    let counted ← S.countVotes S.findActiveProposals
    let ledger ← S.ledger.makePayments ((sortByVotes counted).map fun e => e.2.toActive)
    .ok { S with ledger := ledger, proposals := storeAll counted S.proposals }

/-- `process_proposals`. -/
def processProposals (S : Sps) : Except String Sps :=
  if S.ledger.HasHardfork 21 then S.removeOldProposals.makePayments else .ok S

end Sps

/-- The steps of the proposal system. What else changes the ledger is a step of the ledger, and
proxies change as the accounts' votes do. -/
inductive SpsStep
  | createProposal (o : CreateProposal)
  | updateProposalVotes (o : UpdateProposalVotes)
  | removeProposals (o : RemoveProposal)
  | processProposals
  | setRemoveThreshold (threshold : Int16)
  | setProxying (account : AccountName) (proxying : Proxying)
  | comment (author : AccountName) (permlink : Nat)
  | ledger (step : LedgerStep)

/-- The payments of proposals are a step of this system. -/
def isPayment : LedgerStep → Bool
  | .makePayments _ => true
  | _ => false

namespace Sps

/-- Make a step. -/
def apply (step : SpsStep) (S : Sps) : Except String Sps :=
  match step with
  | .createProposal o => S.createProposal o
  | .updateProposalVotes o => S.updateProposalVotes o
  | .removeProposals o => S.removeProposals o
  | .processProposals => S.processProposals
  | .setRemoveThreshold threshold => .ok { S with removeThreshold := threshold }
  | .setProxying account proxying =>
    .ok { S with proxying := Function.update S.proxying account proxying }
  | .comment author permlink => .ok { S with comments := (author, permlink) :: S.comments }
  | .ledger step => do
    ensure (isPayment step = false) "payments are made by process_proposals"
    let ledger ← S.ledger.apply step
    .ok { S with ledger := ledger }

/-- The state after a step, which stays as it was if the step throws. -/
def afterStep (S : Sps) (step : SpsStep) : Sps :=
  match S.apply step with
  | .ok S' => S'
  | .error _ => S

/-- The state after a sequence of steps. -/
def run (steps : List SpsStep) (S : Sps) : Sps := steps.foldl afterStep S

/-- No proposals over a ledger. -/
def start (L : Ledger) (removeThreshold : Int16) : Sps where
  ledger := L
  proxying _ := {}
  comments := []
  proposals := Table.empty
  votes := Table.empty
  nextProposalId := 0
  removeThreshold := removeThreshold

end Sps

end Freezone.Chain.Proposals
