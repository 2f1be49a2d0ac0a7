import Freezone.Chain.Evaluation.Sst

/-!
# Claiming accounts, and a node to run

`claim_account` is an operation whose evaluator depends on whether the transaction
is pending: an account that is claimed for free costs the current witness a part
of their subsidies only when the transaction is in a block. Together with the
offerings of tokens it makes a node on which concrete chains are run.
-/

namespace Freezone.Chain

/-- `freezone_ACCOUNT_SUBSIDY_PRECISION`. -/
def accountSubsidyPrecision : Nat := percent100

/-- `claim_account_operation`. -/
structure ClaimAccount where
  creator : Nat
  fee : Nat
  deriving DecidableEq

/-- The account that burns what it receives. -/
def nullAccount : Nat := 0

/-- The part of the state that `claim_account` uses, and the votes on the block size. -/
structure NodeRest where
  currentWitness : Nat
  /-- `schedule == elected` of a witness. -/
  elected : Nat → Bool
  availableWitnessAccountSubsidies : Nat → Int
  availableAccountSubsidies : Int
  accountCreationFee : Nat
  balance : Nat → Nat
  pendingClaimedAccounts : Nat → Nat
  blockSizeVotes : List Nat

namespace NodeRest

/-- What a free account costs: nothing to the witness while the transaction is pending. -/
def takeSubsidy (flags : Flags) (r : NodeRest) : Option NodeRest :=
  if !flags.pendingTx && (!r.elected r.currentWitness ||
      r.availableWitnessAccountSubsidies r.currentWitness < accountSubsidyPrecision) then none
  else if r.availableAccountSubsidies < accountSubsidyPrecision then none
  else some { r with
    availableWitnessAccountSubsidies :=
      if flags.pendingTx then r.availableWitnessAccountSubsidies
      else Function.update r.availableWitnessAccountSubsidies r.currentWitness
        (r.availableWitnessAccountSubsidies r.currentWitness - accountSubsidyPrecision)
    availableAccountSubsidies := r.availableAccountSubsidies - accountSubsidyPrecision }

/-- The fee goes to the null account. -/
def payFee (op : ClaimAccount) (r : NodeRest) : NodeRest :=
  let paid := Function.update r.balance nullAccount (r.balance nullAccount + op.fee)
  { r with
    balance := Function.update paid op.creator (paid op.creator - op.fee)
    pendingClaimedAccounts := Function.update r.pendingClaimedAccounts op.creator
      (r.pendingClaimedAccounts op.creator + 1) }

/-- `claim_account_evaluator`. -/
def claimAccount (flags : Flags) (op : ClaimAccount) (r : NodeRest) : Option NodeRest :=
  if r.balance op.creator < op.fee then none
  else if op.fee = 0 then (takeSubsidy flags r).map (payFee op)
  else if op.fee ≠ r.accountCreationFee then none
  else some (payFee op r)

end NodeRest

/-- A node whose witness of slot `n` is `n` and whose per-block processing does nothing else. The
payouts of an action are given by their packed size. -/
def nodeEvaluators : Evaluators ClaimAccount Unit
    (Sst.Action Nat) Unit Nat Sst.Tokens NodeRest where
  hasHardfork _ _ := true
  genesisHardforks _ r := (r, none)
  dueHardforks _ r := (r, none)
  validate _ := true
  verifyAuthority _ _ _ := true
  checkTapos _ _ := true
  applyOperation flags _ op tokens r := (r.claimAccount flags op).map fun r => (tokens, r, [])
  evaluateRequired := Sst.evaluate ⟨fun _ _ => 0, fun _ _ => none⟩
  requiredEffect _ _ r := r
  evaluateOptional _ _ tokens := some tokens
  optionalEffect _ _ r := r
  scheduledWitness slot _ := slot
  scheduledWitnesses _ := [1]
  setCurrentWitness w r := { r with currentWitness := w }
  recordSlots _ _ r := r
  scheduleWitnesses _ r := r
  blockSizeVotes r := r.blockSizeVotes
  processBlock _ _ _ r := some r
  generateOptionalActions _ _ _ := []
  blockTime _ _ := none
  emptyBlockSize _ _ := 150
  transactionSize _ := 100
  requiredSize
    | .contributorPayout _ _ _ _ payouts => 50 + payouts
    | .founderPayout _ payouts => 50 + payouts
    | _ => 50
  optionalSize _ := 60
  requiredSize_pos a := by cases a <;> simp
  optionalSize_pos _ := by simp

/-- The state of a node at time 0, with subsidies for one account, of which only the first witness
has a share. -/
def nodeState (maximumBlockSize : Nat) (requiredActions : TimedQueue (Sst.Action Nat))
    (tokens : Sst.Tokens) :
    BlockState (Protocol.Transaction ClaimAccount) (Sst.Action Nat) Unit Sst.Tokens NodeRest where
  headBlockTime := 0
  maximumBlockSize := maximumBlockSize
  requiredActionsPartitionPercent := 2500
  transactions := .empty
  requiredActions := requiredActions
  optionalActions := .empty
  performed := []
  tokens := tokens
  rest := {
    currentWitness := 0
    elected := fun w => w = 1
    availableWitnessAccountSubsidies := fun w => if w = 1 then 10000 else 0
    availableAccountSubsidies := 10000
    accountCreationFee := 3000
    balance := fun _ => 100000
    pendingClaimedAccounts := fun _ => 0
    blockSizeVotes := [] }

/-- A transaction that claims accounts. -/
def claiming (expiration : Nat) (ops : List ClaimAccount) :
    Protocol.SignedTransaction ClaimAccount Unit where
  refBlockNum := 0
  refBlockPrefix := 0
  expiration := expiration
  operations := ops
  signatures := []

end Freezone.Chain
