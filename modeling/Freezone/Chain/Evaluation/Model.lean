import Freezone.Core.TimedQueue
import Freezone.Protocol.Transaction
import Freezone.Chain.Database.Model

/-!
# Applying the contents of a block

`_apply_block` applies the transactions of a block on the state of the previous
head, moves the head, runs the processing that every block has and then applies
the automated actions that the block carries. The model keeps the parts that
these steps share: the index that detects duplicate transactions, the queues of
automated actions, the limits on the size of a block and the time of the head.
The evaluators of operations and actions and the per-block processing stay open.

The tokens are the objects that decide on automated actions. An action reads no
other part of the state, and no per-block processing writes that part.
-/

namespace Freezone.Chain

open Protocol NthElement

/-- `is_producing` and `is_pending_tx`. -/
structure Flags where
  producing : Bool := false
  pendingTx : Bool := false
  deriving DecidableEq

/-- The hardforks that the modelled functions ask for. -/
inductive Hardfork
  | hf09
  | hf12
  | hf20
  | sst
  deriving DecidableEq

/-- `freezone_MAX_TIME_UNTIL_EXPIRATION`. -/
def maxTimeUntilExpiration : Nat := 60 * 60

/-- `freezone_BLOCK_INTERVAL`. -/
def blockInterval : Nat := 3

/-- A required action that was applied, with the time of the block that included it. -/
structure PerformedAction (A : Type) where
  entry : TimedEntry A
  blockTime : Nat

/-- The state that a block changes. -/
structure BlockState (I A B T R : Type) where
  /-- `head_block_time`. -/
  headBlockTime : Nat
  maximumBlockSize : Nat
  requiredActionsPartitionPercent : Nat
  /-- `transaction_index`, by expiration. -/
  transactions : TimedQueue I
  /-- `pending_required_action_index`, by execution. -/
  requiredActions : TimedQueue A
  /-- `pending_optional_action_index`, by execution. -/
  optionalActions : TimedQueue B
  /-- The required actions applied so far: no part of the state, a record of the run. -/
  performed : List (PerformedAction A)
  tokens : T
  rest : R

/-- The evaluators, the per-block processing and the other functions that stay open. -/
structure Evaluators (O G A B W T R : Type) where
  hasHardfork : Hardfork → R → Bool
  /-- The hardforks that come with the first block, and the partition percentage that they set. -/
  genesisHardforks : Nat → R → R × Option Nat
  /-- The hardforks that are due after a block, and the partition percentage that they set. -/
  dueHardforks : Nat → R → R × Option Nat
  /-- `signed_transaction::validate`. -/
  validate : SignedTransaction O G → Bool
  verifyAuthority : Flags → SignedTransaction O G → R → Bool
  /-- The comparison with the block summary that the transaction refers to. -/
  checkTapos : SignedTransaction O G → R → Bool
  /-- The evaluator of an operation at a head block time, with the required actions that it
  pushes and their execution times. -/
  applyOperation : Flags → Nat → O → T → R → Option (T × R × List (A × Nat))
  /-- The evaluator of a required action: its outcome for the tokens and what it pushes. -/
  evaluateRequired : Nat → A → T → Option (T × List (A × Nat))
  /-- What a required action does to the rest of the state. -/
  requiredEffect : A → T → R → R
  evaluateOptional : Nat → B → T → Option T
  optionalEffect : B → T → R → R
  /-- `get_scheduled_witness`. -/
  scheduledWitness : Nat → R → W
  /-- `current_shuffled_witnesses`. -/
  scheduledWitnesses : R → List W
  setCurrentWitness : W → R → R
  /-- The missed blocks and slots of `update_global_dynamic_data`. -/
  recordSlots : Nat → W → R → R
  /-- The rest of `update_witness_schedule`. -/
  scheduleWitnesses : Nat → R → R
  /-- `props.maximum_block_size` of the scheduled witnesses. -/
  blockSizeVotes : R → List Nat
  /-- The processing between the schedule update and the automated actions. -/
  processBlock : Nat → Nat → T → R → Option R
  /-- The optional actions that the plugins push, with their execution times. -/
  generateOptionalActions : Nat → T → R → List (B × Nat)
  /-- The time of the block with a number, if it is found. -/
  blockTime : Nat → R → Option Nat
  /-- `pack_size` of the block that a witness starts with, version reports included. -/
  emptyBlockSize : W → R → Nat
  transactionSize : SignedTransaction O G → Nat
  requiredSize : A → Nat
  optionalSize : B → Nat
  requiredSize_pos : ∀ a, 0 < requiredSize a
  optionalSize_pos : ∀ a, 0 < optionalSize a

/-- The exceptions of `_apply_transaction`. -/
inductive TransactionError
  | invalid
  | duplicate
  | missingAuthority
  | tapos
  | expiration
  | operation
  deriving DecidableEq

/-- The assertions of `process_required_actions`. -/
inductive ActionError
  /-- "Expected action was not included in block." -/
  | expectedNotIncluded
  /-- "Block included required action that does not exist in queue" -/
  | notInQueue
  /-- "Unexpected action included." -/
  | unexpected
  /-- The evaluator of the action throws. -/
  | rejected
  deriving DecidableEq

namespace BlockState

variable {I A B T R : Type}

/-- `is_known_transaction`. -/
def isKnownTransaction [DecidableEq I] (st : BlockState I A B T R) (id : I) : Bool :=
  st.transactions.holds id

/-- `push_required_action` for each action, with an execution time that is not before the head
block; a pending transaction schedules nothing. -/
def pushRequiredActions (flags : Flags) (actions : List (A × Nat)) (st : BlockState I A B T R) :
    BlockState I A B T R :=
  if flags.pendingTx then st
  else { st with requiredActions :=
    st.requiredActions.pushAll (actions.map fun p => (p.1, max p.2 st.headBlockTime)) }

/-- `push_optional_action` for each action. -/
def pushOptionalActions (actions : List (B × Nat)) (st : BlockState I A B T R) :
    BlockState I A B T R :=
  { st with optionalActions :=
    st.optionalActions.pushAll (actions.map fun p => (p.1, max p.2 st.headBlockTime)) }

/-- `clear_expired_transactions`. -/
def clearExpiredTransactions (st : BlockState I A B T R) : BlockState I A B T R :=
  { st with transactions := st.transactions.dropBefore st.headBlockTime }

/-- The share of a block for required actions in `process_required_actions`, a product of 32 bits
divided by `freezone_100_PERCENT`. -/
def requiredActionsPartitionSize (st : BlockState I A B T R) : Nat :=
  st.maximumBlockSize * st.requiredActionsPartitionPercent % 2 ^ 32 / percent100

/-- The changes of hardforks. -/
def applyHardforks (hardforks : R → R × Option Nat) (st : BlockState I A B T R) :
    BlockState I A B T R :=
  { st with
    rest := (hardforks st.rest).1
    requiredActionsPartitionPercent :=
      (hardforks st.rest).2.getD st.requiredActionsPartitionPercent }

end BlockState

/-- `get_slot_time`, for slots from 1 on. -/
def slotTime (headBlockNum headBlockTime slot : Nat) : Nat :=
  if headBlockNum = 0 then headBlockTime + slot * blockInterval
  else headBlockTime / blockInterval * blockInterval + slot * blockInterval

/-- `get_slot_at_time`. -/
def slotAtTime (headBlockNum headBlockTime time : Nat) : Nat :=
  if time < slotTime headBlockNum headBlockTime 1 then 0
  else (time - slotTime headBlockNum headBlockTime 1) / blockInterval + 1

namespace Evaluators

variable {H I O G A B W T R : Type} [DecidableEq I] [DecidableEq A] [DecidableEq B] [DecidableEq W]
variable [TransactionDigest I O]

variable (ev : Evaluators O G A B W T R)

/-- `pack_size` of a block. -/
def packSize (b : BlockContents O G A B W) : Nat :=
  b.emptySize + (varintSize b.transactions.length - 1) +
    (b.transactions.map ev.transactionSize).sum +
    extensionSize (b.requiredActions.map ev.requiredSize) +
    extensionSize (b.optionalActions.map ev.optionalSize)

/-- The operations of a transaction, in order. -/
def applyOperations (flags : Flags) : List O → BlockState I A B T R → Option (BlockState I A B T R)
  | [], st => some st
  | op :: ops, st =>
    match ev.applyOperation flags st.headBlockTime op st.tokens st.rest with
    | none => none
    | some (tokens, rest, actions) => applyOperations flags ops
        (BlockState.pushRequiredActions flags actions { st with tokens := tokens, rest := rest })

/-- `_apply_transaction`. -/
def applyTransaction (flags : Flags) (headBlockNum : Nat)
    (trx : SignedTransaction O G) (st : BlockState I A B T R) :
    Except TransactionError (BlockState I A B T R) :=
  let id : I := trx.id I
  let now := st.headBlockTime
  if !ev.validate trx then .error .invalid
  else if st.isKnownTransaction id then .error .duplicate
  else if !ev.verifyAuthority flags trx st.rest then .error .missingAuthority
  -- on block 1 neither TaPoS nor the expiration is checked
  else if 0 < headBlockNum ∧ !ev.checkTapos trx st.rest then .error .tapos
  else if 0 < headBlockNum ∧ now + maxTimeUntilExpiration < trx.expiration then .error .expiration
  else if 0 < headBlockNum ∧ ev.hasHardfork .hf09 st.rest ∧ trx.expiration ≤ now then
    .error .expiration
  else if 0 < headBlockNum ∧ trx.expiration < now then .error .expiration
  else
    match applyOperations ev flags trx.operations
        { st with transactions := st.transactions.push id trx.expiration } with
    | none => .error .operation
    | some st' => .ok st'

/-- The transactions of a block, in order. -/
def applyTransactions (flags : Flags) (headBlockNum : Nat) :
    List (SignedTransaction O G) → BlockState I A B T R → Option (BlockState I A B T R)
  | [], st => some st
  | trx :: trxs, st =>
    match ev.applyTransaction flags headBlockNum trx st with
    | .error _ => none
    | .ok st' => applyTransactions flags headBlockNum trxs st'

/-- `apply_required_action`. -/
def applyRequiredAction (a : A) (st : BlockState I A B T R) : Option (BlockState I A B T R) :=
  match ev.evaluateRequired st.headBlockTime a st.tokens with
  | none => none
  | some (tokens, actions) => some (BlockState.pushRequiredActions {} actions
      { st with tokens := tokens, rest := ev.requiredEffect a st.tokens st.rest })

/-- The loop of `process_required_actions`: each action of the block has to be the first pending
one, whatever its execution time; a pending action that is due may be left out only if the actions
would then take more than their share. -/
def matchRequiredActions :
    List A → Nat → BlockState I A B T R → Except ActionError (BlockState I A B T R)
  | [], total, st =>
    match st.requiredActions.first with
    | none => .ok st
    | some pending =>
      if pending.time ≤ st.headBlockTime ∧
          total + ev.requiredSize pending.item ≤ st.requiredActionsPartitionSize then
        .error .expectedNotIncluded
      else .ok st
  | a :: actions, total, st =>
    match st.requiredActions.first with
    | none => .error .notInQueue
    | some pending =>
      if a ≠ pending.item then .error .unexpected
      else
        match ev.applyRequiredAction a st with
        | none => .error .rejected
        | some st' => matchRequiredActions actions (total + ev.requiredSize a)
            { st' with
              requiredActions := st'.requiredActions.erase pending.id
              performed := st'.performed ++ [⟨pending, st.headBlockTime⟩] }

/-- `process_required_actions`. -/
def processRequiredActions (actions : List A)
    (st : BlockState I A B T R) : Except ActionError (BlockState I A B T R) :=
  ev.matchRequiredActions actions 0 st

/-- `apply_optional_action`. -/
def applyOptionalAction (a : B) (st : BlockState I A B T R) : Option (BlockState I A B T R) :=
  match ev.evaluateOptional st.headBlockTime a st.tokens with
  | none => none
  | some tokens => some { st with tokens := tokens, rest := ev.optionalEffect a st.tokens st.rest }

/-- The optional actions of a block: each has to succeed and is taken off the queue, where it may
not be. -/
def applyOptionalActions : List B → BlockState I A B T R → Option (BlockState I A B T R)
  | [], st => some st
  | a :: actions, st =>
    match ev.applyOptionalAction a st with
    | none => none
    | some st' =>
      match st'.optionalActions.entries.find? fun e => e.item = a with
      | none => applyOptionalActions actions st'
      | some pending => applyOptionalActions actions
          { st' with optionalActions := st'.optionalActions.erase pending.id }

/-- `process_optional_actions`, which also drops the actions that were due at the last
irreversible block. -/
def processOptionalActions (lastIrreversibleBlockNum : Nat)
    (actions : List B) (st : BlockState I A B T R) : Option (BlockState I A B T R) :=
  if !ev.hasHardfork .sst st.rest then some st
  else
    match ev.applyOptionalActions actions st with
    | none => none
    | some st' =>
      match ev.blockTime lastIrreversibleBlockNum st'.rest with
      | none => some st'
      | some time => some { st' with optionalActions := st'.optionalActions.dropBefore (time + 1) }

/-- `update_witness_schedule`: at the end of a round the median vote becomes the maximum block
size. -/
def updateWitnessSchedule (headBlockNum : Nat) (st : BlockState I A B T R) : BlockState I A B T R :=
  if headBlockNum % maxWitnesses = 0 then
    let rest := ev.scheduleWitnesses headBlockNum st.rest
    let votes := ev.blockSizeVotes rest
    { st with
      rest := rest
      maximumBlockSize := (nthElement votes (votes.length / 2)).getD st.maximumBlockSize }
  else st

/-- The checks of `_apply_block` on the block itself: time, slot, size and hardfork. -/
def admits (headBlockNum : Nat) (b : BlockContents O G A B W) (st : BlockState I A B T R) : Bool :=
  let slot := slotAtTime headBlockNum st.headBlockTime b.timestamp
  decide (st.headBlockTime < b.timestamp) && decide (0 < slot) &&
    decide (ev.scheduledWitness slot st.rest = b.witness) &&
    (!ev.hasHardfork .hf12 st.rest || decide (ev.packSize b ≤ st.maximumBlockSize)) &&
    ((b.requiredActions.isEmpty && b.optionalActions.isEmpty) || ev.hasHardfork .sst st.rest)

/-- The state in which a block is checked: the first block brings its hardforks. -/
def openBlock (headBlockNum time : Nat) (st : BlockState I A B T R) : BlockState I A B T R :=
  if headBlockNum = 0 then st.applyHardforks (ev.genesisHardforks time) else st

/-- `_apply_block` up to `update_global_dynamic_data`. -/
def applyContents (flags : Flags) (headBlockNum : Nat)
    (b : BlockContents O G A B W) (st : BlockState I A B T R) : Option (BlockState I A B T R) :=
  let st := ev.openBlock headBlockNum b.timestamp st
  if ev.admits headBlockNum b st then
    (ev.applyTransactions flags headBlockNum b.transactions
      { st with rest := ev.setCurrentWitness b.witness st.rest }).map fun st' =>
        { st' with
          headBlockTime := b.timestamp
          rest := ev.recordSlots b.timestamp b.witness st'.rest }
  else none

/-- `_apply_block` from `create_block_summary` to `generate_optional_actions`. -/
def prepareActions (headBlockNum : Nat)
    (st : BlockState I A B T R) : Option (BlockState I A B T R) :=
  let st := ev.updateWitnessSchedule headBlockNum st.clearExpiredTransactions
  (ev.processBlock headBlockNum st.headBlockTime st.tokens st.rest).map fun rest =>
    BlockState.pushOptionalActions
      (ev.generateOptionalActions st.headBlockTime st.tokens rest) { st with rest := rest }

/-- `_apply_block` from `create_block_summary` to `process_hardforks`. -/
def applyProcessing (headBlockNum lastIrreversibleBlockNum : Nat)
    (b : BlockContents O G A B W) (st : BlockState I A B T R) : Option (BlockState I A B T R) :=
  match ev.prepareActions headBlockNum st with
  | none => none
  | some st =>
    match ev.processRequiredActions b.requiredActions st with
    | .error _ => none
    | .ok st =>
      (ev.processOptionalActions lastIrreversibleBlockNum b.optionalActions st).map fun st =>
        st.applyHardforks (ev.dueHardforks st.headBlockTime)

/-- What `_apply_block` computes, as the database uses it. -/
def blockRules (flags : Flags) (skipUndoHistoryCheck : Bool) :
    Rules H (BlockContents O G A B W) W (BlockState I A B T R) where
  before b s := ev.applyContents flags s.headBlockNumber b.payload s.rest
  after b s := ev.applyProcessing s.headBlockNumber s.lastIrreversibleBlockNum b.payload s.rest
  witness b := b.payload.witness
  scheduled st := ev.scheduledWitnesses st.rest
  skipUndoHistoryCheck := skipUndoHistoryCheck

end Evaluators

end Freezone.Chain
