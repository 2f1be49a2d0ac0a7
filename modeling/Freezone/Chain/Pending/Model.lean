import Freezone.Core.Exec
import Freezone.Chain.Evaluation.Model

/-!
# Pending transactions

A node keeps the transactions that are not yet in a block, applied one after the
other in a session over the state of the head. `push_block` takes that session
back, pushes the block and restores the transactions that the push has popped and
then the pending ones, whether the push has returned or thrown. When that takes
too long it only stores the ones that are left.
-/

namespace Freezone.Chain

open Protocol

/-- The exceptions of `push_transaction`. -/
inductive PushError
  /-- `pack_size` exceeds `maximum_block_size - 256`, a difference of 32 bits. -/
  | tooBig
  | rejected (e : TransactionError)
  deriving DecidableEq

/-- A database with `_pending_tx` and the state of `_pending_tx_session`. -/
structure Node (H I O G A B W T R : Type) where
  db : Database H (BlockContents O G A B W) W (BlockState I A B T R)
  pendingTx : List (SignedTransaction O G) := []
  session : Option (BlockState I A B T R) := none

namespace Node

variable {H I O G A B W T R : Type} [DecidableEq H] [Inhabited H] [DecidableEq I] [DecidableEq A]
variable [DecidableEq B] [DecidableEq W] [TransactionDigest I O]
variable [HeaderHash H (BlockContents O G A B W)]

/-- The state that the session has, or else that of the head. -/
def state (n : Node H I O G A B W T R) : BlockState I A B T R :=
  n.session.getD n.db.store.current.rest

/-- The flags under which blocks are applied; a node that produces a block pushes it itself. -/
def blockFlags (producing : Bool) : Flags := { producing := producing, pendingTx := false }

/-- The flags that `push_transaction` sets. -/
def pendingFlags : Flags := { producing := true, pendingTx := true }

variable (ev : Evaluators O G A B W T R)

/-- `_push_transaction`, which opens the session if there is none. -/
def pushTransactionWith (flags : Flags) (trx : SignedTransaction O G) (n : Node H I O G A B W T R) :
    EStateM.Result TransactionError (Node H I O G A B W T R) Unit :=
  match ev.applyTransaction flags n.db.headBlockNum trx n.state with
  | .error e => .error e { n with session := some n.state }
  | .ok st => .ok () { n with session := some st, pendingTx := n.pendingTx ++ [trx] }

/-- `push_transaction`. -/
def pushTransaction (trx : SignedTransaction O G)
    (n : Node H I O G A B W T R) : EStateM.Result PushError (Node H I O G A B W T R) Unit :=
  if (n.state.maximumBlockSize + 2 ^ 32 - 256) % 2 ^ 32 < ev.transactionSize trx then
    .error .tooBig n
  else match pushTransactionWith ev pendingFlags trx n with
    | .error e n' => .error (.rejected e) n'
    | .ok () n' => .ok () n'

/-- The state of the loops of `~pending_transactions_restorer`: the node, `apply_trxs` and how
often the loops have come to the clock. -/
structure Restoring (H I O G A B W T R : Type) where
  node : Node H I O G A B W T R
  applyTrxs : Bool := true
  reading : Nat := 0

/-- One iteration of either loop. The readings of the clock say whether the limit is exceeded; from
the first such reading on, transactions are stored without being applied. -/
def restoreOne (flags : Flags) (late : Nat → Bool)
    (r : Restoring H I O G A B W T R) (trx : SignedTransaction O G) : Restoring H I O G A B W T R :=
  let applyTrxs := r.applyTrxs && !late r.reading
  { node :=
      if applyTrxs then
        if r.node.state.isKnownTransaction (trx.id I) then r.node
        else Exec.finalState (pushTransactionWith ev flags trx r.node)
      else { r.node with pendingTx := r.node.pendingTx ++ [trx] }
    applyTrxs := applyTrxs
    reading := r.reading + 1 }

/-- `_popped_tx`. -/
def poppedTx (db : Database H (BlockContents O G A B W) W (BlockState I A B T R)) :
    List (SignedTransaction O G) :=
  db.popped.flatMap fun e => e.block.payload.transactions

/-- `~pending_transactions_restorer`: the popped transactions and then the pending ones. -/
def restore (flags : Flags) (late : Nat → Bool) (pending : List (SignedTransaction O G))
    (db : Database H (BlockContents O G A B W) W (BlockState I A B T R)) : Node H I O G A B W T R :=
  let popped := (poppedTx db).foldl (restoreOne ev flags late) { node := { db := db } }
  let cleared := { popped with node := { popped.node with db := { db with popped := [] } } }
  (pending.foldl (restoreOne ev flags late) cleared).node

/-- `push_block`: the pending transactions are cleared before the push and restored after it. -/
def pushBlock (producing skipUndoHistoryCheck : Bool)
    (late : Nat → Bool) (b : SignedBlock H (BlockContents O G A B W)) (n : Node H I O G A B W T R) :
    EStateM.Result DatabaseError (Node H I O G A B W T R) Bool :=
  let flags := blockFlags producing
  match Database.pushBlock (ev.blockRules flags skipUndoHistoryCheck) b n.db with
  | .ok switched db => .ok switched (restore ev flags late n.pendingTx db)
  | .error e db => .error e (restore ev flags late n.pendingTx db)

end Node

end Freezone.Chain
