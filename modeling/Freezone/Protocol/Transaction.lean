import Freezone.Protocol.Block

/-!
# Transactions and what a block carries

The id of a transaction is a digest of everything but its signatures; the digest
is taken to be free of collisions. Operations, signatures and automated actions
are left open. Times are seconds since the epoch.
-/

namespace Freezone.Protocol

/-- `transaction`. -/
structure Transaction (O : Type) where
  refBlockNum : Nat
  refBlockPrefix : Nat
  expiration : Nat
  operations : List O
  deriving DecidableEq

/-- `signed_transaction`. -/
structure SignedTransaction (O G : Type) extends Transaction O where
  signatures : List G
  deriving DecidableEq

/-- `transaction::id`. -/
class TransactionDigest (I O : Type) where
  id : Transaction O → I
  injective : Function.Injective id

/-- The id of a signed transaction does not depend on its signatures. -/
def SignedTransaction.id {O G : Type} (I : Type) [TransactionDigest I O]
    (trx : SignedTransaction O G) : I :=
  TransactionDigest.id trx.toTransaction

/-- A transaction as its own digest, for concrete runs. -/
instance transactionItself (O : Type) : TransactionDigest (Transaction O) O :=
  ⟨fun trx => trx, fun _ _ h => h⟩

/-- What `signed_block` carries beyond the link to the previous block. The merkle root and the
signature are functions of the rest and of a key. -/
structure BlockContents (O G A B W : Type) where
  timestamp : Nat
  witness : W
  transactions : List (SignedTransaction O G)
  /-- The actions of the `required_automated_actions` extension. -/
  requiredActions : List A
  /-- The actions of the `optional_automated_actions` extension. -/
  optionalActions : List B
  /-- The packed size of the block without transactions and actions. -/
  emptySize : Nat
  deriving DecidableEq

/-- Blocks whose time serves as the hash, for concrete runs. -/
instance timestampHash (O G A B W : Type) : HeaderHash Nat (BlockContents O G A B W) :=
  ⟨fun b => b.payload.timestamp⟩

/-- The packed size of an `unsigned_int`. -/
def varintSize (n : Nat) : Nat :=
  if n < 2 ^ 7 then 1
  else if n < 2 ^ 14 then 2
  else if n < 2 ^ 21 then 3
  else if n < 2 ^ 28 then 4
  else 5

/-- The packed size of a header extension with actions of the given sizes; a block without such
actions has no such extension. -/
def extensionSize (sizes : List Nat) : Nat :=
  if sizes = [] then 0 else 1 + varintSize sizes.length + sizes.sum

end Freezone.Protocol
