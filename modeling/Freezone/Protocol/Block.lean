import Mathlib

/-!
# Blocks and block ids

A block id is a hash of the signed header whose first word is replaced by the
block number; the number is one more than the number inside the previous id. A
chain with a block every three seconds stays below `2 ^ 32` for four centuries, so
numbers are plain naturals. The hash function is left open: no result depends on
it.
-/

namespace Freezone.Protocol

/-- `block_id_type`: the block number and the remaining words of the hash. -/
structure BlockId (H : Type) where
  /-- `num_from_id`. -/
  num : Nat
  /-- The words after the first one. -/
  hash : H
  deriving DecidableEq

/-- `block_id_type()`: all words zero, with the default hash for its zero words. -/
def BlockId.zero {H : Type} [Inhabited H] : BlockId H := ⟨0, default⟩

/-- `signed_block`: the link to the previous block and everything else it carries (timestamp,
witness, signature, transactions). -/
structure SignedBlock (H P : Type) where
  previous : BlockId H
  payload : P

/-- The hash of a signed header. -/
class HeaderHash (H P : Type) where
  hash : SignedBlock H P → H

namespace SignedBlock

variable {H P : Type}

/-- `block_num`. -/
def blockNum (b : SignedBlock H P) : Nat := b.previous.num + 1

/-- `id`: the hash with the block number stored in its first word. -/
def id [HeaderHash H P] (b : SignedBlock H P) : BlockId H := ⟨b.blockNum, HeaderHash.hash b⟩

@[simp] theorem id_num [HeaderHash H P] (b : SignedBlock H P) : b.id.num = b.blockNum := rfl

end SignedBlock

/-- Blocks whose payload is a number that serves as the hash, for concrete runs. -/
instance numberedBlocks : HeaderHash Nat Nat := ⟨SignedBlock.payload⟩

end Freezone.Protocol
