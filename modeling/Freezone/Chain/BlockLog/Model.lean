import Freezone.Core.Records
import Freezone.Protocol.Block

/-!
# The block log

`block_log` appends packed blocks to a file, each followed by its start position,
and keeps a second file with one eight-byte position per block. Opening it
compares the last positions of the two files and rebuilds the index when they
differ. A file is the list of its bytes; a missing file is created empty by the
open for appending. Reading past the end of a file or seeking before its start
throws.
-/

namespace Freezone.Chain

open Protocol Records

/-- `fc::raw` packing of blocks: unpacking from a stream takes off what packing wrote. -/
structure BlockCodec (H P : Type) where
  pack : SignedBlock H P → List UInt8
  unpack : List UInt8 → Option (SignedBlock H P × List UInt8)
  unpack_pack : ∀ b rest, unpack (pack b ++ rest) = some (b, rest)

/-- The exceptions of the block log. -/
inductive LogError
  | streamFailure
  | wrongPosition
  | wrongBlock
  | diverged
  deriving DecidableEq, Repr

/-- `block_log_impl`: the two files and the last block. -/
structure BlockLog (H P : Type) where
  head : Option (SignedBlock H P) := none
  blockFile : List UInt8 := []
  indexFile : List UInt8 := []

namespace BlockLog

variable {H P : Type} (codec : BlockCodec H P)

/-- A stream operation whose failure throws. -/
def orThrow {α : Type} : Option α → Except LogError α
  | none => .error .streamFailure
  | some a => .ok a

variable (log : BlockLog H P)

/-- `read_block_helper`: the block at a position and the position after its record. -/
def readBlockHelper (pos : Nat) : Except LogError (SignedBlock H P × Nat) := do
  let (b, rest) ← orThrow (codec.unpack (log.blockFile.drop pos))
  return (b, log.blockFile.length - rest.length + 8)

/-- `read_head`. -/
def readHead : Except LogError (SignedBlock H P) := do
  let pos ← orThrow (tailU64 log.blockFile)
  let (b, _) ← log.readBlockHelper codec pos
  return b

/-- The loop of `construct_index`: `pos` is the position read last. -/
def indexLoop (endPos : Nat) : Nat → Nat → List UInt8 → List UInt8 → Except LogError (List UInt8)
  | fuel, pos, stream, index =>
    if pos < endPos then
      match fuel with
      | 0 => .error .diverged
      | fuel + 1 => do
        let (_, afterBlock) ← orThrow (codec.unpack stream)
        let (pos', rest) ← orThrow (readU64 afterBlock)
        indexLoop endPos fuel pos' rest (index ++ leBytes 8 pos')
    else .ok index

/-- `construct_index`. Every record has eight bytes at least, so the size of the file bounds
the loop. -/
def constructIndex : Except LogError (BlockLog H P) := do
  let endPos ← orThrow (tailU64 log.blockFile)
  let index ← indexLoop codec endPos log.blockFile.length 0 log.blockFile []
  return { log with indexFile := index }

/-- `open`, on the contents of the two files. -/
def openFiles (blockFile indexFile : List UInt8) : Except LogError (BlockLog H P) :=
  let files : BlockLog H P := { blockFile, indexFile }
  if blockFile.length ≠ 0 then do
    let head ← files.readHead codec
    let log := { files with head := some head }
    if indexFile.length ≠ 0 then
      let blockPos ← orThrow (tailU64 blockFile)
      let indexPos ← orThrow (tailU64 indexFile)
      if blockPos < indexPos then log.constructIndex codec
      else if indexPos < blockPos then log.constructIndex codec
      else return log
    else log.constructIndex codec
  else if indexFile.length ≠ 0 then .ok { files with indexFile := [] }
  else .ok files

/-- `append`: the position of the block and the log after it. -/
def append (b : SignedBlock H P) : Except LogError (Nat × BlockLog H P) :=
  let pos := log.blockFile.length
  if log.indexFile.length ≠ 8 * (b.blockNum - 1) then .error .wrongPosition
  else .ok (pos, {
    head := some b
    blockFile := log.blockFile ++ codec.pack b ++ leBytes 8 pos
    indexFile := log.indexFile ++ leBytes 8 pos })

/-- `get_block_pos_helper`: no position for a number outside the log. -/
def getBlockPosHelper (num : Nat) : Except LogError (Option Nat) :=
  match log.head with
  | none => .ok none
  | some head =>
    if num ≤ head.blockNum ∧ 0 < num then do
      let (pos, _) ← orThrow (readU64 (log.indexFile.drop (8 * (num - 1))))
      return some pos
    else .ok none

/-- `read_block_by_num`. -/
def readBlockByNum (num : Nat) : Except LogError (Option (SignedBlock H P)) := do
  match ← log.getBlockPosHelper num with
  | none => return none
  | some pos =>
    let (b, _) ← log.readBlockHelper codec pos
    if b.blockNum = num then return some b else .error .wrongBlock

end BlockLog

end Freezone.Chain
