import Freezone.Core.Snapshots
import Freezone.Chain.Irreversible
import Freezone.Chain.ForkDatabase.Model
import Freezone.Chain.BlockLog.Index

/-!
# Pushing a block

`database::_push_block` hands a block to the fork database and then extends the
chain, keeps the block for later, or switches to the fork it completes. The
chain state lives in a store with one session per block that is not committed;
the fork database, the block log and the notifications are outside of it, and an
exception leaves them as they are. The state of pending transactions is closed
before the call and is no part of the store.

Every function returns the database at its return or at its throw.
-/

namespace Freezone.Chain

open Protocol

/-- The block log as the chain uses it: blocks numbered from 1, newest first. -/
structure LoggedBlocks (H P : Type) where
  blocks : List (SignedBlock H P)
  numbered : BlockLog.Numbered blocks.reverse

namespace LoggedBlocks

variable {H P : Type}

/-- A log without blocks. -/
def empty : LoggedBlocks H P := ⟨[], by simp [BlockLog.Numbered]⟩

/-- The number of the head of the log, or 0. -/
def headNum (log : LoggedBlocks H P) : Nat := (log.blocks.head?.map SignedBlock.blockNum).getD 0

theorem headNum_eq (log : LoggedBlocks H P) : log.headNum = log.blocks.length := by
  unfold headNum
  cases h : log.blocks with
  | nil => rfl
  | cons b older =>
    have hnum := log.numbered.getLast? (b := b) (by rw [h]; simp)
    rw [h, List.length_reverse] at hnum
    exact hnum

/-- `read_block_by_num`. -/
def readBlockByNum (log : LoggedBlocks H P) (num : Nat) : Option (SignedBlock H P) :=
  log.blocks.find? fun b => b.blockNum == num

/-- `append`, which checks that the index has an entry for every earlier block. -/
def append (log : LoggedBlocks H P) (b : SignedBlock H P) : Option (LoggedBlocks H P) :=
  if h : b.blockNum = log.headNum + 1 then
    some ⟨b :: log.blocks, by
      rw [List.reverse_cons]
      exact log.numbered.append (by rw [h, headNum_eq, List.length_reverse])⟩
  else none

end LoggedBlocks

/-- `freezone_MAX_UNDO_HISTORY`. -/
def maxUndoHistory : Nat := 10000

/-- What `_apply_block` computes beyond the head, the confirmations and the last irreversible
block, under the flags of the node. -/
structure Rules (H P W S : Type) where
  /-- The checks and changes up to `update_last_irreversible_block`. -/
  before : SignedBlock H P → ChainState H W S → Option S
  /-- The checks and changes from there to `migrate_irreversible_state`. -/
  after : SignedBlock H P → ChainState H W S → Option S
  /-- The witness of a block. -/
  witness : SignedBlock H P → W
  /-- The current shuffled witnesses. -/
  scheduled : S → List W
  /-- `skip_undo_history_check`. -/
  skipUndoHistoryCheck : Bool := false

namespace Rules

variable {H P W S : Type} [DecidableEq H] [DecidableEq W] [HeaderHash H P]

variable (rules : Rules H P W S)

/-- `_apply_block` up to `update_last_irreversible_block`. -/
def confirm (b : SignedBlock H P) (s : ChainState H W S) : Option (ChainState H W S) :=
  if b.previous ≠ s.headBlockId then none
  else match rules.before b s with
    | none => none
    | some rest =>
      if !rules.skipUndoHistoryCheck && maxUndoHistory ≤ b.blockNum -
          s.lastIrreversibleBlockNum then
        none
      else some (ChainState.confirmBlock b (rules.witness b) (rules.scheduled rest)
        { s with rest := rest })

/-- `_apply_block` from there to `migrate_irreversible_state`. -/
def finish (b : SignedBlock H P) (s : ChainState H W S) : Option (ChainState H W S) :=
  (rules.after b s).map fun rest => { s with rest := rest }

/-- The state after a block that is valid on a state. -/
def evaluate (b : SignedBlock H P) (s : ChainState H W S) : Option (ChainState H W S) :=
  (rules.confirm b s).bind (rules.finish b)

end Rules

/-- The exceptions that leave `open` and `push_block`. -/
inductive DatabaseError
  | invalidBlock
  | forkHeadNotChainHead
  | missingIrreversibleBlock
  | logPosition
  | popEmptyChain
  | stateNotInLog
  | fork (e : ForkError)
  | diverged
  deriving DecidableEq, Repr

/-- A block taken off the chain, with the last irreversible block number at that moment. -/
structure PoppedBlock (H P : Type) where
  block : SignedBlock H P
  lastIrreversibleBlockNum : Nat

/-- `database`. -/
structure Database (H P W S : Type) where
  store : Snapshots (ChainState H W S)
  forkDb : ForkDatabase H P := {}
  blockLog : LoggedBlocks H P := .empty
  /-- The popped blocks, newest first: their transactions are `_popped_tx`. -/
  popped : List (PoppedBlock H P) := []
  /-- The arguments of `notify_irreversible_block`, in order. -/
  notified : List Nat := []

namespace Database

variable {H P W S : Type} [DecidableEq H] [Inhabited H] [DecidableEq W] [HeaderHash H P]

/-- Return or exception, and the database then. -/
abbrev Outcome (H P W S α : Type) := EStateM.Result DatabaseError (Database H P W S) α

/-- `head_block_id`. -/
def headBlockId (db : Database H P W S) : BlockId H := db.store.current.headBlockId

/-- `head_block_num`. -/
def headBlockNum (db : Database H P W S) : Nat := db.store.current.headBlockNumber

/-- `fetch_block_by_id`. -/
def fetchBlockById (db : Database H P W S) (id : BlockId H) : Option (SignedBlock H P) :=
  match db.forkDb.fetchBlock id with
  | some item => some item.data
  | none => (db.blockLog.readBlockByNum id.num).filter fun b => b.id == id

/-- The blocks that `migrate_irreversible_state` collects after the block `num`. -/
def blocksToWrite (forkDb : ForkDatabase H P) (pinned : List (ForkItem H P)) (num : Nat) :
    Nat → Option (List (SignedBlock H P))
  | 0 => some []
  | count + 1 =>
    (forkDb.fetchBlockOnMainBranchByNumber pinned (num + 1)).bind fun item =>
      (blocksToWrite forkDb pinned (num + 1) count).map fun blocks => item.data :: blocks

/-- The loop that appends the collected blocks. -/
def appendAll (log : LoggedBlocks H P) :
    List (SignedBlock H P) → EStateM.Result DatabaseError (LoggedBlocks H P) Unit
  | [] => .ok () log
  | b :: blocks =>
    match log.append b with
    | none => .error .logPosition log
    | some log' => appendAll log' blocks

/-- `migrate_irreversible_state`. -/
def migrateIrreversibleState (pinned : List (ForkItem H P)) (db : Database H P W S) :
    Outcome H P W S Unit :=
  let last := db.store.current.lastIrreversibleBlockNum
  if db.forkDb.head.any fun head => head.num ≠ db.headBlockNum then
    .error .forkHeadNotChainHead db
  else match blocksToWrite db.forkDb pinned db.blockLog.headNum (last - db.blockLog.headNum) with
    | none => .error .missingIrreversibleBlock db
    | some blocks =>
      match appendAll db.blockLog blocks with
      | .error e log => .error e { db with blockLog := log }
      | .ok () log =>
        .ok () { db with
          blockLog := log
          forkDb := db.forkDb.setMaxSize (db.headBlockNum - last + 1)
          store := db.store.commit last }

variable (rules : Rules H P W S)

/-- `apply_block`. The irreversible blocks are notified before the rest of the block is
processed; both ends of the interval are. -/
def applyBlock (pinned : List (ForkItem H P)) (b : SignedBlock H P)
    (db : Database H P W S) : Outcome H P W S Unit :=
  match rules.confirm b db.store.current with
  | none => .error .invalidBlock db
  | some s =>
    let old := db.store.current.lastIrreversibleBlockNum
    let notified := db.notified ++ List.range' old (s.lastIrreversibleBlockNum + 1 - old)
    match rules.finish b s with
    | none => .error .invalidBlock { db with store := db.store.set s, notified := notified }
    | some s' =>
      migrateIrreversibleState pinned { db with store := db.store.set s', notified := notified }

/-- A session around `apply_block`: pushed on return, undone by its destructor on an
exception. -/
def applyInSession (pinned : List (ForkItem H P)) (b : SignedBlock H P)
    (db : Database H P W S) : Outcome H P W S Unit :=
  match applyBlock rules pinned b { db with store := db.store.start } with
  | .ok () db' => .ok () db'
  | .error e db' => .error e { db' with store := db'.store.undo }

/-- `pop_block`. Undoing an empty stack of sessions does nothing. -/
def popBlock (pinned : List (ForkItem H P)) (db : Database H P W S) : Outcome H P W S Unit :=
  match db.fetchBlockById db.headBlockId with
  | none => .error .popEmptyChain db
  | some block =>
    match db.forkDb.popBlock pinned with
    | .error e => .error (.fork e) db
    | .ok forkDb =>
      .ok () { db with
        forkDb := forkDb
        store := db.store.undo
        popped := ⟨block, db.store.current.lastIrreversibleBlockNum⟩ :: db.popped }

/-- `while( head_block_id() != point ) pop_block();` -/
def popUntil (pinned : List (ForkItem H P)) (point : BlockId H) :
    Nat → Database H P W S → Outcome H P W S Unit
  | fuel, db =>
    if db.headBlockId = point then .ok () db
    else match fuel with
      | 0 => .error .diverged db
      | fuel + 1 =>
        match popBlock pinned db with
        | .error e db' => .error e db'
        | .ok () db' => popUntil pinned point fuel db'

/-- A bound on the number of pops: each one moves the head of the fork database down. -/
def popFuel (db : Database H P W S) : Nat := (db.forkDb.head.map ForkItem.num).getD 0 + 1

/-- Make an item the head of the fork database and apply its block. -/
def applyItem (pinned : List (ForkItem H P)) (item : ForkItem H P)
    (db : Database H P W S) : Outcome H P W S Unit :=
  applyInSession rules pinned item.data { db with forkDb := db.forkDb.setHead item }

/-- Apply a branch, oldest block first. -/
def applyItems (pinned : List (ForkItem H P)) :
    List (ForkItem H P) → Database H P W S → Outcome H P W S Unit
  | [], db => .ok () db
  | item :: items, db =>
    match applyItem rules pinned item db with
    | .error e db' => .error e db'
    | .ok () db' => applyItems pinned items db'

/-- Remove blocks from the fork database. -/
def removeItems (items : List (ForkItem H P)) (db : Database H P W S) : Database H P W S :=
  { db with forkDb := items.foldl (fun forkDb item => forkDb.remove item.id) db.forkDb }

/-- What `_push_block` does after a block of the new branch has failed: the failing block and
those after it are removed, the others popped, and the old branch is applied again. -/
def recover (pinned : List (ForkItem H P)) (point : BlockId H)
    (old failed : List (ForkItem H P)) (e : DatabaseError) (db : Database H P W S) :
    Outcome H P W S Bool :=
  let db := removeItems failed db
  match popUntil pinned point db.popFuel db with
  | .error e' db' => .error e' db'
  | .ok () db' =>
    match applyItems rules pinned old db' with
    | .error e' db'' => .error e' db''
    | .ok () db'' => .error e db''

/-- The loop that pushes the blocks of the new branch, oldest first. -/
def applyBranch (pinned : List (ForkItem H P)) (point : BlockId H)
    (old : List (ForkItem H P)) : List (ForkItem H P) → Database H P W S → Outcome H P W S Bool
  | [], db => .ok true db
  | item :: items, db =>
    match applyItem rules pinned item db with
    | .ok () db' => applyBranch pinned point old items db'
    | .error e db' => recover rules pinned point old (item :: items) e db'

/-- Pop the old branch down to the fork point and push the new one. -/
def replaceBranch (pinned : List (ForkItem H P)) (point : BlockId H)
    (old new : List (ForkItem H P)) (db : Database H P W S) : Outcome H P W S Bool :=
  match popUntil pinned point db.popFuel db with
  | .error e db' => .error e db'
  | .ok () db' => applyBranch rules pinned point old new db'

/-- Switch to the fork of `newHead`. The branches hold their items until the end. -/
def switchForks (newHead : ForkItem H P) (db : Database H P W S) : Outcome H P W S Bool :=
  match db.forkDb.fetchBranchFrom newHead.id db.headBlockId with
  | .error e => .error (.fork e) db
  | .ok (first, second) =>
    match second.getLast? with
    | none => .error .diverged db
    | some last =>
      replaceBranch rules (newHead :: (first ++ second)) last.previousId second.reverse
        first.reverse db

/-- Apply the new block; when it fails it is removed from the fork database, whose head stays. -/
def extendHead (newHead : ForkItem H P) (b : SignedBlock H P)
    (db : Database H P W S) : Outcome H P W S Bool :=
  match applyInSession rules [newHead] b db with
  | .ok () db' => .ok false db'
  | .error e db' => .error e { db' with forkDb := db'.forkDb.remove b.id }

/-- `_push_block`. -/
def pushBlock (b : SignedBlock H P) (db : Database H P W S) : Outcome H P W S Bool :=
  match db.forkDb.pushBlock b with
  | .error e => .error (.fork e) db
  | .ok forkDb =>
    let db := { db with forkDb := forkDb }
    match forkDb.head with
    | none => .error .diverged db
    | some newHead =>
      if newHead.previousId ≠ db.headBlockId then
        if db.headBlockNum < newHead.num then switchForks rules newHead db else .ok false db
      else extendHead rules newHead b db

/-- `open`, once the undo state is rewound: the block log has to hold the head block, which
becomes the only block of the fork database. -/
def openDatabase (s : ChainState H W S) (log : LoggedBlocks H P) :
    Except DatabaseError (Database H P W S) :=
  let store : Snapshots (ChainState H W S) := { current := s, revision := s.headBlockNumber }
  if s.headBlockNumber = 0 then .ok { store := store, blockLog := log }
  else match log.readBlockByNum s.headBlockNumber with
    | none => .error .stateNotInLog
    | some head =>
      if head.id = s.headBlockId then
        .ok { store := store, blockLog := log, forkDb := ({} : ForkDatabase H P).startBlock head }
      else .error .stateNotInLog

end Database

end Freezone.Chain
