import Freezone.Protocol.Block

/-!
# The fork database

`fork_database` keeps the recent blocks of all forks as a tree linked by weak
pointers. A fork item is a value with the address it was allocated at; a weak
pointer is such an address and can be locked while the index, the head or a
caller still holds the item. Every item ever allocated stays on record, which
gives addresses a meaning after an item is dropped.

The index lists items in insertion order. Its loops have fuel; running out of it
is an outcome of its own, which no coherent database reaches.
-/

namespace Freezone.Chain

open Protocol

/-- `fork_item`. Its number and its id are those of its block. -/
structure ForkItem (H P : Type) where
  /-- The address the item was allocated at. -/
  handle : Nat
  data : SignedBlock H P
  /-- The weak pointer to the item of the previous block. -/
  prev : Option Nat := none
  invalid : Bool := false

namespace ForkItem

variable {H P : Type}

def num (item : ForkItem H P) : Nat := item.data.blockNum

def id [HeaderHash H P] (item : ForkItem H P) : BlockId H := item.data.id

/-- `previous_id`. -/
def previousId (item : ForkItem H P) : BlockId H := item.data.previous

@[simp] theorem id_num [HeaderHash H P] (item : ForkItem H P) : item.id.num = item.num := rfl

end ForkItem

/-- The exceptions of the fork database. -/
inductive ForkError
  | popEmpty
  | popLast
  | tooOld
  | unlinkable
  | invalidParent
  | unknownBranch
  | brokenLink
  | diverged
  deriving DecidableEq, Repr

/-- `fork_database`. -/
structure ForkDatabase (H P : Type) where
  /-- `_max_size`. -/
  maxSize : Nat := 1024
  /-- `_unlinked_index`. -/
  unlinkedIndex : List (ForkItem H P) := []
  /-- `_index`: no two items of one id. -/
  index : List (ForkItem H P) := []
  /-- `_head`. -/
  head : Option (ForkItem H P) := none
  /-- The items allocated so far, in order: the item at address `h` is the `h`-th one. -/
  created : List (ForkItem H P) := []

namespace ForkDatabase

variable {H P : Type} [DecidableEq H] [Inhabited H] [HeaderHash H P]

variable (db : ForkDatabase H P)

/-- Lookup in the index by block id. -/
def find (id : BlockId H) : Option (ForkItem H P) :=
  db.index.find? fun item => item.id == id

/-- `weak_ptr::lock`: the item is still held by the index, by the head or by the caller. -/
def lock (pinned : List (ForkItem H P)) (handle : Nat) : Option (ForkItem H P) :=
  (db.index ++ db.head.toList ++ pinned).find? fun item => item.handle == handle

/-- `item->prev.lock()`. -/
def parent (pinned : List (ForkItem H P)) (item : ForkItem H P) : Option (ForkItem H P) :=
  item.prev.bind (db.lock pinned)

/-- Insertion into the index, refused when the id is known. -/
def insert (item : ForkItem H P) : List (ForkItem H P) :=
  if (db.find item.id).isSome then db.index else db.index ++ [item]

/-- `make_shared< fork_item >`: an item at the next address. -/
def newItem (b : SignedBlock H P) (link : Option Nat) : ForkItem H P :=
  { handle := db.created.length, data := b, prev := link }

/-- `reset`. -/
def reset : ForkDatabase H P := { db with head := none, index := [] }

/-- `pop_block`: move the head to its previous block. -/
def popBlock (pinned : List (ForkItem H P)) : Except ForkError (ForkDatabase H P) :=
  match db.head with
  | none => .error .popEmpty
  | some head =>
    match db.parent pinned head with
    | none => .error .popLast
    | some prev => .ok { db with head := some prev }

/-- `start_block`. -/
def startBlock (b : SignedBlock H P) : ForkDatabase H P :=
  let item := db.newItem b none
  { db with index := db.insert item, head := some item, created := db.created ++ [item] }

/-- The assertions of `_push_block` on a new block, and the link it is given. -/
def linkOf (b : SignedBlock H P) : Except ForkError (Option Nat) :=
  match db.head with
  | none => .ok none
  | some head =>
    if b.blockNum ≤ head.num - db.maxSize then .error .tooOld
    else if b.previous = BlockId.zero then .ok none
    else match db.find b.previous with
      | none => .error .unlinkable
      | some prev => if prev.invalid then .error .invalidParent else .ok (some prev.handle)

/-- The rest of `_push_block`: the linked item enters the index, and the head if it is higher. -/
def attach (b : SignedBlock H P) (link : Option Nat) : ForkDatabase H P :=
  let item := db.newItem b link
  { db with
    index := db.insert item
    head := if db.head.all fun head => head.num < item.num then some item else db.head
    created := db.created ++ [item] }

/-- `push_block`. A block that does not link is not kept: the exception is rethrown before the
insertion into the unlinked index. The caller reads the returned head off the result. -/
def pushBlock (b : SignedBlock H P) : Except ForkError (ForkDatabase H P) :=
  match db.linkOf b with
  | .error e => .error e
  | .ok link => .ok (db.attach b link)

/-- `set_max_size`: drop the items below the window under the head. -/
def setMaxSize (s : Nat) : ForkDatabase H P :=
  match db.head with
  | none => { db with maxSize := s }
  | some head =>
    { db with
      maxSize := s
      index := db.index.filter fun item => head.num - s ≤ item.num
      unlinkedIndex := db.unlinkedIndex.filter fun item => head.num - s ≤ item.num }

/-- `fetch_block`. -/
def fetchBlock (id : BlockId H) : Option (ForkItem H P) :=
  (db.find id).or (db.unlinkedIndex.find? fun item => item.id == id)

/-- `fetch_block_by_number`: the items of one number, in insertion order. -/
def fetchBlockByNumber (num : Nat) : List (ForkItem H P) :=
  db.index.filter fun item => item.num == num

/-- The first two loops of `fetch_branch_from`: collect items down to a number. -/
def descendTo (num : Nat) :
    Nat → ForkItem H P → Except ForkError (List (ForkItem H P) × ForkItem H P)
  | fuel, item =>
    if item.num ≤ num then .ok ([], item)
    else match fuel with
      | 0 => .error .diverged
      | fuel + 1 =>
        match db.parent [] item with
        | none => .error .brokenLink
        | some prev => do
          let (branch, bottom) ← descendTo num fuel prev
          return (item :: branch, bottom)

/-- The third loop of `fetch_branch_from`: collect items of both branches until they have the
same previous block. -/
def descendBoth : Nat → ForkItem H P → ForkItem H P →
      Except ForkError (List (ForkItem H P) × List (ForkItem H P))
  | fuel, first, second =>
    if first.previousId = second.previousId then .ok ([first], [second])
    else match fuel with
      | 0 => .error .diverged
      | fuel + 1 =>
        match db.parent [] first, db.parent [] second with
        | some first', some second' => do
          let (firstRest, secondRest) ← descendBoth fuel first' second'
          return (first :: firstRest, second :: secondRest)
        | _, _ => .error .brokenLink

/-- `fetch_branch_from`: the branches of two blocks down to their common ancestor, newest
block first. Numbers decrease along links, so the numbers themselves bound the loops. -/
def fetchBranchFrom (first second : BlockId H) :
    Except ForkError (List (ForkItem H P) × List (ForkItem H P)) :=
  match db.find first, db.find second with
  | some firstBranch, some secondBranch => do
    let (firstTop, first') ← db.descendTo secondBranch.num firstBranch.num firstBranch
    let (secondTop, second') ← db.descendTo first'.num secondBranch.num secondBranch
    let (firstRest, secondRest) ← db.descendBoth (first'.num + 1) first' second'
    return (firstTop ++ firstRest, secondTop ++ secondRest)
  | _, _ => .error .unknownBranch

/-- The loop of `walk_main_branch_to_num`. -/
def walkDownTo (pinned : List (ForkItem H P)) (num : Nat) :
    Nat → ForkItem H P → Option (ForkItem H P)
  | 0, next => if num < next.num then none else some next
  | fuel + 1, next =>
    if num < next.num then (db.parent pinned next).bind (walkDownTo pinned num fuel)
    else some next

/-- `walk_main_branch_to_num`. -/
def walkMainBranchToNum (pinned : List (ForkItem H P)) (num : Nat) : Option (ForkItem H P) :=
  db.head.bind fun next => if next.num < num then none else db.walkDownTo pinned num next.num next

/-- `fetch_block_on_main_branch_by_number`. -/
def fetchBlockOnMainBranchByNumber (pinned : List (ForkItem H P))
    (num : Nat) : Option (ForkItem H P) :=
  match db.fetchBlockByNumber num with
  | [] => none
  | [block] => some block
  | _ => db.walkMainBranchToNum pinned num

/-- `set_head`. -/
def setHead (item : ForkItem H P) : ForkDatabase H P :=
  { db with head := some item }

/-- `remove`: only the index forgets the block. -/
def remove (id : BlockId H) : ForkDatabase H P :=
  { db with index := db.index.filter fun item => item.id != id }

end ForkDatabase

end Freezone.Chain
