import Freezone.Core.Exec
import Freezone.Chainbase.Container

/-!
# The undo-tracked object index

`generic_index` with its stack of undo states. Every method runs in a state
that an exception leaves as it is at the throw, so a failing `modify` or `undo`
keeps the partial changes made before it. The stack is listed from its newest
undo state: the back of the deque is the head of the list.
-/

namespace Freezone.Chainbase

open Std

/-- The exceptions thrown by an index. -/
inductive IndexError
  | couldNotInsert
  | couldNotModify
  | couldNotRestore
  | keyNotFound
  deriving DecidableEq, Repr

/-- The changes of one session: what a rollback needs to restore. -/
structure UndoState (V : Type) where
  /-- First values of objects that existed before the session and were modified in it. -/
  oldValues : Objects V := ∅
  /-- Values before the session of objects removed in it. -/
  removedValues : Objects V := ∅
  /-- Ids of objects created in the session. -/
  newIds : ExtTreeSet Nat compare := ∅
  /-- The id counter at the start of the session. -/
  oldNextId : Nat
  /-- The revision the session was given. -/
  revision : Int

namespace UndoState

variable {V : Type}

/-- `on_modify`: keep the first value seen of an object that is older than the session. -/
def onModify (st : UndoState V) (id : Nat) (v : V) : UndoState V :=
  if id ∈ st.newIds then st
  else if id ∈ st.oldValues then st
  else { st with oldValues := st.oldValues.insertIfNew id v }

/-- `on_remove`: forget a new object, otherwise keep the value it had before the session. -/
def onRemove (st : UndoState V) (id : Nat) (v : V) : UndoState V :=
  if id ∈ st.newIds then { st with newIds := st.newIds.erase id }
  else match st.oldValues[id]? with
    | some w =>
      { st with
        removedValues := st.removedValues.insertIfNew id w
        oldValues := st.oldValues.erase id }
    | none =>
      if id ∈ st.removedValues then st
      else { st with removedValues := st.removedValues.insertIfNew id v }

/-- `on_create`. -/
def onCreate (st : UndoState V) (id : Nat) : UndoState V :=
  { st with newIds := st.newIds.insert id }

/-- One pass of `squash` over an old value of the newer state. -/
def mergeOld (prev : UndoState V) (item : Nat × V) : UndoState V :=
  if item.1 ∈ prev.newIds then prev
  else if item.1 ∈ prev.oldValues then prev
  else { prev with oldValues := prev.oldValues.insertIfNew item.1 item.2 }

/-- One pass of `squash` over a new id of the newer state. -/
def mergeNew (prev : UndoState V) (id : Nat) : UndoState V :=
  { prev with newIds := prev.newIds.insert id }

/-- One pass of `squash` over a removed value of the newer state. -/
def mergeRemoved (prev : UndoState V) (item : Nat × V) : UndoState V :=
  if item.1 ∈ prev.newIds then { prev with newIds := prev.newIds.erase item.1 }
  else match prev.oldValues[item.1]? with
    | some w =>
      { prev with
        removedValues := prev.removedValues.insertIfNew item.1 w
        oldValues := prev.oldValues.erase item.1 }
    | none => { prev with removedValues := prev.removedValues.insertIfNew item.1 item.2 }

/-- The merge performed by `squash`: `state` is folded into the older `prev`. -/
def merge (prev state : UndoState V) : UndoState V :=
  let afterOld := state.oldValues.toList.foldl mergeOld prev
  let afterNew := state.newIds.toList.foldl mergeNew afterOld
  state.removedValues.toList.foldl mergeRemoved afterNew

end UndoState

/-- An index over a uniquely keyed container. -/
structure GenericIndex {V K : Type} [DecidableEq K] (keys : List (V → K)) where
  /-- Undo states, newest first. -/
  stack : List (UndoState V) := []
  /-- Incremented by every session, decremented by undo and squash. -/
  revision : Int := 0
  /-- The id of the next created object. -/
  nextId : Nat := 0
  /-- The live objects. -/
  indices : Container keys := Container.empty keys

namespace GenericIndex

variable {V K : Type} [DecidableEq K] {keys : List (V → K)}

/-- A method of the index: an exception keeps the changes made before it. -/
abbrev Method (keys : List (V → K)) (α : Type) := EStateM IndexError (GenericIndex keys) α

variable (idx : GenericIndex keys)

/-- Record a change in the newest undo state; without a session nothing is recorded. -/
def onHead (f : UndoState V → UndoState V) : GenericIndex keys :=
  match idx.stack with
  | [] => idx
  | head :: rest => { idx with stack := f head :: rest }

/-- `emplace`: store a new object under the next id. -/
def emplace (v : V) : Method keys Nat := do
  let idx ← get
  let newId := idx.nextId
  match idx.indices.emplace newId v with
  | none => throw .couldNotInsert
  | some c =>
    set { idx with indices := c, nextId := newId + 1 }
    modify fun idx => idx.onHead fun head => head.onCreate newId
    return newId

/-- `modify`: apply a modifier to a live object. The value it had is recorded first,
and a refused modification has already erased the object when the exception is thrown. -/
def modify (id : Nat) (m : V → V) : Method keys Unit := do
  let idx ← get
  match idx.indices.objects[id]? with
  | none => throw .keyNotFound
  | some v =>
    let r := idx.indices.modify id (m v)
    set { idx.onHead (fun head => head.onModify id v) with indices := r.2 }
    unless r.1 do throw .couldNotModify

/-- `remove`: drop a live object. -/
def remove (id : Nat) : Method keys Unit := do
  let idx ← get
  match idx.indices.objects[id]? with
  | none => throw .keyNotFound
  | some v =>
    set { idx.onHead (fun head => head.onRemove id v) with indices := idx.indices.erase id }

/-- `start_undo_session`: push an empty undo state under a fresh revision. -/
def startUndoSession : GenericIndex keys :=
  { idx with
    revision := idx.revision + 1
    stack := { oldNextId := idx.nextId, revision := idx.revision + 1 } :: idx.stack }

/-- First pass of `undo`: put back the recorded value of a modified object. -/
def restoreOld (item : Nat × V) : Method keys Unit := do
  let idx ← get
  if item.1 ∈ idx.indices.objects then
    let r := idx.indices.modify item.1 item.2
    set { idx with indices := r.2 }
    unless r.1 do throw .couldNotModify
  else
    match idx.indices.emplace item.1 item.2 with
    | some c => set { idx with indices := c }
    | none => throw .couldNotModify

/-- Second pass of `undo`: erase a created object. -/
def eraseNew (id : Nat) : Method keys Unit :=
  modifyGet fun idx => ((), { idx with indices := idx.indices.erase id })

/-- Third pass of `undo`: store a removed object again. -/
def restoreRemoved (item : Nat × V) : Method keys Unit := do
  let idx ← get
  match idx.indices.emplace item.1 item.2 with
  | some c => set { idx with indices := c }
  | none => throw .couldNotRestore

/-- `undo`: restore the state before the newest session in three passes. -/
def undo : Method keys Unit := do
  let idx ← get
  match idx.stack with
  | [] => return
  | head :: rest =>
    forM head.oldValues.toList restoreOld
    forM head.newIds.toList eraseNew
    modifyGet fun idx => ((), { idx with nextId := head.oldNextId })
    forM head.removedValues.toList restoreRemoved
    modifyGet fun idx => ((), { idx with stack := rest, revision := idx.revision - 1 })

/-- `squash`: merge the newest undo state into the one before it. The only undo
state is dropped without touching the revision. -/
def squash : GenericIndex keys :=
  match idx.stack with
  | [] => idx
  | [_] => { idx with stack := [] }
  | state :: prev :: rest =>
    { idx with stack := prev.merge state :: rest, revision := idx.revision - 1 }

/-- `commit`: discard the oldest undo states up to a revision. -/
def commit (revision : Int) : GenericIndex keys :=
  { idx with stack := idx.stack.rdropWhile fun st => st.revision ≤ revision }

/-- `undo_all`: unwind every session; each successful undo drops one undo state. -/
def undoAll : Method keys Unit := do
  let idx ← get
  forM idx.stack fun _ => undo

@[simp] theorem onHead_indices (f : UndoState V → UndoState V) :
    (idx.onHead f).indices = idx.indices := by
  unfold onHead
  split <;> rfl

@[simp] theorem onHead_nextId (f : UndoState V → UndoState V) :
    (idx.onHead f).nextId = idx.nextId := by
  unfold onHead
  split <;> rfl

@[simp] theorem onHead_revision (f : UndoState V → UndoState V) :
    (idx.onHead f).revision = idx.revision := by
  unfold onHead
  split <;> rfl

theorem onHead_stack {idx : GenericIndex keys} {head : UndoState V} {rest : List (UndoState V)}
    (hs : idx.stack = head :: rest) (f : UndoState V → UndoState V) :
    (idx.onHead f).stack = f head :: rest := by
  simp [onHead, hs]

/-- `emplace` records the new id. -/
theorem run_emplace (v : V) (idx : GenericIndex keys) :
    (emplace v).run idx = match idx.indices.emplace idx.nextId v with
      | none => .error .couldNotInsert idx
      | some c => .ok idx.nextId
          (onHead { idx with indices := c, nextId := idx.nextId + 1 }
            fun head => head.onCreate idx.nextId) := by
  unfold emplace
  simp only [EStateM.run_bind, EStateM.run_get]
  cases idx.indices.emplace idx.nextId v <;> rfl

/-- `modify` records the value before it. -/
theorem run_modify (id : Nat) (m : V → V) (idx : GenericIndex keys) :
    (modify id m).run idx = match idx.indices.objects[id]? with
      | none => .error .keyNotFound idx
      | some v =>
        let r := idx.indices.modify id (m v)
        let idx' := { idx.onHead (fun head => head.onModify id v) with indices := r.2 }
        if r.1 then .ok () idx' else .error .couldNotModify idx' := by
  unfold modify
  simp only [EStateM.run_bind, EStateM.run_get]
  cases idx.indices.objects[id]? with
  | none => rfl
  | some v => cases h : (idx.indices.modify id (m v)).1 <;> simp [h]

/-- `remove` records the value before it. -/
theorem run_remove (id : Nat) (idx : GenericIndex keys) :
    (remove id).run idx = match idx.indices.objects[id]? with
      | none => .error .keyNotFound idx
      | some v => .ok ()
          { idx.onHead (fun head => head.onRemove id v) with indices := idx.indices.erase id } := by
  unfold remove
  simp only [EStateM.run_bind, EStateM.run_get]
  cases idx.indices.objects[id]? <;> rfl

end GenericIndex

end Freezone.Chainbase
