import Freezone.Core.Snapshots
import Freezone.Chainbase.Undo

/-!
# An index is a store with snapshots

The undo stack of an index stands for the contents at the start of each open
session. An index refines a store with snapshots when undoing its sessions one
after the other gives back the saved contents; every call that returns keeps
this, so a run of calls without an exception is a run of the store.
-/

namespace Freezone.Chainbase

open Std

variable {V K : Type} [DecidableEq K] {keys : List (V → K)}

/-- What an index holds besides its undo stack. -/
structure Contents (keys : List (V → K)) where
  indices : Container keys
  nextId : Nat

namespace GenericIndex

/-- The contents of an index. -/
def contents (idx : GenericIndex keys) : Contents keys := ⟨idx.indices, idx.nextId⟩

end GenericIndex

open GenericIndex

/-- The index with given contents and a given undo stack. -/
def Contents.over (c : Contents keys) (stack : List (UndoState V)) (revision : Int) :
    GenericIndex keys :=
  { stack := stack, revision := revision, nextId := c.nextId, indices := c.indices }

/-- The undo stack records how the saved contents became the present ones, session by session. -/
def StackRecords : Contents keys → Int → List (UndoState V) → List (Saved (Contents keys)) → Prop
  | _, _, [], [] => True
  | now, revision, head :: stack, s :: saved =>
    s.revision = revision ∧
      InSession (s.state.over stack (revision - 1)) (now.over (head :: stack) revision) head ∧
      StackRecords s.state (revision - 1) stack saved
  | _, _, _, _ => False

namespace StackRecords

variable {now : Contents keys} {revision : Int} {stack : List (UndoState V)}
variable {saved : List (Saved (Contents keys))}

/-- Forgetting the oldest sessions. -/
theorem take (h : StackRecords now revision stack saved) (n : Nat) :
    StackRecords now revision (stack.take n) (saved.take n) := by
  induction stack generalizing now revision saved n with
  | nil =>
    cases saved with
    | nil => simpa using h
    | cons s saved => exact absurd h (by simp [StackRecords])
  | cons head stack ih =>
    cases saved with
    | nil => exact absurd h (by simp [StackRecords])
    | cons s saved =>
      cases n with
      | zero => simp [StackRecords]
      | succ n => exact ⟨h.1, { h.2.1 with stack := rfl }, ih h.2.2 n⟩

/-- The sessions have consecutive revisions, the newest one that of the index. -/
theorem revision_eq (h : StackRecords now revision stack saved) :
    (∀ (k : Nat) head, stack[k]? = some head → head.revision = revision - k) ∧
      ∀ (k : Nat) s, saved[k]? = some s → s.revision = revision - k := by
  induction stack generalizing now revision saved with
  | nil =>
    cases saved with
    | nil => simp
    | cons s saved => exact absurd h (by simp [StackRecords])
  | cons head stack ih =>
    cases saved with
    | nil => exact absurd h (by simp [StackRecords])
    | cons s saved =>
      obtain ⟨hrev, hsession, hrest⟩ := h
      obtain ⟨hstack, hsaved⟩ := ih hrest
      have hhead : head.revision = revision - 1 + 1 := hsession.head_revision
      refine ⟨?_, ?_⟩
      · intro k head' hk
        cases k with
        | zero =>
          obtain rfl : head = head' := by simpa using hk
          simpa using hhead
        | succ k =>
          have hk' := hstack k head' hk
          omega
      · intro k s' hk
        cases k with
        | zero =>
          obtain rfl : s = s' := by simpa using hk
          simpa using hrev
        | succ k =>
          have hk' := hsaved k s' hk
          omega

end StackRecords

namespace GenericIndex

variable {idx idx' : GenericIndex keys} {store : Snapshots (Contents keys)}

/-- The index stands for the store. -/
structure Refines (idx : GenericIndex keys) (store : Snapshots (Contents keys)) : Prop where
  current : store.current = idx.contents
  revision : store.revision = idx.revision
  records : StackRecords idx.contents idx.revision idx.stack store.saved

variable {op : ObjectOp V}

/-- A call on an object leaves the revision, and an empty undo stack empty. -/
theorem perform_frame (h : (perform op).run idx = .ok () idx') :
    idx'.revision = idx.revision ∧ (idx.stack = [] → idx'.stack = []) := by
  rcases perform_ok h with ⟨v, ht, -, -, rfl⟩ | ⟨id, m, v, -, -, -, rfl⟩ | ⟨id, v, -, -, rfl⟩
  · refine ⟨by rw [onHead_revision], fun hs => ?_⟩
    simp [onHead, hs]
  · refine ⟨by simp, fun hs => ?_⟩
    simp [onHead, hs]
  · refine ⟨by simp, fun hs => ?_⟩
    simp [onHead, hs]

/-- A commit keeps the sessions with a greater revision. -/
theorem commit_stack {saved : List (Saved (Contents keys))}
    (h : StackRecords idx.contents idx.revision idx.stack saved) (revision : Int) :
    (idx.commit revision).stack = idx.stack.take (idx.revision - revision).toNat := by
  have hrev := fun k hk => h.revision_eq.1 k _ (List.getElem?_eq_getElem hk)
  apply Snapshots.rdropWhile_eq_take
  · intro k hk hlt
    have hk' := hrev k hk
    simp only [decide_eq_false_iff_not]
    omega
  · intro k hk hle
    have hk' := hrev k hk
    simp only [decide_eq_true_eq]
    omega

namespace Refines

/-- A session starts in both layers. -/
theorem startUndoSession (h : Refines idx store) : Refines idx.startUndoSession store.start := by
  have hrev : idx.revision + 1 - 1 = idx.revision := by omega
  refine ⟨h.current, by rw [Snapshots.start, h.revision]; rfl, ?_⟩
  unfold Snapshots.start GenericIndex.startUndoSession
  simp only [StackRecords, h.current, h.revision, hrev]
  exact ⟨trivial, InSession.start idx, h.records⟩

/-- A commit cuts the undo stack and the saved contents at the same place. -/
theorem commit (h : Refines idx store) (revision : Int) :
    Refines (idx.commit revision) (store.commit revision) := by
  have hconsecutive : store.Consecutive := by
    intro k s hk
    rw [h.revision]
    exact h.records.revision_eq.2 k s hk
  refine ⟨h.current, h.revision, ?_⟩
  rw [hconsecutive.commit_saved, h.revision, commit_stack h.records]
  exact h.records.take _

theorem saved_nil (h : Refines idx store) (hs : idx.stack = []) : store.saved = [] := by
  have hrec := h.records
  rw [hs] at hrec
  cases hsaved : store.saved with
  | nil => rfl
  | cons s saved =>
    rw [hsaved] at hrec
    exact absurd hrec (by simp [StackRecords])

/-- The newest undo state is that of a session over the newest saved contents. -/
theorem session (h : Refines idx store) {head : UndoState V} {stack : List (UndoState V)}
    (hs : idx.stack = head :: stack) :
    ∃ s saved, store.saved = s :: saved ∧ s.revision = idx.revision ∧
      InSession (s.state.over stack (idx.revision - 1)) idx head ∧
      StackRecords s.state (idx.revision - 1) stack saved := by
  have hrec := h.records
  rw [hs] at hrec
  cases hsaved : store.saved with
  | nil =>
    rw [hsaved] at hrec
    exact absurd hrec (by simp [StackRecords])
  | cons s saved =>
    rw [hsaved] at hrec
    obtain ⟨hrev, hsession, hrest⟩ := hrec
    have hidx : idx.contents.over (head :: stack) idx.revision = idx := by
      rw [← hs]
      rfl
    rw [hidx] at hsession
    exact ⟨s, saved, rfl, hrev, hsession, hrest⟩

/-- A rollback that returns leads to the newest saved contents. -/
theorem undo (h : Refines idx store) (hundo : GenericIndex.undo.run idx = .ok () idx') :
    Refines idx' store.undo := by
  cases hs : idx.stack with
  | nil =>
    have hsame : GenericIndex.undo.run idx = .ok () idx := by
      simp [GenericIndex.undo, hs]
    rw [hsame] at hundo
    obtain rfl : idx = idx' := by simpa using hundo
    rw [Snapshots.undo, h.saved_nil hs]
    exact h
  | cons head stack =>
    obtain ⟨s, saved, hsaved, -, hsession, hrest⟩ := h.session hs
    have hfree : KeysFree keys head idx.indices.objects := by
      by_contra hfree
      obtain ⟨idx1, herr⟩ := hsession.undo_error hfree
      rw [herr] at hundo
      cases hundo
    rw [hsession.undo_ok hfree] at hundo
    obtain rfl : s.state.over stack (idx.revision - 1) = idx' := by simpa using hundo
    rw [Snapshots.undo, hsaved, h.revision]
    exact ⟨rfl, rfl, hrest⟩

/-- A rollback returns if the keys that it has to give back are free. -/
theorem exists_undo (h : Refines idx store) (hfree : idx.HeadKeysFree) :
    ∃ idx', GenericIndex.undo.run idx = .ok () idx' := by
  cases hs : idx.stack with
  | nil => exact ⟨idx, by simp [GenericIndex.undo, hs]⟩
  | cons head stack =>
    obtain ⟨s, saved, -, -, hsession, -⟩ := h.session hs
    exact ⟨_, hsession.undo_ok (hsession.headKeysFree_iff.mp hfree)⟩

/-- A call on an object replaces the current contents. -/
theorem perform (h : Refines idx store) (hop : (GenericIndex.perform op).run idx = .ok () idx') :
    Refines idx' (store.set idx'.contents) := by
  obtain ⟨hrev', hnil⟩ := perform_frame hop
  refine ⟨rfl, h.revision.trans hrev'.symm, ?_⟩
  unfold Snapshots.set
  cases hs : idx.stack with
  | nil =>
    rw [hnil hs, h.saved_nil hs]
    trivial
  | cons head stack =>
    obtain ⟨s, saved, hsaved, hrev, hsession, hrest⟩ := h.session hs
    obtain ⟨head', hsession'⟩ := hsession.perform hop
    have hstack' : idx'.stack = head' :: stack := hsession'.stack
    have hidx' : idx'.contents.over (head' :: stack) idx.revision = idx' := by
      rw [← hstack', ← hrev']
      rfl
    rw [hrev', hstack', hsaved]
    refine ⟨hrev, ?_, hrest⟩
    rw [hidx']
    exact hsession'

/-- A sequence of calls on objects replaces the current contents. -/
theorem performAll (h : Refines idx store) {ops : List (ObjectOp V)}
    (hops : (GenericIndex.performAll ops).run idx = .ok () idx') :
    Refines idx' (store.set idx'.contents) := by
  induction ops generalizing idx store with
  | nil =>
    obtain rfl : idx = idx' := by simpa [GenericIndex.performAll] using hops
    have hset : store.set idx.contents = store := by rw [← h.current]; rfl
    rw [hset]
    exact h
  | cons op ops ih =>
    obtain ⟨_, idx1, hop, hrest⟩ := Exec.bind_eq_ok.mp hops
    have hafter := ih (h.perform hop) hrest
    exact hafter

end Refines

/-- The calls that a database makes on each of its indices. -/
inductive StoreCall (V : Type)
  | startUndoSession
  | perform (op : ObjectOp V)
  | undo
  | commit (revision : Int)

/-- A call on an index. -/
def call : StoreCall V → Method keys Unit
  | .startUndoSession => modifyGet fun idx => ((), idx.startUndoSession)
  | .perform op => perform op
  | .undo => undo
  | .commit revision => modifyGet fun idx => ((), idx.commit revision)

end GenericIndex

/-- The contents after a call on an object. -/
def Contents.after (op : ObjectOp V) (c : Contents keys) : Option (Contents keys) :=
  match (perform op).run (c.over [] 0) with
  | .ok _ idx => some idx.contents
  | .error _ _ => none

/-- What a call does to a store with snapshots of the contents. -/
def follow (store : Snapshots (Contents keys)) : StoreCall V → Option (Snapshots (Contents keys))
  | .startUndoSession => some store.start
  | .perform op => (store.current.after op).map store.set
  | .undo => some store.undo
  | .commit revision => some (store.commit revision)

namespace GenericIndex

variable {idx idx' : GenericIndex keys} {store : Snapshots (Contents keys)}

/-- A call on an object does not depend on the undo stack. -/
theorem contents_after (h : (perform op).run idx = .ok () idx') :
    idx.contents.after op = some idx'.contents := by
  rcases perform_ok h with ⟨v, ht, rfl, hn, rfl⟩ | ⟨id, m, v, ht, rfl, hv, rfl⟩ | ⟨id,
    v, rfl, hv, rfl⟩
  · have hc : idx.indices.emplace idx.nextId v = some (idx.indices.put idx.nextId v ht) :=
      Container.emplace_eq_some_iff.mpr ⟨ht, hn, rfl⟩
    simp only [Contents.after, perform, EStateM.run_bind, run_emplace, Contents.over, contents, hc,
      EStateM.run_pure, onHead_indices, onHead_nextId]
  · have hm : idx.indices.modify id (m v) = (true, idx.indices.put id (m v) ht) := by
      rw [Container.modify, dif_pos ht]
    simp only [Contents.after, perform, run_modify, Contents.over, contents, hv, hm, if_true,
      onHead_nextId]
  · simp only [Contents.after, perform, run_remove, Contents.over, contents, hv, onHead_nextId]

/-- Every call that returns is a step of the store. -/
theorem Refines.call (h : Refines idx store) {c : StoreCall V}
    (hc : (GenericIndex.call c).run idx = .ok () idx') :
    ∃ store', follow store c = some store' ∧ Refines idx' store' := by
  cases c with
  | startUndoSession =>
    obtain rfl : idx.startUndoSession = idx' := by simpa [GenericIndex.call] using hc
    exact ⟨_, rfl, h.startUndoSession⟩
  | perform op =>
    refine ⟨store.set idx'.contents, ?_, h.perform hc⟩
    rw [follow, h.current, contents_after hc]
    rfl
  | undo => exact ⟨_, rfl, h.undo hc⟩
  | commit revision =>
    obtain rfl : idx.commit revision = idx' := by simpa [GenericIndex.call] using hc
    exact ⟨_, rfl, h.commit revision⟩

/-- Every run of calls without an exception is a run of the store. -/
theorem Refines.calls (h : Refines idx store) {calls : List (StoreCall V)}
    (hcalls : (forM calls GenericIndex.call).run idx = .ok () idx') :
    ∃ store', calls.foldlM follow store = some store' ∧ Refines idx' store' := by
  induction calls generalizing idx store with
  | nil =>
    obtain rfl : idx = idx' := by simpa using hcalls
    exact ⟨store, rfl, h⟩
  | cons c calls ih =>
    obtain ⟨_, idx1, hc, hrest⟩ := Exec.bind_eq_ok.mp hcalls
    obtain ⟨store1, hfollow, h1⟩ := h.call hc
    obtain ⟨store', hrun, h'⟩ := ih h1 hrest
    refine ⟨store', ?_, h'⟩
    rw [List.foldlM_cons, hfollow]
    exact hrun

/-- An object created in a session, modified in another and rolled back. -/
theorem Refines.calls_rolledBack :
    ∃ (idx : GenericIndex [fun v : Nat => v]) (store : Snapshots (Contents _)),
      [.startUndoSession, .perform (.create 1), .startUndoSession,
        .perform (.modify 0 fun _ => 3), .undo].foldlM follow ⟨⟨.empty _, 0⟩, 0, []⟩ = some store ∧
      Refines idx store := by
  have hempty : Refines (Contents.over ⟨.empty [fun v : Nat => v], 0⟩ [] 0)
      ⟨⟨.empty _, 0⟩, 0, []⟩ := ⟨rfl, rfl, trivial⟩
  exact ⟨_, hempty.calls rfl⟩

end GenericIndex

end Freezone.Chainbase
