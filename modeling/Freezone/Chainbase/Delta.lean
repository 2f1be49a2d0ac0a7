import Freezone.Chainbase.GenericIndex

/-!
# What an undo state records

An object stands in one of four relations to an undo state: created, modified,
removed or untouched in its session. `Delta before st after` says that `st` is an
exact record of the difference between the objects at the start of the session
and the live ones. Creating, modifying and removing objects keep it, whichever
objects they touch and in whichever order, so it holds after every successful
sequence of calls.
-/

namespace Freezone.Chainbase

open Std

variable {V K : Type} [DecidableEq K] {keys : List (V → K)}

/-- The entries of a map are listed in id order. -/
theorem toList_sorted (objs : Objects V) : objs.toList.Pairwise fun p q => p.1 < q.1 :=
  ExtTreeMap.ordered_keys_toList.imp fun h => Nat.compare_eq_lt.mp h

/-- The four relations of one object to an undo state: the value before the session,
membership in `new_ids`, the entries of `old_values` and `removed_values`, the live value. -/
inductive Track : Option V → Bool → Option V → Option V → Option V → Prop
  | untouched (was : Option V) : Track was false none none was
  | created (was : Option V) (now : V) : Track was true none was (some now)
  | modified (was now : V) : Track (some was) false (some was) none (some now)
  | removed (was : V) : Track (some was) false none (some was) none

namespace Track

variable {was old rem : Option V} {isNew : Bool}

variable {now : Option V}

variable {v : V}

/-- An old value is the value before the session of an object that is still live. -/
theorem of_old (h : Track was isNew (some v) rem now) :
    was = some v ∧ isNew = false ∧ now.isSome = true := by
  cases h
  exact ⟨rfl, rfl, rfl⟩

/-- The id of a created object held at most an object removed in the session. -/
theorem of_new (h : Track was true old rem now) : old = none ∧ rem = was := by
  cases h
  exact ⟨rfl, rfl⟩

/-- A removed value is the value before the session. -/
theorem of_removed (h : Track was isNew old (some v) now) : was = some v ∧ old = none := by
  cases h <;> exact ⟨rfl, rfl⟩

/-- A live object without an entry has the value it had before the session. -/
theorem of_untouched (h : Track was false none rem now) (hnow : now.isSome = true) :
    was = now := by
  cases h with
  | untouched => rfl
  | removed => simp at hnow

/-- Restoring old values and erasing created objects leaves the object as it was before the
session, unless it was removed. -/
theorem restored (h : Track was isNew old rem now) :
    (if isNew then none else old.or now) = if rem.isSome then none else was := by
  cases h with
  | untouched => rfl
  | created now => cases was <;> rfl
  | modified was now => rfl
  | removed was => rfl

/-- A free id holds no object: it is fresh, or its object was removed in the session. -/
theorem onCreate (h : Track was isNew old rem none) (v : V) :
    isNew = false ∧ old = none ∧ Track was true none rem (some v) := by
  cases h with
  | untouched => exact ⟨rfl, rfl, .created none v⟩
  | removed u => exact ⟨rfl, rfl, .created (some u) v⟩

/-- Only the first value of an older object is recorded. -/
theorem onModify (h : Track was isNew old rem (some v)) (w : V) :
    Track was isNew (if isNew then old else old.or (some v)) rem (some w) := by
  cases h with
  | untouched => exact .modified v w
  | created => exact .created was w
  | modified u => exact .modified u w

/-- A created object is forgotten; an older one leaves the value it had before the session. -/
theorem onRemove (h : Track was isNew old rem (some v)) :
    Track was false none (if isNew then rem else rem.or (old.or (some v))) none := by
  cases h with
  | untouched => exact .removed v
  | created =>
    cases was with
    | none => exact .untouched none
    | some u => exact .removed u
  | modified u => exact .removed u

end Track

namespace UndoState

variable (st : UndoState V) (id i : Nat) (v : V)

theorem onCreate_newIds :
    (st.onCreate id).newIds.contains i = (id == i || st.newIds.contains i) := by
  grind [onCreate]

/-- The first old value of an object that is not new is kept. -/
theorem onModify_oldValues : (st.onModify id v).oldValues[i]? =
      if id = i ∧ st.newIds.contains id = false then st.oldValues[i]?.or (some v)
      else st.oldValues[i]? := by
  grind [onModify]

@[simp] theorem onModify_newIds : (st.onModify id v).newIds = st.newIds := by
  grind [onModify]

@[simp] theorem onModify_removedValues : (st.onModify id v).removedValues = st.removedValues := by
  grind [onModify]

theorem onRemove_newIds :
    (st.onRemove id v).newIds.contains i = (id != i && st.newIds.contains i) := by
  grind [onRemove]

theorem onRemove_oldValues : (st.onRemove id v).oldValues[i]? =
      if id = i ∧ st.newIds.contains id = false then none else st.oldValues[i]? := by
  grind [onRemove]

/-- The value before the session is kept of a removed object. -/
theorem onRemove_removedValues : (st.onRemove id v).removedValues[i]? =
      if id = i ∧ st.newIds.contains id = false then
        st.removedValues[i]?.or (st.oldValues[i]?.or (some v))
      else st.removedValues[i]? := by
  grind [onRemove]

end UndoState

/-- `st` records how the objects `before` a session became the objects `after` it. -/
def Delta (before : Objects V) (st : UndoState V) (after : Objects V) : Prop :=
  ∀ i : Nat, Track before[i]? (st.newIds.contains i) st.oldValues[i]? st.removedValues[i]? after[i]?

namespace Delta

variable {before after : Objects V} {st : UndoState V}

variable {i : Nat} {v : V} {id : Nat}

/-- An old value is the one before the session. -/
theorem of_old (h : Delta before st after) (hv : st.oldValues[i]? = some v) :
    before[i]? = some v ∧ st.newIds.contains i = false ∧ after[i]?.isSome = true :=
  Track.of_old (hv ▸ h i)

/-- A new object was not there, or was removed in the session. -/
theorem of_new (h : Delta before st after) (hn : st.newIds.contains i = true) :
    st.oldValues[i]? = none ∧ st.removedValues[i]? = before[i]? :=
  Track.of_new (hn ▸ h i)

/-- A removed value is the one before the session. -/
theorem of_removed (h : Delta before st after)
    (hv : st.removedValues[i]? = some v) : before[i]? = some v ∧ st.oldValues[i]? = none :=
  Track.of_removed (hv ▸ h i)

/-- An object without a record is as before. -/
theorem of_untouched (h : Delta before st after) (hn : st.newIds.contains i = false)
    (ho : st.oldValues[i]? = none) (hl : after[i]?.isSome = true) :
    before[i]? = after[i]? :=
  Track.of_untouched (ho ▸ hn ▸ h i) hl

/-- Storing an object under a free id. -/
theorem onCreate (h : Delta before st after) (v : V) (hid : after[id]? = none) :
    Delta before (st.onCreate id) (after.insert id v) := by
  intro i
  rw [st.onCreate_newIds, ExtTreeMap.getElem?_insert]
  by_cases hi : id = i
  · subst hi
    have ht := h id
    rw [hid] at ht
    obtain ⟨_, hold, ht'⟩ := ht.onCreate v
    simpa [UndoState.onCreate, hold] using ht'
  · have hb : (id == i) = false := by simp [hi]
    simpa [UndoState.onCreate, hi, hb] using h i

/-- Replacing the value of a live object. -/
theorem onModify (h : Delta before st after) (w : V) (hid : after[id]? = some v) :
    Delta before (st.onModify id v) (after.insert id w) := by
  intro i
  rw [st.onModify_newIds, st.onModify_removedValues, st.onModify_oldValues,
    ExtTreeMap.getElem?_insert]
  by_cases hi : id = i
  · subst hi
    have ht := h id
    rw [hid] at ht
    have ht' := ht.onModify w
    cases hn : st.newIds.contains id <;> simpa [hn] using ht'
  · simpa [hi] using h i

/-- Erasing a live object. -/
theorem onRemove (h : Delta before st after) (hid : after[id]? = some v) :
    Delta before (st.onRemove id v) (after.erase id) := by
  intro i
  rw [st.onRemove_newIds, st.onRemove_oldValues, st.onRemove_removedValues,
    ExtTreeMap.getElem?_erase]
  by_cases hi : id = i
  · subst hi
    have ht := h id
    rw [hid] at ht
    have ht' := ht.onRemove
    cases hn : st.newIds.contains id with
    | false => simpa [hn] using ht'
    | true =>
      have hold : st.oldValues[id]? = none := by
        rw [hn] at ht
        generalize before[id]? = was at ht
        generalize st.oldValues[id]? = old at ht
        cases ht
        rfl
      simpa [hn, hold] using ht'
  · have hb : (id != i) = true := by simp [hi]
    simpa [hi, hb] using h i

end Delta

/-- The object operations of a session. -/
inductive ObjectOp (V : Type)
  | create (v : V)
  | modify (id : Nat) (m : V → V)
  | remove (id : Nat)

namespace GenericIndex

/-- One call on the index. -/
def perform : ObjectOp V → Method keys Unit
  | .create v => do let _ ← emplace v
  | .modify id m => modify id m
  | .remove id => remove id

/-- A sequence of calls, stopped by the first exception. -/
def performAll (ops : List (ObjectOp V)) : Method keys Unit := forM ops perform

variable {op : ObjectOp V}

/-- Everything a successful call can do: one object changes, and the change is recorded. -/
theorem perform_ok {idx idx' : GenericIndex keys} (h : (perform op).run idx = .ok () idx') :
    (∃ v, ∃ ht : idx.indices.taken idx.nextId v = false,
      op = .create v ∧ idx.indices.objects[idx.nextId]? = none ∧
      idx' = onHead { idx with indices := idx.indices.put idx.nextId v ht, nextId :=
          idx.nextId + 1 }
        fun head => head.onCreate idx.nextId) ∨
    (∃ id m v, ∃ ht : idx.indices.taken id (m v) = false,
      op = .modify id m ∧ idx.indices.objects[id]? = some v ∧
      idx' = { idx.onHead (fun head => head.onModify id v) with
        indices := idx.indices.put id (m v) ht }) ∨
    (∃ id v, op = .remove id ∧ idx.indices.objects[id]? = some v ∧
      idx' = { idx.onHead (fun head => head.onRemove id v) with
        indices := idx.indices.erase id }) := by
  cases op with
  | create v =>
    refine .inl ?_
    simp only [perform, EStateM.run_bind, run_emplace] at h
    cases hc : idx.indices.emplace idx.nextId v with
    | none => simp [hc] at h
    | some c =>
      obtain ⟨ht, hn, rfl⟩ := Container.emplace_eq_some_iff.mp hc
      simp only [hc, EStateM.run_pure, EStateM.Result.ok.injEq, true_and] at h
      exact ⟨v, ht, rfl, hn, h.symm⟩
  | modify id m =>
    refine .inr (Or.inl ?_)
    simp only [perform, run_modify] at h
    cases hv : idx.indices.objects[id]? with
    | none => simp [hv] at h
    | some v =>
      simp only [hv] at h
      split at h
      · rename_i hm
        obtain ⟨ht, he⟩ := Container.modify_fst_eq_true_iff.mp hm
        simp only [he, EStateM.Result.ok.injEq, true_and] at h
        exact ⟨id, m, v, ht, rfl, hv, h.symm⟩
      · simp at h
  | remove id =>
    refine .inr (Or.inr ?_)
    simp only [perform, run_remove] at h
    cases hv : idx.indices.objects[id]? with
    | none => simp [hv] at h
    | some v =>
      simp only [hv, EStateM.Result.ok.injEq, true_and] at h
      exact ⟨id, v, rfl, hv, h.symm⟩

/-- Every live id is below the next one. -/
def IdsBelow (idx : GenericIndex keys) : Prop :=
  ∀ (i : Nat) (v : V), idx.indices.objects[i]? = some v → i < idx.nextId

/-- `idx` is reached from `base` by opening a session and making calls in it; `head` is
the undo state of that session. -/
structure InSession (base idx : GenericIndex keys) (head : UndoState V) : Prop where
  stack : idx.stack = head :: base.stack
  delta : Delta base.indices.objects head idx.indices.objects
  revision : idx.revision = base.revision + 1
  head_revision : head.revision = base.revision + 1
  oldNextId : head.oldNextId = base.nextId
  /-- Created ids come from the counter during the session. -/
  newIds : ∀ {i : Nat}, head.newIds.contains i = true → base.nextId ≤ i ∧ i < idx.nextId
  nextId : base.nextId ≤ idx.nextId

variable {base idx idx' : GenericIndex keys} {head : UndoState V}

/-- Opening a session records no change yet. -/
theorem InSession.start (idx : GenericIndex keys) : InSession idx idx.startUndoSession
      { oldNextId := idx.nextId, revision := idx.revision + 1 } where
  stack := rfl
  delta i := by simpa [startUndoSession] using Track.untouched idx.indices.objects[i]?
  revision := rfl
  head_revision := rfl
  oldNextId := rfl
  newIds := by simp
  nextId := le_rfl

/-- A successful call stays in the session. -/
theorem InSession.perform (h : InSession base idx head)
    (hop : (GenericIndex.perform op).run idx = .ok () idx') :
    ∃ head', InSession base idx' head' := by
  rcases perform_ok hop with ⟨v, ht, _, hn, rfl⟩ | ⟨id, m, v, -, _, hv, rfl⟩ | ⟨id, v, _, hv, rfl⟩
  · refine ⟨head.onCreate idx.nextId, ?_⟩
    have hle := h.nextId
    constructor
    · exact onHead_stack (by simpa using h.stack) _
    · simpa using h.delta.onCreate v hn
    · simpa using h.revision
    · exact h.head_revision
    · exact h.oldNextId
    · intro i hi
      rw [UndoState.onCreate_newIds, Bool.or_eq_true, beq_iff_eq] at hi
      simp only [onHead_nextId]
      rcases hi with rfl | hi
      · omega
      · have := h.newIds hi
        omega
    · simp only [onHead_nextId]
      omega
  · refine ⟨head.onModify id v, ?_⟩
    constructor
    · exact onHead_stack h.stack _
    · simpa using h.delta.onModify (m v) hv
    · simpa using h.revision
    · rw [← h.head_revision]
      grind [UndoState.onModify]
    · rw [← h.oldNextId]
      grind [UndoState.onModify]
    · intro i hi
      rw [UndoState.onModify_newIds] at hi
      simpa using h.newIds hi
    · simpa using h.nextId
  · refine ⟨head.onRemove id v, ?_⟩
    constructor
    · exact onHead_stack h.stack _
    · simpa using h.delta.onRemove hv
    · simpa using h.revision
    · rw [← h.head_revision]
      grind [UndoState.onRemove]
    · rw [← h.oldNextId]
      grind [UndoState.onRemove]
    · intro i hi
      rw [UndoState.onRemove_newIds, Bool.and_eq_true] at hi
      simpa using h.newIds hi.2
    · simpa using h.nextId

/-- Every successful sequence of calls stays in the session. -/
theorem InSession.performAll {ops : List (ObjectOp V)} (h : InSession base idx head)
    (hops : (GenericIndex.performAll ops).run idx = .ok () idx') :
    ∃ head', InSession base idx' head' :=
  Exec.forM_invariant (P := fun idx => ∃ head, InSession base idx head)
    (fun _ _ _ _ ⟨_, h1⟩ hop => h1.perform hop) ⟨head, h⟩ hops

/-- Calls keep every live id below the counter. -/
theorem IdsBelow.perform (h : idx.IdsBelow)
    (hop : (GenericIndex.perform op).run idx = .ok () idx') : idx'.IdsBelow := by
  rcases perform_ok hop with ⟨v, ht, _, -, rfl⟩ | ⟨id, m, v, ht, _, hv, rfl⟩ | ⟨id, v, _, hv, rfl⟩
  · intro i w hw
    simp only [onHead_indices, onHead_nextId, Container.put_objects, ExtTreeMap.getElem?_insert,
      LawfulEqCmp.compare_eq_iff_eq] at hw ⊢
    split at hw
    · omega
    · exact (h i w hw).trans (Nat.lt_succ_self _)
  · intro i w hw
    simp only [onHead_nextId, Container.put_objects, ExtTreeMap.getElem?_insert,
      LawfulEqCmp.compare_eq_iff_eq] at hw ⊢
    split_ifs at hw with hi
    · exact hi ▸ h id v hv
    · exact h i w hw
  · intro i w hw
    simp only [onHead_nextId, Container.erase_objects, ExtTreeMap.getElem?_erase,
      Option.ite_none_left_eq_some] at hw ⊢
    exact h i w hw.2

/-- Every successful sequence of calls keeps every live id below the counter. -/
theorem IdsBelow.performAll {ops : List (ObjectOp V)} (h : idx.IdsBelow)
    (hops : (GenericIndex.performAll ops).run idx = .ok () idx') : idx'.IdsBelow :=
  Exec.forM_invariant (fun _ _ _ _ h1 hop => IdsBelow.perform h1 hop) h hops

end GenericIndex

end Freezone.Chainbase
