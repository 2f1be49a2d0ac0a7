import Freezone.Chainbase.Undo

/-!
# Merging two sessions

`squash` folds the newest undo state into the one before it with three loops over
its entries. Each loop touches an object at most once, so the merged record of an
object is a function of its two records, and this function composes the two
changes: the merged state records the difference between the start of the outer
session and the live objects.
-/

namespace Freezone.Chainbase

open Std

variable {V K : Type} [DecidableEq K] {keys : List (V → K)}

namespace UndoState

/-- What an undo state records of one object: membership in `new_ids`, its entries in
`old_values` and in `removed_values`. -/
abbrev Entry (V : Type) := Bool × Option V × Option V

/-- The record of the object `i`. -/
def entry (st : UndoState V) (i : Nat) : Entry V :=
  (st.newIds.contains i, st.oldValues[i]?, st.removedValues[i]?)

/-- An old value of the newer state counts for an object the older state has not recorded. -/
def Entry.withOld (v : V) : Entry V → Entry V
  | (isNew, old, rem) => (isNew, if isNew then old else old.or (some v), rem)

/-- An object created in the newer state. -/
def Entry.withNew : Entry V → Entry V
  | (_, old, rem) => (true, old, rem)

/-- An object removed in the newer state is forgotten if the older one created it, and
otherwise keeps the oldest value known. -/
def Entry.withRemoved (v : V) : Entry V → Entry V
  | (isNew, old, rem) =>
    if isNew then (false, old, rem) else (false, none, rem.or (old.or (some v)))

/-- The merged record of one object. -/
def Entry.compose (older newer : Entry V) : Entry V :=
  let afterOld := newer.2.1.elim older fun v => older.withOld v
  let afterNew := if newer.1 then afterOld.withNew else afterOld
  newer.2.2.elim afterNew fun v => afterNew.withRemoved v

/-- A merged record marks as created only what one of the two states created. -/
theorem Entry.compose_isNew {older newer : Entry V} (h : (older.compose newer).1 = true) :
    older.1 = true ∨ newer.1 = true := by
  obtain ⟨isNew, old, rem⟩ := older
  obtain ⟨isNew', old', rem'⟩ := newer
  cases isNew <;> cases isNew' <;> cases old' <;> cases rem' <;>
    simp_all [compose, withOld, withNew, withRemoved]

/-- An old value is merged into the record of its object alone. -/
theorem mergeOld_entry (prev : UndoState V) (item : Nat × V) (i : Nat) :
    (prev.mergeOld item).entry i =
      if item.1 = i then (prev.entry i).withOld item.2 else prev.entry i := by
  grind [mergeOld, entry, Entry.withOld]

/-- A new id is merged into the record of its object alone. -/
theorem mergeNew_entry (prev : UndoState V) (id i : Nat) :
    (prev.mergeNew id).entry i = if id = i then (prev.entry i).withNew else prev.entry i := by
  grind [mergeNew, entry, Entry.withNew]

/-- A removed value is merged into the record of its object alone. -/
theorem mergeRemoved_entry (prev : UndoState V) (item : Nat × V) (i : Nat) :
    (prev.mergeRemoved item).entry i =
      if item.1 = i then (prev.entry i).withRemoved item.2 else prev.entry i := by
  grind [mergeRemoved, entry, Entry.withRemoved]

/-- A loop over recorded values changes the record of an object at its own value only. -/
theorem foldl_entry {f : UndoState V → Nat × V → UndoState V} {g : V → Entry V → Entry V} {i : Nat}
    (hf : ∀ st item, (f st item).entry i =
      if item.1 = i then g item.2 (st.entry i) else st.entry i)
    (objs : Objects V) (st : UndoState V) :
    (objs.toList.foldl f st).entry i = objs[i]?.elim (st.entry i) fun v => g v (st.entry i) := by
  have hother : ∀ (st : UndoState V) (item : Nat × V), ¬ item.1 = i →
      (f st item).entry i = st.entry i := by
    intro st item hi
    rw [hf, if_neg hi]
  cases hv : objs[i]? with
  | none =>
    refine Exec.foldl_view_of_untouched (fun st => st.entry i) (fun item : Nat × V => item.1 = i)
      hother ?_ st
    rintro ⟨j, w⟩ hmem rfl
    rw [ExtTreeMap.mem_toList_iff_getElem?_eq_some, hv] at hmem
    cases hmem
  | some v =>
    refine Exec.foldl_view_of_touched (fun st => st.entry i) (fun item : Nat × V => item.1 = i)
      hother (g := g v) (a := (i, v)) rfl ?_
      (ExtTreeMap.mem_toList_iff_getElem?_eq_some.mpr hv) ?_ st
    · intro st
      rw [hf, if_pos rfl]
    · refine (toList_sorted objs).imp ?_
      intro p q hlt heq
      omega

/-- A loop over created ids changes the record of an object at its own id only. -/
theorem foldl_mergeNew_entry (ids : ExtTreeSet Nat compare) (st : UndoState V) (i : Nat) :
    (ids.toList.foldl mergeNew st).entry i =
      if ids.contains i then (st.entry i).withNew else st.entry i := by
  have hother : ∀ (st : UndoState V) (id : Nat), ¬ id = i →
      (st.mergeNew id).entry i = st.entry i := by
    intro st id hi
    rw [mergeNew_entry, if_neg hi]
  cases hi : ids.contains i with
  | false =>
    refine Exec.foldl_view_of_untouched (fun st => st.entry i) (fun id => id = i) hother ?_ st
    rintro j hmem rfl
    rw [ExtTreeSet.mem_toList, ExtTreeSet.mem_iff_contains, hi] at hmem
    cases hmem
  | true =>
    refine Exec.foldl_view_of_touched (fun st => st.entry i) (fun id => id = i) hother
      (g := Entry.withNew) (a := i) rfl ?_
      (ExtTreeSet.mem_toList.mpr (ExtTreeSet.mem_iff_contains.mpr hi)) ?_ st
    · intro st
      rw [mergeNew_entry, if_pos rfl]
    · refine ExtTreeSet.ordered_toList.imp ?_
      intro a b hlt heq
      rw [heq.1, heq.2, Nat.compare_eq_lt] at hlt
      omega

/-- `squash` merges the records of each object on their own. -/
theorem merge_entry (prev state : UndoState V) (i : Nat) :
    (prev.merge state).entry i = (prev.entry i).compose (state.entry i) := by
  unfold merge Entry.compose
  rw [foldl_entry fun st item => mergeRemoved_entry st item i, foldl_mergeNew_entry,
    foldl_entry fun st item => mergeOld_entry st item i]
  rfl

/-- The merged state belongs to the outer session. -/
theorem merge_frame (prev state : UndoState V) : (prev.merge state).oldNextId = prev.oldNextId ∧
      (prev.merge state).revision = prev.revision := by
  have hframe : ∀ {α : Type} {f : UndoState V → α → UndoState V},
      (∀ st a, (f st a).oldNextId = st.oldNextId ∧ (f st a).revision = st.revision) →
      ∀ (l : List α) st, (l.foldl f st).oldNextId = st.oldNextId ∧
        (l.foldl f st).revision = st.revision := by
    intro α f hf l st
    have h := Exec.foldl_view_of_untouched (fun st : UndoState V => (st.oldNextId, st.revision))
      (fun _ : α => False) (fun st a _ => Prod.ext (hf st a).1 (hf st a).2)
      (fun _ _ => not_false) (l := l) st
    exact Prod.ext_iff.mp h
  unfold merge
  have hrem := hframe (f := mergeRemoved (V := V)) (by grind [mergeRemoved])
  have hnew := hframe (f := mergeNew (V := V)) (by grind [mergeNew])
  have hold := hframe (f := mergeOld (V := V)) (by grind [mergeOld])
  rw [(hrem _ _).1, (hrem _ _).2, (hnew _ _).1, (hnew _ _).2]
  exact hold _ _

end UndoState

/-- The merged record composes the changes of the two sessions: each of the four relations to
the older state against each of the four to the newer one. An id created in the newer session
held no object at its start. -/
theorem Track.compose {was mid now : Option V} (older newer : UndoState.Entry V)
    (ha : Track was older.1 older.2.1 older.2.2 mid)
    (hb : Track mid newer.1 newer.2.1 newer.2.2 now)
    (hfresh : newer.1 = true → mid = none) :
    Track was (older.compose newer).1 (older.compose newer).2.1 (older.compose newer).2.2 now := by
  obtain ⟨isNew, old, rem⟩ := older
  obtain ⟨isNew', old', rem'⟩ := newer
  simp only at ha hb hfresh
  cases ha with
  | untouched =>
    cases hb with
    | untouched => exact .untouched was
    | created =>
      obtain rfl := hfresh rfl
      exact .created none _
    | modified mid now => exact .modified mid now
    | removed mid => exact .removed mid
  | created =>
    cases hb with
    | untouched => exact .created was _
    | created => cases hfresh rfl
    | modified mid now => exact .created was now
    | removed mid =>
      cases was with
      | none => exact .untouched none
      | some u => exact .removed u
  | modified u x =>
    cases hb with
    | untouched => exact .modified u x
    | created => cases hfresh rfl
    | modified mid now => exact .modified u now
    | removed mid => exact .removed u
  | removed u =>
    cases hb with
    | untouched => exact .removed u
    | created => exact .created (some u) _

namespace GenericIndex

variable {base mid idx : GenericIndex keys} {outer inner : UndoState V}

/-- An id created in a session held no object at its start. -/
theorem InSession.fresh (h : InSession base idx outer) (hids : base.IdsBelow) {i : Nat}
    (hi : outer.newIds.contains i = true) : base.indices.objects[i]? = none := by
  cases hv : base.indices.objects[i]? with
  | none => rfl
  | some v =>
    have hlt := hids i v hv
    have hle := (h.newIds hi).1
    omega

@[simp] theorem squash_indices (idx : GenericIndex keys) : idx.squash.indices = idx.indices := by
  unfold squash
  split <;> rfl

/-- `squash` leaves the live objects and makes the changes of both sessions those of one. -/
theorem InSession.squash (ha : InSession base mid outer) (hb : InSession mid idx inner)
    (hids : mid.IdsBelow) : InSession base idx.squash (outer.merge inner) := by
  have hstack : idx.stack = inner :: outer :: base.stack := by rw [hb.stack, ha.stack]
  have hnext := ha.nextId
  have hnext' := hb.nextId
  have hsq : idx.squash = { idx with
      stack := outer.merge inner :: base.stack, revision := idx.revision - 1 } := by
    simp only [GenericIndex.squash, hstack]
  rw [hsq]
  constructor
  · rfl
  · intro i
    have h := Track.compose (outer.entry i) (inner.entry i) (ha.delta i) (hb.delta i)
      fun hi => hb.fresh hids hi
    rw [← outer.merge_entry inner i] at h
    exact h
  · simp only [hb.revision, ha.revision, Int.add_sub_cancel]
  · rw [(outer.merge_frame inner).2, ha.head_revision]
  · rw [(outer.merge_frame inner).1, ha.oldNextId]
  · intro i hi
    have he : ((outer.entry i).compose (inner.entry i)).1 = true := by
      rw [← outer.merge_entry inner i]
      exact hi
    have hor : outer.newIds.contains i = true ∨ inner.newIds.contains i = true :=
      UndoState.Entry.compose_isNew he
    simp only
    rcases hor with ho | hn
    · have := ha.newIds ho
      omega
    · have := hb.newIds hn
      omega
  · simp only
    omega

/-- The contents `before` can be put back over the contents `after`, object by object in id
order: an object that is in both does not have to wait for its old key until a newer object
or one of larger id gives it up. -/
def Restorable (keys : List (V → K)) (before after : Objects V) : Prop :=
  ∀ p ∈ before.toList, p.1 ∈ after → ∀ q ∈ after.toList,
    p.1 ≠ q.1 → (q.1 ∉ before ∨ p.1 < q.1) → collides keys p.2 q.2 = false

instance (keys : List (V → K)) (before after : Objects V) :
    Decidable (Restorable keys before after) :=
  inferInstanceAs (Decidable (∀ p ∈ before.toList, _ → ∀ q ∈ after.toList, _ → _ → _))

/-- The condition of `undo` in terms of the contents at the start and at the end of a session. -/
theorem InSession.keysFree_iff_restorable (h : InSession base idx outer) (hids : base.IdsBelow) :
    KeysFree keys outer idx.indices.objects ↔
      Restorable keys base.indices.objects idx.indices.objects := by
  simp only [KeysFree, Restorable, Prod.forall, ExtTreeMap.mem_toList_iff_getElem?_eq_some,
    ExtTreeMap.mem_iff_isSome_getElem?, Option.not_isSome_iff_eq_none]
  constructor
  · intro hfree i v hv hlive j w hw hij hj
    have hnew : outer.newIds.contains i = false := by
      by_contra hi
      rw [h.fresh hids (by simpa using hi)] at hv
      cases hv
    cases ho : outer.oldValues[i]? with
    | none =>
      -- an untouched object still holds its key, and live keys are unique
      have hi := h.delta.of_untouched hnew ho hlive
      exact idx.indices.unique (hi.symm.trans hv) hw hij
    | some u =>
      obtain rfl : u = v := by
        rw [(h.delta.of_old ho).1] at hv
        exact Option.some.inj hv
      by_cases hnj : outer.newIds.contains j = true
      · exact hfree i u ho j w hw (Or.inl hnj)
      rw [Bool.not_eq_true] at hnj
      cases hoj : outer.oldValues[j]? with
      | none =>
        have hj' := h.delta.of_untouched hnj hoj (by rw [hw]; rfl)
        exact base.indices.unique hv (hj'.trans hw) hij
      | some x =>
        have hbj : base.indices.objects[j]? ≠ none := by rw [(h.delta.of_old hoj).1]; simp
        exact hfree i u ho j w hw (Or.inr ⟨by rw [hoj]; rfl, hj.resolve_left hbj⟩)
  · intro hrest i v hv j w hw hj
    obtain ⟨hbi, hni, hlive⟩ := h.delta.of_old hv
    rcases hj with hnj | ⟨-, hlt⟩
    · have hij : i ≠ j := by
        rintro rfl
        rw [hni] at hnj
        cases hnj
      exact hrest i v hbi hlive j w hw hij (Or.inl (h.fresh hids hnj))
    · exact hrest i v hbi hlive j w hw (Nat.ne_of_lt hlt) (Or.inr hlt)

/-- Whether a rollback of the newest session succeeds, read off the contents. -/
theorem InSession.undo_cases (h : InSession base idx outer) (hids : base.IdsBelow) :
    if Restorable keys base.indices.objects idx.indices.objects then undo.run idx = .ok () base
    else ∃ idx', undo.run idx = .error .couldNotModify idx' := by
  have hiff := h.keysFree_iff_restorable hids
  split_ifs with hrest
  · exact h.undo_ok (hiff.mpr hrest)
  · exact h.undo_error fun hfree => hrest (hiff.mp hfree)

/-- For two nested sessions, `squash` leaves the live objects, and rolling back the merged
session succeeds and agrees with rolling back the inner and then the outer session, exactly
when none of the three rollbacks meets a key that is not yet given up. -/
theorem squash_undo_agrees_iff_restorable (base mid idx : GenericIndex keys)
    (outerOps innerOps : List (ObjectOp V)) (hids : base.IdsBelow)
    (houter : (performAll outerOps).run base.startUndoSession = .ok () mid)
    (hinner : (performAll innerOps).run mid.startUndoSession = .ok () idx) :
    (idx.squash.indices = idx.indices ∧
      ∃ squashed stepwise, undo.run idx.squash = .ok () squashed ∧
        (do undo; undo : Method keys Unit).run idx = .ok () stepwise ∧
        squashed.indices = stepwise.indices ∧ squashed.nextId = stepwise.nextId ∧
        squashed.revision = stepwise.revision) ↔
      Restorable keys base.indices.objects mid.indices.objects ∧
        Restorable keys mid.indices.objects idx.indices.objects ∧
        Restorable keys base.indices.objects idx.indices.objects := by
  obtain ⟨outer, ha⟩ := (InSession.start base).performAll houter
  obtain ⟨inner, hb⟩ := (InSession.start mid).performAll hinner
  have hstart : base.startUndoSession.IdsBelow := hids
  have hmid : mid.IdsBelow := hstart.performAll houter
  have hundoMid := ha.undo_cases hids
  have hundoIdx := hb.undo_cases hmid
  have hundoSq := (ha.squash hb hmid).undo_cases hids
  rw [squash_indices] at hundoSq
  constructor
  · rintro ⟨-, squashed, stepwise, hs, hstep, -⟩
    obtain ⟨_, mid', hin, hout⟩ := Exec.bind_eq_ok.mp hstep
    have hrestIdx : Restorable keys mid.indices.objects idx.indices.objects := by
      by_contra hrest
      rw [if_neg hrest] at hundoIdx
      obtain ⟨_, herr⟩ := hundoIdx
      rw [herr] at hin
      cases hin
    rw [if_pos hrestIdx, hin] at hundoIdx
    obtain rfl : mid' = mid := by simpa using hundoIdx
    refine ⟨?_, hrestIdx, ?_⟩
    · by_contra hrest
      rw [if_neg hrest] at hundoMid
      obtain ⟨_, herr⟩ := hundoMid
      rw [herr] at hout
      cases hout
    · by_contra hrest
      rw [if_neg hrest] at hundoSq
      obtain ⟨_, herr⟩ := hundoSq
      rw [herr] at hs
      cases hs
  · rintro ⟨hmid', hidx', hsq'⟩
    rw [if_pos hmid'] at hundoMid
    rw [if_pos hidx'] at hundoIdx
    rw [if_pos hsq'] at hundoSq
    exact ⟨idx.squash_indices, base, base, hundoSq,
      Exec.bind_eq_ok.mpr ⟨(), mid, hundoIdx, hundoMid⟩, rfl, rfl, rfl⟩

/-- Sessions that give their objects keys of their own are rolled back alike with and
without merging them. -/
theorem squash_undo_agrees_twoObjects :
    let mid := Exec.finalState ((performAll [.modify 0 fun _ => 3, .create 4]).run
      twoObjects.startUndoSession)
    let idx := Exec.finalState ((performAll [.modify 0 fun _ => 5, .remove 2, .create 6]).run
      mid.startUndoSession)
    idx.squash.indices = idx.indices ∧
      ∃ squashed stepwise, undo.run idx.squash = .ok () squashed ∧
        (do undo; undo : Method _ Unit).run idx = .ok () stepwise ∧
        squashed.indices = stepwise.indices ∧ squashed.nextId = stepwise.nextId ∧
        squashed.revision = stepwise.revision :=
  (squash_undo_agrees_iff_restorable twoObjects _ _ [.modify 0 fun _ => 3, .create 4]
    [.modify 0 fun _ => 5, .remove 2, .create 6] twoObjects_idsBelow rfl rfl).mpr (by decide)

/-- The outer session releases a key and the inner one hands it over: rolling them back one
after the other succeeds, rolling back the merged session throws. -/
theorem squash_undo_throws_of_handed_over_key : ∃ mid idx stepwise idx',
      (performAll [.modify 0 fun _ => 3]).run twoObjects.startUndoSession = .ok () mid ∧
      (performAll [.modify 1 fun _ => 1]).run mid.startUndoSession = .ok () idx ∧
      (do undo; undo : Method _ Unit).run idx = .ok () stepwise ∧
      undo.run idx.squash = .error .couldNotModify idx' :=
  ⟨_, _, _, _, rfl, rfl, rfl, rfl⟩

end GenericIndex

end Freezone.Chainbase
