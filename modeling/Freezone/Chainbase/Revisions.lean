import Freezone.Chainbase.Refinement
import Freezone.Chainbase.Squash

/-!
# The undo stack over whole runs

An index is followed through any sequence of object calls, session starts,
rollbacks, merges and commits, together with the contents that it last had at
each revision. As long as no modification is refused and no rollback meets a held
key, the undo stack is a record of those contents, and after a commit the index
can be unwound to them exactly when each session that is left can be rolled back.
-/

namespace Freezone.Chainbase

open Std List EStateM

variable {V K : Type} [DecidableEq K] {keys : List (V → K)}

/-- Every stored id is below the next one. -/
def Contents.IdsBelow (c : Contents keys) : Prop :=
  ∀ (i : Nat) (v : V), c.indices.objects[i]? = some v → i < c.nextId

namespace GenericIndex

variable {idx idx' : GenericIndex keys} {store : Snapshots (Contents keys)}

/-- Merging the two newest sessions forgets the contents between them. -/
theorem Refines.squash (h : Refines idx store) (hids : ∀ c ∈ store.states, c.IdsBelow) :
    Refines idx.squash store.squash := by
  cases hs : idx.stack with
  | nil =>
    rw [GenericIndex.squash, hs, Snapshots.squash, h.saved_nil hs]
    exact h
  | cons inner stack =>
    obtain ⟨s, saved, hsaved, -, hsession, hrest⟩ := h.session hs
    have hmid : s.state.IdsBelow := by
      refine hids _ ?_
      rw [Snapshots.states, hsaved]
      exact .tail _ (.head _)
    cases stack with
    | nil =>
      cases saved with
      | nil =>
        rw [GenericIndex.squash, hs, Snapshots.squash, hsaved]
        exact ⟨h.current, h.revision, trivial⟩
      | cons s' saved => exact False.elim hrest
    | cons outer stack =>
      cases saved with
      | nil => exact False.elim hrest
      | cons s' saved =>
        obtain ⟨hrev, houter, hrest⟩ := hrest
        have hmerged := houter.squash hsession hmid
        rw [GenericIndex.squash, hs] at hmerged ⊢
        rw [Snapshots.squash, hsaved, h.revision]
        exact ⟨h.current, rfl, hrev, hmerged, hrest⟩

/-- Nothing is in the way of a call: a modification meets no held key, and a rollback finds
the keys that it has to give back free. -/
def Unobstructed (idx : GenericIndex keys) : StoreCall V → Prop
  | .perform (.modify id m) => ∀ v ∈ idx.indices.objects[id]?, idx.indices.taken id (m v) = false
  | .undo => idx.HeadKeysFree
  | _ => True

/-- The contents last had at each revision, after the index has become `idx`. -/
def seen (last : Int → Contents keys) (idx : GenericIndex keys) : Int → Contents keys :=
  Function.update last idx.revision idx.contents

/-- An index reached from the empty one by unobstructed calls and merges, with the contents
that it last had at each revision. A call that throws keeps the index as it is at the throw. -/
inductive Reached : GenericIndex keys → (Int → Contents keys) → Prop
  | empty (revision : Int) : Reached { revision := revision } fun _ => ⟨Container.empty keys, 0⟩
  | call {idx idx' : GenericIndex keys} {last : Int → Contents keys} (c : StoreCall V) :
    Reached idx last → idx.Unobstructed c → Exec.finalState ((call c).run idx) = idx' →
      Reached idx' (seen last idx')
  | squash {idx : GenericIndex keys} {last : Int → Contents keys} :
    Reached idx last → Reached idx.squash (seen last idx.squash)

/-- An unobstructed call returns, or throws without a change. -/
theorem Refines.call_cases (h : Refines idx store) {c : StoreCall V} (hc : idx.Unobstructed c) :
    (∃ idx', (GenericIndex.call c).run idx = .ok () idx') ∨
      Exec.finalState ((GenericIndex.call c).run idx) = idx := by
  match c with
  | .startUndoSession => exact .inl ⟨_, rfl⟩
  | .undo => exact .inl (h.exists_undo hc)
  | .commit _ => exact .inl ⟨_, rfl⟩
  | .perform (.create v) =>
    simp only [GenericIndex.call, GenericIndex.perform, run_bind, run_emplace]
    cases idx.indices.emplace idx.nextId v with
    | none => exact .inr rfl
    | some => exact .inl ⟨_, rfl⟩
  | .perform (.modify id m) =>
    simp only [GenericIndex.call, GenericIndex.perform, run_modify]
    cases hv : idx.indices.objects[id]? with
    | none => exact .inr rfl
    | some v =>
      have hfree : (idx.indices.modify id (m v)).1 = true :=
        Container.modify_fst_eq_true_iff.mpr ⟨hc v hv, dif_pos _⟩
      simp only [hfree, if_true]
      exact .inl ⟨_, rfl⟩
  | .perform (.remove id) =>
    simp only [GenericIndex.call, GenericIndex.perform, run_remove]
    cases idx.indices.objects[id]? with
    | none => exact .inr rfl
    | some => exact .inl ⟨_, rfl⟩

/-- A step of the store keeps its older states. -/
theorem keeps_of_follow {store' : Snapshots (Contents keys)} {c : StoreCall V}
    (h : follow store c = some store') : store.Keeps store' := by
  cases c with
  | startUndoSession => exact Option.some.inj h ▸ .start store
  | perform op =>
    obtain ⟨a, -, rfl⟩ := Option.map_eq_some_iff.mp h
    exact .set store a
  | undo => exact Option.some.inj h ▸ .undo store
  | commit revision => exact Option.some.inj h ▸ .commit store revision

/-- The undo stack records the contents that the index last had at each revision. -/
def Recorded (idx : GenericIndex keys) (last : Int → Contents keys) : Prop :=
  ∃ store, Refines idx store ∧ store.Aligned last ∧ ∀ c ∈ store.states, c.IdsBelow

variable {last : Int → Contents keys}

/-- One step of a run. -/
theorem Recorded.step {store' : Snapshots (Contents keys)} (halign : store.Aligned last)
    (hids : ∀ c ∈ store.states, c.IdsBelow) (hkeeps : store.Keeps store')
    (href : Refines idx' store') (hbelow : idx'.contents.IdsBelow) :
    Recorded idx' (seen last idx') := by
  have hcurrent := href.current
  refine ⟨store', href, halign.keeps hkeeps ?_ fun n hn => ?_, fun c hc => ?_⟩
  · rw [href.revision, seen, Function.update_self, hcurrent]
  · rw [href.revision] at hn
    exact Function.update_of_ne hn.ne _ _
  · obtain ⟨k, hk⟩ := mem_iff_getElem?.mp hc
    cases k with
    | zero =>
      obtain rfl : store'.current = c := by simpa [Snapshots.states] using hk
      exact hcurrent ▸ hbelow
    | succ k =>
      obtain ⟨j, hj, -⟩ := hkeeps k c hk
      exact hids c (mem_of_getElem? hj)

/-- Every run keeps the record. -/
theorem Reached.recorded (h : Reached idx last) : Recorded idx last := by
  induction h with
  | empty revision =>
    refine ⟨⟨_, revision, []⟩, ⟨rfl, rfl, trivial⟩, ?_, ?_⟩
    · intro k a ha
      cases k with
      | zero => exact Option.some.inj ha
      | succ k => cases ha
    · intro c hc i v hv
      obtain rfl := mem_singleton.mp hc
      simp [Container.empty] at hv
  | @call idx idx' last c _ hc hrun ih =>
    obtain ⟨store, href, halign, hids⟩ := ih
    have hbelow : idx.contents.IdsBelow := href.current ▸ hids _ mem_cons_self
    rcases href.call_cases hc with ⟨idx1, hok⟩ | hsame
    · obtain rfl : idx1 = idx' := by rw [← hrun, hok, Exec.finalState_ok]
      obtain ⟨store', hfollow, href'⟩ := href.call hok
      refine Recorded.step halign hids (keeps_of_follow hfollow) href' ?_
      cases c with
      | startUndoSession => cases hok; exact hbelow
      | perform op => exact IdsBelow.perform hbelow hok
      | undo =>
        rw [← href'.current, ← Option.some.inj hfollow]
        exact hids _ (store.states_undo_subset mem_cons_self)
      | commit revision => cases hok; exact hbelow
    · obtain rfl : idx = idx' := hsame.symm.trans hrun
      exact Recorded.step halign hids (.refl store) href hbelow
  | squash _ ih =>
    obtain ⟨store, href, halign, hids⟩ := ih
    refine Recorded.step halign hids (.squash store) (href.squash hids) ?_
    have hcurrent : store.squash.current = store.current := by
      unfold Snapshots.squash
      split <;> rfl
    rw [← (href.squash hids).current, hcurrent]
    exact hids _ mem_cons_self

/-- Each undo state is that of a session over saved contents. -/
theorem session_of_mem {now : Contents keys} {revision : Int} {stack : List (UndoState V)}
    {saved : List (Saved (Contents keys))} (h : StackRecords now revision stack saved)
    {st : UndoState V} (hst : st ∈ stack) :
    ∃ s ∈ saved, ∃ base idx : GenericIndex keys, base.contents = s.state ∧ InSession base idx st ∧
      base.nextId ≤ now.nextId := by
  induction stack generalizing now revision saved with
  | nil => cases hst
  | cons head stack ih =>
    match saved, h with
    | s :: saved, ⟨_, hsession, hrest⟩ =>
      rcases mem_cons.mp hst with rfl | hst
      · exact ⟨s, mem_cons_self, _, _, rfl, hsession, hsession.nextId⟩
      · obtain ⟨s', hs', base, idx, hbase, hin, hle⟩ := ih hrest hst
        exact ⟨s', mem_cons_of_mem s hs', base, idx, hbase, hin, hle.trans hsession.nextId⟩

/-- Unwinding every session leads to the contents before the oldest one exactly when each
session can be rolled back from the contents it led to. -/
theorem Refines.undoAll_iff (h : Refines idx store) (halign : store.Aligned last) :
    (∃ idx', undoAll.run idx = .ok () idx' ∧
      idx'.indices = (last (idx.revision - idx.stack.length)).indices) ↔
    ∀ (k : Nat) st, idx.stack[k]? = some st →
      KeysFree keys st (last (idx.revision - k)).indices.objects := by
  have hrun : undoAll.run idx = (forM idx.stack fun _ => GenericIndex.undo).run idx := rfl
  rw [hrun]
  generalize hs : idx.stack = stack
  induction stack generalizing idx store with
  | nil =>
    have hlast := halign 0 _ rfl
    rw [h.revision, h.current] at hlast
    simp only [length_nil, hlast]
    exact ⟨fun _ _ _ hk => (by cases hk), fun _ => ⟨idx, rfl, rfl⟩⟩
  | cons head stack ih =>
    obtain ⟨s, saved, hsaved, -, hsession, -⟩ := h.session hs
    have hlast := halign 0 _ rfl
    have hlast' := halign 1 s.state (by rw [Snapshots.states, hsaved]; rfl)
    rw [h.revision, h.current] at hlast
    rw [h.revision] at hlast'
    rw [forM_cons, run_bind]
    by_cases hfree : KeysFree keys head idx.indices.objects
    · have hundo := hsession.undo_ok hfree
      have hnext := h.undo hundo
      have halign' : store.undo.Aligned last := by
        refine halign.keeps (.undo store) ?_ fun _ _ => rfl
        rw [hnext.revision, hnext.current]
        exact hlast'
      have hlen : idx.revision - ((head :: stack).length : Int) = idx.revision - 1 -
        stack.length := by
        rw [length_cons, Nat.cast_succ]
        omega
      have hstep : ∀ k : Nat, idx.revision - ((k + 1 : Nat) : Int) = idx.revision -
        1 - k := by omega
      rw [hundo, hlen]
      refine (ih hnext halign' rfl rfl).trans ⟨fun hall k st hk => ?_, fun hall k st hk => ?_⟩
      · cases k with
        | zero =>
          obtain rfl : head = st := Option.some.inj hk
          rw [hlast]
          exact hfree
        | succ k =>
          rw [hstep]
          exact hall k st hk
      · have hk' := hall (k + 1) st hk
        rw [hstep] at hk'
        exact hk'
    · obtain ⟨idx1, herr⟩ := hsession.undo_error hfree
      rw [herr]
      refine ⟨(by rintro ⟨_, hok, -⟩; cases hok), fun hall => absurd (hall 0 head rfl) ?_⟩
      rw [hlast]
      exact hfree

/-- In every run without obstructed calls, each undo state files an object under at most one
of its three headings, the revisions of the sessions count down from that of the index, no id
that a session may restore is given out again, and committing to a revision and unwinding the
rest leads to the contents last had at that revision, or before the oldest session if that is
later, exactly when each session that is left can be rolled back from the contents it led to.
A revision beyond that of the index stands for the present one. -/
theorem undo_stack_consistent (h : Reached idx last) :
    (∀ st ∈ idx.stack, ∀ id, ¬ (id ∈ st.oldValues ∧ id ∈ st.newIds) ∧
      ¬ (id ∈ st.oldValues ∧ id ∈ st.removedValues) ∧ ¬ (id ∈ st.newIds ∧ id ∈ st.removedValues)) ∧
    (∀ (k : Nat) st, idx.stack[k]? = some st → st.revision = idx.revision - k) ∧
    (∀ st ∈ idx.stack, ∀ id, id ∈ st.oldValues ∨ id ∈ st.removedValues → id < idx.nextId) ∧
    ∀ r, (∃ idx', undoAll.run (idx.commit r) = .ok () idx' ∧ idx'.indices =
        (last (max (min r idx.revision) (idx.revision - idx.stack.length))).indices) ↔
      ∀ (k : Nat) st, idx.stack[k]? = some st → r < idx.revision - k →
        KeysFree keys st (last (idx.revision - k)).indices.objects := by
  obtain ⟨store, href, halign, hids⟩ := h.recorded
  have hsession : ∀ st ∈ idx.stack, ∃ base now : GenericIndex keys, base.IdsBelow ∧
      InSession base now st ∧ base.nextId ≤ idx.nextId := by
    intro st hst
    obtain ⟨s, hs, base, now, hbase, hin, hle⟩ := session_of_mem href.records hst
    refine ⟨base, now, ?_, hin, hle⟩
    have hmem : s.state ∈ store.states := mem_cons_of_mem _ (mem_map_of_mem hs)
    exact (hbase ▸ hids _ hmem : base.contents.IdsBelow)
  refine ⟨fun st hst id => ?_, href.records.revision_eq.1, fun st hst id hid => ?_, fun r => ?_⟩
  · obtain ⟨base, now, hbelow, hin, -⟩ := hsession st hst
    simp only [ExtTreeMap.mem_iff_isSome_getElem?]
    refine ⟨fun ⟨hold, hnew⟩ => ?_, fun ⟨hold, hrem⟩ => ?_, fun ⟨hnew, hrem⟩ => ?_⟩
    · rw [(hin.delta.of_new hnew).1] at hold
      cases hold
    · obtain ⟨v, hv⟩ := Option.isSome_iff_exists.mp hrem
      rw [(hin.delta.of_removed hv).2] at hold
      cases hold
    · rw [(hin.delta.of_new hnew).2, hin.fresh hbelow hnew] at hrem
      cases hrem
  · obtain ⟨base, now, hbelow, hin, hle⟩ := hsession st hst
    simp only [ExtTreeMap.mem_iff_isSome_getElem?, Option.isSome_iff_exists] at hid
    rcases hid with ⟨v, hv⟩ | ⟨v, hv⟩
    · exact (hbelow id v (hin.delta.of_old hv).1).trans_le hle
    · exact (hbelow id v (hin.delta.of_removed hv).1).trans_le hle
  · have hcommit := href.commit r
    have halign' : (store.commit r).Aligned last := halign.keeps (.commit store r)
      (by simpa [Snapshots.states, Snapshots.commit] using halign 0) fun _ _ => rfl
    have hiff := hcommit.undoAll_iff halign'
    have hsame : (idx.commit r).revision = idx.revision := rfl
    have hrev : idx.revision - ((idx.stack.take (idx.revision - r).toNat).length : Int) =
        max (min r idx.revision) (idx.revision - idx.stack.length) := by
      rw [length_take]
      omega
    simp only [commit_stack href.records, hsame, hrev, getElem?_take,
      Option.ite_none_right_eq_some] at hiff
    refine hiff.trans ⟨fun hall k st hk hlt => ?_, fun hall k st hk => ?_⟩
    · exact hall k st ⟨by omega, hk⟩
    · exact hall k st hk.2 (by omega)

/-- A modification and a creation in two sessions merged into one. -/
theorem undo_stack_consistent_merged :
    ∃ (idx : GenericIndex [fun v : Nat => v]) (last : Int → Contents _), Reached idx last ∧
      ∃ idx', undoAll.run (idx.commit 0) = .ok () idx' ∧
        idx'.indices = (last (max (min 0 idx.revision)
            (idx.revision - idx.stack.length))).indices := by
  have h := (((((@Reached.empty Nat Nat _ [fun v => v] 0).call (.perform (.create 1)) trivial
    rfl).call .startUndoSession trivial rfl).call (.perform (.modify 0 fun _ => 3)) (fun _ _ => rfl)
    rfl).call .startUndoSession trivial rfl).call (.perform (.create 5)) trivial rfl
  refine ⟨_, _, h.squash, ((undo_stack_consistent h.squash).2.2.2 0).mpr ?_⟩
  intro k st hk _
  cases k with
  | zero =>
    obtain rfl := Option.some.inj hk
    decide
  | succ k => cases hk

/-- The second object takes the key that the first one released: unwinding throws. -/
theorem undoAll_throws_of_handed_over_key :
    ∃ (idx idx' : GenericIndex [fun v : Nat => v]) (last : Int → Contents _), Reached idx last ∧
      undoAll.run (idx.commit 0) = .error .couldNotModify idx' :=
  ⟨_, _, _, (((((@Reached.empty Nat Nat _ [fun v => v] 0).call (.perform (.create 1)) trivial
    rfl).call (.perform (.create 2)) trivial rfl).call .startUndoSession trivial rfl).call
    (.perform (.modify 0 fun _ => 3)) (fun _ _ => rfl) rfl).call
    (.perform (.modify 1 fun _ => 1)) (fun _ _ => rfl) rfl, rfl⟩

end GenericIndex

end Freezone.Chainbase
