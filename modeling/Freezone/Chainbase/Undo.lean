import Freezone.Chainbase.Delta

/-!
# Rolling a session back

`undo` restores modified objects one at a time in id order, then erases created
objects, then stores removed objects again. The first pass runs while created
objects and modified objects of larger id still hold their new keys, so it is
refused exactly when one of those holds a key that a modified object has to get
back. When it is not refused, the other two passes cannot fail and the index is
the one at the start of the session.
-/

namespace Freezone.Chainbase.GenericIndex

open Std List EStateM Container

variable {V K : Type} [DecidableEq K] {keys : List (V → K)}

/-- No key that a modified object has to get back is held by a created object or by a
modified object of larger id. -/
def KeysFree (keys : List (V → K)) (st : UndoState V) (live : Objects V) : Prop :=
  ∀ p ∈ st.oldValues.toList, ∀ q ∈ live.toList,
    (st.newIds.contains q.1 = true ∨ q.1 ∈ st.oldValues ∧ p.1 < q.1) → collides keys p.2 q.2 = false

instance (keys : List (V → K)) (st : UndoState V) (live : Objects V) :
    Decidable (KeysFree keys st live) :=
  inferInstanceAs (Decidable (∀ p ∈ st.oldValues.toList, ∀ q ∈ live.toList, _ → _))

variable {i : Nat} {v : V} {l : List (Nat × V)}

/-- An object that is there gets its old value back if its keys are free. -/
theorem run_restoreOld {idx : GenericIndex keys} (hi : idx.indices.objects[i]?.isSome) (v : V) :
    (restoreOld (i, v)).run idx =
      if (idx.indices.modify i v).1 then .ok () { idx with indices := (idx.indices.modify i v).2 }
      else .error .couldNotModify { idx with indices := (idx.indices.modify i v).2 } := by
  have hmem : i ∈ idx.indices.objects := ExtTreeMap.mem_iff_isSome_getElem?.mpr hi
  simp only [restoreOld, run_bind, run_get, hmem, if_true]
  cases (idx.indices.modify i v).1 <;> simp

section Passes

variable {before live : Objects V} {st : UndoState V}

/-- The contents while the old values in `l` are still to be restored. -/
def Pending (st : UndoState V) (live : Objects V) (l : List (Nat × V)) (objs : Objects V) : Prop :=
  ∀ j, objs[j]? = if j ∈ l.map Prod.fst then live[j]? else st.oldValues[j]?.or live[j]?

/-- Restoring the next old value is refused exactly when its key is held by a created
object or by an object that is still to be restored. -/
theorem taken_eq_false_iff_of_pending (hd : Delta before st live) (base : Container keys)
    (hb : base.objects = before) {c : Container keys}
    (hmem : ∀ p ∈ (i, v) :: l, st.oldValues[p.1]? = some p.2)
    (hsort : ((i, v) :: l).Pairwise fun p q => p.1 < q.1)
    (hp : Pending st live ((i, v) :: l) c.objects) :
    c.taken i v = false ↔ ∀ j w, live[j]? = some w →
      (st.newIds.contains j = true ∨ j ∈ l.map Prod.fst) → collides keys v w = false := by
  have hiv : st.oldValues[i]? = some v := hmem (i, v) mem_cons_self
  have hbi : before[i]? = some v := (hd.of_old hiv).1
  rw [taken_eq_false_iff]
  constructor
  · intro h j w hw hj
    have hji : j ≠ i := by
      rintro rfl
      rcases hj with hj | hj
      · rw [(hd.of_new hj).1] at hiv
        cases hiv
      · obtain ⟨q, hq, he⟩ := mem_map.mp hj
        exact absurd (rel_of_pairwise_cons hsort hq) (by omega)
    refine h ?_ hji
    rw [hp j]
    rcases hj with hj | hj
    · rw [(hd.of_new hj).1, Option.none_or, ite_self]
      exact hw
    · rw [if_pos (by simp only [map_cons, mem_cons, hj, or_true])]
      exact hw
  · intro h j w hw hji
    rw [hp j] at hw
    by_cases hjl : j ∈ l.map Prod.fst
    · rw [if_pos (by simp only [map_cons, mem_cons, hjl, or_true])] at hw
      exact h j w hw (Or.inr hjl)
    rw [if_neg (by simp only [map_cons, mem_cons, hjl, hji, or_self,
      not_false_eq_true])] at hw
    cases ho : st.oldValues[j]? with
    | some u =>
      rw [ho, Option.some_or] at hw
      have hbj : before[j]? = some w := hw ▸ (hd.of_old ho).1
      subst hb
      exact base.unique hbi hbj (Ne.symm hji)
    | none =>
      rw [ho, Option.none_or] at hw
      cases hn : st.newIds.contains j with
      | true => exact h j w hw (Or.inl hn)
      | false =>
        have hbj := hd.of_untouched hn ho (by rw [hw]; rfl)
        subst hb
        exact base.unique hbi (hbj.trans hw) (Ne.symm hji)

/-- Restoring the head of the list leaves the tail to be restored. -/
theorem Pending.put {objs : Objects V}
    (hp : Pending st live ((i, v) :: l) objs) (hiv : st.oldValues[i]? = some v)
    (hsort : ((i, v) :: l).Pairwise fun p q => p.1 < q.1) :
    Pending st live l (objs.insert i v) := by
  intro j
  rw [ExtTreeMap.getElem?_insert]
  by_cases hij : i = j
  · subst hij
    have hil : i ∉ l.map Prod.fst := by
      intro hj
      obtain ⟨q, hq, he⟩ := mem_map.mp hj
      exact absurd (rel_of_pairwise_cons hsort hq) (by omega)
    simp [hil, hiv]
  · have hmem : j ∈ ((i, v) :: l).map Prod.fst ↔ j ∈ l.map Prod.fst := by
      simp only [map_cons, mem_cons, Ne.symm hij, false_or]
    simp only [LawfulEqCmp.compare_eq_iff_eq, hij, if_false, hp j, hmem]

/-- No key that the old values in `l` have to get back is held by a created object or by an
object restored later. -/
def KeysFreeIn (keys : List (V → K)) (st : UndoState V) (live : Objects V)
    (l : List (Nat × V)) : Prop :=
  ∀ p ∈ l, ∀ j w, live[j]? = some w →
    (st.newIds.contains j = true ∨ j ∈ l.map Prod.fst ∧ p.1 < j) → collides keys p.2 w = false

/-- The condition on a list is the one on its head and the one on its tail. -/
theorem keysFreeIn_cons (hsort : ((i, v) :: l).Pairwise fun p q => p.1 < q.1) :
    KeysFreeIn keys st live ((i, v) :: l) ↔
      (∀ j w, live[j]? = some w → (st.newIds.contains j = true ∨ j ∈ l.map Prod.fst) →
        collides keys v w = false) ∧ KeysFreeIn keys st live l := by
  have hlt : ∀ q ∈ l, i < q.1 := fun q hq => rel_of_pairwise_cons hsort hq
  constructor
  · intro h
    refine ⟨?_, ?_⟩
    · intro j w hw hj
      refine h (i, v) mem_cons_self j w hw (hj.imp_right fun hj => ?_)
      obtain ⟨q, hq, rfl⟩ := mem_map.mp hj
      exact ⟨mem_map_of_mem (mem_cons_of_mem _ hq), hlt q hq⟩
    · intro p hp j w hw hj
      refine h p (mem_cons_of_mem _ hp) j w hw (hj.imp_right fun hj => ⟨?_, hj.2⟩)
      exact mem_cons_of_mem _ hj.1
  · rintro ⟨hhead, htail⟩ p hp j w hw hj
    rcases mem_cons.mp hp with rfl | hpl
    · refine hhead j w hw (hj.imp_right fun hj => ?_)
      rcases mem_cons.mp hj.1 with rfl | hj'
      · exact absurd hj.2 (lt_irrefl _)
      · exact hj'
    · refine htail p hpl j w hw (hj.imp_right fun hj => ⟨?_, hj.2⟩)
      rcases mem_cons.mp hj.1 with rfl | hj'
      · exact absurd (hlt p hpl) (lt_asymm hj.2)
      · exact hj'

/-- The first pass restores every old value when no key is in the way, and throws otherwise. -/
theorem restoreOld_pass (hd : Delta before st live) (base : Container keys)
    (hb : base.objects = before) {idx : GenericIndex keys}
    (hmem : ∀ p ∈ l, st.oldValues[p.1]? = some p.2) (hsort : l.Pairwise fun p q => p.1 < q.1)
    (hp : Pending st live l idx.indices.objects) :
    (KeysFreeIn keys st live l → ∃ c, (forM l restoreOld).run idx =
    .ok () { idx with indices := c } ∧
        Pending st live [] c.objects) ∧
      (¬ KeysFreeIn keys st live l →
        ∃ idx', (forM l restoreOld).run idx = .error .couldNotModify idx') := by
  induction l generalizing idx with
  | nil => exact ⟨fun _ => ⟨idx.indices, rfl, hp⟩, fun h => absurd (by simp [KeysFreeIn]) h⟩
  | cons p l ih =>
    obtain ⟨i, v⟩ := p
    have hiv : st.oldValues[i]? = some v := hmem (i, v) mem_cons_self
    have hlive : idx.indices.objects[i]?.isSome = true := by
      rw [hp i, if_pos (by simp)]
      exact (hd.of_old hiv).2.2
    rw [keysFreeIn_cons hsort, ← taken_eq_false_iff_of_pending hd base hb hmem hsort hp,
      forM_cons, run_bind, run_restoreOld hlive]
    by_cases ht : idx.indices.taken i v = false
    · have hm : idx.indices.modify i v = (true, idx.indices.put i v ht) := dif_pos ht
      rw [hm]
      simp only [ht, true_and]
      exact @ih { idx with indices := idx.indices.put i v ht }
        (fun q hq => hmem q (mem_cons_of_mem _ hq)) hsort.of_cons (hp.put hiv hsort)
    · have hm : idx.indices.modify i v = (false, idx.indices.erase i) := dif_neg ht
      rw [hm]
      exact ⟨fun h => absurd h.1 ht, fun _ => ⟨_, rfl⟩⟩

/-- The second pass leaves no created object. -/
theorem eraseNew_pass (l : List Nat) (idx : GenericIndex keys) :
    ∃ c, (forM l eraseNew).run idx = .ok () { idx with indices := c } ∧
      ∀ j, c.objects[j]? = if j ∈ l then none else idx.indices.objects[j]? := by
  induction l generalizing idx with
  | nil => exact ⟨idx.indices, rfl, by simp⟩
  | cons i l ih =>
    obtain ⟨c, hc, hobj⟩ := ih { idx with indices := idx.indices.erase i }
    refine ⟨c, ?_, ?_⟩
    · rw [forM_cons, run_bind]
      exact hc
    intro j
    rw [hobj j]
    simp only [erase_objects, ExtTreeMap.getElem?_erase, mem_cons,
      LawfulEqCmp.compare_eq_iff_eq]
    by_cases hj : j ∈ l
    · simp [hj]
    · by_cases hij : i = j
      · simp [hij]
      · simp [hj, hij, Ne.symm hij]

/-- The third pass stores every removed object again when its id is free and all contents
belong to one uniquely keyed container. -/
theorem restoreRemoved_pass (base : Container keys) (idx : GenericIndex keys)
    (hmem : ∀ p ∈ l, base.objects[p.1]? = some p.2) (hnodup : l.Pairwise fun p q => p.1 ≠ q.1)
    (hfree : ∀ p ∈ l, idx.indices.objects[p.1]? = none)
    (hsub : ∀ (j : Nat) w, idx.indices.objects[j]? = some w → base.objects[j]? = some w) :
    ∃ c, (forM l restoreRemoved).run idx = .ok () { idx with indices := c } ∧
      ∀ j, c.objects[j]? = if j ∈ l.map Prod.fst then base.objects[j]?
        else idx.indices.objects[j]? := by
  induction l generalizing idx with
  | nil => exact ⟨idx.indices, rfl, by simp⟩
  | cons p l ih =>
    obtain ⟨i, v⟩ := p
    have hbi : base.objects[i]? = some v := hmem (i, v) mem_cons_self
    have ht : idx.indices.taken i v = false := by
      rw [taken_eq_false_iff]
      intro j w hw hji
      exact base.unique hbi (hsub j w hw) (Ne.symm hji)
    have hemp : idx.indices.emplace i v = some (idx.indices.put i v ht) :=
      emplace_eq_some_iff.mpr ⟨ht, hfree (i, v) mem_cons_self, rfl⟩
    have hrun : (restoreRemoved (i, v)).run idx =
        .ok () { idx with indices := idx.indices.put i v ht } := by
      simp [restoreRemoved, hemp]
    obtain ⟨c, hc, hobj⟩ := ih { idx with indices := idx.indices.put i v ht }
      (fun q hq => hmem q (mem_cons_of_mem _ hq)) hnodup.of_cons
      (by
        intro q hq
        have hne : i ≠ q.1 := rel_of_pairwise_cons hnodup hq
        simpa [ExtTreeMap.getElem?_insert, hne] using hfree q (mem_cons_of_mem _ hq))
      (by
        intro j w hw
        simp only [put_objects, ExtTreeMap.getElem?_insert,
          LawfulEqCmp.compare_eq_iff_eq] at hw
        by_cases hij : i = j
        · rw [if_pos hij] at hw
          exact hij ▸ hw ▸ hbi
        · rw [if_neg hij] at hw
          exact hsub j w hw)
    refine ⟨c, ?_, ?_⟩
    · rw [forM_cons, run_bind, hrun]
      exact hc
    intro j
    rw [hobj j]
    by_cases hij : i = j
    · subst hij
      simp [hbi]
    · have hmem' : j ∈ ((i, v) :: l).map Prod.fst ↔ j ∈ l.map Prod.fst := by
        simp only [map_cons, mem_cons, Ne.symm hij, false_or]
      simp only [put_objects, ExtTreeMap.getElem?_insert,
        LawfulEqCmp.compare_eq_iff_eq, hij, if_false, hmem']

end Passes

variable {base idx : GenericIndex keys} {head : UndoState V}

theorem mem_map_fst_toList {objs : Objects V} {j : Nat} :
    j ∈ objs.toList.map Prod.fst ↔ objs[j]?.isSome = true := by
  rw [ExtTreeMap.map_fst_toList_eq_keys, ExtTreeMap.mem_keys,
    ExtTreeMap.mem_iff_isSome_getElem?]

/-- The condition on the whole undo state is the one met by the first pass. -/
theorem keysFree_iff {st : UndoState V} {live : Objects V} :
    KeysFree keys st live ↔ KeysFreeIn keys st live st.oldValues.toList := by
  simp only [KeysFree, KeysFreeIn, Prod.forall, ExtTreeMap.mem_toList_iff_getElem?_eq_some,
    mem_map_fst_toList, ← ExtTreeMap.mem_iff_isSome_getElem?]

/-- Before the first pass all old values are to be restored. -/
theorem pending_all (st : UndoState V) (live : Objects V) :
    Pending st live st.oldValues.toList live := by
  intro j
  simp only [mem_map_fst_toList]
  cases h : st.oldValues[j]? <;> simp

/-- With no key in the way, `undo` brings back the index at the start of the session. -/
theorem InSession.undo_ok (h : InSession base idx head)
    (hfree : KeysFree keys head idx.indices.objects) : undo.run idx = .ok () base := by
  obtain ⟨c1, h1, hp1⟩ := (restoreOld_pass h.delta base.indices rfl
    (fun p hp => ExtTreeMap.mem_toList_iff_getElem?_eq_some.mp hp) (toList_sorted _)
    (pending_all head idx.indices.objects)).1 (keysFree_iff.mp hfree)
  obtain ⟨c2, h2, hobj2⟩ := eraseNew_pass head.newIds.toList { idx with indices := c1 }
  -- what the first two passes leave is the start of the session without the removed objects
  have hleft : ∀ j : Nat, c2.objects[j]? =
      if head.removedValues[j]?.isSome then none else base.indices.objects[j]? := by
    intro j
    rw [hobj2 j, ← Track.restored (h.delta j), hp1 j]
    simp [ExtTreeSet.mem_toList]
  obtain ⟨c3, h3, hobj3⟩ := restoreRemoved_pass base.indices
    { idx with indices := c2, nextId := head.oldNextId }
    (fun p hp => (h.delta.of_removed (ExtTreeMap.mem_toList_iff_getElem?_eq_some.mp hp)).1)
    ((toList_sorted _).imp fun hlt => Nat.ne_of_lt hlt) (fun p hp => by
      rw [hleft p.1, if_pos (mem_map_fst_toList.mp (mem_map_of_mem hp))])
    (fun j w hw => by
      rw [hleft j] at hw
      split at hw
      · cases hw
      · exact hw)
  have hc3 : c3 = base.indices := by
    ext1 j
    rw [hobj3 j, hleft j]
    simp only [mem_map_fst_toList]
    split <;> rfl
  unfold undo
  simp only [h.stack] at h1 h2 h3
  simp only [run_bind, run_get, h.stack, h1, h2, run_modifyGet, h3]
  rw [hc3, h.oldNextId, h.revision, Int.add_sub_cancel]

/-- With a key in the way, `undo` throws. -/
theorem InSession.undo_error (h : InSession base idx head)
    (hfree : ¬ KeysFree keys head idx.indices.objects) :
    ∃ idx', undo.run idx = .error .couldNotModify idx' := by
  obtain ⟨idx', h1⟩ := (restoreOld_pass h.delta base.indices rfl
    (fun p hp => ExtTreeMap.mem_toList_iff_getElem?_eq_some.mp hp) (toList_sorted _)
    (pending_all head idx.indices.objects)).2 fun hf => hfree (keysFree_iff.mpr hf)
  refine ⟨idx', ?_⟩
  unfold undo
  simp only [run_bind, run_get, h.stack, h1]

/-- The keys that a rollback of the newest session has to give back are free. -/
def HeadKeysFree (idx : GenericIndex keys) : Prop :=
  ∀ head ∈ idx.stack.head?, KeysFree keys head idx.indices.objects

instance (idx : GenericIndex keys) : Decidable idx.HeadKeysFree :=
  inferInstanceAs (Decidable (∀ head ∈ idx.stack.head?, _))

/-- The condition on the keys reads only the objects. -/
theorem InSession.headKeysFree_iff (h : InSession base idx head) :
    idx.HeadKeysFree ↔ KeysFree keys head idx.indices.objects := by
  simp [HeadKeysFree, h.stack]

/-- After every successful sequence of calls in a session, `undo` succeeds and restores the
objects, the id counter and the revision at its start exactly when no key that a modified
object has to get back is held by a created object or by a modified object of larger id. -/
theorem undo_restores_iff_headKeysFree (base idx : GenericIndex keys) (ops : List (ObjectOp V))
    (hops : (performAll ops).run base.startUndoSession = .ok () idx) :
    (∃ idx', undo.run idx = .ok () idx' ∧ idx'.indices = base.indices ∧
      idx'.nextId = base.nextId ∧ idx'.revision = base.revision) ↔ idx.HeadKeysFree := by
  obtain ⟨head, h⟩ := (InSession.start base).performAll hops
  rw [h.headKeysFree_iff]
  constructor
  · rintro ⟨idx', hundo, _⟩
    by_contra hfree
    obtain ⟨idx1, herr⟩ := h.undo_error hfree
    rw [herr] at hundo
    cases hundo
  · intro hfree
    exact ⟨base, h.undo_ok hfree, rfl, rfl, rfl⟩

/-- Two objects whose unique key is their value, stored under the ids 0 and 1. -/
def twoObjects : GenericIndex [fun v : Nat => v] :=
  Exec.finalState ((performAll [.create 1, .create 2]).run {})

theorem twoObjects_idsBelow : twoObjects.IdsBelow := by
  have hall : ∀ p ∈ twoObjects.indices.objects.toList, p.1 < twoObjects.nextId := by decide
  intro i v hv
  exact hall (i, v) (ExtTreeMap.mem_toList_iff_getElem?_eq_some.mpr hv)

/-- Creating, modifying and removing objects under keys of their own is rolled back. -/
theorem undo_restores_twoObjects :
    let idx := Exec.finalState ((performAll [.modify 0 fun _ => 3, .create 4, .remove 1]).run
      twoObjects.startUndoSession)
    ∃ idx', undo.run idx = .ok () idx' ∧ idx'.indices = twoObjects.indices ∧
      idx'.nextId = twoObjects.nextId ∧ idx'.revision = twoObjects.revision :=
  (undo_restores_iff_headKeysFree twoObjects _ [.modify 0 fun _ => 3, .create 4, .remove 1]
    rfl).mpr (by decide)

/-- The second object takes the key that the first one released: `undo` cannot give it back. -/
theorem undo_throws_of_handed_over_key :
    ∃ idx idx', (performAll [.modify 0 fun _ => 3, .modify 1 fun _ => 1]).run
        twoObjects.startUndoSession = .ok () idx ∧ undo.run idx = .error .couldNotModify idx' :=
  ⟨_, _, rfl, rfl⟩

end Freezone.Chainbase.GenericIndex
