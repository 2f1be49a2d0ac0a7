import Freezone.Chain.Database.Advance

/-!
# Recovering from a branch that fails

When a block of the new branch is not valid, the blocks applied before it are
popped, the rest of the branch is removed from the index and the old branch is
applied again. If no block applied before the failing one made anything above
the fork point irreversible, this leads back to the old head and its state.
-/

namespace Freezone.Chain.Database

open Protocol List

variable {H P W S : Type} [DecidableEq H] [HeaderHash H P]
variable {rules : Rules H P W S} {pinned items old : List (ForkItem H P)} {x : ForkItem H P}
variable {db db' : Database H P W S} {point : BlockId H}

/-- What is left in the index after blocks were removed. -/
theorem mem_index_removeItems (failed : List (ForkItem H P)) (db : Database H P W S)
    (a : ForkItem H P) : a ∈ (removeItems failed db).forkDb.index ↔
      a ∈ db.forkDb.index ∧ ∀ c ∈ failed, a.id ≠ c.id := by
  have hfold : ∀ forkDb : ForkDatabase H P,
      a ∈ (failed.foldl (fun forkDb item => forkDb.remove item.id) forkDb).index ↔
        a ∈ forkDb.index ∧ ∀ c ∈ failed, a.id ≠ c.id := by
    induction failed with
    | nil => simp
    | cons c failed ih =>
      intro forkDb
      rw [foldl_cons, ih]
      simp only [ForkDatabase.remove, mem_filter, bne_iff_ne, mem_cons, forall_eq_or_imp,
        and_assoc]
  exact hfold db.forkDb

/-- Removing blocks touches nothing but the index. -/
theorem removeItems_frame (failed : List (ForkItem H P)) (db : Database H P W S) :
    (removeItems failed db).store = db.store ∧ (removeItems failed db).blockLog = db.blockLog ∧
      (removeItems failed db).forkDb.head = db.forkDb.head ∧
      (removeItems failed db).forkDb.created = db.forkDb.created ∧
      (db.forkDb.Coherent → (removeItems failed db).forkDb.Coherent) := by
  have hfold : ∀ forkDb : ForkDatabase H P,
      (failed.foldl (fun forkDb item => forkDb.remove item.id) forkDb).head = forkDb.head ∧
      (failed.foldl (fun forkDb item => forkDb.remove item.id) forkDb).created = forkDb.created ∧
      (forkDb.Coherent →
        (failed.foldl (fun forkDb item => forkDb.remove item.id) forkDb).Coherent) := by
    induction failed with
    | nil => exact fun forkDb => ⟨rfl, rfl, id⟩
    | cons c failed ih =>
      intro forkDb
      obtain ⟨hhead, hcreated, hcoh⟩ := ih (forkDb.remove c.id)
      exact ⟨hhead, hcreated, fun h => hcoh (h.remove c.id)⟩
  exact ⟨rfl, rfl, hfold db.forkDb⟩

variable [DecidableEq W]

/-- Popping down to the state `k` sessions below succeeds when the popped blocks are indexed and
the head of the fork database has `k` linked predecessors. -/
theorem popUntil_rewinds {k fuel : Nat} {heads : List (ForkItem H P)}
    (hc : db.forkDb.Coherent) (hpin : ∀ i ∈ pinned, i ∈ db.forkDb.created)
    (hist : History rules db.store db.blockLog items) (hk : k ≤ items.length)
    (hpoint : (Snapshots.undo^[k] db.store).current.headBlockId = point)
    (hindexed : ∀ a ∈ items.take k, a ∈ db.forkDb.index)
    (hhead : db.forkDb.head = heads.head?)
    (hlinked : heads.IsChain fun c p => c.prev = some p.handle)
    (htail : ∀ a ∈ heads.tail, a ∈ db.forkDb.index) (hheads : k < heads.length) (hfuel : k ≤ fuel) :
    ∃ db', popUntil pinned point fuel db = .ok () db' ∧
      db'.store = Snapshots.undo^[k] db.store ∧
      db'.forkDb = { db.forkDb with head := heads[k]? } ∧ db'.blockLog = db.blockLog := by
  induction k generalizing db items heads fuel with
  | zero =>
    refine ⟨db, ?_, rfl, ?_, rfl⟩
    · unfold popUntil
      exact if_pos hpoint
    · rw [← head?_eq_getElem?, ← hhead]
  | succ k ih =>
    obtain ⟨a, items, rfl⟩ : ∃ a items', items = a :: items' := by
      cases items with
      | nil => cases hk
      | cons a items => exact ⟨a, items, rfl⟩
    obtain ⟨top, next, heads, rfl⟩ : ∃ top next heads', heads = top :: next :: heads' := by
      cases heads with
      | nil => cases hheads
      | cons top heads =>
        cases heads with
        | nil => simp at hheads
        | cons next heads => exact ⟨top, next, heads, rfl⟩
    obtain ⟨fuel, rfl⟩ : ∃ f, fuel = f + 1 := ⟨fuel - 1, by omega⟩
    have hlen := hist.length_items
    have hne : ¬ db.headBlockId = point := by
      intro heq
      have h0 := db.store.iterate_undo_current (k := 0) (Nat.zero_le _)
      have hk' := db.store.iterate_undo_current (k := k + 1) (by omega)
      have hcontra := hist.stacked.eq_of_headBlockId h0 hk' (heq.trans hpoint.symm)
      omega
    have hid : a.id = db.headBlockId := hist.tip a.data (by simp)
    have hblock : db.fetchBlockById db.headBlockId = some a.data := by
      rw [fetchBlockById, ForkDatabase.fetchBlock,
        (ForkDatabase.find_eq_some_iff_mem hc.ids).mpr ⟨hindexed a (by simp), hid⟩]
      rfl
    rw [isChain_cons_cons] at hlinked
    have hpop : db.forkDb.popBlock pinned = .ok { db.forkDb with head := some next } := by
      have hparent := hc.parent_of_mem hpin (htail next (by simp)) hlinked.1
      rw [head?_cons] at hhead
      rw [ForkDatabase.popBlock, hhead]
      simp only [hparent]
    have hstep : popBlock pinned db = .ok () { db with
        forkDb := { db.forkDb with head := some next }
        store := db.store.undo
        popped := ⟨a.data, db.store.current.lastIrreversibleBlockNum⟩ :: db.popped } := by
      unfold popBlock
      simp only [hblock, hpop]
    obtain ⟨db', hok, hstore, hfork, hlog⟩ := @ih items { db with
        forkDb := { db.forkDb with head := some next }
        store := db.store.undo
        popped := ⟨a.data, db.store.current.lastIrreversibleBlockNum⟩ :: db.popped }
      fuel (next :: heads) (hc.popBlock hpin hpop) hpin hist.undo
      (Nat.le_of_succ_le_succ hk) hpoint (fun c hmem => hindexed c (mem_cons_of_mem _ hmem))
      rfl hlinked.2 (fun c hmem => htail c (mem_cons_of_mem _ hmem))
      (Nat.lt_of_succ_lt_succ hheads) (by omega)
    refine ⟨db', ?_, hstore, hfork, hlog⟩
    unfold popUntil
    rw [if_neg hne]
    simp only [hstep]
    exact hok

/-- After valid blocks on a state comes an invalid one. -/
structure FailsAt (rules : Rules H P W S) (s : ChainState H W S) (done : List (ForkItem H P))
    (x : ForkItem H P) : Prop where
  valid : (rules.reached s (done.map ForkItem.data)).length = done.length
  invalid : rules.evaluate x.data
    ((rules.reached s (done.map ForkItem.data)).getLast?.getD s) = none

/-- A list of blocks is valid as a whole or has a first invalid one. -/
theorem reached_cases (rules : Rules H P W S) (s : ChainState H W S) (items : List (ForkItem H P)) :
    (rules.reached s (items.map ForkItem.data)).length = items.length ∨
    ∃ done x todo, items = done ++ x :: todo ∧ FailsAt rules s done x ∧
      rules.reached s (items.map ForkItem.data) = rules.reached s (done.map ForkItem.data) := by
  induction items generalizing s with
  | nil => exact .inl rfl
  | cons a items ih =>
    cases heval : rules.evaluate a.data s with
    | none => exact .inr ⟨[], a, items, rfl, ⟨rfl, heval⟩, by simp [Rules.reached, heval]⟩
    | some t =>
      have hcons : ∀ l : List (ForkItem H P), rules.reached s ((a :: l).map ForkItem.data) =
          t :: rules.reached t (l.map ForkItem.data) := by
        intro l
        rw [map_cons, Rules.reached, heval]
      rcases ih t with hall | ⟨done, x, todo, rfl, hx, hreached⟩
      · exact .inl (by rw [hcons, length_cons, length_cons, hall])
      refine .inr ⟨a :: done, x, todo, rfl, ⟨?_, ?_⟩, ?_⟩
      · rw [hcons, length_cons, length_cons, hx.valid]
      · rw [hcons, getLast?_cons]
        exact hx.invalid
      · rw [hcons, hcons, hreached]

/-- A branch whose first blocks have been applied. -/
theorem applyBranch_append {done todo : List (ForkItem H P)}
    (h : applyItems rules pinned done db = .ok () db') :
    applyBranch rules pinned point old (done ++ todo) db =
      applyBranch rules pinned point old todo db' := by
  induction done generalizing db with
  | nil =>
    cases h
    rfl
  | cons item done ih =>
    unfold applyItems at h
    rw [cons_append]
    conv_lhs => unfold applyBranch
    cases hr : applyItem rules pinned item db with
    | error e db1 => rw [hr] at h; cases h
    | ok _ db1 =>
      rw [hr] at h
      exact ih h

/-- Valid blocks are above the state they start from. -/
theorem lt_num_of_reached {s : ChainState H W S} (hs : s.Bounded) {rest : List (ForkItem H P)}
    (h : (rules.reached s (rest.map ForkItem.data)).length = rest.length) :
    ∀ c ∈ rest, s.headBlockNumber < c.num := by
  induction rest generalizing s with
  | nil => simp
  | cons a rest ih =>
    obtain ⟨t, heval, h⟩ := Rules.evaluate_of_reached h
    have hnext : a.num = s.headBlockNumber + 1 := hs.blockNum (Rules.evaluate_eq_some heval).1
    have hnum : t.headBlockNumber = a.num := (Rules.evaluate_head heval).1
    intro c hc
    rcases mem_cons.mp hc with rfl | hc
    · omega
    · have hlt := ih (hs.evaluate heval) h c hc
      omega

/-- What a failed branch leaves: the chain of the old branch, an index without the failing block
and those after it, and a log with what the valid blocks have made irreversible. -/
structure Recovered (rules : Rules H P W S) (pinned items old failed : List (ForkItem H P))
    (valid : List (ChainState H W S)) (db db' : Database H P W S) : Prop where
  advancing : Advancing rules pinned db' ((old.reverse ++ items).take db'.store.saved.length)
  line : db'.forkDb.Line ((old.reverse ++ items).take db'.store.saved.length)
  current : db'.store.current =
    ((rules.reached db.store.current (old.map ForkItem.data)).getLast?).getD db.store.current
  head : old ≠ [] → db'.forkDb.head = old.getLast?
  index_subset : ∀ a ∈ db'.forkDb.index, a ∈ db.forkDb.index ∧ ∀ c ∈ failed, a.id ≠ c.id
  log : db.blockLog.blocks <:+ db'.blockLog.blocks
  length_log : db'.blockLog.blocks.length = highestMark (highestMark db.blockLog.blocks.length
    valid) (rules.reached db.store.current (old.map ForkItem.data))

/-- The blocks before the first invalid one are applied, and it changes nothing but the head of
the fork database. -/
theorem Advancing.stops_at (h : Advancing rules pinned db items) (point : BlockId H)
    (old : List (ForkItem H P)) {done todo : List (ForkItem H P)}
    (hdone : db.forkDb.Line (done.reverse ++ items)) (hx : FailsAt rules db.store.current done x) :
    ∃ e db1 db2, applyBranch rules pinned point old (done ++ x :: todo) db =
        recover rules pinned point old (x :: todo) e db2 ∧
      Advancing rules pinned db1 ((done.reverse ++ items).take db1.store.saved.length) ∧
      db1.forkDb.Line ((done.reverse ++ items).take db1.store.saved.length) ∧
      Advanced rules done db db1 ∧
      Unapplied { db1 with forkDb := db1.forkDb.setHead x } db2 ∧ db2.blockLog = db1.blockLog := by
  obtain ⟨db1, hok1, hadv1, hline1, had1⟩ := h.applyItems done hdone hx.valid
  have hnone1 : rules.evaluate x.data db1.store.current = none := by
    rw [had1.current]
    exact hx.invalid
  rcases applyInSession_cases rules pinned x.data { db1 with forkDb := db1.forkDb.setHead x } with
    ⟨s, db2, -, happ⟩ | ⟨e, db2, herr, hun, hlog⟩
  · have hsome : rules.evaluate x.data db1.store.current = some s := happ.evaluate
    rw [hnone1] at hsome
    cases hsome
  · refine ⟨e, db1, db2, ?_, hadv1, hline1, had1, hun, hlog hnone1⟩
    rw [applyBranch_append hok1]
    unfold applyBranch Database.applyItem
    rw [herr]

/-- The pops after a block of the new branch has failed lead back to the fork point. -/
theorem Advancing.pops_failed (h : Advancing rules pinned db items) (old : List (ForkItem H P))
    {done todo : List (ForkItem H P)}
    (hnew : db.forkDb.Line ((x :: todo).reverse ++ (done.reverse ++ items)))
    (hx : FailsAt rules db.store.current done x)
    (hlow : ∀ t ∈ rules.reached db.store.current (done.map ForkItem.data),
      t.lastIrreversibleBlockNum ≤ db.headBlockNum) :
    ∃ e db2 db4 m, applyBranch rules pinned db.headBlockId old (done ++ x :: todo) db =
        recover rules pinned db.headBlockId old (x :: todo) e db2 ∧
      popUntil pinned db.headBlockId (removeItems (x :: todo) db2).popFuel
        (removeItems (x :: todo) db2) = .ok () db4 ∧
      Advancing rules pinned db4 (items.take m) ∧ db4.forkDb.Line (items.take m) ∧
      db4.store.current = db.store.current ∧
      (∀ a ∈ db4.forkDb.index, a ∈ db.forkDb.index ∧ ∀ c ∈ x :: todo, a.id ≠ c.id) ∧
      (∀ a ∈ db.forkDb.index, db.headBlockNum ≤ a.num → (∀ c ∈ x :: todo, a.id ≠ c.id) →
        a ∈ db4.forkDb.index) ∧
      db.blockLog.blocks <:+ db4.blockLog.blocks ∧
      db4.blockLog.blocks.length = highestMark db.blockLog.blocks.length
        (rules.reached db.store.current (done.map ForkItem.data)) := by
  have hdone : db.forkDb.Line (done.reverse ++ items) := by
    have hdrop := hnew.drop (x :: todo).reverse.length
    rwa [drop_left] at hdrop
  have hxdone : db.forkDb.Line (x :: done.reverse) := by
    have hdrop := (hnew.drop todo.length).take (done.length + 1)
    rw [reverse_cons, append_assoc, drop_left' (by simp), singleton_append,
      take_succ_cons, take_left' (by simp)] at hdrop
    exact hdrop
  obtain ⟨e, db1, db2, hbranch, hadv1, hline1, had1, hun2, hlog2⟩ :=
    h.stops_at db.headBlockId old hdone hx
  obtain ⟨hstore3, hlog3, hhead3, hcreated3, hcoh3⟩ := removeItems_frame (x :: todo) db2
  have hindex3 := mem_index_removeItems (x :: todo) db2
  rw [hun2.forkDb] at hindex3
  generalize hdb3 : removeItems (x :: todo) db2 = db3 at *
  have hxc : x ∈ db1.forkDb.created := by
    rw [had1.created]
    exact h.coherent.index_created x (hxdone.indexed x mem_cons_self)
  have hcoh2 : db2.forkDb.Coherent := by
    rw [hun2.forkDb]
    exact hadv1.coherent.setHead hxc
  -- the state of the fork point is below those of the applied blocks
  have hstate := had1.state_kept 0 db.store.current rfl hlow
  rw [Nat.zero_add] at hstate
  have hk : done.length ≤ db1.store.saved.length := by
    have hlt := (List.getElem?_eq_some_iff.mp hstate).1
    simpa [Snapshots.states] using hlt
  have hroot : (Snapshots.undo^[done.length] db1.store).current = db.store.current := by
    have hcur := db1.store.iterate_undo_current hk
    rw [hstate] at hcur
    simpa using hcur.symm
  have hparts : ((done.reverse ++ items).take db1.store.saved.length).take done.length =
        done.reverse ∧
      ((done.reverse ++ items).take db1.store.saved.length).drop done.length =
        items.take (db1.store.saved.length - done.length) := by
    constructor
    · rw [take_take, Nat.min_eq_left hk, take_left' (by simp)]
    · rw [drop_take, drop_left' (by simp)]
  -- blocks of the line below the failing one stay in the index
  have hstay : ∀ a ∈ (done.reverse ++ items).take db1.store.saved.length, a ∈ db3.forkDb.index := by
    intro a ha
    rw [hindex3]
    refine ⟨hline1.indexed a ha, ?_⟩
    intro c hc
    exact hnew.id_ne h.coherent (mem_reverse.mpr hc) (mem_of_mem_take ha)
  have hpin3 : ∀ i ∈ pinned, i ∈ db3.forkDb.created := by
    rw [hcreated3, hun2.forkDb]
    exact hadv1.pinned
  have hist3 : History rules db3.store db3.blockLog
      ((done.reverse ++ items).take db1.store.saved.length) := by
    rw [hstore3, hlog3, hun2.store, hlog2]
    exact hadv1.history
  have hheadx : db3.forkDb.head = some x := by
    rw [hhead3, hun2.forkDb]
    rfl
  have hsame3 : db3.store = db1.store := hstore3.trans hun2.store
  obtain ⟨bottom, hbottom⟩ : ∃ bottom, (x :: done.reverse)[done.length]? = some bottom :=
    ⟨_, List.getElem?_eq_getElem (by simp)⟩
  obtain ⟨db4, hok4, hstore4, hfork4, hlog4⟩ : ∃ db4,
      popUntil pinned db.headBlockId db3.popFuel db3 = .ok () db4 ∧
      db4.store = Snapshots.undo^[done.length] db3.store ∧
      db4.forkDb = { db3.forkDb with head := (x :: done.reverse)[done.length]? } ∧
      db4.blockLog = db3.blockLog := by
    refine popUntil_rewinds (hcoh3 hcoh2) hpin3 hist3 ?_ ?_ ?_ hheadx hxdone.linked ?_ (by simp) ?_
    · rw [hadv1.history.length_items]
      exact hk
    · rw [hsame3, hroot]
      rfl
    · intro a ha
      exact hstay a (mem_of_mem_take ha)
    · intro a ha
      rw [← hparts.1] at ha
      exact hstay a (mem_of_mem_take ha)
    · have hnum := hxdone.num_add h.coherent hbottom
      rw [popFuel, hheadx]
      simp only [Option.map_some, Option.getD_some]
      omega
  have hindex4 : ∀ a, a ∈ db4.forkDb.index ↔
      a ∈ db1.forkDb.index ∧ ∀ c ∈ x :: todo, a.id ≠ c.id := by
    intro a
    rw [hfork4]
    exact hindex3 a
  refine ⟨e, db2, db4, db1.store.saved.length - done.length, hbranch, hdb3 ▸ hok4,
    ⟨?_, ?_, ?_⟩, ?_, ?_, ?_, ?_, ?_, ?_⟩
  · rw [hfork4, hbottom]
    refine (hcoh3 hcoh2).of_subset rfl (Sublist.refl _) ?_ (fun _ => rfl)
      (hcoh3 hcoh2).unlinked
    intro i hi
    obtain rfl : bottom = i := by simpa using hi
    rw [hcreated3, hun2.forkDb]
    have hmem : bottom ∈ x :: done.reverse := mem_of_getElem? hbottom
    have hc := h.coherent.index_created bottom (hxdone.indexed bottom hmem)
    rw [← had1.created] at hc
    exact hc
  · rw [hfork4]
    exact hpin3
  · have hist4 := hist3.iterate_undo (k := done.length)
      (by rw [hadv1.history.length_items]; exact hk)
    rw [hparts.2] at hist4
    rw [hstore4, hlog4]
    exact hist4
  · have hline4 := hline1.drop done.length
    rw [hparts.2] at hline4
    refine hline4.of_index ?_
    intro a ha
    rw [hfork4]
    apply hstay
    rw [← hparts.2] at ha
    exact mem_of_mem_drop ha
  · rw [hstore4, hsame3, hroot]
  · intro a ha
    obtain ⟨ha1, hids⟩ := (hindex4 a).mp ha
    exact ⟨had1.index_subset a ha1, hids⟩
  · intro a ha hnum hids
    exact (hindex4 a).mpr ⟨had1.index_kept a ha fun t ht => (hlow t ht).trans hnum, hids⟩
  · rw [hlog4, hlog3, hlog2]
    exact had1.log
  · rw [hlog4, hlog3, hlog2]
    exact had1.length_log

/-- If the first invalid block of a branch comes before any valid one has made a block above the
fork point irreversible, the old branch is restored and the exception rethrown. -/
theorem Advancing.recovers (h : Advancing rules pinned db items) {done todo : List (ForkItem H P)}
    (hnew : db.forkDb.Line ((x :: todo).reverse ++ (done.reverse ++ items)))
    (hold : db.forkDb.Line (old.reverse ++ items))
    (hdisjoint : ∀ c ∈ old, ∀ a ∈ x :: todo, c.id ≠ a.id)
    (hx : FailsAt rules db.store.current done x)
    (hlow : ∀ t ∈ rules.reached db.store.current (done.map ForkItem.data),
      t.lastIrreversibleBlockNum ≤ db.headBlockNum)
    (hback : (rules.reached db.store.current (old.map ForkItem.data)).length = old.length) :
    ∃ e db', applyBranch rules pinned db.headBlockId old (done ++ x :: todo) db = .error e db' ∧
      Recovered rules pinned items old (x :: todo)
        (rules.reached db.store.current (done.map ForkItem.data)) db db' := by
  obtain ⟨e, db2, db4, m, hbranch, hpop, hadv4, hline4, hcur4, hsub4, hkept4, hlog4, hlength4⟩ :=
    h.pops_failed old hnew hx hlow
  have habove := lt_num_of_reached (h.history.stacked.bounded _
    (Stacked.current_mem db.store)) hback
  -- the old branch is still in the index, above the blocks that are left below it
  have htake : old.reverse ++ items.take m = (old.reverse ++ items).take (old.length + m) := by
    rw [take_append, length_reverse, Nat.add_sub_cancel_left,
      take_of_length_le (l := old.reverse) (by simp)]
  have hline : db4.forkDb.Line (old.reverse ++ items.take m) := by
    have hlinked := (hold.take (old.length + m)).linked
    rw [← htake] at hlinked
    refine ⟨?_, hlinked⟩
    intro a ha
    rcases mem_append.mp ha with ha | ha
    · have ha' : a ∈ old := mem_reverse.mp ha
      exact hkept4 a (hold.indexed a (mem_append_left _ ha)) (le_of_lt (habove a ha'))
        (hdisjoint a ha')
    · exact hline4.indexed a ha
  obtain ⟨db', hok, hadv, hline', had⟩ := hadv4.applyItems old hline (by rw [hcur4]; exact hback)
  have hlen : db'.store.saved.length ≤ old.length + m := by
    have hle := had.length_saved
    have hitems := hadv4.history.length_items
    rw [length_take] at hitems
    omega
  rw [htake, take_take, Nat.min_eq_left hlen] at hadv hline'
  refine ⟨e, db', ?_, hadv, hline', ?_, ?_, ?_, hlog4.trans had.log,
    by rw [had.length_log, hlength4, hcur4]⟩
  · rw [hbranch, recover]
    simp only [hpop, hok]
  · rw [had.current, hcur4]
  · intro hne
    rw [had.head]
    obtain ⟨c, hc⟩ : ∃ c, old.getLast? = some c := ⟨_, getLast?_eq_some_getLast hne⟩
    rw [hc]
    rfl
  · intro a ha
    exact hsub4 a (had.index_subset a ha)

end Freezone.Chain.Database
