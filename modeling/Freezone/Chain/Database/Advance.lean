import Freezone.Chain.Database.History
import Freezone.Chain.ForkDatabase.Lines

/-!
# Applying a line of blocks

On top of a chain whose sessions all have their blocks in the index, a valid
block that the index links to them is applied without an exception: the blocks
it makes irreversible are found below the head and follow the log. A line of
valid blocks is applied block by block.
-/

namespace Freezone.Chain.Database

open Protocol List

variable {H P W S : Type}
variable {rules : Rules H P W S} {pinned items rest : List (ForkItem H P)} {x : ForkItem H P}
variable {db db' : Database H P W S} {s : ChainState H W S}

/-- Blocks that are found by their numbers are collected in order. -/
theorem blocksToWrite_eq {forkDb : ForkDatabase H P} {l : List (ForkItem H P)} {num : Nat}
    (h : ∀ i a, l[i]? = some a →
      forkDb.fetchBlockOnMainBranchByNumber pinned (num + 1 + i) = some a) :
    blocksToWrite forkDb pinned num l.length = some (l.map ForkItem.data) := by
  induction l generalizing num with
  | nil => rfl
  | cons a l ih =>
    have hfirst := h 0 a rfl
    have hrest := @ih (num + 1) fun i c hc => by
      have hc' := h (i + 1) c hc
      rwa [show num + 1 + (i + 1) = num + 1 + 1 + i by omega] at hc'
    rw [length_cons, blocksToWrite, hfirst, Option.bind_some, hrest]
    rfl

/-- Blocks that follow the log are appended. -/
theorem appendAll_eq {log : LoggedBlocks H P} {blocks : List (SignedBlock H P)}
    (h : ∀ i b, blocks[i]? = some b → b.blockNum = log.blocks.length + 1 + i) :
    ∃ log', appendAll log blocks = .ok () log' ∧ log'.blocks = blocks.reverse ++ log.blocks := by
  induction blocks generalizing log with
  | nil => exact ⟨log, rfl, rfl⟩
  | cons b blocks ih =>
    have hnum : b.blockNum = log.headNum + 1 := by
      rw [log.headNum_eq, h 0 b rfl]
    obtain ⟨log1, happ, hblocks1⟩ : ∃ log1, log.append b = some log1 ∧
        log1.blocks = b :: log.blocks := by
      rw [LoggedBlocks.append, dif_pos hnum]
      exact ⟨_, rfl, rfl⟩
    obtain ⟨log', hok, hblocks⟩ := @ih log1 fun i c hc => by
      have hc' := h (i + 1) c hc
      rw [hblocks1, length_cons]
      omega
    refine ⟨log', ?_, ?_⟩
    · rw [appendAll, happ]
      exact hok
    · rw [hblocks, hblocks1, reverse_cons, append_assoc]
      rfl

variable [DecidableEq H] [DecidableEq W] [HeaderHash H P]

/-- The position of a state of the store after one more block. -/
theorem Applied.state_kept (hst : Stacked db.store)
    (h : Applied rules pinned x.data s { db with forkDb := db.forkDb.setHead x } db') {i : Nat}
    {root : ChainState H W S} (hi : db.store.states[i]? = some root)
    (hle : s.lastIrreversibleBlockNum ≤ root.headBlockNumber) :
    db'.store.states[i + 1]? = some root := by
  have heval : rules.evaluate x.data db.store.current = some s := h.evaluate
  have hnext := (hst.bounded _ (Stacked.current_mem db.store)).blockNum
    (Rules.evaluate_eq_some heval).1
  have hheight := hst.height i root hi
  have hsaved := hst.saved_apply heval
  rw [h.store, Snapshots.states, hsaved, map_take, List.getElem?_cons_succ,
    List.getElem?_take, if_pos (by omega)]
  exact hi

/-- The states of the store after one more block. -/
theorem Applied.state_mem (hst : Stacked db.store)
    (h : Applied rules pinned x.data s { db with forkDb := db.forkDb.setHead x } db')
    {t : ChainState H W S} (ht : t ∈ db'.store.states) : t = s ∨ t ∈ db.store.states := by
  have hsaved := hst.saved_apply h.evaluate
  rw [h.store, Snapshots.states, hsaved, map_take] at ht
  exact (mem_cons.mp ht).imp_right mem_of_mem_take

/-- A database on whose chain a line of blocks is being applied. -/
structure Advancing (rules : Rules H P W S) (pinned : List (ForkItem H P))
    (db : Database H P W S) (items : List (ForkItem H P)) : Prop where
  coherent : db.forkDb.Coherent
  pinned : ∀ i ∈ pinned, i ∈ db.forkDb.created
  history : History rules db.store db.blockLog items

/-- The blocks that a valid block makes irreversible are found and appended. -/
theorem Advancing.exists_logged (h : Advancing rules pinned db items)
    (hline : db.forkDb.Line (x :: items)) (hhead : db.forkDb.head = some x)
    (heval : rules.evaluate x.data db.store.current = some s) :
    ∃ blocks log, blocksToWrite db.forkDb pinned db.blockLog.headNum
        (s.lastIrreversibleBlockNum - db.blockLog.headNum) = some blocks ∧
      appendAll db.blockLog blocks = .ok () log ∧
      log.blocks = ((x :: items).drop (x.num - s.lastIrreversibleBlockNum)).map ForkItem.data ++
        db.blockLog.blocks := by
  have hcur := h.history.stacked.bounded _ (Stacked.current_mem db.store)
  have hnext : x.num = db.store.current.headBlockNumber + 1 :=
    hcur.blockNum (Rules.evaluate_eq_some heval).1
  have hmark : s.lastIrreversibleBlockNum ≤ x.num := by
    have hm := (hcur.evaluate heval).mark
    rw [(Rules.evaluate_head heval).1] at hm
    exact hm
  have hlen := h.history.length_items
  have hlogged := h.history.logged
  obtain ⟨l, hl⟩ : ∃ l, ((x :: items).drop (x.num - s.lastIrreversibleBlockNum)).reverse = l :=
    ⟨_, rfl⟩
  have hlength : l.length = s.lastIrreversibleBlockNum - db.blockLog.headNum := by
    rw [← hl, length_reverse, length_drop, length_cons, LoggedBlocks.headNum_eq]
    omega
  have hmem : ∀ i a, l[i]? = some a →
      a ∈ x :: items ∧ a.num = db.blockLog.blocks.length + 1 + i := by
    intro i a hi
    obtain ⟨hlt, -⟩ := List.getElem?_eq_some_iff.mp hi
    rw [← hl] at hi hlt
    rw [length_reverse] at hlt
    rw [List.getElem?_reverse hlt, List.getElem?_drop] at hi
    have hnum := hline.num_add h.coherent hi
    rw [length_drop, length_cons] at hnum hlt
    exact ⟨mem_of_getElem? hi, by omega⟩
  have hblocks : blocksToWrite db.forkDb pinned db.blockLog.headNum
      (s.lastIrreversibleBlockNum - db.blockLog.headNum) = some (l.map ForkItem.data) := by
    rw [← hlength]
    apply blocksToWrite_eq
    intro i a hi
    obtain ⟨ha, hnum⟩ := hmem i a hi
    rw [LoggedBlocks.headNum_eq, ← hnum]
    exact hline.fetchBlockOnMainBranchByNumber h.coherent h.pinned hhead ha
  have hnums : ∀ (i : Nat) b, (l.map ForkItem.data)[i]? = some b →
      b.blockNum = db.blockLog.blocks.length + 1 + i := by
    intro i b hb
    rw [List.getElem?_map] at hb
    obtain ⟨a, ha, rfl⟩ := Option.map_eq_some_iff.mp hb
    exact (hmem i a ha).2
  obtain ⟨log, happ, hlog⟩ := appendAll_eq hnums
  refine ⟨_, log, hblocks, happ, ?_⟩
  rw [hlog, ← map_reverse, ← hl, reverse_reverse]

/-- A valid block on top of the chain is applied. -/
theorem Advancing.applyItem (h : Advancing rules pinned db items)
    (hline : db.forkDb.Line (x :: items))
    (heval : rules.evaluate x.data db.store.current = some s) :
    ∃ db', Database.applyItem rules pinned x db = .ok () db' ∧
      Applied rules pinned x.data s { db with forkDb := db.forkDb.setHead x } db' ∧
      Advancing rules pinned db' ((x :: items).take db'.store.saved.length) ∧
      db.blockLog.blocks <:+ db'.blockLog.blocks ∧
      db'.blockLog.blocks.length = max db.blockLog.blocks.length s.lastIrreversibleBlockNum := by
  have hxc := h.coherent.index_created x (hline.indexed x mem_cons_self)
  have hset : Advancing rules pinned { db with forkDb := db.forkDb.setHead x } items :=
    ⟨h.coherent.setHead hxc, h.pinned, h.history⟩
  obtain ⟨blocks, log, hblocks, happ, hlog⟩ := hset.exists_logged
    (hline.of_index hline.indexed) rfl heval
  have hnum : x.num = s.headBlockNumber := (Rules.evaluate_head heval).1.symm
  obtain ⟨db', hok, hap, hlog'⟩ := exists_applied { db with forkDb := db.forkDb.setHead x } heval
    (by
      intro head hh
      obtain rfl : x = head := by simpa [ForkDatabase.setHead] using hh
      exact hnum) hblocks happ
  subst hlog'
  have hhist := h.history.apply heval hlog
  rw [← hap.store] at hhist
  refine ⟨db', hok, hap, ⟨?_, ?_, ?_⟩, ?_, ?_⟩
  · rw [hap.forkDb]
    exact (h.coherent.setHead hxc).setMaxSize _
  · have hcreated : db'.forkDb.created = db.forkDb.created := by
      rw [hap.forkDb]
      rfl
    rw [hcreated]
    exact h.pinned
  · -- the kept items are as many as the sessions
    have hlen := hhist.length_items
    rw [length_take] at hlen
    rw [← hlen, ← take_eq_take_min]
    exact hhist
  · rw [hlog]
    exact suffix_append _ _
  · have hlen := h.history.length_items
    have hlogged := h.history.logged
    have hcur := h.history.stacked.bounded _ (Stacked.current_mem db.store)
    have hnext : x.num = db.store.current.headBlockNumber + 1 :=
      hcur.blockNum (Rules.evaluate_eq_some heval).1
    have hmark := (hcur.evaluate heval).mark
    rw [hlog, length_append, length_map, length_drop, length_cons]
    simp only
    omega

/-- From `db` to `db'` the valid blocks of `rest` were applied. -/
structure Advanced (rules : Rules H P W S) (rest : List (ForkItem H P))
    (db db' : Database H P W S) : Prop where
  head : db'.forkDb.head = rest.getLast?.or db.forkDb.head
  current : db'.store.current =
    ((rules.reached db.store.current (rest.map ForkItem.data)).getLast?).getD db.store.current
  created : db'.forkDb.created = db.forkDb.created
  index_subset : ∀ a ∈ db'.forkDb.index, a ∈ db.forkDb.index
  /-- The index keeps what is not below a new last irreversible block. -/
  index_kept : ∀ a ∈ db.forkDb.index,
    (∀ t ∈ rules.reached db.store.current (rest.map ForkItem.data),
      t.lastIrreversibleBlockNum ≤ a.num) → a ∈ db'.forkDb.index
  /-- The store keeps what is not below a new last irreversible block. -/
  state_kept : ∀ (i : Nat) root, db.store.states[i]? = some root →
    (∀ t ∈ rules.reached db.store.current (rest.map ForkItem.data),
      t.lastIrreversibleBlockNum ≤ root.headBlockNumber) →
    db'.store.states[i + rest.length]? = some root
  state_mem : ∀ t ∈ db'.store.states,
    t ∈ rules.reached db.store.current (rest.map ForkItem.data) ∨ t ∈ db.store.states
  length_saved : db'.store.saved.length ≤ db.store.saved.length + rest.length
  log : db.blockLog.blocks <:+ db'.blockLog.blocks
  length_log : db'.blockLog.blocks.length = highestMark db.blockLog.blocks.length
    (rules.reached db.store.current (rest.map ForkItem.data))
  popped : db'.popped = db.popped

/-- A line of valid blocks on top of the chain is applied. -/
theorem Advancing.applyItems (h : Advancing rules pinned db items) (rest : List (ForkItem H P))
    (hline : db.forkDb.Line (rest.reverse ++ items))
    (hall : (rules.reached db.store.current (rest.map ForkItem.data)).length = rest.length) :
    ∃ db', Database.applyItems rules pinned rest db = .ok () db' ∧
      Advancing rules pinned db' ((rest.reverse ++ items).take db'.store.saved.length) ∧
      db'.forkDb.Line ((rest.reverse ++ items).take db'.store.saved.length) ∧
      Advanced rules rest db db' := by
  induction rest generalizing db items with
  | nil =>
    refine ⟨db, rfl, ?_, hline.take _, ?_⟩
    · rw [reverse_nil, nil_append, ← h.history.length_items, take_length]
      exact h
    · exact ⟨rfl, rfl, rfl, fun _ ha => ha, fun _ ha _ => ha, fun _ _ hi _ => hi,
        fun _ ht => Or.inr ht, le_rfl, suffix_refl _, rfl, rfl⟩
  | cons x rest ih =>
    obtain ⟨s, heval, hall⟩ := Rules.evaluate_of_reached hall
    have hsplit : (x :: rest).reverse ++ items = rest.reverse ++ x :: items := by simp
    rw [hsplit] at hline
    have hx : db.forkDb.Line (x :: items) := by
      have hdrop := hline.drop rest.length
      rwa [drop_left' (by simp)] at hdrop
    obtain ⟨db1, hok1, happ1, hadv1, hlog1, hlength1⟩ := h.applyItem hx heval
    have hnum : x.num = s.headBlockNumber := (Rules.evaluate_head heval).1.symm
    have hcur1 : db1.store.current = s := by rw [happ1.store]; rfl
    have hcreated1 : db1.forkDb.created = db.forkDb.created := by rw [happ1.forkDb]; rfl
    have hindex1 : ∀ a, a ∈ db1.forkDb.index ↔ a ∈ db.forkDb.index ∧
        x.num - (s.headBlockNumber - s.lastIrreversibleBlockNum + 1) ≤ a.num := by
      intro a
      rw [happ1.forkDb]
      simp [ForkDatabase.setMaxSize, ForkDatabase.setHead]
    have hsaved1 : db1.store.saved.length ≤ db.store.saved.length + 1 ∧
        db1.store.saved.length ≤ x.num - s.lastIrreversibleBlockNum := by
      rw [happ1.store]
      rw [h.history.stacked.saved_apply heval, length_take, length_cons]
      exact ⟨Nat.min_le_right _ _, Nat.min_le_left _ _⟩
    -- the rest of the line is above the new last irreversible block, so it is still indexed
    have htake : (rest.reverse ++ x :: items).take (rest.length + db1.store.saved.length) =
        rest.reverse ++ (x :: items).take db1.store.saved.length := by
      rw [take_append, take_of_length_le (by simp), length_reverse,
        Nat.add_sub_cancel_left]
    have hline1 : db1.forkDb.Line (rest.reverse ++ (x :: items).take db1.store.saved.length) := by
      rw [← htake]
      refine (hline.take _).of_index ?_
      intro a ha
      rw [hindex1]
      refine ⟨(hline.take _).indexed a ha, ?_⟩
      obtain ⟨j, hj⟩ := mem_iff_getElem?.mp ha
      rw [List.getElem?_take] at hj
      split at hj
      · have hmid : (rest.reverse ++ x :: items)[rest.length]? = some x := by
          simp
        rcases Nat.le_total j rest.length with hle | hle
        · have hn := hline.num_add_sub h.coherent hle hj hmid
          omega
        · have hn := hline.num_add_sub h.coherent hle hmid hj
          omega
      · cases hj
    obtain ⟨db', hok, hadv, hline', hadvd⟩ := ih hadv1 hline1 (by rw [hcur1]; omega)
    have hreached : rules.reached db.store.current ((x :: rest).map ForkItem.data) =
        s :: rules.reached db1.store.current (rest.map ForkItem.data) := by
      rw [map_cons, Rules.reached, heval, hcur1]
    have hle' := hadvd.length_saved
    rw [← htake, take_take, Nat.min_eq_left (by omega)] at hadv hline'
    refine ⟨db', ?_, ?_, ?_, ?_⟩
    · unfold Database.applyItems
      rw [hok1]
      exact hok
    · rw [hsplit]
      exact hadv
    · rw [hsplit]
      exact hline'
    · refine ⟨?_, ?_, hadvd.created.trans hcreated1, ?_, ?_, ?_, ?_, ?_, hlog1.trans hadvd.log,
        ?_, hadvd.popped.trans happ1.popped⟩
      · rw [hadvd.head, happ1.forkDb, getLast?_cons]
        cases rest.getLast? <;> rfl
      · rw [hadvd.current, hreached, getLast?_cons, hcur1]
        rfl
      · intro a ha
        exact ((hindex1 a).mp (hadvd.index_subset a ha)).1
      · intro a ha hle
        rw [hreached] at hle
        have hs := hle s mem_cons_self
        refine hadvd.index_kept a ((hindex1 a).mpr ⟨ha, by omega⟩) ?_
        exact fun t ht => hle t (mem_cons_of_mem _ ht)
      · intro i root hi hle
        rw [hreached] at hle
        have hi1 := happ1.state_kept h.history.stacked hi (hle s mem_cons_self)
        have hi' := hadvd.state_kept (i + 1) root hi1 fun t ht => hle t (mem_cons_of_mem _ ht)
        rw [length_cons, show i + (rest.length + 1) = i + 1 + rest.length by omega]
        exact hi'
      · intro t ht
        rw [hreached]
        rcases hadvd.state_mem t ht with ht | ht
        · exact .inl (mem_cons_of_mem _ ht)
        · rcases happ1.state_mem h.history.stacked ht with rfl | ht
          · exact .inl mem_cons_self
          · exact .inr ht
      · rw [length_cons]
        omega
      · rw [hadvd.length_log, hlength1, hreached]
        rfl

end Freezone.Chain.Database
