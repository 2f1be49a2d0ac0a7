import Freezone.Chain.Database.Outcomes

/-!
# The floor of the chain

The oldest state of the store is the floor of the chain: no last irreversible
block is above it, and undoing never goes below it. Popping blocks stops at the
floor only if the block it is looking for is not below.
-/

namespace Freezone.Chain

open Protocol List

variable {H P W S : Type}
variable {rules : Rules H P W S} {b : SignedBlock H P}

/-- The number of the oldest block whose state the store can return to. -/
def floor (store : Snapshots (ChainState H W S)) : Nat :=
  store.current.headBlockNumber - store.saved.length

namespace Stacked

variable {store : Snapshots (ChainState H W S)} {s : ChainState H W S}

/-- No state on the stack has a mark above the floor. -/
theorem mark_le_floor (h : Stacked store) (hs : s ∈ store.states) :
    s.lastIrreversibleBlockNum ≤ floor store := by
  have hmark := h.mark s hs
  unfold floor
  omega

/-- The states are those of the blocks from the floor up to the head. -/
theorem floor_le (h : Stacked store) (hs : s ∈ store.states) :
    floor store ≤ s.headBlockNumber ∧ s.headBlockNumber ≤ store.current.headBlockNumber := by
  obtain ⟨k, hk, rfl⟩ := (store.mem_states_iff s).mp hs
  have hheight := h.height k _ (store.iterate_undo_current hk)
  unfold floor
  omega

/-- Undoing leaves the floor where it is. -/
theorem floor_undo (h : Stacked store) : floor store.undo = floor store := by
  cases hs : store.saved with
  | nil => simp [Snapshots.undo, hs]
  | cons newest older =>
    have hheight := h.height 1 newest.state (by rw [Snapshots.states, hs]; rfl)
    have hundo : store.undo = ⟨newest.state, store.revision - 1, older⟩ := by
      rw [Snapshots.undo, hs]
    rw [hundo, floor, floor, hs, length_cons]
    simp only
    omega

theorem iterate_undo (h : Stacked store) (k : Nat) :
    Stacked (Snapshots.undo^[k] store) ∧ floor (Snapshots.undo^[k] store) = floor store := by
  induction k generalizing store with
  | zero => exact ⟨h, rfl⟩
  | succ k ih =>
    obtain ⟨hst, hfl⟩ := ih h.undo
    exact ⟨hst, hfl.trans h.floor_undo⟩

end Stacked

/-- The highest last irreversible block number of states, and of what was before. -/
def highestMark (m : Nat) (states : List (ChainState H W S)) : Nat :=
  states.foldl (fun m t => max m t.lastIrreversibleBlockNum) m

theorem le_highestMark (m : Nat) (states : List (ChainState H W S)) :
    m ≤ highestMark m states ∧ ∀ t ∈ states, t.lastIrreversibleBlockNum ≤ highestMark m states := by
  induction states generalizing m with
  | nil => exact ⟨le_rfl, by simp⟩
  | cons s states ih =>
    obtain ⟨hm, hall⟩ := ih (max m s.lastIrreversibleBlockNum)
    refine ⟨(le_max_left _ _).trans hm, ?_⟩
    intro t ht
    rcases mem_cons.mp ht with rfl | ht
    · exact (le_max_right _ _).trans hm
    · exact hall t ht

/-- The highest mark is the greatest of those of the states. -/
theorem isGreatest_highestMark (m : Nat) (states : List (ChainState H W S)) :
    IsGreatest (insert m {n | ∃ t ∈ states, t.lastIrreversibleBlockNum = n})
      (highestMark m states) := by
  obtain ⟨hm, hall⟩ := le_highestMark m states
  refine ⟨?_, ?_⟩
  · clear hm hall
    induction states generalizing m with
    | nil => exact .inl rfl
    | cons s states ih =>
      rcases ih (max m s.lastIrreversibleBlockNum) with h | ⟨t, ht, h⟩
      · have hstep : highestMark m (s :: states) = max m s.lastIrreversibleBlockNum := h
        rw [hstep]
        rcases max_choice m s.lastIrreversibleBlockNum with hmax | hmax
        · exact .inl hmax
        · exact .inr ⟨s, mem_cons_self, hmax.symm⟩
      · exact .inr ⟨t, mem_cons_of_mem _ ht, h⟩
  · rintro n (rfl | ⟨t, ht, rfl⟩)
    · exact hm
    · exact hall t ht

/-- States that are not above the mark leave it where it is. -/
theorem highestMark_eq {m : Nat} {states : List (ChainState H W S)}
    (h : ∀ t ∈ states, t.lastIrreversibleBlockNum ≤ m) : highestMark m states = m := by
  induction states with
  | nil => rfl
  | cons s states ih =>
    rw [highestMark, foldl_cons, max_eq_left (h s mem_cons_self)]
    exact ih fun t ht => h t (mem_cons_of_mem _ ht)

section Valid

variable [DecidableEq H] [DecidableEq W] [HeaderHash H P]

/-- The states that the blocks lead to from `s`, up to the first block that is not valid. -/
def Rules.reached (rules : Rules H P W S) :
    ChainState H W S → List (SignedBlock H P) → List (ChainState H W S)
  | _, [] => []
  | s, b :: blocks =>
    match rules.evaluate b s with
    | none => []
    | some s' => s' :: reached rules s' blocks

/-- A block whose state is reached is valid. -/
theorem Rules.evaluate_of_reached {s : ChainState H W S} {b : SignedBlock H P}
    {blocks : List (SignedBlock H P)} {n : Nat}
    (h : (rules.reached s (b :: blocks)).length = n + 1) :
    ∃ t, rules.evaluate b s = some t ∧ (rules.reached t blocks).length = n := by
  rw [reached] at h
  cases heval : rules.evaluate b s with
  | none => simp [heval] at h
  | some t =>
    rw [heval, length_cons] at h
    exact ⟨t, rfl, by omega⟩

/-- A reached state has one of the blocks as head. -/
theorem Rules.mem_reached {s t : ChainState H W S} {blocks : List (SignedBlock H P)}
    (h : t ∈ rules.reached s blocks) : ∃ b ∈ blocks, t.headBlockId = b.id := by
  induction blocks generalizing s with
  | nil => cases h
  | cons b blocks ih =>
    rw [reached] at h
    cases heval : rules.evaluate b s with
    | none => simp [heval] at h
    | some s' =>
      rw [heval] at h
      rcases mem_cons.mp h with rfl | h
      · exact ⟨b, mem_cons_self, (evaluate_head heval).2⟩
      · obtain ⟨c, hc, hhead⟩ := ih h
        exact ⟨c, mem_cons_of_mem _ hc, hhead⟩

end Valid

namespace Database

variable {pinned : List (ForkItem H P)} {point : BlockId H} {db db' db'' : Database H P W S}
variable {item : ForkItem H P} {items old : List (ForkItem H P)} {m n : Nat}

/-- From `db` to `db'` only blocks above `m` and above the last irreversible block of their
moment were popped. -/
def PopsAbove (m : Nat) (db db' : Database H P W S) : Prop :=
  ∃ popped, db'.popped = popped ++ db.popped ∧ ∀ e ∈ popped,
    m < e.block.blockNum ∧ e.lastIrreversibleBlockNum < e.block.blockNum

theorem PopsAbove.of_eq (h : db'.popped = db.popped) : PopsAbove m db db' :=
  ⟨[], h, by simp⟩

theorem PopsAbove.trans (h : PopsAbove m db db') (hmn : m ≤ n) (h' : PopsAbove n db' db'') :
    PopsAbove m db db'' := by
  obtain ⟨first, hfirst, hall⟩ := h
  obtain ⟨second, hsecond, hall'⟩ := h'
  refine ⟨second ++ first, by rw [hsecond, hfirst, append_assoc], ?_⟩
  intro e he
  rcases mem_append.mp he with he | he
  · exact ⟨Nat.lt_of_le_of_lt hmn (hall' e he).1, (hall' e he).2⟩
  · exact hall e he

/-- From `db` to `db'` the floor did not sink and nothing at or below it was popped. -/
structure AboveFloor (db db' : Database H P W S) : Prop where
  stacked : Stacked db'.store
  floor_le : floor db.store ≤ floor db'.store
  pops : PopsAbove (floor db.store) db db'

theorem AboveFloor.trans (h : AboveFloor db db') (h' : AboveFloor db' db'') : AboveFloor db db'' :=
  ⟨h'.stacked, h.floor_le.trans h'.floor_le, h.pops.trans h.floor_le h'.pops⟩

/-- Steps that leave the sessions and the record of pops alone. -/
theorem AboveFloor.of_eq (h : Stacked db.store) (hstore : db'.store = db.store)
    (hpopped : db'.popped = db.popped) : AboveFloor db db' :=
  ⟨hstore ▸ h, by rw [hstore], PopsAbove.of_eq hpopped⟩

variable [DecidableEq H] [HeaderHash H P]

/-- Popping undoes sessions and moves the head of the fork database, nothing else. -/
theorem popUntil_frame (pinned : List (ForkItem H P)) (point : BlockId H) (fuel : Nat)
    (db : Database H P W S) : ∃ k ≤ db.store.saved.length, ∃ head,
      (Exec.finalState (popUntil pinned point fuel db)).store = Snapshots.undo^[k] db.store ∧
      (Exec.finalState (popUntil pinned point fuel db)).forkDb = { db.forkDb with head := head } ∧
      (Exec.finalState (popUntil pinned point fuel db)).blockLog = db.blockLog := by
  refine popUntil_invariant (fun db' => ∃ k ≤ db.store.saved.length, ∃ head,
    db'.store = Snapshots.undo^[k] db.store ∧ db'.forkDb = { db.forkDb with head := head } ∧
      db'.blockLog = db.blockLog) ?_ point fuel ⟨0, Nat.zero_le _, db.forkDb.head, rfl, rfl, rfl⟩
  rintro db' ⟨k, hk, head, hstore, hfork, hlog⟩
  rcases popBlock_cases pinned db' with ⟨block, forkDb, -, hpop, hok⟩ | ⟨e, herr⟩
  · rw [hok, Exec.finalState_ok]
    have hforkDb : forkDb = { db.forkDb with head := forkDb.head } := by
      unfold ForkDatabase.popBlock at hpop
      split at hpop
      · cases hpop
      split at hpop
      · cases hpop
      cases hpop
      rw [hfork]
    rcases hk.lt_or_eq with hlt | rfl
    · refine ⟨k + 1, hlt, _, ?_, hforkDb, hlog⟩
      rw [Function.iterate_succ_apply', ← hstore]
    · -- without a session left, undoing does nothing
      have hsaved : db'.store.saved = [] := by
        rw [hstore, (db.store.iterate_undo le_rfl).1, drop_length]
      have hundo : db'.store.undo = db'.store := by rw [Snapshots.undo, hsaved]
      exact ⟨_, le_rfl, _, hundo.trans hstore, hforkDb, hlog⟩
  · rw [herr]
    exact ⟨k, hk, head, hstore, hfork, hlog⟩

/-- The loop returns at the block it is looking for. -/
theorem popUntil_eq_ok {fuel : Nat} (h : popUntil pinned point fuel db = .ok () db') :
    db'.headBlockId = point := by
  induction fuel generalizing db with
  | zero =>
    unfold popUntil at h
    split at h
    · cases h
      assumption
    · cases h
  | succ fuel ih =>
    unfold popUntil at h
    split at h
    · cases h
      assumption
    rcases popBlock_cases pinned db with ⟨block, forkDb, -, -, hok⟩ | ⟨e, herr⟩
    · simp only [hok] at h
      exact ih h
    · simp only [herr] at h
      cases h

/-- Looking for a block that the store cannot return to ends in an exception. -/
theorem popUntil_eq_error (hnone : ∀ s ∈ db.store.states, s.headBlockId ≠ point)
    (pinned : List (ForkItem H P)) (fuel : Nat) :
    ∃ e db', popUntil pinned point fuel db = .error e db' ∧
      db'.store.current ∈ db.store.states ∧ db'.forkDb.index = db.forkDb.index := by
  obtain ⟨k, hk, head, hstore, hfork, -⟩ := popUntil_frame pinned point fuel db
  have hmem := (db.store.mem_states_iff _).mpr ⟨k, hk, rfl⟩
  rw [← hstore] at hmem
  cases hr : popUntil pinned point fuel db with
  | ok _ db' =>
    rw [hr, Exec.finalState_ok] at hmem
    exact absurd (popUntil_eq_ok hr) (hnone _ hmem)
  | error e db' =>
    rw [hr, Exec.finalState_error] at hmem hfork
    exact ⟨e, db', rfl, hmem, by rw [hfork]⟩

/-- Looking for a block that the store can return to, only blocks above the floor are popped. -/
theorem popUntil_popsAbove (hst : Stacked db.store)
    (hkept : ∃ s ∈ db.store.states, s.headBlockId = point) (fuel : Nat) :
    PopsAbove (floor db.store) db (Exec.finalState (popUntil pinned point fuel db)) := by
  induction fuel generalizing db with
  | zero =>
    unfold popUntil
    split <;> exact PopsAbove.of_eq rfl
  | succ fuel ih =>
    unfold popUntil
    split_ifs with hne
    · exact PopsAbove.of_eq rfl
    rcases popBlock_cases pinned db with ⟨block, forkDb, hblock, -, hok⟩ | ⟨e, herr⟩
    · simp only [hok]
      obtain ⟨s, hs, hid⟩ := hkept
      -- the block is below the head, so there is a session to undo
      have hsaved : s ∈ db.store.saved.map Saved.state := by
        rcases mem_cons.mp hs with rfl | hs
        · exact absurd hid hne
        · exact hs
      obtain ⟨newest, older, hcons⟩ : ∃ newest older, db.store.saved = newest :: older := by
        cases hc : db.store.saved with
        | nil => simp [hc] at hsaved
        | cons newest older => exact ⟨newest, older, rfl⟩
      have hundo : db.store.undo = ⟨newest.state, db.store.revision - 1, older⟩ := by
        rw [Snapshots.undo, hcons]
      have hrest := @ih { db with
        forkDb := forkDb
        store := db.store.undo
        popped := ⟨block, db.store.current.lastIrreversibleBlockNum⟩ :: db.popped } hst.undo
        ⟨s, by rw [hundo]; rw [hcons] at hsaved; exact hsaved, hid⟩
      rw [hst.floor_undo] at hrest
      refine PopsAbove.trans ⟨[⟨block, db.store.current.lastIrreversibleBlockNum⟩], rfl, ?_⟩
        le_rfl hrest
      intro e he
      obtain rfl : e = ⟨block, db.store.current.lastIrreversibleBlockNum⟩ := by simpa using he
      have hcur := hst.bounded _ (Stacked.current_mem db.store)
      have hnum : block.blockNum = db.store.current.headBlockNumber := by
        rw [← hcur.head, ← SignedBlock.id_num, fetchBlockById_eq_some hblock]
        rfl
      have hmark := hst.mark_le_floor (Stacked.current_mem db.store)
      have hlen := hst.mark _ (Stacked.current_mem db.store)
      have hfloor : floor db.store < db.store.current.headBlockNumber := by
        rw [floor, hcons, length_cons]
        rw [hcons, length_cons] at hlen
        omega
      simp only
      omega
    · simp only [herr]
      exact PopsAbove.of_eq rfl

/-- Popping back to a state on the stack stays above the floor. -/
theorem aboveFloor_popUntil (pinned : List (ForkItem H P)) (hst : Stacked db.store)
    (hkept : ∃ s ∈ db.store.states, s.headBlockId = point) (fuel : Nat) :
    AboveFloor db (Exec.finalState (popUntil pinned point fuel db)) := by
  obtain ⟨k, -, -, hstore, -, -⟩ := popUntil_frame pinned point fuel db
  obtain ⟨hstk, hfloor⟩ := hst.iterate_undo k
  exact ⟨hstore ▸ hstk, by rw [hstore, hfloor], popUntil_popsAbove hst hkept fuel⟩

variable [DecidableEq W]

/-- An applied block. -/
theorem Applied.aboveFloor {s : ChainState H W S} (hst : Stacked db.store)
    (h : Applied rules pinned b s db db') : AboveFloor db db' := by
  refine ⟨?_, ?_, PopsAbove.of_eq h.popped⟩
  · rw [h.store]
    exact hst.apply h.evaluate
  · have hnum := (Rules.evaluate_head h.evaluate).1
    have hnext := (hst.bounded _ (Stacked.current_mem _)).blockNum
      (Rules.evaluate_eq_some h.evaluate).1
    have hcur : ((db.store.start.set s).commit s.lastIrreversibleBlockNum).current = s := rfl
    rw [h.store, floor, floor, hst.saved_apply h.evaluate, hcur, length_take, length_cons]
    omega

/-- The application of a block in a session stays above the floor. -/
theorem aboveFloor_applyInSession (rules : Rules H P W S) (pinned : List (ForkItem H P))
    (b : SignedBlock H P) (hst : Stacked db.store) :
    AboveFloor db (Exec.finalState (applyInSession rules pinned b db)) := by
  rcases applyInSession_cases rules pinned b db with ⟨s, db', hok, happ⟩ | ⟨e, db', herr, hun, -⟩
  · rw [hok]
    exact happ.aboveFloor hst
  · rw [herr]
    exact AboveFloor.of_eq hst hun.store hun.popped

/-- The application of a branch stays above the floor. -/
theorem aboveFloor_applyItems (rules : Rules H P W S) (pinned items : List (ForkItem H P))
    (hst : Stacked db.store) :
    AboveFloor db (Exec.finalState (applyItems rules pinned items db)) := by
  refine applyItems_invariant (fun item db' h => ?_) items (AboveFloor.of_eq hst rfl rfl)
  have hhead : AboveFloor db { db' with forkDb := db'.forkDb.setHead item } :=
    h.trans (.of_eq h.stacked rfl rfl)
  exact hhead.trans (aboveFloor_applyInSession rules pinned item.data hhead.stacked)

/-- Recovering from a failed branch, when the store can still return to the fork point. -/
theorem aboveFloor_recover (hst : Stacked db.store)
    (hkept : ∃ s ∈ db.store.states, s.headBlockId = point) (failed : List (ForkItem H P))
    (e : DatabaseError) :
    AboveFloor db (Exec.finalState (recover rules pinned point old failed e db)) := by
  have hremove : AboveFloor db (removeItems failed db) := .of_eq hst rfl rfl
  have hpop := hremove.trans (aboveFloor_popUntil pinned hremove.stacked hkept
    (removeItems failed db).popFuel)
  unfold recover
  simp only
  cases hr : popUntil pinned point (removeItems failed db).popFuel (removeItems failed db) with
  | error e' db' =>
    rw [hr] at hpop
    exact hpop
  | ok _ db' =>
    rw [hr] at hpop
    have happ := aboveFloor_applyItems rules pinned old hpop.stacked
    simp only [Exec.finalState_ok] at happ
    simp only
    cases hr' : applyItems rules pinned old db' with
    | error e' db'' =>
      rw [hr'] at happ
      exact hpop.trans happ
    | ok _ db'' =>
      rw [hr'] at happ
      exact hpop.trans happ

/-- A branch of which no valid block makes anything above the fork point irreversible. -/
theorem aboveFloor_applyBranch (hst : Stacked db.store) {root : ChainState H W S}
    (hroot : root ∈ db.store.states) (hpoint : root.headBlockId = point)
    (hlow : ∀ t ∈ rules.reached db.store.current (items.map ForkItem.data),
      t.lastIrreversibleBlockNum ≤ root.headBlockNumber) :
    AboveFloor db (Exec.finalState (applyBranch rules pinned point old items db)) := by
  induction items generalizing db with
  | nil => exact AboveFloor.of_eq hst rfl rfl
  | cons item items ih =>
    unfold applyBranch applyItem
    rcases applyInSession_cases rules pinned item.data
        { db with forkDb := db.forkDb.setHead item } with
      ⟨s, db', hok, happ⟩ | ⟨e, db', herr, hun, -⟩
    · simp only [hok]
      have hhead : AboveFloor db { db with forkDb := db.forkDb.setHead item } := .of_eq hst rfl rfl
      have hstep := hhead.trans (happ.aboveFloor hst)
      have heval : rules.evaluate item.data db.store.current = some s := happ.evaluate
      rw [map_cons, Rules.reached, heval] at hlow
      have hcur : db'.store.current = s := by rw [happ.store]; rfl
      refine hstep.trans (ih hstep.stacked ?_ ?_)
      · -- the fork point is not above what the block makes irreversible, so it is kept
        have hle := hlow s mem_cons_self
        have hnext := (hst.bounded _ (Stacked.current_mem db.store)).blockNum
          (Rules.evaluate_eq_some heval).1
        obtain ⟨k, hk⟩ := mem_iff_getElem?.mp hroot
        have hheight := hst.height k root hk
        rw [happ.store, Snapshots.states, hst.saved_apply heval, map_take]
        apply mem_cons_of_mem
        apply mem_of_getElem? (i := k)
        rw [getElem?_take, if_pos (by omega)]
        exact hk
      · rw [hcur]
        intro t ht
        exact hlow t (mem_cons_of_mem _ ht)
    · simp only [herr]
      have hstep : AboveFloor db db' := AboveFloor.of_eq hst hun.store hun.popped
      refine hstep.trans (aboveFloor_recover hstep.stacked ⟨root, ?_, hpoint⟩ _ e)
      rw [hun.store]
      exact hroot

/-- A branch that applies as a whole needs no recovery. -/
theorem applyBranch_of_applyItems (h : applyItems rules pinned items db = .ok () db') :
    applyBranch rules pinned point old items db = .ok true db' := by
  induction items generalizing db with
  | nil =>
    cases h
    rfl
  | cons item items ih =>
    unfold applyItems at h
    unfold applyBranch
    cases hr : applyItem rules pinned item db with
    | error e db1 => rw [hr] at h; cases h
    | ok _ db1 =>
      rw [hr] at h
      exact ih h

/-- Whether a branch applies depends on the store, the log and the fork database up to its
head. -/
theorem applyItems_congr (db : Database H P W S) {db2 : Database H P W S}
    (hstore : db2.store = db.store) (hlog : db2.blockLog = db.blockLog)
    (hfork : ∀ item, db2.forkDb.setHead item = db.forkDb.setHead item)
    (h : applyItems rules pinned items db = .ok () db') :
    ∃ db2', applyItems rules pinned items db2 = .ok () db2' := by
  induction items generalizing db db2 with
  | nil => exact ⟨db2, rfl⟩
  | cons item items ih =>
    unfold applyItems applyItem at h
    rcases applyInSession_cases rules pinned item.data
        { db with forkDb := db.forkDb.setHead item } with
      ⟨s, db1, hok, happ⟩ | ⟨e, db1, herr, -, -⟩
    · simp only [hok] at h
      obtain ⟨blocks, hblocks, hall⟩ := happ.logged
      obtain ⟨db3, hok3, happ3, hlog3⟩ : ∃ db3, applyInSession rules pinned item.data
          { db2 with forkDb := db2.forkDb.setHead item } = .ok () db3 ∧
          Applied rules pinned item.data s { db2 with forkDb := db2.forkDb.setHead item } db3 ∧
          db3.blockLog = db1.blockLog := by
        apply exists_applied
        · simp only [hstore]
          exact happ.evaluate
        · simp only [hfork]
          exact happ.forkHead
        · simp only [hfork, hlog]
          exact hblocks
        · simp only [hlog]
          exact hall
      have hstore3 : db3.store = db1.store := by
        rw [happ3.store, happ.store]
        simp only [hstore]
      have hfork3 : db3.forkDb = db1.forkDb := by
        rw [happ3.forkDb, happ.forkDb]
        simp only [hfork]
      obtain ⟨db2', h2⟩ := ih db1 hstore3 hlog3 (fun _ => by rw [hfork3]) h
      refine ⟨db2', ?_⟩
      unfold applyItems applyItem
      simp only [hok3]
      exact h2
    · simp only [herr] at h
      cases h

variable [Inhabited H]

/-- If the push switches forks, the store can return to the fork point; and it still can when a
block of the new branch fails: either the whole branch applies, or none of its valid blocks makes
a block above the fork point irreversible. -/
def Recoverable (rules : Rules H P W S) (b : SignedBlock H P) (db : Database H P W S) : Prop :=
  ∀ forkDb newHead first second last, Switches b db forkDb newHead first second last →
    ∃ k ≤ db.store.saved.length,
      (Snapshots.undo^[k] db.store).current.headBlockId = last.previousId ∧
      ((∃ db', applyItems rules (newHead :: (first ++ second)) first.reverse
          { db with forkDb := forkDb, store := Snapshots.undo^[k] db.store } = .ok () db') ∨
        ∀ t ∈ rules.reached (Snapshots.undo^[k] db.store).current
            (first.reverse.map ForkItem.data),
          t.lastIrreversibleBlockNum ≤ (Snapshots.undo^[k] db.store).current.headBlockNumber)

/-- A switch with a fork point that is kept. -/
theorem aboveFloor_switch {forkDb : ForkDatabase H P} {newHead last : ForkItem H P}
    {first second : List (ForkItem H P)} (hst : Stacked db.store) (hkept : Recoverable rules b db)
    (h : Switches b db forkDb newHead first second last) :
    AboveFloor db (afterPush rules b db) := by
  obtain ⟨k, hk, hpoint, hcases⟩ := hkept forkDb newHead first second last h
  have hstate := db.store.iterate_undo_current hk
  have hpushed : AboveFloor db { db with forkDb := forkDb } := .of_eq hst rfl rfl
  unfold afterPush
  rw [h.pushBlock_eq, replaceBranch]
  generalize hpin : newHead :: (first ++ second) = pinned at hcases
  generalize hfuel : popFuel { db with forkDb := forkDb } = fuel
  have hpop := hpushed.trans (aboveFloor_popUntil pinned hpushed.stacked
    ⟨_, mem_of_getElem? hstate, hpoint⟩ fuel)
  obtain ⟨j, hj, head, hstore, hfork, hlog⟩ := popUntil_frame pinned last.previousId fuel
    { db with forkDb := forkDb }
  cases hr : popUntil pinned last.previousId fuel { db with forkDb := forkDb } with
  | error e db' =>
    rw [hr] at hpop
    exact hpop
  | ok _ db' =>
    rw [hr] at hpop hstore hfork hlog
    simp only [Exec.finalState_ok] at hpop hstore hfork hlog
    have hid : (Snapshots.undo^[j] db.store).current.headBlockId = last.previousId := by
      rw [← hstore]
      exact popUntil_eq_ok hr
    rw [hst.eq_of_headBlockId (db.store.iterate_undo_current hj) hstate
      (hid.trans hpoint.symm)] at hstore
    refine hpop.trans ?_
    rcases hcases with ⟨db2, hok⟩ | hlow
    · obtain ⟨db3, hok3⟩ := applyItems_congr
        { db with forkDb := forkDb, store := Snapshots.undo^[k] db.store } hstore hlog
        (by rw [hfork]; exact fun _ => rfl) hok
      have hitems := aboveFloor_applyItems rules pinned first.reverse hpop.stacked
      simp only [applyBranch_of_applyItems hok3]
      rw [hok3] at hitems
      exact hitems
    · refine aboveFloor_applyBranch hpop.stacked (Stacked.current_mem db'.store) ?_ ?_
      · rw [hstore]
        exact hpoint
      · rw [hstore]
        exact hlow

/-- One push. -/
theorem aboveFloor_pushBlock (hst : Stacked db.store) (hkept : Recoverable rules b db) :
    AboveFloor db (afterPush rules b db) := by
  rcases pushBlock_cases rules b db with ⟨e, -, hr⟩ | ⟨forkDb, newHead, -, hhead, hcases⟩
  · rw [afterPush, hr]
    exact .of_eq hst rfl rfl
  have hpushed : AboveFloor db { db with forkDb := forkDb } := .of_eq hst rfl rfl
  rcases hcases with ⟨-, hr⟩ | ⟨-, ⟨-, hr⟩ | ⟨-, ⟨e, -, hr⟩ | ⟨first, second, last, hs⟩⟩⟩
  · have happ := hpushed.trans (aboveFloor_applyInSession rules [newHead] b hpushed.stacked)
    rw [afterPush, hr, extendHead]
    cases ha : applyInSession rules [newHead] b { db with forkDb := forkDb } with
    | ok _ db' =>
      rw [ha] at happ
      exact happ
    | error e db' =>
      rw [ha] at happ
      exact happ.trans (.of_eq happ.stacked rfl rfl)
  · rw [afterPush, hr]
    exact hpushed
  · rw [afterPush, hr]
    exact hpushed
  · exact aboveFloor_switch hst hkept hs

/-- The sessions of a database reached by pushes that can be recovered from. -/
theorem Reached.stacked {condition : SignedBlock H P → Database H P W S → Prop}
    (hc : ∀ b db, condition b db → Recoverable rules b db) (h : Reached rules condition db) :
    Stacked db.store := by
  induction h with
  | opened h => exact h.stacked
  | push _ b hb ih => exact (aboveFloor_pushBlock ih (hc b _ hb)).stacked

end Database

end Freezone.Chain
