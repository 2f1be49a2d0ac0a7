import Freezone.Core.Exec
import Freezone.Chain.Database.Store
import Freezone.Chain.ForkDatabase.Branches

/-!
# The outcomes of the steps of a push

What each function of the push does to the four parts of the database at its
return and at its throw. An applied block is all or nothing as far as the store
and the fork database go; a popped block costs one session.
-/

namespace Freezone.Chain.Database

open Protocol List Snapshots

variable {H P W S : Type}
variable {rules : Rules H P W S} {pinned : List (ForkItem H P)} {b : SignedBlock H P}
variable {db db' : Database H P W S} {forkDb : ForkDatabase H P} {e : DatabaseError}

@[simp] theorem headBlockId_forkDb (db : Database H P W S) (forkDb : ForkDatabase H P) :
    ({ db with forkDb := forkDb } : Database H P W S).headBlockId = db.headBlockId := rfl

@[simp] theorem headBlockNum_forkDb (db : Database H P W S) (forkDb : ForkDatabase H P) :
    ({ db with forkDb := forkDb } : Database H P W S).headBlockNum = db.headBlockNum := rfl

/-- The last step of an applied block. -/
theorem migrateIrreversibleState_cases (pinned : List (ForkItem H P)) (db : Database H P W S) :
    (∃ db', migrateIrreversibleState pinned db = .ok () db' ∧
      (∀ head ∈ db.forkDb.head, head.num = db.headBlockNum) ∧
      (∃ blocks, blocksToWrite db.forkDb pinned db.blockLog.headNum
          (db.store.current.lastIrreversibleBlockNum - db.blockLog.headNum) = some blocks ∧
        appendAll db.blockLog blocks = .ok () db'.blockLog) ∧
      db' = { db with
        blockLog := db'.blockLog
        forkDb := db.forkDb.setMaxSize
          (db.headBlockNum - db.store.current.lastIrreversibleBlockNum + 1)
        store := db.store.commit db.store.current.lastIrreversibleBlockNum }) ∨
    ∃ e log, migrateIrreversibleState pinned db = .error e { db with blockLog := log } := by
  unfold migrateIrreversibleState
  by_cases hhead : db.forkDb.head.any (fun head => head.num ≠ db.headBlockNum)
  · rw [if_pos hhead]
    exact .inr ⟨_, db.blockLog, rfl⟩
  rw [if_neg hhead]
  cases hblocks : blocksToWrite db.forkDb pinned db.blockLog.headNum
      (db.store.current.lastIrreversibleBlockNum - db.blockLog.headNum) with
  | none => exact .inr ⟨_, db.blockLog, rfl⟩
  | some blocks =>
    cases happ : appendAll db.blockLog blocks with
    | error e log => exact .inr ⟨e, log, by simp only [happ]⟩
    | ok _ log =>
      refine .inl ⟨_, by simp only [happ]; rfl, ?_, ⟨blocks, rfl, happ⟩, rfl⟩
      intro head hh
      rw [Option.mem_def] at hh
      simpa [hh] using hhead

variable [DecidableEq H] [HeaderHash H P]

/-- The two outcomes of `pop_block`; an exception changes nothing. -/
theorem popBlock_cases (pinned : List (ForkItem H P)) (db : Database H P W S) :
    (∃ block forkDb, db.fetchBlockById db.headBlockId = some block ∧
      db.forkDb.popBlock pinned = .ok forkDb ∧
      popBlock pinned db = .ok () { db with
        forkDb := forkDb
        store := db.store.undo
        popped := ⟨block, db.store.current.lastIrreversibleBlockNum⟩ :: db.popped }) ∨
    ∃ e, popBlock pinned db = .error e db := by
  unfold popBlock
  cases hb : db.fetchBlockById db.headBlockId with
  | none => exact .inr ⟨_, rfl⟩
  | some block =>
    cases hf : db.forkDb.popBlock pinned with
    | error e => exact .inr ⟨_, rfl⟩
    | ok forkDb => exact .inl ⟨block, forkDb, rfl, rfl, rfl⟩

/-- What is fetched by an id has that id. -/
theorem fetchBlockById_eq_some {id : BlockId H} (h : db.fetchBlockById id = some b) :
    b.id = id := by
  unfold fetchBlockById at h
  split at h
  · rename_i item hitem
    obtain rfl : item.data = b := by simpa using h
    have hid : item.id = id := by
      rcases Option.or_eq_some_iff.mp hitem with hfind | ⟨-, hfind⟩
      · simpa using find?_some hfind
      · simpa using find?_some hfind
    exact hid
  · simpa using (Option.filter_eq_some_iff.mp h).2

/-- What every pop keeps, popping keeps. -/
theorem popUntil_invariant (inv : Database H P W S → Prop) {pinned : List (ForkItem H P)}
    (hpop : ∀ db, inv db → inv (Exec.finalState (popBlock pinned db))) (point : BlockId H)
    (fuel : Nat) (h : inv db) : inv (Exec.finalState (popUntil pinned point fuel db)) := by
  induction fuel generalizing db with
  | zero =>
    unfold popUntil
    split <;> exact h
  | succ fuel ih =>
    unfold popUntil
    split
    · exact h
    have hstep := hpop db h
    cases hr : popBlock pinned db with
    | error e db' => rw [hr] at hstep; exact hstep
    | ok _ db' => rw [hr] at hstep; exact ih hstep

section Blocks

variable [DecidableEq W]

/-- The block `b` was applied: it is valid with outcome `s`, the fork database had its number as
head, and the blocks that it made irreversible were found and logged. -/
structure Applied (rules : Rules H P W S) (pinned : List (ForkItem H P)) (b : SignedBlock H P)
    (s : ChainState H W S) (db db' : Database H P W S) : Prop where
  evaluate : rules.evaluate b db.store.current = some s
  forkHead : ∀ head ∈ db.forkDb.head, head.num = s.headBlockNumber
  logged : ∃ blocks, blocksToWrite db.forkDb pinned db.blockLog.headNum
      (s.lastIrreversibleBlockNum - db.blockLog.headNum) = some blocks ∧
    appendAll db.blockLog blocks = .ok () db'.blockLog
  store : db'.store = (db.store.start.set s).commit s.lastIrreversibleBlockNum
  forkDb : db'.forkDb =
    db.forkDb.setMaxSize (s.headBlockNumber - s.lastIrreversibleBlockNum + 1)
  popped : db'.popped = db.popped

/-- Neither the store nor the fork database nor the record of pops has changed. -/
structure Unapplied (db db' : Database H P W S) : Prop where
  store : db'.store = db.store
  forkDb : db'.forkDb = db.forkDb
  popped : db'.popped = db.popped

/-- The two outcomes of a block applied in a session. -/
theorem applyInSession_cases (rules : Rules H P W S) (pinned : List (ForkItem H P))
    (b : SignedBlock H P) (db : Database H P W S) :
    (∃ s db', applyInSession rules pinned b db = .ok () db' ∧ Applied rules pinned b s db db') ∨
    ∃ e db', applyInSession rules pinned b db = .error e db' ∧ Unapplied db db' ∧
      (rules.evaluate b db.store.current = none → db'.blockLog = db.blockLog) := by
  have hundo := db.store.undo_start_set
  unfold applyInSession applyBlock
  cases hconf : rules.confirm b db.store.start.current with
  | none => exact .inr ⟨.invalidBlock, _, rfl, ⟨hundo db.store.current, rfl, rfl⟩, fun _ => rfl⟩
  | some s =>
    simp only
    cases hfin : rules.finish b s with
    | none => exact .inr ⟨.invalidBlock, _, rfl, ⟨hundo s, rfl, rfl⟩, fun _ => rfl⟩
    | some s' =>
      have heval : rules.evaluate b db.store.current = some s' := by
        rw [Rules.evaluate, show rules.confirm b db.store.current = some s from hconf]
        exact hfin
      simp only
      generalize hnot : db.notified ++ range' db.store.start.current.lastIrreversibleBlockNum
        (s.lastIrreversibleBlockNum + 1 -
        db.store.start.current.lastIrreversibleBlockNum) = notified
      rcases migrateIrreversibleState_cases pinned
          { db with store := db.store.start.set s', notified := notified } with
        ⟨db', hok, hhead, hlog, hdb'⟩ | ⟨e, log, herr⟩
      · refine .inl ⟨s', db', by rw [hok], heval, hhead, hlog, ?_, ?_, ?_⟩ <;> rw [hdb'] <;> rfl
      · rw [herr]
        refine .inr ⟨e, _, rfl, ⟨hundo s', rfl, rfl⟩, fun hnone => ?_⟩
        rw [heval] at hnone
        cases hnone

/-- A valid block is applied when its number is that of the head of the fork database and the
blocks that it makes irreversible are found and follow the log. -/
theorem exists_applied (db : Database H P W S) {s : ChainState H W S}
    {blocks : List (SignedBlock H P)}
    {log : LoggedBlocks H P} (heval : rules.evaluate b db.store.current = some s)
    (hhead : ∀ head ∈ db.forkDb.head, head.num = s.headBlockNumber)
    (hblocks : blocksToWrite db.forkDb pinned db.blockLog.headNum
      (s.lastIrreversibleBlockNum - db.blockLog.headNum) = some blocks)
    (happ : appendAll db.blockLog blocks = .ok () log) :
    ∃ db', applyInSession rules pinned b db = .ok () db' ∧ Applied rules pinned b s db db' ∧
      db'.blockLog = log := by
  obtain ⟨t, hconf, hfin⟩ := Option.bind_eq_some_iff.mp heval
  have hany : ¬ (db.forkDb.head.any fun head => head.num ≠ s.headBlockNumber) = true := by
    cases hh : db.forkDb.head with
    | none => simp
    | some head => simp [hhead head hh]
  rcases applyInSession_cases rules pinned b db with ⟨s', db', hok, happlied⟩ | ⟨e, db', herr, -, -⟩
  · obtain rfl : s = s' := by
      have heq := heval.symm.trans happlied.evaluate
      simpa using heq
    obtain ⟨blocks', hb', ha'⟩ := happlied.logged
    obtain rfl : blocks = blocks' := by
      have heq := hblocks.symm.trans hb'
      simpa using heq
    refine ⟨db', hok, happlied, ?_⟩
    rw [happ] at ha'
    injection ha' with _ hlog
    exact hlog.symm
  · -- the run does not throw
    exfalso
    unfold applyInSession applyBlock migrateIrreversibleState headBlockNum at herr
    have hstart : db.store.start.current = db.store.current := rfl
    have hset : (db.store.start.set s).current = s := rfl
    simp only [hstart, hconf, hfin, hset] at herr
    rw [if_neg hany] at herr
    simp only [hblocks, happ] at herr
    cases herr

/-- What every item keeps, a branch keeps. -/
theorem applyItems_invariant {inv : Database H P W S → Prop} {pinned : List (ForkItem H P)}
    (hitem : ∀ item db, inv db → inv (Exec.finalState (applyItem rules pinned item db)))
    (items : List (ForkItem H P)) (h : inv db) :
    inv (Exec.finalState (applyItems rules pinned items db)) := by
  induction items generalizing db with
  | nil => exact h
  | cons item items ih =>
    have hstep := hitem item db h
    unfold applyItems
    cases hr : applyItem rules pinned item db with
    | error e db' => rw [hr] at hstep; exact hstep
    | ok _ db' => rw [hr] at hstep; exact ih hstep

end Blocks

variable [Inhabited H]

/-- The push of `b` switches from the branch `second` to the branch `first` of the new head of
the fork database; both follow the previous block of `last`. -/
structure Switches (b : SignedBlock H P) (db : Database H P W S) (forkDb : ForkDatabase H P)
    (newHead : ForkItem H P) (first second : List (ForkItem H P)) (last : ForkItem H P) : Prop where
  pushed : db.forkDb.pushBlock b = .ok forkDb
  head : forkDb.head = some newHead
  fork : newHead.previousId ≠ db.headBlockId
  higher : db.headBlockNum < newHead.num
  branches : forkDb.fetchBranchFrom newHead.id db.headBlockId = .ok (first, second)
  last : second.getLast? = some last

/-- A push gives the fork database one head. -/
theorem pushed_unique {forkDb' : ForkDatabase H P} {newHead newHead' : ForkItem H P}
    (hp : db.forkDb.pushBlock b = .ok forkDb) (hhead : forkDb.head = some newHead)
    (hp' : db.forkDb.pushBlock b = .ok forkDb') (hhead' : forkDb'.head = some newHead') :
    forkDb = forkDb' ∧ newHead = newHead' := by
  obtain rfl : forkDb = forkDb' := by simpa using hp.symm.trans hp'
  exact ⟨rfl, by simpa using hhead.symm.trans hhead'⟩

/-- A push decides on one switch at most. -/
theorem Switches.unique {forkDb' : ForkDatabase H P} {newHead newHead' last last' : ForkItem H P}
    {first first' second second' : List (ForkItem H P)}
    (h : Switches b db forkDb newHead first second last)
    (h' : Switches b db forkDb' newHead' first' second' last') :
    forkDb = forkDb' ∧ newHead = newHead' ∧ first = first' ∧ second = second' ∧ last = last' := by
  obtain ⟨rfl, rfl⟩ := pushed_unique h.pushed h.head h'.pushed h'.head
  obtain ⟨rfl, rfl⟩ : first = first' ∧ second = second' := by
    simpa using h.branches.symm.trans h'.branches
  obtain rfl : last = last' := by simpa using h.last.symm.trans h'.last
  exact ⟨rfl, rfl, rfl, rfl, rfl⟩

/-- A state and a block log that a node was closed with: the log ends at the head of the state. -/
structure Persisted (s : ChainState H W S) (log : LoggedBlocks H P) : Prop where
  bounded : s.Bounded
  genesis : s.headBlockNumber = 0 → s.headBlockId = BlockId.zero
  length : log.blocks.length = s.headBlockNumber
  chained : log.blocks.IsChain fun b p => b.previous = p.id

/-- A database as `open` leaves it. -/
def Opened (db : Database H P W S) : Prop :=
  ∃ s log, Persisted s log ∧ openDatabase s log = .ok db

/-- The sessions of an opened database. -/
theorem Opened.stacked (h : Opened db) : Stacked db.store := by
  obtain ⟨s, log, hp, hopen⟩ := h
  have hstore : db.store = { current := s, revision := s.headBlockNumber } := by
    unfold openDatabase at hopen
    split at hopen
    · cases hopen
      rfl
    split at hopen
    · cases hopen
    · split at hopen
      · cases hopen
        rfl
      · cases hopen
  rw [hstore]
  refine ⟨rfl, by simp [Consecutive], ?_, ?_, ?_⟩
  · intro k t hk
    cases k with
    | zero =>
      obtain rfl : s = t := by simpa [states] using hk
      rfl
    | succ k => simp [states] at hk
  · intro t ht
    obtain rfl : t = s := by simpa [states] using ht
    exact hp.bounded
  · intro t ht
    obtain rfl : t = s := by simpa [states] using ht
    exact hp.bounded.mark

variable [DecidableEq W]

/-- A push after a switch was decided. -/
theorem Switches.pushBlock_eq {newHead last : ForkItem H P}
    {first second : List (ForkItem H P)} (h : Switches b db forkDb newHead first second last)
    (rules : Rules H P W S) :
    pushBlock rules b db = replaceBranch rules (newHead :: (first ++ second)) last.previousId
      second.reverse first.reverse { db with forkDb := forkDb } := by
  unfold pushBlock switchForks
  simp only [h.pushed, h.head, headBlockId_forkDb, headBlockNum_forkDb, ne_eq, h.fork,
    not_false_eq_true, h.higher, ↓reduceIte, h.branches, h.last]

/-- The ways a push can go. -/
theorem pushBlock_cases (rules : Rules H P W S) (b : SignedBlock H P) (db : Database H P W S) :
    (∃ e, db.forkDb.pushBlock b = .error e ∧ pushBlock rules b db = .error (.fork e) db) ∨
    ∃ forkDb newHead, db.forkDb.pushBlock b = .ok forkDb ∧ forkDb.head = some newHead ∧
      (newHead.previousId = db.headBlockId ∧
          pushBlock rules b db = extendHead rules newHead b { db with forkDb := forkDb } ∨
        newHead.previousId ≠ db.headBlockId ∧
          (newHead.num ≤ db.headBlockNum ∧
              pushBlock rules b db = .ok false { db with forkDb := forkDb } ∨
            db.headBlockNum < newHead.num ∧
              ((∃ e, forkDb.fetchBranchFrom newHead.id db.headBlockId = .error e ∧
                  pushBlock rules b db = .error (.fork e) { db with forkDb := forkDb }) ∨
                ∃ first second last, Switches b db forkDb newHead first second last))) := by
  cases hp : db.forkDb.pushBlock b with
  | error e => exact .inl ⟨e, rfl, by rw [pushBlock, hp]⟩
  | ok forkDb =>
    obtain ⟨newHead, hhead⟩ : ∃ newHead, forkDb.head = some newHead := by
      obtain ⟨link, -, rfl⟩ := ForkDatabase.pushBlock_eq_ok hp
      rcases db.forkDb.attach_head b link with ⟨h, -⟩ | ⟨head, -, -, h⟩
      · exact ⟨_, h⟩
      · exact ⟨head, h⟩
    refine .inr ⟨forkDb, newHead, rfl, hhead, ?_⟩
    by_cases hprev : newHead.previousId = db.headBlockId
    · refine .inl ⟨hprev, ?_⟩
      unfold pushBlock
      simp only [hp, hhead, headBlockId_forkDb, ne_eq, hprev, not_true_eq_false, ↓reduceIte]
    · refine .inr ⟨hprev, ?_⟩
      by_cases hnum : db.headBlockNum < newHead.num
      · refine .inr ⟨hnum, ?_⟩
        cases hb : forkDb.fetchBranchFrom newHead.id db.headBlockId with
        | error e =>
          refine .inl ⟨e, rfl, ?_⟩
          unfold pushBlock switchForks
          simp only [hp, hhead, headBlockId_forkDb, headBlockNum_forkDb, ne_eq, hprev,
            not_false_eq_true, hnum, ↓reduceIte, hb]
        | ok branches =>
          obtain ⟨first, second⟩ := branches
          obtain ⟨-, -, -, -, -, -, -, last, -, hlast, -⟩ := ForkDatabase.fetchBranchFrom_eq_ok hb
          exact .inr ⟨first, second, last, hp, hhead, hprev, hnum, hb, hlast⟩
      · refine .inl ⟨Nat.le_of_not_lt hnum, ?_⟩
        unfold pushBlock
        simp only [hp, hhead, headBlockId_forkDb, headBlockNum_forkDb, ne_eq, hprev,
          not_false_eq_true, hnum, ↓reduceIte]

/-- What every pop and every block applied in a session keep, and no change of the fork database
alone can break, a push keeps. -/
theorem pushBlock_invariant (inv : Database H P W S → Prop)
    (hfork : ∀ db forkDb, inv db → inv { db with forkDb := forkDb })
    (hpop : ∀ pinned db, inv db → inv (Exec.finalState (popBlock pinned db)))
    (happ : ∀ pinned b db, inv db → inv (Exec.finalState (applyInSession rules pinned b db)))
    (b : SignedBlock H P) (h : inv db) : inv (Exec.finalState (pushBlock rules b db)) := by
  have hitem : ∀ pinned item db, inv db → inv (Exec.finalState (applyItem rules pinned item db)) :=
    fun pinned item db h => happ pinned item.data _ (hfork db _ h)
  have hrecover : ∀ pinned point old failed e db, inv db →
      inv (Exec.finalState (recover rules pinned point old failed e db)) := by
    intro pinned point old failed e db h
    have hstep : inv (Exec.finalState (popUntil pinned point _ (removeItems failed db))) :=
      popUntil_invariant inv (hpop pinned) point (removeItems failed db).popFuel (hfork db _ h)
    unfold recover
    simp only
    cases hr : popUntil pinned point (removeItems failed db).popFuel (removeItems failed db) with
    | error e' db' => rw [hr] at hstep; exact hstep
    | ok _ db' =>
      rw [hr] at hstep
      have hold : inv (Exec.finalState (applyItems rules pinned old db')) :=
        applyItems_invariant (hitem pinned) old hstep
      simp only
      cases hr' : applyItems rules pinned old db' with
      | error e' db'' => rw [hr'] at hold; exact hold
      | ok _ db'' => rw [hr'] at hold; exact hold
  have hbranch : ∀ pinned point old items db, inv db →
      inv (Exec.finalState (applyBranch rules pinned point old items db)) := by
    intro pinned point old items
    induction items with
    | nil => exact fun db h => h
    | cons item items ih =>
      intro db h
      have hstep := hitem pinned item db h
      unfold applyBranch
      cases hr : applyItem rules pinned item db with
      | ok _ db' => rw [hr] at hstep; exact ih db' hstep
      | error e db' => rw [hr] at hstep; exact hrecover pinned point old _ e db' hstep
  rcases pushBlock_cases rules b db with ⟨e, -, heq⟩ | ⟨forkDb, newHead, -, -, hways⟩
  · rw [heq]
    exact h
  have hpushed := hfork db forkDb h
  rcases hways with ⟨-, heq⟩ | ⟨-, ⟨-, heq⟩ | ⟨-, ⟨e, -, heq⟩ | ⟨first, second, last, hs⟩⟩⟩
  · have hstep := happ [newHead] b _ hpushed
    rw [heq, extendHead]
    cases hr : applyInSession rules [newHead] b { db with forkDb := forkDb } with
    | ok _ db' => rw [hr] at hstep; exact hstep
    | error e db' => rw [hr] at hstep; exact hfork db' _ hstep
  · rw [heq]
    exact hpushed
  · rw [heq]
    exact hpushed
  · have hstep := popUntil_invariant inv (hpop (newHead :: (first ++ second))) last.previousId
      (popFuel { db with forkDb := forkDb }) hpushed
    rw [hs.pushBlock_eq, replaceBranch]
    cases hr : popUntil (newHead :: (first ++ second)) last.previousId
        (popFuel { db with forkDb := forkDb }) { db with forkDb := forkDb } with
    | error e db' => rw [hr] at hstep; exact hstep
    | ok _ db' => rw [hr] at hstep; exact hbranch _ _ _ _ db' hstep

/-- What every valid block keeps holds in all states of the store after a push if it did before. -/
theorem pushBlock_states {p : ChainState H W S → Prop}
    (hp : ∀ b s s', p s → rules.evaluate b s = some s' → p s') (b : SignedBlock H P)
    (h : ∀ s ∈ db.store.states, p s) :
    ∀ s ∈ (Exec.finalState (pushBlock rules b db)).store.states, p s := by
  refine pushBlock_invariant (fun db => ∀ s ∈ db.store.states, p s) (fun _ _ h => h) ?_ ?_ b h
  · intro pinned db h
    rcases popBlock_cases pinned db with ⟨block, forkDb, -, -, hok⟩ | ⟨e, herr⟩
    · rw [hok]
      exact fun s hs => h s (db.store.states_undo_subset hs)
    · rw [herr]
      exact h
  · intro pinned b db h
    rcases applyInSession_cases rules pinned b db with ⟨s, db', hok, happ⟩ | ⟨e, db', herr, hun, -⟩
    · rw [hok, Exec.finalState_ok, happ.store]
      intro t ht
      rcases mem_cons.mp (states_commit_subset _ _ ht) with rfl | ht
      · exact hp b _ _ (h _ mem_cons_self) happ.evaluate
      · exact h t ht
    · rw [herr, Exec.finalState_error, hun.store]
      exact h

/-- The database after a push, whether it returns or throws. -/
def afterPush (rules : Rules H P W S) (b : SignedBlock H P) (db : Database H P W S) :
    Database H P W S :=
  Exec.finalState (pushBlock rules b db)

/-- The databases that pushes lead to from an opened one, each push meeting a condition. -/
inductive Reached (rules : Rules H P W S)
    (condition : SignedBlock H P → Database H P W S → Prop) : Database H P W S → Prop
  | opened {db : Database H P W S} (h : Opened db) : Reached rules condition db
  | push {db : Database H P W S} (h : Reached rules condition db) (b : SignedBlock H P)
    (hb : condition b db) : Reached rules condition (afterPush rules b db)

/-- The database after pushes in order. -/
def pushAll (rules : Rules H P W S) (db : Database H P W S) (blocks : List (SignedBlock H P)) :
    Database H P W S :=
  blocks.foldl (fun db b => afterPush rules b db) db

/-- Pushes without a condition lead anywhere. -/
theorem Reached.pushAll (h : Reached rules (fun _ _ => True) db) (blocks : List (SignedBlock H P)) :
    Reached rules (fun _ _ => True) (pushAll rules db blocks) := by
  induction blocks generalizing db with
  | nil => exact h
  | cons b blocks ih => exact ih (.push h b trivial)

section LongChain

/-- Rules under which a payload below 1000 is valid and its last digit is the witness. -/
def plainRules (scheduled : List Nat) : Rules Nat Nat Nat Unit where
  before b _ := if b.payload < 1000 then some () else none
  after _ _ := some ()
  witness b := b.payload % 10
  scheduled _ := scheduled

/-- The blocks `n..1`, all with payload 0. -/
def plainBlocks : Nat → List (SignedBlock Nat Nat)
  | 0 => []
  | n + 1 => ⟨⟨n, 0⟩, 0⟩ :: plainBlocks n

theorem length_plainBlocks (n : Nat) : (plainBlocks n).length = n := by
  induction n with
  | zero => rfl
  | succ n ih => rw [plainBlocks, length_cons, ih]

theorem numbered_plainBlocks (n : Nat) : BlockLog.Numbered (plainBlocks n).reverse := by
  induction n with
  | zero => simp [plainBlocks, BlockLog.Numbered]
  | succ n ih =>
    rw [plainBlocks, reverse_cons]
    refine ih.append ?_
    rw [length_reverse, length_plainBlocks]
    rfl

/-- A node that was closed after block `n + 1`, all of whose blocks are irreversible. -/
def plainDatabase (n : Nat) : Database Nat Nat Nat Unit where
  store := {
    current := {
      headBlockNumber := n + 1
      headBlockId := ⟨n + 1, 0⟩
      lastIrreversibleBlockNum := n + 1
      lastConfirmed := fun _ => n + 1
      rest := () }
    revision := (n + 1 : Nat) }
  blockLog := ⟨plainBlocks (n + 1), numbered_plainBlocks (n + 1)⟩
  forkDb := ({} : ForkDatabase Nat Nat).startBlock ⟨⟨n, 0⟩, 0⟩

theorem opened_plainDatabase (n : Nat) : Opened (plainDatabase n) := by
  refine ⟨(plainDatabase n).store.current, (plainDatabase n).blockLog,
    ⟨⟨rfl, le_rfl, fun _ => le_rfl⟩,
    fun h => absurd h (Nat.succ_ne_zero n), length_plainBlocks (n + 1), ?_⟩, ?_⟩
  · have hchain : ∀ m, (plainBlocks m).IsChain fun b p => b.previous = p.id := by
      intro m
      induction m with
      | zero => exact IsChain.nil
      | succ m ih =>
        refine ih.cons ?_
        intro p hp
        cases m with
        | zero => cases hp
        | succ m =>
          obtain rfl : (⟨⟨m, 0⟩, 0⟩ : SignedBlock Nat Nat) = p := by simpa [plainBlocks] using hp
          rfl
    exact hchain (n + 1)
  · have hread : (plainDatabase n).blockLog.readBlockByNum (n + 1) = some ⟨⟨n, 0⟩, 0⟩ := by
      simp [LoggedBlocks.readBlockByNum, plainDatabase, plainBlocks, SignedBlock.blockNum]
    have hid : (⟨⟨n, 0⟩, 0⟩ : SignedBlock Nat Nat).id =
        (plainDatabase n).store.current.headBlockId := rfl
    have hne : ¬ (plainDatabase n).store.current.headBlockNumber = 0 := Nat.succ_ne_zero n
    unfold openDatabase
    rw [if_neg hne, show (plainDatabase n).store.current.headBlockNumber = n + 1 from rfl, hread]
    simp only
    rw [if_pos hid]
    rfl

end LongChain

end Freezone.Chain.Database
