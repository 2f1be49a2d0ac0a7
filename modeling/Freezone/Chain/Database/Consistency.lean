import Freezone.Chain.Database.ForkSwitch

/-!
# Runs of clean pushes

The fork database and the chain keep the same head as long as every push is
clean: a block on top of the head is valid, a higher branch is still linked to
the main one, and the store can return to the fork point of a switch until the
switch is over. Each of the three is needed. A block that extends the head and
is refused leaves the index of the fork database but stays its head; a branch
that is not linked to the main one has become the head before that is noticed;
and pops that pass the fork point end in an exception halfway.

Clean pushes also keep the block log in step: it is the lower part of the main
chain, up to the highest last irreversible block of any state on the way.
-/

namespace Freezone.Chain.Database

open Protocol List

variable {H P W S : Type} [DecidableEq H] [Inhabited H] [DecidableEq W] [HeaderHash H P]
variable {rules : Rules H P W S} {items first second : List (ForkItem H P)}
variable {newHead last : ForkItem H P} {forkDb : ForkDatabase H P} {b : SignedBlock H P}
variable {db : Database H P W S} {k : Nat}

/-- If the push switches forks, the store can return to the fork point, and either every block of
the new branch is valid or no valid block of it makes a block above the fork point irreversible. -/
def ForkPointKept (rules : Rules H P W S) (b : SignedBlock H P) (db : Database H P W S) : Prop :=
  ∀ forkDb newHead first second last, Switches b db forkDb newHead first second last →
    ∃ k ≤ db.store.saved.length,
      (Snapshots.undo^[k] db.store).current.headBlockId = last.previousId ∧
      ((rules.reached (Snapshots.undo^[k] db.store).current
          (first.reverse.map ForkItem.data)).length = first.length ∨
        ∀ t ∈ rules.reached (Snapshots.undo^[k] db.store).current
            (first.reverse.map ForkItem.data),
          t.lastIrreversibleBlockNum ≤ (Snapshots.undo^[k] db.store).current.headBlockNumber)

/-- A push that keeps the parts of the database in step. -/
structure CleanPush (rules : Rules H P W S) (b : SignedBlock H P) (db : Database H P W S) :
    Prop where
  /-- A block on top of the head is valid. -/
  valid : ∀ forkDb newHead, db.forkDb.pushBlock b = .ok forkDb → forkDb.head = some newHead →
    newHead.previousId = db.headBlockId → (rules.evaluate b db.store.current).isSome
  /-- The branch of a higher block and that of the head are linked to the same block. -/
  linked : ∀ forkDb newHead, db.forkDb.pushBlock b = .ok forkDb → forkDb.head = some newHead →
    newHead.previousId ≠ db.headBlockId → db.headBlockNum < newHead.num →
    ∃ first second, forkDb.fetchBranchFrom newHead.id db.headBlockId = .ok (first, second) ∧
      first.getLast?.map ForkItem.prev = second.getLast?.map ForkItem.prev
  kept : ForkPointKept rules b db

/-- The branches of a switch are linked to the same block. -/
theorem CleanPush.bottom (hb : CleanPush rules b db)
    (hs : Switches b db forkDb newHead first second last) :
    ∀ x ∈ first.getLast?, x.prev = last.prev := by
  obtain ⟨first', second', hok, hlast⟩ :=
    hb.linked forkDb newHead hs.pushed hs.head hs.fork hs.higher
  obtain ⟨rfl, rfl⟩ : first' = first ∧ second' = second := by
    simpa using hok.symm.trans hs.branches
  intro x hx
  rw [hx, hs.last] at hlast
  simpa using hlast

/-- The states that the valid blocks of a push lead to. -/
inductive LeadsTo (rules : Rules H P W S) (b : SignedBlock H P) (db : Database H P W S) :
    ChainState H W S → Prop
  | extending {forkDb : ForkDatabase H P} {newHead : ForkItem H P} {s : ChainState H W S}
    (hp : db.forkDb.pushBlock b = .ok forkDb) (hhead : forkDb.head = some newHead)
    (hprev : newHead.previousId = db.headBlockId)
    (heval : rules.evaluate b db.store.current = some s) : LeadsTo rules b db s
  | switching {forkDb : ForkDatabase H P} {newHead last : ForkItem H P}
    {first second : List (ForkItem H P)} {root t : ChainState H W S}
    (hs : Switches b db forkDb newHead first second last) (hroot : root ∈ db.store.states)
    (hpoint : root.headBlockId = last.previousId)
    (ht : t ∈ rules.reached root (first.reverse.map ForkItem.data)) : LeadsTo rules b db t

/-- A push that neither extends the head nor switches leads nowhere. -/
theorem not_leadsTo (hfork : ∀ forkDb newHead, db.forkDb.pushBlock b = .ok forkDb →
      forkDb.head = some newHead →
      newHead.previousId ≠ db.headBlockId ∧ newHead.num ≤ db.headBlockNum)
    (t : ChainState H W S) : LeadsTo rules b db t ↔ t ∈ ([] : List (ChainState H W S)) := by
  constructor
  · intro h
    cases h with
    | extending hp hhead hprev _ => exact absurd hprev (hfork _ _ hp hhead).1
    | switching hs _ _ _ => exact absurd hs.higher (Nat.not_lt.mpr (hfork _ _ hs.pushed hs.head).2)
  · intro h
    cases h

/-- The last irreversible block numbers of the states that a push leads to. -/
def marksOf (rules : Rules H P W S) (b : SignedBlock H P) (db : Database H P W S) : Set Nat :=
  {n | ∃ t, LeadsTo rules b db t ∧ t.lastIrreversibleBlockNum = n}

/-- The highest mark is the greatest of the states that a block leads to. -/
theorem isGreatest_marksOf {states : List (ChainState H W S)} {m n : Nat}
    (hstates : ∀ t, LeadsTo rules b db t ↔ t ∈ states) (hn : n = highestMark m states) :
    IsGreatest (insert m (marksOf rules b db)) n := by
  rw [hn]
  simp only [marksOf, hstates]
  exact isGreatest_highestMark m states

/-- What a clean push does to the main chain and to the log. -/
structure KeepsMainChain (rules : Rules H P W S) (b : SignedBlock H P)
    (db db' : Database H P W S) : Prop where
  mainChain : ∃ items, MainChain rules db' items
  log : db.blockLog.blocks <:+ db'.blockLog.blocks
  length_log : IsGreatest (insert db.blockLog.blocks.length (marksOf rules b db))
    db'.blockLog.blocks.length

namespace MainChain

/-- A switch whose fork point is kept. -/
theorem keeps_of_switches (h : MainChain rules db items)
    (hs : Switches b db forkDb newHead first second last)
    (hbottom : ∀ x ∈ first.getLast?, x.prev = last.prev) (hkept : ForkPointKept rules b db) :
    KeepsMainChain rules b db (afterPush rules b db) := by
  obtain ⟨k, hk, hpoint, hcases⟩ := hkept forkDb newHead first second last hs
  have hstate := (db.store.mem_states_iff _).mpr ⟨k, hk, rfl⟩
  have hleads : ∀ t, LeadsTo rules b db t ↔ t ∈ rules.reached
      (Snapshots.undo^[k] db.store).current (first.reverse.map ForkItem.data) := by
    refine fun t => ⟨fun ht => ?_, .switching hs hstate hpoint⟩
    cases ht with
    | @extending forkDb' newHead' _ hp hhead hprev _ =>
      obtain ⟨rfl, rfl⟩ := pushed_unique hs.pushed hs.head hp hhead
      exact absurd hprev hs.fork
    | @switching _ _ _ _ _ root _ hs' hroot hroot' ht =>
      obtain ⟨rfl, rfl, rfl, rfl, rfl⟩ := hs.unique hs'
      obtain rfl := h.history.stacked.eq_of_mem hroot hstate (hroot'.trans hpoint.symm)
      exact ht
  rcases reached_cases rules (Snapshots.undo^[k] db.store).current first.reverse with
    hall | ⟨done, x, todo, hsplit, hx, hreached⟩
  · rw [length_reverse] at hall
    obtain ⟨db', items', hok, hmain, hlog, hlength⟩ := h.switched hs hk hpoint hbottom hall
    rw [afterPush, hok]
    exact ⟨⟨items', hmain⟩, hlog, isGreatest_marksOf hleads hlength⟩
  · have hlow : ∀ t ∈ rules.reached (Snapshots.undo^[k] db.store).current
        (done.map ForkItem.data), t.lastIrreversibleBlockNum ≤
          (Snapshots.undo^[k] db.store).current.headBlockNumber := by
      rcases hcases with hall | hlow
      · -- a branch with an invalid block is not valid as a whole
        have hlen := congrArg length hsplit
        rw [length_reverse, length_append, length_cons] at hlen
        rw [hreached, hx.valid] at hall
        omega
      · rw [hreached] at hlow
        exact hlow
    obtain ⟨e, db', items', herr, hmain, -, -, -, hlog, hlength⟩ :=
      h.switch_failed hs hk hpoint hbottom hsplit hx hlow
    rw [← hreached] at hlength
    rw [afterPush, herr]
    exact ⟨⟨items', hmain⟩, hlog, isGreatest_marksOf hleads hlength⟩

/-- A clean push keeps the main chain. -/
theorem keeps (h : MainChain rules db items) (hb : CleanPush rules b db) :
    KeepsMainChain rules b db (afterPush rules b db) := by
  rcases pushBlock_cases rules b db with ⟨e, hp, hr⟩ | ⟨forkDb, newHead, hp, hhead, hcases⟩
  · rw [afterPush, hr]
    refine ⟨⟨items, h⟩, suffix_refl _, isGreatest_marksOf (not_leadsTo ?_) rfl⟩
    intro forkDb newHead hp'
    rw [hp] at hp'
    cases hp'
  · rcases hcases with ⟨hprev, hr⟩ | ⟨hprev, ⟨hnum, hr⟩ | ⟨hnum, hbranches⟩⟩
    · obtain ⟨s, heval⟩ := Option.isSome_iff_exists.mp (hb.valid forkDb newHead hp hhead hprev)
      obtain ⟨db', items', hok, hmain, hlog, hlength⟩ := h.extended hp hhead hprev heval
      rw [afterPush, hr, hok]
      have hleads : ∀ t, LeadsTo rules b db t ↔ t ∈ [s] := by
        refine fun t => ⟨fun ht => mem_singleton.mpr ?_, fun ht => ?_⟩
        · cases ht with
          | extending _ _ _ ht => simpa [heval] using ht.symm
          | @switching forkDb' newHead' _ _ _ _ _ hs _ _ _ =>
            obtain ⟨rfl, rfl⟩ := pushed_unique hp hhead hs.pushed hs.head
            exact absurd hprev hs.fork
        · rw [mem_singleton.mp ht]
          exact .extending hp hhead hprev heval
      exact ⟨⟨items', hmain⟩, hlog, isGreatest_marksOf hleads hlength⟩
    · rw [afterPush, hr]
      refine ⟨⟨items, h.stored hp hhead hnum⟩, suffix_refl _,
        isGreatest_marksOf (not_leadsTo ?_) rfl⟩
      intro forkDb' newHead' hp' hhead'
      obtain ⟨rfl, rfl⟩ := pushed_unique hp hhead hp' hhead'
      exact ⟨hprev, hnum⟩
    · rcases hbranches with ⟨e, herr, -⟩ | ⟨first, second, last, hs⟩
      · obtain ⟨first', second', hok, -⟩ := hb.linked forkDb newHead hp hhead hprev hnum
        rw [hok] at herr
        cases herr
      · exact h.keeps_of_switches hs (hb.bottom hs) hb.kept

end MainChain

/-- Every run of clean pushes keeps the main chain. -/
theorem Reached.mainChain (h : Reached rules (CleanPush rules) db) :
    ∃ items, MainChain rules db items := by
  induction h with
  | opened h => exact ⟨[], h.mainChain⟩
  | push _ b hb ih =>
    obtain ⟨items, hmain⟩ := ih
    exact (hmain.keeps hb).mainChain

/-- A valid block on top of the head is a clean push. -/
theorem CleanPush.of_extends (hp : db.forkDb.pushBlock b = .ok forkDb)
    (hhead : forkDb.head = some newHead) (hprev : newHead.previousId = db.headBlockId)
    (hvalid : (rules.evaluate b db.store.current).isSome) : CleanPush rules b db := by
  refine ⟨fun _ _ _ _ _ => hvalid, ?_, ?_⟩
  · intro forkDb' newHead' hp' hhead' hne
    obtain ⟨rfl, rfl⟩ := pushed_unique hp hhead hp' hhead'
    exact absurd hprev hne
  · intro forkDb' newHead' first second last hs
    obtain ⟨rfl, rfl⟩ := pushed_unique hp hhead hs.pushed hs.head
    exact absurd hprev hs.fork

/-- A block that is not above the head is a clean push. -/
theorem CleanPush.of_stored (hp : db.forkDb.pushBlock b = .ok forkDb)
    (hhead : forkDb.head = some newHead) (hprev : newHead.previousId ≠ db.headBlockId)
    (hnum : newHead.num ≤ db.headBlockNum) : CleanPush rules b db := by
  refine ⟨?_, ?_, ?_⟩
  · intro forkDb' newHead' hp' hhead' hprev'
    obtain ⟨rfl, rfl⟩ := pushed_unique hp hhead hp' hhead'
    exact absurd hprev' hprev
  · intro forkDb' newHead' hp' hhead' _ hlt
    obtain ⟨rfl, rfl⟩ := pushed_unique hp hhead hp' hhead'
    exact absurd hlt (Nat.not_lt.mpr hnum)
  · intro forkDb' newHead' first second last hs
    obtain ⟨rfl, rfl⟩ := pushed_unique hp hhead hs.pushed hs.head
    exact absurd hs.higher (Nat.not_lt.mpr hnum)

section TwoTips

/-- Block 864001 of witness 1 on the long chain, and another one. -/
def twoTips : Database Nat Nat Nat Unit :=
  pushAll (plainRules [1, 2]) (plainDatabase 863999) [⟨⟨864000, 0⟩, 11⟩, ⟨⟨864000, 0⟩, 21⟩]

/-- The switch from the first to the second of two tips. -/
theorem switches_twoTips : Switches ⟨⟨864001, 21⟩, 31⟩ twoTips
    (((twoTips.forkDb.pushBlock ⟨⟨864001, 21⟩, 31⟩).toOption).getD {})
    ⟨3, ⟨⟨864001, 21⟩, 31⟩, some 2, false⟩
    [⟨3, ⟨⟨864001, 21⟩, 31⟩, some 2, false⟩, ⟨2, ⟨⟨864000, 0⟩, 21⟩, some 0, false⟩]
    [⟨1, ⟨⟨864000, 0⟩, 11⟩, some 0, false⟩] ⟨1, ⟨⟨864000, 0⟩, 11⟩, some 0, false⟩ :=
  ⟨rfl, rfl, by decide, by decide, rfl, rfl⟩

/-- The fork point of the two tips is kept. -/
theorem cleanPush_twoTips : CleanPush (plainRules [1, 2]) ⟨⟨864001, 21⟩, 31⟩ twoTips := by
  have hs := switches_twoTips
  refine ⟨fun forkDb newHead hp hhead hprev => ?_, fun forkDb newHead hp hhead _ _ => ?_,
    fun forkDb newHead first second last hs' => ?_⟩
  · obtain ⟨rfl, rfl⟩ := pushed_unique hs.pushed hs.head hp hhead
    exact absurd hprev hs.fork
  · obtain ⟨rfl, rfl⟩ := pushed_unique hs.pushed hs.head hp hhead
    exact ⟨_, _, hs.branches, rfl⟩
  · obtain ⟨rfl, rfl, rfl, rfl, rfl⟩ := hs.unique hs'
    exact ⟨1, le_rfl, rfl, Or.inl rfl⟩

theorem reached_twoTips : Reached (plainRules [1, 2]) (CleanPush (plainRules [1, 2])) twoTips := by
  refine .push (.push (.opened (opened_plainDatabase 863999)) ⟨⟨864000, 0⟩, 11⟩ ?_)
    ⟨⟨864000, 0⟩, 21⟩ ?_
  · exact .of_extends rfl rfl rfl rfl
  · exact .of_stored rfl rfl (by decide) le_rfl

end TwoTips

/-- In every run of clean pushes, after each of them the head of the fork database is the head
block of the chain. -/
theorem headsAgree_of_clean_pushes (rules : Rules H P W S) (db : Database H P W S)
    (h : Reached rules (CleanPush rules) db) : HeadsAgree db := by
  obtain ⟨items, hmain⟩ := h.mainChain
  exact hmain.heads

/-- The heads after the switch between the two tips. -/
theorem headsAgree_after_switch_twoTips :
    HeadsAgree (afterPush (plainRules [1, 2]) ⟨⟨864001, 21⟩, 31⟩ twoTips) :=
  headsAgree_of_clean_pushes (plainRules [1, 2]) _ (.push reached_twoTips _ cleanPush_twoTips)

/-- An invalid block on top of the head is thrown out, but stays the head of the fork database. -/
theorem heads_differ_after_invalid_block : Opened (plainDatabase 0) ∧
      (∃ db', pushBlock (plainRules [1]) ⟨⟨1, 0⟩, 1000⟩ (plainDatabase 0) =
      .error .invalidBlock db') ∧
      ¬ HeadsAgree (afterPush (plainRules [1]) ⟨⟨1, 0⟩, 1000⟩ (plainDatabase 0)) := by
  refine ⟨opened_plainDatabase 0, ⟨_, rfl⟩, ?_⟩
  rintro (⟨hnone, -⟩ | ⟨head, hsome, hid⟩)
  · cases hnone
  · cases hsome
    exact absurd hid (by decide)

/-- After every clean push of a run, the log is the lower part of the main chain. It was only
extended, and ends at the highest last irreversible block of the states that the push led to, if
that is above the end it had. -/
theorem blockLog_of_clean_pushes (rules : Rules H P W S) (db : Database H P W S)
    (h : Reached rules (CleanPush rules) db) (b : SignedBlock H P) (hb : CleanPush rules b db) :
    (∃ chain : List (SignedBlock H P), (chain.IsChain fun b p => b.previous = p.id) ∧
      chain.length = (afterPush rules b db).headBlockNum ∧
      (∀ head ∈ chain.head?, head.id = (afterPush rules b db).headBlockId) ∧
      (afterPush rules b db).blockLog.blocks <:+ chain) ∧
    db.blockLog.blocks <:+ (afterPush rules b db).blockLog.blocks ∧
    IsGreatest (insert db.blockLog.blocks.length (marksOf rules b db))
      (afterPush rules b db).blockLog.blocks.length ∧
    (afterPush rules b db).store.current.lastIrreversibleBlockNum ≤
      (afterPush rules b db).blockLog.blocks.length := by
  obtain ⟨items, hmain⟩ := h.mainChain
  obtain ⟨⟨items', hmain'⟩, hlog, hlength⟩ := hmain.keeps hb
  have hist := hmain'.history
  refine ⟨⟨_, hist.chained, ?_, hist.tip, suffix_append _ _⟩, hlog, hlength, ?_⟩
  · rw [length_append, length_map, hist.length_items, Nat.add_comm]
    exact hist.logged
  · rw [← hist.floor_eq]
    exact hist.stacked.mark_le_floor (Stacked.current_mem _)

/-- The log after the switch between the two tips. -/
theorem blockLog_after_switch_twoTips :
    let db' := afterPush (plainRules [1, 2]) ⟨⟨864001, 21⟩, 31⟩ twoTips
    (∃ chain : List (SignedBlock Nat Nat), (chain.IsChain fun b p => b.previous = p.id) ∧
      chain.length = db'.headBlockNum ∧ (∀ head ∈ chain.head?, head.id = db'.headBlockId) ∧
      db'.blockLog.blocks <:+ chain) ∧
    twoTips.blockLog.blocks <:+ db'.blockLog.blocks ∧
    IsGreatest (insert twoTips.blockLog.blocks.length
      (marksOf (plainRules [1, 2]) ⟨⟨864001, 21⟩, 31⟩ twoTips)) db'.blockLog.blocks.length ∧
    db'.store.current.lastIrreversibleBlockNum ≤ db'.blockLog.blocks.length :=
  blockLog_of_clean_pushes (plainRules [1, 2]) twoTips reached_twoTips _ cleanPush_twoTips

/-- Three blocks of three of four witnesses make block 864001 irreversible; then a longer fork
from block 864001 by two witnesses. -/
def loweredMark : Database Nat Nat Nat Unit :=
  pushAll (plainRules [1, 2, 3, 4]) (plainDatabase 863999)
    [⟨⟨864000, 0⟩, 11⟩, ⟨⟨864001, 11⟩, 12⟩, ⟨⟨864002, 12⟩, 13⟩,
      ⟨⟨864001, 11⟩, 21⟩, ⟨⟨864002, 21⟩, 31⟩, ⟨⟨864003, 31⟩, 41⟩]

/-- After the switch the last irreversible block is below the end of the log. -/
theorem blockLog_above_mark_loweredMark :
    Reached (plainRules [1, 2, 3, 4]) (fun _ _ => True) loweredMark ∧
      loweredMark.headBlockId = ⟨864004, 41⟩ ∧
      loweredMark.store.current.lastIrreversibleBlockNum = 864000 ∧
      loweredMark.blockLog.blocks.length = 864001 := by
  refine ⟨Reached.pushAll (.opened (opened_plainDatabase 863999)) _, rfl, rfl, ?_⟩
  rw [← LoggedBlocks.headNum_eq]
  rfl

end Freezone.Chain.Database
