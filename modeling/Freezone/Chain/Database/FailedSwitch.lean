import Freezone.Chain.Database.Consistency

/-!
# Switches that fail

When a block of the new branch is invalid, the push has to throw with the chain
as it was and the rest of the branch forgotten. It does so exactly if the state
of the fork point is kept until the block fails: the store has it at the start,
and no valid block before the invalid one makes a block above it irreversible.
Otherwise the pops never meet the fork point.
-/

namespace Freezone.Chain.Database

open Protocol List ForkDatabase

variable {H P W S : Type} [DecidableEq H] [Inhabited H] [DecidableEq W] [HeaderHash H P]
variable {rules : Rules H P W S} {items first second done todo failed : List (ForkItem H P)}
variable {x newHead last : ForkItem H P} {forkDb : ForkDatabase H P} {b : SignedBlock H P}
variable {db : Database H P W S} {k : Nat}

/-- The push throws with the chain state and the head of the fork database as before, and the fork
database no longer has the failed blocks. -/
def ThrowsUnchanged (rules : Rules H P W S) (b : SignedBlock H P) (db : Database H P W S)
    (failed : List (ForkItem H P)) : Prop :=
  ∃ e db', pushBlock rules b db = .error e db' ∧ db'.store.current = db.store.current ∧
    db'.forkDb.head = db.forkDb.head ∧ ∀ x ∈ failed, db'.forkDb.fetchBlock x.id = none

/-- The first invalid block of a branch on the state of its fork point, and the blocks after it. -/
def failedItems (rules : Rules H P W S) (root : ChainState H W S) (branch : List (ForkItem H P)) :
    List (ForkItem H P) :=
  branch.drop (rules.reached root (branch.map ForkItem.data)).length

/-- If the store cannot return to the fork point, the fork database keeps the new head. -/
theorem not_throwsUnchanged_of_not_kept (hs : Switches b db forkDb newHead first second last)
    (hmem : newHead ∈ forkDb.index) (hfailed : newHead ∈ failed)
    (hnone : ∀ s ∈ db.store.states, s.headBlockId ≠ last.previousId) :
    ¬ ThrowsUnchanged rules b db failed := by
  rintro ⟨e, db', herr, -, -, hfetch⟩
  obtain ⟨e', db'', hpop, -, hindex⟩ :=
    @popUntil_eq_error _ _ _ _ _ { db with forkDb := forkDb } _ _ hnone
      (newHead :: (first ++ second)) (popFuel { db with forkDb := forkDb })
  rw [hs.pushBlock_eq, replaceBranch, hpop] at herr
  injection herr with _ hdb
  subst hdb
  have hgone := hfetch newHead hfailed
  rw [fetchBlock, Option.or_eq_none_iff, find, find?_eq_none] at hgone
  rw [hindex] at hgone
  exact hgone.1 newHead hmem (beq_self_eq_true newHead.id)

namespace MainChain

variable (h : MainChain rules db items) (hs : Switches b db forkDb newHead first second last)
  (hk : k ≤ db.store.saved.length)
  (hpoint : (Snapshots.undo^[k] db.store).current.headBlockId = last.previousId)
  (hbottom : ∀ x ∈ first.getLast?, x.prev = last.prev) (hsplit : first.reverse = done ++ x :: todo)
  (hx : FailsAt rules (Snapshots.undo^[k] db.store).current done x)

include h hs hk hpoint hbottom hsplit hx

/-- If a valid block has made a block above the fork point irreversible when a later one fails,
the chain is left on the new branch. -/
theorem not_throwsUnchanged_of_raised {t : ChainState H W S}
    (ht : t ∈ rules.reached (Snapshots.undo^[k] db.store).current (done.map ForkItem.data))
    (hraised : (Snapshots.undo^[k] db.store).current.headBlockNumber < t.lastIrreversibleBlockNum) :
    ¬ ThrowsUnchanged rules b db failed := by
  rintro ⟨e', db', herr, hcur, -, -⟩
  obtain ⟨db0, hpop, hstore, -, hindex, hadv⟩ := h.rewound hs hk hpoint
  obtain ⟨hline, -⟩ := h.branch_lines hs hk hpoint hbottom
  have hdone : db0.forkDb.Line (done.reverse ++ items.drop k) := by
    have hfirst : first = (x :: todo).reverse ++ done.reverse := by
      rw [← reverse_append, ← hsplit, reverse_reverse]
    have hline0 : db0.forkDb.Line (first ++ items.drop k) :=
      hline.of_index (by rw [hindex]; exact hline.indexed)
    have hdrop := hline0.drop (x :: todo).reverse.length
    rwa [hfirst, append_assoc, drop_left] at hdrop
  rw [← hstore] at hx ht hraised hpoint
  obtain ⟨e, db1, db2, hbranch, hadv1, -, had1, hun2, -⟩ :=
    hadv.stops_at last.previousId second.reverse hdone hx
  obtain ⟨hstore3, -⟩ := removeItems_frame (x :: todo) db2
  rw [hun2.store] at hstore3
  simp only at hstore3
  -- the floor has risen above the fork point
  have habove : ∀ s ∈ db1.store.states,
      db0.store.current.headBlockNumber < s.headBlockNumber := by
    intro s hmem
    have hle := (hadv1.history.stacked.floor_le hmem).1
    rw [hadv1.history.floor_eq, had1.length_log] at hle
    have hmark := (le_highestMark db0.blockLog.blocks.length _).2 t ht
    omega
  have hroot := hadv.history.stacked.bounded _ (Stacked.current_mem db0.store)
  obtain ⟨e4, db4, hpop4, hmem4, -⟩ : ∃ e db', popUntil (newHead :: (first ++ second))
      last.previousId (removeItems (x :: todo) db2).popFuel (removeItems (x :: todo) db2) =
        .error e db' ∧ db'.store.current ∈ (removeItems (x :: todo) db2).store.states ∧ _ := by
    refine popUntil_eq_error ?_ _ _
    intro s hmem hid
    rw [hstore3] at hmem
    have hlt := habove s hmem
    have hnum := (hadv1.history.stacked.bounded s hmem).head
    rw [hid, ← hpoint, hroot.head] at hnum
    omega
  rw [hstore3] at hmem4
  rw [hs.pushBlock_eq, replaceBranch, hpop] at herr
  simp only at herr
  rw [hsplit, hbranch, recover] at herr
  simp only [hpop4] at herr
  injection herr with _ hdb
  subst hdb
  -- what is left is the state of a block of the new branch
  rcases had1.state_mem _ hmem4 with hreached | hold
  · obtain ⟨c, hc, hid⟩ := Rules.mem_reached hreached
    obtain ⟨a, ha, rfl⟩ := mem_map.mp hc
    have hafirst : a ∈ first := by
      rw [← mem_reverse, hsplit]
      exact mem_append_left _ ha
    obtain ⟨-, y, -, hy, -, hsecond, -⟩ := fetchBranchFrom_eq_ok hs.branches
    have hyid : y.id = db.headBlockId := by simpa using find?_some hy
    refine h.disjoint hs a hafirst y ?_ ?_
    · exact mem_of_mem_head? hsecond.head
    · rw [hyid, headBlockId, ← hcur, hid]
      rfl
  · have hle := (hadv.history.stacked.floor_le hold).2
    have hlt := habove _ hmem4
    omega

end MainChain

/-- An invalid block on the second of two tips. -/
def invalidTip : ForkItem Nat Nat := ⟨3, ⟨⟨864001, 21⟩, 1000⟩, some 2, false⟩

/-- The switch from the first of two tips to the invalid block on the second. -/
theorem switches_invalidTip : Switches invalidTip.data twoTips
    (((twoTips.forkDb.pushBlock invalidTip.data).toOption).getD {}) invalidTip
    [invalidTip, ⟨2, ⟨⟨864000, 0⟩, 21⟩, some 0, false⟩]
    [⟨1, ⟨⟨864000, 0⟩, 11⟩, some 0, false⟩] ⟨1, ⟨⟨864000, 0⟩, 11⟩, some 0, false⟩ :=
  ⟨rfl, rfl, by decide, by decide, rfl, rfl⟩

/-- Two blocks of witness 1 on the long chain, and a fork of two blocks of both witnesses. -/
def lateFailure : Database Nat Nat Nat Unit :=
  pushAll (plainRules [1, 2]) (plainDatabase 863999)
    [⟨⟨864000, 0⟩, 11⟩, ⟨⟨864001, 11⟩, 21⟩, ⟨⟨864000, 0⟩, 31⟩, ⟨⟨864001, 31⟩, 12⟩]

end Freezone.Chain.Database
