import Freezone.Chain.Database.Consistency

/-!
# Irreversible blocks

No push takes an irreversible block off the chain if its switch, if any, is safe:
the store can return to the fork point, and it still can when a block of the new
branch fails. Both conditions can be missed. The window of the fork database
keeps the block below the last irreversible one, so that a fork from there is
switched to; undoing has no effect then and the pops go on. And a branch of which
a late block fails may have made its own first blocks irreversible.
-/

namespace Freezone.Chain.Database

open Protocol

variable {H P W S : Type} [DecidableEq H] [Inhabited H] [DecidableEq W] [HeaderHash H P]
variable {rules : Rules H P W S} {b : SignedBlock H P} {db : Database H P W S}

/-- If the push switches forks, the store can return to the fork point, and no valid block of the
new branch makes a block above it irreversible; or else every block of the new branch is valid
and linked, and so is the main chain. -/
def SafeSwitch (rules : Rules H P W S) (b : SignedBlock H P) (db : Database H P W S) : Prop :=
  ∀ forkDb newHead first second last, Switches b db forkDb newHead first second last →
    ∃ k ≤ db.store.saved.length,
      (Snapshots.undo^[k] db.store).current.headBlockId = last.previousId ∧
      ((∀ t ∈ rules.reached (Snapshots.undo^[k] db.store).current
            (first.reverse.map ForkItem.data),
          t.lastIrreversibleBlockNum ≤ (Snapshots.undo^[k] db.store).current.headBlockNumber) ∨
        (rules.reached (Snapshots.undo^[k] db.store).current
            (first.reverse.map ForkItem.data)).length = first.length ∧
          (∀ x ∈ first.getLast?, x.prev = last.prev) ∧ ∃ items, MainChain rules db items)

/-- A linked branch of valid blocks applies as a whole. -/
theorem SafeSwitch.recoverable (h : SafeSwitch rules b db) : Recoverable rules b db := by
  intro forkDb newHead first second last hs
  obtain ⟨k, hk, hpoint, hlow | ⟨hall, hbottom, items, hmain⟩⟩ :=
    h forkDb newHead first second last hs
  · exact ⟨k, hk, hpoint, Or.inr hlow⟩
  refine ⟨k, hk, hpoint, Or.inl ?_⟩
  obtain ⟨db0, hpop, hstore, hlog, hindex, hadv⟩ := hmain.rewound hs hk hpoint
  obtain ⟨hline, -⟩ := hmain.branch_lines hs hk hpoint hbottom
  obtain ⟨db', hok, -, -, -⟩ := hadv.applyItems first.reverse
    (by rw [List.reverse_reverse]; exact hline.of_index (by rw [hindex]; exact hline.indexed))
    (by rw [hstore, hall, List.length_reverse])
  -- the pops have changed nothing else that the branch depends on
  obtain ⟨-, -, head, -, hfork, -⟩ := popUntil_frame (newHead :: (first ++ second))
    last.previousId (popFuel { db with forkDb := forkDb }) { db with forkDb := forkDb }
  rw [hpop, Exec.finalState_ok] at hfork
  exact applyItems_congr db0 hstore.symm hlog.symm (by rw [hfork]; exact fun _ => rfl) hok

/-- Clean pushes are safe. -/
theorem CleanPush.safeSwitch {items : List (ForkItem H P)} (h : MainChain rules db items)
    (hb : CleanPush rules b db) : SafeSwitch rules b db := by
  intro forkDb newHead first second last hs
  obtain ⟨k, hk, hpoint, hall | hlow⟩ := hb.kept forkDb newHead first second last hs
  · refine ⟨k, hk, hpoint, Or.inr ⟨hall, ?_, items, h⟩⟩
    exact hb.bottom hs
  · exact ⟨k, hk, hpoint, Or.inl hlow⟩

/-- Every run of clean pushes is one of safe switches. -/
theorem Reached.safeSwitch (h : Reached rules (CleanPush rules) db) :
    Reached rules (SafeSwitch rules) db := by
  induction h with
  | opened h => exact .opened h
  | push h b hb ih =>
    obtain ⟨items, hmain⟩ := h.mainChain
    exact .push ih b (hb.safeSwitch hmain)

/-- In every run of pushes whose switches are safe, a push pops only blocks above the last
irreversible block, both that of its start and that of the moment of the pop, and never leaves
the head below it; and a fork that follows no block from the last irreversible one up is not
switched to and leaves the chain state unchanged. -/
theorem pushBlock_keeps_irreversible (rules : Rules H P W S) (db : Database H P W S)
    (hdb : Reached rules (SafeSwitch rules) db) (b : SignedBlock H P) (hb : SafeSwitch rules b db) :
    (∃ popped, (afterPush rules b db).popped = popped ++ db.popped ∧ ∀ e ∈ popped,
      db.store.current.lastIrreversibleBlockNum < e.block.blockNum ∧
        e.lastIrreversibleBlockNum < e.block.blockNum) ∧
    db.store.current.lastIrreversibleBlockNum ≤ (afterPush rules b db).headBlockNum ∧
    ∀ forkDb newHead, db.forkDb.pushBlock b = .ok forkDb → forkDb.head = some newHead →
      (∀ a x, a.id = newHead.id → forkDb.Retains a x →
        ∀ s ∈ db.store.states, x.previousId ≠ s.headBlockId) →
      (afterPush rules b db).store = db.store ∧ ∀ db', pushBlock rules b db ≠ .ok true db' := by
  have hst := hdb.stacked fun _ _ hb => hb.recoverable
  have hpush := aboveFloor_pushBlock hst hb.recoverable
  have hmark := hst.mark_le_floor (Stacked.current_mem db.store)
  obtain ⟨popped, hpopped, hall⟩ := hpush.pops
  refine ⟨⟨popped, hpopped, ?_⟩, ?_, ?_⟩
  · intro e he
    exact ⟨Nat.lt_of_le_of_lt hmark (hall e he).1, (hall e he).2⟩
  · have hle : floor (afterPush rules b db).store ≤ (afterPush rules b db).headBlockNum :=
      Nat.sub_le _ _
    exact hmark.trans (hpush.floor_le.trans hle)
  · intro forkDb newHead hp hhead hbelow
    rcases pushBlock_cases rules b db with ⟨e, hp', -⟩ | ⟨forkDb', newHead', hp', hhead', hcases⟩
    · rw [hp] at hp'
      cases hp'
    obtain ⟨rfl, rfl⟩ := pushed_unique hp hhead hp' hhead'
    rcases hcases with ⟨hprev, -⟩ | ⟨-, ⟨-, hr⟩ | ⟨-, ⟨e, -, hr⟩ | ⟨first, second, last, hs⟩⟩⟩
    · exact absurd hprev (hbelow newHead newHead rfl (Ancestry.Above.refl _) _
        (Stacked.current_mem _))
    · rw [afterPush, hr]
      exact ⟨rfl, by simp⟩
    · rw [afterPush, hr]
      exact ⟨rfl, by simp⟩
    -- the fork point would be the head of a state of the store
    exfalso
    obtain ⟨k, hk, hpoint, -⟩ := hb forkDb newHead first second last hs
    obtain ⟨a, -, ha, -, hbranch, -, x, y, hx, hy, hprev⟩ :=
      ForkDatabase.fetchBranchFrom_eq_ok hs.branches
    have hlast := hs.last
    rw [hy] at hlast
    obtain rfl : y = last := by simpa using hlast
    have hid : a.id = newHead.id := by simpa using List.find?_some ha
    exact hbelow a x hid (hbranch.above (List.mem_of_getLast? hx)) _
      (List.mem_of_getElem? (db.store.iterate_undo_current hk)) (hprev.trans hpoint.symm)

/-- The switch between the two tips. -/
theorem pushBlock_keeps_irreversible_twoTips :
    let rules := plainRules [1, 2]
    let b : SignedBlock Nat Nat := ⟨⟨864001, 21⟩, 31⟩
    (∃ popped, (afterPush rules b twoTips).popped = popped ++ twoTips.popped ∧ ∀ e ∈ popped,
      twoTips.store.current.lastIrreversibleBlockNum < e.block.blockNum ∧
        e.lastIrreversibleBlockNum < e.block.blockNum) ∧
    twoTips.store.current.lastIrreversibleBlockNum ≤ (afterPush rules b twoTips).headBlockNum ∧
    ∀ forkDb newHead, twoTips.forkDb.pushBlock b = .ok forkDb → forkDb.head = some newHead →
      (∀ a x, a.id = newHead.id → forkDb.Retains a x →
        ∀ s ∈ twoTips.store.states, x.previousId ≠ s.headBlockId) →
      (afterPush rules b twoTips).store = twoTips.store ∧
        ∀ db', pushBlock rules b twoTips ≠ .ok true db' :=
  pushBlock_keeps_irreversible (plainRules [1, 2]) twoTips reached_twoTips.safeSwitch
    ⟨⟨864001, 21⟩, 31⟩ (cleanPush_twoTips.safeSwitch reached_twoTips.mainChain.choose_spec)

/-- Blocks 864001 and 864002 of two witnesses, which make block 864001 irreversible, and a fork
from block 864000. -/
def lowFork : Database Nat Nat Nat Unit :=
  pushAll (plainRules [1, 2]) (plainDatabase 863999)
    [⟨⟨864000, 0⟩, 11⟩, ⟨⟨864001, 11⟩, 12⟩, ⟨⟨864000, 0⟩, 21⟩, ⟨⟨864001, 21⟩, 31⟩]

/-- The next block of that fork pops the irreversible block and throws with the head lowered. -/
theorem pushBlock_pops_irreversible_lowFork :
    Reached (plainRules [1, 2]) (fun _ _ => True) lowFork ∧
      lowFork.store.current.lastIrreversibleBlockNum = 864001 ∧ lowFork.headBlockNum = 864002 ∧
      (∃ db', pushBlock (plainRules [1, 2]) ⟨⟨864002, 31⟩, 41⟩ lowFork =
      .error (.fork .popLast) db' ∧
        db'.headBlockNum = 864001 ∧
        db'.popped.map (fun e => e.block.blockNum) = [864001, 864001, 864002]) :=
  ⟨Reached.pushAll (.opened (opened_plainDatabase 863999)) _, rfl, rfl, _, rfl, rfl, rfl⟩

end Freezone.Chain.Database
