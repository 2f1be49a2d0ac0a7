import Freezone.Chain.Database.MainChain

/-!
# Switching between branches of the main chain

When the fork point is within reach of the store, the old branch is exactly the
blocks of the newest sessions and the new branch is one block longer. The pops
then end at the fork point, and the new branch is a line on top of the blocks
that are left.
-/

namespace Freezone.Chain.Database.MainChain

open Protocol Ancestry List ForkDatabase

variable {H P W S : Type} [DecidableEq H] [DecidableEq W] [HeaderHash H P]
variable {rules : Rules H P W S} {items first second : List (ForkItem H P)}
variable {newHead last : ForkItem H P} {forkDb : ForkDatabase H P} {b : SignedBlock H P}
variable {db db' : Database H P W S} {k : Nat}

variable (h : MainChain rules db items)

include h

/-- The number of the last block of the old branch. -/
theorem last_num (hk : k ≤ db.store.saved.length)
    (hpoint : (Snapshots.undo^[k] db.store).current.headBlockId = last.previousId) :
    last.num + k = db.headBlockNum + 1 := by
  have hstate := db.store.iterate_undo_current hk
  have hheight := h.history.stacked.height k _ hstate
  have hbound := h.history.stacked.bounded _ (mem_of_getElem? hstate)
  have hprev : last.num = last.previousId.num + 1 := rfl
  rw [hprev, ← hpoint, hbound.head]
  unfold headBlockNum
  omega

variable [Inhabited H] (hs : Switches b db forkDb newHead first second last)

include hs

/-- The old branch starts at an indexed block of the main chain. -/
theorem find_head :
    ∃ a, a ∈ db.forkDb.index ∧ forkDb.find db.headBlockId = some a ∧ a.id = db.headBlockId := by
  obtain ⟨-, a, -, ha, -⟩ := fetchBranchFrom_eq_ok hs.branches
  obtain ⟨link, -, -, -, -, hnew⟩ := h.raised hs.pushed hs.head hs.higher
  have hid : a.id = db.headBlockId := by simpa using find?_some ha
  refine ⟨a, ?_, ha, hid⟩
  rcases hnew a (mem_of_find?_eq_some ha) with ha | rfl
  · exact ha
  have hnum := congrArg BlockId.num hid
  have hhead := h.bounded.head
  have hlt := hs.higher
  rw [ForkItem.id_num] at hnum
  unfold headBlockId headBlockNum at *
  omega

/-- A switch is due to a block one above the head. -/
theorem switch_num : newHead.num = db.headBlockNum + 1 := by
  obtain ⟨a, ha, -, -⟩ := h.find_head hs
  obtain ⟨link, hlink, hitem, -, -, -⟩ := h.raised hs.pushed hs.head hs.higher
  have hb : newHead.num = b.blockNum := by rw [hitem]; rfl
  have hlt := hs.higher
  obtain ⟨head, hhead⟩ : ∃ head, db.forkDb.head = some head :=
    Option.isSome_iff_exists.mp (h.coherent.head_of_index (ne_nil_of_mem ha))
  cases link with
  | none =>
    -- without a link and with a head, the block is a first block
    have hzero : b.previous = BlockId.zero := by
      unfold ForkDatabase.linkOf at hlink
      rw [hhead] at hlink
      simp only at hlink
      split at hlink
      · cases hlink
      split at hlink
      · assumption
      split at hlink
      · cases hlink
      · split at hlink <;> cases hlink
    have hone : b.blockNum = 1 := by rw [SignedBlock.blockNum, hzero]; rfl
    omega
  | some p =>
    obtain ⟨q, hq, -, -, hnum⟩ := h.coherent.linkOf_eq_ok hlink p rfl
    have hle := h.top q hq
    omega

/-- The items of the fork database after the push that leads to a switch. -/
theorem coherent_pushed : forkDb.Coherent ∧ forkDb.Line items ∧ newHead ∈ forkDb.index ∧
      ∀ a ∈ forkDb.index, a ∈ db.forkDb.index ∨ a = newHead := by
  obtain ⟨link, -, -, hmem, hsub, hnew⟩ := h.raised hs.pushed hs.head hs.higher
  exact ⟨h.coherent.pushBlock hs.pushed,
    h.line.of_index fun a ha => hsub a (h.line.indexed a ha), hmem, hnew⟩

/-- The new branch is a line that starts at the new head and is one block longer. -/
theorem first_line : IsBranch (forkDb.parent []) newHead first ∧ forkDb.Line first := by
  obtain ⟨hcoh, -, hmem, -⟩ := h.coherent_pushed hs
  obtain ⟨a, -, ha, -, hbranch, -⟩ := fetchBranchFrom_eq_ok hs.branches
  obtain rfl : newHead = a := by
    have hfind : forkDb.find newHead.id = some newHead :=
      (find_eq_some_iff_mem hcoh.ids).mpr ⟨hmem, rfl⟩
    simpa using hfind.symm.trans ha
  refine ⟨hbranch, line_of_isBranch ?_ hmem hbranch⟩
  intro i hi
  rw [hs.head] at hi
  obtain rfl : newHead = i := by simpa using hi
  exact hmem

/-- No block is on both branches. -/
theorem disjoint : ∀ x ∈ first, ∀ y ∈ second, x.id ≠ y.id := by
  obtain ⟨hcoh, -, hmem, -⟩ := h.coherent_pushed hs
  obtain ⟨a, -, hfind, hid⟩ := h.find_head hs
  have hnum := h.switch_num hs
  have ha := mem_of_find?_eq_some hfind
  have hanum : a.num = db.headBlockNum := (congrArg BlockId.num hid).trans h.bounded.head
  have hnc := hcoh.index_created newHead hmem
  have hac := hcoh.index_created a ha
  have hab : ∀ x, forkDb.Retains newHead x → x.id ≠ a.id := by
    intro x hx heq
    have hxnum := num_eq_of_id heq
    rcases hx.cases_parent with rfl | ⟨p, hp, hpx⟩
    · omega
    · -- at the height of the old head the new branch has the previous block of its head
      obtain ⟨hpc, hpid, hpnum⟩ := hcoh.parent_eq_some (by simp) hnc hp
      obtain rfl := hcoh.retained.eq_self_of_level_eq hpc hpx (by omega)
      exact hs.fork (hpid.symm.trans (heq.trans hid))
  have hba : ∀ y, forkDb.Retains a y → y.id ≠ newHead.id := by
    intro y hy heq
    have hle := hcoh.retained.level_le hac hy
    have hynum := num_eq_of_id heq
    omega
  rcases hcoh.fetchBranchFrom_cases hmem ha hab hba with ⟨first', second', hok, hfork⟩ | ⟨herr, -⟩
  · rw [hid, hs.branches] at hok
    obtain ⟨rfl, rfl⟩ : first = first' ∧ second = second' := by simpa using hok
    exact hfork.disjoint
  · rw [hid, hs.branches] at herr
    cases herr

variable (hk : k ≤ db.store.saved.length)
  (hpoint : (Snapshots.undo^[k] db.store).current.headBlockId = last.previousId)

include hk hpoint

/-- The old branch consists of the blocks above the fork point. -/
theorem second_eq : 0 < k ∧ second = items.take k := by
  obtain ⟨hcoh, hline, -, -⟩ := h.coherent_pushed hs
  obtain ⟨a, -, hfind, hid⟩ := h.find_head hs
  obtain ⟨-, a', -, ha', -, hbranch, -⟩ := fetchBranchFrom_eq_ok hs.branches
  obtain rfl : a = a' := by simpa using hfind.symm.trans ha'
  have hac := hcoh.index_created a (mem_of_find?_eq_some hfind)
  have hnum : a.num = db.headBlockNum := (congrArg BlockId.num hid).trans h.bounded.head
  have hlast := h.last_num hk hpoint
  obtain ⟨n, hn, hlen⟩ : ∃ n, second[n]? = some last ∧ second.length = n + 1 := by
    refine ⟨second.length - 1, ?_, ?_⟩
    · rw [← getLast?_eq_getElem?]
      exact hs.last
    have hpos : second ≠ [] := by
      intro hnil
      have hl := hs.last
      rw [hnil] at hl
      cases hl
    have := length_pos_iff.mpr hpos
    omega
  have hlevel := hcoh.retained.level_add hac hbranch hn
  have hlength : second.length = k := by omega
  have hitems := h.history.length_items
  refine ⟨by omega, ?_⟩
  obtain ⟨c, rest, rfl⟩ : ∃ c rest, items = c :: rest := by
    cases items with
    | nil =>
      rw [length_nil] at hitems
      omega
    | cons c rest => exact ⟨c, rest, rfl⟩
  obtain rfl : a = c := by
    have hcid : c.id = db.headBlockId := h.history.tip c.data (by simp)
    have hcfind : forkDb.find db.headBlockId = some c :=
      (find_eq_some_iff_mem hcoh.ids).mpr ⟨hline.indexed c mem_cons_self, hcid⟩
    simpa using hfind.symm.trans hcfind
  have htake := hbranch.eq_take (hline.isBranch hcoh (by simp)) (by omega)
  rw [hlength] at htake
  exact htake

/-- The new branch is one block longer than the old one. -/
theorem length_first : first.length = k + 1 := by
  obtain ⟨hcoh, -, hmem, -⟩ := h.coherent_pushed hs
  obtain ⟨hbranch, -⟩ := h.first_line hs
  obtain ⟨-, -, -, -, -, -, x, y, hx, hy, hprev⟩ := fetchBranchFrom_eq_ok hs.branches
  obtain rfl : y = last := by simpa using hy.symm.trans hs.last
  have hxnum := num_eq_of_previousId hprev
  have hlast := h.last_num hk hpoint
  have hnum := h.switch_num hs
  rw [getLast?_eq_getElem?] at hx
  have hlevel := hcoh.retained.level_add (hcoh.index_created newHead hmem) hbranch hx
  have hpos := (List.getElem?_eq_some_iff.mp hx).1
  omega

/-- The pops end at the fork point. -/
theorem rewound : ∃ db0, popUntil (newHead :: (first ++ second)) last.previousId
        (popFuel { db with forkDb := forkDb }) { db with forkDb := forkDb } = .ok () db0 ∧
      db0.store = Snapshots.undo^[k] db.store ∧ db0.blockLog = db.blockLog ∧
      db0.forkDb.index = forkDb.index ∧
      Advancing rules (newHead :: (first ++ second)) db0 (items.drop k) := by
  obtain ⟨hcoh, hline, hmem, -⟩ := h.coherent_pushed hs
  obtain ⟨hbranch, hfirst⟩ := h.first_line hs
  obtain ⟨-, hsecond⟩ := h.second_eq hs hk hpoint
  have hlength := h.length_first hs hk hpoint
  have hitems := h.history.length_items
  have hlast := h.last_num hk hpoint
  have hnum := h.switch_num hs
  have hpin : ∀ i ∈ newHead :: (first ++ second), i ∈ forkDb.created := by
    intro i hi
    apply hcoh.index_created
    rcases mem_cons.mp hi with rfl | hi
    · exact hmem
    · rcases mem_append.mp hi with hi | hi
      · exact hfirst.indexed i hi
      · rw [hsecond] at hi
        exact hline.indexed i (mem_of_mem_take hi)
  obtain ⟨x, hx⟩ : ∃ x, first[k]? = some x := ⟨_, List.getElem?_eq_getElem (by omega)⟩
  have hxmem := hfirst.indexed x (mem_of_getElem? hx)
  obtain ⟨db0, hok, hstore, hfork, hlog⟩ : ∃ db0, popUntil (newHead :: (first ++ second))
      last.previousId (popFuel { db with forkDb := forkDb }) { db with forkDb := forkDb } =
        .ok () db0 ∧ db0.store = Snapshots.undo^[k] db.store ∧
      db0.forkDb = { forkDb with head := first[k]? } ∧ db0.blockLog = db.blockLog := by
    refine @popUntil_rewinds _ _ _ _ _ _ rules _ items { db with forkDb := forkDb } _ _ k _ first
      hcoh hpin h.history (by omega) hpoint ?_ ?_ hfirst.linked ?_ (by omega) ?_
    · intro a ha
      exact hline.indexed a (mem_of_mem_take ha)
    · rw [hbranch.head]
      exact hs.head
    · intro a ha
      exact hfirst.indexed a (mem_of_mem_tail ha)
    have hfuel : popFuel { db with forkDb := forkDb } = newHead.num + 1 := by
      rw [popFuel]
      simp only [hs.head]
      rfl
    omega
  refine ⟨db0, hok, hstore, hlog, by rw [hfork], ?_, ?_, ?_⟩
  · rw [hfork, hx]
    refine hcoh.of_subset rfl (Sublist.refl _) ?_ (fun _ => rfl) hcoh.unlinked
    intro i hi
    obtain rfl : x = i := by simpa using hi
    exact hcoh.index_created x hxmem
  · rw [hfork]
    exact hpin
  · rw [hstore, hlog]
    exact h.history.iterate_undo (by omega)

variable (hbottom : ∀ x ∈ first.getLast?, x.prev = last.prev)

include hbottom

/-- On top of the blocks below the fork point both branches are lines. -/
theorem branch_lines :
    forkDb.Line (first ++ items.drop k) ∧ forkDb.Line (second ++ items.drop k) := by
  obtain ⟨-, hline, -, -⟩ := h.coherent_pushed hs
  obtain ⟨-, hfirst⟩ := h.first_line hs
  obtain ⟨-, hsecond⟩ := h.second_eq hs hk hpoint
  have hwhole : forkDb.Line (second ++ items.drop k) := by
    rw [hsecond, take_append_drop]
    exact hline
  refine ⟨⟨?_, ?_⟩, hwhole⟩
  · intro a ha
    rcases mem_append.mp ha with ha | ha
    · exact hfirst.indexed a ha
    · exact hwhole.indexed a (mem_append_right _ ha)
  · rw [isChain_append]
    refine ⟨hfirst.linked, (hline.drop k).linked, ?_⟩
    -- the last blocks of the two branches have the same link
    intro x hx a ha
    have hlink := (isChain_append.mp hwhole.linked).2.2 last hs.last a ha
    rw [hbottom x hx]
    exact hlink

/-- A branch of valid blocks becomes the main chain. -/
theorem switched (hall : (rules.reached (Snapshots.undo^[k] db.store).current
      (first.reverse.map ForkItem.data)).length = first.length) :
    ∃ db' items', pushBlock rules b db = .ok true db' ∧ MainChain rules db' items' ∧
      db.blockLog.blocks <:+ db'.blockLog.blocks ∧
      db'.blockLog.blocks.length = highestMark db.blockLog.blocks.length
        (rules.reached (Snapshots.undo^[k] db.store).current
        (first.reverse.map ForkItem.data)) := by
  obtain ⟨db0, hpop, hstore, hlog, hindex, hadv⟩ := h.rewound hs hk hpoint
  obtain ⟨hline, -⟩ := h.branch_lines hs hk hpoint hbottom
  obtain ⟨hbranch, -⟩ := h.first_line hs
  obtain ⟨-, -, -, hnew⟩ := h.coherent_pushed hs
  have hline0 : db0.forkDb.Line (first ++ items.drop k) :=
    hline.of_index (by rw [hindex]; exact hline.indexed)
  obtain ⟨db', hok, hadv', hline', had⟩ := hadv.applyItems first.reverse
    (by rw [reverse_reverse]; exact hline0) (by rw [hstore, hall, length_reverse])
  rw [reverse_reverse] at hadv' hline'
  have hlast : (first.reverse.map ForkItem.data).getLast? = some newHead.data := by
    rw [getLast?_map, getLast?_reverse, hbranch.head]
    rfl
  obtain ⟨t, ht, htnum, htid⟩ := Rules.reached_getLast
    (by rw [hall, length_map, length_reverse]) hlast
  have hcur : db'.store.current = t := by
    rw [had.current, hstore, ht]
    rfl
  have hnum : db'.headBlockNum = newHead.num := by
    rw [headBlockNum, hcur, htnum]
    rfl
  refine ⟨db', _, ?_, of_advancing (x := newHead) hadv' hline' ?_ ?_ ?_ ?_, ?_, ?_⟩
  · rw [hs.pushBlock_eq, replaceBranch, hpop]
    exact applyBranch_of_applyItems hok
  · rw [head?_append, hbranch.head]
    rfl
  · rw [had.head, getLast?_reverse, hbranch.head]
    rfl
  · rw [headBlockId, hcur, htid]
    rfl
  · intro a ha
    have hnext := h.switch_num hs
    rw [hnum]
    have hmem := had.index_subset a ha
    rw [hindex] at hmem
    rcases hnew a hmem with ha | rfl
    · have hle := h.top a ha
      omega
    · exact le_rfl
  · rw [← hlog]
    exact had.log
  · rw [had.length_log, hlog, hstore]

/-- A branch with an invalid block leaves the main chain as it is, if the fork point stays within
reach until the block fails. -/
theorem switch_failed {done todo : List (ForkItem H P)} {x : ForkItem H P}
    (hsplit : first.reverse = done ++ x :: todo)
    (hx : FailsAt rules (Snapshots.undo^[k] db.store).current done x)
    (hlow : ∀ t ∈ rules.reached (Snapshots.undo^[k] db.store).current (done.map ForkItem.data),
      t.lastIrreversibleBlockNum ≤ (Snapshots.undo^[k] db.store).current.headBlockNumber) :
    ∃ e db' items', pushBlock rules b db = .error e db' ∧ MainChain rules db' items' ∧
      db'.store.current = db.store.current ∧ db'.forkDb.head = db.forkDb.head ∧
      (∀ c ∈ x :: todo, ∀ a ∈ db'.forkDb.index, a.id ≠ c.id) ∧
      db.blockLog.blocks <:+ db'.blockLog.blocks ∧
      db'.blockLog.blocks.length = highestMark db.blockLog.blocks.length
        (rules.reached (Snapshots.undo^[k] db.store).current (done.map ForkItem.data)) := by
  obtain ⟨db0, hpop, hstore, hlog, hindex, hadv⟩ := h.rewound hs hk hpoint
  obtain ⟨hnewLine, holdLine⟩ := h.branch_lines hs hk hpoint hbottom
  obtain ⟨hbranch, -⟩ := h.first_line hs
  obtain ⟨-, -, -, hnew⟩ := h.coherent_pushed hs
  obtain ⟨hpos, hsecond⟩ := h.second_eq hs hk hpoint
  have hitems := h.history.length_items
  obtain ⟨hback, hlast, hmem⟩ := h.history.reached_back (k := k) (by omega)
  rw [← hsecond, ← hstore] at hback hlast hmem
  have hfirst : first = (x :: todo).reverse ++ done.reverse := by
    rw [← reverse_append, ← hsplit, reverse_reverse]
  have hpoint0 : db0.headBlockId = last.previousId := by
    rw [headBlockId, hstore]
    exact hpoint
  have hlength : second.length = k := by
    rw [hsecond, length_take]
    omega
  have hnew0 : db0.forkDb.Line ((x :: todo).reverse ++ (done.reverse ++ items.drop k)) := by
    rw [← append_assoc, ← hfirst]
    exact hnewLine.of_index (by rw [hindex]; exact hnewLine.indexed)
  have hold0 : db0.forkDb.Line (second.reverse.reverse ++ items.drop k) := by
    rw [reverse_reverse]
    exact holdLine.of_index (by rw [hindex]; exact holdLine.indexed)
  have hdisjoint : ∀ c ∈ second.reverse, ∀ a ∈ x :: todo, c.id ≠ a.id := by
    intro c hc a ha hid
    refine h.disjoint hs a ?_ c (mem_reverse.mp hc) hid.symm
    rw [hfirst]
    exact mem_append_left _ (mem_reverse.mpr ha)
  rw [← hstore] at hx hlow
  obtain ⟨e, db', hbr, hrec⟩ := hadv.recovers hnew0 hold0 hdisjoint hx hlow
    (by rw [hback, length_reverse, hlength])
  obtain ⟨top, htop⟩ : ∃ top, items.head? = some top := by
    cases items with
    | nil =>
      rw [length_nil] at hitems
      omega
    | cons top rest => exact ⟨top, rfl⟩
  have hhead : second.head? = some top := by
    rw [hsecond, head?_take, if_neg (by omega)]
    exact htop
  have hcur : db'.store.current = db.store.current := hrec.current.trans hlast
  have hforkHead : db'.forkDb.head = some top := by
    have hne : second.reverse ≠ [] := by
      intro hnil
      rw [reverse_eq_nil_iff.mp hnil] at hhead
      cases hhead
    rw [hrec.head hne, getLast?_reverse, hhead]
  have hnewHead : newHead ∈ x :: todo := by
    have hmem : (done ++ x :: todo).getLast? = some newHead := by
      rw [← hsplit, getLast?_reverse, hbranch.head]
    rw [getLast?_append_of_ne_nil _ (cons_ne_nil x todo)] at hmem
    exact mem_of_getLast? hmem
  have hadv' := hrec.advancing
  have hline' := hrec.line
  rw [reverse_reverse] at hadv' hline'
  refine ⟨e, db', _, ?_, of_advancing hadv' hline' ?_ hforkHead ?_ ?_, hcur, ?_, ?_, ?_, ?_⟩
  · rw [hs.pushBlock_eq, replaceBranch, hpop, hsplit, ← hpoint0]
    exact hbr
  · rw [head?_append, hhead]
    rfl
  · rw [headBlockId, hcur]
    exact h.history.tip top.data (by
      cases items with
      | nil => cases htop
      | cons c rest =>
        obtain rfl : c = top := by simpa using htop
        simp)
  · intro a ha
    rw [headBlockNum, hcur]
    obtain ⟨hmem, hids⟩ := hrec.index_subset a ha
    rw [hindex] at hmem
    rcases hnew a hmem with ha | rfl
    · exact h.top a ha
    · exact absurd rfl (hids a hnewHead)
  · rw [hforkHead, h.head_items top htop]
  · intro c hc a ha
    exact (hrec.index_subset a ha).2 c hc
  · rw [← hlog]
    exact hrec.log
  · -- the old branch makes nothing irreversible that was not so before
    rw [hrec.length_log, hstore, hlog]
    rw [hstore] at hmem
    refine highestMark_eq fun t ht => ?_
    have hle := h.history.stacked.mark_le_floor (hmem t ht)
    rw [h.history.floor_eq] at hle
    exact hle.trans (le_highestMark _ _).1

end Freezone.Chain.Database.MainChain
