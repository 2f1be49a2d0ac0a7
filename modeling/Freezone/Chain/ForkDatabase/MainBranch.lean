import Freezone.Chain.ForkDatabase.Branches

/-!
# Lookup by number on the main branch

The main branch is the head and its predecessors, retained or not. The lookup by
number walks down from the head only when the index holds several blocks of that
number; a single block is returned without looking at its branch.
-/

namespace Freezone.Chain.ForkDatabase

open Protocol Ancestry

variable {H P : Type} [HeaderHash H P]
variable {db : ForkDatabase H P} {item next : ForkItem H P} {pinned : List (ForkItem H P)}

/-- The item that `item` was linked to when it was pushed, retained or not. -/
def predecessor (db : ForkDatabase H P) (item : ForkItem H P) : Option (ForkItem H P) :=
  item.prev.bind fun h => db.created[h]?

/-- `id` is the id of the head or of a predecessor of the head. -/
def OnMainBranch (db : ForkDatabase H P) (id : BlockId H) : Prop :=
  ∃ head ∈ db.head, ∃ item, Above db.predecessor head item ∧ item.id = id

/-- What the walk along live links returns has the number and follows from the start. -/
theorem Coherent.walkDownTo_eq_some (hdb : db.Coherent) (hpin : ∀ i ∈ pinned, i ∈ db.created)
    {n fuel : Nat} (hnext : next ∈ db.created) (hle : n ≤ next.num) (hfuel : next.num ≤ fuel)
    (h : db.walkDownTo pinned n fuel next = some item) :
    item.num = n ∧ Above db.predecessor next item := by
  induction fuel generalizing next with
  | zero =>
    rw [walkDownTo, if_neg (by omega)] at h
    obtain rfl : next = item := by simpa using h
    exact ⟨by omega, Above.refl next⟩
  | succ fuel ih =>
    rw [walkDownTo] at h
    by_cases hlt : n < next.num
    · rw [if_pos hlt] at h
      obtain ⟨prev, hprev, hwalk⟩ := Option.bind_eq_some_iff.mp h
      obtain ⟨hc, -, hnum⟩ := hdb.parent_eq_some hpin hnext hprev
      obtain ⟨hn, habove⟩ := ih hc (by omega) (by omega) hwalk
      obtain ⟨k, hk, hlock⟩ := Option.bind_eq_some_iff.mp hprev
      exact ⟨hn, Above.of_parent
        (Option.bind_eq_some_iff.mpr ⟨k, hk, (hdb.lock_eq_some hpin hlock).2⟩) habove⟩
    · rw [if_neg hlt] at h
      obtain rfl : next = item := by simpa using h
      exact ⟨by omega, Above.refl next⟩

variable [DecidableEq H] [Inhabited H]

/-- In every reachable fork database, whatever items the caller holds, what the lookup returns is
the head or a predecessor of the head with the number asked for exactly when the index holds the
block of the main branch with that number or does not hold exactly one block of that number. -/
theorem fetchBlockOnMainBranchByNumber_onMainBranch_iff (db : ForkDatabase H P)
    (hdb : db.Reachable) (pinned : List (ForkItem H P)) (hpin : ∀ i ∈ pinned, i ∈ db.created)
    (n : Nat) : (∀ item, db.fetchBlockOnMainBranchByNumber pinned n = some item →
      item.num = n ∧ db.OnMainBranch item.id) ↔
    (∃ item ∈ db.index, item.num = n ∧ db.OnMainBranch item.id) ∨
      (db.fetchBlockByNumber n).length ≠ 1 := by
  have hmem : ∀ item, item ∈ db.fetchBlockByNumber n ↔ item ∈ db.index ∧ item.num = n := by
    intro item
    simp [fetchBlockByNumber]
  unfold fetchBlockOnMainBranchByNumber
  split
  · rename_i hnil
    simp [hnil]
  · rename_i block hone
    have hblock : block ∈ db.index ∧ block.num = n := (hmem block).mp (by simp [hone])
    constructor
    · intro h
      exact .inl ⟨block, hblock.1, h block rfl⟩
    rintro (⟨item, hi, hn, hmain⟩ | hlen) other hother
    · have hitem : item ∈ db.fetchBlockByNumber n := (hmem item).mpr ⟨hi, hn⟩
      obtain rfl : item = block := by simpa [hone] using hitem
      obtain rfl : item = other := by simpa using hother
      exact ⟨hn, hmain⟩
    · exact absurd (by simp [hone]) hlen
  · rename_i hnil hone
    constructor
    · intro _
      refine .inr ?_
      intro hlen
      obtain ⟨block, hb⟩ := List.length_eq_one_iff.mp hlen
      exact hone block hb
    · intro _ item hitem
      obtain ⟨head, hhead, hwalk⟩ := Option.bind_eq_some_iff.mp hitem
      split_ifs at hwalk with hle
      obtain ⟨hn, habove⟩ := hdb.coherent.walkDownTo_eq_some hpin
        (hdb.coherent.head_created head hhead) (Nat.le_of_not_lt hle) le_rfl hwalk
      exact ⟨hn, head, hhead, item, habove, rfl⟩

/-- With two blocks of number 2, the one below the head is returned. -/
theorem fetchBlockOnMainBranchByNumber_twoBranches :
    ∃ item, twoBranches.fetchBlockOnMainBranchByNumber [] 2 = some item ∧
      item.num = 2 ∧ twoBranches.OnMainBranch item.id :=
  ⟨_, rfl, (fetchBlockOnMainBranchByNumber_onMainBranch_iff twoBranches
    (Reachable.pushBlocks Relation.ReflTransGen.refl _) [] (by simp) 2).mpr
      (Or.inr (by decide)) _ rfl⟩

/-- Block 2 was the head when it was removed, and another block 2 was pushed after it. -/
def removedHead : ForkDatabase Nat Nat :=
  ((({} : ForkDatabase Nat Nat).pushBlocks [⟨⟨0, 0⟩, 10⟩, ⟨⟨1, 10⟩, 20⟩]).remove ⟨2, 20⟩).pushBlocks
    [⟨⟨1, 10⟩, 21⟩]

/-- The head is still the removed block 2, and the lookup returns the other block 2. -/
theorem fetchBlockOnMainBranchByNumber_off_main_branch :
    removedHead.Reachable ∧ ∃ item, removedHead.fetchBlockOnMainBranchByNumber [] 2 = some item ∧
      ¬ removedHead.OnMainBranch item.id := by
  refine ⟨Reachable.pushBlocks (.tail (Reachable.pushBlocks .refl _) (.remove _ _)) _,
    ⟨2, ⟨⟨1, 10⟩, 21⟩, some 0, false⟩, rfl, ?_⟩
  rintro ⟨head, hhead, item, habove, hid⟩
  obtain rfl : (⟨1, ⟨⟨1, 10⟩, 20⟩, some 0, false⟩ : ForkItem Nat Nat) = head :=
    Option.some.inj hhead
  have hbranch : IsBranch removedHead.predecessor ⟨1, ⟨⟨1, 10⟩, 20⟩, some 0, false⟩
      [⟨1, ⟨⟨1, 10⟩, 20⟩, some 0, false⟩, ⟨0, ⟨⟨0, 0⟩, 10⟩, none, false⟩] :=
    ⟨rfl, .cons_cons rfl (.singleton _)⟩
  have hmem := hbranch.mem_of_above (by rintro y ⟨⟩; rfl) habove
  simp only [List.mem_cons, List.not_mem_nil, or_false] at hmem
  rcases hmem with rfl | rfl
  · exact absurd hid (by decide)
  · exact absurd hid (by decide)

end Freezone.Chain.ForkDatabase
