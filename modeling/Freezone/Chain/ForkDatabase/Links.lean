import Freezone.Core.Ancestry
import Freezone.Chain.ForkDatabase.Model

/-!
# Links of the fork database

Every weak pointer leads to the item of the previous block, allocated earlier and
one block number lower, whatever was pushed, removed, pruned or made the head in
between. Along live links the items therefore form a graded forest.
-/

namespace Freezone.Chain.ForkDatabase

open Protocol Ancestry List

variable {H P : Type} [HeaderHash H P]
variable {db db' : ForkDatabase H P} {item prev : ForkItem H P} {pinned : List (ForkItem H P)}

/-- The records of the fork database agree with each other. -/
structure Coherent (db : ForkDatabase H P) : Prop where
  /-- An item is recorded at its address. -/
  handle : ∀ {h : Nat} {item : ForkItem H P}, db.created[h]? = some item → item.handle = h
  index_created : ∀ item ∈ db.index, item ∈ db.created
  head_created : ∀ item ∈ db.head, item ∈ db.created
  /-- A link leads to an older item, the one of the previous block. -/
  link : ∀ item ∈ db.created, ∀ h ∈ item.prev, ∃ prev, db.created[h]? = some prev ∧
    prev.id = item.previousId ∧ item.num = prev.num + 1
  /-- The index holds each id once. -/
  ids : db.index.Pairwise fun a b => a.id ≠ b.id
  head_of_index : db.index ≠ [] → db.head.isSome = true
  unlinked : db.unlinkedIndex = []
  valid : ∀ item ∈ db.created, item.invalid = false

namespace Coherent

/-- An item is found at its address. -/
theorem created_handle (hdb : db.Coherent) (hi : item ∈ db.created) :
    db.created[item.handle]? = some item := by
  obtain ⟨h, hh⟩ := mem_iff_getElem?.mp hi
  rw [hdb.handle hh]
  exact hh

/-- Locking an address gives the item allocated there. -/
theorem lock_eq_some (hdb : db.Coherent) (hpin : ∀ i ∈ pinned, i ∈ db.created) {h : Nat}
    (hl : db.lock pinned h = some item) : item ∈ db.created ∧ db.created[h]? = some item := by
  have hmem := mem_of_find?_eq_some hl
  have hh : item.handle = h := by simpa using find?_some hl
  have hc : item ∈ db.created := by
    simp only [mem_append, Option.mem_toList] at hmem
    rcases hmem with (hi | hh) | hp
    · exact hdb.index_created item hi
    · exact hdb.head_created item hh
    · exact hpin item hp
  exact ⟨hc, hh ▸ hdb.created_handle hc⟩

/-- A live link leads to the item of the previous block, one number lower. -/
theorem parent_eq_some (hdb : db.Coherent) (hpin : ∀ i ∈ pinned, i ∈ db.created)
    (hi : item ∈ db.created) (hp : db.parent pinned item = some prev) :
    prev ∈ db.created ∧ prev.id = item.previousId ∧ item.num = prev.num + 1 := by
  obtain ⟨h, hh, hl⟩ := Option.bind_eq_some_iff.mp hp
  obtain ⟨hc, he⟩ := hdb.lock_eq_some hpin hl
  obtain ⟨q, hq, hid, hnum⟩ := hdb.link item hi h hh
  rw [he] at hq
  obtain rfl : prev = q := by simpa using hq
  exact ⟨hc, hid, hnum⟩

/-- Along live links the allocated items form a forest graded by block number. -/
theorem graded (hdb : db.Coherent) (hpin : ∀ i ∈ pinned, i ∈ db.created) :
    Graded {item | item ∈ db.created} (db.parent pinned) ForkItem.num where
  closed hi hp := (hdb.parent_eq_some hpin hi hp).1
  step hi hp := (hdb.parent_eq_some hpin hi hp).2.2

theorem empty : Coherent ({} : ForkDatabase H P) where
  handle := by simp
  index_created := by simp
  head_created := by simp
  link := by simp
  ids := Pairwise.nil
  head_of_index := by simp
  unlinked := rfl
  valid := by simp

/-- Dropping items from the index and moving the head to a known item keep the records. -/
theorem of_subset (hdb : db.Coherent) (hcreated : db'.created = db.created)
    (hindex : db'.index.Sublist db.index) (hhead : ∀ item ∈ db'.head, item ∈ db.created)
    (hsome : db'.index ≠ [] → db'.head.isSome = true) (hunlinked : db'.unlinkedIndex = []) :
    db'.Coherent where
  handle := by rw [hcreated]; exact hdb.handle
  index_created item hi := by
    rw [hcreated]
    exact hdb.index_created item (hindex.mem hi)
  head_created := by rw [hcreated]; exact hhead
  link := by rw [hcreated]; exact hdb.link
  ids := hdb.ids.sublist hindex
  head_of_index := hsome
  unlinked := hunlinked
  valid := by rw [hcreated]; exact hdb.valid

/-- The head goes back to the predecessor. -/
theorem popBlock (hdb : db.Coherent) (hpin : ∀ i ∈ pinned, i ∈ db.created)
    (h : db.popBlock pinned = .ok db') : db'.Coherent := by
  unfold ForkDatabase.popBlock at h
  split at h
  · cases h
  rename_i head hhead
  split at h
  · cases h
  rename_i prev hprev
  cases h
  refine hdb.of_subset rfl (Sublist.refl _) ?_ (fun _ => rfl) hdb.unlinked
  intro i hi
  obtain rfl : prev = i := by simpa using hi
  exact (hdb.parent_eq_some hpin (hdb.head_created head hhead) hprev).1

/-- Pruning leaves the links of what is kept. -/
theorem setMaxSize (hdb : db.Coherent) (s : Nat) : (db.setMaxSize s).Coherent := by
  unfold ForkDatabase.setMaxSize
  split
  · exact hdb.of_subset rfl (Sublist.refl _) hdb.head_created hdb.head_of_index hdb.unlinked
  rename_i head hhead
  refine hdb.of_subset rfl filter_sublist hdb.head_created (fun _ => ?_) ?_
  · rw [hhead]
    rfl
  · simp [hdb.unlinked]

theorem setHead (hdb : db.Coherent) (hi : item ∈ db.created) : (db.setHead item).Coherent := by
  refine hdb.of_subset rfl (Sublist.refl _) ?_ (fun _ => rfl) hdb.unlinked
  intro i hi'
  obtain rfl : item = i := by simpa [ForkDatabase.setHead] using hi'
  exact hi

theorem reset (hdb : db.Coherent) : db.reset.Coherent :=
  hdb.of_subset rfl (nil_sublist _) (by simp [ForkDatabase.reset])
    (fun h => absurd rfl h) hdb.unlinked

end Coherent

variable [DecidableEq H]

/-- A block is found by its id, which is unique. -/
theorem find_eq_some_iff_mem (hids : db.index.Pairwise fun a b => a.id ≠ b.id) {id : BlockId H} :
    db.find id = some item ↔ item ∈ db.index ∧ item.id = id := by
  unfold find
  constructor
  · intro h
    exact ⟨mem_of_find?_eq_some h, by simpa using find?_some h⟩
  rintro ⟨hmem, rfl⟩
  generalize db.index = l at hids hmem
  induction l with
  | nil => cases hmem
  | cons a l ih =>
    rw [find?_cons]
    rcases mem_cons.mp hmem with rfl | hl
    · simp
    · have hne : a.id ≠ item.id := rel_of_pairwise_cons hids hl
      have hb : (a.id == item.id) = false := by simp [hne]
      rw [hb]
      exact ih hids.of_cons hl

theorem find_eq_none_iff {id : BlockId H} :
    db.find id = none ↔ ∀ item ∈ db.index, item.id ≠ id := by
  simp [find]

/-- A pushed block becomes the head exactly when it is higher than the head. -/
theorem attach_head (db : ForkDatabase H P) (b : SignedBlock H P) (link : Option Nat) :
    (db.attach b link).head = some (db.newItem b link) ∧ (∀ head ∈ db.head, head.num < b.blockNum) ∨
      ∃ head, db.head = some head ∧ b.blockNum ≤ head.num ∧ (db.attach b link).head =
          some head := by
  cases hh : db.head with
  | none => exact .inl ⟨by simp [attach, hh], by simp⟩
  | some head =>
    have hnum : (db.newItem b link).num = b.blockNum := rfl
    by_cases hlt : head.num < b.blockNum
    · exact .inl ⟨by simp [attach, hh, hnum, hlt], by simpa using hlt⟩
    · exact .inr ⟨head, rfl, Nat.le_of_not_lt hlt, by simp [attach, hh, hnum, hlt]⟩

/-- The index after a push: the old one, with the new item at the end if its id is new. -/
theorem mem_index_attach (db : ForkDatabase H P) (b : SignedBlock H P) (link : Option Nat) :
    (∀ a ∈ db.index, a ∈ (db.attach b link).index) ∧
      (∀ a ∈ (db.attach b link).index, a ∈ db.index ∨ a = db.newItem b link) ∧
      ((∀ a ∈ db.index, a.id ≠ b.id) → db.newItem b link ∈ (db.attach b link).index) := by
  have hindex : (db.attach b link).index = db.insert (db.newItem b link) := rfl
  rw [hindex, insert]
  split_ifs with hknown
  · refine ⟨fun _ ha => ha, fun _ ha => Or.inl ha, ?_⟩
    intro hnew
    obtain ⟨a, ha⟩ := Option.isSome_iff_exists.mp hknown
    have hid : a.id = (db.newItem b link).id := by simpa using find?_some ha
    exact absurd hid (hnew a (mem_of_find?_eq_some ha))
  · refine ⟨fun _ ha => mem_append_left _ ha, ?_, fun _ => by simp⟩
    intro a ha
    simpa using ha

/-- Allocating one item, linked to an item of the index, keeps the records. -/
theorem Coherent.allocate (hdb : db.Coherent) (item : ForkItem H P)
    (hitem : item.handle = db.created.length) (hvalid : item.invalid = false)
    (hlink : ∀ h ∈ item.prev, ∃ prev, db.created[h]? = some prev ∧
      prev.id = item.previousId ∧ item.num = prev.num + 1)
    (hcreated : db'.created = db.created ++ [item]) (hindex : db'.index = db.insert item)
    (hhead : db'.head = some item ∨ db'.head = db.head ∧ db.head.isSome = true)
    (hunlinked : db'.unlinkedIndex = []) : db'.Coherent where
  handle := by
    intro h i hi
    rw [hcreated, List.getElem?_append] at hi
    split at hi
    · exact hdb.handle hi
    rw [List.getElem?_singleton] at hi
    split at hi
    · obtain rfl : item = i := by simpa using hi
      omega
    · cases hi
  index_created i hi := by
    rw [hcreated, mem_append]
    rw [hindex, insert] at hi
    split at hi
    · exact .inl (hdb.index_created i hi)
    · exact (mem_append.mp hi).imp_left (hdb.index_created i)
  head_created i hi := by
    rw [hcreated, mem_append]
    rcases hhead with hh | ⟨hh, -⟩
    · rw [hh] at hi
      exact .inr (by simpa using hi.symm)
    · rw [hh] at hi
      exact .inl (hdb.head_created i hi)
  link i hi h hh := by
    have hold : ∀ p, db.created[h]? = some p → db'.created[h]? = some p := by
      intro p hp
      rw [hcreated, List.getElem?_append_left (List.getElem?_eq_some_iff.mp hp).1]
      exact hp
    rw [hcreated, mem_append] at hi
    rcases hi with hi | hi
    · obtain ⟨p, hp, hid, hnum⟩ := hdb.link i hi h hh
      exact ⟨p, hold p hp, hid, hnum⟩
    · obtain rfl : i = item := by simpa using hi
      obtain ⟨p, hp, hid, hnum⟩ := hlink h hh
      exact ⟨p, hold p hp, hid, hnum⟩
  ids := by
    rw [hindex, insert]
    split_ifs with hnone
    · exact hdb.ids
    rw [Option.not_isSome_iff_eq_none, find_eq_none_iff] at hnone
    rw [pairwise_append]
    refine ⟨hdb.ids, pairwise_singleton _ _, ?_⟩
    intro a ha b hb
    obtain rfl : b = item := by simpa using hb
    exact hnone a ha
  head_of_index _ := by
    rcases hhead with hh | ⟨hh, hs⟩
    · rw [hh]
      rfl
    · rw [hh]
      exact hs
  unlinked := hunlinked
  valid i hi := by
    rw [hcreated, mem_append] at hi
    rcases hi with hi | hi
    · exact hdb.valid i hi
    · obtain rfl : i = item := by simpa using hi
      exact hvalid

theorem Coherent.startBlock (hdb : db.Coherent) (b : SignedBlock H P) :
    (db.startBlock b).Coherent :=
  hdb.allocate (db.newItem b none) rfl rfl (by simp [newItem]) rfl rfl (Or.inl rfl) hdb.unlinked

theorem Coherent.remove (hdb : db.Coherent) (id : BlockId H) : (db.remove id).Coherent := by
  refine hdb.of_subset rfl filter_sublist hdb.head_created (fun hne => ?_) hdb.unlinked
  apply hdb.head_of_index
  intro hnil
  exact hne (by simp [ForkDatabase.remove, hnil])

variable [Inhabited H] {b : SignedBlock H P}

/-- A push attaches the block with the link it was given. -/
theorem pushBlock_eq_ok (h : db.pushBlock b = .ok db') :
    ∃ link, db.linkOf b = .ok link ∧ db' = db.attach b link := by
  unfold ForkDatabase.pushBlock at h
  split at h
  · cases h
  · rename_i link hlink
    cases h
    exact ⟨link, hlink, rfl⟩

namespace Coherent

/-- What `push_block` accepts, and the link it gives. -/
theorem linkOf_eq_ok (hdb : db.Coherent) {link : Option Nat}
    (h : db.linkOf b = .ok link) : ∀ h ∈ link, ∃ prev ∈ db.index, db.created[h]? = some prev ∧
      prev.id = b.previous ∧ b.blockNum = prev.num + 1 := by
  unfold linkOf at h
  split at h
  · cases h
    simp
  split at h
  · cases h
  split at h
  · cases h
    simp
  split at h
  · cases h
  rename_i q hq
  obtain ⟨hmem, hid⟩ := (find_eq_some_iff_mem hdb.ids).mp hq
  split at h
  · cases h
  cases h
  intro k hk
  obtain rfl : q.handle = k := by simpa using hk
  refine ⟨q, hmem, hdb.created_handle (hdb.index_created q hmem), hid, ?_⟩
  rw [SignedBlock.blockNum, ← hid]
  rfl

/-- A pushed block is linked to its predecessor. -/
theorem pushBlock (hdb : db.Coherent) (h : db.pushBlock b = .ok db') : db'.Coherent := by
  obtain ⟨link, hlink, rfl⟩ := pushBlock_eq_ok h
  refine hdb.allocate (db.newItem b link) rfl rfl ?_ rfl rfl ?_ hdb.unlinked
  · intro k hk
    obtain ⟨q, _, hq⟩ := hdb.linkOf_eq_ok hlink k hk
    exact ⟨q, hq⟩
  · rcases db.attach_head b link with ⟨hh, -⟩ | ⟨head, hold, -, hh⟩
    · exact .inl hh
    · exact .inr ⟨hh.trans hold.symm, by rw [hold]; rfl⟩

end Coherent

/-- The calls on a fork database. A caller can make the head any item it was given before. -/
inductive Step : ForkDatabase H P → ForkDatabase H P → Prop
  | pushBlock {db db' : ForkDatabase H P} (b : SignedBlock H P) (h : db.pushBlock b = .ok db') :
    Step db db'
  | startBlock (db : ForkDatabase H P) (b : SignedBlock H P) : Step db (db.startBlock b)
  | popBlock {db db' : ForkDatabase H P} (pinned : List (ForkItem H P))
    (hpin : ∀ i ∈ pinned, i ∈ db.created) (h : db.popBlock pinned = .ok db') : Step db db'
  | setMaxSize (db : ForkDatabase H P) (s : Nat) : Step db (db.setMaxSize s)
  | setHead {db : ForkDatabase H P} {item : ForkItem H P} (h : item ∈ db.created) :
    Step db (db.setHead item)
  | remove (db : ForkDatabase H P) (id : BlockId H) : Step db (db.remove id)
  | reset (db : ForkDatabase H P) : Step db db.reset

/-- A fork database that calls lead to from the empty one. -/
def Reachable (db : ForkDatabase H P) : Prop := Relation.ReflTransGen Step {} db

/-- One call keeps the records coherent. -/
theorem Coherent.step (hdb : db.Coherent) (h : Step db db') : db'.Coherent := by
  cases h with
  | pushBlock b h => exact hdb.pushBlock h
  | startBlock b => exact hdb.startBlock b
  | popBlock pinned hpin h => exact hdb.popBlock hpin h
  | setMaxSize s => exact hdb.setMaxSize s
  | setHead hi => exact hdb.setHead hi
  | remove id => exact hdb.remove id
  | reset => exact hdb.reset

/-- Every reachable fork database is coherent. -/
theorem Reachable.coherent (h : db.Reachable) : db.Coherent := by
  induction h with
  | refl => exact Coherent.empty
  | tail _ hstep ih => exact ih.step hstep

/-- The database after pushing blocks in order; refused blocks leave it unchanged. -/
def pushBlocks (db : ForkDatabase H P) (blocks : List (SignedBlock H P)) : ForkDatabase H P :=
  blocks.foldl (fun db b => (db.pushBlock b).toOption.getD db) db

/-- A list of blocks is pushed one by one. -/
theorem Reachable.pushBlocks (h : db.Reachable) (blocks : List (SignedBlock H P)) :
    (db.pushBlocks blocks).Reachable := by
  induction blocks generalizing db with
  | nil => exact h
  | cons b blocks ih =>
    apply ih
    cases hb : db.pushBlock b with
    | error e =>
      simp only [hb]
      exact h
    | ok db' =>
      simp only [hb]
      exact Relation.ReflTransGen.tail h (Step.pushBlock b hb)

end Freezone.Chain.ForkDatabase
