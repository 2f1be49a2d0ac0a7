import Freezone.Core.Checked
import Freezone.Chain.ForkDatabase.Links

/-!
# Branches down to the common ancestor

`fetch_branch_from` first brings the higher of two items down to the number of
the other one and then walks both down until their previous ids agree. It
compares ids, not items, and every link on the way has to be live.
-/

namespace Freezone.Chain.ForkDatabase

open Protocol Ancestry List IsBranch

variable {H P : Type} {db : ForkDatabase H P} {a b x y : ForkItem H P} {fuel : Nat}

/-- Items with the same previous block have the same number. -/
theorem num_eq_of_previousId (h : x.previousId = y.previousId) : x.num = y.num := by
  unfold ForkItem.num SignedBlock.blockNum
  rw [show x.data.previous = y.data.previous from h]

/-- What the first two loops collect. -/
theorem descendTo_eq_ok {n : Nat} {top : List (ForkItem H P)} {bottom : ForkItem H P}
    (h : db.descendTo n fuel a = .ok (top, bottom)) :
    IsBranch (db.parent []) a (top ++ [bottom]) := by
  induction fuel generalizing a top with
  | zero =>
    unfold descendTo at h
    split at h
    · cases h
      exact singleton _
    · cases h
  | succ fuel ih =>
    unfold descendTo at h
    split at h
    · cases h
      exact singleton _
    dsimp only at h
    split at h
    · cases h
    · rename_i p hp
      obtain ⟨⟨rest, low⟩, hd, h⟩ := Checked.bind_eq_ok.mp h
      cases h
      exact (ih hd).cons hp

/-- What the third loop collects. -/
theorem descendBoth_eq_ok [DecidableEq H] {first second : List (ForkItem H P)}
    (h : db.descendBoth fuel a b = .ok (first, second)) :
    IsBranch (db.parent []) a first ∧ IsBranch (db.parent []) b second ∧
      ∃ x y, first.getLast? = some x ∧ second.getLast? = some y ∧ x.previousId = y.previousId := by
  induction fuel generalizing a b first second with
  | zero =>
    unfold descendBoth at h
    split at h
    · cases h
      exact ⟨singleton _, singleton _, a, b, rfl, rfl, by assumption⟩
    · cases h
  | succ fuel ih =>
    unfold descendBoth at h
    split at h
    · cases h
      exact ⟨singleton _, singleton _, a, b, rfl, rfl, by assumption⟩
    dsimp only at h
    split at h
    · rename_i p q hp hq
      obtain ⟨⟨l, m⟩, hd, h⟩ := Checked.bind_eq_ok.mp h
      cases h
      obtain ⟨hl, hm, x, y, hx, hy, hprev⟩ := ih hd
      refine ⟨hl.cons hp, hm.cons hq, x, y, ?_, ?_, hprev⟩
      · rw [getLast?_cons, hx]
        rfl
      · rw [getLast?_cons, hy]
        rfl
    · cases h

variable [HeaderHash H P]

/-- `y` is `a` or a predecessor of `a` reached through retained blocks. -/
abbrev Retains (db : ForkDatabase H P) (a y : ForkItem H P) : Prop := Above (db.parent []) a y

/-- Retained items on the branches of `a` and `b` that have the same previous block. -/
structure Joins (db : ForkDatabase H P) (a b x y : ForkItem H P) : Prop where
  first : db.Retains a x
  second : db.Retains b y
  previousId : x.previousId = y.previousId

theorem num_eq_of_id (h : x.id = y.id) : x.num = y.num := congrArg BlockId.num h

/-- Retained links of a coherent database, graded by block number. -/
theorem Coherent.retained (hdb : db.Coherent) :
    Graded {item | item ∈ db.created} (db.parent []) ForkItem.num :=
  hdb.graded (by simp)

/-- The outcome of the first two loops. -/
theorem Coherent.descendTo_cases (hdb : db.Coherent) {n : Nat} (ha : a ∈ db.created)
    (hfuel : a.num ≤ fuel) : (∃ top bottom, db.descendTo n fuel a = .ok (top, bottom) ∧
      IsBranch (db.parent []) a (top ++ [bottom]) ∧ (∀ i ∈ top, n < i.num) ∧
      bottom.num = min n a.num) ∨
    db.descendTo n fuel a = .error .brokenLink ∧ ∀ y, db.Retains a y → n < y.num := by
  induction fuel generalizing a with
  | zero =>
    have hle : a.num ≤ n := by omega
    refine .inl ⟨[], a, ?_, singleton a, by simp, by omega⟩
    rw [descendTo, if_pos hle]
  | succ fuel ih =>
    rw [descendTo]
    by_cases hle : a.num ≤ n
    · rw [if_pos hle]
      exact .inl ⟨[], a, rfl, singleton a, by simp, by omega⟩
    rw [if_neg hle]
    cases hp : db.parent [] a with
    | none =>
      refine .inr ⟨rfl, ?_⟩
      intro y hy
      rcases hy.cases_parent with rfl | ⟨p, hp', -⟩
      · omega
      · cases hp.symm.trans hp'
    | some p =>
      obtain ⟨hpc, -, hnum⟩ := hdb.parent_eq_some (by simp) ha hp
      rcases ih hpc (by omega) with ⟨top, bottom, hok, hbr, htop, hbot⟩ | ⟨herr, hall⟩
      · refine .inl ⟨a :: top, bottom, ?_, hbr.cons hp, ?_, by omega⟩
        · simp only [hok]
          rfl
        · intro i hi
          rcases mem_cons.mp hi with rfl | hi
          · omega
          · exact htop i hi
      · refine .inr ⟨?_, ?_⟩
        · simp only [herr]
          rfl
        intro y hy
        rcases hy.cases_parent with rfl | ⟨q, hq, hqy⟩
        · omega
        · rw [hp] at hq
          obtain rfl : p = q := by simpa using hq
          exact hall y hqy

/-- Two items of one number whose previous ids differ join below both, if they join at all. -/
theorem Coherent.joins_below (hdb : db.Coherent) (ha : a ∈ db.created) (hb : b ∈ db.created)
    (hnum : a.num = b.num) (hne : a.previousId ≠ b.previousId) (h : db.Joins a b x y) :
    ∃ p q, db.parent [] a = some p ∧ db.parent [] b = some q ∧ db.Joins p q x y := by
  have hxy := num_eq_of_previousId h.previousId
  rcases h.first.cases_parent with rfl | ⟨p, hp, hpx⟩
  · -- the other item is then the second one itself
    have hyb := hdb.retained.eq_self_of_level_eq hb h.second (by omega)
    exact absurd (hyb ▸ h.previousId) hne
  · rcases h.second.cases_parent with rfl | ⟨q, hq, hqy⟩
    · have hxa := hdb.retained.eq_self_of_level_eq ha h.first (by omega)
      exact absurd (hxa ▸ h.previousId) hne
    · exact ⟨p, q, hp, hq, hpx, hqy, h.previousId⟩

/-- Two branches with nothing in common but the previous id of their last blocks. -/
structure Fork (db : ForkDatabase H P) (a b : ForkItem H P) (first second : List (ForkItem H P)) :
    Prop where
  first_branch : IsBranch (db.parent []) a first
  second_branch : IsBranch (db.parent []) b second
  /-- No block is on both branches. -/
  disjoint : ∀ x ∈ first, ∀ y ∈ second, x.id ≠ y.id
  /-- The last blocks follow the same block, the most recent one that both branches retain. -/
  ends : ∃ x y, first.getLast? = some x ∧ second.getLast? = some y ∧ x.id ≠ y.id ∧
    x.previousId = y.previousId ∧ ∀ x' y', db.Joins a b x' y' → x'.num ≤ x.num

/-- A fork of the parents extends to the items themselves. -/
theorem Fork.cons (hdb : db.Coherent) {p q : ForkItem H P} {l m : List (ForkItem H P)}
    (hfork : db.Fork p q l m) (ha : a ∈ db.created) (hb : b ∈ db.created)
    (hnum : a.num = b.num) (hid : a.id ≠ b.id) (hp : db.parent [] a = some p)
    (hq : db.parent [] b = some q) (hbelow : ∀ x y, db.Joins a b x y → db.Joins p q x y) :
    db.Fork a b (a :: l) (b :: m) := by
  obtain ⟨hpc, -, hpnum⟩ := hdb.parent_eq_some (by simp) ha hp
  obtain ⟨hqc, -, hqnum⟩ := hdb.parent_eq_some (by simp) hb hq
  constructor
  · exact hfork.first_branch.cons hp
  · exact hfork.second_branch.cons hq
  · intro x hx y hy heq
    have hxy := num_eq_of_id heq
    rcases mem_cons.mp hx with rfl | hx <;> rcases mem_cons.mp hy with rfl | hy
    · exact hid heq
    · have hle := hdb.retained.level_le hqc (hfork.second_branch.above hy)
      omega
    · have hle := hdb.retained.level_le hpc (hfork.first_branch.above hx)
      omega
    · exact hfork.disjoint x hx y hy heq
  · obtain ⟨x, y, hx, hy, hne, hprev, hmax⟩ := hfork.ends
    refine ⟨x, y, ?_, ?_, hne, hprev, fun x' y' h => hmax x' y' (hbelow x' y' h)⟩
    · rw [getLast?_cons, hx]
      rfl
    · rw [getLast?_cons, hy]
      rfl

/-- Branches above a fork: the parts above the number of the other block come first. -/
theorem Fork.append (hdb : db.Coherent) {a' b' : ForkItem H P} {top top' l m : List (ForkItem H P)}
    (ha : a ∈ db.created) (hb : b ∈ db.created)
    (hfirst : IsBranch (db.parent []) a (top ++ [a'])) (htop : ∀ i ∈ top, b.num < i.num)
    (hsecond : IsBranch (db.parent []) b (top' ++ [b'])) (htop' : ∀ i ∈ top', a'.num < i.num)
    (hnum : a'.num = min b.num a.num) (hnum' : b'.num = a'.num) (hfork : db.Fork a' b' l m) :
    db.Fork a b (top ++ l) (top' ++ m) := by
  have ha' : db.Retains a a' := hfirst.above (by simp)
  have hb' : db.Retains b b' := hsecond.above (by simp)
  have hl := hfirst.append hfork.first_branch
  have hm := hsecond.append hfork.second_branch
  constructor
  · exact hl
  · exact hm
  · intro x hx y hy heq
    have hxy := num_eq_of_id heq
    rcases mem_append.mp hx with hx | hx
    · have hlow := hdb.retained.level_le hb (hm.above hy)
      have hhigh := htop x hx
      omega
    · rcases mem_append.mp hy with hy | hy
      · have hlow := hdb.retained.level_le (hdb.retained.mem ha ha') (hfork.first_branch.above hx)
        have hhigh := htop' y hy
        omega
      · exact hfork.disjoint x hx y hy heq
  · obtain ⟨x, y, hx, hy, hne, hprev, hmax⟩ := hfork.ends
    refine ⟨x, y, ?_, ?_, hne, hprev, ?_⟩
    · rw [getLast?_append, hx]
      rfl
    · rw [getLast?_append, hy]
      rfl
    intro x' y' h
    have hxy := num_eq_of_previousId h.previousId
    have hxa := hdb.retained.level_le ha h.first
    have hyb := hdb.retained.level_le hb h.second
    exact hmax x' y' ⟨hdb.retained.above_of_level_le ha ha' h.first (by omega),
      hdb.retained.above_of_level_le hb hb' h.second (by omega), h.previousId⟩

variable [DecidableEq H]

/-- Whatever `fetch_branch_from` returns are two branches whose last blocks follow one block. -/
theorem fetchBranchFrom_eq_ok {i j : BlockId H} {first second : List (ForkItem H P)}
    (h : db.fetchBranchFrom i j = .ok (first, second)) :
    ∃ a b, db.find i = some a ∧ db.find j = some b ∧ IsBranch (db.parent []) a first ∧
      IsBranch (db.parent []) b second ∧
      ∃ x y, first.getLast? = some x ∧ second.getLast? = some y ∧ x.previousId = y.previousId := by
  unfold fetchBranchFrom at h
  split at h
  · rename_i a b ha hb
    simp only [Checked.bind_eq_ok] at h
    obtain ⟨⟨top, a'⟩, hd, ⟨top', b'⟩, hd', ⟨l, m⟩, hd3, h⟩ := h
    cases h
    obtain ⟨hl, hm, x, y, hx, hy, hprev⟩ := descendBoth_eq_ok hd3
    refine ⟨a, b, ha, hb, (descendTo_eq_ok hd).append hl, (descendTo_eq_ok hd').append hm,
      x, y, ?_, ?_, hprev⟩
    · rw [getLast?_append, hx]
      rfl
    · rw [getLast?_append, hy]
      rfl
  · cases h

/-- The outcome of the third loop. -/
theorem Coherent.descendBoth_cases (hdb : db.Coherent) (ha : a ∈ db.created)
    (hb : b ∈ db.created) (hnum : a.num = b.num) (hid : a.id ≠ b.id) (hfuel : a.num < fuel) :
    (∃ first second, db.descendBoth fuel a b = .ok (first, second) ∧ db.Fork a b first second) ∨
    db.descendBoth fuel a b = .error .brokenLink ∧ ∀ x y, ¬ db.Joins a b x y := by
  induction fuel generalizing a b with
  | zero => omega
  | succ fuel ih =>
    rw [descendBoth]
    by_cases heq : a.previousId = b.previousId
    · rw [if_pos heq]
      refine .inl ⟨[a], [b], rfl, singleton a, singleton b, ?_, ?_⟩
      · simpa using hid
      · refine ⟨a, b, rfl, rfl, hid, heq, ?_⟩
        intro x' y' h
        exact hdb.retained.level_le ha h.first
    · rw [if_neg heq]
      cases hp : db.parent [] a with
      | none =>
        refine .inr ⟨rfl, ?_⟩
        intro x y h
        obtain ⟨p, q, hp', -, -⟩ := hdb.joins_below ha hb hnum heq h
        rw [hp] at hp'
        cases hp'
      | some p =>
        cases hq : db.parent [] b with
        | none =>
          refine .inr ⟨rfl, ?_⟩
          intro x y h
          obtain ⟨p, q, -, hq', -⟩ := hdb.joins_below ha hb hnum heq h
          rw [hq] at hq'
          cases hq'
        | some q =>
          obtain ⟨hpc, hpid, hpnum⟩ := hdb.parent_eq_some (by simp) ha hp
          obtain ⟨hqc, hqid, hqnum⟩ := hdb.parent_eq_some (by simp) hb hq
          have hpq : p.id ≠ q.id := by
            rw [hpid, hqid]
            exact heq
          -- joins of the two items are joins of their parents
          have hbelow : ∀ x y, db.Joins a b x y → db.Joins p q x y := by
            intro x y h
            obtain ⟨p', q', hp', hq', hj⟩ := hdb.joins_below ha hb hnum heq h
            rw [hp] at hp'
            rw [hq] at hq'
            obtain rfl : p = p' := by simpa using hp'
            obtain rfl : q = q' := by simpa using hq'
            exact hj
          rcases ih hpc hqc (by omega) hpq (by omega) with ⟨l, m, hok, hfork⟩ | ⟨herr, hnone⟩
          · refine .inl ⟨a :: l, b :: m, ?_, ?_⟩
            · simp only [hok]
              rfl
            · exact hfork.cons hdb ha hb hnum hid hp hq hbelow
          · refine .inr ⟨?_, fun x y h => hnone x y (hbelow x y h)⟩
            simp only [herr]
            rfl

/-- The two outcomes of `fetch_branch_from` on blocks that do not precede each other. -/
theorem Coherent.fetchBranchFrom_cases (hdb : db.Coherent) (ha : a ∈ db.index) (hb : b ∈ db.index)
    (hab : ∀ x, db.Retains a x → x.id ≠ b.id) (hba : ∀ y, db.Retains b y → y.id ≠ a.id) :
    (∃ first second, db.fetchBranchFrom a.id b.id = .ok (first, second) ∧
      db.Fork a b first second) ∨
    db.fetchBranchFrom a.id b.id = .error .brokenLink ∧ ∀ x y, ¬ db.Joins a b x y := by
  have hac := hdb.index_created a ha
  have hbc := hdb.index_created b hb
  have hfa : db.find a.id = some a := (find_eq_some_iff_mem hdb.ids).mpr ⟨ha, rfl⟩
  have hfb : db.find b.id = some b := (find_eq_some_iff_mem hdb.ids).mpr ⟨hb, rfl⟩
  have hjoin : ∀ x y, db.Joins a b x y → x.num ≤ min b.num a.num ∧ y.num ≤ min b.num a.num := by
    intro x y h
    have hxy := num_eq_of_previousId h.previousId
    have hxa := hdb.retained.level_le hac h.first
    have hyb := hdb.retained.level_le hbc h.second
    omega
  unfold fetchBranchFrom
  rw [hfa, hfb]
  rcases hdb.descendTo_cases (n := b.num) hac le_rfl with
    ⟨top, a', hok, hbr, htop, hnum⟩ | ⟨herr, hall⟩
  · rcases hdb.descendTo_cases (n := a'.num) hbc le_rfl with
      ⟨top', b', hok', hbr', htop', hnum'⟩ | ⟨herr', hall'⟩
    · have ha' : db.Retains a a' := hbr.above (by simp)
      have hb' : db.Retains b b' := hbr'.above (by simp)
      -- the lower block has not moved, so the two items are different blocks
      have hid : a'.id ≠ b'.id := by
        rcases le_total a.num b.num with hle | hle
        · have haa := hdb.retained.eq_self_of_level_eq hac ha' (by omega)
          rw [haa]
          exact (hba b' hb').symm
        · have hbb := hdb.retained.eq_self_of_level_eq hbc hb' (by omega)
          rw [hbb]
          exact hab a' ha'
      rcases hdb.descendBoth_cases (hdb.retained.mem hac ha') (hdb.retained.mem hbc hb')
        (by omega) hid (Nat.lt_succ_self _) with ⟨l, m, hok3, hfork⟩ | ⟨herr3, hnone⟩
      · refine .inl ⟨top ++ l, top' ++ m, ?_,
          hfork.append hdb hac hbc hbr htop hbr' htop' hnum (by omega)⟩
        simp only [hok, hok', hok3, bind, Except.bind]
        rfl
      · refine .inr ⟨?_, ?_⟩
        · simp only [hok, hok', herr3, bind, Except.bind]
        · intro x y h
          have hlow := hjoin x y h
          exact hnone x y ⟨hdb.retained.above_of_level_le hac ha' h.first (by omega),
            hdb.retained.above_of_level_le hbc hb' h.second (by omega), h.previousId⟩
    · refine .inr ⟨?_, ?_⟩
      · simp only [hok, herr', bind, Except.bind]
      · intro x y h
        have hlow := hjoin x y h
        have hhigh := hall' y h.second
        omega
  · refine .inr ⟨?_, ?_⟩
    · simp only [herr, bind, Except.bind]
    · intro x y h
      have hlow := hjoin x y h
      have hhigh := hall x h.first
      omega

/-- For two blocks of the index of which neither precedes the other, `fetch_branch_from`
terminates. If they retain a block with a common predecessor id, it returns two linked branches
that start at them, share no block and end in different blocks after the most recent such
predecessor; otherwise it throws. -/
theorem fetchBranchFrom_forks_or_throws (db : ForkDatabase H P) (hdb : db.Coherent)
    (a b : ForkItem H P) (ha : a ∈ db.index) (hb : b ∈ db.index)
    (hab : ∀ x, db.Retains a x → x.id ≠ b.id) (hba : ∀ y, db.Retains b y → y.id ≠ a.id) :
    ((∃ x y, db.Joins a b x y) → ∃ first second,
      db.fetchBranchFrom a.id b.id = .ok (first, second) ∧ db.Fork a b first second) ∧
    ((¬ ∃ x y, db.Joins a b x y) → db.fetchBranchFrom a.id b.id = .error .brokenLink) := by
  rcases hdb.fetchBranchFrom_cases ha hb hab hba with ⟨first, second, hok, hfork⟩ | ⟨herr, hnone⟩
  · refine ⟨fun _ => ⟨first, second, hok, hfork⟩, fun hno => absurd ?_ hno⟩
    obtain ⟨x, y, hx, hy, -, hprev, -⟩ := hfork.ends
    exact ⟨x, y, hfork.first_branch.above (mem_of_getLast? hx),
      hfork.second_branch.above (mem_of_getLast? hy), hprev⟩
  · exact ⟨fun ⟨x, y, h⟩ => absurd h (hnone x y), fun _ => herr⟩

/-- Blocks 2 and 3 on block 1, and another block 2. -/
def twoBranches : ForkDatabase Nat Nat :=
  ({} : ForkDatabase Nat Nat).pushBlocks
    [⟨⟨0, 0⟩, 10⟩, ⟨⟨1, 10⟩, 20⟩, ⟨⟨2, 20⟩, 30⟩, ⟨⟨1, 10⟩, 21⟩]

/-- The branches of block 3 and of the other block 2 fork from block 1. -/
theorem fetchBranchFrom_twoBranches :
    ∃ first second, twoBranches.fetchBranchFrom ⟨3, 30⟩ ⟨2, 21⟩ = .ok (first, second) ∧
      twoBranches.Fork ⟨2, ⟨⟨2, 20⟩, 30⟩, some 1, false⟩ ⟨3, ⟨⟨1, 10⟩, 21⟩, some 0, false⟩
        first second := by
  have hreach : twoBranches.Reachable := Reachable.pushBlocks Relation.ReflTransGen.refl _
  have hfirst : IsBranch (twoBranches.parent []) ⟨2, ⟨⟨2, 20⟩, 30⟩, some 1, false⟩
      [⟨2, ⟨⟨2, 20⟩, 30⟩, some 1, false⟩, ⟨1, ⟨⟨1, 10⟩, 20⟩, some 0, false⟩,
        ⟨0, ⟨⟨0, 0⟩, 10⟩, none, false⟩] :=
    ⟨rfl, .cons_cons rfl (.cons_cons rfl (.singleton _))⟩
  have hsecond : IsBranch (twoBranches.parent []) ⟨3, ⟨⟨1, 10⟩, 21⟩, some 0, false⟩
      [⟨3, ⟨⟨1, 10⟩, 21⟩, some 0, false⟩, ⟨0, ⟨⟨0, 0⟩, 10⟩, none, false⟩] :=
    ⟨rfl, .cons_cons rfl (.singleton _)⟩
  refine (fetchBranchFrom_forks_or_throws twoBranches hreach.coherent
    ⟨2, ⟨⟨2, 20⟩, 30⟩, some 1, false⟩ ⟨3, ⟨⟨1, 10⟩, 21⟩, some 0, false⟩
    (mem_of_getElem? (i := 2) rfl) (mem_of_getElem? (i := 3) rfl) ?_ ?_).1
    ⟨⟨1, ⟨⟨1, 10⟩, 20⟩, some 0, false⟩, ⟨3, ⟨⟨1, 10⟩, 21⟩, some 0, false⟩,
      hfirst.above (mem_of_getElem? (i := 1) rfl), Above.refl _, rfl⟩
  · intro x hx
    have hmem := hfirst.mem_of_above (by rintro y ⟨⟩; rfl) hx
    simp only [mem_cons, not_mem_nil, or_false] at hmem
    rcases hmem with rfl | rfl | rfl <;> decide
  · intro y hy
    have hmem := hsecond.mem_of_above (by rintro y ⟨⟩; rfl) hy
    simp only [mem_cons, not_mem_nil, or_false] at hmem
    rcases hmem with rfl | rfl <;> decide

end Freezone.Chain.ForkDatabase
