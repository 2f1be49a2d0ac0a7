import Freezone.Chain.ForkDatabase.MainBranch

/-!
# Lines of the index

A line is a list of items of the index, each linked to the next one. Its links
are live whatever the head is and whatever a caller holds, so a line below the
head is what the lookup by number finds.
-/

namespace Freezone.Chain.ForkDatabase

open Protocol Ancestry List

variable {H P : Type}
variable {db db' : ForkDatabase H P} {a p x : ForkItem H P} {l m pinned : List (ForkItem H P)}

/-- Items of the index, each linked to the next. -/
structure Line (db : ForkDatabase H P) (l : List (ForkItem H P)) : Prop where
  indexed : ∀ a ∈ l, a ∈ db.index
  linked : l.IsChain fun c p => c.prev = some p.handle

theorem Line.nil : Line db [] := ⟨by simp, IsChain.nil⟩

theorem Line.take (h : db.Line l) (k : Nat) : db.Line (l.take k) :=
  ⟨fun a ha => h.indexed a (mem_of_mem_take ha), h.linked.take k⟩

theorem Line.drop (h : db.Line l) (k : Nat) : db.Line (l.drop k) :=
  ⟨fun a ha => h.indexed a (mem_of_mem_drop ha), h.linked.drop k⟩

/-- A line of items that another index holds as well. -/
theorem Line.of_index (h : db.Line l) (hi : ∀ a ∈ l, a ∈ db'.index) : db'.Line l := ⟨hi, h.linked⟩

/-- A branch of an indexed item is a line when the head is indexed. -/
theorem line_of_isBranch (hhead : ∀ i ∈ db.head, i ∈ db.index) (ha : a ∈ db.index)
    (h : IsBranch (db.parent []) a l) : db.Line l := by
  induction l generalizing a with
  | nil => exact Line.nil
  | cons b l ih =>
    obtain rfl : b = a := by simpa using h.head
    cases l with
    | nil => exact ⟨by simpa using ha, isChain_singleton b⟩
    | cons c l =>
      have hlink := h.linked
      rw [isChain_cons_cons] at hlink
      obtain ⟨k, hk, hl⟩ := Option.bind_eq_some_iff.mp hlink.1
      have hc : c ∈ db.index := by
        have hmem := mem_of_find?_eq_some hl
        simp only [append_nil, mem_append, Option.mem_toList] at hmem
        exact hmem.elim id (hhead c)
      have hhandle : c.handle = k := by simpa using find?_some hl
      have hrest := ih hc ⟨rfl, hlink.2⟩
      refine ⟨?_, ?_⟩
      · intro i hi
        rcases mem_cons.mp hi with rfl | hi
        · exact ha
        · exact hrest.indexed i hi
      · rw [isChain_cons_cons]
        exact ⟨by rw [hhandle]; exact hk, hrest.linked⟩

variable [HeaderHash H P]

/-- A link to an item of the index is live. -/
theorem Coherent.parent_of_mem (hdb : db.Coherent) (hpin : ∀ i ∈ pinned, i ∈ db.created)
    (hp : p ∈ db.index) (hlink : a.prev = some p.handle) : db.parent pinned a = some p := by
  rw [parent, hlink]
  change db.lock pinned p.handle = some p
  cases hl : db.lock pinned p.handle with
  | none =>
    have hnone := find?_eq_none.mp hl p (by simp [hp])
    simp at hnone
  | some i =>
    have hi := (hdb.lock_eq_some hpin hl).2
    rw [hdb.created_handle (hdb.index_created p hp)] at hi
    exact hi.symm

/-- The items of a line below its first one are its predecessors. -/
theorem Line.isBranch (h : db.Line (a :: l)) (hdb : db.Coherent)
    (hpin : ∀ i ∈ pinned, i ∈ db.created) : IsBranch (db.parent pinned) a (a :: l) := by
  refine ⟨rfl, ?_⟩
  have hindexed := h.indexed
  have hlinked := h.linked
  generalize a :: l = m at hindexed hlinked
  induction m with
  | nil => exact IsChain.nil
  | cons c m ih =>
    refine (ih (fun b hb => hindexed b (mem_cons_of_mem _ hb)) hlinked.tail).cons ?_
    intro q hq
    have hmem : q ∈ m := mem_of_mem_head? hq
    exact hdb.parent_of_mem hpin (hindexed q (mem_cons_of_mem _ hmem))
      (isChain_cons.mp hlinked |>.1 q hq)

/-- The walk finds the predecessor of a number. -/
theorem Coherent.walkDownTo_eq (hdb : db.Coherent) (hpin : ∀ i ∈ pinned, i ∈ db.created)
    {fuel : Nat} (hx : x ∈ db.created) (ha : Above (db.parent pinned) x a) (hfuel : x.num ≤ fuel) :
    db.walkDownTo pinned a.num fuel x = some a := by
  have hle := (hdb.graded hpin).level_le hx ha
  induction fuel generalizing x with
  | zero =>
    obtain rfl := (hdb.graded hpin).eq_self_of_level_eq hx ha (by omega)
    rw [walkDownTo, if_neg (lt_irrefl _)]
  | succ fuel ih =>
    rw [walkDownTo]
    rcases ha.cases_parent with rfl | ⟨q, hq, hqa⟩
    · rw [if_neg (lt_irrefl _)]
    · obtain ⟨hqc, -, hnum⟩ := hdb.parent_eq_some hpin hx hq
      have hqle := (hdb.graded hpin).level_le hqc hqa
      rw [if_pos (by omega), hq]
      exact ih hqc hqa (by omega) hqle

/-- On a line below the head, the lookup by number finds the item of the line. -/
theorem Line.fetchBlockOnMainBranchByNumber (h : db.Line (x :: l)) (hdb : db.Coherent)
    (hpin : ∀ i ∈ pinned, i ∈ db.created) (hhead : db.head = some x) (ha : a ∈ x :: l) :
    db.fetchBlockOnMainBranchByNumber pinned a.num = some a := by
  have hmem : a ∈ db.fetchBlockByNumber a.num := by
    simp [fetchBlockByNumber, h.indexed a ha]
  have hx := hdb.head_created x hhead
  have habove := (h.isBranch hdb hpin).above ha
  unfold ForkDatabase.fetchBlockOnMainBranchByNumber
  split
  · rename_i hnil
    rw [hnil] at hmem
    cases hmem
  · rename_i block hone
    rw [hone] at hmem
    rw [mem_singleton.mp hmem]
  · have hle := (hdb.graded hpin).level_le hx habove
    rw [walkMainBranchToNum, hhead, Option.bind_some, if_neg (Nat.not_lt.mpr hle)]
    exact hdb.walkDownTo_eq hpin hx habove le_rfl

/-- Numbers count down along a line, seen from its first item. -/
theorem Line.num_add (h : db.Line (x :: l)) (hdb : db.Coherent) {i : Nat}
    (hi : (x :: l)[i]? = some a) : a.num + i = x.num := by
  induction i generalizing x l with
  | zero =>
    obtain rfl : x = a := by simpa using hi
    rfl
  | succ i ih =>
    cases l with
    | nil => simp at hi
    | cons y l =>
      have hlink := h.linked
      rw [isChain_cons_cons] at hlink
      have hxc := hdb.index_created x (h.indexed x mem_cons_self)
      have hpin : ∀ i ∈ ([] : List (ForkItem H P)), i ∈ db.created := by simp
      have hparent := hdb.parent_of_mem hpin (h.indexed y (by simp)) hlink.1
      have hnum := (hdb.parent_eq_some hpin hxc hparent).2.2
      have hy := ih ⟨fun b hb => h.indexed b (mem_cons_of_mem _ hb), hlink.2⟩ (by simpa using hi)
      omega

/-- Numbers count down along a line. -/
theorem Line.num_add_sub (h : db.Line l) (hdb : db.Coherent) {i j : Nat} (hij : i ≤ j)
    (hi : l[i]? = some x) (hj : l[j]? = some a) : a.num + (j - i) = x.num := by
  obtain ⟨hlt, hget⟩ := List.getElem?_eq_some_iff.mp hi
  have hline := h.drop i
  rw [drop_eq_getElem_cons hlt, hget] at hline
  refine hline.num_add hdb ?_
  rw [← hget, ← drop_eq_getElem_cons hlt, List.getElem?_drop, Nat.add_sub_cancel' hij]
  exact hj

/-- Items of two parts of a line are different blocks. -/
theorem Line.id_ne (h : db.Line (l ++ m)) (hdb : db.Coherent) (hx : x ∈ l) (ha : a ∈ m) :
    a.id ≠ x.id := by
  obtain ⟨i, hi⟩ := mem_iff_getElem?.mp hx
  obtain ⟨j, hj⟩ := mem_iff_getElem?.mp ha
  have hlt := (List.getElem?_eq_some_iff.mp hi).1
  have hi' : (l ++ m)[i]? = some x := by
    rw [List.getElem?_append_left hlt]
    exact hi
  have hj' : (l ++ m)[l.length + j]? = some a := by
    rw [List.getElem?_append_right (Nat.le_add_right _ _), Nat.add_sub_cancel_left]
    exact hj
  have hnum := h.num_add_sub hdb (by omega) hi' hj'
  intro heq
  have hsame := num_eq_of_id heq
  omega

end Freezone.Chain.ForkDatabase
