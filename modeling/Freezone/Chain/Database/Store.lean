import Freezone.Chain.Database.Model

/-!
# The sessions of the chain

The store keeps one session per block that is not committed. Its states are
those of the chain from the head down, block by block, and none of them has a
last irreversible block above the oldest of them: what an applied block makes
irreversible is committed in the same step. Each function of the push is first
given its outcomes.
-/

namespace Freezone.Chain

open Protocol List ChainState

variable {H P W S : Type}
variable {rules : Rules H P W S} {b : SignedBlock H P} {s s' : ChainState H W S}
variable {store : Snapshots (ChainState H W S)}

/-- The numbers of a state are not above its head. -/
structure ChainState.Bounded (s : ChainState H W S) : Prop where
  head : s.headBlockId.num = s.headBlockNumber
  mark : s.lastIrreversibleBlockNum ≤ s.headBlockNumber
  confirmed : ∀ w, s.lastConfirmed w ≤ s.headBlockNumber

/-- A block follows a state by one number. -/
theorem ChainState.Bounded.blockNum (hs : s.Bounded) (hprev : b.previous = s.headBlockId) :
    b.blockNum = s.headBlockNumber + 1 := by
  rw [SignedBlock.blockNum, hprev, hs.head]

/-- The states of the store are those of the chain from the head down, and nothing above the
oldest one is irreversible. -/
structure Stacked (store : Snapshots (ChainState H W S)) : Prop where
  revision : store.revision = store.current.headBlockNumber
  consecutive : store.Consecutive
  height : ∀ (k : Nat) (s : ChainState H W S), store.states[k]? = some s →
    s.headBlockNumber + k = store.current.headBlockNumber
  bounded : ∀ s ∈ store.states, s.Bounded
  mark : ∀ s ∈ store.states,
    s.lastIrreversibleBlockNum + store.saved.length ≤ store.current.headBlockNumber

namespace Stacked

theorem current_mem (store : Snapshots (ChainState H W S)) : store.current ∈ store.states :=
  mem_cons_self

/-- Different states of the store have different heads. -/
theorem eq_of_headBlockId (h : Stacked store) {i j : Nat} {s t : ChainState H W S}
    (hi : store.states[i]? = some s) (hj : store.states[j]? = some t)
    (heq : s.headBlockId = t.headBlockId) : i = j := by
  have hs := h.height i s hi
  have ht := h.height j t hj
  have hsb := (h.bounded s (mem_of_getElem? hi)).head
  have htb := (h.bounded t (mem_of_getElem? hj)).head
  rw [heq] at hsb
  omega

/-- The states of a stack have different head blocks. -/
theorem eq_of_mem (h : Stacked store) {s t : ChainState H W S} (hs : s ∈ store.states)
    (ht : t ∈ store.states) (heq : s.headBlockId = t.headBlockId) : s = t := by
  obtain ⟨i, hi⟩ := mem_iff_getElem?.mp hs
  obtain ⟨j, hj⟩ := mem_iff_getElem?.mp ht
  obtain rfl := h.eq_of_headBlockId hi hj heq
  simpa using hi.symm.trans hj

theorem undo (h : Stacked store) : Stacked store.undo := by
  unfold Snapshots.undo
  split
  · exact h
  rename_i newest older hs
  have hstates : store.states = store.current :: newest.state :: older.map Saved.state := by
    rw [Snapshots.states, hs]
    rfl
  have hheight := h.height
  rw [hstates] at hheight
  have hfirst : newest.state.headBlockNumber + 1 = store.current.headBlockNumber :=
    hheight 1 newest.state rfl
  have hrev := h.revision
  have hundo := h.consecutive.undo
  rw [Snapshots.undo, hs] at hundo
  refine ⟨by simp only; omega, hundo, ?_, ?_, ?_⟩
  · intro k s hk
    have hk' := hheight (k + 1) s (by simpa [Snapshots.states] using hk)
    simp only
    omega
  · intro s hmem
    apply h.bounded
    rw [hstates]
    exact mem_cons_of_mem _ hmem
  · intro s hmem
    have hmark := h.mark s (by rw [hstates]; exact mem_cons_of_mem _ hmem)
    rw [hs, length_cons] at hmark
    simp only
    omega

end Stacked

variable [DecidableEq H] [DecidableEq W] [HeaderHash H P]

/-- A valid block follows the head of the state. -/
theorem Rules.evaluate_eq_some (h : rules.evaluate b s = some s') :
    b.previous = s.headBlockId ∧ ∃ rest rest', rules.before b s = some rest ∧
      rules.after b (ChainState.confirmBlock b (rules.witness b) (rules.scheduled rest)
        { s with rest := rest }) = some rest' ∧ s' =
      { ChainState.confirmBlock b (rules.witness b) (rules.scheduled rest) { s with rest := rest }
        with rest := rest' } := by
  obtain ⟨t, ht, hfin⟩ := Option.bind_eq_some_iff.mp h
  obtain ⟨rest', hafter, rfl⟩ := Option.map_eq_some_iff.mp hfin
  unfold confirm at ht
  split at ht
  · cases ht
  rename_i hprev
  split at ht
  · cases ht
  rename_i rest hbefore
  split at ht
  · cases ht
  · cases ht
    exact ⟨not_not.mp hprev, rest, rest', hbefore, hafter, rfl⟩

/-- The block is the head of the state after it. -/
theorem Rules.evaluate_head (h : rules.evaluate b s = some s') :
    s'.headBlockNumber = b.blockNum ∧ s'.headBlockId = b.id := by
  obtain ⟨-, rest, rest', -, -, rfl⟩ := evaluate_eq_some h
  obtain ⟨mark, hmark⟩ := confirmBlock_frame b (rules.witness b) (rules.scheduled rest)
    { s with rest := rest }
  rw [hmark]
  exact ⟨rfl, rfl⟩

/-- The state after a valid block is bounded again. -/
theorem ChainState.Bounded.evaluate (hs : s.Bounded) (h : rules.evaluate b s = some s') :
    s'.Bounded := by
  obtain ⟨hnum, hid⟩ := Rules.evaluate_head h
  obtain ⟨hprev, rest, rest', -, -, rfl⟩ := Rules.evaluate_eq_some h
  have hnext := hs.blockNum hprev
  refine ⟨by rw [hid, hnum, SignedBlock.id_num], ?_, fun w => ?_⟩
  · rw [hnum]
    exact confirmBlock_mark_le (s := { s with rest := rest }) _ _ hs.mark hs.confirmed hnext
  · rw [hnum]
    exact confirmBlock_confirmed_le (s := { s with rest := rest }) _ _ hs.confirmed hnext w

/-- The saved states after a valid block: the state before it is saved, and the states that have
become irreversible are dropped. -/
theorem Stacked.saved_apply (h : Stacked store) (heval : rules.evaluate b store.current = some s') :
    ((store.start.set s').commit s'.lastIrreversibleBlockNum).saved =
      (⟨store.current, store.revision + 1⟩ :: store.saved).take
        (b.blockNum - s'.lastIrreversibleBlockNum) := by
  have hprev := (Rules.evaluate_eq_some heval).1
  have hnext := (h.bounded _ (current_mem store)).blockNum hprev
  have hrev := h.revision
  rw [(h.consecutive.start.set s').commit_saved]
  simp only [Snapshots.set, Snapshots.start]
  congr 1
  omega

/-- One more valid block. -/
theorem Stacked.apply (h : Stacked store) (heval : rules.evaluate b store.current = some s') :
    Stacked ((store.start.set s').commit s'.lastIrreversibleBlockNum) := by
  have hsaved := h.saved_apply heval
  have hnum := (Rules.evaluate_head heval).1
  have hcur := h.bounded _ (current_mem store)
  have hnext := hcur.blockNum (Rules.evaluate_eq_some heval).1
  have hb' := hcur.evaluate heval
  have hrev := h.revision
  generalize hst : (store.start.set s').commit s'.lastIrreversibleBlockNum = after at hsaved
  have hcurrent : after.current = s' := by rw [← hst]; rfl
  have hrevision : after.revision = store.revision + 1 := by rw [← hst]; rfl
  have hstates : after.states = s' :: store.states.take
    (b.blockNum - s'.lastIrreversibleBlockNum) := by
    rw [Snapshots.states, hsaved, hcurrent, map_take]
    rfl
  have hold : ∀ s ∈ after.states, s = s' ∨ s ∈ store.states := by
    intro s hs
    rw [hstates] at hs
    exact (mem_cons.mp hs).imp_right mem_of_mem_take
  have hlen : after.saved.length ≤ b.blockNum - s'.lastIrreversibleBlockNum ∧
      after.saved.length ≤ store.saved.length + 1 := by
    rw [hsaved, length_take, length_cons]
    omega
  refine ⟨?_, ?_, ?_, ?_, ?_⟩
  · rw [hrevision, hcurrent]
    omega
  · intro k saved hk
    rw [hsaved, List.getElem?_take] at hk
    split at hk
    · have hc := (h.consecutive.start.set s') k saved hk
      rw [hrevision]
      exact hc
    · cases hk
  · intro k s hk
    rw [hstates] at hk
    rw [hcurrent]
    cases k with
    | zero =>
      obtain rfl : s' = s := by simpa using hk
      rfl
    | succ k =>
      rw [List.getElem?_cons_succ, List.getElem?_take] at hk
      split at hk
      · have hh := h.height k s hk
        omega
      · cases hk
  · intro s hs
    rcases hold s hs with rfl | hs
    · exact hb'
    · exact h.bounded s hs
  · intro s hs
    have hmark := hb'.mark
    rw [hcurrent]
    rcases hold s hs with rfl | hs
    · omega
    · have hm := h.mark s hs
      omega

end Freezone.Chain
