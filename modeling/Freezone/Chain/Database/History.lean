import Freezone.Chain.Database.Floor

/-!
# The main chain behind the store and the log

The blocks of the main chain are the logged ones and, above them, one block per
session. Each session's block leads from its saved state to the next state, and
the whole is one chain of previous ids that ends at the head.
-/

namespace Freezone.Chain

open Protocol List

variable {H P W S : Type} [DecidableEq H] [DecidableEq W] [HeaderHash H P]
variable {rules : Rules H P W S} {s : ChainState H W S} {saved : List (Saved (ChainState H W S))}
variable {items : List (ForkItem H P)} {x a : ForkItem H P}

/-- The state `s` comes out of the saved states by the blocks of the items, newest first. -/
def Produced (rules : Rules H P W S) :
    ChainState H W S → List (Saved (ChainState H W S)) → List (ForkItem H P) → Prop
  | _, [], [] => True
  | s, before :: saved, a :: items =>
    rules.evaluate a.data before.state = some s ∧ Produced rules before.state saved items
  | _, _, _ => False

/-- Each saved state belongs to one block. -/
theorem Produced.length_eq (h : Produced rules s saved items) : items.length = saved.length := by
  induction saved generalizing s items with
  | nil =>
    cases items with
    | nil => rfl
    | cons a items => exact absurd h (by simp [Produced])
  | cons before saved ih =>
    cases items with
    | nil => exact absurd h (by simp [Produced])
    | cons a items => rw [length_cons, length_cons, ih h.2]

/-- Forgetting the oldest states. -/
theorem Produced.take (h : Produced rules s saved items) (k : Nat) :
    Produced rules s (saved.take k) (items.take k) := by
  induction saved generalizing s items k with
  | nil =>
    cases items with
    | nil => simpa using h
    | cons a items => exact absurd h (by simp [Produced])
  | cons before saved ih =>
    cases items with
    | nil => exact absurd h (by simp [Produced])
    | cons a items =>
      cases k with
      | zero => simp [Produced]
      | succ k => exact ⟨h.1, ih h.2 k⟩

/-- The logged blocks and the blocks of the sessions are one chain that ends at the head. -/
structure History (rules : Rules H P W S) (store : Snapshots (ChainState H W S))
    (log : LoggedBlocks H P) (items : List (ForkItem H P)) : Prop where
  stacked : Stacked store
  produced : Produced rules store.current store.saved items
  /-- Every block is either logged or has a session. -/
  logged : log.blocks.length + store.saved.length = store.current.headBlockNumber
  chained : (items.map ForkItem.data ++ log.blocks).IsChain fun b p => b.previous = p.id
  tip : ∀ b ∈ (items.map ForkItem.data ++ log.blocks).head?, b.id = store.current.headBlockId

namespace History

variable {store : Snapshots (ChainState H W S)} {log log' : LoggedBlocks H P}

/-- The log ends where the sessions begin. -/
theorem floor_eq (h : History rules store log items) : floor store = log.blocks.length := by
  have hlogged := h.logged
  unfold floor
  omega

theorem length_items (h : History rules store log items) : items.length = store.saved.length :=
  h.produced.length_eq

/-- Undoing a session takes its block off the chain. -/
theorem undo (h : History rules store log (a :: items)) : History rules store.undo log items := by
  cases hs : store.saved with
  | nil =>
    have hlen := h.length_items
    rw [hs] at hlen
    cases hlen
  | cons newest older =>
    have hundo : store.undo = ⟨newest.state, store.revision - 1, older⟩ := by
      rw [Snapshots.undo, hs]
    have hprod := h.produced
    rw [hs] at hprod
    have hprev := (Rules.evaluate_eq_some hprod.1).1
    have hnum := h.stacked.height 1 newest.state (by rw [Snapshots.states, hs]; rfl)
    have hlog := h.logged
    rw [hs, length_cons] at hlog
    have hst := h.stacked.undo
    rw [hundo] at hst ⊢
    refine ⟨hst, hprod.2, ?_, ?_, ?_⟩
    · simp only
      omega
    · have hc := h.chained
      exact hc.tail
    · -- the previous block of the popped one is the new head
      intro b hb
      have hc := h.chained
      rw [map_cons, cons_append, isChain_cons] at hc
      exact (hc.1 b hb).symm.trans hprev

theorem iterate_undo (h : History rules store log items) {k : Nat} (hk : k ≤ items.length) :
    History rules (Snapshots.undo^[k] store) log (items.drop k) := by
  induction k generalizing store items with
  | zero => exact h
  | succ k ih =>
    cases items with
    | nil => cases hk
    | cons a items =>
      exact ih h.undo (Nat.le_of_succ_le_succ hk)

/-- One more valid block: what it makes irreversible moves from the sessions to the log. -/
theorem apply (h : History rules store log items)
    (heval : rules.evaluate x.data store.current = some s)
    (hlog : log'.blocks = ((x :: items).drop (x.num - s.lastIrreversibleBlockNum)).map
      ForkItem.data ++ log.blocks) :
    History rules ((store.start.set s).commit s.lastIrreversibleBlockNum) log'
      ((x :: items).take (x.num - s.lastIrreversibleBlockNum)) := by
  have hsaved := h.stacked.saved_apply heval
  have hhead := Rules.evaluate_head heval
  have hprev := (Rules.evaluate_eq_some heval).1
  have hnext := (h.stacked.bounded _ (Stacked.current_mem store)).blockNum hprev
  have hlen := h.length_items
  have hlogged := h.logged
  have hblocks : ((x :: items).take (x.num - s.lastIrreversibleBlockNum)).map ForkItem.data ++
      log'.blocks = x.data :: (items.map ForkItem.data ++ log.blocks) := by
    rw [hlog, ← append_assoc, ← map_append, take_append_drop]
    rfl
  have hcur : ((store.start.set s).commit s.lastIrreversibleBlockNum).current = s := rfl
  refine ⟨h.stacked.apply heval, ?_, ?_, ?_, ?_⟩
  · rw [hsaved, hcur]
    have hprod : Produced rules s (⟨store.current, store.revision + 1⟩ :: store.saved)
        (x :: items) := ⟨heval, h.produced⟩
    exact hprod.take _
  · rw [hsaved, hcur, hlog]
    have hx : x.num = x.data.blockNum := rfl
    simp only [length_append, length_map, length_drop, length_take,
      length_cons]
    omega
  · rw [hblocks, isChain_cons]
    refine ⟨?_, h.chained⟩
    intro b hb
    rw [hprev, h.tip b hb]
  · rw [hblocks, hcur, hhead.2]
    intro b hb
    obtain rfl : x.data = b := by simpa using hb
    rfl

end History

/-- The states of a valid list of blocks and of the blocks after it. -/
theorem Rules.reached_append {l m : List (SignedBlock H P)}
    (h : (rules.reached s l).length = l.length) : rules.reached s (l ++ m) =
      rules.reached s l ++ rules.reached ((rules.reached s l).getLast?.getD s) m := by
  induction l generalizing s with
  | nil => rfl
  | cons b l ih =>
    obtain ⟨t, heval, h⟩ := evaluate_of_reached h
    have hcons : ∀ l', rules.reached s (b :: l') = t :: rules.reached t l' := by
      intro l'
      rw [reached, heval]
    rw [cons_append, hcons, hcons, ih h, cons_append, getLast?_cons]
    rfl

/-- The last state of a valid list of blocks has the last block as head. -/
theorem Rules.reached_getLast {l : List (SignedBlock H P)} {b : SignedBlock H P}
    (h : (rules.reached s l).length = l.length) (hb : l.getLast? = some b) :
    ∃ t, (rules.reached s l).getLast? = some t ∧ t.headBlockNumber = b.blockNum ∧
      t.headBlockId = b.id := by
  induction l generalizing s with
  | nil => cases hb
  | cons c l ih =>
    obtain ⟨t, heval, h⟩ := evaluate_of_reached h
    rw [reached, heval]
    cases l with
    | nil =>
      obtain rfl : c = b := by simpa using hb
      exact ⟨t, rfl, evaluate_head heval⟩
    | cons d l =>
      obtain ⟨u, hu, hhead⟩ := ih h hb
      refine ⟨u, ?_, hhead⟩
      rw [getLast?_cons, hu]
      rfl

/-- The blocks of the newest sessions lead from the state below them back to the head. -/
theorem History.reached_back {store : Snapshots (ChainState H W S)} {log : LoggedBlocks H P}
    (h : History rules store log items) {k : Nat} (hk : k ≤ items.length) :
    (rules.reached (Snapshots.undo^[k] store).current
      ((items.take k).reverse.map ForkItem.data)).length = k ∧
    (rules.reached (Snapshots.undo^[k] store).current
      ((items.take k).reverse.map ForkItem.data)).getLast?.getD (Snapshots.undo^[k] store).current =
      store.current ∧
    ∀ t ∈ rules.reached (Snapshots.undo^[k] store).current
      ((items.take k).reverse.map ForkItem.data), t ∈ store.states := by
  induction k generalizing store items with
  | zero => exact ⟨rfl, rfl, by simp [Rules.reached]⟩
  | succ k ih =>
    cases items with
    | nil => cases hk
    | cons a items =>
      obtain ⟨hlen, hlast, hmem⟩ := ih h.undo (Nat.le_of_succ_le_succ hk)
      obtain ⟨hlast', hstates⟩ : rules.evaluate a.data store.undo.current = some store.current ∧
          store.states = store.current :: store.undo.states := by
        have hprod := h.produced
        cases hs : store.saved with
        | nil =>
          rw [hs] at hprod
          exact absurd hprod (by simp [Produced])
        | cons newest older =>
          rw [hs] at hprod
          have hundo : store.undo = ⟨newest.state, store.revision - 1, older⟩ := by
            rw [Snapshots.undo, hs]
          rw [hundo, Snapshots.states, Snapshots.states, hs]
          exact ⟨hprod.1, rfl⟩
      have htake : ((items.take k).reverse.map ForkItem.data).length = k := by
        rw [length_map, length_reverse, length_take]
        exact Nat.min_eq_left (Nat.le_of_succ_le_succ hk)
      rw [Function.iterate_succ_apply, take_succ_cons, reverse_cons, map_append,
        Rules.reached_append (hlen.trans htake.symm), hlast, map_singleton, Rules.reached,
        hlast']
      refine ⟨?_, ?_, ?_⟩
      · rw [length_append, hlen]
        rfl
      · rw [getLast?_append]
        rfl
      intro t ht
      rw [hstates]
      rcases mem_append.mp ht with ht | ht
      · exact mem_cons_of_mem _ (hmem t ht)
      · obtain rfl : t = store.current := by simpa [Rules.reached] using ht
        exact mem_cons_self

end Freezone.Chain
