import Freezone.Chain.Database.Store
import Freezone.Chain.Evaluation.Model
import Freezone.Core.Checked

/-!
# What the steps of a block do to its state

For each function of the evaluation, what a return says about the checks that it
passed and which parts of the state it may have changed.
-/

namespace Freezone.Chain

open Protocol

variable {H I O G A B W T R : Type}

/-- Pushing required actions adds entries that are not due before the head block. -/
theorem BlockState.pushRequiredActions_eq (flags : Flags) (actions : List (A × Nat))
    (st : BlockState I A B T R) :
    ∃ items, (∀ p ∈ items, st.headBlockTime ≤ p.2) ∧ st.pushRequiredActions flags actions =
      { st with requiredActions := st.requiredActions.pushAll items } := by
  unfold pushRequiredActions
  split
  · exact ⟨[], by simp, rfl⟩
  · refine ⟨actions.map fun p => (p.1, max p.2 st.headBlockTime), ?_, rfl⟩
    intro p hp
    obtain ⟨a, -, rfl⟩ := List.mem_map.mp hp
    exact Nat.le_max_right _ _

namespace Evaluators

variable {ev : Evaluators O G A B W T R} {flags : Flags} {num lib : Nat}
variable {st st' st'' : BlockState I A B T R} {b : BlockContents O G A B W}

/-- Transactions are put into the index, the tokens and the rest of the state change, and required
actions are pushed that are not due before the head block. -/
def Pushes (st : BlockState I A B T R) (trxs : List (I × Nat))
    (st' : BlockState I A B T R) : Prop :=
  ∃ tokens rest items, (∀ p ∈ items, st.headBlockTime ≤ p.2) ∧
    st' = { st with
      tokens := tokens
      rest := rest
      requiredActions := st.requiredActions.pushAll items
      transactions := st.transactions.pushAll trxs }

theorem Pushes.trans {trxs trxs' : List (I × Nat)} (h : Pushes st trxs st')
    (h' : Pushes st' trxs' st'') : Pushes st (trxs ++ trxs') st'' := by
  obtain ⟨tokens, rest, items, hitems, rfl⟩ := h
  obtain ⟨tokens', rest', items', hitems', rfl⟩ := h'
  refine ⟨tokens', rest', items ++ items', ?_, by simp only [TimedQueue.pushAll, List.foldl_append]⟩
  intro p hp
  rcases List.mem_append.mp hp with hp | hp
  · exact hitems p hp
  · exact hitems' p hp

/-- Operations change the tokens and the rest of the state and push required actions. -/
theorem applyOperations_eq_some {ops : List O} (h : ev.applyOperations flags ops st = some st') :
    Pushes st [] st' := by
  induction ops generalizing st with
  | nil =>
    cases h
    exact ⟨_, _, [], by simp, rfl⟩
  | cons op ops ih =>
    unfold applyOperations at h
    split at h
    · cases h
    rename_i tokens rest actions _
    obtain ⟨items, hitems, heq⟩ := BlockState.pushRequiredActions_eq flags actions
      { st with tokens := tokens, rest := rest }
    rw [heq] at h
    have hpush : Pushes st [] _ := ⟨tokens, rest, items, hitems, rfl⟩
    exact hpush.trans (ih h)

/-- The start of a block leaves the actions alone. -/
theorem openBlock_eq (ev : Evaluators O G A B W T R) (num time : Nat)
    (st : BlockState I A B T R) : ∃ rest percent, ev.openBlock num time st =
      { st with rest := rest, requiredActionsPartitionPercent := percent } := by
  unfold openBlock
  split
  · exact ⟨_, _, rfl⟩
  · exact ⟨st.rest, st.requiredActionsPartitionPercent, rfl⟩

section Transactions

variable [DecidableEq I] [TransactionDigest I O]

/-- The checks that an applied transaction has passed. -/
structure Accepts (num : Nat) (trx : SignedTransaction O G) (st : BlockState I A B T R) : Prop where
  unknown : st.isKnownTransaction (trx.id I) = false
  live : 0 < num → st.headBlockTime ≤ trx.expiration

/-- A transaction is applied only if its id is not in the index and, from block 2 on, it has not
expired; it is then in the index. -/
theorem applyTransaction_eq_ok {trx : SignedTransaction O G}
    (h : ev.applyTransaction flags num trx st = .ok st') :
    Accepts num trx st ∧ Pushes st [(trx.id I, trx.expiration)] st' := by
  simp only [applyTransaction, error_ite_eq_ok] at h
  obtain ⟨-, hknown, -, -, -, -, hlive, h⟩ := h
  split at h
  · cases h
  rename_i st1 hops
  cases h
  obtain ⟨tokens, rest, items, hitems, rfl⟩ := applyOperations_eq_some hops
  refine ⟨⟨by simpa using hknown, ?_⟩, tokens, rest, items, hitems, rfl⟩
  intro hnum
  by_contra hlt
  exact hlive ⟨hnum, Nat.lt_of_not_le hlt⟩

/-- The transactions of a block are all in the index after them. -/
theorem applyTransactions_eq_some {trxs : List (SignedTransaction O G)}
    (h : ev.applyTransactions flags num trxs st = some st') :
    Pushes st (trxs.map fun trx => (trx.id I, trx.expiration)) st' := by
  induction trxs generalizing st with
  | nil =>
    cases h
    exact ⟨_, _, [], by simp, rfl⟩
  | cons trx trxs ih =>
    unfold applyTransactions at h
    split at h
    · cases h
    · rename_i st1 happ
      exact (applyTransaction_eq_ok happ).2.trans (ih h)

/-- The first half of a block. -/
theorem applyContents_eq_some [DecidableEq W] (h : ev.applyContents flags num b st = some st') :
    st.headBlockTime < b.timestamp ∧ ∃ rest percent st1,
      ev.applyTransactions flags num b.transactions
        { st with rest := rest, requiredActionsPartitionPercent := percent } = some st1 ∧
      st' = { st1 with
        headBlockTime := b.timestamp
        rest := ev.recordSlots b.timestamp b.witness st1.rest } := by
  unfold applyContents at h
  obtain ⟨rest, percent, hopen⟩ := ev.openBlock_eq num b.timestamp st
  simp only [hopen] at h
  split at h
  · rename_i hadm
    obtain ⟨st1, happ, rfl⟩ := Option.map_eq_some_iff.mp h
    simp only [admits, Bool.and_eq_true, decide_eq_true_eq] at hadm
    exact ⟨hadm.1.1.1.1, _, _, st1, happ, rfl⟩
  · cases h

end Transactions

/-- A required action changes the tokens and the rest of the state and pushes required actions. -/
theorem applyRequiredAction_eq_some {a : A} (h : ev.applyRequiredAction a st = some st') :
    Pushes st [] st' := by
  unfold applyRequiredAction at h
  split at h
  · cases h
  rename_i tokens actions _
  obtain ⟨items, hitems, heq⟩ := BlockState.pushRequiredActions_eq {} actions
    { st with tokens := tokens, rest := ev.requiredEffect a st.tokens st.rest }
  rw [heq] at h
  cases h
  exact ⟨_, _, items, hitems, rfl⟩

theorem applyOptionalActions_frame [DecidableEq B] {actions : List B}
    (h : ev.applyOptionalActions actions st = some st') : ∃ tokens rest queue, st' = { st with
      tokens := tokens
      rest := rest
      optionalActions := queue } := by
  induction actions generalizing st with
  | nil =>
    cases h
    exact ⟨_, _, _, rfl⟩
  | cons a actions ih =>
    unfold applyOptionalActions applyOptionalAction at h
    cases heval : ev.evaluateOptional st.headBlockTime a st.tokens with
    | none => simp [heval] at h
    | some tokens =>
      simp only [heval] at h
      split at h
      · obtain ⟨tokens', rest', queue, rfl⟩ := ih h
        exact ⟨_, _, _, rfl⟩
      · obtain ⟨tokens', rest', queue, rfl⟩ := ih h
        exact ⟨_, _, _, rfl⟩

/-- What the optional actions of a block change. -/
theorem processOptionalActions_frame [DecidableEq B] {actions : List B}
    (h : ev.processOptionalActions lib actions st = some st') : ∃ tokens rest queue, st' = { st with
      tokens := tokens
      rest := rest
      optionalActions := queue } := by
  unfold processOptionalActions at h
  split at h
  · cases h
    exact ⟨_, _, _, rfl⟩
  split at h
  · cases h
  rename_i st1 happ
  obtain ⟨tokens, rest, queue, rfl⟩ := applyOptionalActions_frame happ
  split at h
  · cases h
    exact ⟨_, _, _, rfl⟩
  · cases h
    exact ⟨_, _, _, rfl⟩

/-- The schedule changes the size of a block and the rest. -/
theorem updateWitnessSchedule_eq (ev : Evaluators O G A B W T R) (num : Nat)
    (st : BlockState I A B T R) : ∃ rest size, ev.updateWitnessSchedule num st =
      { st with rest := rest, maximumBlockSize := size } := by
  unfold updateWitnessSchedule
  split
  · exact ⟨_, _, rfl⟩
  · exact ⟨st.rest, st.maximumBlockSize, rfl⟩

/-- The state in which the required actions are matched: the expired transactions are out of the
index, and the block size, the rest of the state and the optional actions are new. -/
theorem prepareActions_eq_some (h : ev.prepareActions num st = some st') :
    ∃ size rest optional, st' = { st with
      transactions := st.transactions.dropBefore st.headBlockTime
      maximumBlockSize := size
      rest := rest
      optionalActions := optional } := by
  unfold prepareActions at h
  obtain ⟨rest, size, hsched⟩ := ev.updateWitnessSchedule_eq num st.clearExpiredTransactions
  simp only [hsched, Option.map_eq_some_iff] at h
  obtain ⟨rest', -, rfl⟩ := h
  exact ⟨size, rest', _, rfl⟩

variable [DecidableEq A]

/-- What a block may leave in the queue. -/
theorem matchRequiredActions_nil {total : Nat}
    (h : ev.matchRequiredActions [] total st = .ok st') : st' = st ∧
      ∀ e, st.requiredActions.first = some e → e.time ≤ st.headBlockTime →
        st.requiredActionsPartitionSize < total + ev.requiredSize e.item := by
  unfold matchRequiredActions at h
  cases hfirst : st.requiredActions.first with
  | none =>
    rw [hfirst] at h
    cases h
    exact ⟨rfl, nofun⟩
  | some pending =>
    simp only [hfirst, error_ite_eq_ok] at h
    obtain ⟨hleft, ⟨⟩⟩ := h
    refine ⟨rfl, ?_⟩
    rintro e ⟨⟩ hdue
    exact not_le.mp fun hle => hleft ⟨hdue, hle⟩

/-- An action of a block is the first pending one. -/
theorem matchRequiredActions_cons {a : A} {actions : List A} {total : Nat}
    (h : ev.matchRequiredActions (a :: actions) total st = .ok st') :
    ∃ pending st1, st.requiredActions.first = some pending ∧
      ev.applyRequiredAction a st = some st1 ∧
      ev.matchRequiredActions actions (total + ev.requiredSize a) { st1 with
        requiredActions := st1.requiredActions.erase pending.id
        performed := st1.performed ++ [⟨pending, st.headBlockTime⟩] } = .ok st' := by
  unfold matchRequiredActions at h
  split at h
  · cases h
  rename_i pending hfirst
  obtain ⟨-, h⟩ := error_ite_eq_ok.mp h
  split at h
  · cases h
  rename_i st1 happ
  exact ⟨pending, st1, hfirst, happ, h⟩

/-- Matching changes the tokens, the rest of the state, the queue and the record of the run. -/
theorem matchRequiredActions_frame {actions : List A} {total : Nat}
    (h : ev.matchRequiredActions actions total st = .ok st') :
    ∃ tokens rest queue performed, st' = { st with
      tokens := tokens
      rest := rest
      requiredActions := queue
      performed := performed } := by
  induction actions generalizing st total with
  | nil =>
    obtain ⟨rfl, -⟩ := matchRequiredActions_nil h
    exact ⟨_, _, _, _, rfl⟩
  | cons a actions ih =>
    obtain ⟨pending, st1, -, happ, h⟩ := matchRequiredActions_cons h
    obtain ⟨tokens, rest, items, -, rfl⟩ := applyRequiredAction_eq_some happ
    obtain ⟨tokens', rest', queue, performed, rfl⟩ := ih h
    exact ⟨_, _, _, _, rfl⟩

variable [DecidableEq B]

/-- The second half of a block. -/
theorem applyProcessing_eq_some (h : ev.applyProcessing num lib b st = some st') :
    ∃ st1 st2 st3, ev.prepareActions num st = some st1 ∧
      ev.matchRequiredActions b.requiredActions 0 st1 = .ok st2 ∧
      ev.processOptionalActions lib b.optionalActions st2 = some st3 ∧
      st' = st3.applyHardforks (ev.dueHardforks st3.headBlockTime) := by
  unfold applyProcessing at h
  split at h
  · cases h
  rename_i st1 hprep
  split at h
  · cases h
  · rename_i st2 hmatch
    obtain ⟨st3, hopt, rfl⟩ := Option.map_eq_some_iff.mp h
    exact ⟨st1, st2, st3, hprep, hmatch, hopt, rfl⟩

variable [DecidableEq I] [DecidableEq W] [TransactionDigest I O]

/-- A block as a whole: the state after its transactions, and then its processing. -/
theorem evaluate_eq_some [DecidableEq H] [HeaderHash H (BlockContents O G A B W)]
    {skip : Bool} {s s' : ChainState H W (BlockState I A B T R)}
    {block : SignedBlock H (BlockContents O G A B W)}
    (h : (ev.blockRules flags skip).evaluate block s = some s') :
    s'.headBlockNumber = block.blockNum ∧ ∃ st,
      ev.applyContents flags s.headBlockNumber block.payload s.rest = some st ∧
      ev.applyProcessing block.blockNum s'.lastIrreversibleBlockNum block.payload st =
        some s'.rest := by
  have hnum := (Rules.evaluate_head h).1
  obtain ⟨-, st, rest', hbefore, hafter, rfl⟩ := Rules.evaluate_eq_some h
  obtain ⟨mark, hmark⟩ := ChainState.confirmBlock_frame block _ _ { s with rest := st }
  rw [hmark] at hafter hnum ⊢
  refine ⟨hnum, st, hbefore, ?_⟩
  rw [← hnum]
  exact hafter

end Evaluators

end Freezone.Chain
