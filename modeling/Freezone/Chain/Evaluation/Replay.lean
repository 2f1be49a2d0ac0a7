import Freezone.Chain.Evaluation.Node
import Freezone.Chain.Evaluation.Steps

/-!
# No transaction is applied twice

A transaction that was applied is either still in the index, where a second one
with its id is refused as a duplicate, or its expiration is before the head, where
the second one is refused as expired. The index drops an entry only when its
expiration is before the new head time, and a transaction is applied only at a
head time not after its expiration, so no time is left between the two checks.
-/

namespace Freezone.Chain

open Protocol List

/-- The state after a chain of blocks that are all valid. -/
def Rules.evaluateAll {H P W S : Type} [DecidableEq H] [DecidableEq W] [HeaderHash H P]
    (rules : Rules H P W S) : List (SignedBlock H P) → ChainState H W S → Option (ChainState H W S)
  | [], s => some s
  | b :: blocks, s => (rules.evaluate b s).bind (evaluateAll rules blocks)

namespace Evaluators

variable {H I O G A B W T R : Type} [DecidableEq I] [TransactionDigest I O]
variable {ev : Evaluators O G A B W T R} {flags : Flags} {num : Nat}
variable {st st' : BlockState I A B T R} {b : BlockContents O G A B W}
variable {applied : List (SignedTransaction O G)}

/-- The applied transactions have different ids, and each of them is in the index or has
expired. On block 1 nothing has been dropped from the index. -/
structure Deduplicates (num : Nat) (applied : List (SignedTransaction O G))
    (st : BlockState I A B T R) : Prop where
  nodup : (applied.map (SignedTransaction.id I)).Nodup
  covered : ∀ trx ∈ applied,
    (∃ e ∈ st.transactions.entries, e.item = trx.id I ∧ e.time = trx.expiration) ∨
      0 < num ∧ trx.expiration < st.headBlockTime

/-- One transaction. -/
theorem Deduplicates.applyTransaction (h : Deduplicates num applied st)
    {trx : SignedTransaction O G} (happ : ev.applyTransaction flags num trx st = .ok st') :
    Deduplicates num (applied ++ [trx]) st' := by
  obtain ⟨hacc, tokens, rest, items, -, rfl⟩ := applyTransaction_eq_ok happ
  refine ⟨?_, ?_⟩
  · rw [map_append, map_singleton, nodup_append]
    refine ⟨h.nodup, nodup_singleton _, ?_⟩
    intro id hid id' hid' heq
    obtain rfl := mem_singleton.mp hid'
    obtain ⟨old, hold, hid⟩ := mem_map.mp hid
    rw [heq] at hid
    have hexp : old.expiration = trx.expiration :=
      congrArg Transaction.expiration (TransactionDigest.injective hid)
    rcases h.covered old hold with ⟨e, he, hitem, -⟩ | ⟨hnum, hlt⟩
    · have hknown : st.isKnownTransaction (trx.id I) = true :=
        TimedQueue.holds_iff.mpr ⟨e, he, hitem.trans hid⟩
      rw [hacc.unknown] at hknown
      cases hknown
    · have hlive := hacc.live hnum
      omega
  · intro t ht
    rcases mem_append.mp ht with ht | ht
    · rcases h.covered t ht with ⟨e, he, hitem, htime⟩ | hexp
      · exact .inl ⟨e, TimedEntry.mem_insert.mpr (Or.inr he), hitem, htime⟩
      · exact .inr hexp
    · obtain rfl := mem_singleton.mp ht
      exact .inl ⟨_, TimedEntry.mem_insert.mpr (Or.inl rfl), rfl, rfl⟩

/-- The transactions of a block. -/
theorem Deduplicates.applyTransactions {trxs : List (SignedTransaction O G)}
    (h : Deduplicates num applied st) (happ : ev.applyTransactions flags num trxs st = some st') :
    Deduplicates num (applied ++ trxs) st' := by
  induction trxs generalizing applied st with
  | nil =>
    cases happ
    rw [append_nil]
    exact h
  | cons trx trxs ih =>
    unfold Evaluators.applyTransactions at happ
    split at happ
    · cases happ
    · rename_i st1 hone
      have hrest := ih (h.applyTransaction hone) happ
      rw [append_assoc] at hrest
      exact hrest

variable [DecidableEq A] [DecidableEq B] [DecidableEq W]

/-- A block: its time is after the head, and the index keeps what has not expired by then. -/
theorem Deduplicates.evaluate [DecidableEq H] [HeaderHash H (BlockContents O G A B W)]
    {skip : Bool} {s s' : ChainState H W (BlockState I A B T R)}
    {block : SignedBlock H (BlockContents O G A B W)}
    (h : Deduplicates s.headBlockNumber applied s.rest)
    (heval : (ev.blockRules flags skip).evaluate block s = some s') :
    Deduplicates s'.headBlockNumber (applied ++ block.payload.transactions) s'.rest := by
  obtain ⟨hnum, st, hcontents, hprocess⟩ := evaluate_eq_some heval
  obtain ⟨hlater, rest1, percent, st1, htrxs, rfl⟩ := applyContents_eq_some hcontents
  have hopen : Deduplicates s.headBlockNumber applied
      { s.rest with rest := rest1, requiredActionsPartitionPercent := percent } :=
    ⟨h.nodup, h.covered⟩
  have htxs := hopen.applyTransactions htrxs
  obtain ⟨tokens, rest, items, -, hst1⟩ := applyTransactions_eq_some htrxs
  have htime : st1.headBlockTime = s.rest.headBlockTime := by rw [hst1]
  obtain ⟨st2, st3, st4, hprep, hmatch, hopt, hs'⟩ := applyProcessing_eq_some hprocess
  obtain ⟨size, rest', optional, rfl⟩ := prepareActions_eq_some hprep
  obtain ⟨tokens2, rest2, queue2, performed2, rfl⟩ := matchRequiredActions_frame hmatch
  obtain ⟨tokens3, rest3, queue3, rfl⟩ := processOptionalActions_frame hopt
  refine ⟨htxs.nodup, ?_⟩
  have hpos : 0 < s'.headBlockNumber := by
    rw [hnum]
    exact Nat.succ_pos _
  rw [hs']
  intro trx htrx
  rcases htxs.covered trx htrx with ⟨e, he, hitem, hexp⟩ | ⟨-, hexp⟩
  · rcases TimedQueue.mem_dropBefore he block.payload.timestamp with hkept | hlt
    · exact .inl ⟨e, hkept, hitem, hexp⟩
    · exact .inr ⟨hpos, hexp ▸ hlt⟩
  · refine .inr ⟨hpos, ?_⟩
    have hbefore : trx.expiration < s.rest.headBlockTime := htime ▸ hexp
    exact hbefore.trans hlater

/-- A chain of blocks. -/
theorem Deduplicates.evaluateAll [DecidableEq H] [HeaderHash H (BlockContents O G A B W)]
    {skip : Bool} {s s' : ChainState H W (BlockState I A B T R)}
    {blocks : List (SignedBlock H (BlockContents O G A B W))}
    (h : Deduplicates s.headBlockNumber applied s.rest)
    (heval : (ev.blockRules flags skip).evaluateAll blocks s = some s') :
    Deduplicates s'.headBlockNumber
      (applied ++ blocks.flatMap fun b => b.payload.transactions) s'.rest := by
  induction blocks generalizing applied s with
  | nil =>
    cases heval
    rw [flatMap_nil, append_nil]
    exact h
  | cons b blocks ih =>
    obtain ⟨s1, hone, hrest⟩ := Option.bind_eq_some_iff.mp heval
    rw [flatMap_cons, ← append_assoc]
    exact ih (h.evaluate hone) hrest

/-- On every chain of valid blocks from the genesis, whatever their times and contents and the
expirations of their transactions, no transaction id occurs twice. -/
theorem transaction_ids_nodup_of_evaluateAll [DecidableEq H] [Inhabited H]
    [HeaderHash H (BlockContents O G A B W)] (ev : Evaluators O G A B W T R) (flags : Flags)
    (skip : Bool) (st : BlockState I A B T R)
    (blocks : List (SignedBlock H (BlockContents O G A B W)))
    (s' : ChainState H W (BlockState I A B T R))
    (h : (ev.blockRules flags skip).evaluateAll blocks (.genesis st) = some s') :
    ((blocks.flatMap fun b => b.payload.transactions).map (SignedTransaction.id I)).Nodup := by
  have hstart : Deduplicates (ChainState.genesis (H := H) (W := W) st).headBlockNumber
      ([] : List (SignedTransaction O G)) (ChainState.genesis (H := H) (W := W) st).rest :=
    ⟨nodup_nil, by simp⟩
  have hend := (hstart.evaluateAll h).nodup
  exact hend

/-- Two blocks, each with an account that is claimed for the fee. -/
def claimedTwice : List (SignedBlock Nat
    (BlockContents ClaimAccount Unit (Sst.Action Nat) Unit Nat)) :=
  [⟨⟨0, 0⟩, ⟨3, 1, [claiming 60 [⟨5, 3000⟩]], [], [], 150⟩⟩,
    ⟨⟨1, 3⟩, ⟨6, 1, [claiming 90 [⟨5, 3000⟩]], [], [], 150⟩⟩]

/-- The chain of those blocks. -/
theorem transaction_ids_nodup_claimedTwice :
    ((claimedTwice.flatMap fun b => b.payload.transactions).map
      (SignedTransaction.id (Transaction ClaimAccount))).Nodup :=
  transaction_ids_nodup_of_evaluateAll nodeEvaluators {} false
    (nodeState 65536 .empty ⟨[], [], []⟩) claimedTwice _ rfl

end Evaluators

end Freezone.Chain
