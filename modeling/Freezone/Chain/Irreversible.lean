import Freezone.Core.NthElement
import Freezone.Protocol.Block

/-!
# The last irreversible block

The part of the chain state that decides irreversibility: the head block, the
last irreversible block number and the last block confirmed by each witness. Up
to the start of miner voting the last irreversible block trails the head by the
number of witnesses; afterwards it is raised to the block that three quarters of
the scheduled witnesses have confirmed.
-/

namespace Freezone.Chain

open Protocol NthElement

/-- `freezone_START_MINER_VOTING_BLOCK`: 30 days of blocks three seconds apart. -/
def startMinerVotingBlock : Nat := 24 * 60 * 60 / 3 * 30

/-- `freezone_MAX_WITNESSES`. -/
def maxWitnesses : Nat := 21

/-- `freezone_100_PERCENT`. -/
def percent100 : Nat := 10000

/-- `freezone_IRREVERSIBLE_THRESHOLD`. -/
def irreversibleThreshold : Nat := 75 * (percent100 / 100)

/-- The position from which on `n` sorted confirmations meet the threshold. -/
def irreversibleOffset (n : Nat) : Nat := (percent100 - irreversibleThreshold) * n / percent100

/-- The offset is a quarter of the witnesses. -/
theorem irreversibleOffset_eq (n : Nat) : irreversibleOffset n = n / 4 := by
  rw [irreversibleOffset, show percent100 - irreversibleThreshold = 2500 from rfl,
    show percent100 = 2500 * 4 from rfl, Nat.mul_div_mul_left _ _ (by omega)]

/-- The state of the chain: the fields that block processing itself uses, and the rest. -/
structure ChainState (H W S : Type) where
  headBlockNumber : Nat
  headBlockId : BlockId H
  lastIrreversibleBlockNum : Nat
  /-- `last_confirmed_block_num` of each witness. -/
  lastConfirmed : W → Nat
  rest : S

namespace ChainState

variable {H P W S : Type} [HeaderHash H P] [DecidableEq W]

/-- The state before the first block. -/
def genesis [Inhabited H] (rest : S) : ChainState H W S where
  headBlockNumber := 0
  headBlockId := BlockId.zero
  lastIrreversibleBlockNum := 0
  lastConfirmed _ := 0
  rest := rest

/-- `update_global_dynamic_data`: the block becomes the head. -/
def updateGlobalDynamicData (b : SignedBlock H P) (s : ChainState H W S) : ChainState H W S :=
  { s with headBlockNumber := b.blockNum, headBlockId := b.id }

/-- `update_signing_witness`: the signer has confirmed the block. -/
def updateSigningWitness (signer : W) (b : SignedBlock H P) (s : ChainState H W S) :
    ChainState H W S :=
  { s with lastConfirmed := Function.update s.lastConfirmed signer b.blockNum }

/-- `update_last_irreversible_block`. -/
def updateLastIrreversibleBlock (scheduled : List W) (s : ChainState H W S) : ChainState H W S :=
  if s.headBlockNumber < startMinerVotingBlock then
    if maxWitnesses < s.headBlockNumber then
      { s with lastIrreversibleBlockNum := s.headBlockNumber - maxWitnesses }
    else s
  else
    match nthElement (scheduled.map s.lastConfirmed) (irreversibleOffset scheduled.length) with
    | none => s
    | some newLastIrreversible =>
      if s.lastIrreversibleBlockNum < newLastIrreversible then
        { s with lastIrreversibleBlockNum := newLastIrreversible }
      else s

/-- The bookkeeping of one applied block, in the order of `_apply_block`. -/
def confirmBlock (b : SignedBlock H P) (signer : W) (scheduled : List W) (s : ChainState H W S) :
    ChainState H W S :=
  updateLastIrreversibleBlock scheduled (updateSigningWitness signer b
      (updateGlobalDynamicData b s))

/-- A block becomes the head, is confirmed by its signer and may move the mark. -/
theorem confirmBlock_frame (b : SignedBlock H P) (signer : W) (scheduled : List W)
    (s : ChainState H W S) : ∃ mark, confirmBlock b signer scheduled s =
      { s with
        headBlockNumber := b.blockNum
        headBlockId := b.id
        lastConfirmed := Function.update s.lastConfirmed signer b.blockNum
        lastIrreversibleBlockNum := mark } := by
  unfold confirmBlock updateLastIrreversibleBlock
  split
  · split
    · exact ⟨_, rfl⟩
    · exact ⟨s.lastIrreversibleBlockNum, rfl⟩
  · split
    · exact ⟨s.lastIrreversibleBlockNum, rfl⟩
    · split
      · exact ⟨_, rfl⟩
      · exact ⟨s.lastIrreversibleBlockNum, rfl⟩

/-- The states of one chain: blocks are applied in order, each with its own signer and schedule,
and in between the confirmations are any numbers of applied blocks. -/
inductive OnChain (P : Type) [HeaderHash H P] [Inhabited H] : ChainState H W S → Prop
  | genesis (rest : S) : OnChain P (ChainState.genesis rest)
  | confirmations {s : ChainState H W S} (h : OnChain P s) (confirmed : W → Nat) (rest : S)
    (hc : ∀ w, confirmed w ≤ s.headBlockNumber) :
    OnChain P { s with lastConfirmed := confirmed, rest := rest }
  | block {s : ChainState H W S} (h : OnChain P s) (b : SignedBlock H P) (signer : W)
    (scheduled : List W) (hnext : b.blockNum = s.headBlockNumber + 1) :
    OnChain P (confirmBlock b signer scheduled s)

/-- Confirmations and the mark are not above the head, and the mark trails it before voting. -/
structure Marked (s : ChainState H W S) : Prop where
  mark_le : s.lastIrreversibleBlockNum ≤ s.headBlockNumber
  confirmed_le : ∀ w, s.lastConfirmed w ≤ s.headBlockNumber
  trails : s.headBlockNumber < startMinerVotingBlock →
    s.lastIrreversibleBlockNum = s.headBlockNumber - maxWitnesses

variable {s : ChainState H W S} {b : SignedBlock H P} {signer : W} {scheduled : List W}

@[simp] theorem confirmBlock_headBlockNumber :
    (confirmBlock b signer scheduled s).headBlockNumber = b.blockNum := by
  obtain ⟨mark, h⟩ := confirmBlock_frame b signer scheduled s
  rw [h]

theorem confirmBlock_lastConfirmed : (confirmBlock b signer scheduled s).lastConfirmed =
      Function.update s.lastConfirmed signer b.blockNum := by
  obtain ⟨mark, h⟩ := confirmBlock_frame b signer scheduled s
  rw [h]

section Mark

variable (signer : W) (scheduled : List W)

/-- No witness has confirmed a block beyond the head. -/
theorem confirmBlock_confirmed_le (h : ∀ w, s.lastConfirmed w ≤ s.headBlockNumber)
    (hnext : b.blockNum = s.headBlockNumber + 1) (w : W) :
    (confirmBlock b signer scheduled s).lastConfirmed w ≤ b.blockNum := by
  rw [confirmBlock_lastConfirmed, Function.update_apply]
  split
  · exact le_rfl
  · have hw := h w
    omega

/-- The mark after a block before miner voting. -/
theorem confirmBlock_mark_of_not_voting (h : b.blockNum < startMinerVotingBlock) :
    (confirmBlock b signer scheduled s).lastIrreversibleBlockNum =
      if maxWitnesses < b.blockNum then b.blockNum - maxWitnesses
      else s.lastIrreversibleBlockNum := by
  unfold confirmBlock updateLastIrreversibleBlock
  rw [if_pos (by exact h)]
  exact apply_ite lastIrreversibleBlockNum _ _ _

/-- The mark after a block with miner voting stays or is raised to a confirmed block. -/
theorem confirmBlock_mark_of_voting (h : startMinerVotingBlock ≤ b.blockNum) :
    (confirmBlock b signer scheduled s).lastIrreversibleBlockNum = s.lastIrreversibleBlockNum ∨
      s.lastIrreversibleBlockNum < (confirmBlock b signer scheduled s).lastIrreversibleBlockNum ∧
      (∃ w ∈ scheduled, (confirmBlock b signer scheduled s).lastIrreversibleBlockNum =
        (confirmBlock b signer scheduled s).lastConfirmed w) ∧
      scheduled.length - scheduled.length / 4 ≤ scheduled.countP fun w =>
        (confirmBlock b signer scheduled s).lastIrreversibleBlockNum ≤
          (confirmBlock b signer scheduled s).lastConfirmed w := by
  rw [confirmBlock_lastConfirmed]
  unfold confirmBlock updateLastIrreversibleBlock
  rw [if_neg (by exact Nat.not_lt.mpr h)]
  split
  · exact .inl rfl
  rename_i new hnew
  split_ifs with hlt
  · refine .inr ⟨hlt, ?_, ?_⟩
    · obtain ⟨w, hw, heq⟩ := List.mem_map.mp (mem_of_nthElement hnew)
      exact ⟨w, hw, heq.symm⟩
    · have hcount := length_sub_le_countP hnew
      rw [List.length_map, List.countP_map, irreversibleOffset_eq] at hcount
      exact hcount
  · exact .inl rfl

/-- The irreversible block does not pass the head. -/
theorem confirmBlock_mark_le (hmark : s.lastIrreversibleBlockNum ≤ s.headBlockNumber)
    (hconf : ∀ w, s.lastConfirmed w ≤ s.headBlockNumber)
    (hnext : b.blockNum = s.headBlockNumber + 1) :
    (confirmBlock b signer scheduled s).lastIrreversibleBlockNum ≤ b.blockNum := by
  -- the mark follows the head before miner voting and a confirmation afterwards
  by_cases hv : b.blockNum < startMinerVotingBlock
  · rw [confirmBlock_mark_of_not_voting signer scheduled hv]
    split <;> omega
  · rcases confirmBlock_mark_of_voting (s := s) signer scheduled (Nat.le_of_not_lt hv) with
      heq | ⟨-, ⟨w, -, heq⟩, -⟩
    · omega
    · rw [heq]
      exact confirmBlock_confirmed_le signer scheduled hconf hnext w

/-- One block raises the mark or leaves it, and keeps the invariant. -/
theorem Marked.confirmBlock (h : Marked s) (hnext : b.blockNum = s.headBlockNumber + 1) :
    Marked (confirmBlock b signer scheduled s) ∧
      s.lastIrreversibleBlockNum ≤
        (ChainState.confirmBlock b signer scheduled s).lastIrreversibleBlockNum := by
  have hmark := h.mark_le
  have hnum : (ChainState.confirmBlock b signer scheduled s).headBlockNumber = b.blockNum :=
    confirmBlock_headBlockNumber
  have hle := (confirmBlock_mark_le signer scheduled hmark h.confirmed_le hnext).trans_eq hnum.symm
  have hconf := fun w =>
    (confirmBlock_confirmed_le signer scheduled h.confirmed_le hnext w).trans_eq hnum.symm
  by_cases hv : b.blockNum < startMinerVotingBlock
  · have hnew := confirmBlock_mark_of_not_voting (s := s) signer scheduled hv
    have htrail := h.trails (by omega)
    -- below the number of witnesses the mark is still 0
    have hmax : maxWitnesses = 21 := rfl
    have heq : (ChainState.confirmBlock b signer scheduled s).lastIrreversibleBlockNum =
        b.blockNum - maxWitnesses := by
      rw [hnew]
      split <;> omega
    exact ⟨⟨hle, hconf, fun _ => by rw [hnum, heq]⟩, by omega⟩
  · have hnew := confirmBlock_mark_of_voting (s := s) signer scheduled (Nat.le_of_not_lt hv)
    refine ⟨⟨hle, hconf, fun hlt => absurd (hnum ▸ hlt) hv⟩, ?_⟩
    rcases hnew with heq | ⟨hlt, -, -⟩ <;> omega

end Mark

/-- Every state of a chain keeps the invariant. -/
theorem OnChain.marked [Inhabited H] (h : OnChain P s) : Marked s := by
  induction h with
  | genesis rest => exact ⟨le_rfl, fun _ => le_rfl, fun _ => rfl⟩
  | confirmations _ confirmed rest hc ih => exact ⟨ih.mark_le, hc, ih.trails⟩
  | block _ b signer scheduled hnext ih => exact (ih.confirmBlock signer scheduled hnext).1

/-- On every chain, with every schedule and all confirmations, one more block never lowers the
last irreversible block and never sets it above the head; once miner voting has started, a raise
to a block is backed by the confirmations of three quarters of the scheduled witnesses. -/
theorem confirmBlock_mark_monotone_bounded_supported [Inhabited H] (s : ChainState H W S)
    (hs : OnChain P s) (b : SignedBlock H P) (hnext : b.blockNum = s.headBlockNumber + 1)
    (signer : W) (scheduled : List W) :
    let s' := confirmBlock b signer scheduled s
    s.lastIrreversibleBlockNum ≤ s'.lastIrreversibleBlockNum ∧
      s'.lastIrreversibleBlockNum ≤ s'.headBlockNumber ∧
      (startMinerVotingBlock ≤ s'.headBlockNumber →
        s.lastIrreversibleBlockNum < s'.lastIrreversibleBlockNum →
        scheduled.length - scheduled.length / 4 ≤
          scheduled.countP fun w => s'.lastIrreversibleBlockNum ≤ s'.lastConfirmed w) := by
  intro s'
  obtain ⟨hmarked, hle⟩ := hs.marked.confirmBlock signer scheduled hnext
  refine ⟨hle, hmarked.mark_le, ?_⟩
  intro hv hlt
  rw [confirmBlock_headBlockNumber] at hv
  rcases confirmBlock_mark_of_voting (s := s) signer scheduled hv with heq | ⟨-, -, hcount⟩
  · exact absurd heq (Nat.ne_of_gt hlt)
  · exact hcount

/-- There are chains of every length. -/
theorem exists_onChain (n : Nat) :
    ∃ s : ChainState Nat Nat Unit, OnChain Nat s ∧ s.headBlockNumber = n := by
  induction n with
  | zero => exact ⟨_, .genesis (), rfl⟩
  | succ n ih =>
    obtain ⟨s, hs, hn⟩ := ih
    exact ⟨_, hs.block ⟨⟨n, 0⟩, 7⟩ 1 [1] (by rw [hn]; rfl), confirmBlock_headBlockNumber⟩

/-- Four witnesses, the first of whom signs block 864000: the mark rises from 863978 to 863996,
which three of them have confirmed. -/
theorem confirmBlock_mark_fourWitnesses : ∃ s : ChainState Nat Nat Unit, OnChain Nat s ∧
    s.headBlockNumber = 863999 ∧ s.lastIrreversibleBlockNum = 863978 ∧
    let s' := confirmBlock (P := Nat) ⟨⟨863999, 0⟩, 7⟩ 1 [1, 2, 3, 4] s
    s'.lastIrreversibleBlockNum = 863996 ∧ s'.lastIrreversibleBlockNum ≤ s'.headBlockNumber ∧
      3 ≤ [1, 2, 3, 4].countP fun w => s'.lastIrreversibleBlockNum ≤ s'.lastConfirmed w := by
  obtain ⟨s, hs, hn⟩ := exists_onChain 863999
  have hmark := hs.marked.trails (by rw [hn]; decide)
  obtain ⟨num, id, mark, confirmed, rest⟩ := s
  obtain rfl : num = 863999 := hn
  obtain rfl : mark = 863978 := hmark
  have hconf := hs.confirmations (fun w => 863999 - w) () fun w => Nat.sub_le _ w
  obtain ⟨-, hle, hcount⟩ := confirmBlock_mark_monotone_bounded_supported (P := Nat) _ hconf
    ⟨⟨863999, 0⟩, 7⟩ rfl 1 [1, 2, 3, 4]
  have hvoting : startMinerVotingBlock ≤ 864000 := by decide
  have hrise : 863978 < 863996 := by decide
  exact ⟨_, hconf, rfl, rfl, rfl, hle, hcount hvoting hrise⟩

end ChainState

end Freezone.Chain
