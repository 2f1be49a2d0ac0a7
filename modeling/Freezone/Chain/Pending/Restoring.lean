import Freezone.Chain.Evaluation.Replay
import Freezone.Chain.Database.Outcomes
import Freezone.Chain.Pending.Model

/-!
# What becomes of queued transactions

The restored list starts with the transactions that were applied on the new head,
in order, and goes on with those that were only stored. A transaction that is not
in the list is known to the state of the new head, and so part of a block of its
chain, or was rejected on the head and the transactions kept before it. The second
holds with the rules for blocks, which reject more than those for pending
transactions: a free account can be claimed in the block of an elected witness
only.
-/

namespace Freezone.Chain

open Protocol List

variable {H I O G A B W T R : Type} [DecidableEq I] [TransactionDigest I O]

namespace Evaluators

variable {ev : Evaluators O G A B W T R} {flags : Flags} {num : Nat}
variable {trx : SignedTransaction O G} {st st₁ st₂ : BlockState I A B T R}

/-- One more transaction after a list of them. -/
theorem applyTransactions_concat {trxs : List (SignedTransaction O G)}
    (h : ev.applyTransactions flags num trxs st = some st₁)
    (hone : ev.applyTransaction flags num trx st₁ = .ok st₂) :
    ev.applyTransactions flags num (trxs ++ [trx]) st = some st₂ := by
  induction trxs generalizing st with
  | nil =>
    cases h
    simp only [nil_append, applyTransactions, hone]
  | cons first trxs ih =>
    rw [cons_append]
    unfold applyTransactions at h ⊢
    split at h
    · cases h
    · exact ih h

/-- What is known after transactions was known before or is one of them. -/
theorem isKnownTransaction_applyTransactions {trxs : List (SignedTransaction O G)}
    (h : ev.applyTransactions flags num trxs st = some st₁) {id : I}
    (hknown : st₁.isKnownTransaction id = true) :
    st.isKnownTransaction id = true ∨ ∃ t ∈ trxs, t.id I = id := by
  obtain ⟨tokens, rest, items, -, rfl⟩ := applyTransactions_eq_some h
  refine (TimedQueue.holds_pushAll.mp hknown).imp_right ?_
  simp only [map_map, mem_map, Function.comp_apply]
  exact fun h => h

variable [DecidableEq H] [Inhabited H] [DecidableEq A] [DecidableEq B] [DecidableEq W]
variable [HeaderHash H (BlockContents O G A B W)]

/-- The state after a chain of blocks from a genesis state, each of them valid under some flags. -/
inductive Built (ev : Evaluators O G A B W T R) (start : BlockState I A B T R) :
    List (SignedBlock H (BlockContents O G A B W)) → ChainState H W (BlockState I A B T R) → Prop
  | genesis : Built ev start [] (.genesis start)
  | block {chain : List (SignedBlock H (BlockContents O G A B W))}
      {s s' : ChainState H W (BlockState I A B T R)} (flags : Flags) (skip : Bool)
      {b : SignedBlock H (BlockContents O G A B W)} (h : Built ev start chain s)
      (heval : (ev.blockRules flags skip).evaluate b s = some s') :
      Built ev start (chain ++ [b]) s'

/-- A known transaction is in a block of the chain. -/
theorem Built.known {start : BlockState I A B T R} (hstart : start.transactions.entries = [])
    {chain : List (SignedBlock H (BlockContents O G A B W))}
    {s : ChainState H W (BlockState I A B T R)} (h : Built ev start chain s) {id : I}
    (hknown : s.rest.isKnownTransaction id = true) :
    ∃ b ∈ chain, ∃ t ∈ b.payload.transactions, t.id I = id := by
  induction h with
  | genesis =>
    obtain ⟨e, he, -⟩ := TimedQueue.holds_iff.mp hknown
    rw [show (ChainState.genesis start).rest.transactions.entries = [] from hstart] at he
    cases he
  | @block chain s s' flags skip b h heval ih =>
    obtain ⟨-, st, hcontents, hprocess⟩ := evaluate_eq_some heval
    obtain ⟨-, rest, percent, st₁, htrxs, rfl⟩ := applyContents_eq_some hcontents
    obtain ⟨st₂, st3, st4, hprep, hmatch, hopt, hs'⟩ := applyProcessing_eq_some hprocess
    obtain ⟨size, rest', optional, rfl⟩ := prepareActions_eq_some hprep
    obtain ⟨tokens2, rest2, queue2, performed2, rfl⟩ := matchRequiredActions_frame hmatch
    obtain ⟨tokens3, rest3, queue3, rfl⟩ := processOptionalActions_frame hopt
    rw [hs'] at hknown
    obtain ⟨e, he, hitem⟩ := TimedQueue.holds_iff.mp hknown
    have hmem : st₁.isKnownTransaction id = true :=
      TimedQueue.holds_iff.mpr ⟨e, (dropWhile_sublist _).subset he, hitem⟩
    rcases isKnownTransaction_applyTransactions htrxs hmem with hold | ⟨t, ht, hid⟩
    · obtain ⟨b', hb', hid⟩ := ih hold
      exact ⟨b', mem_append_left _ hb', hid⟩
    · exact ⟨b, mem_append_right _ mem_cons_self, t, ht, hid⟩

end Evaluators

namespace Node

variable {ev : Evaluators O G A B W T R} {flags : Flags}
variable {db : Database H (BlockContents O G A B W) W (BlockState I A B T R)}
variable {before : List (SignedTransaction O G)} {trx : SignedTransaction O G}
variable {r : Restoring H I O G A B W T R}

/-- The loops after some of the queued transactions: on the head, the first part of the list is
applied and the second, which is empty as long as transactions are applied, is stored. -/
structure Restored (ev : Evaluators O G A B W T R) (flags : Flags)
    (db : Database H (BlockContents O G A B W) W (BlockState I A B T R))
    (before : List (SignedTransaction O G)) (r : Restoring H I O G A B W T R) : Prop where
  database : r.node.db = db
  order : r.node.pendingTx.Sublist before
  applied : ∃ applied stored, r.node.pendingTx = applied ++ stored ∧
    (r.applyTrxs = true → stored = []) ∧
    ev.applyTransactions flags db.headBlockNum applied db.store.current.rest = some r.node.state

/-- What becomes of a transaction when the list so far is `kept` and ends up as `final`: it is in
the list, or known to the head, or rejected on the head and the kept ones. -/
def Settled (ev : Evaluators O G A B W T R) (flags : Flags)
    (db : Database H (BlockContents O G A B W) W (BlockState I A B T R))
    (trx : SignedTransaction O G) (kept final : List (SignedTransaction O G)) : Prop :=
  (∃ t ∈ final, t.id I = trx.id I) ∨
    db.store.current.rest.isKnownTransaction (trx.id I) = true ∨
    ∃ st e, ev.applyTransactions flags db.headBlockNum kept db.store.current.rest = some st ∧
      ev.applyTransaction flags db.headBlockNum trx st = .error e

/-- What is settled stays so when more transactions follow. -/
theorem Settled.mono {kept final final' : List (SignedTransaction O G)}
    (h : Settled ev flags db trx kept final) (hsub : final <+: final') :
    Settled ev flags db trx kept final' := by
  refine h.imp_left ?_
  rintro ⟨t, ht, hid⟩
  exact ⟨t, hsub.subset ht, hid⟩

/-- One transaction. -/
theorem Restored.restoreOne (h : Restored ev flags db before r) (late : Nat → Bool)
    (trx : SignedTransaction O G) :
    Restored ev flags db (before ++ [trx]) (restoreOne ev flags late r trx) ∧
      r.node.pendingTx <+: (Node.restoreOne ev flags late r trx).node.pendingTx ∧
      Settled ev flags db trx r.node.pendingTx
        (Node.restoreOne ev flags late r trx).node.pendingTx := by
  obtain ⟨hdb, horder, applied, stored, hlist, hstored, happ⟩ := h
  have hkept : r.node.pendingTx.Sublist (before ++ [trx]) :=
    horder.trans (sublist_append_left _ _)
  unfold Node.restoreOne
  by_cases happly : (r.applyTrxs && !late r.reading) = true
  · have hempty := hstored (Bool.and_eq_true_iff.mp happly).1
    simp only [happly, ↓reduceIte]
    rw [hempty, append_nil] at hlist
    by_cases hknown : r.node.state.isKnownTransaction (trx.id I) = true
    · simp only [hknown, ↓reduceIte]
      refine ⟨⟨hdb, hkept, applied, [], by rw [append_nil, hlist], fun _ => rfl, happ⟩,
        prefix_rfl, ?_⟩
      rcases Evaluators.isKnownTransaction_applyTransactions happ hknown with hold | ⟨t, ht, hid⟩
      · exact .inr (Or.inl hold)
      · exact .inl ⟨t, hlist ▸ ht, hid⟩
    · simp only [hknown, Bool.false_eq_true, ↓reduceIte, pushTransactionWith, hdb]
      cases hone : ev.applyTransaction flags db.headBlockNum trx r.node.state with
      | error e =>
        simp only [Exec.finalState_error]
        refine ⟨⟨rfl, hkept, applied, [], by rw [append_nil, hlist], fun _ => rfl, happ⟩,
          prefix_rfl, Or.inr (Or.inr ⟨_, e, hlist ▸ happ, hone⟩)⟩
      | ok st =>
        simp only [Exec.finalState_ok]
        refine ⟨⟨rfl, horder.append_right _, applied ++ [trx], [],
          by rw [append_nil, hlist], fun _ => rfl,
          Evaluators.applyTransactions_concat happ hone⟩, prefix_append _ _,
          Or.inl ⟨trx, mem_append_right _ mem_cons_self, rfl⟩⟩
  · simp only [happly, Bool.false_eq_true, ↓reduceIte]
    refine ⟨⟨hdb, horder.append_right _, applied, stored ++ [trx], ?_, ?_, happ⟩,
      prefix_append _ _, Or.inl ⟨trx, mem_append_right _ mem_cons_self, rfl⟩⟩
    · rw [hlist, append_assoc]
    · exact fun h => absurd h Bool.false_ne_true

/-- A loop over transactions. -/
theorem Restored.foldl (h : Restored ev flags db before r) (late : Nat → Bool)
    (queue : List (SignedTransaction O G)) :
    let final := queue.foldl (Node.restoreOne ev flags late) r
    Restored ev flags db (before ++ queue) final ∧
      r.node.pendingTx <+: final.node.pendingTx ∧
      ∀ front trx back, queue = front ++ trx :: back → ∃ kept, kept <+: final.node.pendingTx ∧
        kept.Sublist (before ++ front) ∧ Settled ev flags db trx kept final.node.pendingTx := by
  induction queue generalizing before r with
  | nil =>
    refine ⟨by rw [append_nil]; exact h, prefix_rfl, ?_⟩
    intro front trx back heq
    exact absurd heq.symm (by simp)
  | cons first queue ih =>
    obtain ⟨hone, hgrows, hsettled⟩ := h.restoreOne late first
    obtain ⟨hrest, hgrows', hall⟩ := ih hone
    rw [append_assoc, singleton_append] at hrest
    refine ⟨hrest, hgrows.trans hgrows', ?_⟩
    intro front trx back heq
    cases front with
    | nil =>
      obtain ⟨rfl, rfl⟩ := cons.inj heq
      refine ⟨_, hgrows.trans hgrows', ?_, hsettled.mono hgrows'⟩
      rw [append_nil]
      exact h.order
    | cons first' front =>
      obtain ⟨rfl, rfl⟩ := cons.inj heq
      obtain ⟨kept, hkept, horder, hset⟩ := hall front trx back rfl
      rw [append_assoc, singleton_append] at horder
      exact ⟨kept, hkept, horder, hset⟩

/-- The restored list: its first part is applied on the head in order, the queue keeps its order,
and every queued transaction is settled. -/
theorem restore_settles (ev : Evaluators O G A B W T R) (flags : Flags) (late : Nat → Bool)
    (pending : List (SignedTransaction O G))
    (db : Database H (BlockContents O G A B W) W (BlockState I A B T R)) :
    let n := restore ev flags late pending db
    n.db = { db with popped := [] } ∧ n.pendingTx.Sublist (poppedTx db ++ pending) ∧
      (∃ applied stored, n.pendingTx = applied ++ stored ∧
        ev.applyTransactions flags db.headBlockNum applied db.store.current.rest =
          some n.state) ∧
      ∀ front trx back, poppedTx db ++ pending = front ++ trx :: back →
        ∃ kept, kept <+: n.pendingTx ∧ kept.Sublist front ∧
          Settled ev flags db trx kept n.pendingTx := by
  have hstart : Restored ev flags db [] { node := { db := db } } :=
    ⟨rfl, Sublist.refl _, [], [], rfl, fun _ => rfl, rfl⟩
  obtain ⟨hpopped, -, hsettled⟩ := hstart.foldl late (poppedTx db)
  -- clearing the popped transactions changes nothing that the second loop reads
  have hcleared : Restored ev flags { db with popped := [] } (poppedTx db)
      { (poppedTx db).foldl (Node.restoreOne ev flags late) { node := { db := db } } with
        node := { ((poppedTx db).foldl (Node.restoreOne ev flags late)
          { node := { db := db } }).node with db := { db with popped := [] } } } := by
    obtain ⟨hdb, horder, applied, stored, hlist, hstored, happ⟩ := hpopped
    refine ⟨rfl, horder, applied, stored, hlist, hstored, happ.trans ?_⟩
    unfold state
    rw [hdb]
  obtain ⟨⟨hdb, horder, applied, stored, hlist, -, happ⟩, hgrows, hsettled'⟩ :=
    hcleared.foldl late pending
  refine ⟨hdb, horder, ⟨applied, stored, hlist, happ⟩, ?_⟩
  intro front trx back heq
  rcases append_eq_append_iff.mp heq with ⟨mid, hfront, hpending⟩ | ⟨mid, hpop, hback⟩
  · obtain ⟨kept, hkept, hsub, hset⟩ := hsettled' mid trx back hpending
    exact ⟨kept, hkept, hfront ▸ hsub, hset⟩
  cases mid with
  | nil =>
    rw [append_nil] at hpop
    obtain ⟨kept, hkept, hsub, hset⟩ := hsettled' [] trx back hback.symm
    rw [append_nil, hpop] at hsub
    exact ⟨kept, hkept, hsub, hset⟩
  | cons trx' mid =>
    obtain ⟨rfl, rfl⟩ := cons.inj hback
    obtain ⟨kept, hkept, hsub, hset⟩ := hsettled front trx mid hpop
    exact ⟨kept, hkept.trans hgrows, hsub, hset.mono hgrows⟩

variable [DecidableEq H] [Inhabited H] [DecidableEq A] [DecidableEq B] [DecidableEq W]
variable [HeaderHash H (BlockContents O G A B W)]

/-- The nodes that are reached from an opened one by pushing transactions and blocks, whatever the
clock says. -/
inductive Reached (ev : Evaluators O G A B W T R) (start : BlockState I A B T R) :
    Node H I O G A B W T R → Prop
  | opened {chain : List (SignedBlock H (BlockContents O G A B W))}
      {db : Database H (BlockContents O G A B W) W (BlockState I A B T R)}
      (h : ev.Built start chain db.store.current) (hsaved : db.store.saved = [])
      (hpopped : db.popped = []) : Reached ev start { db := db }
  | pushTransaction {n : Node H I O G A B W T R} (h : Reached ev start n)
      (trx : SignedTransaction O G) :
      Reached ev start (Exec.finalState (n.pushTransaction ev trx))
  | pushBlock {n : Node H I O G A B W T R} (h : Reached ev start n) (producing skip : Bool)
      (late : Nat → Bool) (b : SignedBlock H (BlockContents O G A B W)) :
      Reached ev start (Exec.finalState (n.pushBlock ev producing skip late b))

/-- A push of a block is the push of the database and the restoration, however it ends. -/
theorem pushBlock_finalState (ev : Evaluators O G A B W T R) (producing skip : Bool)
    (late : Nat → Bool) (b : SignedBlock H (BlockContents O G A B W)) (n : Node H I O G A B W T R) :
    Exec.finalState (n.pushBlock ev producing skip late b) =
      restore ev (blockFlags producing) late n.pendingTx (Exec.finalState
        (Database.pushBlock (ev.blockRules (blockFlags producing) skip) b n.db)) := by
  simp only [pushBlock]
  cases Database.pushBlock (ev.blockRules (blockFlags producing) skip) b n.db <;> rfl

/-- In a node that is reached, every state of the store is that of a chain of valid blocks. -/
theorem Reached.built {start : BlockState I A B T R} {n : Node H I O G A B W T R}
    (h : Reached ev start n) : ∀ s ∈ n.db.store.states, ∃ chain, ev.Built start chain s := by
  induction h with
  | @opened chain db h hsaved =>
    intro s hs
    rw [Snapshots.states, hsaved, map_nil, mem_singleton] at hs
    exact ⟨chain, hs ▸ h⟩
  | @pushTransaction n _ trx ih =>
    have hdb : (Exec.finalState (n.pushTransaction ev trx)).db = n.db := by
      unfold Node.pushTransaction Node.pushTransactionWith
      split
      · rfl
      · cases ev.applyTransaction pendingFlags n.db.headBlockNum trx n.state <;> rfl
    rw [hdb]
    exact ih
  | @pushBlock n _ producing skip late b ih =>
    rw [pushBlock_finalState, (restore_settles ev _ late n.pendingTx _).1]
    refine Database.pushBlock_states ?_ b ih
    rintro b s s' ⟨chain, hchain⟩ heval
    exact ⟨chain ++ [b], .block _ skip hchain heval⟩

/-- A transaction that on a state the rules for blocks reject only if those for pending transactions
do. -/
def AcceptedAlike (ev : Evaluators O G A B W T R) (producing : Bool) (num : Nat)
    (st : BlockState I A B T R) (trx : SignedTransaction O G) : Prop :=
  ∀ st', ev.applyTransaction pendingFlags num trx st = .ok st' →
    ∃ st'', ev.applyTransaction (blockFlags producing) num trx st = .ok st''

/-- Every queued transaction that is not in the chain of the head is accepted alike on the head with
some of those before it applied. -/
def QueueAlike (ev : Evaluators O G A B W T R) (producing : Bool)
    (db : Database H (BlockContents O G A B W) W (BlockState I A B T R))
    (queue : List (SignedTransaction O G)) : Prop :=
  ∀ front trx back, queue = front ++ trx :: back →
    db.store.current.rest.isKnownTransaction (trx.id I) = false →
    ∀ kept st, kept.Sublist front → ev.applyTransactions (blockFlags producing) db.headBlockNum kept
      db.store.current.rest = some st → AcceptedAlike ev producing db.headBlockNum st trx

section Subsidies

/-- The state of the node that claims accounts. -/
abbrev ClaimState : Type :=
  BlockState (Transaction ClaimAccount) (Sst.Action Nat) Unit Sst.Tokens NodeRest

/-- The accounts that are claimed for free. -/
def freeClaims (ops : List ClaimAccount) : Nat := ops.countP fun op => op.fee = 0

/-- The free claims of transactions. -/
def queuedClaims (trxs : List (SignedTransaction ClaimAccount Unit)) : Nat :=
  (trxs.map fun trx => freeClaims trx.operations).sum

/-- The current witness is elected and has the subsidies for some free claims. -/
structure Subsidised (claims : Nat) (r : NodeRest) : Prop where
  elected : r.elected r.currentWitness = true
  covered : (accountSubsidyPrecision : Int) * claims ≤
    r.availableWitnessAccountSubsidies r.currentWitness

/-- The claims of some operations, one after another. -/
def claimAll (flags : Flags) : List ClaimAccount → NodeRest → Option NodeRest
  | [], r => some r
  | op :: ops, r => (r.claimAccount flags op).bind (claimAll flags ops)

/-- The operations of a transaction of this node are its claims. -/
theorem applyOperations_node (flags : Flags) (ops : List ClaimAccount) (st : ClaimState) :
    nodeEvaluators.applyOperations flags ops st =
      (claimAll flags ops st.rest).map fun r => { st with rest := r } := by
  have hnone : ∀ st : ClaimState, st.pushRequiredActions flags [] = st := by
    intro st
    unfold BlockState.pushRequiredActions
    split <;> rfl
  induction ops generalizing st with
  | nil => rfl
  | cons op ops ih =>
    simp only [Evaluators.applyOperations, nodeEvaluators, claimAll] at ih ⊢
    cases st.rest.claimAccount flags op with
    | none => rfl
    | some r => simp only [Option.map_some, hnone, ih, Option.bind_some]

variable {producing : Bool} {op : ClaimAccount} {ops : List ClaimAccount} {claims : Nat}
variable {r r₁ r₂ r' : NodeRest} {st st' : ClaimState}

theorem freeClaims_cons (op : ClaimAccount) (ops : List ClaimAccount) :
    freeClaims (op :: ops) = freeClaims ops + if op.fee = 0 then 1 else 0 := by
  rw [freeClaims, countP_cons]
  by_cases h : op.fee = 0 <;> simp [h, freeClaims]

/-- One claim less is covered when the witness has spent the subsidies for one. -/
theorem Subsidised.succ (h : Subsidised (claims + 1) r) :
    (accountSubsidyPrecision : Int) * claims + accountSubsidyPrecision ≤
      r.availableWitnessAccountSubsidies r.currentWitness ∧
    (accountSubsidyPrecision : Int) ≤ r.availableWitnessAccountSubsidies r.currentWitness := by
  have hcovered := h.covered
  rw [Nat.cast_add, Nat.cast_one, mul_add, mul_one] at hcovered
  have hnonneg : 0 ≤ (accountSubsidyPrecision : Int) * claims :=
    mul_nonneg (Int.natCast_nonneg _) (Int.natCast_nonneg _)
  exact ⟨hcovered, by omega⟩

/-- What a free claim takes in a block. -/
def spend (r : NodeRest) : NodeRest :=
  { r with
    availableWitnessAccountSubsidies := Function.update r.availableWitnessAccountSubsidies
      r.currentWitness
      (r.availableWitnessAccountSubsidies r.currentWitness - accountSubsidyPrecision)
    availableAccountSubsidies := r.availableAccountSubsidies - accountSubsidyPrecision }

/-- Where the witness can pay, the pool of all decides. -/
theorem takeSubsidy_block (helected : r.elected r.currentWitness = true)
    (hpaid : accountSubsidyPrecision ≤ r.availableWitnessAccountSubsidies r.currentWitness) :
    r.takeSubsidy (blockFlags producing) =
      if r.availableAccountSubsidies < accountSubsidyPrecision then none else some (spend r) := by
  simp only [NodeRest.takeSubsidy, blockFlags, helected, not_lt.mpr hpaid, Bool.not_false,
    Bool.not_true, Bool.true_and, Bool.false_or, decide_false, Bool.false_eq_true, ↓reduceIte]
  rfl

/-- A claim in a block uses up the subsidies for it. -/
theorem Subsidised.claimAccount
    (h : Subsidised (claims + if op.fee = 0 then 1 else 0) r)
    (hop : r.claimAccount (blockFlags producing) op = some r') : Subsidised claims r' := by
  unfold NodeRest.claimAccount at hop
  split_ifs at hop h with hbalance hfree hfee
  · obtain ⟨r₁, hr₁, rfl⟩ := Option.map_eq_some_iff.mp hop
    rw [takeSubsidy_block h.elected h.succ.2] at hr₁
    split_ifs at hr₁
    cases hr₁
    refine ⟨h.elected, ?_⟩
    have hleft := h.succ.1
    simp only [NodeRest.payFee, spend, Function.update_self]
    omega
  · cases hop
    exact ⟨h.elected, h.covered⟩

/-- A claim that is accepted while it is pending is accepted in a block of an elected witness with
the subsidies for it; the states that result differ in the subsidies of witnesses. -/
theorem Subsidised.exists_claimAccount {f : Nat → Int}
    (h : Subsidised (claims + if op.fee = 0 then 1 else 0) r)
    (hop : NodeRest.claimAccount pendingFlags op
      { r with availableWitnessAccountSubsidies := f } = some r') :
    ∃ r'', r.claimAccount (blockFlags producing) op = some r'' ∧
      r' = { r'' with availableWitnessAccountSubsidies := f } := by
  unfold NodeRest.claimAccount at hop ⊢
  by_cases hbalance : r.balance op.creator < op.fee
  · rw [if_pos (by exact hbalance)] at hop
    cases hop
  rw [if_neg (by exact hbalance)] at hop ⊢
  by_cases hfree : op.fee = 0
  · rw [if_pos hfree] at hop h ⊢
    obtain ⟨r₁, hr₁, rfl⟩ := Option.map_eq_some_iff.mp hop
    simp only [NodeRest.takeSubsidy, pendingFlags, Bool.not_true, Bool.false_and,
      Bool.false_eq_true, ↓reduceIte] at hr₁
    split_ifs at hr₁ with hleft
    cases hr₁
    rw [takeSubsidy_block h.elected h.succ.2, if_neg hleft]
    exact ⟨_, rfl, rfl⟩
  · rw [if_neg hfree] at hop ⊢
    by_cases hfee : op.fee ≠ r.accountCreationFee
    · rw [if_pos (by exact hfee)] at hop
      cases hop
    · rw [if_neg (by exact hfee)] at hop ⊢
      cases hop
      exact ⟨_, rfl, rfl⟩

/-- Claims in a block use up the subsidies for them. -/
theorem Subsidised.claimAll (h : Subsidised (claims + freeClaims ops) r)
    (hops : Node.claimAll (blockFlags producing) ops r = some r') : Subsidised claims r' := by
  induction ops generalizing r with
  | nil =>
    cases hops
    exact h
  | cons op ops ih =>
    rw [freeClaims_cons, ← Nat.add_assoc] at h
    obtain ⟨r₁, hop, hops⟩ := Option.bind_eq_some_iff.mp hops
    exact ih (h.claimAccount hop) hops

/-- What is accepted while it is pending is accepted in a block of an elected witness with the
subsidies for it. -/
theorem Subsidised.exists_claimAll {f : Nat → Int} (h : Subsidised (freeClaims ops) r)
    (hops : Node.claimAll pendingFlags ops { r with availableWitnessAccountSubsidies := f } =
      some r') : ∃ r'', Node.claimAll (blockFlags producing) ops r = some r'' := by
  induction ops generalizing r with
  | nil => exact ⟨r, rfl⟩
  | cons op ops ih =>
    rw [freeClaims_cons] at h
    obtain ⟨r₁, hop, hops⟩ := Option.bind_eq_some_iff.mp hops
    obtain ⟨r₂, hr₂, rfl⟩ : ∃ r₂, r.claimAccount (blockFlags producing) op = some r₂ ∧ _ :=
      h.exists_claimAccount hop
    obtain ⟨r'', hr''⟩ := ih (h.claimAccount hr₂) hops
    exact ⟨r'', Option.bind_eq_some_iff.mpr ⟨r₂, hr₂, hr''⟩⟩

/-- Claims that are paid for do not depend on the flags. -/
theorem claimAll_paid (flags flags' : Flags) (hpaid : freeClaims ops = 0) (r : NodeRest) :
    Node.claimAll flags ops r = Node.claimAll flags' ops r := by
  induction ops generalizing r with
  | nil => rfl
  | cons op ops ih =>
    rw [freeClaims_cons, Nat.add_eq_zero_iff, ite_eq_right_iff] at hpaid
    have hfee : ¬ op.fee = 0 := fun h => absurd (hpaid.2 h) one_ne_zero
    have hop : r.claimAccount flags op = r.claimAccount flags' op := by
      simp only [NodeRest.claimAccount, if_neg hfee]
    rw [Node.claimAll, Node.claimAll, hop]
    exact Option.bind_congr fun r' _ => ih hpaid.1 r'

/-- A transaction of this node is accepted alike if its claims are paid for, or the witness is
elected and has the subsidies for them. -/
theorem acceptedAlike_node {num : Nat} {trx : SignedTransaction ClaimAccount Unit}
    (h : freeClaims trx.operations = 0 ∨ Subsidised (freeClaims trx.operations) st.rest) :
    AcceptedAlike nodeEvaluators producing num st trx := by
  intro st' hst'
  have hauthority : ∀ flags, nodeEvaluators.verifyAuthority flags trx st.rest = true := fun _ => rfl
  simp only [Evaluators.applyTransaction, applyOperations_node, hauthority, Bool.not_true,
    Bool.false_eq_true, ↓reduceIte] at hst' ⊢
  have hclaims : ∀ r', Node.claimAll pendingFlags trx.operations st.rest = some r' →
      ∃ r'', Node.claimAll (blockFlags producing) trx.operations st.rest = some r'' := by
    intro r' hr'
    rcases h with hpaid | hsubsidised
    · exact ⟨r', (claimAll_paid _ _ hpaid _).trans hr'⟩
    · exact hsubsidised.exists_claimAll hr'
  split_ifs at hst' ⊢
  cases hall : Node.claimAll pendingFlags trx.operations st.rest with
  | none =>
    rw [hall] at hst'
    cases hst'
  | some r' =>
    obtain ⟨r'', hr''⟩ := hclaims r' hall
    exact ⟨_, by rw [hr'']; rfl⟩

/-- The transactions of a block use up the subsidies for their free claims. -/
theorem Subsidised.applyTransactions {num : Nat}
    {trxs : List (SignedTransaction ClaimAccount Unit)}
    (h : Subsidised (claims + queuedClaims trxs) st.rest)
    (htrxs : nodeEvaluators.applyTransactions (blockFlags producing) num trxs st = some st') :
    Subsidised claims st'.rest := by
  induction trxs generalizing st with
  | nil =>
    cases htrxs
    exact h
  | cons trx trxs ih =>
    rw [queuedClaims, map_cons, sum_cons, Nat.add_comm (freeClaims _), ← Nat.add_assoc] at h
    unfold Evaluators.applyTransactions at htrxs
    split at htrxs
    · cases htrxs
    rename_i st₁ hone
    refine ih ?_ htrxs
    simp only [Evaluators.applyTransaction, applyOperations_node] at hone
    split_ifs at hone
    cases hall : Node.claimAll (blockFlags producing) trx.operations st.rest with
    | none =>
      rw [hall] at hone
      cases hone
    | some r' =>
      rw [hall] at hone
      cases hone
      exact h.claimAll hall

/-- The queue is accepted alike if every transaction that is not in the chain of the head has only
claims that are paid for, or the witness of the head is elected and has the subsidies for all the
free claims of the queue. -/
theorem queueAlike_node {H : Type} [DecidableEq H] [Inhabited H]
    [HeaderHash H (BlockContents ClaimAccount Unit (Sst.Action Nat) Unit Nat)]
    {db : Database H (BlockContents ClaimAccount Unit (Sst.Action Nat) Unit Nat) Nat ClaimState}
    {queue : List (SignedTransaction ClaimAccount Unit)}
    (h : ∀ trx ∈ queue, db.store.current.rest.isKnownTransaction (trx.id _) = true ∨
      freeClaims trx.operations = 0 ∨ Subsidised (queuedClaims queue) db.store.current.rest.rest) :
    QueueAlike nodeEvaluators producing db queue := by
  intro front trx back heq hunknown kept st hkept hst
  refine acceptedAlike_node ?_
  have htrx : trx ∈ queue := by
    rw [heq]
    exact mem_append_right _ mem_cons_self
  rcases h trx htrx with hknown | hpaid | hsubsidised
  · rw [hunknown] at hknown
    cases hknown
  · exact .inl hpaid
  · -- what is kept has free claims of the queue before the transaction
    have hle : queuedClaims kept ≤ queuedClaims front := (hkept.map _).sum_le_sum fun _ _ => by simp
    have hqueue : queuedClaims queue =
        queuedClaims front + (freeClaims trx.operations + queuedClaims back) := by
      simp only [heq, queuedClaims, map_append, map_cons, sum_append, sum_cons]
    refine .inr (Subsidised.applyTransactions ⟨hsubsidised.elected, ?_⟩ hst)
    refine le_trans ?_ hsubsidised.covered
    have hcount : freeClaims trx.operations + queuedClaims kept ≤ queuedClaims queue := by omega
    exact mul_le_mul_of_nonneg_left (by exact_mod_cast hcount) (Int.natCast_nonneg _)

end Subsidies

/-- A node at the genesis. -/
def freshNode : Node Nat (Transaction ClaimAccount) ClaimAccount Unit (Sst.Action Nat) Unit Nat
    Sst.Tokens NodeRest where
  db := { store := { current := .genesis (nodeState 131072 .empty ⟨[], [], []⟩), revision := 0 } }

/-- An empty block of the witness of slot 2, who is not elected. -/
def unelectedBlock : SignedBlock Nat (BlockContents ClaimAccount Unit (Sst.Action Nat) Unit Nat) :=
  ⟨⟨0, 0⟩, ⟨6, 2, [], [], [], 150⟩⟩

theorem reached_freshNode :
    Reached nodeEvaluators (nodeState 131072 .empty ⟨[], [], []⟩) freshNode :=
  .opened .genesis rfl rfl

/-- An empty block of the witness of slot 1, who is elected. -/
def electedBlock : SignedBlock Nat (BlockContents ClaimAccount Unit (Sst.Action Nat) Unit Nat) :=
  ⟨⟨0, 0⟩, ⟨3, 1, [], [], [], 150⟩⟩

end Node

end Freezone.Chain
