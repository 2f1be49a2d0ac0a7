import Freezone.Chain.Evaluation.Node
import Freezone.Chain.Evaluation.Steps

/-!
# The schedule of required actions

`process_required_actions` takes the actions of a block in the order of the queue,
so that each of them is applied once and, as nothing is scheduled before the head
block, in the order of the execution times. It does not compare the execution time
of an action that a block includes with the time of the block: a witness can
include the first pending action before it is due. And it computes the share of a
block that is reserved for required actions with 32 bits, so that a block size of
2 MiB leaves less than a fifth of that share.
-/

namespace Freezone.Chain

open Protocol List TimedQueue

/-- A chain of valid blocks, each of which meets a condition on the state before it. -/
inductive Rules.Follows {H P W S : Type} [DecidableEq H] [DecidableEq W] [HeaderHash H P]
    (rules : Rules H P W S) (condition : SignedBlock H P → ChainState H W S → Prop)
    (start : ChainState H W S) : List (SignedBlock H P) → ChainState H W S → Prop
  | nil : Follows rules condition start [] start
  | block {blocks : List (SignedBlock H P)} {s s' : ChainState H W S} {b : SignedBlock H P}
    (h : Follows rules condition start blocks s) (hb : condition b s)
    (heval : rules.evaluate b s = some s') : Follows rules condition start (blocks ++ [b]) s'

section Queue

variable {A : Type} {performed : List (PerformedAction A)} {start q : TimedQueue A} {now : Nat}

/-- Every entry of the first queue and every one pushed since is performed once or pending. -/
structure Accounted (start : TimedQueue A) (performed : List (PerformedAction A))
    (q : TimedQueue A) : Prop where
  nextId_le : start.nextId ≤ q.nextId
  ids : (performed.map (fun p => p.entry.id) ++ q.entries.map TimedEntry.id).Perm
    (start.entries.map TimedEntry.id ++ List.range' start.nextId (q.nextId - start.nextId))

namespace Accounted

theorem init (start : TimedQueue A) : Accounted start [] start := ⟨Nat.le_refl _, by simp⟩

theorem pushAll (h : Accounted start performed q) (items : List (A × Nat)) :
    Accounted start performed (q.pushAll items) := by
  obtain ⟨hnext, hperm⟩ := q.pushAll_ids items
  have hle := h.nextId_le
  refine ⟨by omega, ?_⟩
  have hcount : q.nextId + items.length - start.nextId =
      (q.nextId - start.nextId) + items.length := by omega
  have hrange : range' start.nextId ((q.nextId - start.nextId) + items.length) =
      range' start.nextId (q.nextId - start.nextId) ++
        range' q.nextId items.length := by
    rw [← range'_append_1, Nat.add_sub_cancel' hle]
  rw [hnext, hcount, hrange, ← append_assoc]
  refine (hperm.append_left _).trans ?_
  rw [← append_assoc]
  exact h.ids.append_right _

variable {e : TimedEntry A} {actions : List A} {total : Nat}

/-- A pending entry is performed and leaves the queue. -/
theorem perform (h : Accounted start performed q) (he : e ∈ q.entries) :
    Accounted start (performed ++ [⟨e, now⟩]) (q.erase e.id) := by
  refine ⟨h.nextId_le, ?_⟩
  rw [map_append, map_singleton, erase_ids, append_assoc]
  refine Perm.trans ?_ h.ids
  exact ((perm_cons_erase (mem_map_of_mem he)).symm).append_left _

end Accounted

/-- The performed actions were due, and they and the pending ones follow each other in order. -/
structure InOrder (performed : List (PerformedAction A)) (q : TimedQueue A) (now : Nat) : Prop where
  timeline : (performed.map PerformedAction.entry ++ q.entries).Pairwise TimedEntry.Before
  due : ∀ p ∈ performed, p.entry.time ≤ p.blockTime ∧ p.blockTime ≤ now
  older : ∀ p ∈ performed, p.entry.id < q.nextId

namespace InOrder

theorem init (q : TimedQueue A) (now : Nat) : InOrder [] q now :=
  ⟨q.ordered, by simp, by simp⟩

theorem later (h : InOrder performed q now) {now' : Nat} (hle : now ≤ now') :
    InOrder performed q now' :=
  ⟨h.timeline, fun p hp => ⟨(h.due p hp).1, (h.due p hp).2.trans hle⟩, h.older⟩

/-- What is pushed from now on comes after what was performed. -/
theorem push (h : InOrder performed q now) (item : A) {time : Nat} (ht : now ≤ time) :
    InOrder performed (q.push item time) now := by
  refine ⟨?_, h.due, fun p hp => Nat.lt_succ_of_lt (h.older p hp)⟩
  obtain ⟨hperf, -, hcross⟩ := pairwise_append.mp h.timeline
  refine pairwise_append.mpr ⟨hperf, (q.push item time).ordered, ?_⟩
  intro e he f hf
  rcases TimedEntry.mem_insert.mp hf with rfl | hf
  · obtain ⟨p, hp, rfl⟩ := mem_map.mp he
    have hdue := h.due p hp
    exact .of_time_le (hdue.1.trans (hdue.2.trans ht)) (h.older p hp)
  · exact hcross e he f hf

theorem pushAll (h : InOrder performed q now) {items : List (A × Nat)}
    (ht : ∀ p ∈ items, now ≤ p.2) : InOrder performed (q.pushAll items) now := by
  induction items generalizing q with
  | nil => exact h
  | cons p items ih =>
    exact ih (h.push p.1 (ht p mem_cons_self)) fun r hr => ht r (mem_cons_of_mem _ hr)

/-- The first entry, when it is due, is performed. -/
theorem perform (h : InOrder performed q now) {rest : List (TimedEntry A)}
    (hq : q.entries = e :: rest) (he : e.time ≤ now) :
    InOrder (performed ++ [⟨e, now⟩]) (q.erase e.id) now := by
  refine ⟨?_, ?_, ?_⟩
  · rw [erase_first hq, map_append, map_singleton, append_assoc,
      singleton_append, ← hq]
    exact h.timeline
  · intro p hp
    rcases mem_append.mp hp with hp | hp
    · exact h.due p hp
    · obtain rfl := mem_singleton.mp hp
      exact ⟨he, Nat.le_refl _⟩
  · intro p hp
    rcases mem_append.mp hp with hp | hp
    · exact h.older p hp
    · obtain rfl := mem_singleton.mp hp
      exact q.fresh e (by rw [hq]; exact mem_cons_self)

end InOrder

end Queue

namespace Evaluators

variable {H I O G A B W T R : Type} [DecidableEq A]
variable {ev : Evaluators O G A B W T R} {flags : Flags} {num lib : Nat}
variable {st st' : BlockState I A B T R} {start : TimedQueue A}

/-- Each of the actions is due when its turn comes. -/
def Timely (ev : Evaluators O G A B W T R) : List A → BlockState I A B T R → Prop
  | [], _ => True
  | a :: actions, st => ∀ pending, st.requiredActions.first = some pending →
    pending.time ≤ st.headBlockTime ∧ ∀ st', ev.applyRequiredAction a st = some st' →
      Timely ev actions { st' with
        requiredActions := st'.requiredActions.erase pending.id
        performed := st'.performed ++ [⟨pending, st.headBlockTime⟩] }

/-- Actions that are due are accounted for and performed in order. -/
theorem queue_matchRequiredActions (hacc : Accounted start st.performed st.requiredActions)
    (hord : InOrder st.performed st.requiredActions st.headBlockTime) (ht : ev.Timely actions st)
    (hm : ev.matchRequiredActions actions total st = .ok st') :
    Accounted start st'.performed st'.requiredActions ∧
      InOrder st'.performed st'.requiredActions st'.headBlockTime := by
  induction actions generalizing st total with
  | nil =>
    obtain ⟨rfl, -⟩ := matchRequiredActions_nil hm
    exact ⟨hacc, hord⟩
  | cons a actions ih =>
    obtain ⟨pending, st1, hfirst, happ, hm⟩ := matchRequiredActions_cons hm
    obtain ⟨hdue, hnext⟩ := ht pending hfirst
    have htimely := hnext st1 happ
    obtain ⟨tokens, rest, items, hitems, rfl⟩ := applyRequiredAction_eq_some happ
    obtain ⟨tail, hq⟩ := first_eq_some hfirst
    have hmem : pending ∈ st.requiredActions.entries := by
      rw [hq]
      exact mem_cons_self
    refine ih ((hacc.pushAll items).perform (mem_pushAll_of_mem hmem items)) ?_ htimely hm
    simp only [erase_pushAll _ items (st.requiredActions.fresh pending hmem)]
    exact (hord.perform hq hdue).pushAll hitems

/-- After the actions of a block, the first action that is due and left would have exceeded the
share. -/
theorem left_matchRequiredActions (hm : ev.matchRequiredActions actions total st = .ok st')
    (he : st'.requiredActions.first = some e) (hdue : e.time ≤ st'.headBlockTime) :
    st'.requiredActionsPartitionSize <
      total + (actions.map ev.requiredSize).sum + ev.requiredSize e.item := by
  induction actions generalizing st total with
  | nil =>
    obtain ⟨rfl, hleft⟩ := matchRequiredActions_nil hm
    simpa using hleft e he hdue
  | cons a actions ih =>
    obtain ⟨pending, st1, -, -, hm⟩ := matchRequiredActions_cons hm
    have hrest := ih hm
    rw [map_cons, sum_cons]
    omega

variable [DecidableEq I] [DecidableEq B] [DecidableEq W] [TransactionDigest I O]

/-- The block lists no action before it is due, and the product that gives the share of the
required actions fits into 32 bits. -/
def OnSchedule (ev : Evaluators O G A B W T R) (flags : Flags)
    (b : SignedBlock H (BlockContents O G A B W)) (s : ChainState H W (BlockState I A B T R)) :
    Prop :=
  ∀ st st₁, ev.applyContents flags s.headBlockNumber b.payload s.rest = some st →
    ev.prepareActions b.blockNum st = some st₁ →
    ev.Timely b.payload.requiredActions st₁ ∧
      st₁.maximumBlockSize * st₁.requiredActionsPartitionPercent < 2 ^ 32

variable [DecidableEq H] [HeaderHash H (BlockContents O G A B W)] {skip : Bool}
variable {s s' : ChainState H W (BlockState I A B T R)}
variable {b : SignedBlock H (BlockContents O G A B W)}

/-- The share of a block that is reserved for required actions when those of the block are
processed. -/
def requiredActionsShare (ev : Evaluators O G A B W T R) (flags : Flags)
    (b : SignedBlock H (BlockContents O G A B W))
    (s : ChainState H W (BlockState I A B T R)) : Nat :=
  match (ev.applyContents flags s.headBlockNumber b.payload s.rest).bind
      (ev.prepareActions b.blockNum) with
  | none => 0
  | some st => st.maximumBlockSize * st.requiredActionsPartitionPercent / percent100

/-- A block as the queue of required actions sees it: actions are pushed at the times of the head
before it and of the block, and the actions of the block are matched in between. -/
theorem evaluate_queue (heval : (ev.blockRules flags skip).evaluate b s = some s') :
    ∃ st st1 st2 items, ev.applyContents flags s.headBlockNumber b.payload s.rest = some st ∧
      ev.prepareActions b.blockNum st = some st1 ∧
      ev.matchRequiredActions b.payload.requiredActions 0 st1 = .ok st2 ∧
      (∀ p ∈ items, s.rest.headBlockTime ≤ p.2) ∧
      s.rest.headBlockTime ≤ b.payload.timestamp ∧
      st1.requiredActions = s.rest.requiredActions.pushAll items ∧
      st1.performed = s.rest.performed ∧ st1.headBlockTime = b.payload.timestamp ∧
      s'.rest.requiredActions = st2.requiredActions ∧ s'.rest.performed = st2.performed ∧
      s'.rest.headBlockTime = st2.headBlockTime ∧ st2.headBlockTime = b.payload.timestamp ∧
      st2.requiredActionsPartitionSize = st1.requiredActionsPartitionSize := by
  obtain ⟨-, st, hcontents, hprocess⟩ := evaluate_eq_some heval
  obtain ⟨st1, st2, st3, hprep, hmatch, hopt, hs'⟩ := applyProcessing_eq_some hprocess
  obtain ⟨hlater, rest0, percent, st0, htrxs, hst⟩ := applyContents_eq_some hcontents
  obtain ⟨tokens, rest, items, hitems, hst0⟩ := applyTransactions_eq_some htrxs
  obtain ⟨size, rest', optional, hst1⟩ := prepareActions_eq_some hprep
  obtain ⟨tokens2, rest2, queue2, performed2, hst2⟩ := matchRequiredActions_frame hmatch
  obtain ⟨tokens3, rest3, queue3, hst3⟩ := processOptionalActions_frame hopt
  refine ⟨st, st1, st2, items, hcontents, hprep, hmatch, hitems, hlater.le, ?_⟩
  rw [hs', hst3, hst2, hst1, hst, hst0]
  exact ⟨rfl, rfl, rfl, rfl, rfl, rfl, rfl, rfl⟩

/-- One block on schedule. -/
theorem queue_evaluate (heval : (ev.blockRules flags skip).evaluate b s = some s')
    (hb : ev.OnSchedule flags b s) (hacc : Accounted start s.rest.performed s.rest.requiredActions)
    (hord : InOrder s.rest.performed s.rest.requiredActions s.rest.headBlockTime) :
    Accounted start s'.rest.performed s'.rest.requiredActions ∧
      InOrder s'.rest.performed s'.rest.requiredActions s'.rest.headBlockTime := by
  obtain ⟨st, st1, st2, items, hcontents, hprep, hmatch, hitems, hle, hq1, hp1, ht1,
    hq, hp, ht, -⟩ :=
    evaluate_queue heval
  obtain ⟨htimely, -⟩ := hb st st1 hcontents hprep
  rw [hq, hp, ht]
  refine queue_matchRequiredActions ?_ ?_ htimely hmatch
  · rw [hp1, hq1]
    exact hacc.pushAll items
  · rw [hp1, hq1, ht1]
    exact (hord.pushAll hitems).later hle

/-- On every chain of blocks that are on schedule, each required action that was pending at the
start or scheduled since is applied exactly once or still pending, none before its execution time,
and they are applied in the order of execution time and creation; and the next block on schedule
leaves an action that is due only if including it, after the ones before it, would have exceeded
the share of the block that is reserved for required actions. -/
theorem required_actions_applied_once_in_order (ev : Evaluators O G A B W T R) (flags : Flags)
    (skip : Bool) (s₀ s : ChainState H W (BlockState I A B T R)) (hstart : s₀.rest.performed = [])
    (blocks : List (SignedBlock H (BlockContents O G A B W)))
    (h : (ev.blockRules flags skip).Follows (ev.OnSchedule flags) s₀ blocks s) :
    ((s.rest.performed.map fun p => p.entry.id) ++
        s.rest.requiredActions.entries.map TimedEntry.id).Perm
      (s₀.rest.requiredActions.entries.map TimedEntry.id ++
      List.range' s₀.rest.requiredActions.nextId
        (s.rest.requiredActions.nextId - s₀.rest.requiredActions.nextId)) ∧
    (∀ p ∈ s.rest.performed, p.entry.time ≤ p.blockTime) ∧
    (s.rest.performed.map PerformedAction.entry).Pairwise TimedEntry.Before ∧
    ∀ b s', ev.OnSchedule flags b s → (ev.blockRules flags skip).evaluate b s = some s' →
      ∀ before e after, s'.rest.requiredActions.entries = before ++ e :: after →
        e.time ≤ b.payload.timestamp →
        ev.requiredActionsShare flags b s <
          (b.payload.requiredActions.map ev.requiredSize).sum +
            ((before ++ [e]).map fun e => ev.requiredSize e.item).sum := by
  obtain ⟨hacc, hord⟩ : Accounted s₀.rest.requiredActions s.rest.performed s.rest.requiredActions ∧
      InOrder s.rest.performed s.rest.requiredActions s.rest.headBlockTime := by
    induction h with
    | nil =>
      rw [hstart]
      exact ⟨.init _, .init _ _⟩
    | block _ hb heval ih => exact queue_evaluate heval hb ih.1 ih.2
  refine ⟨hacc.ids, fun p hp => (hord.due p hp).1, (pairwise_append.mp hord.timeline).1, ?_⟩
  intro b s' hb heval before e after hentries hdue
  obtain ⟨st, st1, st2, items, hcontents, hprep, hmatch, -, -, -, -, -, hq, -, -, ht2, hshare⟩ :=
    evaluate_queue heval
  obtain ⟨-, hfits⟩ := hb st st1 hcontents hprep
  rw [hq] at hentries
  rw [← ht2] at hdue
  have hlt : st2.requiredActionsPartitionSize <
    (b.payload.requiredActions.map ev.requiredSize).sum +
      ((before ++ [e]).map fun e => ev.requiredSize e.item).sum := by
    cases before with
    | nil =>
      have hlt := left_matchRequiredActions hmatch (e := e) (by rw [first, hentries]; rfl) hdue
      simpa using hlt
    | cons f before =>
      have hord := st2.requiredActions.ordered
      rw [hentries, cons_append, pairwise_cons] at hord
      have hbefore : f.time ≤ e.time := (hord.1 e (by simp)).time_le
      have hlt := left_matchRequiredActions hmatch (e := f) (by rw [first, hentries]; rfl)
        (hbefore.trans hdue)
      rw [cons_append, map_cons, sum_cons]
      omega
  rw [hshare, BlockState.requiredActionsPartitionSize, Nat.mod_eq_of_lt hfits] at hlt
  simp only [requiredActionsShare, hcontents, Option.bind_some, hprep]
  exact hlt

/-- Token 7, whose offering launches at the time of the only pending action. -/
def offering (maximumBlockSize launchTime : Nat) (action : Sst.Action Nat) :
    BlockState (Transaction ClaimAccount) (Sst.Action Nat) Unit Sst.Tokens NodeRest :=
  nodeState maximumBlockSize (TimedQueue.empty.push action launchTime)
    ⟨[⟨7, 5, .setupCompleted⟩], [⟨7, 2000, 3000, 10, 0, 0⟩], []⟩

/-- A first block with given required actions. -/
def firstBlock (actions : List (Sst.Action Nat)) :
    SignedBlock Nat (BlockContents ClaimAccount Unit (Sst.Action Nat) Unit Nat) :=
  ⟨⟨0, 0⟩, ⟨3, 1, [], actions, [], 150⟩⟩

/-- Tokens 7 and 8, whose offerings launch at times 2 and 3. -/
def twoOfferings : BlockState (Transaction ClaimAccount)
    (Sst.Action Nat) Unit Sst.Tokens NodeRest :=
  nodeState 65536 ((TimedQueue.empty.push (.icoLaunch 5 8) 3).push (.icoLaunch 5 7) 2)
    ⟨[⟨7, 5, .setupCompleted⟩, ⟨8, 5, .setupCompleted⟩],
      [⟨7, 2000, 3000, 10, 0, 0⟩, ⟨8, 2000, 4000, 10, 0, 0⟩], []⟩

theorem onSchedule_twoOfferings :
    nodeEvaluators.OnSchedule {} (firstBlock [.icoLaunch 5 7, .icoLaunch 5 8])
      (.genesis twoOfferings) := by
  rintro st st1 ⟨⟩ ⟨⟩
  refine ⟨?_, by decide⟩
  rintro pending ⟨⟩
  refine ⟨by decide, ?_⟩
  rintro st2 ⟨⟩ pending ⟨⟩
  exact ⟨by decide, fun _ _ => trivial⟩

/-- The block launches both offerings in the order of their times; their evaluations are pending
then. -/
theorem required_actions_applied_once_in_order_twoLaunches :
    ∃ s : ChainState Nat Nat (BlockState (Transaction ClaimAccount) (Sst.Action Nat) Unit
        Sst.Tokens NodeRest),
      s.rest.performed.map (fun p => p.entry.id) = [1, 0] ∧
      s.rest.requiredActions.entries.map TimedEntry.id = [2, 3] ∧
      (∀ p ∈ s.rest.performed, p.entry.time ≤ p.blockTime) ∧
      (s.rest.performed.map PerformedAction.entry).Pairwise TimedEntry.Before :=
  have h := required_actions_applied_once_in_order nodeEvaluators {} false
    (ChainState.genesis twoOfferings) _ rfl [firstBlock [.icoLaunch 5 7, .icoLaunch 5 8]]
    (.block .nil onSchedule_twoOfferings rfl)
  ⟨_, rfl, rfl, h.2.1, h.2.2.1⟩

/-- A witness includes the launch of the offering long before its time. And in a block of up to
2 MiB they leave out a payout that is due and takes less than a fifth of the share of required
actions. -/
theorem required_action_applied_early_and_left_out :
    (∃ s, (nodeEvaluators.blockRules {} false).evaluate (firstBlock [.icoLaunch 5 7])
        (ChainState.genesis (offering 65536 1000 (.icoLaunch 5 7))) = some s ∧
      s.rest.performed = [⟨⟨1000, 0, .icoLaunch 5 7⟩, 3⟩]) ∧
    ∃ s, (nodeEvaluators.blockRules {} false).evaluate (firstBlock [])
        (ChainState.genesis (offering 2097152 0 (.contributorPayout 5 7 0 0 100000))) = some s ∧
      s.rest.requiredActions.entries = [⟨0, 0, .contributorPayout 5 7 0 0 100000⟩] ∧
      s.rest.performed = [] ∧
      nodeEvaluators.requiredSize (.contributorPayout 5 7 0 0 100000) * 5 <
        nodeEvaluators.requiredActionsShare {} (firstBlock [])
            (ChainState.genesis (H := Nat) (W := Nat)
          (offering 2097152 0 (.contributorPayout 5 7 0 0 100000))) :=
  ⟨⟨_, rfl, rfl⟩, _, rfl, rfl, rfl, by decide⟩

end Evaluators

end Freezone.Chain
