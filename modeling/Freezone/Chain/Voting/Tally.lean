import Freezone.Chain.Voting.Effects

/-!
# Proxies and votes along a run

A run of the chain is a run of a machine on polls. In each of its states the proxies
form a forest, the proxied shares of an account are those of the accounts at each
number of hops, and the votes of a witness are the weights of the accounts that vote
for it. The last is not so between hardforks 1 and 3: the split of the shares does not
reach the votes, and until the votes are tallied again a vote counts for all witnesses
of the account.
-/

namespace Freezone.Chain.Voting

open Funds (AccountName nullAccount initMinerAccount)
open Forest Relation Finset

/-- What the database can do to a poll at a hardfork. -/
inductive PollStep : Nat × Poll AccountName → Nat × Poll AccountName → Prop
  | unfollow {f P} (account : AccountName) (hproxy : P.parent account ≠ none) :
      PollStep (f, P) (f, (P.adjust maxProxyRecursionDepth (fun j => -P.shares account j)
        account).unfollow account)
  | leave {f P} (account : AccountName) :
      PollStep (f, P) (f, (P.adjust maxProxyRecursionDepth (fun j => -P.shares account j)
        account).leave account)
  | follow {f P} (account p : AccountName) (hnull : account ≠ nullAccount) (hp : p ∈ P.names)
      (havoid : ∀ n, hop P.parent n p ≠ some account) :
      PollStep (f, P) (f, (((P.adjust maxProxyRecursionDepth (fun j => -P.shares account j)
        account).leave account).follow account p).adjust maxProxyRecursionDepth
          (P.shares account) account)
  | vote {f P} (account w : AccountName) (votes : AccountName → Int) (hnull : account ≠ nullAccount)
      (hmem : account ∈ P.names) (hroot : P.parent account = none) (hnew : (account, w) ∉ P.voted)
      (hvotes : f = 0 ∨ 3 ≤ f → votes =
        (P.vote account w (P.weight maxProxyRecursionDepth account)).votes) :
      PollStep (f, P) (f, { P with voted := insert (account, w) P.voted, votes := votes })
  | unvote {f P} (account w : AccountName) (votes : AccountName → Int)
      (hmem : account ∈ P.names) (hroot : P.parent account = none) (hold : (account, w) ∈ P.voted)
      (hvotes : f = 0 ∨ 3 ≤ f → votes =
        (P.unvote account w (P.weight maxProxyRecursionDepth account)).votes) :
      PollStep (f, P) (f, { P with voted := P.voted.erase (account, w), votes := votes })
  | gain {f P} (account : AccountName) (d : Int) (hmem : account ∈ P.names) :
      PollStep (f, P) (f, (P.gain account d).adjust maxProxyRecursionDepth (Poll.single d) account)
  | clear {f P} (hmem : nullAccount ∈ P.names) :
      PollStep (f, P) (f, P.gain nullAccount (-P.shares nullAccount 0))
  | join {f P} (account : AccountName) (hnew : account ∉ P.names) :
      PollStep (f, P) (f, { P with names := insert account P.names })
  | split {P} : PollStep (0, P) (1, { P with shares := fun x j => P.shares x j * 1000000 })
  | tally {f P} : PollStep (f, P) (f + 1, { P with
      votes := fun w => ∑ x ∈ P.voters w, P.weight maxProxyRecursionDepth x })
  | hardfork {f P} (hlate : 3 ≤ f) : PollStep (f, P) (f + 1, P)

/-- Chains of proxies end, the null account takes no part, and outside of hardforks 1 and 2 the
votes are tallied. -/
structure PollKept (c : Nat × Poll AccountName) : Prop where
  consistent : c.2.Consistent maxProxyRecursionDepth
  nullProxy : c.2.parent nullAccount = none
  nullVotes : ∀ w, (nullAccount, w) ∉ c.2.voted
  tallied : c.1 = 0 ∨ 3 ≤ c.1 → c.2.Tallied maxProxyRecursionDepth

namespace PollStep

variable {c c' : Nat × Poll AccountName}

/-- No step makes a chain of proxies endless. -/
theorem grounded (h : PollStep c c') (hg : Grounded c.2.parent) : Grounded c'.2.parent := by
  cases h with
  | unfollow account => exact hg.cut account
  | leave account => exact hg.cut account
  | follow account p hnull hp havoid =>
    exact (hg.cut account).attach fun n hn => havoid n (hop_of_hop_cut hn)
  | _ => exact hg

/-- A node that leaves, also as the first half of taking a new proxy. -/
theorem kept_leave {f : Nat} {P : Poll AccountName} (hk : PollKept (f, P)) (account : AccountName) :
    PollKept (f, (P.adjust maxProxyRecursionDepth (fun j => -P.shares account j) account).leave
      account) := by
  refine ⟨hk.consistent.leave account, ?_, ?_, fun hf => (hk.tallied hf).leave account⟩
  · change cut P.parent account nullAccount = none
    by_cases hx : nullAccount = account
    · rw [hx, cut_self]
    · exact (cut_of_ne hx).trans hk.nullProxy
  · exact fun w hw => hk.nullVotes w (mem_of_mem_filter _ hw)

/-- Every step keeps the poll consistent and tallied. -/
theorem kept (h : PollStep c c') (hk : PollKept c) : PollKept c' := by
  cases h with
  | unfollow account hproxy =>
    rw [hk.consistent.unfollow_eq hproxy]
    exact kept_leave hk account
  | leave account => exact kept_leave hk account
  | follow account p hnull hp havoid =>
    rename_i f P
    obtain ⟨hc, hn, hnv, ht⟩ := kept_leave hk account
    have hvoted : ∀ w, (account, w) ∉ ((P.adjust maxProxyRecursionDepth
        (fun j => -P.shares account j) account).leave account).voted :=
      fun w hw => (mem_filter.mp hw).2 rfl
    have hshares : ((P.adjust maxProxyRecursionDepth (fun j => -P.shares account j)
        account).leave account).shares account = P.shares account := by
      funext j
      change P.shares account j + _ = P.shares account j
      rw [sum_eq_zero fun m _ => if_neg (hk.consistent.grounded.acyclic m account),
        ite_self, add_zero]
    have hfollow := hc.follow (cut_self _ _) hvoted hp fun n hn => havoid n (hop_of_hop_cut hn)
    have htally := fun hf => (ht hf).follow (p := p) hvoted
    rw [hshares] at hfollow htally
    exact ⟨hfollow, (attach_of_ne hnull.symm).trans hn, hnv, htally⟩
  | vote account w votes hnull hmem hroot hnew hvotes =>
    refine ⟨hk.consistent.vote hroot votes, hk.nullProxy, ?_, fun hf => ?_⟩
    · intro v hv
      rcases mem_insert.mp hv with he | hv
      · exact hnull (congrArg Prod.fst he).symm
      · exact hk.nullVotes v hv
    · rw [hvotes hf]
      exact (hk.tallied hf).vote hmem hroot hnew
  | unvote account w votes hmem hroot hold hvotes =>
    refine ⟨hk.consistent.unvote votes, hk.nullProxy, ?_, fun hf => ?_⟩
    · exact fun v hv => hk.nullVotes v (mem_of_mem_erase hv)
    · rw [hvotes hf]
      exact (hk.tallied hf).unvote hmem hroot hold
  | gain account d hmem =>
    exact ⟨hk.consistent.gain hmem d, hk.nullProxy, hk.nullVotes, fun hf => (hk.tallied hf).gain d⟩
  | clear hmem =>
    exact ⟨hk.consistent.gain_silent hmem hk.nullProxy _, hk.nullProxy, hk.nullVotes,
      fun hf => (hk.tallied hf).gain_silent hk.nullVotes _⟩
  | join account hnew =>
    exact ⟨hk.consistent.join hnew, hk.nullProxy, hk.nullVotes,
      fun hf => (hk.tallied hf).join hk.consistent hnew⟩
  | split =>
    exact ⟨hk.consistent.split 1000000, hk.nullProxy, hk.nullVotes, fun hf => by omega⟩
  | tally => exact ⟨{ hk.consistent with }, hk.nullProxy, hk.nullVotes, fun _ _ => rfl⟩
  | hardfork hlate =>
    exact ⟨hk.consistent, hk.nullProxy, hk.nullVotes, fun _ => hk.tallied (Or.inr hlate)⟩

end PollStep

namespace Electorate

variable {s s' : Electorate}

/-- What the machine sees of an electorate. -/
def view (s : Electorate) : Nat × Poll AccountName := (s.hardfork, s.poll)

/-- A change of the shares is a step of the poll. -/
theorem changeVesting_view {account : AccountName} {delta total : Int}
    (h : s.changeVesting account delta total = .ok s') : PollStep s.view s'.view := by
  obtain ⟨hfork, hmem, hpoll⟩ := changeVesting_spec h
  rw [view, view, hfork, hpoll]
  exact .gain account delta hmem

/-- Each step of the chain is a number of steps of the machine. -/
theorem apply_view {step : VotingStep} (h : s.apply step = .ok s') :
    ReflTransGen PollStep s.view s'.view := by
  have hsame : s'.hardfork = s.hardfork ∧ s'.poll = s.poll →
      ReflTransGen PollStep s.view s'.view := by
    rintro ⟨hfork, hpoll⟩
    rw [view, view, hfork, hpoll]
  cases step with
  | accountWitnessProxy account proxy =>
    obtain ⟨hnull, hfork, hspec⟩ := accountWitnessProxy_spec h
    refine .single ?_
    rw [view, view, hfork]
    cases proxy with
    | none =>
      obtain ⟨hproxy, hpoll⟩ := hspec
      rw [hpoll]
      exact .unfollow account hproxy
    | some p =>
      obtain ⟨hp, havoid, hpoll⟩ := hspec
      rw [hpoll]
      exact .follow account p hnull hp havoid
  | accountWitnessVote account witness =>
    obtain ⟨hnull, hfork, hmem, hroot, hcases⟩ := accountWitnessVote_spec h
    refine .single ?_
    rw [view, view, hfork]
    rcases hcases with ⟨hnew, hpoll, hexact⟩ | ⟨hold, hpoll, hexact⟩
    · rw [hpoll]
      exact .vote account witness _ hnull hmem hroot hnew fun hf => congrArg Poll.votes (hexact hf)
    · rw [hpoll]
      exact .unvote account witness _ hmem hroot hold fun hf => congrArg Poll.votes (hexact hf)
  | declineVotingRights => exact hsame (declineVotingRights_spec h)
  | processDeclineVotingRights =>
    refine forEach_invariant (P := fun t => ReflTransGen PollStep s.view t.view)
      (fun e _ t t' ht h => ht.tail ?_) .refl h
    obtain ⟨hfork, hpoll⟩ := declineNow_spec h
    rw [view, view, hfork, hpoll]
    exact .leave e.1
  | gainVesting => exact .single (changeVesting_view h)
  | depositVests =>
    simp only [apply, depositVests] at h
    split at h
    · exact .single (changeVesting_view h)
    · cases h
      exact .refl
  | withdrawVests =>
    simp only [apply, withdrawVests] at h
    split at h
    · exact .single (changeVesting_view h)
    · cases h
      exact hsame ⟨rfl, rfl⟩
  | clearNullVesting =>
    obtain ⟨hfork, hmem, hpoll | hpoll⟩ := clearNullVesting_spec h
    · exact hsame ⟨hfork, hpoll⟩
    · refine .single ?_
      rw [view, view, hfork, hpoll]
      exact .clear hmem
  | accountCreate name =>
    obtain ⟨hfork, hnew, hpoll⟩ := accountCreate_spec h
    refine .single ?_
    rw [view, view, hfork, hpoll]
    exact .join name hnew
  | witnessUpdate => exact hsame (witnessUpdate_spec h)
  | applyHardfork =>
    obtain ⟨hfork, hcases⟩ := applyHardfork_spec h
    refine .single ?_
    rw [view, view, hfork]
    rcases hcases with ⟨hzero, hpoll⟩ | ⟨-, hpoll⟩ | ⟨hlate, hpoll⟩
    · rw [hzero, hpoll]
      exact .split
    · rw [hpoll]
      exact .tally
    · rw [hpoll]
      exact .hardfork hlate
  | advance =>
    simp only [apply, returns] at h
    obtain ⟨-, -, rfl⟩ := h
    exact hsame ⟨rfl, rfl⟩

/-- A run of the chain is a run of the machine. -/
theorem run_view (s : Electorate) (steps : List VotingStep) :
    ReflTransGen PollStep s.view (s.run steps).view := by
  induction steps generalizing s with
  | nil => exact .refl
  | cons step steps ih =>
    refine ReflTransGen.trans ?_ (ih (s.afterStep step))
    rw [afterStep]
    split
    · rename_i s' h
      exact apply_view h
    · exact .refl

/-- A property that steps keep is kept along runs. -/
theorem run_induction {I : Nat × Poll AccountName → Prop}
    (step : ∀ {c c'}, PollStep c c' → I c → I c') (hs : I s.view) (steps : List VotingStep) :
    I (s.run steps).view := by
  have hrun := s.run_view steps
  generalize (s.run steps).view = c at hrun ⊢
  induction hrun with
  | refl => exact hs
  | tail _ hstep ih => exact step hstep ih

/-- The proxies of accounts that start without any never form a cycle. -/
theorem run_acyclic (s : Electorate) (h : ∀ x, s.poll.parent x = none) (steps : List VotingStep) :
    Acyclic (s.run steps).poll.parent := by
  have hgrounded : Grounded s.poll.parent := fun x => ⟨1, hop_of_root (h x) 0⟩
  exact (run_induction (I := fun c => Grounded c.2.parent) PollStep.grounded hgrounded
    steps).acyclic

theorem genesis_parent (time : Nat) (x : AccountName) : (genesis time).poll.parent x = none := by
  simp only [poll]
  cases h : (genesis time).accounts.find? x with
  | none => rfl
  | some a =>
    have hmem := Table.find?_eq_some.mp h
    simp only [genesis, List.mem_cons, Prod.mk.injEq, List.not_mem_nil, or_false] at hmem
    rcases hmem with ⟨-, rfl⟩ | ⟨-, rfl⟩ | ⟨-, rfl⟩ | ⟨-, rfl⟩ <;> rfl

/-- Three accounts choose one another in turn; the last choice would close a cycle and fails. -/
def chooseInTurn : List VotingStep :=
  [.accountCreate 10, .accountCreate 11, .accountCreate 12, .accountWitnessProxy 10 (some 11),
    .accountWitnessProxy 11 (some 12), .accountWitnessProxy 12 (some 10)]

theorem run_acyclic_chooseInTurn : Acyclic ((genesis 0).run chooseInTurn).poll.parent :=
  run_acyclic (genesis 0) (genesis_parent 0) chooseInTurn

example : ((genesis 0).run chooseInTurn).poll.parent 11 = some 12 ∧
    ((genesis 0).run chooseInTurn).poll.parent 12 = none := by decide +kernel

theorem kept_genesis (time : Nat) : PollKept (genesis time).view := by
  have hshares : ∀ x j, (genesis time).poll.shares x j = 0 := by
    intro x j
    simp only [poll]
    cases h : (genesis time).accounts.find? x with
    | none => rfl
    | some a =>
      have hmem := Table.find?_eq_some.mp h
      simp only [genesis, List.mem_cons, Prod.mk.injEq, List.not_mem_nil, or_false] at hmem
      rcases hmem with ⟨-, rfl⟩ | ⟨-, rfl⟩ | ⟨-, rfl⟩ | ⟨-, rfl⟩ <;>
        cases j <;> simp [Voter.shares]
  have hvotes : ∀ w, (genesis time).poll.votes w = 0 := by
    intro w
    simp only [poll, genesis, Table.find?]
    by_cases hw : initMinerAccount = w <;> simp [hw]
  refine ⟨⟨?_, ?_, ?_, fun x _ j => hshares x j, ?_⟩, genesis_parent time _, ?_, fun _ w => ?_⟩
  · exact fun x => ⟨1, hop_of_root (genesis_parent time x) 0⟩
  · intro x q hq
    rw [show (genesis time).view.2.parent x = none from genesis_parent time x] at hq
    cases hq
  · intro x j _
    refine (hshares x j).trans (sum_eq_zero fun y _ => ?_).symm
    split_ifs
    · exact hshares y 0
    · rfl
  · intro v hv
    exact absurd hv (notMem_empty v)
  · exact fun w hw => absurd hw (notMem_empty _)
  · refine (hvotes w).trans (sum_eq_zero fun x _ => ?_).symm
    exact sum_eq_zero fun j _ => hshares x j

/-- The vesting shares of an account. -/
def vestingOf (s : Electorate) (x : AccountName) : Int :=
  (s.accounts.find? x).elim 0 Voter.vestingShares

/-- The weight of an account. -/
def weightOf (s : Electorate) (x : AccountName) : Int :=
  (s.accounts.find? x).elim 0 Voter.witnessVoteWeight

/-- The proxied shares of each account are those of the accounts at each number of hops. -/
def ProxiedAgree (s : Electorate) : Prop :=
  ∀ x a, s.accounts.find? x = some a → ∀ i : Fin maxProxyRecursionDepth,
    a.proxiedVsfVotes i = hopSum s.accounts.keys s.poll.parent s.vestingOf (i + 1) x

/-- The votes of each witness are the weights of the accounts that vote for it themselves. -/
def WitnessesAgree (s : Electorate) : Prop :=
  ∀ w votes, s.witnesses.find? w = some votes → votes = ∑ x ∈ s.poll.voters w, s.weightOf x

/-- The proxied shares of a consistent poll are the sums over the followers. -/
theorem proxiedAgree_of_kept (h : PollKept s.view) : s.ProxiedAgree := by
  intro x a ha i
  have hshares := h.consistent.shares x (i + 1) i.2
  have hown : (fun y => s.poll.shares y 0) = s.vestingOf := by
    funext y
    cases s.accounts.find? y with
    | none => rfl
    | some b => rfl
  change s.poll.shares x (i + 1) = hopSum s.poll.names s.poll.parent (s.poll.shares · 0) (i + 1) x
    at hshares
  rw [hown, poll_shares ha, Voter.shares, dif_pos i.2] at hshares
  exact hshares

/-- The votes of a tallied poll are the sums over the voters. -/
theorem witnessesAgree_of_tallied (h : s.poll.Tallied maxProxyRecursionDepth) :
    s.WitnessesAgree := by
  intro w votes hw
  have hvotes : s.poll.votes w = votes := by simp only [poll, hw, Option.getD_some]
  rw [← hvotes, h w]
  refine sum_congr rfl fun x hx => ?_
  have hmem := (Poll.mem_voters.mp hx).1
  rw [show s.poll.names = s.accounts.keys from rfl, Table.mem_keys,
    Option.isSome_iff_exists] at hmem
  obtain ⟨a, ha⟩ := hmem
  rw [poll_weight ha, weightOf, ha, Option.elim_some]

/-- The proxied shares agree in every state of every run, and the votes of the witnesses do so
outside of hardforks 1 and 2. -/
theorem run_votes_agree (time : Nat) (steps : List VotingStep) :
    ((genesis time).run steps).ProxiedAgree ∧
      (((genesis time).run steps).hardfork = 0 ∨ 3 ≤ ((genesis time).run steps).hardfork →
        ((genesis time).run steps).WitnessesAgree) := by
  have hkept := run_induction (I := PollKept) PollStep.kept (kept_genesis time) steps
  exact ⟨proxiedAgree_of_kept hkept, fun hf => witnessesAgree_of_tallied (hkept.tallied hf)⟩

/-- A chain of three proxies at whose end an account votes, after three hardforks. -/
def proxiedVotes : List VotingStep :=
  List.replicate 3 .applyHardfork ++ [.accountCreate 10, .accountCreate 11, .accountCreate 12,
    .gainVesting 10 1, .gainVesting 11 20, .gainVesting 12 300, .accountWitnessVote 12 2 true,
    .accountWitnessProxy 10 (some 11), .accountWitnessProxy 11 (some 12)]

theorem run_votes_agree_proxiedVotes : ((genesis 0).run proxiedVotes).WitnessesAgree :=
  (run_votes_agree 0 proxiedVotes).2 (Or.inr (by decide +kernel))

example : ((genesis 0).run proxiedVotes).witnesses.find? 2 = some 321 := by decide +kernel

/-- An account votes before the split of hardfork 1. -/
def votedBeforeSplit : List VotingStep :=
  [.gainVesting 2 5, .accountWitnessVote 2 2 true, .applyHardfork]

theorem run_votes_agree_votedBeforeSplit : ¬ (((genesis 0).run votedBeforeSplit).ProxiedAgree ∧
      ((genesis 0).run votedBeforeSplit).WitnessesAgree) := by
  rintro ⟨-, h⟩
  have hvotes : ((genesis 0).run votedBeforeSplit).witnesses.find? 2 = some 5 := by decide +kernel
  have hsum : ∑ x ∈ ((genesis 0).run votedBeforeSplit).poll.voters 2,
      ((genesis 0).run votedBeforeSplit).weightOf x = 5000000 := by decide +kernel
  have hagree := h 2 5 hvotes
  rw [hsum] at hagree
  cases hagree

end Electorate

end Freezone.Chain.Voting
