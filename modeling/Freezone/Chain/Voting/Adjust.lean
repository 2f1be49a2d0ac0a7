import Freezone.Chain.Voting.Model
import Freezone.Chain.Voting.Poll

/-!
# The poll of an electorate

The objects of the database make up a poll, and the recursive functions that adjust
votes compute the adjustment of the poll: what an account gains or loses is added
along its chain of proxies, each time one place further, and to the votes of the
witnesses at the end of the chain.
-/

namespace Freezone.Chain.Voting

open Funds (AccountName)
open Forest List Function

namespace Electorate

variable {s s' : Electorate} {account x w : AccountName} {a a' : Voter} {delta : Nat → Int}

/-- The poll that the accounts, witnesses and votes make up. -/
def poll (s : Electorate) : Poll AccountName where
  names := s.accounts.keys
  parent x := (s.accounts.find? x).bind Voter.proxy
  shares x j := (s.accounts.find? x).elim 0 fun a => a.shares j
  voted := s.witnessVotes.keys
  votes w := (s.witnesses.find? w).getD 0

theorem getAccount_eq_ok : s.getAccount account = .ok a ↔ s.accounts.find? account = some a :=
  orThrow_eq_ok

/-- The votes of the poll are those of the ledger. -/
theorem mem_voted : (x, w) ∈ s.poll.voted ↔ s.Voted x w := Table.mem_keys

theorem poll_parent (h : s.accounts.find? x = some a) : s.poll.parent x = a.proxy := by
  simp only [poll, h, Option.bind_some]

theorem poll_shares (h : s.accounts.find? x = some a) (j : Nat) :
    s.poll.shares x j = a.shares j := by
  simp only [poll, h, Option.elim_some]

/-- The weight of an account in the poll is its own vote weight. -/
theorem poll_weight (h : s.accounts.find? x = some a) :
    s.poll.weight maxProxyRecursionDepth x = a.witnessVoteWeight := by
  exact Finset.sum_congr rfl fun j _ => poll_shares h j

theorem mem_names (h : s.accounts.find? x = some a) : x ∈ s.poll.names := by
  simp only [poll, Table.mem_keys, h, Option.isSome_some]

/-- Replacing an account changes what the poll says about it. -/
theorem poll_setAccount (h : s.accounts.find? account = some a) (a' : Voter) :
    (s.setAccount account a').poll =
      { s.poll with
        parent := Function.update s.poll.parent account a'.proxy
        shares := Function.update s.poll.shares account a'.shares } := by
  refine Poll.ext (Table.keys_set _ _ _) ?_ ?_ rfl rfl
  · funext x
    simp only [poll, setAccount, Table.find?_set h, update_apply]
    split_ifs
    · rfl
    · rfl
  · funext x j
    simp only [poll, setAccount, Table.find?_set h, update_apply]
    split_ifs
    · rfl
    · rfl

/-- What the poll does not show of an account may change. -/
theorem poll_setAccount_same (h : s.accounts.find? account = some a) (hproxy : a'.proxy = a.proxy)
    (hshares : a'.shares = a.shares) : (s.setAccount account a').poll = s.poll := by
  have hown : s.poll.shares account = a.shares := funext (poll_shares h)
  rw [poll_setAccount h, hproxy, hshares, ← poll_parent h, ← hown, update_eq_self,
    update_eq_self]

/-- The votes of one witness change. -/
theorem adjustWitnessVote_spec {d : Int} (h : s.adjustWitnessVote w d = .ok s') :
    s' = { s with witnesses := s'.witnesses } ∧
      ∀ v, s'.poll.votes v = s.poll.votes v + if v = w then d else 0 := by
  simp only [adjustWitnessVote, returns] at h
  obtain ⟨votes, hvotes, -, -, rfl⟩ := h
  refine ⟨rfl, fun v => ?_⟩
  simp only [poll, Table.find?_set hvotes]
  by_cases hv : v = w
  · rw [hv, if_pos rfl, if_pos rfl, hvotes, Option.getD_some, Option.getD_some]
  · rw [if_neg hv, if_neg hv, add_zero]

theorem nodup_votedFor (s : Electorate) (account : AccountName) : (s.votedFor account).Nodup := by
  refine (perm_insertionSort _ _).nodup_iff.mpr ?_
  have hkeys := s.witnessVotes.nodup.filter fun k => k.1 = account
  rw [filter_map] at hkeys
  have hinj := hkeys.map_on (f := Prod.snd) fun k hk k' hk' heq => by
    rw [mem_map] at hk hk'
    obtain ⟨e, he, rfl⟩ := hk
    obtain ⟨e', he', rfl⟩ := hk'
    have hfst : e.1.1 = account := of_decide_eq_true (mem_filter.mp he).2
    have hfst' : e'.1.1 = account := of_decide_eq_true (mem_filter.mp he').2
    exact Prod.ext (hfst.trans hfst'.symm) heq
  rw [map_map] at hinj
  exact hinj

theorem mem_votedFor : w ∈ s.votedFor account ↔ s.Voted account w := by
  rw [votedFor, mem_insertionSort, mem_map, Voted, Option.isSome_iff_exists]
  constructor
  · rintro ⟨e, he, rfl⟩
    obtain ⟨hmem, haccount⟩ := mem_filter.mp he
    refine ⟨e.2, Table.find?_eq_some.mpr ?_⟩
    rw [← of_decide_eq_true haccount]
    exact hmem
  · rintro ⟨u, hu⟩
    exact ⟨((account, w), u), mem_filter.mpr ⟨Table.find?_eq_some.mp hu, decide_eq_true rfl⟩,
      rfl⟩

/-- The votes of all witnesses of an account change. -/
theorem adjustWitnessVotes_spec {d : Int} (h : s.adjustWitnessVotes account d = .ok s') :
    s' = { s with witnesses := s'.witnesses } ∧
      ∀ v, s'.poll.votes v = s.poll.votes v + if s.Voted account v then d else 0 := by
  have hloop : ∀ (l : List AccountName) (s : Electorate), l.Nodup →
      forEach (fun witness s => s.adjustWitnessVote witness d) l s = .ok s' →
      s' = { s with witnesses := s'.witnesses } ∧
        ∀ v, s'.poll.votes v = s.poll.votes v + if v ∈ l then d else 0 := by
    intro l
    induction l with
    | nil =>
      intro s _ h
      simp only [forEach] at h
      cases h
      exact ⟨rfl, fun v => by rw [if_neg not_mem_nil, add_zero]⟩
    | cons w l ih =>
      intro s hl h
      simp only [forEach, returns] at h
      obtain ⟨s1, h1, h⟩ := h
      obtain ⟨hw, hl⟩ := nodup_cons.mp hl
      obtain ⟨hsame1, hvotes1⟩ := adjustWitnessVote_spec h1
      obtain ⟨hsame, hvotes⟩ := ih s1 hl h
      refine ⟨by rw [hsame, hsame1], fun v => ?_⟩
      rw [hvotes, hvotes1]
      by_cases hv : v = w
      · rw [hv, if_pos rfl, if_neg hw, if_pos mem_cons_self, add_zero]
      · rw [if_neg hv, add_zero]
        simp only [mem_cons, hv, false_or]
  obtain ⟨hsame, hvotes⟩ := hloop _ s (s.nodup_votedFor account) h
  refine ⟨hsame, fun v => ?_⟩
  rw [hvotes]
  simp only [mem_votedFor]

/-- The adjustment from an account on that some proxies lead to already. -/
structure Adjusts (delta : Nat → Int) (remaining : Nat) (account : AccountName)
    (s s' : Electorate) : Prop where
  rest : s' = { s with accounts := s'.accounts, witnesses := s'.witnesses }
  names : s'.poll.names = s.poll.names
  parent : s'.poll.parent = s.poll.parent
  own : ∀ x, s'.poll.shares x 0 = s.poll.shares x 0
  proxied : ∀ x, ∀ i < maxProxyRecursionDepth, s'.poll.shares x (i + 1) = s.poll.shares x (i + 1) +
    ∑ k ∈ Finset.range remaining,
      if hop s.poll.parent (k + 1) account = some x ∧ maxProxyRecursionDepth - remaining + k ≤ i
      then delta (i - (maxProxyRecursionDepth - remaining + k)) else 0
  votes : ∀ w, s'.poll.votes w = s.poll.votes w +
    ∑ x ∈ s.poll.voters w, Poll.reach s.poll.parent delta remaining account x

/-- An account with a proxy is no voter. -/
theorem not_mem_voters (h : s.poll.parent x ≠ none) : x ∉ s.poll.voters w :=
  fun hx => h (Poll.mem_voters.mp hx).2.1

variable {remaining : Nat}

/-- At the end of a chain the votes are adjusted. -/
theorem adjusts_root (ha : s.accounts.find? account = some a) (hroot : a.proxy = none)

    (h : s.adjustWitnessVotes account (∑ i ∈ Finset.range (remaining + 1), delta i) = .ok s') :
    Adjusts delta remaining account s s' := by
  have hparent : s.poll.parent account = none := (poll_parent ha).trans hroot
  obtain ⟨hsame, hvotes⟩ := adjustWitnessVotes_spec h
  refine ⟨by rw [hsame], by rw [hsame]; rfl, by rw [hsame]; rfl, fun x => by rw [hsame]; rfl,
    fun x i _ => ?_, fun w => ?_⟩
  · rw [Finset.sum_eq_zero, add_zero, hsame]
    · rfl
    · intro k _
      rw [hop_of_root hparent, if_neg (fun hk => nomatch hk.1)]
  · have hvoter : account ∈ s.poll.voters w ↔ s.Voted account w := by
      rw [Poll.mem_voters, mem_voted]
      exact ⟨fun hx => hx.2.2, fun hx => ⟨mem_names ha, hparent, hx⟩⟩
    simp only [Poll.reach_root hparent]
    rw [hvotes, Finset.sum_ite_eq]
    simp only [hvoter]

/-- Beyond the last proxy nothing is adjusted. -/
theorem adjusts_end (hproxy : s.poll.parent account ≠ none) : Adjusts delta 0 account s s := by
  refine ⟨rfl, rfl, rfl, fun _ => rfl, fun x i _ => ?_, fun w => ?_⟩
  · rw [Finset.range_zero, Finset.sum_empty, add_zero]
  · rw [Finset.sum_eq_zero, add_zero]
    intro x hx
    have hne : account ≠ x := fun he => not_mem_voters hproxy (he ▸ hx)
    rw [Poll.reach_of_ne hne, Finset.range_zero, Finset.sum_empty]

/-- The proxy gets the array one place further, and then what is beyond it. -/
theorem adjusts_proxy {proxy : AccountName} {p : Voter}
    (hproxy : s.poll.parent account = some proxy) (hp : s.accounts.find? proxy = some p)
    (h : Adjusts delta remaining proxy (s.setAccount proxy
      (p.addProxied (maxProxyRecursionDepth - (remaining + 1)) delta)) s')
    (hr : remaining + 1 ≤ maxProxyRecursionDepth) : Adjusts delta (remaining + 1) account s s' := by
  have hset := poll_setAccount hp (p.addProxied (maxProxyRecursionDepth - (remaining + 1)) delta)
  have hparent : (s.setAccount proxy
      (p.addProxied (maxProxyRecursionDepth - (remaining + 1)) delta)).poll.parent =
        s.poll.parent := by
    rw [hset]
    change update s.poll.parent proxy p.proxy = s.poll.parent
    rw [← poll_parent hp, update_eq_self]
  have hshares : ∀ x j, (s.setAccount proxy
      (p.addProxied (maxProxyRecursionDepth - (remaining + 1)) delta)).poll.shares x j =
        if x = proxy then
          (p.addProxied (maxProxyRecursionDepth - (remaining + 1)) delta).shares j
        else s.poll.shares x j := by
    intro x j
    rw [hset]
    dsimp only
    rw [update_apply]
    split_ifs
    · rfl
    · rfl
  have hnames : (s.setAccount proxy
      (p.addProxied (maxProxyRecursionDepth - (remaining + 1)) delta)).poll.names =
        s.poll.names := by
    rw [hset]
  have hvoters : ∀ w, (s.setAccount proxy
      (p.addProxied (maxProxyRecursionDepth - (remaining + 1)) delta)).poll.voters w =
        s.poll.voters w := by
    intro w
    rw [Poll.voters, hnames, hparent]
    rfl
  refine ⟨by rw [h.rest]; rfl, h.names.trans hnames, h.parent.trans hparent, fun x => ?_,
    fun x i hi => ?_, fun w => ?_⟩
  · rw [h.own, hshares]
    split_ifs with hx
    · rw [hx, poll_shares hp]
      rfl
    · rfl
  · have hbeyond : ∀ k, (if hop s.poll.parent (k + 1) proxy = some x ∧
        maxProxyRecursionDepth - remaining + k ≤ i then
          delta (i - (maxProxyRecursionDepth - remaining + k)) else 0) =
        if hop s.poll.parent (k + 1 + 1) account = some x ∧
          maxProxyRecursionDepth - (remaining + 1) + (k + 1) ≤ i then
            delta (i - (maxProxyRecursionDepth - (remaining + 1) + (k + 1))) else 0 := by
      intro k
      have hdepth : maxProxyRecursionDepth - remaining + k =
          maxProxyRecursionDepth - (remaining + 1) + (k + 1) := by omega
      rw [hop_of_parent hproxy, hdepth]
    rw [h.proxied x i hi, hparent, Finset.sum_congr rfl fun k _ => hbeyond k, hshares,
      Finset.sum_range_succ', hop_of_parent hproxy]
    simp only [hop, Option.some.injEq, Nat.add_zero]
    by_cases hx : x = proxy
    · rw [if_pos hx, hx, poll_shares hp]
      simp only [Voter.shares, Voter.addProxied, dif_pos hi, true_and]
      ring
    · rw [if_neg hx, if_neg (fun hn => hx hn.1.symm), add_zero]
  · rw [h.votes, hvoters, hparent]
    refine congrArg _ (Finset.sum_congr rfl fun x hx => ?_)
    have hne : account ≠ x := by
      rintro rfl
      refine not_mem_voters ?_ hx
      rw [hproxy]
      simp
    rw [Poll.reach_parent hproxy hne]

/-- The walk up the proxies adjusts the poll. -/
theorem adjustProxiedArray_adjusts (h : s.adjustProxiedArray delta remaining account = .ok s')
    (hr : remaining ≤ maxProxyRecursionDepth) : Adjusts delta remaining account s s' := by
  induction remaining generalizing account s with
  | zero =>
    unfold adjustProxiedArray at h
    simp only [returns, getAccount_eq_ok] at h
    obtain ⟨a, ha, h⟩ := h
    split at h
    · rename_i hroot
      exact adjusts_root ha hroot h
    rename_i proxy hproxy
    cases h
    refine adjusts_end ?_
    rw [poll_parent ha, hproxy]
    simp
  | succ remaining ih =>
    unfold adjustProxiedArray at h
    simp only [returns, getAccount_eq_ok] at h
    obtain ⟨a, ha, h⟩ := h
    split at h
    · rename_i hroot
      exact adjusts_root ha hroot h
    · rename_i proxy hproxy
      simp only [returns, getAccount_eq_ok] at h
      obtain ⟨p, hp, h⟩ := h
      exact adjusts_proxy ((poll_parent ha).trans hproxy) hp (ih h (by omega)) hr

/-- The recursion over an array adjusts the poll. -/
theorem adjustProxiedArray_spec
    (h : s.adjustProxiedArray delta maxProxyRecursionDepth account = .ok s') :
    s' = { s with accounts := s'.accounts, witnesses := s'.witnesses } ∧
      s'.poll = s.poll.adjust maxProxyRecursionDepth delta account := by
  have hadj := adjustProxiedArray_adjusts h le_rfl
  have hvoted : s'.poll.voted = s.poll.voted := by
    rw [hadj.rest]
    rfl
  refine ⟨hadj.rest, Poll.ext hadj.names hadj.parent ?_ hvoted (funext hadj.votes)⟩
  funext x j
  by_cases hj : j ≤ maxProxyRecursionDepth
  · rw [Poll.adjust_shares hj]
    cases j with
    | zero => rw [hadj.own, Finset.range_zero, Finset.sum_empty, add_zero]
    | succ i =>
      rw [hadj.proxied x i hj]
      refine congrArg _ ?_
      simp only [Nat.sub_self, Nat.zero_add, Nat.add_sub_add_right]
      rw [← Finset.sum_subset (Finset.range_mono hj)]
      · refine Finset.sum_congr rfl fun k hk => ?_
        have hle : k ≤ i := Nat.le_of_lt_succ (Finset.mem_range.mp hk)
        simp only [hle, and_true]
      · intro k _ hk
        have hlt : ¬ k ≤ i := fun hle => hk (Finset.mem_range.mpr (Nat.lt_succ_of_le hle))
        rw [if_neg (fun hn => hlt hn.2)]
  · have hzero : ∀ t : Electorate, t.poll.shares x j = 0 := by
      intro t
      simp only [poll]
      cases t.accounts.find? x with
      | none => rfl
      | some a =>
        obtain ⟨i, rfl⟩ : ∃ i, j = i + 1 := ⟨j - 1, by omega⟩
        exact dif_neg (by omega)
    rw [hzero, Poll.adjust]
    dsimp only
    rw [hzero, if_neg hj, add_zero]

/-- A single amount is adjusted like an array with one place. -/
theorem adjustProxied_eq (d : Int) (remaining : Nat) (account : AccountName) (s : Electorate) :
    s.adjustProxied d remaining account =
      s.adjustProxiedArray (Poll.single d) remaining account := by
  induction remaining generalizing account s with
  | zero =>
    unfold adjustProxied adjustProxiedArray
    rw [Poll.sum_single]
  | succ remaining ih =>
    unfold adjustProxied adjustProxiedArray
    simp only [Poll.sum_single, ih]
    have hadd : ∀ p : Voter,
        p.addProxied (maxProxyRecursionDepth - (remaining + 1)) (Poll.single d) =
          { p with proxiedVsfVotes := fun i => p.proxiedVsfVotes i +
              if (i : Nat) = maxProxyRecursionDepth - (remaining + 1) then d else 0 } := by
      intro p
      simp only [Voter.addProxied, Voter.mk.injEq, true_and, and_true]
      funext i
      refine congrArg _ ?_
      rcases lt_trichotomy (i : Nat) (maxProxyRecursionDepth - (remaining + 1)) with hi | hi | hi
      · rw [if_neg hi.not_ge, if_neg hi.ne]
      · rw [if_pos hi.ge, if_pos hi, hi, Nat.sub_self]
        rfl
      · obtain ⟨k, hk⟩ := Nat.exists_eq_add_of_lt hi
        rw [if_pos hi.le, if_neg hi.ne', hk, Nat.add_assoc, Nat.add_sub_cancel_left]
        rfl
    simp only [hadd]

end Electorate

end Freezone.Chain.Voting
