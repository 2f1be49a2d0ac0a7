import Freezone.Chain.Voting.Adjust

/-!
# What each function does to the poll

One lemma for each function of the database: the poll after it in terms of the poll
before it.
-/

namespace Freezone.Chain.Voting.Electorate

open Funds (AccountName nullAccount numHardforks uniqueness)
open Forest List Function

variable {s s' : Electorate} {account witness : AccountName} {a : Voter}

/-- The votes of one account leave the poll. -/
theorem clearWitnessVotes_spec (h : s.clearWitnessVotes account = .ok s') :
    s'.hardfork = s.hardfork ∧
      s'.poll = { s.poll with voted := s.poll.voted.filter fun v => v.1 ≠ account } := by
  simp only [clearWitnessVotes, returns, getAccount_eq_ok] at h
  obtain ⟨a, ha, h⟩ := h
  have hvoted : (s.witnessVotes.restrict fun k => k.1 ≠ account).keys =
      s.poll.voted.filter fun v => v.1 ≠ account := by
    ext v
    rw [Finset.mem_filter, Table.mem_keys, Table.find?_restrict]
    change _ ↔ v ∈ s.witnessVotes.keys ∧ _
    rw [Table.mem_keys]
    split_ifs with hv
    · simp [hv]
    · simp [hv]
  have hpoll : ({ s with witnessVotes := s.witnessVotes.restrict fun k => k.1 ≠ account } :
      Electorate).poll = { s.poll with voted := s.poll.voted.filter fun v => v.1 ≠ account } :=
    Poll.ext rfl rfl rfl hvoted rfl
  split at h
  · cases h
    refine ⟨rfl, Eq.trans ?_ hpoll⟩
    exact poll_setAccount_same (s := { s with
      witnessVotes := s.witnessVotes.restrict fun k => k.1 ≠ account }) ha rfl rfl
  · cases h
    exact ⟨rfl, hpoll⟩

/-- A new proxy changes the parent only. -/
theorem poll_setProxy (ha : s.accounts.find? account = some a) (a' : Voter)
    (hshares : a'.shares = a.shares) : (s.setAccount account a').poll =
      { s.poll with parent := Function.update s.poll.parent account a'.proxy } := by
  have hown : s.poll.shares account = a.shares := funext (poll_shares ha)
  rw [poll_setAccount ha, hshares, ← hown, update_eq_self]

/-- New vesting shares are a gain. -/
theorem poll_setShares (ha : s.accounts.find? account = some a) (shares : Int) :
    (s.setAccount account { a with vestingShares := shares }).poll =
      s.poll.gain account (shares - a.vestingShares) := by
  rw [poll_setAccount ha]
  refine Poll.ext rfl ?_ ?_ rfl rfl
  · change update s.poll.parent account a.proxy = s.poll.parent
    rw [← poll_parent ha, update_eq_self]
  funext x j
  simp only [Poll.gain, update_apply]
  by_cases hx : x = account
  · rw [if_pos hx, hx, poll_shares ha]
    cases j with
    | zero => simp [Voter.shares]
    | succ j => simp [Voter.shares]
  · rw [if_neg hx, if_neg (fun hn => hx hn.1), add_zero]

/-- The count of the votes of an account is not part of the poll. -/
theorem poll_setCount (ha : s.accounts.find? account = some a) (n : Nat) :
    (s.setAccount account { a with witnessesVotedFor := n }).poll = s.poll :=
  poll_setAccount_same ha rfl rfl

/-- A chain that passes the check avoids the account. -/
theorem checkProxyChain_avoids {rounds : Nat} {chain : List AccountName} {current : AccountName}
    {u : Unit} (h : s.checkProxyChain rounds chain current = .ok u) (hmem : account ∈ chain)
    (n : Nat) : hop s.poll.parent (n + 1) current ≠ some account := by
  induction rounds generalizing chain current n with
  | zero => cases h
  | succ rounds ih =>
    simp only [checkProxyChain, returns, getAccount_eq_ok] at h
    obtain ⟨c, hc, h⟩ := h
    split at h
    · rename_i hroot
      rw [hop_of_root ((poll_parent hc).trans hroot)]
      simp
    · rename_i next hnext
      simp only [returns] at h
      obtain ⟨-, -, -, hnew, -, -, h⟩ := h
      rw [hop_of_parent ((poll_parent hc).trans hnext)]
      cases n with
      | zero => exact fun he => hnew (Option.some.inj he ▸ hmem)
      | succ n => exact ih h (mem_cons_of_mem next hmem) n

/-- Clearing the proxy takes back what the account holds, and setting one gives that to the new
proxy, which the account is not above. -/
theorem accountWitnessProxy_spec {proxy : Option AccountName}
    (h : s.accountWitnessProxy account proxy = .ok s') :
    account ≠ nullAccount ∧ s'.hardfork = s.hardfork ∧
      match proxy with
      | none => s.poll.parent account ≠ none ∧
          s'.poll = (s.poll.adjust maxProxyRecursionDepth (fun j => -s.poll.shares account j)
            account).unfollow account
      | some p => p ∈ s.poll.names ∧ (∀ n, hop s.poll.parent n p ≠ some account) ∧
          s'.poll = ((((s.poll.adjust maxProxyRecursionDepth (fun j => -s.poll.shares account j)
            account).leave account).follow account p).adjust maxProxyRecursionDepth
              (s.poll.shares account) account) := by
  simp only [accountWitnessProxy, returns, getAccount_eq_ok] at h
  obtain ⟨-, hnull, -, hself, a, ha, -, hchange, -, -, s1, h1, h⟩ := h
  have hown : s.poll.shares account = a.shares := funext (poll_shares ha)
  obtain ⟨hrest1, hpoll1⟩ := adjustProxiedArray_spec h1
  have hfork1 : s1.hardfork = s.hardfork := by rw [hrest1]
  cases proxy with
  | none =>
    simp only [returns, getAccount_eq_ok] at h
    obtain ⟨current, hcurrent, rfl⟩ := h
    refine ⟨hnull, hfork1, ?_, ?_⟩
    · rw [poll_parent ha]
      exact hchange
    · rw [poll_setProxy hcurrent { current with proxy := none } rfl, hpoll1, hown]
      rfl
  | some p =>
    simp only [returns, getAccount_eq_ok] at h
    obtain ⟨pa, hpa, u, hcheck, s2, h2, current, hcurrent, h4⟩ := h
    obtain ⟨hfork2, hpoll2⟩ := clearWitnessVotes_spec h2
    obtain ⟨hrest4, hpoll4⟩ := adjustProxiedArray_spec h4
    have hmem : p ∈ s.poll.names := by
      have := mem_names hpa
      rw [hpoll1] at this
      exact this
    have havoid : ∀ n, hop s.poll.parent n p ≠ some account := by
      intro n
      cases n with
      | zero => exact fun he => hself he
      | succ n =>
        have := checkProxyChain_avoids hcheck (mem_cons_self (a := account)) n
        rw [hpoll1] at this
        exact this
    refine ⟨hnull, ?_, hmem, havoid, ?_⟩
    · rw [hrest4]
      exact hfork2.trans hfork1
    rw [hpoll4, poll_setProxy hcurrent { current with proxy := some p } rfl, hpoll2, hpoll1, hown]
    refine congrArg _ (Poll.ext rfl ?_ rfl rfl rfl)
    change update s.poll.parent account (some p) =
      update (update s.poll.parent account none) account (some p)
    rw [update_idem]

/-- What an adjustment for a vote does, and outside of hardforks 1 and 2 exactly. -/
theorem adjustForVote_spec {weight : Int} (h : s.adjustForVote account witness weight = .ok s')
    (hroot : s.poll.parent account = none) :
    s'.hardfork = s.hardfork ∧ s'.poll = { s.poll with votes := s'.poll.votes } ∧
      (s.hardfork = 0 ∨ 3 ≤ s.hardfork → s'.poll.votes =
        Function.update s.poll.votes witness (s.poll.votes witness + weight)) := by
  unfold adjustForVote at h
  split at h
  · obtain ⟨hsame, hvotes⟩ := adjustWitnessVote_spec h
    refine ⟨by rw [hsame], by rw [hsame]; rfl, fun _ => ?_⟩
    funext v
    rw [hvotes, update_apply]
    split_ifs with hv
    · rw [hv]
    · rw [add_zero]
  · rename_i hthree
    split_ifs at h with htwo
    · rw [adjustProxied_eq] at h
      obtain ⟨hrest, hpoll⟩ := adjustProxiedArray_spec h
      refine ⟨by rw [hrest], ?_, fun hfork => ?_⟩
      · rw [hpoll]
        exact Poll.adjust_root hroot
      · unfold HasHardfork at hthree htwo
        omega
    · simp only [returns] at h
      obtain ⟨votes, hvotes, rfl⟩ := h
      refine ⟨rfl, rfl, fun _ => ?_⟩
      funext v
      have hold : s.poll.votes witness = votes := by simp only [poll, hvotes, Option.getD_some]
      rw [update_apply, hold]
      simp only [poll, Table.find?_set hvotes]
      split_ifs
      · rfl
      · rfl

/-- A vote is new or taken back; outside of hardforks 1 and 2 the witness gains or loses the weight
of the account. -/
theorem accountWitnessVote_spec {approve : Bool}
    (h : s.accountWitnessVote account witness approve = .ok s') :
    account ≠ nullAccount ∧ s'.hardfork = s.hardfork ∧ account ∈ s.poll.names ∧
      s.poll.parent account = none ∧
      (((account, witness) ∉ s.poll.voted ∧
          s'.poll = { s.poll with
            voted := insert (account, witness) s.poll.voted, votes := s'.poll.votes } ∧
          (s.hardfork = 0 ∨ 3 ≤ s.hardfork → s'.poll =
            s.poll.vote account witness (s.poll.weight maxProxyRecursionDepth account))) ∨
        ((account, witness) ∈ s.poll.voted ∧
          s'.poll = { s.poll with
            voted := s.poll.voted.erase (account, witness), votes := s'.poll.votes } ∧
          (s.hardfork = 0 ∨ 3 ≤ s.hardfork → s'.poll =
            s.poll.unvote account witness (s.poll.weight maxProxyRecursionDepth account)))) := by
  simp only [accountWitnessVote, returns, getAccount_eq_ok] at h
  obtain ⟨-, hnull, a, ha, -, hproxy, -, -, votes, -, h⟩ := h
  have hroot : s.poll.parent account = none := (poll_parent ha).trans hproxy
  have hweight := poll_weight ha
  split at h
  · rename_i hnew
    rw [← mem_voted] at hnew
    simp only [returns, getAccount_eq_ok] at h
    obtain ⟨-, -, -, -, table, htable, s1, h1, a1, ha1, rfl⟩ := h
    obtain ⟨hfork, hpoll, hvotes⟩ := adjustForVote_spec h1 hroot
    have hset := poll_setCount ha1 ((a1.witnessesVotedFor + 1) % 2 ^ 16)
    have hvoted : ({ s with witnessVotes := table } : Electorate).poll =
        { s.poll with voted := insert (account, witness) s.poll.voted } :=
      Poll.ext rfl rfl rfl (Table.keys_insert htable) rfl
    rw [hvoted] at hpoll
    refine ⟨hnull, hfork, mem_names ha, hroot, Or.inl ⟨hnew, ?_, fun hf => ?_⟩⟩
    · rw [hset]
      exact hpoll
    · rw [hset, hpoll, hvotes hf, hvoted, hweight]
      rfl
  · rename_i hold
    rw [not_not, ← mem_voted] at hold
    simp only [returns, getAccount_eq_ok] at h
    obtain ⟨-, -, s1, h1, a1, ha1, rfl⟩ := h
    obtain ⟨hfork, hpoll, hvotes⟩ := adjustForVote_spec h1 hroot
    have hset := poll_setCount ha1 ((a1.witnessesVotedFor + (2 ^ 16 - 1)) % 2 ^ 16)
    have herase : ∀ t : Electorate, ({ t with
        witnessVotes := t.witnessVotes.erase (account, witness) } : Electorate).poll =
          { t.poll with voted := t.poll.voted.erase (account, witness) } := by
      intro t
      refine Poll.ext rfl rfl rfl ?_ rfl
      exact Table.keys_erase _ _
    refine ⟨hnull, hfork, mem_names ha, hroot, Or.inr ⟨hold, ?_, fun hf => ?_⟩⟩
    · rw [herase, hset, hpoll]
    · rw [herase, hset, hpoll, hvotes hf, hweight]
      rfl

/-- Declining takes back what the account holds, and its votes. -/
theorem declineNow_spec (h : s.declineNow account = .ok s') : s'.hardfork = s.hardfork ∧ s'.poll =
      (s.poll.adjust maxProxyRecursionDepth (fun j => -s.poll.shares account j) account).leave
        account := by
  simp only [declineNow, returns, getAccount_eq_ok] at h
  obtain ⟨a, ha, s1, h1, s2, h2, current, hcurrent, rfl⟩ := h
  have hown : s.poll.shares account = a.shares := funext (poll_shares ha)
  obtain ⟨hrest1, hpoll1⟩ := adjustProxiedArray_spec h1
  obtain ⟨hfork2, hpoll2⟩ := clearWitnessVotes_spec h2
  constructor
  · refine Eq.trans (b := s1.hardfork) hfork2 ?_
    rw [hrest1]
  · refine Eq.trans (poll_setProxy hcurrent
      { current with canVote := false, proxy := none } rfl) ?_
    rw [hpoll2, hpoll1, hown]
    rfl

/-- A change of vesting shares is a gain that is adjusted for. -/
theorem changeVesting_spec {delta total : Int} (h : s.changeVesting account delta total = .ok s') :
    s'.hardfork = s.hardfork ∧ account ∈ s.poll.names ∧ s'.poll =
      (s.poll.gain account delta).adjust maxProxyRecursionDepth (Poll.single delta) account := by
  simp only [changeVesting, returns, getAccount_eq_ok, adjustProxied_eq] at h
  obtain ⟨a, ha, h⟩ := h
  obtain ⟨hrest, hpoll⟩ := adjustProxiedArray_spec h
  refine ⟨by rw [hrest]; rfl, mem_names ha, ?_⟩
  rw [hpoll]
  refine congrArg _ ((poll_setShares ha _).trans ?_)
  rw [add_sub_cancel_left]

/-- The null account keeps its shares or loses them. -/
theorem clearNullVesting_spec {emptied : Bool} (h : s.clearNullVesting emptied = .ok s') :
    s'.hardfork = s.hardfork ∧ nullAccount ∈ s.poll.names ∧
      (s'.poll = s.poll ∨ s'.poll = s.poll.gain nullAccount (-s.poll.shares nullAccount 0)) := by
  simp only [clearNullVesting, returns, getAccount_eq_ok] at h
  obtain ⟨a, ha, h⟩ := h
  split at h
  · cases h
    refine ⟨rfl, mem_names ha, Or.inr ?_⟩
    refine Eq.trans (poll_setShares (s := { s with
      totalVestingShares := s.totalVestingShares - a.vestingShares }) ha 0) ?_
    rw [zero_sub, poll_shares ha]
    rfl
  · cases h
    exact ⟨rfl, mem_names ha, Or.inl rfl⟩

/-- A new account joins the poll. -/
theorem accountCreate_spec (h : s.accountCreate account = .ok s') :
    s'.hardfork = s.hardfork ∧ account ∉ s.poll.names ∧
      s'.poll = { s.poll with names := insert account s.poll.names } := by
  simp only [accountCreate, returns] at h
  obtain ⟨accounts, hins, rfl⟩ := h
  have hnew : s.accounts.find? account = none := (Table.insert_eq_some.mp hins).1
  refine ⟨rfl, ?_, Poll.ext (Table.keys_insert hins) ?_ ?_ rfl rfl⟩
  · change account ∉ s.accounts.keys
    rw [Table.mem_keys, hnew]
    simp
  · funext x
    simp only [poll, Table.find?_insert hins]
    split_ifs with hx
    · rw [hx, hnew]
      rfl
    · rfl
  · funext x j
    simp only [poll, Table.find?_insert hins]
    split_ifs with hx
    · rw [hx, hnew]
      cases j <;> simp [Voter.shares]
    · rfl

/-- An update of a witness does not change the poll. -/
theorem witnessUpdate_spec (h : s.witnessUpdate account = .ok s') :
    s'.hardfork = s.hardfork ∧ s'.poll = s.poll := by
  simp only [witnessUpdate, returns] at h
  obtain ⟨a, -, h⟩ := h
  split at h
  · cases h
    exact ⟨rfl, rfl⟩
  simp only [returns] at h
  obtain ⟨witnesses, hins, rfl⟩ := h
  have hnew : s.witnesses.find? account = none := (Table.insert_eq_some.mp hins).1
  refine ⟨rfl, Poll.ext rfl rfl rfl rfl ?_⟩
  funext w
  simp only [poll, Table.find?_insert hins]
  split_ifs with hw
  · rw [hw, hnew]
    rfl
  · rfl

/-- The counts of votes are not part of the poll. -/
theorem poll_retallyCounts (s : Electorate) (force : Bool) :
    (s.retallyWitnessVoteCounts force).poll = s.poll := by
  refine Poll.ext (Table.keys_mapWithKey _ _) ?_ ?_ rfl rfl
  · funext x
    simp only [poll, retallyWitnessVoteCounts, Table.find?_mapWithKey]
    cases s.accounts.find? x with
    | none => rfl
    | some a => rfl
  · funext x j
    simp only [poll, retallyWitnessVoteCounts, Table.find?_mapWithKey]
    cases s.accounts.find? x with
    | none => rfl
    | some a => cases j <;> rfl

/-- The loop over the accounts adds the weights of those that vote themselves. -/
theorem retallyLoop_spec {l : List (AccountName × Voter)} {t : Electorate}
    (hl : (l.map Prod.fst).Nodup) (hmem : ∀ e ∈ l, e ∈ s.accounts.entries)
    (ht : t = { s with witnesses := t.witnesses }) (h : forEach retallyAccount l t = .ok s') :
    s' = { s with witnesses := s'.witnesses } ∧ ∀ w, s'.poll.votes w = t.poll.votes w +
      ∑ x ∈ (l.map Prod.fst).toFinset, if s.poll.parent x = none ∧ s.Voted x w then
        s.poll.weight maxProxyRecursionDepth x else 0 := by
  induction l generalizing t with
  | nil =>
    simp only [forEach] at h
    cases h
    exact ⟨ht, fun w => by simp⟩
  | cons e l ih =>
    simp only [forEach, returns] at h
    obtain ⟨t1, h1, h⟩ := h
    rw [map_cons, nodup_cons] at hl
    have he : s.accounts.find? e.1 = some e.2 :=
      Table.find?_eq_some.mpr (hmem e mem_cons_self)
    have hstep : t1 = { s with witnesses := t1.witnesses } ∧ ∀ w, t1.poll.votes w =
        t.poll.votes w + if s.poll.parent e.1 = none ∧ s.Voted e.1 w then
          s.poll.weight maxProxyRecursionDepth e.1 else 0 := by
      unfold retallyAccount at h1
      rw [poll_parent he, poll_weight he]
      split_ifs at h1 with hroot
      · obtain ⟨hsame, hvotes⟩ := adjustWitnessVotes_spec h1
        refine ⟨by rw [hsame, ht], fun w => ?_⟩
        have hvoted : t.Voted e.1 w ↔ s.Voted e.1 w := by rw [ht]; rfl
        rw [hvotes]
        simp only [hvoted, hroot, true_and]
      · cases h1
        exact ⟨ht, fun w => by rw [if_neg (fun hn => hroot hn.1), add_zero]⟩
    obtain ⟨hsame, hvotes⟩ := ih hl.2 (fun f hf => hmem f (mem_cons_of_mem e hf)) hstep.1 h
    refine ⟨hsame, fun w => ?_⟩
    rw [hvotes, hstep.2, map_cons, toFinset_cons, Finset.sum_insert
      (fun hn => hl.1 (mem_toFinset.mp hn)), add_assoc]

/-- Tallying again gives each witness the weights of its voters. -/
theorem retally_spec (h : s.retallyWitnessVotes = .ok s') :
    s'.hardfork = s.hardfork ∧ s'.poll = { s.poll with
      votes := fun w => ∑ x ∈ s.poll.voters w, s.poll.weight maxProxyRecursionDepth x } := by
  obtain ⟨hsame, hvotes⟩ := retallyLoop_spec (s := s) s.accounts.nodup (fun _ he => he) rfl h
  refine ⟨by rw [hsame], Poll.ext (by rw [hsame]; rfl) (by rw [hsame]; rfl) (by rw [hsame]; rfl)
    (by rw [hsame]; rfl) ?_⟩
  funext w
  have hzero : ({ s with witnesses := s.witnesses.map fun _ => 0 } : Electorate).poll.votes w =
      0 := by
    simp only [poll, Table.find?_map]
    cases s.witnesses.find? w <;> rfl
  rw [hvotes, hzero, zero_add]
  change _ = ∑ x ∈ s.poll.names.filter
    (fun x => s.poll.parent x = none ∧ (x, w) ∈ s.poll.voted), _
  rw [Finset.sum_filter]
  refine Finset.sum_congr rfl fun x _ => ?_
  simp only [mem_voted]

/-- A request to decline does not change the poll. -/
theorem declineVotingRights_spec {decline : Bool}
    (h : s.declineVotingRights account decline = .ok s') :
    s'.hardfork = s.hardfork ∧ s'.poll = s.poll := by
  simp only [declineVotingRights, returns] at h
  obtain ⟨-, -, a, -, h⟩ := h
  split at h
  · simp only [returns] at h
    obtain ⟨-, -, requests, -, rfl⟩ := h
    exact ⟨rfl, rfl⟩
  · simp only [returns] at h
    obtain ⟨-, -, rfl⟩ := h
    exact ⟨rfl, rfl⟩

/-- The split multiplies all shares. -/
theorem poll_split (s : Electorate) (magnitude : Int) :
    ({ s with accounts := s.accounts.map (splitShares magnitude) } : Electorate).poll =
      { s.poll with shares := fun x j => s.poll.shares x j * magnitude } := by
  refine Poll.ext (s.accounts.keys_mapWithKey fun _ => splitShares magnitude) ?_ ?_ rfl rfl
  · funext x
    simp only [poll, Table.find?_map]
    cases s.accounts.find? x with
    | none => rfl
    | some a => rfl
  · funext x j
    simp only [poll, Table.find?_map]
    cases s.accounts.find? x with
    | none => exact (zero_mul magnitude).symm
    | some a =>
      cases j with
      | zero => rfl
      | succ j =>
        simp only [Option.map_some, Option.elim_some, Voter.shares, splitShares]
        split_ifs
        · rfl
        · exact (zero_mul magnitude).symm

/-- Hardfork 1 splits the shares, hardforks 2 and 3 tally again, and others leave the poll alone. -/
theorem applyHardfork_spec (h : s.applyHardfork = .ok s') : s'.hardfork = s.hardfork + 1 ∧
      ((s.hardfork = 0 ∧
          s'.poll = { s.poll with shares := fun x j => s.poll.shares x j * 1000000 }) ∨
        ((s.hardfork = 1 ∨ s.hardfork = 2) ∧ s'.poll = { s.poll with
          votes := fun w => ∑ x ∈ s.poll.voters w, s.poll.weight maxProxyRecursionDepth x }) ∨
        (3 ≤ s.hardfork ∧ s'.poll = s.poll)) := by
  simp only [applyHardfork, returns] at h
  obtain ⟨-, -, h⟩ := h
  split at h
  · rename_i hone
    cases h
    exact ⟨rfl, Or.inl ⟨Nat.succ.inj hone, poll_split _ 1000000⟩⟩
  · split at h
    · rename_i hone htally
      obtain ⟨hfork, hpoll⟩ := retally_spec h
      exact ⟨hfork, Or.inr (Or.inl ⟨by omega, hpoll⟩)⟩
    · rename_i hone htally
      have hlate : 3 ≤ s.hardfork := by omega
      split at h
      · cases h
        exact ⟨rfl, Or.inr (Or.inr ⟨hlate, poll_retallyCounts _ false⟩)⟩
      split at h
      · cases h
        exact ⟨rfl, Or.inr (Or.inr ⟨hlate, poll_retallyCounts _ true⟩)⟩
      · cases h
        exact ⟨rfl, Or.inr (Or.inr ⟨hlate, rfl⟩)⟩

end Freezone.Chain.Voting.Electorate
