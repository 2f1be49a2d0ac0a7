import Freezone.Chain.Delegation.Model

/-!
# What the functions on vesting shares do

One lemma for each function that moves delegated shares: which accounts it finds
and what it leaves of them. Mana decides only whether a delegation is accepted.
-/

namespace Freezone.Chain.Delegation.Registry

open Protocol List Table Except
open Funds (AccountName nullAccount maximumTime)

variable {S S' : Registry}

variable {k : HolderKey} {a : VestingAccount} {r : Nat} {shares amount : Int}

theorem createHolder_eq (h : S.createHolder k a = .ok S') :
    ∃ holders, S.holders.insert k a = some holders ∧ S' = { S with holders := holders } := by
  simp only [createHolder, returns] at h
  obtain ⟨holders, hi, rfl⟩ := h
  exact ⟨holders, hi, rfl⟩

/-- The regeneration of the manabars leaves the shares alone. -/
theorem updateManabarSince_sameShares {n : Nat} {newMana : Int} {a' : VestingAccount}
    (h : S.updateManabarSince n r newMana a = .ok a') : a.SameShares a' := by
  rw [updateManabarSince] at h
  split at h
  · exact VestingAccount.updateManabar_sameShares h
  · cases h
    exact .refl a

/-- Spending mana leaves the shares alone. -/
theorem spendMana_sameShares (shares downvoteHf21 : Int) (S : Registry) (a : VestingAccount) :
    a.SameShares (S.spendMana shares downvoteHf21 a) := by
  unfold spendMana
  split
  · exact ⟨_, _, rfl⟩
  · exact .refl a

/-- What the delegator can delegate. -/
def available (S : Registry) (a a' : VestingAccount) : Int :=
  if S.HasHardfork 20 then (S.availableMana a.effectiveVestingShares a').1
  else a.vestingShares - a.delegatedVestingShares - (a.toWithdraw - a.withdrawn)

/-- The refreshed delegator has the same shares; the rest is what they may lend. -/
theorem refreshDelegator_eq {x : Registry × Int × Int} (h : S.refreshDelegator k r = .ok x) :
    ∃ a a', S.holders.find? k = some a ∧ a.SameShares a' ∧ x.1 = S.setHolder k a' ∧
      x.2.1 = S.available a a' := by
  simp only [refreshDelegator, getHolder, returns] at h
  obtain ⟨a, ha, h⟩ := h
  split_ifs at h with h20
  · simp only [returns] at h
    obtain ⟨a', hu, rfl⟩ := h
    exact ⟨a, a', ha, VestingAccount.updateManabar_sameShares hu, rfl,
      by rw [available, if_pos h20]⟩
  · cases h
    exact ⟨a, a, ha, .refl a, by rw [setHolder, set_eq_self ha], by rw [available, if_neg h20]⟩

/-- Lending takes the shares from the delegator and gives them to the delegatee. -/
theorem lendShares_eq {k : DelegationKey} {delta : Int} (h : S.lendShares k delta r = .ok S') :
    ∃ a a' b b', S.holders.find? k.source = some a ∧
      ({ a with delegatedVestingShares := a.delegatedVestingShares + delta } :
        VestingAccount).SameShares a' ∧
      (S.setHolder k.source a').holders.find? k.target = some b ∧
      ({ b with receivedVestingShares := b.receivedVestingShares + delta } :
        VestingAccount).SameShares b' ∧
      S' = (S.setHolder k.source a').setHolder k.target b' := by
  simp only [lendShares, getHolder, returns] at h
  obtain ⟨a, ha, b, hb, b', hu, rfl⟩ := h
  obtain ⟨voting, downvote, rfl⟩ := updateManabarSince_sameShares hu
  exact ⟨a, _, b, _, ha, spendMana_sameShares _ _ _ _, hb, ⟨voting, downvote, rfl⟩, rfl⟩

/-- Reclaiming takes the shares from the delegatee. -/
theorem reclaimShares_eq {k : DelegationKey} {delta : Int}
    (h : S.reclaimShares k delta shares r = .ok S') : ∃ b b', S.holders.find? k.target = some b ∧
      ({ b with receivedVestingShares := b.receivedVestingShares - delta } :
        VestingAccount).SameShares b' ∧
      S' = S.setHolder k.target b' := by
  simp only [reclaimShares, getHolder, returns] at h
  obtain ⟨b, hb, b', hu, rfl⟩ := h
  obtain ⟨voting, downvote, rfl⟩ := updateManabarSince_sameShares hu
  obtain ⟨voting', downvote', hs⟩ := spendMana_sameShares delta shares S
    { b with
      votingManabar := voting
      downvoteManabar := downvote
      receivedVestingShares := b.receivedVestingShares - delta }
  exact ⟨b, _, hb, ⟨voting', downvote', rfl⟩, by rw [hs]⟩

/-- The shares of an expiration return to the delegator. -/
theorem returnShares_eq {x : DelegationExpiration} (h : S.returnShares x r = .ok S') :
    ∃ a a', S.holders.find? x.source = some a ∧
      ({ a with delegatedVestingShares := a.delegatedVestingShares - x.vestingShares } :
        VestingAccount).SameShares a' ∧
      S' = S.setHolder x.source a' := by
  simp only [returnShares, getHolder, returns] at h
  obtain ⟨a, ha, a', hu, rfl⟩ := h
  obtain ⟨voting, downvote, rfl⟩ := updateManabarSince_sameShares hu
  exact ⟨a, _, ha, ⟨voting, downvote, rfl⟩, rfl⟩

/-- A delegation begins, increases or decreases. -/
theorem genericDelegateVestingShares_cases {k : DelegationKey}
    (h : S.genericDelegateVestingShares k shares r = .ok S') :
    ∃ a a', S.holders.find? k.source = some a ∧ a.SameShares a' ∧
      ((∃ delegations, shares ≤ S.available a a' ∧
          S.delegations.insert k ⟨shares, S.time⟩ = some delegations ∧
          { S.setHolder k.source a' with delegations := delegations }.lendShares k shares r =
            .ok S') ∨
        (∃ d S1, S.delegations.find? k = some d ∧ d.vestingShares ≤ shares ∧
          shares - d.vestingShares ≤ S.available a a' ∧
          (S.setHolder k.source a').lendShares k (shares - d.vestingShares) r = .ok S1 ∧
          S' = { S1 with
            delegations := S1.delegations.set k { d with vestingShares := shares } }) ∨
        ∃ d S1 expiration, S.delegations.find? k = some d ∧ shares < d.vestingShares ∧
          { S.setHolder k.source a' with
            expirations := S.expirations.push ⟨k.delegator, k.symbol, d.vestingShares - shares⟩
              expiration }.reclaimShares k (d.vestingShares - shares) shares r = .ok S1 ∧
          S' = { S1 with delegations :=
            if 0 < shares then S1.delegations.set k { d with vestingShares := shares }
            else S1.delegations.erase k }) := by
  simp only [genericDelegateVestingShares, returns] at h
  obtain ⟨x, hx, m, -, h⟩ := h
  obtain ⟨a, a', ha, hs, h1, h2⟩ := refreshDelegator_eq hx
  refine ⟨a, a', ha, hs, ?_⟩
  rw [← h1, ← h2]
  have hdel : x.1.delegations = S.delegations := by rw [h1]; rfl
  have hexp : x.1.expirations = S.expirations := by rw [h1]; rfl
  have htime : x.1.time = S.time := by rw [h1]; rfl
  rw [← hdel, ← hexp, ← htime]
  split at h
  · simp only [createDelegation, returns] at h
    obtain ⟨-, hle, -, -, -, -, delegations, hi, h⟩ := h
    exact .inl ⟨delegations, hle, hi, h⟩
  · rename_i d hd
    split_ifs at h with hle
    · simp only [increaseDelegation, returns] at h
      obtain ⟨-, -, -, havail, -, -, S1, hl, rfl⟩ := h
      exact .inr (.inl ⟨d, S1, hd, hle, havail, hl, rfl⟩)
    · simp only [decreaseDelegation, returns] at h
      obtain ⟨-, -, -, -, -, -, S1, hr, rfl⟩ := h
      exact .inr (.inr ⟨d, S1, _, hd, lt_of_not_ge hle, hr, rfl⟩)

/-- A delegation with its checks: a delegatee without a balance of the token gets one first. -/
theorem delegateVestingShares_eq {k : DelegationKey}
    (h : S.delegateVestingShares k shares = .ok S') :
    k.delegator ≠ nullAccount ∧ k.delegator ≠ k.delegatee ∧ 0 ≤ shares ∧
      ∃ S1 r, (S1 = S ∨ S.createHolder k.target {} = .ok S1) ∧
        S1.genericDelegateVestingShares k shares r = .ok S' := by
  simp only [delegateVestingShares, returns] at h
  obtain ⟨-, hnull, -, hne, -, -, -, hshares, h⟩ := h
  refine ⟨hnull, hne, hshares, ?_⟩
  split at h
  · simp only [returns] at h
    obtain ⟨-, -, -, -, h⟩ := h
    exact ⟨S, _, .inl rfl, h⟩
  · simp only [returns] at h
    obtain ⟨r, -, -, -, S1, h1, h⟩ := h
    refine ⟨S1, r, ?_, h⟩
    rw [ensureHolder] at h1
    split at h1
    · rw [ok.injEq] at h1
      exact .inl h1.symm
    · exact .inr h1

/-- An account that is created with a delegation to it; before hardfork 19 the delegation may be
of no shares. -/
theorem accountCreateWithDelegation_eq {creator name : AccountName} {fee delegation : Int}
    (h : S.accountCreateWithDelegation creator name fee delegation = .ok S') :
    creator ≠ nullAccount ∧ 0 ≤ delegation ∧
      ∃ c S1, S.holders.find? (creator, .vests) = some c ∧
        delegation ≤ c.vestingShares - c.delegatedVestingShares - (c.toWithdraw - c.withdrawn) ∧
        (S.setHolder (creator, .vests)
          { c with
            delegatedVestingShares := c.delegatedVestingShares + delegation }).createHolder
          (name, .vests) { S.newAccount with receivedVestingShares := delegation } = .ok S1 ∧
        ((∃ delegations time,
            S1.delegations.insert ⟨creator, name, .vests⟩ ⟨delegation, time⟩ = some delegations ∧
            S' = { S1 with delegations := delegations }) ∨
          delegation = 0 ∧ S' = S1) := by
  simp only [accountCreateWithDelegation, getHolder, returns] at h
  obtain ⟨-, hnull, -, -, -, hpos, -, -, c, hc, -, hle, -, -, -, -, -, -, -, -, S1, h1, h⟩ := h
  refine ⟨hnull, hpos, c, S1, hc, hle, h1, ?_⟩
  split_ifs at h with hzero
  · simp only [returns] at h
    obtain ⟨delegations, hi, rfl⟩ := h
    exact .inl ⟨delegations, _, hi, rfl⟩
  · rw [ok.injEq] at h
    exact .inr ⟨by omega, h.symm⟩

/-- One round of the clearing of expirations. -/
theorem clearDelegation_eq {e : TimedEntry DelegationExpiration}
    (h : S.clearDelegation e = .ok S') : ∃ r S1, S.returnShares e.item r = .ok S1 ∧
      S' = { S1 with expirations := S1.expirations.erase e.id } := by
  simp only [clearDelegation, returns] at h
  obtain ⟨r, -, S1, h1, rfl⟩ := h
  exact ⟨r, S1, h1, rfl⟩

/-- What every round of the clearing keeps is kept by the clearing. -/
theorem clearExpiredDelegations_invariant {P : Registry → Prop}
    (step : ∀ S S' e, P S → S.expirations.first = some e → S.clearDelegation e = .ok S' → P S')
    (hS : P S) (h : S.clearExpiredDelegations = .ok S') : P S' := by
  rw [clearExpiredDelegations] at h
  generalize S.expirations.entries.length = fuel at h
  induction fuel generalizing S with
  | zero =>
    rw [clearDelegations, ok.injEq] at h
    exact h ▸ hS
  | succ fuel ih =>
    rw [clearDelegations] at h
    split at h
    · cases h
      exact hS
    rename_i e he
    split at h
    · rw [Checked.bind_eq_ok] at h
      obtain ⟨S1, h1, h⟩ := h
      exact ih (step S S1 e hS he h1) h
    · cases h
      exact hS

/-- A request is for no shares, which ends the power-down, or begins a new one. -/
theorem withdrawVesting_cases (h : S.withdrawVesting k shares = .ok S') :
    k.1 ≠ nullAccount ∧ (shares < 0 ∧ ¬ S.HasHardfork 20 ∧ S' = S ∨
      ∃ a, S.holders.find? k = some a ∧ shares ≤ a.vestingShares - a.delegatedVestingShares ∧
        (shares = 0 ∧ S' = S.setHolder k (cancelWithdrawal a) ∨
          0 < shares ∧ ∃ intervals roundUp, 0 < intervals ∧
            (S.HasHardfork 21 → intervals = 13 ∧ roundUp = true) ∧
            S' = S.setHolder k
              (S.beginWithdrawal shares (withdrawRate shares intervals roundUp) a))) := by
  simp only [withdrawVesting, returns] at h
  obtain ⟨-, hnull, -, hvesting, -, -, h⟩ := h
  refine ⟨hnull, ?_⟩
  split at h
  · rename_i hneg
    simp only [returns] at h
    obtain ⟨-, h20, rfl⟩ := h
    exact .inl ⟨hneg, h20, rfl⟩
  · rename_i hneg
    right
    split_ifs at h with hspace
    · simp only [withdrawToken, returns] at h
      obtain ⟨-, -, a, ha, -, hle, h⟩ := h
      refine ⟨a, ha, hle, ?_⟩
      split_ifs at h with hzero
      · simp only [returns] at h
        obtain ⟨-, -, rfl⟩ := h
        exact .inl ⟨hzero, rfl⟩
      · simp only [returns] at h
        obtain ⟨-, -, rfl⟩ := h
        exact .inr ⟨by omega, 13, true, by decide, fun _ => ⟨rfl, rfl⟩, rfl⟩
    · have hk : (k.1, AssetSymbol.vests) = k := by
        -- the symbols of vesting shares are that of VESTS and those of tokens
        rw [AssetSymbol.isVesting] at hvesting
        split at hvesting
        · exact Prod.ext rfl (by simpa using hvesting : k.2 = _).symm
        · exact absurd ‹_› hspace
      simp only [withdrawVests, getHolder, returns, hk] at h
      obtain ⟨a, ha, -, -, -, hle, h⟩ := h
      refine ⟨a, ha, hle, ?_⟩
      split_ifs at h with hzero
      · simp only [returns] at h
        obtain ⟨-, -, rfl⟩ := h
        exact .inl ⟨hzero, rfl⟩
      · simp only [returns] at h
        obtain ⟨-, -, rfl⟩ := h
        refine .inr ⟨by omega, _, _, ?_, fun h21 => ⟨?_, decide_eq_true h21⟩, rfl⟩
        · unfold vestingWithdrawIntervals
          split <;> decide
        · exact if_pos (le_trans (by decide) h21)

/-- An adjustment of shares changes an account or makes a new balance. -/
theorem adjustVesting_cases (h : S.adjustVesting k shares = .ok S') :
    (0 ≤ shares ∧ (S' = S ∨ S.createHolder k { vestingShares := shares } = .ok S')) ∨
      ∃ a, S.holders.find? k = some a ∧
        S' = S.setHolder k { a with vestingShares := a.vestingShares + shares } := by
  unfold adjustVesting at h
  split at h
  · simp only [getHolder, returns, Safe.add_eq_ok] at h
    obtain ⟨-, -, a, ha, _, ⟨-, rfl⟩, rfl⟩ := h
    exact .inr ⟨a, ha, rfl⟩
  · split at h
    · simp only [returns, exists_const] at h
      obtain ⟨hpos, h⟩ := h
      split at h
      · cases h
        exact .inl ⟨hpos, .inl rfl⟩
      · exact .inl ⟨hpos, .inr h⟩
    · rename_i a ha
      simp only [returns, Safe.add_eq_ok] at h
      obtain ⟨-, -, _, ⟨-, rfl⟩, rfl⟩ := h
      exact .inr ⟨a, ha, rfl⟩

/-- New shares are an adjustment by a product, unless the null account gets those of a token. -/
theorem createVesting_cases {liquid num den : Int} (h : S.createVesting k liquid num den = .ok S') :
    S' = S ∨ ∃ shares, scale liquid num den = .ok shares ∧ S.adjustVesting k shares = .ok S' := by
  unfold createVesting at h
  split at h
  · cases h
    exact .inl rfl
  · exact .inr (Checked.bind_eq_ok.mp h)

/-- A claim is an adjustment by rewarded shares. -/
theorem claimRewardVesting_eq (h : S.claimRewardVesting k shares = .ok S') :
    0 ≤ shares ∧ S.adjustVesting k shares = .ok S' := by
  simp only [claimRewardVesting, returns, exists_const] at h
  exact h.2

/-- Hardfork 1 splits the shares, and hardfork 19 removes the delegations of none. -/
theorem applyHardfork_cases (h : S.applyHardfork = .ok S') :
    (S.hardfork = 0 ∧ ∃ total, S' = { S with
      hardfork := S.hardfork + 1
      totalVestingShares := total
      holders := S.holders.mapWithKey splitShares }) ∨
    ∃ percent period fee delegations,
      (delegations = S.delegations ∨
        delegations = S.delegations.keep fun _ d => d.vestingShares ≠ 0) ∧
      S.hardfork ≠ 0 ∧ S' = { S with
        hardfork := S.hardfork + 1
        downvotePoolPercent := percent
        delegationReturnPeriod := period
        accountCreationFee := fee
        delegations := delegations } := by
  simp only [applyHardfork, returns, exists_const] at h
  obtain ⟨-, h⟩ := h
  split at h
  · rename_i hone
    cases h
    exact .inl ⟨by simpa using hone, _, rfl⟩
  · rename_i hlater
    have hne : S.hardfork ≠ 0 := by simpa using hlater
    right
    split at h
    · cases h
      exact ⟨_, _, _, _, .inr rfl, hne, rfl⟩
    split at h
    · cases h
      exact ⟨_, _, _, _, .inl rfl, hne, rfl⟩
    · split at h <;>
        · cases h
          exact ⟨_, _, _, _, .inl rfl, hne, rfl⟩

/-- What more shares of one account keep is kept by the deposits along routes. -/
theorem forEach_deposit_invariant {routes : List (AccountName × Funds.WithdrawVestingRoute)}
    {P : Registry → Prop} (step : ∀ T k a shares, P T → T.holders.find? k = some a →
      a.vestingShares ≤ shares → P (T.setHolder k { a with vestingShares := shares }))
    (hS : P S) (h : forEach (depositVests amount) routes S = .ok S') : P S' := by
  refine forEach_invariant (fun r _ T T' hT hr => ?_) hS h
  rw [depositVests] at hr
  split_ifs at hr with hpos
  · simp only [getHolder, returns] at hr
    obtain ⟨a, ha, rfl⟩ := hr
    exact step T _ a _ hT ha (by omega)
  · cases hr
    exact hT

/-- Deposits along routes only add to the shares of an account. -/
theorem forEach_deposit_find {routes : List (AccountName × Funds.WithdrawVestingRoute)}
    (h : forEach (depositVests amount) routes S = .ok S') (ha : S.holders.find? k = some a) :
    ∃ shares, a.vestingShares ≤ shares ∧
      S'.holders.find? k = some { a with vestingShares := shares } := by
  refine forEach_deposit_invariant (P := fun T => ∃ shares, a.vestingShares ≤ shares ∧
    T.holders.find? k = some { a with vestingShares := shares }) ?_ ⟨_, le_rfl, ha⟩ h
  rintro T k' b n ⟨shares, hle, hfind⟩ hb hn
  by_cases hk : k = k'
  · subst hk
    cases hfind.symm.trans hb
    exact ⟨n, hle.trans hn, find?_set_self hfind⟩
  · exact ⟨shares, hle, (find?_set_of_ne hk).trans hfind⟩

/-- The deposits along routes before an instalment of VESTS leave the account as it was but for
shares that it gains. -/
theorem payVestsInstalment_eq
    (h : S.payVestsInstalment k amount = .ok S') (ha : S.holders.find? k = some a) :
    ∃ S1 shares, forEach (depositVests amount) (S.routesOf k.1) S = .ok S1 ∧
      a.vestingShares ≤ shares ∧ S1.holders.find? k = some { a with vestingShares := shares } ∧
      S' = S1.setHolder k (payInstalment amount { a with vestingShares := shares }) := by
  simp only [payVestsInstalment, getHolder, returns] at h
  obtain ⟨S1, hdeposit, -, -, b, hb, rfl⟩ := h
  have hgain := forEach_deposit_find hdeposit ha
  obtain ⟨shares, hle, hfind⟩ := hgain
  rw [hb, Option.some.injEq] at hfind
  exact ⟨S1, shares, hdeposit, hle, hfind ▸ hb, by rw [hfind]⟩

/-- An instalment of VESTS keeps the clock and adds shares to other accounts at most. -/
theorem payVestsInstalment_frame
    (h : S.payVestsInstalment k amount = .ok S') (ha : S.holders.find? k = some a) :
    S'.time = S.time ∧ S'.hardfork = S.hardfork ∧ S'.holders.keys = S.holders.keys ∧
      (∃ shares, a.vestingShares ≤ shares ∧
        S'.holders.find? k = some (payInstalment amount { a with vestingShares := shares })) ∧
      ∀ k' b, k' ≠ k → S.holders.find? k' = some b → ∃ shares, b.vestingShares ≤ shares ∧
        S'.holders.find? k' = some { b with vestingShares := shares } := by
  obtain ⟨S1, shares, hdeposit, hle, hfind, rfl⟩ := payVestsInstalment_eq h ha
  obtain ⟨htime, hfork, hkeys⟩ : S1.time = S.time ∧ S1.hardfork = S.hardfork ∧
      S1.holders.keys = S.holders.keys := by
    refine forEach_deposit_invariant (P := fun T => T.time = S.time ∧ T.hardfork = S.hardfork ∧
      T.holders.keys = S.holders.keys) ?_ ⟨rfl, rfl, rfl⟩ hdeposit
    rintro T k a shares ⟨htime, hfork, hkeys⟩ - -
    exact ⟨htime, hfork, (keys_set _ _ _).trans hkeys⟩
  refine ⟨htime, hfork, (keys_set _ _ _).trans hkeys,
    ⟨shares, hle, find?_set_self hfind⟩, fun k' b hk hb => ?_⟩
  obtain ⟨gained, hgained, hfind'⟩ := forEach_deposit_find hdeposit hb
  exact ⟨gained, hgained, (find?_set_of_ne hk).trans hfind'⟩

/-- The instalments that the loop over the balances of tokens pays, in order. -/
def tokenPayments : Nat → Option HolderKey → Registry → List (HolderKey × Int)
  | 0, _, _ => []
  | _, none, _ => []
  | fuel + 1, some k, S =>
    match S.holders.find? k with
    | none => []
    | some a =>
      if a.nextVestingWithdrawal ≤ S.time then
        let paid := payInstalment (instalment a) a
        let S := S.setHolder k paid
        (k, instalment a) :: tokenPayments fuel (S.following true (k, paid)) S
      else []

/-- The instalments that the loop over the accounts pays, in order. -/
def vestsPayments : Nat → Option HolderKey → Registry → List (HolderKey × Int)
  | 0, _, _ => []
  | _, none, _ => []
  | fuel + 1, some k, S =>
    match S.holders.find? k with
    | none => []
    | some a =>
      if a.nextVestingWithdrawal ≤ S.time then
        match S.payVestsInstalment k (instalment a) with
        | .error _ => []
        | .ok S' => (k, instalment a) :: vestsPayments fuel (S.following false (k, a)) S'
      else []

/-- The instalments that `process_vesting_withdrawals` pays: one `fill_vesting_withdraw` operation
of the account to itself for each. -/
def payments (S : Registry) : List (HolderKey × Int) :=
  let first := (S.byNextVestingWithdrawal true).head?.map Prod.fst
  tokenPayments (S.dueInstalments + 1) first S ++
    match S.payTokenInstalments (S.dueInstalments + 1) first with
    | .error _ => []
    | .ok S' => vestsPayments (S'.dueInstalments + 1)
        ((S'.byNextVestingWithdrawal false).head?.map Prod.fst) S'

section Payments

variable {P : Registry → List (HolderKey × Int) → Prop}

/-- The loop over the balances of tokens, with the instalments paid so far. -/
theorem payTokenInstalments_payments
    (step : ∀ S l k a, P S l → S.holders.find? k = some a → a.nextVestingWithdrawal ≤ S.time →
      P (S.setHolder k (payInstalment (instalment a) a)) (l ++ [(k, instalment a)]))
    {fuel : Nat} {c : Option HolderKey} {l : List (HolderKey × Int)} (hS : P S l)
    (h : S.payTokenInstalments fuel c = .ok S') : P S' (l ++ tokenPayments fuel c S) := by
  induction fuel generalizing c l S with
  | zero =>
    rw [payTokenInstalments, ok.injEq] at h
    rw [tokenPayments, append_nil]
    exact h ▸ hS
  | succ fuel ih =>
    cases c with
    | none =>
      rw [payTokenInstalments, ok.injEq] at h
      · rw [tokenPayments, append_nil]
        · exact h ▸ hS
        · simp
      · simp
    | some k =>
      simp only [payTokenInstalments, getHolder, returns] at h
      obtain ⟨a, ha, h⟩ := h
      simp only [tokenPayments, ha]
      split_ifs at h with hdue
      · rw [Checked.bind_eq_ok] at h
        obtain ⟨-, -, h⟩ := h
        rw [if_pos hdue, append_cons]
        exact ih (step S l k a hS ha hdue) h
      · rw [ok.injEq] at h
        rw [if_neg hdue, append_nil]
        exact h ▸ hS

/-- The loop over the accounts, with the instalments paid so far. -/
theorem payVestsInstalments_payments
    (step : ∀ S S' l k a, P S l → S.holders.find? k = some a → a.nextVestingWithdrawal ≤ S.time →
      S.payVestsInstalment k (instalment a) = .ok S' → P S' (l ++ [(k, instalment a)]))
    {fuel : Nat} {c : Option HolderKey} {l : List (HolderKey × Int)} (hS : P S l)
    (h : S.payVestsInstalments fuel c = .ok S') : P S' (l ++ vestsPayments fuel c S) := by
  induction fuel generalizing c l S with
  | zero =>
    rw [payVestsInstalments, ok.injEq] at h
    rw [vestsPayments, append_nil]
    exact h ▸ hS
  | succ fuel ih =>
    cases c with
    | none =>
      rw [payVestsInstalments, ok.injEq] at h
      · rw [vestsPayments, append_nil]
        · exact h ▸ hS
        · simp
      · simp
    | some k =>
      simp only [payVestsInstalments, getHolder, returns] at h
      obtain ⟨a, ha, h⟩ := h
      simp only [vestsPayments, ha]
      split_ifs at h with hdue
      · rw [Checked.bind_eq_ok] at h
        obtain ⟨S1, h1, h⟩ := h
        rw [if_pos hdue]
        simp only [h1]
        rw [append_cons]
        exact ih (step S S1 l k a hS ha hdue h1) h
      · rw [ok.injEq] at h
        rw [if_neg hdue, append_nil]
        exact h ▸ hS

/-- What holds before the processing of power-downs and is kept by each instalment that is due holds
after it, with the instalments paid. -/
theorem processVestingWithdrawals_payments
    (token : ∀ S l k a, P S l → S.holders.find? k = some a → a.nextVestingWithdrawal ≤ S.time →
      P (S.setHolder k (payInstalment (instalment a) a)) (l ++ [(k, instalment a)]))
    (vests : ∀ S S' l k a, P S l → S.holders.find? k = some a → a.nextVestingWithdrawal ≤ S.time →
      S.payVestsInstalment k (instalment a) = .ok S' → P S' (l ++ [(k, instalment a)]))
    (hS : P S []) (h : S.processVestingWithdrawals = .ok S') : P S' S.payments := by
  rw [processVestingWithdrawals, Checked.bind_eq_ok] at h
  obtain ⟨S1, h1, h2⟩ := h
  simp only [payments, h1]
  exact payVestsInstalments_payments vests (payTokenInstalments_payments token hS h1) h2

end Payments

/-- What the instalments that are due keep is kept by the processing of power-downs. -/
theorem processVestingWithdrawals_invariant {P : Registry → Prop}
    (token : ∀ S k a, P S → S.holders.find? k = some a → a.nextVestingWithdrawal ≤ S.time →
      P (S.setHolder k (payInstalment (instalment a) a)))
    (vests : ∀ S S' k a, P S → S.holders.find? k = some a → a.nextVestingWithdrawal ≤ S.time →
      S.payVestsInstalment k (instalment a) = .ok S' → P S')
    (hS : P S) (h : S.processVestingWithdrawals = .ok S') : P S' :=
  processVestingWithdrawals_payments (P := fun S _ => P S) (fun S _ => token S)
    (fun S S' _ => vests S S') hS h

end Freezone.Chain.Delegation.Registry
