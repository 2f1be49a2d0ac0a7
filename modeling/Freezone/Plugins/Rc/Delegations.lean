import Freezone.Plugins.Rc.Charging

/-!
# Delegations to pools

What `delegate_to_pool` moves between an account and a pool, and the counters of pools
and accounts, which are to agree with the edges between them. The mana of a pool is
shared by its delegators, but a change of a delegation measures all of it by this one
delegation.
-/

namespace Freezone.Plugins.Rc.State

open Table Except
open Chain.Delegation (Manabar VestingAccount saturate)
open Chain.Tokens (sstHardfork)

variable {S S' : State} {name fromAccount toPool : Name} {amount : Int}

/-- The maximum of a pool; a pool that does not exist has none. -/
def poolMax (S : State) (pool : Name) : Int := ((S.pools.find? pool).map Pool.maxRc).getD 0

/-- `get_maximum_rc` of an account. -/
def maximumOf (S : State) (name : Name) : Int :=
  match S.accounts.find? name, S.rcAccounts.find? name with
  | some a, some rca => getMaximumRc a rca
  | _, _ => 0

/-- The sum of the edges into a pool. -/
def inflow (S : State) (pool : Name) : Int := S.indels.sum fun k v => if k.2 = pool then v else 0

/-- The sum of the edges out of an account. -/
def outflow (S : State) (name : Name) : Int := S.indels.sum fun k v => if k.1 = name then v else 0

/-- The number of the edges out of an account. -/
def outdegree (S : State) (name : Name) : Int :=
  S.indels.sum fun k _ => if k.1 = name then 1 else 0

/-! ### The parts of a delegation -/

/-- A pool that is removed has no maximum and no edge to an account. -/
theorem maybeCleanupRcPool_cases (h : S.maybeCleanupRcPool toPool = .ok S') :
    S' = S ∨ S.poolMax toPool = 0 ∧ (∀ name, S.outdels.find? (toPool, name) = none) ∧
      S' = { S with pools := S.pools.erase toPool } := by
  simp only [maybeCleanupRcPool, returns, getPool] at h
  obtain ⟨p, hp, h⟩ := h
  split_ifs at h with hclean
  · refine .inr ⟨?_, fun name => ?_, (ok.inj h).symm⟩
    · rw [poolMax, hp]
      exact hclean.1
    · rw [Option.eq_none_iff_forall_ne_some]
      intro e he
      have hbefore := hclean.2 _ (find?_eq_some.mp he)
      cases toPool <;> simp [Name.before] at hbefore
  · exact .inl (ok.inj h).symm

/-- Only the pools and the delegations out of them change. -/
theorem storePool_spec {pool : Pool} (h : S.storePool toPool pool = .ok S') :
    ∃ pools outdels, S' = { S with pools := pools, outdels := outdels } ∧
      ∀ p, pools.find? p = if p = toPool then some pool else S.pools.find? p := by
  unfold storePool at h
  split at h
  · rename_i old hold
    exact ⟨_, _, (ok.inj h).symm, fun p => find?_set hold pool p⟩
  simp only [returns] at h
  obtain ⟨pools, hpools, h⟩ := h
  cases toPool with
  | nai symbol =>
    simp only [returns] at h
    obtain ⟨outdels, houtdels, rfl⟩ := h
    exact ⟨_, _, rfl, fun p => find?_insert hpools⟩
  | empty => exact ⟨_, _, (ok.inj h).symm, fun p => find?_insert hpools⟩
  | account n => exact ⟨_, _, (ok.inj h).symm, fun p => find?_insert hpools⟩

/-- A delegation is created, changed or removed. -/
theorem storeIndel_cases {count : Int}
    (h : S.storeIndel fromAccount toPool amount = .ok (S', count)) :
    (∃ indels, S.indels.find? (fromAccount, toPool) = none ∧
      S.indels.insert (fromAccount, toPool) amount = some indels ∧
      S' = { S with indels := indels } ∧ count = 1) ∨
    ∃ old, S.indels.find? (fromAccount, toPool) = some old ∧
      (amount = 0 ∧ count = -1 ∧
          { S with indels := S.indels.erase (fromAccount, toPool) }.maybeCleanupRcPool toPool =
            .ok S' ∨
        S' = { S with indels := S.indels.set (fromAccount, toPool) amount } ∧ count = 0) := by
  unfold storeIndel at h
  split at h
  · rename_i hnone
    simp only [returns, Prod.mk.injEq] at h
    obtain ⟨indels, hindels, rfl, rfl⟩ := h
    exact .inl ⟨indels, hnone, hindels, rfl, rfl⟩
  · rename_i old hold
    split_ifs at h with hzero
    · simp only [returns, Prod.mk.injEq] at h
      obtain ⟨S1, h1, rfl, rfl⟩ := h
      exact .inr ⟨old, hold, .inl ⟨hzero, rfl, h1⟩⟩
    · simp only [ok.injEq, Prod.mk.injEq] at h
      exact .inr ⟨old, hold, .inr ⟨h.1.symm, h.2.symm⟩⟩

/-- A stored edge leaves the pools and the RC accounts, but for a pool that is removed. -/
theorem storeIndel_pools {count : Int}
    (h : S.storeIndel fromAccount toPool amount = .ok (S', count)) :
    S'.rcAccounts = S.rcAccounts ∧ S'.accounts = S.accounts ∧
      (S'.pools = S.pools ∨ amount = 0 ∧ S.poolMax toPool = 0 ∧
        (∀ name, S.outdels.find? (toPool, name) = none) ∧ S'.pools = S.pools.erase toPool) := by
  rcases storeIndel_cases h with ⟨indels, -, -, rfl, -⟩ | ⟨old, -, ⟨hzero, -, h⟩ | ⟨rfl, -⟩⟩
  · exact ⟨rfl, rfl, .inl rfl⟩
  · rcases maybeCleanupRcPool_cases h with rfl | ⟨hmax, hnone, rfl⟩
    · exact ⟨rfl, rfl, .inl rfl⟩
    · exact ⟨rfl, rfl, .inr ⟨hzero, hmax, hnone, rfl⟩⟩
  · exact ⟨rfl, rfl, .inl rfl⟩

/-- The steps of a delegation that returns. -/
theorem delegateToPool_eq_ok (hf : S.HasHardfork sstHardfork)
    (h : S.delegateToPool fromAccount toPool amount = .ok S') :
    ∃ rca pool bar a old rc S1 S2 count, 0 ≤ amount ∧
      old = (S.indels.find? (fromAccount, toPool)).getD 0 ∧
      rc = newRc old amount bar.currentMana rca.rcManabar.currentMana ∧
      S.rcAccounts.find? fromAccount = some rca ∧ S.poolOrNew toPool = .ok pool ∧
      pool.rcPoolManabar.regenerateMana pool.maxRc rcRegenTime S.time = .ok bar ∧
      S.accounts.find? fromAccount = some a ∧ amount - old ≤ getMaximumRc a rca ∧
      S.storePool toPool ⟨⟨rc, bar.lastUpdateTime⟩, pool.maxRc + (amount - old)⟩ = .ok S1 ∧
      S1.storeIndel fromAccount toPool amount = .ok (S2, count) ∧
      S' = S2.setRcAccount fromAccount { rca with
        rcManabar := ⟨rca.rcManabar.currentMana - (rc - bar.currentMana),
          rca.rcManabar.lastUpdateTime⟩
        vestsDelegatedToPools := rca.vestsDelegatedToPools + (amount - old)
        outDelegations := rca.outDelegations + count } := by
  simp only [delegateToPool, if_pos hf, returns, exists_const, getRcAccount, getAccount,
    Prod.exists] at h
  obtain ⟨-, hamount, rca, hrca, -, pool, hpool, bar, hbar, -, a, ha, hmax, S1, h1, S2, count, h2,
    rfl⟩ := h
  exact ⟨rca, pool, bar, a, _, _, S1, S2, count, hamount, rfl, rfl, hrca, hpool, hbar, ha, hmax, h1,
    h2, rfl⟩

/-! ### The mana of a delegation -/

/-- A change of a delegation that conserves RC, keeps the pool and the delegator within their
bounds, and takes no more from the pool than the delegation was reduced by. The pool had `mana`. -/
structure FairDelegation (S S' : State) (fromAccount toPool : Name) (amount mana : Int) : Prop where
  conserved : S'.ownMana fromAccount + S'.poolMana toPool = S.ownMana fromAccount + mana
  pool : 0 ≤ S'.poolMana toPool ∧ S'.poolMana toPool ≤ S'.poolMax toPool
  delegator : S'.ownMana fromAccount ≤ S'.maximumOf fromAccount
  taken : mana - S'.poolMana toPool ≤
    max 0 ((S.indels.find? (fromAccount, toPool)).getD 0 - amount)

/-- The mana of the whole pool fits the one delegation that changes from `old` to `new`, whose
account has `rc` of at most `maxRc`. -/
def FitsDelegation (old new mana rc maxRc : Int) : Prop :=
  if new < old then mana ≤ old
  else mana ≤ new ∧ (mana + max (min (new - old) rc) 0 ≤ new ∨ rc + mana ≤ maxRc + old)

/-- What a delegation leaves in the pool and with the delegator. -/
theorem delegateToPool_mana (hf : S.HasHardfork sstHardfork) {rca : RcAccount} {a : Account}
    {pool : Pool} {bar : Manabar} (hrca : S.rcAccounts.find? fromAccount = some rca)
    (ha : S.accounts.find? fromAccount = some a) (hpool : S.poolOrNew toPool = .ok pool)
    (hbar : pool.rcPoolManabar.regenerateMana pool.maxRc rcRegenTime S.time = .ok bar)
    (hmana : 0 ≤ bar.currentMana) (h : S.delegateToPool fromAccount toPool amount = .ok S') :
    ∃ old rc, old = (S.indels.find? (fromAccount, toPool)).getD 0 ∧
      rc = newRc old amount bar.currentMana rca.rcManabar.currentMana ∧ 0 ≤ amount ∧
      amount - old ≤ getMaximumRc a rca ∧
      S'.poolMana toPool = rc ∧ S'.poolMax toPool = pool.maxRc + (amount - old) ∧
      S'.ownMana fromAccount = rca.rcManabar.currentMana - (rc - bar.currentMana) ∧
      S'.maximumOf fromAccount = getMaximumRc a rca - (amount - old) := by
  obtain ⟨rca1, pool1, bar1, a1, old, rc, S1, S2, count, hamount, hold, hrc, hrca1, hpool1, hbar1,
    ha1, hmax, h1, h2, rfl⟩ := delegateToPool_eq_ok hf h
  obtain rfl := Option.some.inj (hrca.symm.trans hrca1)
  obtain rfl := ok.inj (hpool.symm.trans hpool1)
  obtain rfl := ok.inj (hbar.symm.trans hbar1)
  obtain rfl := Option.some.inj (ha.symm.trans ha1)
  obtain ⟨pools, outdels, rfl, hpools⟩ := storePool_spec h1
  obtain ⟨hrcs, haccounts, hstored⟩ := storeIndel_pools h2
  refine ⟨old, rc, hold, hrc, hamount, hmax, ?_⟩
  have hfind := hpools toPool
  rw [if_pos rfl] at hfind
  have hown : S2.rcAccounts.find? fromAccount = some rca := by
    rw [hrcs]
    exact hrca
  have hpart : (S2.pools.find? toPool).map (fun p => (p.rcPoolManabar.currentMana, p.maxRc)) =
        some (rc, pool.maxRc + (amount - old)) ∨
      S2.pools.find? toPool = none ∧ amount = 0 ∧ pool.maxRc + (amount - old) = 0 := by
    rcases hstored with hsame | ⟨hzero, hmax0, -, herase⟩
    · rw [hsame]
      exact .inl (by rw [hfind]; rfl)
    · refine .inr ⟨?_, hzero, ?_⟩
      · rw [herase, find?_erase, if_pos rfl]
      · rw [poolMax] at hmax0
        simpa [hfind] using hmax0
  refine ⟨?_, ?_, ?_, ?_⟩
  · change S2.poolMana toPool = _
    unfold poolMana
    rcases hpart with hsome | ⟨hnone, hzero, -⟩
    · obtain ⟨p, hp, heq⟩ := Option.map_eq_some_iff.mp hsome
      rw [hp]
      exact congrArg Prod.fst heq
    · rw [hnone]
      simp only [hrc, newRc, hzero, Option.map_none, Option.getD_none]
      omega
  · change S2.poolMax toPool = _
    unfold poolMax
    rcases hpart with hsome | ⟨hnone, -, hzero⟩
    · obtain ⟨p, hp, heq⟩ := Option.map_eq_some_iff.mp hsome
      rw [hp]
      exact congrArg Prod.snd heq
    · rw [hnone, hzero]
      rfl
  · rw [ownMana, setRcAccount, find?_set_self hown]
    rfl
  · have ha2 : S2.accounts.find? fromAccount = some a := by
      rw [haccounts]
      exact ha
    simp only [maximumOf, setRcAccount, ha2, find?_set_self hown, getMaximumRc]
    omega

/-- Mana regenerates up to its maximum. -/
theorem regenerateMana_le {m bar : Manabar} {maxMana : Int} {regenTime now : Nat}
    (h : m.regenerateMana maxMana regenTime now = .ok bar) : bar.currentMana ≤ maxMana := by
  simp only [Manabar.regenerateMana, returns, exists_const] at h
  obtain ⟨-, -, h⟩ := h
  split_ifs at h
  · rw [← ok.inj h]
  · simp only [returns] at h
    obtain ⟨-, -, rfl⟩ := h
    exact min_le_right _ _

/-- A delegation is fair exactly if the mana of the whole pool fits it. -/
theorem delegateToPool_fair_iff (hf : S.HasHardfork sstHardfork) {rca : RcAccount} {a : Account}
    {pool : Pool} {bar : Manabar} (hrca : S.rcAccounts.find? fromAccount = some rca)
    (ha : S.accounts.find? fromAccount = some a) (hpool : S.poolOrNew toPool = .ok pool)
    (hbar : pool.rcPoolManabar.regenerateMana pool.maxRc rcRegenTime S.time = .ok bar)
    (hmana : 0 ≤ bar.currentMana)
    (hedge : (S.indels.find? (fromAccount, toPool)).getD 0 ≤ pool.maxRc)
    (hrc : rca.rcManabar.currentMana ≤ getMaximumRc a rca)
    (h : S.delegateToPool fromAccount toPool amount = .ok S') :
    S.FairDelegation S' fromAccount toPool amount bar.currentMana ↔
      FitsDelegation ((S.indels.find? (fromAccount, toPool)).getD 0) amount bar.currentMana
        rca.rcManabar.currentMana (getMaximumRc a rca) := by
  have hle := regenerateMana_le hbar
  have hold : S.ownMana fromAccount = rca.rcManabar.currentMana := by
    rw [ownMana, hrca]
    rfl
  obtain ⟨old, rc, hedgeOld, hnew, hamount, hmax, hpoolMana, hpoolMax, hown, hmaximum⟩ :=
    delegateToPool_mana hf hrca ha hpool hbar hmana h
  rw [← hedgeOld] at hedge ⊢
  unfold newRc at hnew
  unfold FitsDelegation
  constructor
  · rintro ⟨-, hpool, hdelegator, htaken⟩
    rw [hpoolMana, hpoolMax] at hpool
    rw [hown, hmaximum] at hdelegator
    rw [hpoolMana, ← hedgeOld] at htaken
    split_ifs at hnew ⊢ <;> omega
  · intro hfits
    constructor <;> simp only [hown, hpoolMana, hold, hpoolMax, hmaximum, ← hedgeOld] <;>
      split_ifs at hnew hfits <;> omega

/-- The RC account of an account that has delegated some of its 100 VESTS to one pool. -/
def delegatorAccount (name : Name) (amount : Int) : RcAccount where
  creator := name
  rcManabar := ⟨100 - amount, 0⟩
  vestsDelegatedToPools := amount
  indelSlots := fun _ => name
  outDelegations := if amount = 0 then 0 else 1
  lastMaxRc := 100 - amount

theorem delegators_nodup : [Name.account 1, .account 3].Nodup := by decide

theorem delegations_nodup (others : Int) :
    ((((Name.account 1, Name.account 2), (50 : Int)) ::
      if others = 0 then [] else [((.account 3, .account 2), others)]).map Prod.fst).Nodup := by
  split_ifs <;> simp

/-- Account 1 has delegated 50 to the pool of account 2, and account 3 may have delegated to it. -/
def delegated (others : Int) : State where
  accounts := ⟨[(.account 1, { vestingShares := 100 }), (.account 3, { vestingShares := 100 })],
    delegators_nodup⟩
  rcAccounts := ⟨[(.account 1, delegatorAccount (.account 1) 50),
    (.account 3, delegatorAccount (.account 3) others)], delegators_nodup⟩
  pools := ⟨[(.account 2, ⟨⟨50 + others, 0⟩, 50 + others⟩)], by simp⟩
  indels := ⟨((.account 1, .account 2), 50) ::
    if others = 0 then [] else [((.account 3, .account 2), others)], delegations_nodup others⟩

theorem delegateToPool_fair_iff_alone : FitsDelegation 50 40 50 50 50 ∧
    ∃ S', (delegated 0).delegateToPool (.account 1) (.account 2) 40 = .ok S' ∧
      ((delegated 0).FairDelegation S' (.account 1) (.account 2) 40 50 ↔
        FitsDelegation 50 40 50 50 50) := by
  have hrca : (delegated 0).rcAccounts.find? (.account 1) =
      some (delegatorAccount (.account 1) 50) := rfl
  have hpool : (delegated 0).poolOrNew (.account 2) = .ok ⟨⟨50, 0⟩, 50⟩ := rfl
  have hbar : Manabar.regenerateMana ⟨50, 0⟩ 50 rcRegenTime (delegated 0).time = .ok ⟨50, 0⟩ := rfl
  refine ⟨?_, _, rfl, delegateToPool_fair_iff (by decide) hrca rfl hpool hbar (by decide)
    (by decide) (by decide) rfl⟩
  unfold FitsDelegation
  decide

/-- Account 1 reduces its delegation by 10 and takes 60 of the mana of a pool of 100. -/
theorem delegateToPool_not_fair :
    ∃ S', (delegated 50).delegateToPool (.account 1) (.account 2) 40 = .ok S' ∧
      S'.poolMana (.account 2) = 40 ∧ S'.poolMax (.account 2) = 90 ∧
      S'.ownMana (.account 1) = 110 ∧ S'.maximumOf (.account 1) = 60 ∧
      ¬ (delegated 50).FairDelegation S' (.account 1) (.account 2) 40 100 := by
  refine ⟨_, rfl, by decide, by decide, by decide, by decide, fun h => ?_⟩
  have htaken := h.taken
  revert htaken
  decide

end Freezone.Plugins.Rc.State
