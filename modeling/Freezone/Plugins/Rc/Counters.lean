import Freezone.Chain.Delegation.Backing
import Freezone.Plugins.Rc.Delegations

/-!
# The counters of pools and accounts

The maximum of a pool is the sum of the edges into it, and the counters of an account
are the sum and the number of the edges out of it, as long as effective vesting shares
are not negative: `update_outdel_overflow` subtracts all that is missing
from the counter, even if the edges do not have it.
-/

namespace Freezone.Plugins.Rc.State

open List Option Except
open Chain.Delegation (Manabar VestingAccount)
open Chain.Delegation.Registry (genesis overdrawingSteps weekly)
open Chain.Tokens (sstHardfork)

variable {S S' S'' : State} {name : Name}

variable {rca : RcAccount} {fromAccount toPool : Name} {amount : Int}

/-! ### Sums over the edges -/

/-- `vests_delegated_to_pools` of an account. -/
def vestsOf (S : State) (name : Name) : Int :=
  ((S.rcAccounts.find? name).map RcAccount.vestsDelegatedToPools).getD 0

/-- `out_delegations` of an account. -/
def outDelegationsOf (S : State) (name : Name) : Int :=
  ((S.rcAccounts.find? name).map RcAccount.outDelegations).getD 0

/-- The maximum of each pool is the sum of the edges into it. -/
structure Pooled (S : State) : Prop where
  nonneg : S.indels.All fun _ v => 0 ≤ v
  maxima : ∀ p, S.poolMax p = S.inflow p

/-- The counters of pools and accounts agree with the edges. -/
structure Counted (S : State) : Prop extends Pooled S where
  vests : ∀ n, S.vestsOf n = S.outflow n
  number : ∀ n, S.outDelegationsOf n = S.outdegree n

/-- The counters and what they count are the same. -/
structure Level (S S' : State) : Prop where
  indels : S'.indels = S.indels
  poolMax : ∀ p, S'.poolMax p = S.poolMax p
  vests : ∀ n, S'.vestsOf n = S.vestsOf n
  number : ∀ n, S'.outDelegationsOf n = S.outDelegationsOf n

/-- A step that leaves the delegations and the counters alone. -/
theorem Level.counted (h : S.Level S') (hS : S.Counted) : S'.Counted where
  nonneg := h.indels ▸ hS.nonneg
  maxima p := by rw [h.poolMax, hS.maxima, inflow, inflow, h.indels]
  vests n := by rw [h.vests, hS.vests, outflow, outflow, h.indels]
  number n := by rw [h.number, hS.number, outdegree, outdegree, h.indels]

theorem Level.refl (S : State) : S.Level S := ⟨rfl, fun _ => rfl, fun _ => rfl, fun _ => rfl⟩

theorem Level.trans (h : S.Level S') (h' : S'.Level S'') : S.Level S'' where
  indels := h'.indels.trans h.indels
  poolMax p := (h'.poolMax p).trans (h.poolMax p)
  vests n := (h'.vests n).trans (h.vests n)
  number n := (h'.number n).trans (h.number n)

/-- The counters of an account that is written. -/
theorem counters_setRcAccount (h : S.rcAccounts.find? name = some rca)
    (rca' : RcAccount) (n : Name) : (S.setRcAccount name rca').vestsOf n =
        S.vestsOf n + (if name = n then rca'.vestsDelegatedToPools - rca.vestsDelegatedToPools
          else 0) ∧
      (S.setRcAccount name rca').outDelegationsOf n =
        S.outDelegationsOf n + if name = n then rca'.outDelegations -
            rca.outDelegations else 0 := by
  unfold vestsOf outDelegationsOf setRcAccount
  rw [Table.find?_set h]
  by_cases hn : n = name
  · subst hn
    simp [h]
  · simp [hn, Ne.symm hn]

/-- The counters of the replaced account are the same. -/
theorem setRcAccount_level {rca' : RcAccount} (h : S.rcAccounts.find? name = some rca)
    (hvests : rca'.vestsDelegatedToPools = rca.vestsDelegatedToPools)
    (hnumber : rca'.outDelegations = rca.outDelegations) : S.Level (S.setRcAccount name rca') := by
  have hset := counters_setRcAccount h rca'
  simp only [hvests, hnumber, sub_self, ite_self, add_zero] at hset
  exact ⟨rfl, fun _ => rfl, fun n => (hset n).1, fun n => (hset n).2⟩

theorem regenerate_level (h : S.regenerate name = .ok S') : S.Level S' := by
  simp only [regenerate, returns, exists_const] at h
  obtain ⟨a, -, rca, hrca, -, bar, -, rfl⟩ := h
  exact setRcAccount_level hrca rfl rfl

theorem updateModifiedAccount_level {info : Name × Bool}
    (h : S.updateModifiedAccount info = .ok S') : S.Level S' := by
  simp only [updateModifiedAccount, returns, getAccount, getRcAccount] at h
  obtain ⟨a, -, rca, hrca, rfl⟩ := h
  exact setRcAccount_level hrca rfl rfl

theorem writeSlot_level {draw : Name × Manabar × Manabar} (h : S.writeSlot name draw = .ok S') :
    S.Level S' := by
  unfold writeSlot at h
  split at h
  · rw [← ok.inj h]
    exact .refl S
  simp only [returns, getPool] at h
  obtain ⟨p, hp, rfl⟩ := h
  refine ⟨rfl, fun q => ?_, fun _ => rfl, fun _ => rfl⟩
  unfold poolMax
  rw [Table.find?_set hp]
  split_ifs with hq
  · rw [hq, hp]
    rfl
  · rfl

theorem forEach_level {α : Type} {f : α → State → Except String State}
    (hf : ∀ a S S', f a S = .ok S' → S.Level S') {l : List α} (h : forEach f l S = .ok S') :
    S.Level S' :=
  forEach_invariant (P := S.Level) (fun a _ S1 S2 h1 h2 => h1.trans (hf a S1 S2 h2)) (.refl S) h

theorem useAccountRcs_level {rc : Int} (h : S.useAccountRcs name rc = .ok S') : S.Level S' := by
  unfold useAccountRcs at h
  split_ifs at h
  · simp only [returns] at h
    obtain ⟨-, -, rfl⟩ := h
    exact .refl S
  · simp only [returns, getRcAccount, Prod.exists] at h
    obtain ⟨rca, hrca, draws, delegated, -, maxMana, -, bar, -, -, -, h⟩ := h
    have hwritten := forEach_level (f := writeSlot name) (fun _ _ _ hd => writeSlot_level hd) h
    refine Level.trans ?_ hwritten
    exact setRcAccount_level hrca rfl rfl

/-- What a stored edge adds to the sums. -/
theorem storeIndel_sums {count : Int}
    (h : S.storeIndel fromAccount toPool amount = .ok (S', count)) (n : Name) :
    S'.inflow n = S.inflow n + (if toPool = n then
        amount - (S.indels.find? (fromAccount, toPool)).getD 0 else 0) ∧
      S'.outflow n = S.outflow n + (if fromAccount = n then
        amount - (S.indels.find? (fromAccount, toPool)).getD 0 else 0) ∧
      S'.outdegree n = S.outdegree n + if fromAccount = n then count else 0 := by
  unfold inflow outflow outdegree
  rcases storeIndel_cases h with
    ⟨indels, hnone, hins, rfl, rfl⟩ | ⟨old, hold, ⟨hzero, rfl, hclean⟩ | ⟨rfl, rfl⟩⟩
  · rw [hnone]
    simp only [Table.sum_insert hins, getD_none, sub_zero, and_self]
  · have hindels : S'.indels = S.indels.erase (fromAccount, toPool) := by
      rcases maybeCleanupRcPool_cases hclean with rfl | ⟨-, -, rfl⟩ <;> rfl
    rw [hindels, hold, hzero]
    simp only [Table.sum_erase hold, getD_some]
    split_ifs <;> omega
  · rw [hold]
    simp only [Table.sum_set hold, getD_some]
    split_ifs <;> omega

/-- Stored delegations are not negative. -/
theorem storeIndel_nonneg {count : Int}
    (h : S.storeIndel fromAccount toPool amount = .ok (S', count)) (hamount : 0 ≤ amount)
    (hS : S.indels.All fun _ v => 0 ≤ v) : S'.indels.All fun _ v => 0 ≤ v := by
  rcases storeIndel_cases h with
    ⟨indels, -, hins, rfl, -⟩ | ⟨old, -, ⟨-, -, hclean⟩ | ⟨rfl, -⟩⟩
  · exact hS.insert hins hamount
  · rcases maybeCleanupRcPool_cases hclean with rfl | ⟨-, -, rfl⟩ <;> exact hS.erase _
  · exact hS.set hamount

/-- A delegation adds the same to a counter and to the sum that it counts. -/
theorem delegateToPool_counted
    (h : S.delegateToPool fromAccount toPool amount = .ok S') (hS : S.Counted) : S'.Counted := by
  by_cases hf : S.HasHardfork sstHardfork
  · obtain ⟨rca, pool, bar, a, old, rc, S1, S2, count, hamount, hold, -, hrca, hpool, -, -, -, h1,
      h2, rfl⟩ := delegateToPool_eq_ok hf h
    obtain ⟨pools, outdels, rfl, hpools⟩ := storePool_spec h1
    obtain ⟨hrcs, -, hstored⟩ := storeIndel_pools h2
    have hmax : pool.maxRc = S.poolMax toPool := by
      unfold poolMax
      unfold poolOrNew at hpool
      split at hpool
      · rename_i p hp
        rw [hp, ← ok.inj hpool]
        rfl
      · rename_i hp
        simp only [returns] at hpool
        obtain ⟨-, -, rfl⟩ := hpool
        rw [hp]
        rfl
    have hrca2 : S2.rcAccounts.find? fromAccount = some rca := hrcs ▸ hrca
    have hkept := storeIndel_nonneg h2 hamount hS.nonneg
    refine ⟨⟨hkept, fun p => ?_⟩, fun n => ?_, fun n => ?_⟩
    · have hsame : ∀ q, ((pools.find? q).map Pool.maxRc).getD 0 =
          S.poolMax q + if toPool = q then amount - old else 0 := by
        intro q
        rw [hpools q]
        by_cases hq : q = toPool
        · simp [hq, hmax]
        · simp [hq, Ne.symm hq, poolMax]
      refine Eq.trans ?_ (storeIndel_sums h2 p).1.symm
      rw [← hold]
      change S2.poolMax p = S.inflow p + if toPool = p then amount - old else 0
      rw [← hS.maxima, ← hsame p, poolMax]
      rcases hstored with hsame | ⟨-, hzero, -, herase⟩
      · rw [hsame]
      rw [herase, Table.find?_erase]
      split_ifs with hp
      · rw [hp]
        exact hzero.symm
      · rfl
    · refine (counters_setRcAccount hrca2 _ n).1.trans ?_
      refine Eq.trans ?_ (storeIndel_sums h2 n).2.1.symm
      rw [vestsOf, hrcs, ← hold]
      exact congrArg₂ _ (hS.vests n) (by simp)
    · refine (counters_setRcAccount hrca2 _ n).2.trans ?_
      refine Eq.trans ?_ (storeIndel_sums h2 n).2.2.symm
      rw [outDelegationsOf, hrcs]
      exact congrArg₂ _ (hS.number n) (by simp)
  · simp only [delegateToPool, if_neg hf, returns] at h
    obtain ⟨-, -, -, -, rfl⟩ := h
    exact hS

/-! ### Forced reductions -/

/-- The accounts are the same. -/
structure Untouched (S S' : State) : Prop where
  rcAccounts : S'.rcAccounts = S.rcAccounts
  accounts : S'.accounts = S.accounts

/-- An iteration takes the same from an edge, from the maximum of its pool and from what is needed.
-/
theorem reduceIndel_spec {e : (Name × Name) × Int} {w w' : Overflow}
    (hfind : w.state.indels.find? e.1 = some e.2) (hneeded : 0 < w.neededRcs)
    (hS : w.state.Pooled) (h : reduceIndel e w = .ok w') :
    w'.state.Pooled ∧ w.state.Untouched w'.state ∧
      w'.neededRcs = w.neededRcs - min w.neededRcs e.2 ∧
      (∀ k, k ≠ e.1 → w'.state.indels.find? k = w.state.indels.find? k) ∧
      ∀ n, w'.state.outflow n =
          w.state.outflow n - (if e.1.1 = n then w.neededRcs - w'.neededRcs else 0) ∧
        w'.state.outdegree n =
          w.state.outdegree n - if e.1.1 = n then w'.removed - w.removed else 0 := by
  simp only [reduceIndel, if_neg (not_le.mpr hneeded), returns, getPool] at h
  obtain ⟨pool, hpool, bar, -, hw'⟩ := h
  generalize hd : min w.neededRcs e.2 = d at hw'
  have hindels : w'.state.indels = if d < e.2 then w.state.indels.set e.1 (e.2 - d)
      else w.state.indels.erase e.1 := by
    rw [← hw']
    rfl
  have hpools : ∀ p, (w'.state.pools.find? p).map Pool.maxRc =
      if p = e.1.2 then some (pool.maxRc - d) else (w.state.pools.find? p).map Pool.maxRc := by
    intro p
    rw [← hw']
    dsimp only [setPool]
    rw [Table.find?_set hpool]
    split_ifs <;> rfl
  have hneeded' : w'.neededRcs = w.neededRcs - d := by rw [← hw']
  have hremoved : w'.removed = if d < e.2 then w.removed else w.removed + 1 := by rw [← hw']
  -- the sums over the edges, whether the edge stays or goes
  have hsum : ∀ f : Name × Name → Int → Int, (∀ k, f k 0 = 0) →
      w'.state.indels.sum f = w.state.indels.sum f - f e.1 e.2 + f e.1 (e.2 - d) := by
    intro f hf
    rw [hindels]
    split_ifs with hlt
    · exact Table.sum_set hfind _ f
    · rw [Table.sum_erase hfind, show e.2 - d = 0 by omega, hf, add_zero]
  refine ⟨⟨?_, fun p => ?_⟩, ⟨?_, ?_⟩, hneeded', fun k hk => ?_, fun n => ⟨?_, ?_⟩⟩
  · rw [hindels]
    split_ifs
    · exact hS.nonneg.set (by omega)
    · exact hS.nonneg.erase _
  · have hbefore := hS.maxima p
    unfold inflow at hbefore ⊢
    unfold poolMax at hbefore ⊢
    rw [hsum (fun k v => if k.2 = p then v else 0) (by simp), ← hbefore, hpools]
    by_cases hp : p = e.1.2
    · subst hp
      simp [hpool]
    · simp [hp, Ne.symm hp]
  · rw [← hw']
    rfl
  · rw [← hw']
    rfl
  · rw [hindels]
    split_ifs
    · exact Table.find?_set_of_ne hk
    · exact (Table.find?_erase _ _ _).trans (if_neg hk)
  · unfold outflow
    rw [hsum (fun k v => if k.1 = n then v else 0) (by simp)]
    split_ifs <;> omega
  · unfold outdegree
    rw [hindels, hremoved]
    by_cases hlt : d < e.2
    · rw [if_pos hlt, if_pos hlt, Table.sum_set hfind]
      split_ifs <;> omega
    · rw [if_neg hlt, if_neg hlt, Table.sum_erase hfind]
      split_ifs <;> omega

/-- The loop takes what is needed from the edges of an account, as far as they have it. -/
theorem reduceIndels_spec {l : List ((Name × Name) × Int)} {w w' : Overflow}
    (hsel : w.state.indels.Selection l) (hname : ∀ e ∈ l, e.1.1 = name) (hw : 0 ≤ w.neededRcs)
    (hS : w.state.Pooled) (h : forEach reduceIndel l w = .ok w') :
    w'.state.Pooled ∧ w.state.Untouched w'.state ∧
      w'.neededRcs = max 0 (w.neededRcs - (l.map Prod.snd).sum) ∧
      ∀ n, w'.state.outflow n =
          w.state.outflow n - (if name = n then w.neededRcs - w'.neededRcs else 0) ∧
        w'.state.outdegree n =
          w.state.outdegree n - if name = n then w'.removed - w.removed else 0 := by
  induction l generalizing w with
  | nil =>
    simp only [forEach, ok.injEq] at h
    subst h
    refine ⟨hS, ⟨rfl, rfl⟩, by simp [hw], by simp⟩
  | cons e l ih =>
    simp only [forEach, returns] at h
    obtain ⟨w1, h1, h⟩ := h
    have hpos : 0 ≤ e.2 := hS.nonneg _ _ (hsel.find e mem_cons_self)
    have hrest : ∀ e ∈ l, 0 ≤ e.2 := fun e he =>
      hS.nonneg _ _ (hsel.find e (mem_cons_of_mem _ he))
    have hsum : 0 ≤ (l.map Prod.snd).sum := sum_nonneg fun x hx => by
      obtain ⟨e', he', rfl⟩ := mem_map.mp hx
      exact hrest e' he'
    have hl : ∀ e ∈ l, e.1.1 = name := fun e he => hname e (mem_cons_of_mem _ he)
    have he := hname e mem_cons_self
    rw [map_cons, sum_cons]
    by_cases hneeded : w.neededRcs ≤ 0
    · rw [reduceIndel, if_pos hneeded, ok.injEq] at h1
      subst h1
      obtain ⟨hP, hsame, hend, hcounts⟩ := ih (hsel.tail fun _ _ => rfl) hl hw hS h
      exact ⟨hP, hsame, by omega, hcounts⟩
    · obtain ⟨hP1, hsame1, hend1, hfind1, hcounts1⟩ := reduceIndel_spec
        (hsel.find e mem_cons_self) (not_le.mp hneeded) hS h1
      obtain ⟨hP, hsame, hend, hcounts⟩ := ih (hsel.tail hfind1) hl (by omega) hP1 h
      refine ⟨hP, ⟨hsame.rcAccounts.trans hsame1.rcAccounts, hsame.accounts.trans hsame1.accounts⟩,
        by omega, fun n => ?_⟩
      rw [(hcounts n).1, (hcounts n).2, (hcounts1 n).1, (hcounts1 n).2, he]
      constructor <;> split_ifs <;> omega

/-- What an account delegates is the sum of its delegations. -/
theorem indelsOf_sum (S : State) (name : Name) :
    ((S.indelsOf name).map Prod.snd).sum = S.outflow name := by
  have hperm := (perm_insertionSort (fun e e' : (Name × Name) × Int => e.1.2.before e'.1.2)
    (S.indels.entries.filter fun e => e.1.1 = name)).map Prod.snd
  rw [indelsOf, hperm.sum_eq, outflow, Table.sum]
  induction S.indels.entries with
  | nil => rfl
  | cons e l ih =>
    rw [map_cons, sum_cons, ← ih]
    by_cases he : e.1.1 = name <;> simp [he]

/-- The effective vesting shares of an account are not negative. -/
def Solvent (S : State) (name : Name) : Prop :=
  ∀ a, S.accounts.find? name = some a → 0 ≤ a.effectiveVestingShares

/-- A forced reduction takes all that is needed from the counter and from the edges what they have;
they have it if the effective vesting shares are not negative. -/
theorem updateOutdelOverflow_counted (hS : S.Counted) (h : S.updateOutdelOverflow name = .ok S')
    (hbacked : S.Solvent name) : S'.Counted ∧ S'.accounts = S.accounts := by
  simp only [updateOutdelOverflow, returns, getRcAccount, getAccount] at h
  obtain ⟨rca, hrca, a, ha, h⟩ := h
  split_ifs at h with hless
  · simp only [returns] at h
    obtain ⟨w, hloop, rfl⟩ := h
    have hname : ∀ e ∈ S.indelsOf name, e.1.1 = name := by
      intro e he
      rw [indelsOf, mem_insertionSort] at he
      simpa using (mem_filter.mp he).2
    have hsel : S.indels.Selection (S.indelsOf name) := Table.selection_sorted _ _ _
    have hneeded : 0 ≤ rca.maxRcCreationAdjustment - getMaximumRc a rca := by omega
    obtain ⟨hP, hsame, hrest, hcounts⟩ := reduceIndels_spec hsel hname hneeded hS.toPooled hloop
    rw [indelsOf_sum] at hrest
    dsimp only [getMaximumRc] at hrest hcounts
    have heff := hbacked a ha
    have hown : S.vestsOf name = rca.vestsDelegatedToPools := by
      rw [vestsOf, hrca]
      rfl
    have hflow := hS.vests name
    have hrca1 : w.state.rcAccounts.find? name = some rca := hsame.rcAccounts ▸ hrca
    have hv : ∀ n, w.state.vestsOf n = S.vestsOf n := fun n => by
      rw [vestsOf, hsame.rcAccounts, vestsOf]
    have hd : ∀ n, w.state.outDelegationsOf n = S.outDelegationsOf n := fun n => by
      rw [outDelegationsOf, hsame.rcAccounts, outDelegationsOf]
    refine ⟨⟨⟨hP.nonneg, hP.maxima⟩, fun n => ?_, fun n => ?_⟩, hsame.accounts⟩
    · rw [(counters_setRcAccount hrca1 _ n).1, hv, hS.vests]
      change _ = w.state.outflow n
      rw [(hcounts n).1]
      dsimp only [getMaximumRc]
      split_ifs <;> omega
    · rw [(counters_setRcAccount hrca1 _ n).2, hd, hS.number]
      change _ = w.state.outdegree n
      rw [(hcounts n).2]
      dsimp only
      split_ifs <;> omega
  · rw [← ok.inj h]
    exact ⟨hS, rfl⟩

/-! ### Steps -/

/-- A new account has delegated nothing. -/
theorem insert_level {rcAccounts : Table Name RcAccount}
    (hins : S.rcAccounts.insert name rca = some rcAccounts) (hvests : rca.vestsDelegatedToPools = 0)
    (hnumber : rca.outDelegations = 0) : S.Level { S with rcAccounts := rcAccounts } := by
  have hnone := (Table.insert_eq_some.mp hins).1
  refine ⟨rfl, fun _ => rfl, fun n => ?_, fun n => ?_⟩
  · unfold vestsOf
    rw [Table.find?_insert hins]
    split_ifs with hn
    · simp [hn, hnone, hvests]
    · rfl
  · unfold outDelegationsOf
    rw [Table.find?_insert hins]
    split_ifs with hn
    · simp [hn, hnone, hnumber]
    · rfl

theorem maybeCleanupRcPool_level (h : S.maybeCleanupRcPool name = .ok S') : S.Level S' := by
  rcases maybeCleanupRcPool_cases h with rfl | ⟨hzero, -, rfl⟩
  · exact .refl S'
  refine ⟨rfl, fun p => ?_, fun _ => rfl, fun _ => rfl⟩
  unfold poolMax
  rw [Table.find?_erase]
  split_ifs with hp
  · rw [hp]
    exact hzero.symm
  · rfl

/-- Only the delegations out of pools change. -/
theorem storeOutdel_spec {fromPool toAccount : Name} {drc : Int}
    (h : S.storeOutdel fromPool toAccount drc = .ok S') :
    ∃ outdels, S' = { S with outdels := outdels } := by
  unfold storeOutdel at h
  split at h
  · simp only [returns] at h
    obtain ⟨outdels, -, rfl⟩ := h
    exact ⟨_, rfl⟩
  · simp only [returns] at h
    obtain ⟨bar, -, h⟩ := h
    split_ifs at h <;> exact ⟨_, (ok.inj h).symm⟩

/-- A delegation out of a pool leaves the counters of the accounts alone. -/
theorem delegateDrcFromPool_level {fromPool toAccount : Name} {toSlot : Fin rcMaxSlots} {drc : Int}
    (h : S.delegateDrcFromPool fromPool toAccount toSlot drc = .ok S') : S.Level S' := by
  simp only [delegateDrcFromPool, returns] at h
  obtain ⟨-, -, -, -, h⟩ := h
  split_ifs at h
  · simp only [returns] at h
    obtain ⟨rca, -, -, -, S1, h1, h⟩ := h
    obtain ⟨outdels, rfl⟩ := storeOutdel_spec h1
    split at h
    · have hlevel := maybeCleanupRcPool_level h
      exact ⟨hlevel.indels, hlevel.poolMax, hlevel.vests, hlevel.number⟩
    rename_i hnone
    simp only [returns] at h
    obtain ⟨-, -, pools, hins, rfl⟩ := h
    refine ⟨rfl, fun p => ?_, fun _ => rfl, fun _ => rfl⟩
    unfold poolMax
    rw [Table.find?_insert hins]
    split_ifs with hp
    · rw [hp]
      exact congrArg (fun x => (x.map Pool.maxRc).getD 0) hnone.symm
    · rfl
  · rw [← ok.inj h]
    exact .refl S

theorem setSlotDelegator_level {fromPool toAccount signer : Name} {toSlot : Fin rcMaxSlots}
    (h : S.setSlotDelegator fromPool toAccount signer toSlot = .ok S') : S.Level S' := by
  simp only [setSlotDelegator, returns] at h
  obtain ⟨-, -, h⟩ := h
  split_ifs at h
  · simp only [returns, getRcAccount] at h
    obtain ⟨a, -, -, -, -, -, rca, hrca, -, -, -, -, S1, h1, rfl⟩ := h
    have hlevel : S.Level S1 ∧ S1.rcAccounts = S.rcAccounts := by
      unfold dropOutdel at h1
      split_ifs at h1
      · have hlevel := maybeCleanupRcPool_level h1
        refine ⟨⟨hlevel.indels, hlevel.poolMax, hlevel.vests, hlevel.number⟩, ?_⟩
        rcases maybeCleanupRcPool_cases h1 with rfl | ⟨-, -, rfl⟩ <;> rfl
      · rw [← ok.inj h1]
        exact ⟨.refl S, rfl⟩
    obtain ⟨hlevel, hrcs⟩ := hlevel
    have hrca1 : S1.rcAccounts.find? toAccount = some rca := hrcs ▸ hrca
    exact hlevel.trans (setRcAccount_level hrca1 rfl rfl)
  · rw [← ok.inj h]
    exact .refl S

/-- A change to shares that are not negative leaves the account solvent. -/
theorem changeVesting_solvent {change : Name × VestingAccount} (h : S.changeVesting change = .ok S')
    (hchange : 0 ≤ change.2.effectiveVestingShares) (hS : change.1 ≠ name → S.Solvent name) :
    S'.Solvent name := by
  simp only [changeVesting, returns, getAccount] at h
  obtain ⟨a, ha, rfl⟩ := h
  intro b hb
  rw [Table.find?_set ha] at hb
  split_ifs at hb with hn
  · rw [← some.inj hb]
    exact hchange
  · exact hS (Ne.symm hn) b hb

theorem changeVestings_solvent {changes : List (Name × VestingAccount)}
    (h : forEach changeVesting changes S = .ok S')
    (hchanges : ∀ c ∈ changes, 0 ≤ c.2.effectiveVestingShares)
    (hname : name ∈ changes.map Prod.fst) : S'.Solvent name := by
  induction changes generalizing S with
  | nil => simp at hname
  | cons c l ih =>
    simp only [forEach, returns] at h
    obtain ⟨S1, h1, h⟩ := h
    have hl : ∀ c ∈ l, 0 ≤ c.2.effectiveVestingShares := fun c hc =>
      hchanges c (mem_cons_of_mem _ hc)
    rcases mem_cons.mp hname with rfl | hname
    · have hfirst : S1.Solvent c.1 :=
        changeVesting_solvent h1 (hchanges c mem_cons_self) (absurd rfl)
      exact forEach_invariant (P := fun S => S.Solvent c.1)
        (fun c hc _ _ hS h => changeVesting_solvent h (hl c hc) fun _ => hS) hfirst h
    · exact ih h hl hname

/-- The visits around a change of vesting shares keep the counters as long as no effective vesting
shares become negative. -/
theorem vestingOperation_counted {changes : List (Name × VestingAccount)} {fillNewMana : Bool}
    {reduced : List Name} (h : S.vestingOperation changes fillNewMana reduced = .ok S')
    (hsub : reduced ⊆ changes.map Prod.fst)
    (hchanges : reduced ≠ [] → ∀ c ∈ changes, 0 ≤ c.2.effectiveVestingShares) (hS : S.Counted) :
    S'.Counted := by
  simp only [vestingOperation, returns] at h
  obtain ⟨S1, h1, S2, h2, S3, h3, h4⟩ := h
  have hbefore := (forEach_level (fun _ _ _ h => regenerate_level h) h1).trans
    (forEach_level (fun _ S _ h => by
      simp only [changeVesting, returns] at h
      obtain ⟨a, -, rfl⟩ := h
      exact ⟨rfl, fun _ => rfl, fun _ => rfl, fun _ => rfl⟩) h2)
  have hafter := forEach_level (fun _ _ _ h => updateModifiedAccount_level h) h4
  have hkept : S3.Counted ∧ S3.accounts = S2.accounts := by
    refine forEach_invariant (P := fun S => S.Counted ∧ S.accounts = S2.accounts) ?_
      ⟨hbefore.counted hS, rfl⟩ h3
    rintro name hname S S' ⟨hS, haccounts⟩ h
    have hsolvent : S2.Solvent name :=
      changeVestings_solvent h2 (hchanges (ne_nil_of_mem hname)) (hsub hname)
    obtain ⟨hcounted, hsame⟩ := updateOutdelOverflow_counted hS h
      (fun a ha => hsolvent a (haccounts ▸ ha))
    exact ⟨hcounted, hsame.trans haccounts⟩
  exact hafter.counted hkept.1

/-- The records that a step gives to accounts whose delegations it may reduce. -/
def Step.records : Step → List VestingAccount
  | .withdrawVesting _ a => [a]
  | .delegateVestingShares _ _ a b => [a, b]
  | .fillVestingWithdraw _ _ a b => [a, b]
  | _ => []

/-- No effective vesting shares become negative. -/
def Step.Backed (step : Step) : Prop := ∀ a ∈ step.records, 0 ≤ a.effectiveVestingShares

instance (step : Step) : Decidable step.Backed :=
  inferInstanceAs (Decidable (∀ a ∈ step.records, 0 ≤ a.effectiveVestingShares))

/-- Every backed step keeps the counters right. -/
theorem exec_counted {step : Step} (h : S.exec step = .ok S') (hb : step.Backed)
    (hS : S.Counted) : S'.Counted := by
  cases step with
  | block =>
    rw [← ok.inj h]
    exact ⟨⟨hS.nonneg, hS.maxima⟩, hS.vests, hS.number⟩
  | createAccount =>
    simp only [exec, createRcAccount, returns] at h
    obtain ⟨accounts, -, b, -, rcAccounts, hins, rfl⟩ := h
    obtain ⟨-, hpools, hvests, hnumber⟩ := insert_level hins rfl rfl
    exact Level.counted (S := S) ⟨rfl, hpools, hvests, hnumber⟩ hS
  | tokenLaunch =>
    simp only [exec, launchRcAccount, returns] at h
    obtain ⟨rcAccounts, hins, rfl⟩ := h
    exact (insert_level hins rfl rfl).counted hS
  | addVesting => exact vestingOperation_counted h (by simp) (by simp) hS
  | withdrawVesting | delegateVestingShares | fillVestingWithdraw =>
    exact vestingOperation_counted h (by simp)
      (fun _ => by simpa [Step.Backed, Step.records] using hb) hS
  | delegateToPool =>
    simp only [exec, applyDelegateToPool, returns] at h
    obtain ⟨S1, h1, S2, h2, h3⟩ := h
    have hcounted := delegateToPool_counted h2 ((regenerate_level h1).counted hS)
    exact (updateModifiedAccount_level h3).counted hcounted
  | delegateDrcFromPool => exact (delegateDrcFromPool_level h).counted hS
  | setSlotDelegator => exact (setSlotDelegator_level h).counted hS
  | useAccountRcs => exact (useAccountRcs_level h).counted hS

/-- The state before the first block. -/
def start (skip : SkipFlags) : State := { hardfork := 0, skip := skip }

theorem start_counted (skip : SkipFlags) : (start skip).Counted :=
  ⟨⟨fun k v h => by simp [start, Table.find?, Table.empty] at h, fun _ => rfl⟩, fun _ => rfl,
    fun _ => rfl⟩

/-- An account is known to the plugin, and an instalment of its power-down is paid to itself. -/
def payout (before after : VestingAccount) : List Step :=
  [.createAccount (.account 10) (.account 0) { before with } 0,
    .fillVestingWithdraw (.account 10) (.account 10) after after]

end Freezone.Plugins.Rc.State
