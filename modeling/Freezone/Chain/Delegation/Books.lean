import Freezone.Chain.Delegation.Effects

/-!
# The books of delegations

What an account has delegated is the sum of the delegations from it and of those of
its expirations that have not returned; what it has received is the sum of the
delegations to it. The sums are taken for all accounts and tokens at once, as
functions of the balance.
-/

namespace Freezone.Chain.Delegation.Registry

open Protocol List
open Funds (AccountName)

variable (S : Registry)

/-- The shares of the delegations from a balance. -/
def outgoing (k : HolderKey) : Int :=
  ((S.delegations.entries.filter fun e => e.1.source = k).map fun e => e.2.vestingShares).sum

/-- The shares of the delegations to a balance. -/
def incoming (k : HolderKey) : Int :=
  ((S.delegations.entries.filter fun e => e.1.target = k).map fun e => e.2.vestingShares).sum

/-- The shares that have not returned to a balance yet. -/
def expiring (k : HolderKey) : Int :=
  ((S.expirations.entries.filter fun e => e.item.source = k).map fun e =>
    e.item.vestingShares).sum

/-- The fields of the accounts agree with the delegations and their expirations. -/
def Balanced : Prop :=
  S.holders.All fun k a => a.delegatedVestingShares = S.outgoing k + S.expiring k ∧
    a.receivedVestingShares = S.incoming k

/-- The delegated shares of every balance. -/
def delegatedShares : HolderKey → Int :=
  S.holders.sum fun k a => Pi.single k a.delegatedVestingShares

/-- The received shares of every balance. -/
def receivedShares : HolderKey → Int :=
  S.holders.sum fun k a => Pi.single k a.receivedVestingShares

/-- The shares of the delegations from every balance. -/
def lent : HolderKey → Int :=
  S.delegations.sum fun k d => Pi.single k.source d.vestingShares

/-- The shares of the delegations to every balance. -/
def borrowed : HolderKey → Int :=
  S.delegations.sum fun k d => Pi.single k.target d.vestingShares

/-- The shares that have not returned to every balance. -/
def returning : HolderKey → Int :=
  (S.expirations.entries.map fun e =>
    (Pi.single e.item.source e.item.vestingShares : HolderKey → Int)).sum

theorem lent_apply (k : HolderKey) : S.lent k = S.outgoing k :=
  sum_map_single_apply _ _ _ k

theorem borrowed_apply (k : HolderKey) : S.borrowed k = S.incoming k :=
  sum_map_single_apply _ _ _ k

theorem returning_apply (k : HolderKey) : S.returning k = S.expiring k :=
  sum_map_single_apply _ _ _ k

/-- No delegation and no expiration has negative shares. -/
structure Nonneg : Prop where
  delegations : S.delegations.All fun _ d => 0 ≤ d.vestingShares
  expirations : ∀ e ∈ S.expirations.entries, 0 ≤ e.item.vestingShares

/-- The books in one equation for all delegated and one for all received shares. -/
structure Books : Prop extends Nonneg S where
  delegated : S.delegatedShares = S.lent + S.returning
  received : S.receivedShares = S.borrowed

/-- The books say that each counter is the sum of its delegations. -/
theorem Books.balanced {S : Registry} (h : S.Books) : S.Balanced := by
  intro k a ha
  constructor
  · rw [← S.lent_apply, ← S.returning_apply, ← Pi.add_apply, ← h.delegated, delegatedShares,
      Table.sum_single_apply ha]
  · rw [← S.borrowed_apply, ← h.received, receivedShares, Table.sum_single_apply ha]

/-- Neither what is delegated nor what is received is negative. -/
theorem Books.nonneg_shares {S : Registry} {k : HolderKey} {a : VestingAccount} (hS : S.Books)
    (h : S.holders.find? k = some a) :
    0 ≤ a.delegatedVestingShares ∧ 0 ≤ a.receivedVestingShares := by
  obtain ⟨hd, hr⟩ := hS.balanced k a h
  have hdel : ∀ e ∈ S.delegations.entries, 0 ≤ e.2.vestingShares :=
    Table.all_iff.mp hS.delegations
  rw [hd, hr]
  refine ⟨add_nonneg ?_ ?_, ?_⟩ <;> refine sum_nonneg fun x hx => ?_ <;>
    obtain ⟨e, he, rfl⟩ := mem_map.mp hx
  · exact hdel e (mem_of_mem_filter he)
  · exact hS.expirations e (mem_of_mem_filter he)
  · exact hdel e (mem_of_mem_filter he)

/-- Nothing changes in the books. -/
structure Quiet (S S' : Registry) : Prop where
  delegated : S'.delegatedShares = S.delegatedShares
  received : S'.receivedShares = S.receivedShares
  lent : S'.lent = S.lent
  borrowed : S'.borrowed = S.borrowed
  expirations : S'.expirations = S.expirations
  kept : ∀ P, S.delegations.All P → S'.delegations.All P

variable {S S' S'' : Registry}

theorem Quiet.of_holders (hd : S'.delegatedShares = S.delegatedShares)
    (hr : S'.receivedShares = S.receivedShares) (hdel : S'.delegations = S.delegations)
    (hexp : S'.expirations = S.expirations) : Quiet S S' where
  delegated := hd
  received := hr
  lent := by rw [Registry.lent, hdel, Registry.lent]
  borrowed := by rw [Registry.borrowed, hdel, Registry.borrowed]
  expirations := hexp
  kept := fun _ h => hdel ▸ h

theorem Quiet.refl (S : Registry) : Quiet S S := .of_holders rfl rfl rfl rfl

theorem Quiet.trans (h : Quiet S S') (h' : Quiet S' S'') : Quiet S S'' :=
  ⟨h'.delegated.trans h.delegated, h'.received.trans h.received, h'.lent.trans h.lent,
    h'.borrowed.trans h.borrowed, h'.expirations.trans h.expirations,
    fun P hP => h'.kept P (h.kept P hP)⟩

/-- A step that touches neither the counters nor the delegations keeps the books. -/
theorem Books.quiet (h : S.Books) (hq : Quiet S S') : S'.Books where
  delegations := hq.kept _ h.delegations
  expirations := hq.expirations ▸ h.expirations
  delegated := by rw [hq.delegated, h.delegated, hq.lent, returning, returning, hq.expirations]
  received := by rw [hq.received, h.received, hq.borrowed]

/-- The books after delegations changed: what balances lent, took back and received. -/
theorem Books.change (h : S.Books) (hn : S'.Nonneg) (out back inn : HolderKey → Int)
    (hd : S'.delegatedShares = S.delegatedShares + (out + back))
    (hr : S'.receivedShares = S.receivedShares + inn) (hl : S'.lent = S.lent + out)
    (hb : S'.borrowed = S.borrowed + inn) (hx : S'.returning = S.returning + back) : S'.Books := by
  refine ⟨hn, ?_, ?_⟩
  · rw [hd, hl, hx, h.delegated]
    exact add_add_add_comm _ _ _ _
  · rw [hr, hb, h.received]

section Holders

variable {k : HolderKey} {a a' : VestingAccount}

/-- Only the replaced account changes what is lent. -/
theorem delegatedShares_setHolder (h : S.holders.find? k = some a) (a' : VestingAccount) :
    (S.setHolder k a').delegatedShares = S.delegatedShares +
      Pi.single k (a'.delegatedVestingShares - a.delegatedVestingShares) := by
  rw [delegatedShares, setHolder, Table.sum_set h, Pi.single_sub, delegatedShares]
  abel

/-- Only the replaced account changes what is borrowed. -/
theorem receivedShares_setHolder (h : S.holders.find? k = some a) (a' : VestingAccount) :
    (S.setHolder k a').receivedShares = S.receivedShares +
      Pi.single k (a'.receivedVestingShares - a.receivedVestingShares) := by
  rw [receivedShares, setHolder, Table.sum_set h, Pi.single_sub, receivedShares]
  abel

theorem quiet_setHolder (h : S.holders.find? k = some a)
    (hd : a'.delegatedVestingShares = a.delegatedVestingShares)
    (hr : a'.receivedVestingShares = a.receivedVestingShares) : Quiet S (S.setHolder k a') := by
  refine .of_holders ?_ ?_ rfl rfl
  · rw [delegatedShares_setHolder h, hd, sub_self, Pi.single_zero, add_zero]
  · rw [receivedShares_setHolder h, hr, sub_self, Pi.single_zero, add_zero]

theorem quiet_createHolder (h : S.createHolder k a = .ok S') (hd : a.delegatedVestingShares = 0)
    (hr : a.receivedVestingShares = 0) : Quiet S S' := by
  obtain ⟨holders, hi, rfl⟩ := createHolder_eq h
  refine .of_holders ?_ ?_ rfl rfl
  · rw [delegatedShares, Table.sum_insert hi, hd, Pi.single_zero, add_zero, delegatedShares]
  · rw [receivedShares, Table.sum_insert hi, hr, Pi.single_zero, add_zero, receivedShares]

end Holders

section Delegations

variable {k : DelegationKey}

variable {r : Nat} {shares : Int}

/-- The accounts record a delegation of further shares. -/
theorem lendShares_books {delta : Int} (h : S.lendShares k delta r = .ok S') :
    S'.delegatedShares = S.delegatedShares + Pi.single k.source delta ∧
      S'.receivedShares = S.receivedShares + Pi.single k.target delta ∧
      S'.delegations = S.delegations ∧ S'.expirations = S.expirations := by
  obtain ⟨a, a', b, b', ha, ⟨_, _, rfl⟩, hb, ⟨_, _, rfl⟩, rfl⟩ := lendShares_eq h
  refine ⟨?_, ?_, rfl, rfl⟩
  · rw [delegatedShares_setHolder hb, sub_self, Pi.single_zero, add_zero,
      delegatedShares_setHolder ha, add_sub_cancel_left]
  · rw [receivedShares_setHolder hb, add_sub_cancel_left, receivedShares_setHolder ha, sub_self,
      Pi.single_zero, add_zero]

/-- The delegatee gives back shares at once. -/
theorem reclaimShares_books {delta : Int} (h : S.reclaimShares k delta shares r = .ok S') :
    S'.delegatedShares = S.delegatedShares ∧
      S'.receivedShares = S.receivedShares - Pi.single k.target delta ∧
      S'.delegations = S.delegations ∧ S'.expirations = S.expirations := by
  obtain ⟨b, b', hb, ⟨_, _, rfl⟩, rfl⟩ := reclaimShares_eq h
  refine ⟨?_, ?_, rfl, rfl⟩
  · rw [delegatedShares_setHolder hb, sub_self, Pi.single_zero, add_zero]
  · rw [receivedShares_setHolder hb, sub_sub_cancel_left, Pi.single_neg, sub_eq_add_neg]

/-- Replacing the shares of a delegation changes its part in a sum by the difference. -/
theorem sum_setDelegation {t : Table DelegationKey VestingDelegation} {d : VestingDelegation}
    (h : t.find? k = some d) (shares : Int) (g : DelegationKey → HolderKey) :
    ((t.set k { d with vestingShares := shares }).sum fun k d =>
        (Pi.single (g k) d.vestingShares : HolderKey → Int)) =
      (t.sum fun k d => Pi.single (g k) d.vestingShares) +
        Pi.single (g k) (shares - d.vestingShares) := by
  rw [Table.sum_set h, Pi.single_sub]
  abel

/-- A delegation of no shares is removed. -/
theorem sum_decreaseDelegation {t : Table DelegationKey VestingDelegation} {d : VestingDelegation}
    (h : t.find? k = some d) (hshares : 0 ≤ shares) (g : DelegationKey → HolderKey) :
    ((if 0 < shares then t.set k { d with vestingShares := shares } else t.erase k).sum fun k d =>
        (Pi.single (g k) d.vestingShares : HolderKey → Int)) =
      (t.sum fun k d => Pi.single (g k) d.vestingShares) +
        Pi.single (g k) (shares - d.vestingShares) := by
  split_ifs with hpos
  · exact sum_setDelegation h shares g
  · obtain rfl : shares = 0 := by omega
    rw [Table.sum_erase h, zero_sub, Pi.single_neg, sub_eq_add_neg]

/-- A delegation of no negative number of shares leaves none negative. -/
theorem Nonneg.genericDelegateVestingShares (hS : S.Nonneg)
    (hshares : 0 ≤ shares) (h : S.genericDelegateVestingShares k shares r = .ok S') :
    S'.Nonneg := by
  obtain ⟨a, a', -, -, h⟩ := genericDelegateVestingShares_cases h
  rcases h with ⟨delegations, -, hi, hlend⟩ | ⟨d, S1, -, -, -, hlend, rfl⟩ |
    ⟨d, S1, time, -, hlt, hreclaim, rfl⟩
  · obtain ⟨-, -, hdel, hexp⟩ := lendShares_books hlend
    have hdel : S'.delegations = delegations := hdel
    rw [← hdel] at hi
    exact ⟨hS.delegations.insert hi hshares, hexp ▸ hS.expirations⟩
  · obtain ⟨-, -, hdel, hexp⟩ := lendShares_books hlend
    have hold : S1.delegations.All fun _ d => 0 ≤ d.vestingShares := hdel ▸ hS.delegations
    exact ⟨hold.set hshares, hexp ▸ hS.expirations⟩
  · obtain ⟨-, -, hdel, hexp⟩ := reclaimShares_books hreclaim
    have hold : S1.delegations.All fun _ d => 0 ≤ d.vestingShares := hdel ▸ hS.delegations
    constructor
    · simp only
      split
      · exact hold.set hshares
      · exact hold.erase k
    · intro e he
      rw [hexp, TimedQueue.push_entries, TimedEntry.mem_insert] at he
      rcases he with rfl | he
      · exact sub_nonneg.mpr hlt.le
      · exact hS.expirations e he

/-- The evaluator keeps the books. -/
theorem Books.genericDelegateVestingShares (hS : S.Books)
    (hshares : 0 ≤ shares) (h : S.genericDelegateVestingShares k shares r = .ok S') : S'.Books := by
  have hn := hS.toNonneg.genericDelegateVestingShares hshares h
  obtain ⟨a, a', ha, ⟨voting, downvote, rfl⟩, h⟩ := genericDelegateVestingShares_cases h
  have hT : (S.setHolder k.source { a with
      votingManabar := voting, downvoteManabar := downvote }).Books :=
    hS.quiet (quiet_setHolder ha rfl rfl)
  generalize hTS : S.setHolder k.source _ = T at h hT
  have hdel : T.delegations = S.delegations := by rw [← hTS]; rfl
  have hexp : T.expirations = S.expirations := by rw [← hTS]; rfl
  rw [← hdel, ← hexp] at h
  rcases h with ⟨delegations, -, hi, hlend⟩ | ⟨d, S1, hd, -, -, hlend, rfl⟩ |
    ⟨d, S1, time, hd, -, hreclaim, rfl⟩
  · obtain ⟨hgiven, htaken, hdel', hexp'⟩ := lendShares_books hlend
    refine hT.change hn (Pi.single k.source shares) 0 (Pi.single k.target shares) ?_ htaken ?_ ?_ ?_
    · rw [add_zero]
      exact hgiven
    · rw [lent, hdel', Table.sum_insert hi, lent]
    · rw [borrowed, hdel', Table.sum_insert hi, borrowed]
    · rw [add_zero, returning, hexp', returning]
  · obtain ⟨hgiven, htaken, hdel', hexp'⟩ := lendShares_books hlend
    refine hT.change hn (Pi.single k.source (shares - d.vestingShares)) 0
      (Pi.single k.target (shares - d.vestingShares)) ?_ htaken ?_ ?_ ?_
    · rw [add_zero]
      exact hgiven
    · rw [lent, hdel', sum_setDelegation hd, lent]
    · rw [borrowed, hdel', sum_setDelegation hd, borrowed]
    · rw [add_zero, returning, hexp', returning]
  · -- the delegator waits for the shares that the delegatee gives back
    obtain ⟨hgiven, htaken, hdel', hexp'⟩ := reclaimShares_books hreclaim
    refine hT.change hn (Pi.single k.source (shares - d.vestingShares))
      (Pi.single k.source (d.vestingShares - shares))
      (Pi.single k.target (shares - d.vestingShares)) ?_ ?_ ?_ ?_ ?_
    · rw [← Pi.single_add, sub_add_sub_cancel, sub_self, Pi.single_zero, add_zero]
      exact hgiven
    · rw [← neg_sub, Pi.single_neg, ← sub_eq_add_neg]
      exact htaken
    · rw [lent, hdel', sum_decreaseDelegation hd hshares, lent]
    · rw [borrowed, hdel', sum_decreaseDelegation hd hshares, borrowed]
    · rw [returning, hexp', TimedQueue.push_entries, ((TimedEntry.insert_perm _ _).map _).sum_eq,
        map_cons, sum_cons, add_comm, returning]
      rfl

/-- A delegation keeps the books. -/
theorem Books.delegateVestingShares (hS : S.Books)
    (h : S.delegateVestingShares k shares = .ok S') : S'.Books := by
  obtain ⟨-, -, hshares, S1, r, hcreate, h⟩ := delegateVestingShares_eq h
  have hS1 : S1.Books := by
    rcases hcreate with rfl | hcreate
    · exact hS
    · exact hS.quiet (quiet_createHolder hcreate rfl rfl)
  exact hS1.genericDelegateVestingShares hshares h

end Delegations

theorem Nonneg.accountCreateWithDelegation (hS : S.Nonneg) {creator name : AccountName}
    {fee delegation : Int}
    (h : S.accountCreateWithDelegation creator name fee delegation = .ok S') : S'.Nonneg := by
  obtain ⟨-, hpos, c, S1, -, -, hcreate, h⟩ := accountCreateWithDelegation_eq h
  obtain ⟨holders, -, rfl⟩ := createHolder_eq hcreate
  rcases h with ⟨delegations, time, hins, rfl⟩ | ⟨-, rfl⟩
  · exact ⟨hS.delegations.insert hins hpos, hS.expirations⟩
  · exact ⟨hS.delegations, hS.expirations⟩

/-- The delegation to a new account, if there is one, has the shares that the account receives. -/
theorem Books.accountCreateWithDelegation (hS : S.Books) {creator name : AccountName}
    {fee delegation : Int}
    (h : S.accountCreateWithDelegation creator name fee delegation = .ok S') : S'.Books := by
  have hn := hS.toNonneg.accountCreateWithDelegation h
  obtain ⟨-, -, c, S1, hc, -, hcreate, h⟩ := accountCreateWithDelegation_eq h
  obtain ⟨holders, hi, rfl⟩ := createHolder_eq hcreate
  have hgiven : delegatedShares { S with holders := holders } =
      S.delegatedShares + Pi.single (creator, .vests) delegation := by
    rw [delegatedShares, Table.sum_insert hi]
    have hset := delegatedShares_setHolder hc
      { c with delegatedVestingShares := c.delegatedVestingShares + delegation }
    rw [delegatedShares, add_sub_cancel_left] at hset
    rw [hset]
    simp [newAccount]
  have htaken : receivedShares { S with holders := holders } =
      S.receivedShares + Pi.single (name, .vests) delegation := by
    rw [receivedShares, Table.sum_insert hi]
    have hset := receivedShares_setHolder hc
      { c with delegatedVestingShares := c.delegatedVestingShares + delegation }
    rw [receivedShares, sub_self, Pi.single_zero, add_zero] at hset
    rw [hset]
  have hbooks : ∀ delegations : Table DelegationKey VestingDelegation,
      (∀ g : DelegationKey → HolderKey,
        (delegations.sum fun k d => (Pi.single (g k) d.vestingShares : HolderKey → Int)) =
          (S.delegations.sum fun k d => Pi.single (g k) d.vestingShares) +
            Pi.single (g ⟨creator, name, .vests⟩) delegation) →
      Nonneg { S with holders := holders, delegations := delegations } →
      Books { S with holders := holders, delegations := delegations } := by
    intro delegations hsum hn
    refine hS.change hn (Pi.single (creator, .vests) delegation) 0
      (Pi.single (name, .vests) delegation) ?_ htaken (hsum _) (hsum _) ?_
    · rw [add_zero]
      exact hgiven
    · rw [add_zero]
      rfl
  rcases h with ⟨delegations, time, hins, rfl⟩ | ⟨rfl, rfl⟩
  · exact hbooks delegations (fun g => Table.sum_insert hins _) hn
  · exact hbooks S.delegations (fun g => by rw [Pi.single_zero, add_zero]) hn

/-- The return of a delegation leaves the others nonnegative. -/
theorem Nonneg.clearDelegation (hS : S.Nonneg) {e : TimedEntry DelegationExpiration}
    (h : S.clearDelegation e = .ok S') : S'.Nonneg := by
  obtain ⟨r, S1, hreturn, rfl⟩ := clearDelegation_eq h
  obtain ⟨a, a', -, -, rfl⟩ := returnShares_eq hreturn
  exact ⟨hS.delegations, fun f hf => hS.expirations f (mem_of_mem_filter hf)⟩

/-- An expiration ends when its shares return. -/
theorem Books.clearDelegation (hS : S.Books) {e : TimedEntry DelegationExpiration}
    (he : S.expirations.first = some e) (h : S.clearDelegation e = .ok S') : S'.Books := by
  have hn := hS.toNonneg.clearDelegation h
  obtain ⟨r, S1, hreturn, rfl⟩ := clearDelegation_eq h
  obtain ⟨a, a', ha, ⟨_, _, rfl⟩, rfl⟩ := returnShares_eq hreturn
  obtain ⟨rest, hrest⟩ := TimedQueue.first_eq_some he
  refine hS.change hn 0 (Pi.single e.item.source (-e.item.vestingShares)) 0 ?_ ?_ ?_ ?_ ?_
  · rw [zero_add]
    exact (delegatedShares_setHolder ha _).trans (by rw [sub_sub_cancel_left])
  · rw [add_zero]
    exact (receivedShares_setHolder ha _).trans (by rw [sub_self, Pi.single_zero, add_zero])
  · rw [add_zero]
    rfl
  · rw [add_zero]
    rfl
  · have herase : (S.expirations.erase e.id).entries = rest := TimedQueue.erase_first hrest
    rw [returning, returning, setHolder, herase, hrest, map_cons, sum_cons, Pi.single_neg]
    abel

/-- The return of the expired delegations keeps the books. -/
theorem Books.clearExpiredDelegations (hS : S.Books) (h : S.clearExpiredDelegations = .ok S') :
    S'.Books :=
  clearExpiredDelegations_invariant (fun _ _ _ hS he h => hS.clearDelegation he h) hS h

section Quiet

variable {k : HolderKey}

theorem withdrawVesting_quiet (h : S.withdrawVesting k shares = .ok S') : Quiet S S' := by
  obtain ⟨-, ⟨-, -, rfl⟩ | ⟨a, ha, -, ⟨-, rfl⟩ | ⟨-, _, _, -, -, rfl⟩⟩⟩ := withdrawVesting_cases h
  · exact .refl _
  · exact quiet_setHolder ha rfl rfl
  · exact quiet_setHolder ha rfl rfl

theorem quiet_payInstalment {a : VestingAccount} (h : S.holders.find? k = some a)
    (amount : Int) : Quiet S (S.setHolder k (payInstalment amount a)) := by
  refine quiet_setHolder h ?_ ?_ <;> simp only [payInstalment] <;> split <;> rfl

theorem payVestsInstalment_quiet {amount : Int}
    (h : S.payVestsInstalment k amount = .ok S') : Quiet S S' := by
  simp only [payVestsInstalment, getHolder, returns] at h
  obtain ⟨S1, hdeposit, -, -, a, ha, rfl⟩ := h
  have hS1 : Quiet S S1 := forEach_deposit_invariant (P := Quiet S)
    (fun T k a shares hT ha _ => hT.trans (quiet_setHolder ha rfl rfl)) (.refl S) hdeposit
  exact hS1.trans (quiet_payInstalment ha amount)

theorem processVestingWithdrawals_quiet (h : S.processVestingWithdrawals = .ok S') : Quiet S S' :=
  processVestingWithdrawals_invariant (P := Quiet S)
    (fun _ _ _ hT ha _ => hT.trans (quiet_payInstalment ha _))
    (fun _ _ _ _ hT _ _ h => hT.trans (payVestsInstalment_quiet h)) (.refl S) h

theorem adjustVesting_quiet (h : S.adjustVesting k shares = .ok S') : Quiet S S' := by
  obtain ⟨-, rfl | hcreate⟩ | ⟨a, ha, rfl⟩ := adjustVesting_cases h
  · exact .refl _
  · exact quiet_createHolder hcreate rfl rfl
  · exact quiet_setHolder ha rfl rfl

theorem applyHardfork_quiet (h : S.applyHardfork = .ok S') : Quiet S S' := by
  have hsplit : ∀ k a, (splitShares k a).delegatedVestingShares = a.delegatedVestingShares ∧
      (splitShares k a).receivedVestingShares = a.receivedVestingShares := by
    intro k a
    rw [splitShares]
    split <;> exact ⟨rfl, rfl⟩
  obtain ⟨-, _, rfl⟩ | ⟨_, _, _, _, rfl | rfl, -, rfl⟩ := applyHardfork_cases h
  · refine .of_holders ?_ ?_ rfl rfl
    · rw [delegatedShares, Table.sum_mapWithKey]
      simp only [hsplit]
      rfl
    · rw [receivedShares, Table.sum_mapWithKey]
      simp only [hsplit]
      rfl
  · exact .of_holders rfl rfl rfl rfl
  · -- only delegations of no shares are removed
    have hkeep : ∀ g : DelegationKey → HolderKey,
        ((S.delegations.keep fun _ d => d.vestingShares ≠ 0).sum fun k d =>
          (Pi.single (g k) d.vestingShares : HolderKey → Int)) =
        S.delegations.sum fun k d => Pi.single (g k) d.vestingShares := by
      intro g
      rw [Table.sum_keep]
      intro k d hd
      simp only [ne_eq, decide_not, Bool.not_eq_false', decide_eq_true_eq] at hd
      rw [hd, Pi.single_zero]
    exact ⟨rfl, rfl, hkeep _, hkeep _, rfl, fun P hP => hP.keep _⟩

end Quiet

/-- Every step keeps the books. -/
theorem Books.apply (hS : S.Books) {step : VestingStep} (h : S.apply step = .ok S') : S'.Books := by
  cases step with
  | accountCreate => exact hS.quiet (quiet_createHolder h rfl rfl)
  | accountCreateWithDelegation =>
    exact hS.accountCreateWithDelegation h
  | delegateVestingShares => exact hS.delegateVestingShares h
  | withdrawVesting => exact hS.quiet (withdrawVesting_quiet h)
  | createVesting =>
    obtain rfl | ⟨_, -, h⟩ := createVesting_cases h
    · exact hS
    · exact hS.quiet (adjustVesting_quiet h)
  | claimRewardVesting => exact hS.quiet (adjustVesting_quiet (claimRewardVesting_eq h).2)
  | setManabars =>
    simp only [Registry.apply, setManabars, getHolder, returns] at h
    obtain ⟨a, ha, rfl⟩ := h
    exact hS.quiet (quiet_setHolder ha rfl rfl)
  | clearExpiredDelegations => exact hS.clearExpiredDelegations h
  | processVestingWithdrawals => exact hS.quiet (processVestingWithdrawals_quiet h)
  | clearNullAccountBalance =>
    simp only [Registry.apply, clearNullAccountBalance, getHolder, returns] at h
    obtain ⟨-, -, a, ha, rfl⟩ := h
    exact hS.quiet (quiet_setHolder ha rfl rfl)
  | applyHardfork => exact hS.quiet (applyHardfork_quiet h)
  | advance =>
    simp only [Registry.apply, advance, returns] at h
    obtain ⟨-, -, -, -, rfl⟩ := h
    exact hS.quiet (.of_holders rfl rfl rfl rfl)
  | elsewhere =>
    rw [Registry.apply] at h
    cases h
    exact hS.quiet (.of_holders rfl rfl rfl rfl)

theorem genesis_books : genesis.Books := by
  refine ⟨⟨Table.all_empty _, nofun⟩, ?_, ?_⟩
  · simp [delegatedShares, lent, returning, genesis, Table.sum, Table.empty, TimedQueue.empty]
  · simp [receivedShares, borrowed, genesis, Table.sum, Table.empty]

/-- What holds at the beginning and is kept by every step holds in every state that is reached. -/
theorem run_invariant {P : Registry → Prop}
    (step : ∀ S S' s, P S → S.apply s = .ok S' → P S') (hS : P S) (steps : List VestingStep) :
    P (S.run steps) := by
  induction steps generalizing S with
  | nil => exact hS
  | cons s steps ih =>
    apply ih
    rw [afterStep]
    split
    · rename_i S' h
      exact step S S' s hS h
    · exact hS

/-- Every run keeps the books. -/
theorem run_books (steps : List VestingStep) : (genesis.run steps).Books :=
  run_invariant (fun _ _ _ hS h => hS.apply h) genesis_books steps

/-- In every state that is reached, the delegated and received shares of every account, of VESTS and
of every token, are the sums of the delegations and expirations. -/
theorem run_balanced (steps : List VestingStep) : (genesis.run steps).Balanced :=
  (run_books steps).balanced

end Freezone.Chain.Delegation.Registry
