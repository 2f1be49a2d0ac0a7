import Freezone.Chain.Delegation.Books

/-!
# Shares behind delegations and power-downs

A vesting account is sound when its shares cover what it has delegated together
with what its power-down has still to pay, and the power-down has paid a whole
number of instalments. Then the last instalment is exactly the rest. The split of
hardfork 1 gives every power-down a new rate; what it has paid so far need not be a
whole number of instalments at that rate.
-/

namespace Freezone.Chain.Delegation

open Protocol VestingAccount
open Funds (AccountName nullAccount maximumTime vestingWithdrawIntervalSeconds)

namespace VestingAccount

/-- What a power-down has still to pay. -/
def powerDown (a : VestingAccount) : Int :=
  if a.nextVestingWithdrawal ≠ maximumTime then a.toWithdraw - a.withdrawn else 0

/-- The shares cover the delegations and the power-down. -/
def Backed (a : VestingAccount) : Prop :=
  a.delegatedVestingShares + a.powerDown ≤ a.vestingShares ∧ 0 ≤ a.effectiveVestingShares

instance (a : VestingAccount) : Decidable a.Backed := inferInstanceAs (Decidable (_ ∧ _))

/-- The shares cover the delegations and the power-down, which has paid whole instalments. -/
structure Sound (a : VestingAccount) : Prop where
  next_le : a.nextVestingWithdrawal ≤ maximumTime
  toWithdraw_nonneg : 0 ≤ a.toWithdraw
  withdrawn_le : a.withdrawn ≤ a.toWithdraw
  covers : a.delegatedVestingShares + a.powerDown ≤ a.vestingShares
  instalments : a.nextVestingWithdrawal ≠ maximumTime →
    0 < a.vestingWithdrawRate ∧ a.vestingWithdrawRate ∣ a.withdrawn

variable {a a' : VestingAccount}

theorem powerDown_of_ne (h : a.nextVestingWithdrawal ≠ maximumTime) :
    a.powerDown = a.toWithdraw - a.withdrawn := if_pos h

theorem powerDown_of_eq (h : a.nextVestingWithdrawal = maximumTime) : a.powerDown = 0 :=
  if_neg (not_not.mpr h)

/-- What is left of a power down is at most what it was set to. -/
theorem Sound.powerDown_le (h : a.Sound) : a.powerDown ≤ a.toWithdraw - a.withdrawn := by
  have hle := h.withdrawn_le
  unfold powerDown
  split <;> omega

/-- A sound account has shares of its own left for its mana. -/
theorem Sound.backed (h : a.Sound) (hr : 0 ≤ a.receivedVestingShares) : a.Backed := by
  refine ⟨h.covers, ?_⟩
  have hcovers := h.covers
  simp only [effectiveVestingShares]
  by_cases hn : a.nextVestingWithdrawal = maximumTime
  · rw [powerDown_of_eq hn] at hcovers
    omega
  · rw [powerDown_of_ne hn] at hcovers
    have hweek : a.weeklyWithdraw ≤ a.toWithdraw - a.withdrawn := min_le_right _ _
    omega

/-- Soundness does not read the manabars. -/
theorem Sound.sameShares (h : a.Sound) (hs : a.SameShares a') : a'.Sound := by
  obtain ⟨_, _, rfl⟩ := hs
  exact ⟨h.next_le, h.toWithdraw_nonneg, h.withdrawn_le, h.covers, h.instalments⟩

theorem Sound.setReceived (h : a.Sound) (shares : Int) :
    ({ a with receivedVestingShares := shares } : VestingAccount).Sound :=
  ⟨h.next_le, h.toWithdraw_nonneg, h.withdrawn_le, h.covers, h.instalments⟩

variable {shares : Int} {r : Nat}

/-- Shares may be lent as long as the power down stays covered. -/
theorem Sound.setDelegated (h : a.Sound) (hle : shares + a.powerDown ≤ a.vestingShares) :
    ({ a with delegatedVestingShares := shares } : VestingAccount).Sound :=
  ⟨h.next_le, h.toWithdraw_nonneg, h.withdrawn_le, hle, h.instalments⟩

/-- An account without delegations and power-down. -/
theorem sound_of_idle (hn : a.nextVestingWithdrawal = maximumTime) (ht : 0 ≤ a.toWithdraw)
    (hw : a.withdrawn ≤ a.toWithdraw) (hd : a.delegatedVestingShares ≤ a.vestingShares) : a.Sound :=
  ⟨hn.le, ht, hw, by rw [powerDown_of_eq hn, add_zero]; exact hd, fun h => absurd hn h⟩

end VestingAccount

namespace Registry

variable {S S' : Registry} {a a' : VestingAccount}

section Accounts

/-- What an account can delegate is neither delegated nor being powered down. -/
theorem available_le (h : a.Sound) (hs : a.SameShares a') :
    S.available a a' ≤ a.vestingShares - a.delegatedVestingShares - a.powerDown := by
  obtain ⟨voting, downvote, rfl⟩ := hs
  rw [available]
  split
  · simp only [availableMana]
    refine (add_le_add_left (min_le_right _ _) _).trans ?_
    simp only [effectiveVestingShares, weeklyWithdraw]
    by_cases hn : a.nextVestingWithdrawal = maximumTime
    · rw [if_neg (not_not.mpr hn), if_neg (fun hc => hc.1.ne hn),
        powerDown_of_eq hn]
      omega
    · have hlt : a.nextVestingWithdrawal < maximumTime := lt_of_le_of_ne h.next_le hn
      rw [if_pos hn, powerDown_of_ne hn]
      -- the correction replaces this week's part by all of the rest
      by_cases hlater : a.vestingWithdrawRate < a.toWithdraw - a.withdrawn
      · rw [if_pos ⟨hlt, hlater⟩]
        omega
      · rw [if_neg (fun hc => hlater hc.2), min_eq_right (not_lt.mp hlater)]
        omega
  · have hp := h.powerDown_le
    omega

/-- A power down of some shares has a positive rate. -/
theorem withdrawRate_pos {intervals : Int} (hs : 0 < shares) (hi : 0 < intervals)
    (roundUp : Bool) : 0 < withdrawRate shares intervals roundUp := by
  have hdiv : 0 ≤ shares / intervals := Int.ediv_nonneg hs.le hi.le
  simp only [withdrawRate]
  split <;> split <;> omega

theorem wrapTime_of_lt {n : Nat} (h : n < maximumTime) : wrapTime n = n := by
  unfold maximumTime at h
  exact Nat.mod_eq_of_lt (by omega)

/-- The remainder is the rest after whole instalments. -/
theorem rest_emod {paid rate : Int} (hdvd : rate ∣ paid) (hle : paid ≤ shares)
    (hlast : shares - paid < rate) : shares % rate = shares - paid := by
  obtain ⟨count, rfl⟩ := hdvd
  rw [← Int.sub_mul_emod_self_left shares rate count, Int.emod_eq_of_lt (by omega) hlast]

/-- No instalment is cut short, and the last one is the rest. -/
theorem instalment_eq (h : a.Sound) (hd : 0 ≤ a.delegatedVestingShares)
    (hn : a.nextVestingWithdrawal ≠ maximumTime) :
    instalment a = min a.vestingWithdrawRate (a.toWithdraw - a.withdrawn) := by
  obtain ⟨-, hdvd⟩ := h.instalments hn
  have hcovers := h.covers
  rw [powerDown_of_ne hn] at hcovers
  have hle := h.withdrawn_le
  unfold instalment
  split_ifs with hlast
  · rw [rest_emod hdvd hle hlast, min_eq_right hlast.le, min_eq_right (by omega)]
  · rw [min_eq_left (not_lt.mp hlast), min_eq_right (by omega)]

end Accounts

/-- An account under its key: the null account has neither delegated nor powered down. -/
def Guarded (k : HolderKey) (a : VestingAccount) : Prop :=
  a.Sound ∧
    (k.1 = nullAccount → a.delegatedVestingShares ≤ 0 ∧ a.nextVestingWithdrawal = maximumTime)

/-- All accounts are guarded, and the clock is more than a week from its end. -/
structure Secured (S : Registry) : Prop where
  holders : S.holders.All Guarded
  time : S.time + vestingWithdrawIntervalSeconds < maximumTime

section Secured

variable {k : HolderKey}

theorem Secured.setHolder (hS : S.Secured) (ha : Guarded k a) : (S.setHolder k a).Secured :=
  ⟨hS.holders.set ha, hS.time⟩

theorem Secured.createHolder (hS : S.Secured) (ha : Guarded k a)
    (h : S.createHolder k a = .ok S') : S'.Secured := by
  obtain ⟨holders, hi, rfl⟩ := createHolder_eq h
  exact ⟨hS.holders.insert hi ha, hS.time⟩

theorem Guarded.sameShares (h : Guarded k a) (hs : a.SameShares a') : Guarded k a' := by
  refine ⟨h.1.sameShares hs, ?_⟩
  obtain ⟨_, _, rfl⟩ := hs
  exact h.2

theorem guarded_new (S : Registry) (k : HolderKey) (shares : Int) :
    Guarded k { S.newAccount with receivedVestingShares := shares } :=
  ⟨sound_of_idle rfl le_rfl le_rfl le_rfl, fun _ => ⟨le_rfl, rfl⟩⟩

/-- Lending is safe when the delegator can spare the shares. -/
theorem Secured.lendShares {k : DelegationKey} {delta : Int} (hS : S.Secured)
    (hn : k.delegator ≠ nullAccount) (hspare : ∀ a, S.holders.find? k.source = some a →
      a.delegatedVestingShares + delta + a.powerDown ≤ a.vestingShares)
    (h : S.lendShares k delta r = .ok S') : S'.Secured := by
  obtain ⟨a, a', b, b', ha, hs, hb, hs', rfl⟩ := lendShares_eq h
  have hT : (S.setHolder k.source a').Secured := by
    refine hS.setHolder ⟨?_, fun hnull => absurd hnull hn⟩
    exact ((hS.holders _ a ha).1.setDelegated (hspare a ha)).sameShares hs
  obtain ⟨hsound, hidle⟩ := hT.holders _ b hb
  have hguard : Guarded k.target
      { b with receivedVestingShares := b.receivedVestingShares + delta } :=
    ⟨hsound.setReceived _, hidle⟩
  exact hT.setHolder (hguard.sameShares hs')

/-- Taking back lent shares keeps every holder secured. -/
theorem Secured.reclaimShares {k : DelegationKey} {delta : Int} (hS : S.Secured)
    (h : S.reclaimShares k delta shares r = .ok S') : S'.Secured := by
  obtain ⟨b, b', hb, hs, rfl⟩ := reclaimShares_eq h
  obtain ⟨hsound, hidle⟩ := hS.holders _ b hb
  have hguard : Guarded k.target
      { b with receivedVestingShares := b.receivedVestingShares - delta } :=
    ⟨hsound.setReceived _, hidle⟩
  exact hS.setHolder (hguard.sameShares hs)

/-- A delegation lends only what its delegator has free. -/
theorem Secured.genericDelegateVestingShares {k : DelegationKey}
    (hS : S.Secured) (hn : k.delegator ≠ nullAccount)
    (h : S.genericDelegateVestingShares k shares r = .ok S') : S'.Secured := by
  obtain ⟨a, a', ha, hs, h⟩ := genericDelegateVestingShares_cases h
  have hguard := hS.holders _ a ha
  have hT : (S.setHolder k.source a').Secured := hS.setHolder (hguard.sameShares hs)
  have hfind : (S.setHolder k.source a').holders.find? k.source = some a' :=
    Table.find?_set_self ha
  -- the shares that are available stay covered when they are delegated
  have hspare : ∀ delta, delta ≤ S.available a a' → ∀ b, some a' = some b →
      b.delegatedVestingShares + delta + b.powerDown ≤ b.vestingShares := by
    intro delta hdelta b hb
    rw [Option.some.injEq] at hb
    have havail := available_le (S := S) hguard.1 hs
    obtain ⟨_, _, rfl⟩ := hs
    subst hb
    change a.delegatedVestingShares + delta + a.powerDown ≤ a.vestingShares
    omega
  rcases h with ⟨delegations, hle, -, hlend⟩ | ⟨d, S1, -, -, hle, hlend, rfl⟩ |
    ⟨d, S1, time, -, -, hreclaim, rfl⟩
  · have hnew : Secured { S.setHolder k.source a' with delegations := delegations } :=
      ⟨hT.holders, hT.time⟩
    exact hnew.lendShares hn (fun b hb => hspare shares hle b (hfind.symm.trans hb)) hlend
  · have hS1 := hT.lendShares hn (fun b hb => hspare _ hle b (hfind.symm.trans hb)) hlend
    exact ⟨hS1.holders, hS1.time⟩
  · have hpushed : Secured { S.setHolder k.source a' with
        expirations := S.expirations.push ⟨k.delegator, k.symbol, d.vestingShares - shares⟩
          time } := ⟨hT.holders, hT.time⟩
    have hS1 := hpushed.reclaimShares hreclaim
    exact ⟨hS1.holders, hS1.time⟩

theorem Secured.delegateVestingShares {k : DelegationKey} (hS : S.Secured)
    (h : S.delegateVestingShares k shares = .ok S') : S'.Secured := by
  obtain ⟨hn, -, -, S1, r, hcreate, h⟩ := delegateVestingShares_eq h
  have hS1 : S1.Secured := by
    rcases hcreate with rfl | hcreate
    · exact hS
    · refine hS.createHolder ⟨?_, fun _ => ⟨le_rfl, rfl⟩⟩ hcreate
      exact sound_of_idle rfl le_rfl le_rfl le_rfl
  exact hS1.genericDelegateVestingShares hn h

/-- A new account with delegated shares keeps every holder secured. -/
theorem Secured.accountCreateWithDelegation {creator name : AccountName} {fee delegation : Int}
    (hS : S.Secured) (h : S.accountCreateWithDelegation creator name fee delegation = .ok S') :
    S'.Secured := by
  obtain ⟨hn, -, c, S1, hc, hle, hcreate, h⟩ := accountCreateWithDelegation_eq h
  have hsound := (hS.holders _ c hc).1
  have hp := hsound.powerDown_le
  have hT : (S.setHolder (creator, .vests) { c with
      delegatedVestingShares := c.delegatedVestingShares + delegation }).Secured :=
    hS.setHolder ⟨hsound.setDelegated (by omega), fun hnull => absurd hnull hn⟩
  have hS1 := hT.createHolder (guarded_new S _ delegation) hcreate
  rcases h with ⟨delegations, time, -, rfl⟩ | ⟨-, rfl⟩
  · exact ⟨hS1.holders, hS1.time⟩
  · exact hS1

/-- Shares return to a delegator who still counts them as lent. -/
theorem Secured.clearDelegation {e : TimedEntry DelegationExpiration} (hS : S.Secured)
    (hb : S.Books) (he : S.expirations.first = some e) (h : S.clearDelegation e = .ok S') :
    S'.Secured := by
  obtain ⟨r, S1, hreturn, rfl⟩ := clearDelegation_eq h
  obtain ⟨a, a', ha, hs, rfl⟩ := returnShares_eq hreturn
  obtain ⟨rest, hrest⟩ := TimedQueue.first_eq_some he
  have hx : 0 ≤ e.item.vestingShares := hb.expirations e (by rw [hrest]; exact List.mem_cons_self)
  obtain ⟨hsound, hidle⟩ := hS.holders _ a ha
  have hcovers := hsound.covers
  have hguard : Guarded e.item.source a' := by
    refine Guarded.sameShares ⟨hsound.setDelegated (by omega), fun hnull => ?_⟩ hs
    exact ⟨by have := (hidle hnull).1; simp only; omega, (hidle hnull).2⟩
  have hT := hS.setHolder hguard
  exact ⟨hT.holders, hT.time⟩

/-- A power down is set to shares that are not lent. -/
theorem Secured.withdrawVesting (hS : S.Secured)
    (h : S.withdrawVesting k shares = .ok S') : S'.Secured := by
  obtain ⟨hn, ⟨-, -, rfl⟩ | ⟨a, -, hle, ⟨rfl, rfl⟩ | ⟨hpos, intervals, roundUp,
    hintervals, -, rfl⟩⟩⟩ :=
    withdrawVesting_cases h
  · exact hS
  · exact hS.setHolder ⟨sound_of_idle rfl le_rfl le_rfl (by
      change a.delegatedVestingShares ≤ a.vestingShares
      omega), fun hnull => absurd hnull hn⟩
  · have hrate := withdrawRate_pos hpos hintervals roundUp
    have htime := hS.time
    have hnext : (S.beginWithdrawal shares (withdrawRate shares intervals roundUp)
        a).nextVestingWithdrawal = S.time + vestingWithdrawIntervalSeconds := wrapTime_of_lt htime
    refine hS.setHolder ⟨⟨hnext.le.trans htime.le, hpos.le, hpos.le, ?_,
      fun _ => ⟨hrate, dvd_zero _⟩⟩, fun hnull => absurd hnull hn⟩
    rw [powerDown_of_ne (hnext.trans_ne htime.ne)]
    change a.delegatedVestingShares + (shares - 0) ≤ a.vestingShares
    omega

/-- An instalment that is due is paid to an account with a power-down. -/
theorem Secured.payInstalment (hS : S.Secured) (hb : S.Books) (ha : S.holders.find? k = some a)
    (hdue : a.nextVestingWithdrawal ≤ S.time) (hle : a.vestingShares ≤ shares) :
    Guarded k (payInstalment (instalment a) { a with vestingShares := shares }) := by
  obtain ⟨hsound, hidle⟩ := hS.holders k a ha
  have htime := hS.time
  refine ⟨?_, fun hnull => by
    have hnext := (hidle hnull).2
    omega⟩
  have hn : a.nextVestingWithdrawal + vestingWithdrawIntervalSeconds < maximumTime := by omega
  have hne : a.nextVestingWithdrawal ≠ maximumTime := by omega
  obtain ⟨hrate, hdvd⟩ := hsound.instalments hne
  have hcovers := hsound.covers
  rw [powerDown_of_ne hne] at hcovers
  rw [instalment_eq hsound (hb.nonneg_shares ha).1 hne]
  simp only [Registry.payInstalment]
  split_ifs with hmore
  · refine sound_of_idle rfl hsound.toWithdraw_nonneg ?_ ?_ <;> simp only <;> omega
  have hfull : min a.vestingWithdrawRate (a.toWithdraw - a.withdrawn) = a.vestingWithdrawRate := by
    omega
  rw [hfull] at hmore ⊢
  refine ⟨?_, hsound.toWithdraw_nonneg, ?_, ?_, fun _ => ⟨hrate, hdvd.add (dvd_refl _)⟩⟩
  · rw [wrapTime_of_lt hn]
    exact hn.le
  · simp only
    omega
  rw [powerDown_of_ne]
  · simp only
    omega
  · simp only
    rw [wrapTime_of_lt hn]
    exact hn.ne

theorem Secured.addShares (hS : S.Secured) (ha : S.holders.find? k = some a)
    (hle : a.vestingShares ≤ shares) :
    (S.setHolder k { a with vestingShares := shares }).Secured := by
  obtain ⟨h, hidle⟩ := hS.holders k a ha
  exact hS.setHolder ⟨⟨h.next_le, h.toWithdraw_nonneg, h.withdrawn_le, h.covers.trans hle,
    h.instalments⟩, hidle⟩

/-- An instalment leaves the lent shares in place. -/
theorem Secured.payVestsInstalment (hS : S.Secured) (hb : S.Books)
    (ha : S.holders.find? k = some a) (hdue : a.nextVestingWithdrawal ≤ S.time)
    (h : S.payVestsInstalment k (instalment a) = .ok S') : S'.Secured := by
  obtain ⟨S1, shares, hdeposit, hle, -, rfl⟩ := payVestsInstalment_eq h ha
  have hS1 : S1.Secured := forEach_deposit_invariant (P := Secured)
    (fun T k a shares hT ha hle => hT.addShares ha hle) hS hdeposit
  exact hS1.setHolder (hS.payInstalment hb ha hdue hle)

/-- The sweep of the withdrawals keeps every holder secured. -/
theorem Secured.processVestingWithdrawals (hS : S.Secured) (hb : S.Books)
    (h : S.processVestingWithdrawals = .ok S') : S'.Secured := by
  refine (processVestingWithdrawals_invariant (P := fun T => T.Secured ∧ T.Books) ?_ ?_ ⟨hS, hb⟩
    h).1
  · rintro T k a ⟨hT, hbT⟩ ha hdue
    exact ⟨hT.setHolder (hT.payInstalment hbT ha hdue le_rfl),
      hbT.quiet (quiet_payInstalment ha _)⟩
  · rintro T T' k a ⟨hT, hbT⟩ ha hdue hpay
    exact ⟨hT.payVestsInstalment hbT ha hdue hpay, hbT.quiet (payVestsInstalment_quiet hpay)⟩

theorem Secured.adjustVesting (hS : S.Secured) (hpos : 0 ≤ shares)
    (h : S.adjustVesting k shares = .ok S') : S'.Secured := by
  obtain ⟨-, rfl | hcreate⟩ | ⟨a, ha, rfl⟩ := adjustVesting_cases h
  · exact hS
  · refine hS.createHolder ⟨?_, fun _ => ⟨le_rfl, rfl⟩⟩ hcreate
    exact sound_of_idle rfl le_rfl le_rfl hpos
  · exact hS.addShares ha (by omega)

/-- The null account lends nothing and may lose its shares. -/
theorem Secured.clearNullAccountBalance (hS : S.Secured)
    (h : S.clearNullAccountBalance = .ok S') : S'.Secured := by
  simp only [Registry.clearNullAccountBalance, getHolder, returns] at h
  obtain ⟨-, -, a, ha, rfl⟩ := h
  obtain ⟨hsound, hidle⟩ := hS.holders _ a ha
  obtain ⟨hd, hn⟩ := hidle rfl
  exact hS.setHolder ⟨sound_of_idle hn hsound.toWithdraw_nonneg
    hsound.withdrawn_le hd, hidle⟩

end Secured

/-- The steps that keep shares from backing two things. At the split of hardfork 1, every
power-down of VESTS has paid a whole number of instalments at its new rate; new shares are not a
product that has wrapped; and the clock stays more than a week from its end. -/
def Orderly (S : Registry) : VestingStep → Prop
  | .applyHardfork => S.hardfork = 0 → S.holders.All fun k a => k.2 = .vests →
      a.nextVestingWithdrawal ≠ maximumTime → splitRate a ∣ a.withdrawn * splitMagnitude
  | .createVesting _ liquid num den => ∀ shares ∈ (scale liquid num den).toOption, 0 ≤ shares
  | .advance time => time + vestingWithdrawIntervalSeconds < maximumTime
  | _ => True

instance (S : Registry) (step : VestingStep) : Decidable (S.Orderly step) := by
  cases step <;> unfold Orderly <;> infer_instance

/-- A run of orderly steps. -/
def OrderlyRun : Registry → List VestingStep → Prop
  | _, [] => True
  | S, step :: steps => S.Orderly step ∧ OrderlyRun (S.afterStep step) steps

instance decidableOrderlyRun : (S : Registry) → (steps : List VestingStep) →
    Decidable (S.OrderlyRun steps)
  | _, [] => isTrue trivial
  | S, step :: steps =>
    have := decidableOrderlyRun (S.afterStep step) steps
    inferInstanceAs (Decidable (_ ∧ _))

/-- The split of the shares keeps every holder secured. -/
theorem Secured.applyHardfork (hS : S.Secured) (hb : S.Books) (ho : S.Orderly .applyHardfork)
    (h : S.applyHardfork = .ok S') : S'.Secured := by
  obtain ⟨hone, _, rfl⟩ | ⟨_, _, _, _, -, -, rfl⟩ := applyHardfork_cases h
  · have hrates := ho hone
    refine ⟨?_, hS.time⟩
    intro k b hfind
    rw [Table.find?_mapWithKey, Option.map_eq_some_iff] at hfind
    obtain ⟨a, ha, rfl⟩ := hfind
    obtain ⟨hsound, hidle⟩ := hS.holders k a ha
    rw [splitShares]
    split_ifs with hk
    · have hcovers := hsound.covers
      have hto := hsound.toWithdraw_nonneg
      have hle := hsound.withdrawn_le
      have hd := (hb.nonneg_shares ha).1
      refine ⟨⟨hsound.next_le, ?_, ?_, ?_, fun hn => ⟨?_, hrates k a ha hk hn⟩⟩, hidle⟩
      · simp only [splitMagnitude]
        omega
      · simp only [splitMagnitude]
        omega
      · simp only [powerDown, splitMagnitude] at hcovers ⊢
        split at hcovers <;> omega
      have hrate : 0 ≤ a.toWithdraw * splitMagnitude / 104 := by
        unfold splitMagnitude
        omega
      simp only [splitRate]
      split <;> omega
    · exact ⟨hsound, hidle⟩
  · exact ⟨hS.holders, hS.time⟩

/-- Every orderly step keeps the accounts sound. -/
theorem Secured.apply (hS : S.Secured) (hb : S.Books) {step : VestingStep} (ho : S.Orderly step)
    (h : S.apply step = .ok S') : S'.Secured := by
  cases step with
  | accountCreate => exact hS.createHolder (guarded_new S _ 0) h
  | accountCreateWithDelegation =>
    exact hS.accountCreateWithDelegation h
  | delegateVestingShares => exact hS.delegateVestingShares h
  | withdrawVesting => exact hS.withdrawVesting h
  | createVesting =>
    obtain rfl | ⟨shares, hshares, h⟩ := createVesting_cases h
    · exact hS
    · exact hS.adjustVesting (ho shares (by rw [hshares]; rfl)) h
  | claimRewardVesting =>
    obtain ⟨hpos, h⟩ := claimRewardVesting_eq h
    exact hS.adjustVesting hpos h
  | setManabars k =>
    simp only [Registry.apply, setManabars, getHolder, returns] at h
    obtain ⟨a, ha, rfl⟩ := h
    exact hS.setHolder ((hS.holders k a ha).sameShares ⟨_, _, rfl⟩)
  | clearExpiredDelegations =>
    refine (clearExpiredDelegations_invariant (P := fun T => T.Secured ∧ T.Books) ?_ ⟨hS, hb⟩ h).1
    rintro T T' e ⟨hT, hbT⟩ he hclear
    exact ⟨hT.clearDelegation hbT he hclear, hbT.clearDelegation he hclear⟩
  | processVestingWithdrawals => exact hS.processVestingWithdrawals hb h
  | clearNullAccountBalance => exact hS.clearNullAccountBalance h
  | applyHardfork => exact hS.applyHardfork hb ho h
  | advance =>
    simp only [Registry.apply, advance, returns] at h
    obtain ⟨-, -, -, -, rfl⟩ := h
    exact ⟨hS.holders, ho⟩
  | elsewhere =>
    rw [Registry.apply] at h
    cases h
    exact ⟨hS.holders, hS.time⟩

/-- No one has lent shares at the start. -/
theorem genesis_secured : genesis.Secured where
  holders := by
    rw [Table.all_iff]
    intro e he
    have hnew : e.2 = {} := by
      simp only [genesis, List.mem_cons, List.not_mem_nil, or_false] at he
      rcases he with rfl | rfl | rfl | rfl <;> rfl
    rw [hnew]
    exact ⟨sound_of_idle rfl le_rfl le_rfl le_rfl, fun _ => ⟨le_rfl, rfl⟩⟩
  time := by decide

/-- Every orderly run keeps the holders secured and the books in balance. -/
theorem run_secured {steps : List VestingStep} (hS : S.Secured) (hb : S.Books)
    (h : S.OrderlyRun steps) : (S.run steps).Secured ∧ (S.run steps).Books := by
  induction steps generalizing S with
  | nil => exact ⟨hS, hb⟩
  | cons step steps ih =>
    have hstep : (S.afterStep step).Secured ∧ (S.afterStep step).Books := by
      rw [afterStep]
      split
      · rename_i S' happly
        exact ⟨hS.apply hb h.1 happly, hb.apply happly⟩
      · exact ⟨hS, hb⟩
    exact ih hstep.1 hstep.2 h.2

/-- All accounts, and all balances of tokens, have shares behind their delegations and power-downs
taken together. -/
def Backed (S : Registry) : Prop := S.holders.All fun _ a => a.Backed

/-- In every state that orderly steps reach, shares back a delegation or a power-down but not both,
and no effective vesting shares are negative. -/
theorem run_backed (steps : List VestingStep) (h : genesis.OrderlyRun steps) :
    (genesis.run steps).Backed := by
  obtain ⟨hS, hb⟩ := run_secured genesis_secured genesis_books h
  intro k a ha
  exact (hS.holders k a ha).1.backed (hb.nonneg_shares ha).2

/-- The split comes first; then an account powers down ten thousand shares and delegates the
others. -/
def orderlySteps : List VestingStep :=
  [.applyHardfork, .accountCreate 10, .accountCreate 11, .createVesting (10, .vests) 50000 1 1,
    .withdrawVesting (10, .vests) 10000, .delegateVestingShares ⟨10, 11, .vests⟩ 40000] ++
    List.replicate 19 .applyHardfork ++
    [.advance (genesisTime + 604800), .processVestingWithdrawals]

theorem run_backed_orderly : genesis.OrderlyRun orderlySteps ∧ (genesis.run orderlySteps).Backed ∧
    ((genesis.run orderlySteps).holders.find? (10, .vests)).map (fun a =>
      (a.vestingShares, a.delegatedVestingShares, a.powerDown)) = some (49904, 40000, 9904) :=
  have h : genesis.OrderlyRun orderlySteps := by decide +kernel
  ⟨h, run_backed orderlySteps h, by decide +kernel⟩

/-- The block of a week after genesis. -/
def weekly (week : Nat) : List VestingStep :=
  [.advance (genesisTime + week * vestingWithdrawIntervalSeconds), .processVestingWithdrawals]

/-- A power-down of two shares has paid one of them at the split. Fifty-two weeks later forty
millionths are left of it, and the account delegates all its other shares. -/
def overdrawingSteps : List VestingStep :=
  [.accountCreate 10, .accountCreate 11, .createVesting (10, .vests) 100000 1 1,
    .elsewhere 1 100 100000 .empty .empty, .withdrawVesting (10, .vests) 2] ++ weekly 1 ++
    [.applyHardfork] ++
    (List.range 52).flatMap (fun i => weekly (i + 2)) ++
    [.delegateVestingShares ⟨10, 11, .vests⟩ 99998000000] ++ List.replicate 19 .applyHardfork ++
    weekly 54

/-- The last instalment is the remainder of the whole by the rate, eighty instead of forty
millionths; the delegation then lacks shares and the effective vesting shares are negative. -/
theorem run_overdrawn : (genesis.run overdrawingSteps).HasHardfork 20 ∧
    ((genesis.run overdrawingSteps).holders.find? (10, .vests)).map (fun a =>
      (a.vestingShares, a.delegatedVestingShares, a.powerDown, a.effectiveVestingShares)) =
        some (99997999960, 99998000000, 0, -40) ∧
    ¬ (genesis.run overdrawingSteps).Backed := by
  have hfind : ((genesis.run overdrawingSteps).holders.find? (10, .vests)).map (fun a =>
      (a.vestingShares, a.delegatedVestingShares, a.powerDown, a.effectiveVestingShares)) =
        some (99997999960, 99998000000, 0, -40) := by decide +kernel
  refine ⟨by decide +kernel, hfind, fun hbacked => ?_⟩
  obtain ⟨a, ha, heq⟩ := Option.map_eq_some_iff.mp hfind
  have heffective : a.effectiveVestingShares = -40 := congrArg (fun x => x.2.2.2) heq
  have hnonneg := (hbacked _ a ha).2
  omega

end Registry

end Freezone.Chain.Delegation
