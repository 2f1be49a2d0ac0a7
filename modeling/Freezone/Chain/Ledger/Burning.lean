import Freezone.Chain.Ledger.Supply

/-!
# When clearing the null account is exact

Clearing takes from the null account all that it holds and from the counts exactly
that, whatever the combination of holdings, if and only if the account is clearable.
-/

namespace Freezone.Chain.Funds.Ledger

open Protocol

variable {L L' : Ledger} {a : Account} {value : Int} {total : Cleared}

/-- What burning changes, and what it needs for SBD. -/
structure Burned (total : Cleared) (L L' : Ledger) : Prop where
  accounts : L'.accounts = L.accounts
  frame : Frame L L'
  supply : L'.props.currentSupply = L.props.currentSupply - total.freezone
  sbd : L'.props.currentSbdSupply = L.props.currentSbdSupply - total.sbd
  priced : 0 < total.sbd → L.currentMedianHistory.isSome ∧ total.sbd ≤ L.props.currentSbdSupply

/-- A value in dollars takes a price and an amount that is not negative. -/
theorem medianValue_eq_ok {x y : Asset Liquid} (h : L.medianValue x = .ok y) :
    L.currentMedianHistory.isSome ∧ 0 ≤ x.amount := by
  unfold medianValue at h
  split at h
  · cases h
  · rename_i median hmedian
    rw [hmedian]
    exact ⟨rfl, (Asset.quotient_eq_ok h).1⟩

/-- Burning lowers the supply by the total. -/
theorem burn_burned (h : L.burn total = .ok L') (hf : 0 ≤ total.freezone) (hs : 0 ≤ total.sbd) :
    Burned total L L' := by
  simp only [burn, returns] at h
  obtain ⟨L1, h1, h2⟩ := h
  have hfirst : L1.accounts = L.accounts ∧ Frame L L1 ∧
      L1.props.currentSupply = L.props.currentSupply - total.freezone ∧
      L1.props.currentSbdSupply = L.props.currentSbdSupply ∧
      L1.currentMedianHistory = L.currentMedianHistory := by
    split at h1
    · have hframe := adjustSupply_frame h1
      simp only [adjustSupply, returns] at h1
      obtain ⟨-, -, rfl⟩ := h1
      refine ⟨rfl, hframe, ?_, rfl, rfl⟩
      simp [sub_eq_add_neg]
    · cases h1
      exact ⟨rfl, Frame.refl L, by omega, rfl, rfl⟩
  obtain ⟨haccounts, hframe, hsupply, hsbd, hmedian⟩ := hfirst
  split_ifs at h2 with hz
  · have hframe' := adjustSupply_frame h2
    simp only [adjustSupply, returns] at h2
    obtain ⟨y, hy, -, -, rfl⟩ := h2
    obtain ⟨hpriced, hle⟩ := medianValue_eq_ok hy
    rw [hmedian] at hpriced
    dsimp only at hle
    refine ⟨haccounts, hframe.trans hframe', hsupply, ?_, fun _ => ⟨hpriced, by omega⟩⟩
    dsimp only
    omega
  · cases h2
    exact ⟨haccounts, hframe, hsupply, by omega, fun hpos => absurd hpos hz⟩

/-- Burning succeeds within the supplies. -/
theorem exists_burn (hf : total.freezone ≤ L.props.currentSupply)
    (hs : 0 < total.sbd → L.currentMedianHistory.isSome ∧ total.sbd ≤ L.props.currentSbdSupply) :
    ∃ L', L.burn total = .ok L' := by
  have hfirst : ∃ L1, (if 0 < total.freezone then L.adjustSupply ⟨-total.freezone, .freezone⟩ false
      else .ok L) = .ok L1 ∧ L1.props.currentSbdSupply = L.props.currentSbdSupply ∧
      L1.currentMedianHistory = L.currentMedianHistory := by
    split
    · have hok : ∃ L1, L.adjustSupply ⟨-total.freezone, .freezone⟩ false = .ok L1 := by
        simp only [adjustSupply, returns]
        refine ⟨_, (), fun _ => ?_, rfl⟩
        omega
      obtain ⟨L1, h1⟩ := hok
      have hinv := h1
      simp only [adjustSupply, returns] at hinv
      obtain ⟨-, -, rfl⟩ := hinv
      exact ⟨_, h1, rfl, rfl⟩
    · exact ⟨L, rfl, rfl, rfl⟩
  obtain ⟨L1, h1, hsbd, hmedian⟩ := hfirst
  simp only [burn, h1, returns, exists_eq_left']
  split_ifs with hpos
  · obtain ⟨hpriced, -⟩ := hs hpos
    have hrest : 0 ≤ L1.props.currentSbdSupply + -total.sbd := by omega
    rw [← hmedian] at hpriced
    obtain ⟨y, hy⟩ := exists_medianValue (x := ⟨L1.props.currentSbdSupply + -total.sbd, .sbd⟩)
      hpriced hrest
    simp only [adjustSupply, returns]
    exact ⟨_, y, hy, (), fun _ => hrest, rfl⟩
  · exact ⟨L1, rfl⟩

/-- An account that the sweep does not change holds nothing. -/
theorem holdsNothing_of_set (ha : L.accounts.find? nullAccount = some a)
    (h : L.accounts = L.accounts.set nullAccount (emptied a)) : HoldsNothing a := by
  have hfind : (L.accounts.set nullAccount (emptied a)).find? nullAccount = some (emptied a) :=
    Table.find?_set_self ha
  rw [← h, ha, Option.some.injEq] at hfind
  exact emptied_eq_self.mp hfind.symm

/-- What holds nothing has no entry in any book. -/
theorem HoldsNothing.entry (h : HoldsNothing a) (b : Book) : a.entry b = 0 := by
  obtain ⟨h1, h2, h3, h4, h5, h6, h7, h8, h9⟩ := h
  cases b <;> simp [Account.entry, *]

/-- An account with nothing can be cleared. -/
theorem HoldsNothing.clearable (h : HoldsNothing a) : L.Clearable a := by
  have hs : a.vestingShares = 0 := h.entry .shares
  have hr : a.rewardVestingBalance = 0 := h.entry .rewardShares
  unfold Clearable
  split_ifs
  · refine ⟨⟨fun _ => h.entry .rewardBacking, ?_, ?_⟩, ?_⟩
    · intro hpos
      omega
    · intro hpos
      omega
    · intro hpos
      rw [h.entry] at hpos
      exact absurd hpos (lt_irrefl 0)
  · exact h

/-- Nothing is cleared from an account that holds nothing. -/
theorem HoldsNothing.clears (h : HoldsNothing a) (ha : L.accounts.find? nullAccount = some a)
    (hb : L.Balanced) (hL : L.NonNegative) (hclear : L.clearNullAccountBalance = .ok L) :
    Clears a L L := by
  have hs : a.vestingShares = 0 := h.entry .shares
  have hr : a.rewardVestingBalance = 0 := h.entry .rewardShares
  have hf : a.rewardVestingFreezone = 0 := h.entry .rewardBacking
  refine ⟨?_, ?_, ?_, ?_, ?_, ?_, hb, hL, hclear⟩
  · rw [emptied_eq_self.mpr h, Table.set_eq_self ha]
  · rw [h.entry, hf, sub_self, add_zero, add_zero, sub_zero]
  · rw [h.entry, sub_zero]
  · rw [hs, sub_zero]
  · rw [hr, sub_zero]
  · rw [hf, sub_zero]

/-- The rest of the ledger as the holdings leave it. -/
theorem removeHoldings_frame {M : Ledger} (h : L.removeHoldings a value total = M) :
    M.props.pendingRewardedVestingFreezone = L.props.pendingRewardedVestingFreezone -
        (if 0 < a.rewardVestingBalance then a.rewardVestingFreezone else 0) ∧
      M.props.totalVestingFundFreezone =
        L.props.totalVestingFundFreezone - (if 0 < a.vestingShares then value else 0) ∧
      M.currentMedianHistory = L.currentMedianHistory ∧
      M.props.currentSbdSupply = L.props.currentSbdSupply ∧
      (¬ (0 < total.freezone ∨ 0 < total.sbd) → M.accounts = L.accounts) := by
  subst h
  unfold removeHoldings
  split_ifs <;> simp [leaveVesting, setAccount, *]

/-- The value of the shares is not negative. -/
theorem nullValue_nonneg (h : L.nullValue a = .ok value) : 0 ≤ value := by
  unfold nullValue at h
  split at h
  · obtain ⟨hs, ⟨hV, hC, rfl⟩ | ⟨-, rfl⟩⟩ := vestingValue_eq_ok h
    · exact Int.ediv_nonneg (mul_nonneg hs hC.le) hV.le
    · omega
  · rw [Except.ok.injEq] at h
    exact h.le

/-- Clearing that is exact has found a clearable account. -/
theorem Clears.clearable (hc : Clears a L L') (h : L.clearNullAccountBalance = .ok L')
    (hL : L.NonNegative) (hshares : L.gap .shares = 0)
    (ha : L.accounts.find? nullAccount = some a) : L.Clearable a := by
  by_cases hfork : L.HasHardfork 14
  · obtain ⟨a', value, ha', hvalue⟩ := clear_inv h hfork
    obtain rfl : a' = a := Option.some.inj (ha'.symm.trans ha)
    rw [clear_eq hfork ha hvalue] at h
    split at h
    · cases h
      exact (holdsNothing_of_set ha hc.accounts).clearable
    have hn := hL.accounts _ _ ha
    have hv := nullValue_nonneg hvalue
    have hr := hn.rewardVestingFreezone
    have hburned := burn_burned h
      (by unfold nullHoldings; dsimp only; split_ifs <;> omega)
      (by unfold nullHoldings; dsimp only; omega)
    obtain ⟨hkept, hleft, hmedian, hsupply, haccounts⟩ := removeHoldings_frame rfl
    by_cases hburn : 0 < (nullHoldings a' value).freezone ∨ 0 < (nullHoldings a' value).sbd
    · have hle := vestingShares_le hL hshares ha
      have hback : a'.rewardVestingBalance = 0 → a'.rewardVestingFreezone = 0 := by
        intro hz
        have hpending := hburned.frame.pendingFreezone
        rw [hkept, if_neg hz.not_gt, hc.pendingFreezone] at hpending
        omega
      have hfund : 0 < a'.vestingShares → value ≤ L.props.totalVestingFundFreezone := by
        intro hpos
        have hfund := hc.nonneg.vestingFund
        rw [hburned.frame.fund, hleft, if_pos hpos] at hfund
        omega
      have hpriced := hburned.priced
      rw [hmedian, hsupply] at hpriced
      rw [nullHoldings_eq hn (nullValue_zero hvalue) hback] at hburn hpriced
      rw [Clearable, if_pos hfork]
      refine ⟨⟨hback, fun hpos => ?_, fun _ => ?_⟩, hpriced⟩
      · rw [nullValue, if_pos hpos] at hvalue
        obtain ⟨-, ⟨-, hC, -⟩ | ⟨-, rfl⟩⟩ := vestingValue_eq_ok hvalue
        · exact .inl hC
        · omega
      -- what is burned is liquid, the backing of pending shares, or the value of shares
      dsimp only at hburn
      have hf := hn.entry .freezone
      have hs := hn.entry .sbd
      by_cases hworth : 0 < a'.entry .freezone + a'.entry .sbd + a'.rewardVestingFreezone
      · exact .inl hworth
      have hv0 : 0 < value := by omega
      have hpos : 0 < a'.vestingShares := by
        have hz := mt (nullValue_zero hvalue) hv0.ne'
        have := hn.vestingShares
        omega
      rw [nullValue, if_pos hpos] at hvalue
      obtain ⟨-, ⟨hV, hC, rfl⟩ | ⟨hempty, rfl⟩⟩ := vestingValue_eq_ok hvalue
      · refine .inr ⟨hpos, hC, ?_⟩
        have := (Int.le_ediv_iff_mul_le hV).mp (Int.add_one_le_of_lt hv0)
        rwa [zero_add, one_mul] at this
      · omega
    · have hsame := hburned.accounts
      rw [haccounts hburn, hc.accounts] at hsame
      exact (holdsNothing_of_set ha hsame.symm).clearable
  · rw [clearNullAccountBalance, if_pos hfork] at h
    cases h
    exact (holdsNothing_of_set ha hc.accounts).clearable

/-- Clearing an account that holds nothing changes nothing. -/
theorem clear_of_holdsNothing (h : HoldsNothing a) (ha : L.accounts.find? nullAccount = some a) :
    L.clearNullAccountBalance = .ok L := by
  by_cases hfork : L.HasHardfork 14
  · obtain ⟨h1, h2, h3, h4, h5, h6, h7, -, h9⟩ := h
    have hvalue : L.nullValue a = .ok 0 := by rw [nullValue, if_neg h5.not_gt]
    have hzero : (nullHoldings a 0).IsZero := by
      simp [Cleared.IsZero, nullHoldings, h1, h2, h3, h4, h5, h6, h7, h9]
    rw [clear_eq hfork ha hvalue, if_pos hzero]
  · rw [clearNullAccountBalance, if_pos hfork]

/-- The emptied account holds nothing. -/
theorem holdsNothing_emptied (a : Account) : HoldsNothing (emptied a) :=
  ⟨rfl, rfl, rfl, rfl, rfl, rfl, rfl, rfl, rfl⟩

/-- The FREEZONE that is removed is within the supply. -/
theorem removed_le_supply (hb : L.Balanced) (hL : L.NonNegative)
    (ha : L.accounts.find? nullAccount = some a) (hv : value ≤ L.props.totalVestingFundFreezone) :
    a.entry .freezone + a.rewardVestingFreezone + value ≤ L.props.currentSupply := by
  have hpending : 0 ≤ (L.swept a value).props.pendingRewardedVestingFreezone := by
    have hcounted := hb .rewardBacking
    rw [gap, held_eq_accounts _ (by decide)] at hcounted
    have hle := Table.le_total (f := (·.entry .rewardBacking))
      (fun k c hc => (hL.accounts k c hc).entry _) ha
    simp only [Properties.counted, Account.entry] at hcounted hle
    simp only [swept]
    omega
  have hheld := held_nonneg (swept_nonneg hL ha hv) hpending .freezone
  have hgap := gap_removed ha value .freezone
  rw [hb .freezone, gap] at hgap
  simp only [swept, Properties.counted, only, if_true, reduceCtorEq, if_false] at hgap hheld
  omega

/-- A clearable account is cleared exactly. -/
theorem Clearable.clears (h : L.Clearable a) (hb : L.Balanced) (hL : L.NonNegative)
    (ha : L.accounts.find? nullAccount = some a) :
    ∃ L', L.clearNullAccountBalance = .ok L' ∧ Clears a L L' := by
  have hn := hL.accounts _ _ ha
  unfold Clearable at h
  split_ifs at h with hfork
  · obtain ⟨hsweep, hsbd⟩ := h
    have hle := vestingShares_le hL (hb .shares) ha
    obtain ⟨value, hvalue⟩ : ∃ value, L.nullValue a = .ok value := by
      unfold nullValue
      split
      · exact exists_vestingValue hn.vestingShares hL.vestingFund (hn.vestingShares.trans hle)
      · exact ⟨0, rfl⟩
    obtain ⟨hv0, hv⟩ := hsweep.value_le hvalue hL hle
    have heq := nullHoldings_eq hn (nullValue_zero hvalue) hsweep.backing
    by_cases hzero : (nullHoldings a value).IsZero
    · have hnothing : HoldsNothing a := by
        rw [heq] at hzero
        obtain ⟨hf, hs, hshares⟩ := hzero
        simp only [Account.entry] at hf hs hshares
        obtain ⟨h1, h2, -, h3, h4, -, h5, h6, h7, -, h9, -, -⟩ := hn
        have hback := hsweep.backing
        unfold HoldsNothing
        omega
      have hclear := clear_of_holdsNothing hnothing ha
      exact ⟨L, hclear, hnothing.clears ha hb hL hclear⟩
    · have hburn := hsweep.burns hvalue hn hv0 hle hzero
      have hclear := clear_eq hfork ha hvalue
      rw [if_neg hzero, removeHoldings_eq hn (nullValue_zero hvalue) hsweep.backing hburn, heq]
        at hclear
      have hsupply := removed_le_supply hb hL ha hv
      have hexists : ∃ L', (L.swept a value).burn ⟨a.entry .freezone +
        a.rewardVestingFreezone + value,
          a.entry .sbd, a.vestingShares + a.rewardVestingBalance⟩ = .ok L' :=
              exists_burn hsupply hsbd
      obtain ⟨L', h'⟩ := hexists
      rw [h'] at hclear
      have hf := add_nonneg (add_nonneg (hn.entry .freezone) hn.rewardVestingFreezone) hv0
      have hburned := burn_burned h' hf (hn.entry .sbd)
      obtain ⟨hsame, hn'⟩ := clear_balances hclear hL (hb .shares) fun _ a' ha' => by
        rwa [← Option.some.inj (ha.symm.trans ha')]
      refine ⟨L', hclear, hburned.accounts, ?_, hburned.sbd, hburned.frame.shares,
        hburned.frame.pendingShares, hburned.frame.pendingFreezone,
        fun b => (hsame.gap b).trans (hb b), hn', ?_⟩
      · rw [hburned.supply, hburned.frame.fund]
        simp only [swept]
        ring
      · refine clear_of_holdsNothing (holdsNothing_emptied a) ?_
        rw [hburned.accounts]
        exact Table.find?_set_self ha
  · have hclear := clear_of_holdsNothing h ha
    exact ⟨L, hclear, HoldsNothing.clears h ha hb hL hclear⟩

/-- Clearing is exact if and only if the null account is clearable. -/
theorem clearNullAccountBalance_exact (L : Ledger) (a : Account) (hb : L.Balanced)
    (hL : L.NonNegative) (ha : L.accounts.find? nullAccount = some a) :
    (∃ L', L.clearNullAccountBalance = .ok L' ∧ Clears a L L') ↔ L.Clearable a := by
  constructor
  · rintro ⟨L', h, hc⟩
    exact hc.clearable h hL (hb .shares) ha
  · intro h
    exact h.clears hb hL ha

/-- The ledger in which the null account holds seven units of FREEZONE. -/
@[irreducible] def liquidToBurn : Ledger :=
  (genesis 1458835200 800000000 0).run (paidCurator.take 26)

theorem clearNullAccountBalance_exact_liquidToBurn :
    ∃ a L', liquidToBurn.accounts.find? nullAccount = some a ∧ a.balance = 7 ∧
      liquidToBurn.clearNullAccountBalance = .ok L' ∧ Clears a liquidToBurn L' := by
  have hs : liquidToBurn.Sound 0 := by
    unfold liquidToBurn
    exact sound_take 1458835200 800000000 0 coveredRun_paidCurator 26
  have ha : liquidToBurn.accounts.find? nullAccount =
      some { balance := 7, vestingWithdrawRate := 1 } := by decide +kernel
  have hfork : liquidToBurn.HasHardfork 14 := by decide +kernel
  have hclear : liquidToBurn.Clearable { balance := 7, vestingWithdrawRate := 1 } := by
    rw [Clearable, if_pos hfork]
    exact ⟨⟨fun _ => rfl, nofun, nofun⟩, nofun⟩
  obtain ⟨L', h⟩ := (clearNullAccountBalance_exact liquidToBurn _ hs.balanced hs.nonneg ha).mpr
    hclear
  exact ⟨_, L', ha, rfl, h⟩

/-- The ledger in which the null account holds shares that are worth nothing. -/
@[irreducible] def sharesToBurn : Ledger := (genesis 1458835200 1000 0).run worthlessShares

/-- They leave the total, but not the account. -/
theorem clearNullAccountBalance_exact_sharesToBurn :
    sharesToBurn.Balanced ∧ sharesToBurn.NonNegative ∧
      ∃ a, sharesToBurn.accounts.find? nullAccount = some a ∧
        ¬ ∃ L', sharesToBurn.clearNullAccountBalance = .ok L' ∧ Clears a sharesToBurn L' := by
  have hs : sharesToBurn.Sound 0 := by
    unfold sharesToBurn
    exact (sound_genesis 1458835200 1000 0).run coveredRun_worthlessShares
  have ha : sharesToBurn.accounts.find? nullAccount =
      some { vestingShares := 997, vestingWithdrawRate := 1 } := by decide +kernel
  refine ⟨hs.balanced, hs.nonneg, _, ha, ?_⟩
  rintro ⟨L', h, hc⟩
  have hclear := hc.clearable h hs.nonneg (hs.balanced .shares) ha
  rw [Clearable, if_pos (by decide +kernel)] at hclear
  -- the shares are not worth anything and the account holds nothing else
  rcases hclear.1.worth (Or.inl (by decide)) with hl | ⟨-, -, hvalue⟩
  · exact absurd hl (by decide)
  · exact absurd hvalue (by decide +kernel)

end Freezone.Chain.Funds.Ledger
