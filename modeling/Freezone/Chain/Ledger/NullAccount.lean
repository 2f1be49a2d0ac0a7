import Freezone.Chain.Ledger.Withdrawals

/-!
# The null account

What is sent to the null account is burned with the next block. The vesting totals
are lowered whenever it holds shares, but the account is emptied only if FREEZONE
or SBD are burned: shares whose value rounds to zero stay, and are taken from the
totals again with every block. This says exactly when clearing is sound.
-/

namespace Freezone.Chain.Funds.Ledger

open Protocol

variable {L L' : Ledger} {a : Account} {value : Int}

/-- An account holds nothing. -/
def HoldsNothing (a : Account) : Prop :=
  a.balance = 0 ∧ a.savingsBalance = 0 ∧ a.sbd.balance = 0 ∧ a.savingsSbd.balance = 0 ∧
    a.vestingShares = 0 ∧ a.rewardFreezoneBalance = 0 ∧ a.rewardSbdBalance = 0 ∧
    a.rewardVestingFreezone = 0 ∧ a.rewardVestingBalance = 0

instance (a : Account) : Decidable (HoldsNothing a) := inferInstanceAs (Decidable (_ ∧ _))

/-- Only an account with nothing is left as it was. -/
theorem emptied_eq_self : emptied a = a ↔ HoldsNothing a := by
  constructor
  · intro h
    rw [← h]
    exact ⟨rfl, rfl, rfl, rfl, rfl, rfl, rfl, rfl, rfl⟩
  · obtain ⟨b, ⟨s, _, _, _⟩, sb, ⟨ss, _, _, _⟩, _, rf, rs, rv, rb, v, _, _, _, _, _, _⟩ := a
    rintro ⟨h1, h2, h3, h4, h5, h6, h7, h8, h9⟩
    subst h1 h2 h3 h4 h5 h6 h7 h8 h9
    rfl

/-- Pending shares have backing, shares are worth no more than the vesting fund, and whoever holds
shares of either kind holds something that is worth at least one unit of FREEZONE or SBD. -/
structure Sweepable (L : Ledger) (a : Account) : Prop where
  backing : a.rewardVestingBalance = 0 → a.rewardVestingFreezone = 0
  price : 0 < a.vestingShares → 0 < L.props.totalVestingFundFreezone ∨ a.vestingShares < 1000
  worth : 0 < a.vestingShares ∨ 0 < a.rewardVestingBalance →
    0 < a.entry .freezone + a.entry .sbd + a.rewardVestingFreezone ∨
      0 < a.vestingShares ∧ 0 < L.props.totalVestingFundFreezone ∧
        L.props.totalVestingShares ≤ a.vestingShares * L.props.totalVestingFundFreezone

/-- The null account can be cleared: it holds nothing before hardfork 14; from then on it is
sweepable, and its SBD are within their supply and have a price. -/
def Clearable (L : Ledger) (a : Account) : Prop :=
  if L.HasHardfork 14 then
    L.Sweepable a ∧ (0 < a.entry .sbd →
      L.currentMedianHistory.isSome ∧ a.entry .sbd ≤ L.props.currentSbdSupply)
  else HoldsNothing a

/-- Every book agrees with its count. -/
def Balanced (L : Ledger) : Prop := ∀ b, L.gap b = 0

/-- The null account is emptied, the counts fall by what it held and what its shares took out of
the vesting fund, nothing else changes in the accounts, the books agree again, and clearing once
more changes nothing. -/
structure Clears (a : Account) (L L' : Ledger) : Prop where
  accounts : L'.accounts = L.accounts.set nullAccount (emptied a)
  supply : L'.props.currentSupply = L.props.currentSupply - (a.entry .freezone +
    a.rewardVestingFreezone +
      (L.props.totalVestingFundFreezone - L'.props.totalVestingFundFreezone))
  sbd : L'.props.currentSbdSupply = L.props.currentSbdSupply - a.entry .sbd
  shares : L'.props.totalVestingShares = L.props.totalVestingShares - a.vestingShares
  pendingShares : L'.props.pendingRewardedVestingShares =
    L.props.pendingRewardedVestingShares - a.rewardVestingBalance
  pendingFreezone : L'.props.pendingRewardedVestingFreezone =
    L.props.pendingRewardedVestingFreezone - a.rewardVestingFreezone
  balanced : L'.Balanced
  nonneg : L'.NonNegative
  again : L'.clearNullAccountBalance = .ok L'

/-- The totals of an account without negative amounts. -/
theorem nullHoldings_eq (hn : a.NonNegative) (hvalue : a.vestingShares = 0 → value = 0)
    (hback : a.rewardVestingBalance = 0 → a.rewardVestingFreezone = 0) :
    nullHoldings a value = ⟨a.entry .freezone + a.rewardVestingFreezone + value, a.entry .sbd,
      a.vestingShares + a.rewardVestingBalance⟩ := by
  have hvests : (if 0 < a.vestingShares then value else 0) = value := by
    split
    · rfl
    · have := hn.vestingShares
      exact (hvalue (by omega)).symm
  have hpending : (if 0 < a.rewardVestingBalance then a.rewardVestingFreezone else 0) =
      a.rewardVestingFreezone := by
    split
    · rfl
    · have := hn.rewardVestingBalance
      exact (hback (by omega)).symm
  simp only [nullHoldings, hvests, hpending, max_eq_left hn.balance, max_eq_left hn.savingsBalance,
    max_eq_left hn.rewardFreezoneBalance, max_eq_left hn.sbd, max_eq_left hn.savingsSbd,
    max_eq_left hn.rewardSbdBalance, max_eq_left hn.vestingShares,
    max_eq_left hn.rewardVestingBalance, Account.entry, Cleared.mk.injEq, and_true]
  ring

/-- The ledger without what the null account holds, before the supplies are lowered. -/
def swept (a : Account) (value : Int) (L : Ledger) : Ledger :=
  { L with
    accounts := L.accounts.set nullAccount (emptied a)
    props := { L.props with
      totalVestingFundFreezone := L.props.totalVestingFundFreezone - value
      totalVestingShares := L.props.totalVestingShares - a.vestingShares
      pendingRewardedVestingShares :=
        L.props.pendingRewardedVestingShares - a.rewardVestingBalance
      pendingRewardedVestingFreezone :=
        L.props.pendingRewardedVestingFreezone - a.rewardVestingFreezone } }

variable {total : Cleared}

/-- Removing the holdings when something is burned. -/
theorem removeHoldings_eq (hn : a.NonNegative) (hvalue : a.vestingShares = 0 → value = 0)
    (hback : a.rewardVestingBalance = 0 → a.rewardVestingFreezone = 0)
    (hburn : 0 < total.freezone ∨ 0 < total.sbd) :
    L.removeHoldings a value total = L.swept a value := by
  have hshares := hn.vestingShares
  have hpending := hn.rewardVestingBalance
  unfold removeHoldings swept
  rw [if_pos hburn]
  by_cases hs : 0 < a.vestingShares
  · by_cases hr : 0 < a.rewardVestingBalance
    · rw [if_pos hs, if_pos hr]
      rfl
    · have hzero : a.rewardVestingBalance = 0 := by omega
      rw [if_pos hs, if_neg hr, hzero, hback hzero]
      simp [leaveVesting, setAccount]
  · have hzero : a.vestingShares = 0 := by omega
    by_cases hr : 0 < a.rewardVestingBalance
    · rw [if_neg hs, if_pos hr, hzero, hvalue hzero]
      simp [setAccount]
    · have hzero' : a.rewardVestingBalance = 0 := by omega
      rw [if_neg hs, if_neg hr, hzero, hvalue hzero, hzero', hback hzero']
      simp [setAccount]

theorem emptied_nonneg (hn : a.NonNegative) : (emptied a).NonNegative :=
  { hn with
    balance := le_rfl
    savingsBalance := le_rfl
    sbd := le_rfl
    savingsSbd := le_rfl
    rewardFreezoneBalance := le_rfl
    rewardSbdBalance := le_rfl
    rewardVestingBalance := le_rfl
    rewardVestingFreezone := le_rfl
    vestingShares := le_rfl }

/-- What is removed is missing until it is burned. -/
theorem gap_removed (ha : L.accounts.find? nullAccount = some a) (value : Int) (b : Book) :
    (L.swept a value).gap b =
      L.gap b - (only .freezone (a.entry .freezone + a.rewardVestingFreezone + value) b +
        only .sbd (a.entry .sbd) b) := by
  simp only [gap, held, swept, Table.total_set ha]
  cases b <;> simp [Account.entry, emptied, Properties.entry, Properties.counted, only] <;> ring

/-- The supplies fall by what is burned. -/
theorem burn_moves (h : L.burn total = .ok L') (hf : 0 ≤ total.freezone) (hs : 0 ≤ total.sbd) :
    Steady (fun b => only .freezone total.freezone b + only .sbd total.sbd b) L L' := by
  simp only [burn, returns] at h
  obtain ⟨L1, h1, h2⟩ := h
  have hfirst : Steady (only .freezone total.freezone) L L1 := by
    split_ifs at h1 with hz
    · refine (adjustSupply_moves h1).congr fun b => ?_
      cases b <;> simp [liquidEntry, bookOf, only]
    · cases h1
      rw [le_antisymm (not_lt.mp hz) hf]
      exact (Steady.refl L).congr fun b => (only_zero .freezone b).symm
  split_ifs at h2 with hz
  · refine (hfirst.trans (adjustSupply_moves h2)).congr fun b => ?_
    cases b <;> simp [liquidEntry, bookOf, only]
  cases h2
  rw [le_antisymm (not_lt.mp hz) hs]
  refine hfirst.congr fun b => ?_
  rw [only_zero, add_zero]

/-- The value of the shares of the null account, zero if it has none. -/
def nullValue (a : Account) (L : Ledger) : Except String Int :=
  if 0 < a.vestingShares then L.vestingValue a.vestingShares else .ok 0

/-- Without shares there is nothing to value. -/
theorem nullValue_zero (h : L.nullValue a = .ok value) (hz : a.vestingShares = 0) : value = 0 := by
  rw [nullValue, if_neg (by omega), Except.ok.injEq] at h
  exact h.symm

/-- Nothing is to be removed. -/
def Cleared.IsZero (c : Cleared) : Prop := c.freezone = 0 ∧ c.sbd = 0 ∧ c.vests = 0

instance (c : Cleared) : Decidable c.IsZero := inferInstanceAs (Decidable (_ ∧ _))

/-- What clearing does from hardfork 14 on. -/
theorem clear_eq (hfork : L.HasHardfork 14) (ha : L.accounts.find? nullAccount = some a)
    (hvalue : L.nullValue a = .ok value) :
    L.clearNullAccountBalance = if (nullHoldings a value).IsZero then .ok L
      else (L.removeHoldings a value (nullHoldings a value)).burn (nullHoldings a value) := by
  rw [nullValue] at hvalue
  simp only [clearNullAccountBalance, hfork, not_true, if_false, getAccount, ha, orThrow, bind,
    Except.bind, hvalue]
  rfl

/-- Clearing that returns has found the account and the value of its shares. -/
theorem clear_inv (h : L.clearNullAccountBalance = .ok L') (hfork : L.HasHardfork 14) :
    ∃ a value, L.accounts.find? nullAccount = some a ∧ L.nullValue a = .ok value := by
  unfold clearNullAccountBalance at h
  rw [if_neg (not_not.mpr hfork)] at h
  simp only [returns, getAccount_eq_ok] at h
  obtain ⟨a, ha, value, hvalue, -⟩ := h
  exact ⟨a, value, ha, hvalue⟩

/-- The shares of a sweepable account are worth no more than the fund. -/
theorem Sweepable.value_le (h : L.Sweepable a) (hvalue : L.nullValue a = .ok value)
    (hL : L.NonNegative) (hle : a.vestingShares ≤ L.props.totalVestingShares) :
    0 ≤ value ∧ value ≤ L.props.totalVestingFundFreezone := by
  unfold nullValue at hvalue
  split_ifs at hvalue with hpos
  · exact vestingValue_le_fund hvalue hL.vestingFund (h.price hpos) hle
  · cases hvalue
    exact ⟨le_rfl, hL.vestingFund⟩

/-- If anything is removed, FREEZONE or SBD are. -/
theorem Sweepable.burns (h : L.Sweepable a) (hvalue : L.nullValue a = .ok value)
    (hn : a.NonNegative) (hv0 : 0 ≤ value) (hle : a.vestingShares ≤ L.props.totalVestingShares)
    (hsome : ¬ (nullHoldings a value).IsZero) :
    0 < (nullHoldings a value).freezone ∨ 0 < (nullHoldings a value).sbd := by
  rw [nullHoldings_eq hn (nullValue_zero hvalue) h.backing] at hsome ⊢
  dsimp only [Cleared.IsZero] at hsome ⊢
  have hf := hn.entry .freezone
  have hs := hn.entry .sbd
  have hb := hn.rewardVestingFreezone
  have hshares := hn.vestingShares
  have hpending := hn.rewardVestingBalance
  by_contra hnone
  obtain hworth | ⟨hpos, hC, hV⟩ := h.worth (by omega)
  · omega
  rw [nullValue, if_pos hpos] at hvalue
  obtain ⟨-, ⟨hV0, -, rfl⟩ | ⟨hempty, -⟩⟩ := vestingValue_eq_ok hvalue
  · have hone : 1 ≤ a.vestingShares * L.props.totalVestingFundFreezone /
        L.props.totalVestingShares := by
      rw [Int.le_ediv_iff_mul_le hV0, one_mul]
      exact hV
    omega
  · omega

/-- The sweep takes from the vesting fund no more than it holds. -/
theorem swept_nonneg (hL : L.NonNegative) (ha : L.accounts.find? nullAccount = some a)
    (hle : value ≤ L.props.totalVestingFundFreezone) : (L.swept a value).NonNegative :=
  { hL with
    accounts := hL.accounts.set nullAccount (emptied_nonneg (hL.accounts _ _ ha))
    vestingFund := sub_nonneg.mpr hle }

/-- Clearing a sweepable account conserves. -/
theorem clear_balances (h : L.clearNullAccountBalance = .ok L') (hL : L.NonNegative)
    (hshares : L.gap .shares = 0)
    (hsweep : L.HasHardfork 14 → ∀ a, L.accounts.find? nullAccount = some a → L.Sweepable a) :
    SameBooks L L' ∧ L'.NonNegative := by
  by_cases hfork : L.HasHardfork 14
  · obtain ⟨a, value, ha, hvalue⟩ := clear_inv h hfork
    have hs := hsweep hfork a ha
    have hn := hL.accounts _ _ ha
    have hle := vestingShares_le hL hshares ha
    obtain ⟨hv0, hv⟩ := hs.value_le hvalue hL hle
    rw [clear_eq hfork ha hvalue] at h
    split_ifs at h with hsome
    · cases h
      exact ⟨SameBooks.refl L, hL⟩
    have hburn := hs.burns hvalue hn hv0 hle hsome
    rw [removeHoldings_eq hn (nullValue_zero hvalue) hs.backing hburn] at h
    rw [nullHoldings_eq hn (nullValue_zero hvalue) hs.backing] at h
    have hf := add_nonneg (add_nonneg (hn.entry .freezone) hn.rewardVestingFreezone) hv0
    have hm := burn_moves h hf (hn.entry .sbd)
    refine ⟨⟨fun b => ?_, hm.init⟩, hm.nonneg (swept_nonneg hL ha hv)⟩
    rw [hm.gap, gap_removed ha]
    exact sub_add_cancel _ _
  · rw [clearNullAccountBalance, if_pos hfork] at h
    cases h
    exact ⟨SameBooks.refl L, hL⟩

/-- What holds without the holdings and is kept when the supplies are lowered holds after
clearing. -/
theorem clear_invariant {P : Ledger → Prop} (h : L.clearNullAccountBalance = .ok L') (hL : P L)
    (hremove : ∀ a value total, P (L.removeHoldings a value total))
    (hsupply : ∀ delta L L', P L → L.adjustSupply delta false = .ok L' → P L') : P L' := by
  unfold clearNullAccountBalance at h
  split at h
  · exact Except.ok.inj h ▸ hL
  simp only [returns] at h
  obtain ⟨a, -, value, -, h⟩ := h
  split at h
  · exact Except.ok.inj h ▸ hL
  simp only [burn, returns] at h
  obtain ⟨L1, h1, h2⟩ := h
  have hfirst : P L1 := by
    split at h1
    · exact hsupply _ _ _ (hremove _ _ _) h1
    · exact Except.ok.inj h1 ▸ hremove _ _ _
  split at h2
  · exact hsupply _ _ _ hfirst h2
  · exact Except.ok.inj h2 ▸ hfirst

theorem removeHoldings_stays (a : Account) (value : Int) (total : Cleared) (L : Ledger) :
    Stays L (L.removeHoldings a value total) := by
  have hset : ∀ L : Ledger, Stays L (if 0 < total.freezone ∨ 0 < total.sbd then
      L.setAccount nullAccount (emptied a) else L) := by
    intro L
    split
    · exact ⟨⟨rfl, rfl, rfl⟩, rfl, (Table.keys_set _ _ _).ge, rfl, le_rfl⟩
    · exact Stays.refl L
  refine Stays.trans ?_ (hset _)
  split_ifs <;> exact ⟨⟨rfl, rfl, rfl⟩, rfl, subset_rfl, rfl, le_rfl⟩

theorem clear_stays (h : L.clearNullAccountBalance = .ok L') : Stays L L' :=
  clear_invariant h (Stays.refl L) (fun a value total => removeHoldings_stays a value total L)
    fun _ _ _ hs h => hs.trans (adjustSupply_moves h).stays

end Freezone.Chain.Funds.Ledger
