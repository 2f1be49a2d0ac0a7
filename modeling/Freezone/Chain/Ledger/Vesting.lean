import Freezone.Chain.Ledger.Adjustments

/-!
# Vesting shares

Shares are created and redeemed at the price of the vesting fund, rounded down. New
shares are counted as they are created; but an amount that buys no pending share
counts as backing of pending shares and is a liquid reward too. Shares that leave
are worth no more than the fund unless the price is the one of an empty fund.
-/

namespace Freezone.Chain.Funds.Ledger

open Protocol Properties

variable {L L' : Ledger} {name : AccountName}

/-- An amount is zero or buys at least one share at the price of rewards. -/
def Funded (amount : Int) (L : Ledger) : Prop :=
  amount = 0 ∨ L.props.totalVestingFundFreezone + L.props.pendingRewardedVestingFreezone ≤
    amount * (L.props.totalVestingShares + L.props.pendingRewardedVestingShares)

instance (amount : Int) (L : Ledger) : Decidable (L.Funded amount) :=
  inferInstanceAs (Decidable (_ ∨ _))

/-- An amount buys fewer than `2 ^ 63` shares at the price of rewards. -/
def Countable (amount : Int) (L : Ledger) : Prop :=
  amount * (L.props.totalVestingShares + L.props.pendingRewardedVestingShares) <
    2 ^ 63 * (L.props.totalVestingFundFreezone + L.props.pendingRewardedVestingFreezone)

instance (amount : Int) (L : Ledger) : Decidable (L.Countable amount) :=
  inferInstanceAs (Decidable (_ < _))

variable {price : Price Stake} {liquid : Int} {new : Asset Stake} {shares : Int}

/-- The shares that a countable amount buys at the price of rewards. -/
theorem rewardShares_eq (hp : L.rewardVestingSharePrice = .ok price)
    (hm : (⟨liquid, .freezone⟩ : Asset Stake).mul price = .ok new) (hc : L.Countable liquid) :
    0 < L.props.totalVestingFundFreezone + L.props.pendingRewardedVestingFreezone ∧
      new.amount = liquid * (L.props.totalVestingShares + L.props.pendingRewardedVestingShares) /
        (L.props.totalVestingFundFreezone + L.props.pendingRewardedVestingFreezone) := by
  obtain ⟨hb, hq⟩ := Price.make_eq_ok hp
  have hpos := price.quote_pos
  obtain ⟨c, hc', -, rfl⟩ := Asset.mul_eq_ok hm
  have hnonneg := Asset.quotient_nonneg hc'
  obtain ⟨-, ⟨hs, -⟩ | ⟨-, rfl⟩⟩ := Asset.quotient_eq_ok hc'
  · rw [hb] at hs
    cases hs
  · rw [hb, hq] at hnonneg ⊢
    rw [hq] at hpos
    have hlt := Int.ediv_lt_of_lt_mul hpos hc
    dsimp only at hlt hnonneg ⊢
    exact ⟨hpos, Int.bmod_eq_of_le (by omega) (by omega)⟩

/-- A funded amount that buys no share is zero. -/
theorem Funded.eq_zero (h : L.Funded liquid) (hp : L.rewardVestingSharePrice = .ok price)
    (hm : (⟨liquid, .freezone⟩ : Asset Stake).mul price = .ok new) (hc : L.Countable liquid)
    (hz : new.amount = 0) : liquid = 0 := by
  obtain ⟨hpos, hnew⟩ := rewardShares_eq hp hm hc
  rcases h with h | h
  · exact h
  have hlt := Int.lt_ediv_add_one_mul_self
    (liquid * (L.props.totalVestingShares + L.props.pendingRewardedVestingShares)) hpos
  rw [← hnew, hz, zero_add, one_mul] at hlt
  exact absurd h (not_le.mpr hlt)

/-- What creating vesting adds to the books: the amount, and once more as a liquid reward if it is
for rewards and buys no share. -/
def vestingEntry (liquid : Int) (toReward : Bool) (L : Ledger) : Book → Int := fun b =>
  only .freezone liquid b +
    if toReward = true ∧ ¬ L.Funded liquid then
      only .freezone liquid b - only .rewardBacking liquid b
    else 0

/-- Creating vesting moves FREEZONE into the vesting fund, or behind pending shares. -/
theorem createVesting_moves {toReward : Bool} (h : L.createVesting name liquid toReward = .ok L')
    (hc : toReward = true → L.Countable liquid) : Steady (L.vestingEntry liquid toReward) L L' := by
  simp only [createVesting, returns] at h
  obtain ⟨price, hprice, new, hnew, h⟩ := h
  have hliquid : 0 ≤ liquid := Asset.amount_nonneg_of_mul hnew
  cases toReward with
  | true =>
    simp only [if_true, returns] at h hprice
    obtain ⟨L1, h1, rfl⟩ := h
    have hc := hc rfl
    obtain ⟨hfund, hbought⟩ := rewardShares_eq hprice hnew hc
    have hshares : 0 ≤ new.amount := by
      have hpos := price.base_pos
      rw [(Price.make_eq_ok hprice).1] at hpos
      rw [hbought]
      exact Int.ediv_nonneg (mul_nonneg hliquid hpos.le) hfund.le
    refine ((adjustRewardBalance_moves h1 hshares (Or.inl hliquid)).trans
      (moves_props L1 _ (by exact id) (by exact id))).congr fun b => ?_
    by_cases hz : new.amount = 0
    · by_cases hfunded : L.Funded liquid
      · have hl : liquid = 0 := hfunded.eq_zero hprice hnew hc hz
        cases b <;> simp [vestingEntry, rewardEntry, hz, hl, liquidEntry, bookOf,
          entry, counted, only]
      · cases b <;> simp [vestingEntry, hfunded, rewardEntry, hz, liquidEntry, bookOf,
          entry, counted, only]
    · -- an amount that buys a share is funded
      have hone : 1 ≤ new.amount := by omega
      rw [hbought, Int.le_ediv_iff_mul_le hfund, one_mul] at hone
      have hfunded : L.Funded liquid := Or.inr hone
      cases b <;> simp [vestingEntry, hfunded, rewardEntry, hz, entry,
        counted, only]
  | false =>
    simp only [Bool.false_eq_true, if_false, returns] at h
    obtain ⟨L1, h1, rfl⟩ := h
    refine ((adjustVests_moves h1).trans (moves_props L1 _ ?_ (by exact id))).congr fun b => ?_
    · intro hf
      exact add_nonneg hf hliquid
    · cases b <;> simp [vestingEntry, entry, counted, only]

theorem createVesting_stays {toReward : Bool}
    (h : L.createVesting name liquid toReward = .ok L') : Stays L L' := by
  cases toReward with
  | true =>
    simp only [createVesting, if_true, returns] at h
    obtain ⟨price, -, new, -, L1, h1, rfl⟩ := h
    exact (adjustRewardBalance_stays h1).trans ⟨⟨rfl, rfl, rfl⟩, rfl, subset_rfl, rfl, le_rfl⟩
  | false => exact (createVesting_moves h (absurd · Bool.false_ne_true)).stays

/-- A part of the shares is worth that part of the fund, and all of it only if it is all. -/
theorem part_le {total fund : Int} (htotal : 0 < total) (hfund : 0 < fund) (h : shares ≤ total) :
    shares * fund / total ≤ fund ∧ (0 < fund - shares * fund / total ∨ shares = total) := by
  have hle : shares * fund / total ≤ fund := by
    calc shares * fund / total
        ≤ total * fund / total :=
          Int.ediv_le_ediv htotal (mul_le_mul_of_nonneg_right h hfund.le)
      _ = fund := Int.mul_ediv_cancel_left fund htotal.ne'
  refine ⟨hle, ?_⟩
  rcases h.lt_or_eq with hlt | heq
  · left
    have hmul : shares * fund < fund * total := by
      rw [mul_comm fund]
      exact mul_lt_mul_of_pos_right hlt hfund
    have := Int.ediv_lt_of_lt_mul htotal hmul
    omega
  · exact .inr heq

/-- The value of shares is their part of the fund, or that at the price of an empty fund. -/
theorem vestingValue_eq_ok {value : Int} (h : L.vestingValue shares = .ok value) : 0 ≤ shares ∧
      ((0 < L.props.totalVestingShares ∧ 0 < L.props.totalVestingFundFreezone ∧
          value = shares * L.props.totalVestingFundFreezone / L.props.totalVestingShares) ∨
        ((L.props.totalVestingFundFreezone = 0 ∨ L.props.totalVestingShares = 0) ∧
          value = shares * 1000 / 1000000)) := by
  simp only [vestingValue, vestingSharePrice, returns] at h
  obtain ⟨price, hp, v, hv, rfl⟩ := h
  have hbase := price.base_pos
  have hquote := price.quote_pos
  obtain ⟨hs, hv⟩ := Asset.quotient_eq_ok hv
  refine ⟨hs, ?_⟩
  split_ifs at hp with hempty
  · obtain ⟨hb, hq⟩ := Price.make_eq_ok hp
    rw [hb, hq] at hv
    obtain ⟨hsym, -⟩ | ⟨-, rfl⟩ := hv
    · cases hsym
    · exact .inr ⟨hempty, rfl⟩
  · obtain ⟨hb, hq⟩ := Price.make_eq_ok hp
    rw [hb, hq] at hv
    rw [hb] at hbase
    rw [hq] at hquote
    obtain ⟨-, rfl⟩ | ⟨hsym, -⟩ := hv
    · exact .inl ⟨hbase, hquote, rfl⟩
    · cases hsym

/-- There is a price for shares, or fewer of them than the price of an empty fund values. -/
def Redeemable (L : Ledger) : Prop :=
  0 < L.props.totalVestingFundFreezone ∨ L.props.totalVestingShares < 1000

instance (L : Ledger) : Decidable L.Redeemable := inferInstanceAs (Decidable (_ ∨ _))

/-- Shares are worth at most the fund unless many of them have the price of an empty fund. -/
theorem vestingValue_le_fund {value : Int} (h : L.vestingValue shares = .ok value)
    (hfund : 0 ≤ L.props.totalVestingFundFreezone)
    (hr : 0 < L.props.totalVestingFundFreezone ∨ shares < 1000)
    (hle : shares ≤ L.props.totalVestingShares) :
    0 ≤ value ∧ value ≤ L.props.totalVestingFundFreezone := by
  obtain ⟨hs, ⟨hV, hC, rfl⟩ | ⟨hempty, rfl⟩⟩ := vestingValue_eq_ok h
  · exact ⟨Int.ediv_nonneg (mul_nonneg hs hC.le) hV.le, (part_le hV hC hle).1⟩
  · -- the fund is empty, or there are no shares
    rcases hempty with hC | hV
    · omega
    · omega

/-- Redeemable shares stay redeemable. -/
theorem vestingValue_le {value : Int} (h : L.vestingValue shares = .ok value)
    (hfund : 0 ≤ L.props.totalVestingFundFreezone) (hr : L.Redeemable)
    (hle : shares ≤ L.props.totalVestingShares) :
    0 ≤ value ∧ value ≤ L.props.totalVestingFundFreezone ∧
      (L.leaveVesting shares value).Redeemable := by
  simp only [Redeemable, leaveVesting] at hr ⊢
  obtain ⟨hv0, hv⟩ := vestingValue_le_fund h hfund (hr.imp_right hle.trans_lt) hle
  refine ⟨hv0, hv, ?_⟩
  obtain ⟨-, ⟨hV, hC, rfl⟩ | ⟨hempty, rfl⟩⟩ := vestingValue_eq_ok h
  · rcases (part_le hV hC hle).2 with hpos | rfl
    · exact .inl hpos
    · exact .inr (by omega)
  · omega

/-- There is a price as long as nothing is negative, and it prices both currencies. -/
theorem exists_vestingSharePrice (hfund : 0 ≤ L.props.totalVestingFundFreezone)
    (hV : 0 ≤ L.props.totalVestingShares) :
    ∃ p, L.vestingSharePrice = .ok p ∧ ∀ s, s = p.base.symbol ∨ s = p.quote.symbol := by
  unfold vestingSharePrice
  split_ifs with hempty
  · refine ⟨_, dif_pos (by decide), fun s => ?_⟩
    cases s <;> simp
  · have hpos : 0 < L.props.totalVestingShares ∧ 0 < L.props.totalVestingFundFreezone := by omega
    refine ⟨_, dif_pos ⟨hpos.1, hpos.2, nofun⟩, fun s => ?_⟩
    cases s <;> simp

/-- Shares have a value where no total is negative. -/
theorem exists_vestingValue (hs : 0 ≤ shares)
    (hfund : 0 ≤ L.props.totalVestingFundFreezone) (hV : 0 ≤ L.props.totalVestingShares) :
    ∃ value, L.vestingValue shares = .ok value := by
  obtain ⟨p, hp, hsymbol⟩ := exists_vestingSharePrice hfund hV
  obtain ⟨v, hv⟩ := Asset.exists_quotient (a := ⟨shares, Stake.vests⟩) hs (hsymbol .vests)
  refine ⟨v.amount, ?_⟩
  simp only [vestingValue, returns]
  exact ⟨p, hp, v, hv, rfl⟩

end Freezone.Chain.Funds.Ledger
