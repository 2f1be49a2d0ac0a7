import Freezone.Chain.Ledger.Books

/-!
# How adjustments shift the books

One lemma for each function of the database through which balances and supplies
change. Interest is counted as it is paid, and SBD as they are created, so that
neither shifts a book. None of these functions touches an object other than
accounts, or the vesting totals.
-/

namespace Freezone.Chain.Funds

open Protocol Account SbdHolding

@[simp] theorem only_self (b : Book) (d : Int) : only b d b = d := if_pos rfl

theorem only_add (b : Book) (d d' : Int) (b' : Book) :
    only b d b' + only b d' b' = only b (d + d') b' := by
  unfold only
  split <;> simp

theorem only_zero (b b' : Book) : only b 0 b' = 0 := by
  unfold only
  split <;> rfl

/-- Interest adds to the balance what it reports as paid. -/
theorem SbdHolding.accrue_balance (now rate : Nat) (h : SbdHolding) :
    (h.accrue now rate).1.balance = h.balance + (h.accrue now rate).2.getD 0 := by
  unfold accrue
  split
  · exact (add_zero _).symm
  · dsimp only
    split
    · rfl
    · exact (add_zero _).symm

/-- The interest is not negative. -/
theorem SbdHolding.accrue_interest_nonneg (now rate : Nat) (h : SbdHolding) :
    0 ≤ (h.accrue now rate).2.getD 0 := by
  unfold accrue
  split
  · exact le_rfl
  dsimp only
  split_ifs with hdue
  · exact Int.ediv_nonneg (mul_nonneg (Int.ediv_nonneg hdue.1.le (by decide))
      (Int.natCast_nonneg _)) (by decide)
  · exact le_rfl

theorem SbdHolding.accrue_seconds_nonneg (now rate : Nat) {h : SbdHolding} (hb : 0 ≤ h.balance)
    (hs : 0 ≤ h.seconds) : 0 ≤ (h.accrue now rate).1.seconds := by
  unfold accrue
  split
  · exact hs
  · dsimp only
    split
    · exact le_rfl
    · exact add_nonneg hs (mul_nonneg hb (Int.natCast_nonneg _))

/-- The pending rewards of an account in a currency. -/
def Account.getRewardBalance (a : Account) : Liquid → Int
  | .freezone => a.rewardFreezoneBalance
  | .sbd => a.rewardSbdBalance

namespace Ledger

variable {L L' L'' : Ledger} {name : AccountName}

variable {a : Account} {paid : Option Int} {delta value : Asset Liquid} {toReward : Bool}
  {amount : Int}

theorem getAccount_eq_ok :
    L.getAccount name = .ok a ↔ L.accounts.find? name = some a := orThrow_eq_ok

/-- Paid interest adds to the supply. -/
theorem payInterest_eq (h : L.payInterest paid = .ok L') :
    ∃ value, L' = { L with props := { L.props with
      currentSbdSupply := L.props.currentSbdSupply + paid.getD 0
      virtualSupply := value } } := by
  cases paid with
  | none =>
    cases h
    exact ⟨L.props.virtualSupply, by simp⟩
  | some interest =>
    simp only [payInterest, returns] at h
    obtain ⟨value, -, rfl⟩ := h
    exact ⟨_, rfl⟩

/-- Interest is paid out of new supply. -/
theorem payInterest_moves (h : L.payInterest paid = .ok L') :
    Steady (only .sbd (-paid.getD 0)) L L' ∧ L'.accounts = L.accounts ∧
      (L'.NonNegative → L.NonNegative) := by
  obtain ⟨value, rfl⟩ := payInterest_eq h
  refine ⟨(moves_props L _ (by exact id) (by exact id)).congr fun b => ?_, rfl,
    fun hL => { hL with }⟩
  cases b <;> simp [Properties.entry, Properties.counted, only]

/-- An adjusted balance. -/
theorem adjustBalance_moves (h : L.adjustBalance name delta = .ok L') :
    Steady (liquidEntry delta) L L' := by
  obtain ⟨d, s⟩ := delta
  simp only [adjustBalance, returns, getAccount_eq_ok] at h
  obtain ⟨a, ha, -, hd, h⟩ := h
  cases s with
  | freezone =>
    simp only [returns] at h
    obtain ⟨-, -, rfl⟩ := h
    refine (moves_setAccount ha fun _ hn => ?_).congr fun b => ?_
    · have := hn.balance
      simp only [getBalance] at hd
      exact { hn with balance := by dsimp only; omega }
    · cases b <;> simp [entry, liquidEntry, bookOf, only]
  | sbd =>
    simp only [returns] at h
    obtain ⟨L1, h1, -, -, rfl⟩ := h
    obtain ⟨hpaid, hacc, -⟩ := payInterest_moves h1
    have hbal := accrue_balance L.props.time L.props.sbdInterestRate a.sbd
    refine (hpaid.trans (moves_setAccount (hacc ▸ ha) fun _ hn => ?_)).congr fun b => ?_
    · have hi := a.sbd.accrue_interest_nonneg L.props.time L.props.sbdInterestRate
      have := hn.sbd
      simp only [getBalance] at hd
      exact { hn with
        sbd := by
          dsimp only [add]
          omega
        seconds := accrue_seconds_nonneg _ _ hn.sbd hn.seconds }
    · cases b <;> simp [entry, liquidEntry, bookOf, only, add, hbal]
      ring

/-- An adjusted balance of vesting shares. -/
theorem adjustVests_moves {delta : Int} (h : L.adjustVests name delta = .ok L') :
    Steady (only .shares delta) L L' := by
  simp only [adjustVests, returns, getAccount_eq_ok] at h
  obtain ⟨a, ha, -, hd, -, -, rfl⟩ := h
  refine (moves_setAccount ha fun _ hn => ?_).congr fun b => ?_
  · exact { hn with vestingShares := add_nonneg hn.vestingShares hd }
  · cases b <;> simp [entry, only]

/-- An adjusted savings balance, which the caller has checked. -/
theorem adjustSavingsBalance_moves (h : L.adjustSavingsBalance name delta = .ok L')
    (hd : L.NonNegative → ∀ a, L.accounts.find? name = some a →
      0 ≤ a.getSavingsBalance delta.symbol + delta.amount) :
    Steady (liquidEntry delta) L L' := by
  obtain ⟨d, s⟩ := delta
  simp only [adjustSavingsBalance, returns, getAccount_eq_ok] at h
  obtain ⟨a, ha, h⟩ := h
  cases s with
  | freezone =>
    simp only [returns] at h
    obtain ⟨-, -, rfl⟩ := h
    refine (moves_setAccount ha fun hL hn => ?_).congr fun b => ?_
    · exact { hn with savingsBalance := hd hL a ha }
    · cases b <;> simp [entry, liquidEntry, bookOf, only]
  | sbd =>
    simp only [returns] at h
    obtain ⟨L1, h1, -, -, rfl⟩ := h
    obtain ⟨hpaid, hacc, hback⟩ := payInterest_moves h1
    have hbal := accrue_balance L.props.time L.props.sbdInterestRate a.savingsSbd
    refine (hpaid.trans (moves_setAccount (hacc ▸ ha) fun hL hn => ?_)).congr fun b => ?_
    · have hi := a.savingsSbd.accrue_interest_nonneg L.props.time L.props.sbdInterestRate
      have hcover : 0 ≤ a.savingsSbd.balance + d := hd (hback hL) a ha
      exact { hn with
        savingsSbd := by
          dsimp only [add]
          omega
        savingsSeconds := accrue_seconds_nonneg _ _ hn.savingsSbd hn.savingsSeconds }
    · cases b <;> simp [entry, liquidEntry, bookOf, only, add, hbal]
      ring

/-- What a reward adds to the books. -/
def rewardEntry (value : Asset Liquid) (shares : Int) : Book → Int := fun b =>
  if shares = 0 then liquidEntry value b
  else only .rewardBacking value.amount b + only .rewardShares shares b

/-- An adjusted reward balance, which the caller has checked. -/
theorem adjustRewardBalance_moves {shares : Int}
    (h : L.adjustRewardBalance name value shares = .ok L') (hs : 0 ≤ shares)
    (hv : 0 ≤ value.amount ∨ shares = 0 ∧ ∀ a, L.accounts.find? name = some a →
      0 ≤ a.getRewardBalance value.symbol + value.amount) :
    Steady (rewardEntry value shares) L L' := by
  obtain ⟨d, s⟩ := value
  simp only [adjustRewardBalance, returns, getAccount_eq_ok] at h
  obtain ⟨a, ha, h⟩ := h
  have hcover : 0 ≤ d ∨ shares = 0 ∧ 0 ≤ a.getRewardBalance s + d := by
    rcases hv with hv | ⟨hz, hv⟩
    · exact .inl hv
    · exact .inr ⟨hz, hv a ha⟩
  cases s with
  | freezone =>
    dsimp only at h
    split_ifs at h with hz
    · simp only [returns] at h
      obtain ⟨-, -, rfl⟩ := h
      refine (moves_setAccount ha fun _ hn => ?_).congr fun b => ?_
      · have := hn.rewardFreezoneBalance
        simp only [getRewardBalance] at hcover
        exact { hn with rewardFreezoneBalance := by dsimp only; omega }
      · cases b <;> simp [rewardEntry, hz, entry, liquidEntry, bookOf, only]
    · simp only [returns] at h
      obtain ⟨-, -, rfl⟩ := h
      refine (moves_setAccount ha fun _ hn => ?_).congr fun b => ?_
      · have := hn.rewardVestingBalance
        have := hn.rewardVestingFreezone
        exact { hn with
          rewardVestingBalance := by dsimp only; omega
          rewardVestingFreezone := by dsimp only; omega }
      · cases b <;> simp [rewardEntry, hz, entry, only]
  | sbd =>
    simp only [returns] at h
    obtain ⟨-, hz, -, -, rfl⟩ := h
    refine (moves_setAccount ha fun _ hn => ?_).congr fun b => ?_
    · have := hn.rewardSbdBalance
      simp only [getRewardBalance] at hcover
      exact { hn with rewardSbdBalance := by dsimp only; omega }
    · cases b <;> simp [rewardEntry, hz, entry, liquidEntry, bookOf, only]

theorem adjustRewardBalance_stays {shares : Int}
    (h : L.adjustRewardBalance name value shares = .ok L') : Stays L L' := by
  simp only [adjustRewardBalance, returns] at h
  obtain ⟨a, -, h⟩ := h
  split at h
  · split_ifs at h
    · simp only [returns] at h
      obtain ⟨-, -, rfl⟩ := h
      exact stays_setAccount L name _
    · simp only [returns] at h
      obtain ⟨-, -, rfl⟩ := h
      exact stays_setAccount L name _
  · simp only [returns] at h
    obtain ⟨-, -, -, -, rfl⟩ := h
    exact stays_setAccount L name _

/-- What is added to a supply is held nowhere. -/
theorem adjustSupply_moves {adjustVesting : Bool}
    (h : L.adjustSupply delta adjustVesting = .ok L') :
    Steady (fun b => -liquidEntry delta b) L L' := by
  obtain ⟨d, s⟩ := delta
  cases s with
  | freezone =>
    simp only [adjustSupply, returns] at h
    obtain ⟨-, -, rfl⟩ := h
    refine (moves_props L _ ?_ (by exact id)).congr fun b => ?_
    · intro hf
      dsimp only
      split <;> omega
    · cases b <;> simp [Properties.entry, Properties.counted, liquidEntry, bookOf, only]
      ring
  | sbd =>
    simp only [adjustSupply, returns] at h
    obtain ⟨value, -, -, -, rfl⟩ := h
    refine (moves_props L _ (by exact id) (by exact id)).congr fun b => ?_
    cases b <;> simp [Properties.entry, Properties.counted, liquidEntry, bookOf, only]

/-- The virtual supply is in no book. -/
theorem updateVirtualSupply_moves (h : L.updateVirtualSupply = .ok L') :
    Steady (fun _ => 0) L L' := by
  have hprops : ∀ (L : Ledger) (v : Int) (r : Percent), Steady (fun _ => 0) L
      { L with props := { L.props with virtualSupply := v, sbdPrintRate := r } } := by
    intro L v r
    refine (moves_props L _ (by exact id) (by exact id)).congr fun b => ?_
    cases b <;> simp [Properties.entry, Properties.counted, only]
  unfold updateVirtualSupply at h
  split at h
  · cases h
    exact hprops L _ _
  simp only [returns] at h
  obtain ⟨value, -, h⟩ := h
  split at h
  · simp only [returns] at h
    obtain ⟨-, -, -, -, rfl⟩ := h
    exact hprops L _ _
  · cases h
    exact hprops L _ _

/-- The two payments of `create_sbd`. -/
theorem paySbd_moves {sbd freezone : Asset Liquid}
    (h : L.paySbd name sbd freezone toReward = .ok L') (hs : toReward = true → 0 ≤ sbd.amount)
    (hf : 0 ≤ freezone.amount) :
    Steady (fun b => liquidEntry sbd b + liquidEntry freezone b) L L' := by
  unfold paySbd at h
  split at h
  · rename_i hreward
    simp only [returns] at h
    obtain ⟨L1, h1, h2⟩ := h
    refine ((adjustRewardBalance_moves h1 le_rfl (Or.inl (hs hreward))).trans
      (adjustRewardBalance_moves h2 le_rfl (Or.inl hf))).congr fun b => ?_
    simp only [rewardEntry, if_true]
  · simp only [returns] at h
    obtain ⟨L1, h1, h2⟩ := h
    exact (adjustBalance_moves h1).trans (adjustBalance_moves h2)

/-- The printed part of an amount is a part of it. -/
theorem printed_le (r : Percent) {x : Int} (hx : 0 ≤ x) : r.1 * x / hundredPercent ≤ x := by
  have hr : (r.1 : Int) ≤ hundredPercent := by exact_mod_cast r.2
  calc (r.1 : Int) * x / hundredPercent
      ≤ hundredPercent * x / hundredPercent :=
        Int.ediv_le_ediv (by decide) (mul_le_mul_of_nonneg_right hr hx)
    _ = x := Int.mul_ediv_cancel_left x (by decide)

theorem paySbd_stays {sbd freezone : Asset Liquid}
    (h : L.paySbd name sbd freezone toReward = .ok L') : Stays L L' := by
  unfold paySbd at h
  split at h
  · simp only [returns] at h
    obtain ⟨L1, h1, h2⟩ := h
    exact (adjustRewardBalance_stays h1).trans (adjustRewardBalance_stays h2)
  · simp only [returns] at h
    obtain ⟨L1, h1, h2⟩ := h
    exact (adjustBalance_moves h1).stays.trans (adjustBalance_moves h2).stays

/-- The printed part of an amount is worth less than `2 ^ 63` units of SBD. -/
def Printable (freezone : Int) (L : Ledger) : Prop :=
  ∀ median ∈ L.currentMedianHistory,
    Asset.Fits ⟨L.props.sbdPrintRate.1 * freezone / hundredPercent, .freezone⟩ median

/-- What `create_sbd` pays out, in either currency, comes from outside the books. -/
theorem createSbd_moves {freezone : Int}
    (h : L.createSbd name freezone toReward = .ok L') (hf : 0 ≤ freezone)
    (hp : toReward = true → L.Printable freezone) :
    Steady (only .freezone freezone) L L' := by
  unfold createSbd at h
  split_ifs at h with hz
  · rw [Except.ok.injEq] at h
    subst h hz
    exact (Steady.refl L).congr fun b => (only_zero .freezone b).symm
  · split at h
    · exact adjustBalance_moves h
    rename_i median hmedian
    simp only [returns] at h
    obtain ⟨sbd, hsbd, L1, h1, L2, h2, h3⟩ := h
    have hle := printed_le L.props.sbdPrintRate hf
    have hsym : sbd.symbol = .sbd := by
      have hne := Asset.mul_symbol_ne hsbd
      cases hs : sbd.symbol with
      | freezone => exact absurd hs hne
      | sbd => rfl
    have hnonneg : toReward = true → 0 ≤ sbd.amount := fun hr =>
      (hp hr median hmedian).mul_nonneg hsbd
    refine (((paySbd_moves h1 hnonneg (by dsimp only; omega)).trans
      (adjustSupply_moves h2)).trans (adjustSupply_moves h3)).congr fun b => ?_
    cases b <;> simp [liquidEntry, hsym, bookOf, only]

theorem createSbd_stays {freezone : Int} (h : L.createSbd name freezone toReward = .ok L') :
    Stays L L' := by
  unfold createSbd at h
  split at h
  · exact Stays.of_ok h
  split at h
  · exact (adjustBalance_moves h).stays
  · simp only [returns] at h
    obtain ⟨sbd, -, L1, h1, L2, h2, h3⟩ := h
    exact ((paySbd_stays h1).trans (adjustSupply_moves h2).stays).trans
      (adjustSupply_moves h3).stays

/-- Only accounts and properties differ, and the vesting totals do not. -/
structure Frame (L L' : Ledger) : Prop where
  objects : L' = { L with accounts := L'.accounts, props := L'.props }
  fund : L'.props.totalVestingFundFreezone = L.props.totalVestingFundFreezone
  shares : L'.props.totalVestingShares = L.props.totalVestingShares
  pendingShares : L'.props.pendingRewardedVestingShares = L.props.pendingRewardedVestingShares
  pendingFreezone :
    L'.props.pendingRewardedVestingFreezone = L.props.pendingRewardedVestingFreezone

theorem Frame.refl (L : Ledger) : Frame L L := ⟨rfl, rfl, rfl, rfl, rfl⟩

theorem Frame.trans (h : Frame L L') (h' : Frame L' L'') : Frame L L'' where
  objects := by
    rw [h'.objects, h.objects]
  fund := h'.fund.trans h.fund
  shares := h'.shares.trans h.shares
  pendingShares := h'.pendingShares.trans h.pendingShares
  pendingFreezone := h'.pendingFreezone.trans h.pendingFreezone

theorem Frame.hasHardfork (h : Frame L L') {n : Nat} : L'.HasHardfork n ↔ L.HasHardfork n := by
  rw [h.objects]
  rfl

theorem Frame.convertRequests (h : Frame L L') : L'.convertRequests = L.convertRequests := by
  rw [h.objects]

theorem Frame.limitOrders (h : Frame L L') : L'.limitOrders = L.limitOrders := by
  rw [h.objects]

theorem Frame.savingsWithdraws (h : Frame L L') : L'.savingsWithdraws = L.savingsWithdraws := by
  rw [h.objects]

theorem setAccount_frame (L : Ledger) (name : AccountName) (a : Account) :
    Frame L (L.setAccount name a) := ⟨rfl, rfl, rfl, rfl, rfl⟩

/-- The account is written after interest has been paid. -/
theorem setAccount_payInterest_frame (h : L.payInterest paid = .ok L') :
    Frame L (L'.setAccount name a) := by
  obtain ⟨value, rfl⟩ := payInterest_eq h
  exact ⟨rfl, rfl, rfl, rfl, rfl⟩

/-- The account keeps its pending shares and their backing, and more does not make less. -/
theorem adjustBalance_eq (h : L.adjustBalance name delta = .ok L') :
    ∃ a a' paid L1, L.accounts.find? name = some a ∧ L.payInterest paid = .ok L1 ∧
      L' = L1.setAccount name a' ∧ a'.rewardVestingBalance = a.rewardVestingBalance ∧
      a'.rewardVestingFreezone = a.rewardVestingFreezone ∧
      (0 ≤ delta.amount → a.balance ≤ a'.balance) := by
  obtain ⟨d, s⟩ := delta
  simp only [adjustBalance, returns, getAccount_eq_ok] at h
  obtain ⟨a, ha, -, -, h⟩ := h
  cases s with
  | freezone =>
    simp only [returns] at h
    obtain ⟨-, -, rfl⟩ := h
    exact ⟨a, _, none, L, ha, rfl, rfl, rfl, rfl, fun hd => le_add_of_nonneg_right hd⟩
  | sbd =>
    simp only [returns] at h
    obtain ⟨L1, h1, -, -, rfl⟩ := h
    exact ⟨a, _, _, L1, ha, h1, rfl, rfl, rfl, fun _ => le_rfl⟩

theorem adjustBalance_frame (h : L.adjustBalance name delta = .ok L') : Frame L L' := by
  obtain ⟨a, a', paid, L1, -, h1, rfl, -⟩ := adjustBalance_eq h
  exact setAccount_payInterest_frame h1

/-- Pending shares and their backing stay, and more does not make less. -/
theorem adjustBalance_find {k : AccountName}
    (h : L.adjustBalance name delta = .ok L') (ha : L.accounts.find? k = some a) :
    ∃ a', L'.accounts.find? k = some a' ∧ a'.rewardVestingBalance = a.rewardVestingBalance ∧
      a'.rewardVestingFreezone = a.rewardVestingFreezone ∧
      (0 ≤ delta.amount → a.balance ≤ a'.balance) := by
  obtain ⟨a0, a', paid, L1, ha0, h1, rfl, hkeep⟩ := adjustBalance_eq h
  obtain ⟨value, rfl⟩ := payInterest_eq h1
  by_cases hk : k = name
  · subst hk
    obtain rfl : a = a0 := Option.some.inj (ha.symm.trans ha0)
    exact ⟨a', Table.find?_set_self ha, hkeep⟩
  · exact ⟨a, (Table.find?_set_of_ne hk).trans ha, rfl, rfl, fun _ => le_rfl⟩

theorem adjustSavingsBalance_frame
    (h : L.adjustSavingsBalance name delta = .ok L') : Frame L L' := by
  obtain ⟨d, s⟩ := delta
  simp only [adjustSavingsBalance, returns] at h
  obtain ⟨a, -, h⟩ := h
  cases s with
  | freezone =>
    simp only [returns] at h
    obtain ⟨-, -, rfl⟩ := h
    exact setAccount_frame L _ _
  | sbd =>
    simp only [returns] at h
    obtain ⟨L1, h1, -, -, rfl⟩ := h
    exact setAccount_payInterest_frame h1

theorem adjustRewardBalance_frame {shares : Int}
    (h : L.adjustRewardBalance name value shares = .ok L') : Frame L L' := by
  obtain ⟨d, s⟩ := value
  simp only [adjustRewardBalance, returns] at h
  obtain ⟨a, -, h⟩ := h
  cases s with
  | freezone =>
    dsimp only at h
    split at h
    · simp only [returns] at h
      obtain ⟨-, -, rfl⟩ := h
      exact setAccount_frame L _ _
    · simp only [returns] at h
      obtain ⟨-, -, rfl⟩ := h
      exact setAccount_frame L _ _
  | sbd =>
    simp only [returns] at h
    obtain ⟨-, -, -, -, rfl⟩ := h
    exact setAccount_frame L _ _

/-- An account after an adjustment of its liquid rewards. -/
theorem adjustRewardBalance_find
    (h : L.adjustRewardBalance name value 0 = .ok L') (ha : L.accounts.find? name = some a) :
    ∃ a', L'.accounts.find? name = some a' ∧ a'.rewardVestingBalance = a.rewardVestingBalance ∧
      a'.rewardVestingFreezone = a.rewardVestingFreezone ∧
      a'.rewardSbdBalance = a.rewardSbdBalance + value.part .sbd := by
  obtain ⟨d, s⟩ := value
  simp only [adjustRewardBalance, returns, getAccount_eq_ok] at h
  obtain ⟨a0, ha0, h⟩ := h
  obtain rfl : a = a0 := Option.some.inj (ha.symm.trans ha0)
  cases s with
  | freezone =>
    simp only [if_true, returns] at h
    obtain ⟨-, -, rfl⟩ := h
    exact ⟨_, Table.find?_set_self ha, rfl, rfl, (add_zero _).symm⟩
  | sbd =>
    simp only [returns] at h
    obtain ⟨-, -, -, -, rfl⟩ := h
    exact ⟨_, Table.find?_set_self ha, rfl, rfl, rfl⟩

theorem adjustSupply_frame (h : L.adjustSupply delta false = .ok L') : Frame L L' := by
  obtain ⟨d, s⟩ := delta
  cases s with
  | freezone =>
    simp only [adjustSupply, returns] at h
    obtain ⟨-, -, rfl⟩ := h
    exact ⟨rfl, by simp, rfl, rfl, rfl⟩
  | sbd =>
    simp only [adjustSupply, returns] at h
    obtain ⟨value, -, -, -, rfl⟩ := h
    exact ⟨rfl, rfl, rfl, rfl, rfl⟩

theorem paySbd_frame {sbd freezone : Asset Liquid}
    (h : L.paySbd name sbd freezone toReward = .ok L') : Frame L L' := by
  unfold paySbd at h
  split at h
  · simp only [returns] at h
    obtain ⟨L1, h1, h2⟩ := h
    exact (adjustRewardBalance_frame h1).trans (adjustRewardBalance_frame h2)
  · simp only [returns] at h
    obtain ⟨L1, h1, h2⟩ := h
    exact (adjustBalance_frame h1).trans (adjustBalance_frame h2)

theorem createSbd_frame {freezone : Int}
    (h : L.createSbd name freezone toReward = .ok L') : Frame L L' := by
  unfold createSbd at h
  split at h
  · cases h
    exact Frame.refl L
  split at h
  · exact adjustBalance_frame h
  · simp only [returns] at h
    obtain ⟨sbd, -, L1, h1, L2, h2, h3⟩ := h
    exact ((paySbd_frame h1).trans (adjustSupply_frame h2)).trans (adjustSupply_frame h3)

/-! ### When SBD can be paid -/

/-- A price of the two liquid currencies values each of them. -/
theorem exists_medianValue {x : Asset Liquid} (hm : L.currentMedianHistory.isSome)
    (hx : 0 ≤ x.amount) : ∃ y, L.medianValue x = .ok y := by
  obtain ⟨median, hmedian⟩ := Option.isSome_iff_exists.mp hm
  have hsymbol : x.symbol = median.base.symbol ∨ x.symbol = median.quote.symbol := by
    have hne := median.symbol_ne
    revert hne
    cases x.symbol <;> cases median.base.symbol <;> cases median.quote.symbol <;> decide
  unfold medianValue
  rw [hmedian]
  exact Asset.exists_quotient hx hsymbol

/-- Interest can be paid where there is a price. -/
theorem exists_payInterest (h : 0 ≤ paid.getD 0)
    (hmedian : L.currentMedianHistory.isSome) : ∃ L', L.payInterest paid = .ok L' := by
  cases paid with
  | none => exact ⟨L, rfl⟩
  | some interest =>
    obtain ⟨value, hvalue⟩ := exists_medianValue (x := ⟨interest, .sbd⟩) hmedian h
    simp only [payInterest, returns]
    exact ⟨_, value, hvalue, rfl⟩

/-- An account can be paid SBD, and can pay what it has. -/
theorem exists_adjustBalance_sbd
    (hmedian : L.currentMedianHistory.isSome) (ha : L.accounts.find? name = some a)
    (hamount : 0 ≤ a.sbd.balance + amount) :
    ∃ L', L.adjustBalance name ⟨amount, .sbd⟩ = .ok L' := by
  have hinterest := a.sbd.accrue_interest_nonneg L.props.time L.props.sbdInterestRate
  obtain ⟨L1, h1⟩ := exists_payInterest hinterest hmedian
  have hbalance := accrue_balance L.props.time L.props.sbdInterestRate a.sbd
  simp only [adjustBalance, returns, getAccount_eq_ok, exists_const]
  refine ⟨_, a, ha, ?_, L1, h1, fun _ => ?_, rfl⟩
  · refine .inr ?_
    show -amount ≤ a.sbd.balance
    omega
  · omega

/-- What paying an account in SBD adds, with the interest that was due. -/
theorem adjustBalance_sbd_eq (h : L.adjustBalance name ⟨amount, .sbd⟩ = .ok L') :
    ∃ a L1, L.accounts.find? name = some a ∧
      L.payInterest (a.sbd.accrue L.props.time L.props.sbdInterestRate).2 = .ok L1 ∧
      L' = L1.setAccount name
        { a with sbd := (a.sbd.accrue L.props.time L.props.sbdInterestRate).1.add amount } := by
  simp only [adjustBalance, returns, getAccount_eq_ok, exists_const] at h
  obtain ⟨a, ha, -, L1, h1, -, rfl⟩ := h
  exact ⟨a, L1, ha, h1, rfl⟩

/-- The account has then at least what it was paid more, and the price is the same. -/
theorem adjustBalance_sbd_set
    (h : L.adjustBalance name ⟨amount, .sbd⟩ = .ok L') (ha : L.accounts.find? name = some a) :
    ∃ a', L'.accounts = L.accounts.set name a' ∧ a.sbd.balance + amount ≤ a'.sbd.balance ∧
      L'.currentMedianHistory = L.currentMedianHistory := by
  obtain ⟨b, L1, hb, hinterest, rfl⟩ := adjustBalance_sbd_eq h
  cases ha.symm.trans hb
  have hnonneg := a.sbd.accrue_interest_nonneg L.props.time L.props.sbdInterestRate
  have hbalance := accrue_balance L.props.time L.props.sbdInterestRate a.sbd
  obtain ⟨value, rfl⟩ := payInterest_eq hinterest
  refine ⟨_, rfl, ?_, rfl⟩
  dsimp only [add]
  omega

end Ledger

end Freezone.Chain.Funds
