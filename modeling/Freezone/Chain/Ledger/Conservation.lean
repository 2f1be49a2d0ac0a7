import Freezone.Chain.Ledger.EscrowHistory

/-!
# Conservation along a run

A ledger is sound if its books agree with their counts, nothing is negative and the
escrows have a record. Each step keeps a sound ledger sound if it is covered: a
reward that is paid as vesting buys a share, a payout from the vesting fund takes no
more than the fund has, and the products that are paid as rewards or counted in the
virtual supply do not take the 64th bit, with which they would come back negative.
So a run of covered steps from the genesis goes through sound ledgers only.
-/

namespace Freezone.Chain.Funds.Ledger

open Protocol Table

variable {L L' : Ledger} {sbdInit : Int}

/-- A reward is zero or buys shares, and their number fits. -/
def Payable (amount : Int) (L : Ledger) : Prop :=
  L.HasHardfork 17 → L.Funded amount ∧ L.Countable amount

/-- The SBD are worth less than `2 ^ 63` units of FREEZONE. -/
def Valued (L : Ledger) : Prop :=
  ∀ median ∈ L.currentMedianHistory, Asset.Fits ⟨L.props.currentSbdSupply, .sbd⟩ median

instance (amount : Int) (L : Ledger) : Decidable (L.Payable amount) :=
  inferInstanceAs (Decidable (L.HasHardfork 17 → L.Funded amount ∧ L.Countable amount))

instance (L : Ledger) : Decidable L.Valued :=
  inferInstanceAs (Decidable (∀ median ∈ L.currentMedianHistory,
    Asset.Fits ⟨L.props.currentSbdSupply, .sbd⟩ median))

/-- What a step needs to conserve, besides a sound ledger. -/
def Covered (step : LedgerStep) (L : Ledger) : Prop :=
  match step with
  | .payCurator _ claim => claim ≤ L.commentFund ∧ L.Payable claim
  | .payBeneficiary account tokens percent =>
    tokens ≤ L.commentFund ∧ L.Payable (L.benefactorVesting account tokens percent) ∧
      (L.HasHardfork 20 → L.Printable (sbdPart tokens percent))
  | .payAuthor _ tokens percent =>
    tokens ≤ L.commentFund ∧ L.Payable (tokens - sbdPart tokens percent) ∧
      (L.HasHardfork 17 → L.Printable (sbdPart tokens percent))
  | .processFunds _ => L.Valued
  | .processVestingWithdrawals => L.Redeemable
  | .clearNullAccountBalance =>
    L.HasHardfork 14 → ∀ a, L.accounts.find? nullAccount = some a → L.Sweepable a
  | _ => True

/-- Every step is covered where it is made. -/
def CoveredRun : List LedgerStep → Ledger → Prop
  | [], _ => True
  | step :: steps, L => L.Covered step ∧ CoveredRun steps (L.afterStep step)

/-- The invariant of covered runs, with the SBD of the genesis. -/
structure Sound (sbdInit : Int) (L : Ledger) : Prop where
  balanced : L.Balanced
  nonneg : L.NonNegative
  recorded : L.Recorded
  init : L.props.initSbdSupply = sbdInit

/-- The books are in balance at the start. -/
theorem sound_genesis (time initSupply sbdInitSupply : Nat) :
    (genesis time initSupply sbdInitSupply).Sound sbdInitSupply where
  balanced b := by
    cases b <;> simp [gap, held, genesis, genesisAccounts, total, empty, Account.entry,
      Properties.entry, Properties.counted, only]
  nonneg := by
    refine ⟨?_, holds_empty _, holds_empty _, holds_empty _, holds_empty _,
      by simp [genesis], le_rfl, le_rfl⟩
    intro name a h
    have hmem := find?_eq_some.mp h
    simp only [genesis, genesisAccounts, List.mem_cons, Prod.mk.injEq, List.not_mem_nil,
      or_false] at hmem
    rcases hmem with ⟨-, rfl⟩ | ⟨-, rfl⟩ | ⟨-, rfl⟩ | ⟨-, rfl⟩ <;> constructor <;> simp
  recorded := recorded_genesis time initSupply sbdInitSupply
  init := rfl

/-- What is held of the liquid currencies, or of any other book, is not negative while the pending
FREEZONE of the rewards is not. -/
theorem held_nonneg (hL : L.NonNegative) (hp : 0 ≤ L.props.pendingRewardedVestingFreezone)
    (b : Book) : 0 ≤ L.held b := by
  have hliquid : ∀ a : Asset Liquid, 0 ≤ a.amount → 0 ≤ liquidEntry a b := by
    intro a ha
    rw [liquidEntry, only]
    split
    · exact ha
    · exact le_rfl
  have honly : ∀ (b' : Book) (d : Int), 0 ≤ d → 0 ≤ only b' d b := by
    intro b' d hd
    rw [only]
    split
    · exact hd
    · exact le_rfl
  have haccounts : 0 ≤ L.accounts.total (·.entry b) :=
    total_nonneg fun k a h => (hL.accounts k a h).entry b
  have hconvert : 0 ≤ L.convertRequests.total (·.entry b) :=
    total_nonneg fun k r h => honly .sbd _ (hL.convertRequests k r h)
  have horders : 0 ≤ L.limitOrders.total (·.entry b) :=
    total_nonneg fun k o h => hliquid _ (hL.limitOrders k o h)
  have hescrows : 0 ≤ L.escrows.total (·.entry b) := by
    refine total_nonneg fun k e h => ?_
    have he := hL.escrows k e h
    exact add_nonneg (add_nonneg (honly _ _ he.freezoneBalance) (honly _ _ he.sbdBalance))
      (hliquid _ he.pendingFee)
  have hsavings : 0 ≤ L.savingsWithdraws.total (·.entry b) :=
    total_nonneg fun k w h => hliquid _ (hL.savingsWithdraws k w h)
  have hfunds : 0 ≤ (L.rewardFunds.map RewardFund.rewardBalance).sum := by
    refine List.sum_nonneg fun x hx => ?_
    obtain ⟨f, hf, rfl⟩ := List.mem_map.mp hx
    exact hL.rewardFunds f hf
  have hprops : 0 ≤ L.props.entry b :=
    honly _ _ (add_nonneg (add_nonneg hL.vestingFund hL.rewardFund) hp)
  have hfund := honly .freezone _ hfunds
  rw [held]
  omega

namespace Sound

variable (hs : L.Sound sbdInit)
include hs

/-- What the properties count is what is held. -/
theorem held_eq (b : Book) : L.held b = L.props.counted b := sub_eq_zero.mp (hs.balanced b)

/-- What accounts alone hold is counted by the properties. -/
theorem accounts_eq {b : Book} (h : b ≠ .freezone ∧ b ≠ .sbd) :
    L.accounts.total (·.entry b) = L.props.counted b := by
  rw [← hs.held_eq, L.held_eq_accounts h]

/-- No count is negative. -/
theorem counted_nonneg (b : Book) : 0 ≤ L.props.counted b := by
  have hpending : 0 ≤ L.props.pendingRewardedVestingFreezone := by
    change 0 ≤ L.props.counted .rewardBacking
    rw [← hs.accounts_eq (by decide)]
    exact total_nonneg fun k a h => (hs.nonneg.accounts k a h).entry .rewardBacking
  rw [← hs.held_eq]
  exact held_nonneg hs.nonneg hpending b

/-- A ledger with the same books and no more negative amounts is sound. -/
theorem of_sameBooks (h : SameBooks L L') (hn : L'.NonNegative) (hr : L'.Recorded) :
    L'.Sound sbdInit :=
  ⟨fun b => (h.gap b).trans (hs.balanced b), hn, hr, h.init.trans hs.init⟩

/-- A step that shifts no book keeps the ledger sound. -/
theorem of_shifts {δ : Book → Int} (h : Shifts δ L L') (hδ : ∀ b, δ b = 0) (hr : L'.Recorded) :
    L'.Sound sbdInit := by
  refine hs.of_sameBooks ⟨fun b => ?_, h.init⟩ (h.nonneg hs.nonneg) hr
  rw [h.gap, hδ, add_zero]

end Sound

/-- The virtual supply that has been brought up to date is no less than the supply. -/
theorem updateVirtualSupply_supply (h : L.updateVirtualSupply = .ok L') (hv : L.Valued) :
    L'.props.currentSupply = L.props.currentSupply ∧
      L.props.currentSupply ≤ L'.props.virtualSupply := by
  unfold updateVirtualSupply at h
  split at h
  · cases h
    exact ⟨rfl, le_rfl⟩
  rename_i median hmedian
  simp only [returns] at h
  obtain ⟨value, hvalue, h⟩ := h
  have hvalue0 := (hv median hmedian).mul_nonneg hvalue
  split at h
  · simp only [returns] at h
    obtain ⟨-, -, -, -, rfl⟩ := h
    exact ⟨rfl, le_add_of_nonneg_right hvalue0⟩
  · cases h
    exact ⟨rfl, le_add_of_nonneg_right hvalue0⟩

/-- A reward that the fund can pay leaves nothing unfunded. -/
theorem unfundedEntry_eq_zero {amount : Int} (h : L.Payable amount) (b : Book) :
    L.unfundedEntry amount b = 0 :=
  if_neg fun hn => hn.2 (h hn.1).1

/-- A covered step keeps a sound ledger sound. -/
theorem Sound.apply (hs : L.Sound sbdInit) {step : LedgerStep} (hc : L.Covered step)
    (h : L.apply step = .ok L') : L'.Sound sbdInit := by
  have hr := hs.recorded.apply h
  have hzero : ∀ b : Book, (fun _ : Book => (0 : Int)) b = 0 := fun _ => rfl
  by_cases hescrow : step.IsEscrow
  · cases step with
    | escrowTransfer o => exact hs.of_shifts (escrowTransfer_spec h).1.toShifts hzero hr
    | escrowApprove o => exact hs.of_shifts (escrowApprove_spec h).1.toShifts hzero hr
    | escrowDispute o => exact hs.of_shifts (escrowDispute_spec h).1.toShifts hzero hr
    | escrowRelease o =>
      obtain ⟨-, e, hadvances, happroved, hshift⟩ := escrowRelease_spec h
      obtain ⟨d, -, hhistory⟩ := hs.recorded.opened _ _ hadvances.1
      exact hs.of_shifts (hshift ((hhistory.fair.2 e rfl).feePaid happroved)) hzero hr
    | expireEscrowRatification => exact hs.of_shifts (expire_drifts h).toShifts hzero hr
    | _ => exact absurd hescrow id
  · by_cases hspecial : step.IsSpecial
    · cases step with
      | payCurator =>
        obtain ⟨hle, hpay⟩ := hc
        exact hs.of_shifts (payCurator_moves h hle fun h17 => (hpay h17).2).toShifts
          (unfundedEntry_eq_zero hpay) hr
      | payBeneficiary =>
        obtain ⟨hle, hpay, hprint⟩ := hc
        exact hs.of_shifts
          (payBeneficiary_moves h hle (fun h17 => (hpay h17).2) hprint).toShifts
          (unfundedEntry_eq_zero hpay) hr
      | payAuthor =>
        obtain ⟨hle, hpay, hprint⟩ := hc
        exact hs.of_shifts (payAuthor_moves h hle (fun h17 => (hpay h17).2) hprint).toShifts
          (unfundedEntry_eq_zero hpay) hr
      | processFunds =>
        simp only [Ledger.apply, returns] at h
        obtain ⟨-, -, L1, h1, h⟩ := h
        have hupdated := updateVirtualSupply_moves h1
        have hvirtual : 0 ≤ L1.props.virtualSupply :=
          (hs.counted_nonneg .freezone).trans (updateVirtualSupply_supply h1 hc).2
        exact hs.of_shifts (hupdated.trans (processFunds_conserves h hvirtual)).toShifts
          (fun _ => add_zero 0) hr
      | processVestingWithdrawals =>
        obtain ⟨hsame, hsolvent⟩ :=
          payInstalments_solvent h ⟨hs.nonneg, hs.balanced .shares, hc⟩
        exact hs.of_sameBooks hsame hsolvent.nonneg hr
      | clearNullAccountBalance =>
        obtain ⟨hsame, hn⟩ := clear_balances h hs.nonneg (hs.balanced .shares) hc
        exact hs.of_sameBooks hsame hn hr
      | applyHardfork =>
        refine hs.of_shifts (applyHardfork_moves h).toShifts (fun b => ?_) hr
        rw [splitEntry]
        split
        · rw [hs.balanced .shares, mul_zero, only_zero]
        · rfl
      | _ => exact absurd hspecial id
    · exact hs.of_shifts (apply_conserves h hescrow hspecial).toShifts hzero hr

/-- A covered step keeps the ledger sound, performed or refused. -/
theorem Sound.afterStep (hs : L.Sound sbdInit) {step : LedgerStep} (hc : L.Covered step) :
    (L.afterStep step).Sound sbdInit := by
  rw [Ledger.afterStep]
  split
  · rename_i L' h
    exact hs.apply hc h
  · exact hs

/-- A covered run keeps a sound ledger sound. -/
theorem Sound.run (hs : L.Sound sbdInit) {steps : List LedgerStep} (hc : L.CoveredRun steps) :
    (L.run steps).Sound sbdInit := by
  induction steps generalizing L with
  | nil => exact hs
  | cons step steps ih => exact ih (hs.afterStep hc.1) hc.2

end Freezone.Chain.Funds.Ledger
