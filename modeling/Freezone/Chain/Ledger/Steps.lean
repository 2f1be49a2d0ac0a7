import Freezone.Chain.Ledger.EscrowSteps

/-!
# The steps of the chain

Most steps conserve whatever the ledger was. The others are the payouts of rewards,
the processing of funds and power-downs, the clearing of the null account, the
hardforks and the steps of escrows.
-/

namespace Freezone.Chain.Funds

/-- The steps on escrows. -/
def LedgerStep.IsEscrow : LedgerStep → Prop
  | .escrowTransfer _ | .escrowApprove _ | .escrowDispute _ | .escrowRelease _
  | .expireEscrowRatification => True
  | _ => False

/-- The steps that conserve under conditions only. -/
def LedgerStep.IsSpecial : LedgerStep → Prop
  | .payCurator _ _ | .payBeneficiary _ _ _ | .payAuthor _ _ _ | .processFunds _
  | .processVestingWithdrawals | .clearNullAccountBalance | .applyHardfork => True
  | _ => False

namespace Ledger

variable {L L' : Ledger}

/-- Every step apart from the escrows and the special ones conserves the books. -/
theorem apply_conserves {step : LedgerStep} (h : L.apply step = .ok L') (he : ¬ step.IsEscrow)
    (hs : ¬ step.IsSpecial) : Conserves L L' := by
  cases step with
  | accountCreate => exact accountCreate_conserves h
  | claimAccount => exact claimAccount_conserves h
  | transfer => exact transfer_conserves h
  | transferToVesting => exact transferToVesting_conserves h
  | withdrawVesting => exact withdrawVesting_conserves h
  | setWithdrawVestingRoute => exact setWithdrawVestingRoute_conserves h
  | convert => exact convert_conserves h
  | transferToSavings => exact transferToSavings_conserves h
  | transferFromSavings => exact transferFromSavings_conserves h
  | cancelTransferFromSavings => exact cancelTransferFromSavings_conserves h
  | claimRewardBalance => exact claimRewardBalance_conserves h
  | payProposalFee => exact payProposalFee_conserves h
  | limitOrderCreate => exact limitOrderCreate_conserves h
  | limitOrderCreate2 => exact limitOrderCreate2_conserves h
  | limitOrderCancel => exact cancelOrder_conserves h
  | delegate => exact delegate_conserves h
  | advance => exact advance_conserves h
  | setMedian =>
    simp only [apply] at h
    cases h
    exact ⟨⟨⟨fun _ => (add_zero _).symm, fun hL => { hL with }, rfl⟩, ⟨rfl, rfl, rfl⟩⟩,
      ⟨rfl, subset_rfl, rfl, le_rfl⟩⟩
  | setInterestRate =>
    simp only [apply] at h
    cases h
    exact conserves_props L _ rfl rfl (fun _ => rfl) fun b => by cases b <;> rfl
  | updateVirtualSupply => exact updateVirtualSupply_moves h
  | clearExpiredOrders => exact clearExpiredOrders_conserves h
  | processEarlyFunds =>
    simp only [apply, returns] at h
    obtain ⟨-, -, h⟩ := h
    exact processEarlyFunds_conserves h
  | processConversions => exact processConversions_conserves h
  | processSavingsWithdraws => exact processSavingsWithdraws_conserves h
  | payMinedReward => exact payMinedReward_conserves h
  | makePayments => exact makePayments_conserves h
  | escrowTransfer | escrowApprove | escrowDispute | escrowRelease | expireEscrowRatification =>
    exact absurd trivial he
  | clearNullAccountBalance | processFunds | payCurator | payBeneficiary | payAuthor
  | processVestingWithdrawals | applyHardfork => exact absurd trivial hs

/-- Every step apart from the escrows and the hardfork leaves the escrows alone. -/
theorem apply_stays {step : LedgerStep} (h : L.apply step = .ok L') (he : ¬ step.IsEscrow)
    (hstep : step ≠ .applyHardfork) : Stays L L' := by
  by_cases hs : step.IsSpecial
  · cases step with
    | clearNullAccountBalance => exact clear_stays h
    | processFunds =>
      simp only [apply, returns] at h
      obtain ⟨-, -, L1, h1, h⟩ := h
      exact (updateVirtualSupply_moves h1).stays.trans (processFunds_stays h)
    | payCurator => exact payCurator_stays h
    | payBeneficiary => exact payBeneficiary_stays h
    | payAuthor => exact payAuthor_stays h
    | processVestingWithdrawals =>
      exact payInstalments_invariant (P := Stays L)
        (fun _ _ _ hs h => hs.trans (payInstalment_stays h)) (Stays.refl L) h
    | applyHardfork => exact absurd rfl hstep
    | _ => exact absurd hs id
  · exact (apply_conserves h he hs).stays

/-- Only the steps on escrows touch them. -/
theorem apply_kept {step : LedgerStep} (h : L.apply step = .ok L') (he : ¬ step.IsEscrow) :
    Kept L L' := by
  by_cases hstep : step = .applyHardfork
  · subst hstep
    exact (applyHardfork_moves h).toKept
  · exact (apply_stays h he hstep).toKept

end Ledger

end Freezone.Chain.Funds
