import Freezone.Chain.Ledger.Steps

/-!
# What no step takes away

An account stays once it has been created, and the reward funds keep their shares of
what a block issues. So the treasury has an account from hardfork 21 on, which looks
it up, and from hardfork 17 on there is one reward fund, with all of the rewards.
-/

namespace Freezone.Chain.Funds.Ledger

open Protocol

variable {L L' : Ledger}

/-- No step but the hardfork removes an account or a fund. -/
theorem apply_grows {step : LedgerStep} (hstep : step ≠ .applyHardfork)
    (h : L.apply step = .ok L') : Grows L L' := by
  by_cases he : step.IsEscrow
  · cases step with
    | escrowTransfer o => exact (escrowTransfer_spec h).1.toGrows
    | escrowApprove o => exact (escrowApprove_spec h).1.toGrows
    | escrowDispute o => exact (escrowDispute_spec h).1.toGrows
    | escrowRelease o => exact (escrowRelease_spec h).1
    | expireEscrowRatification => exact (expire_drifts h).toGrows
    | _ => exact absurd he id
  · exact (apply_stays h he hstep).toGrows

/-- What the hardforks set up: one reward fund with all rewards, and the account of the treasury. -/
structure Furnished (L : Ledger) : Prop where
  noFund : ¬ L.HasHardfork 17 → L.rewardFunds = []
  fund : L.HasHardfork 17 →
    L.rewardFunds.map RewardFund.percentContentRewards = [hundredPercent]
  treasury : L.HasHardfork 21 → treasuryAccount ∈ L.accounts.keys

theorem Grows.hasHardfork (h : Grows L L') {n : Nat} : L'.HasHardfork n ↔ L.HasHardfork n := by
  unfold HasHardfork
  rw [h.hardfork]

/-- What a ledger is furnished with stays while it grows. -/
theorem Furnished.grows (hL : L.Furnished) (h : Grows L L') : L'.Furnished where
  noFund h17 := by
    have hpercents := h.percents
    rw [hL.noFund (h.hasHardfork.not.mp h17)] at hpercents
    exact List.map_eq_nil_iff.mp hpercents
  fund h17 := h.percents.trans (hL.fund (h.hasHardfork.mp h17))
  treasury h21 := h.accounts (hL.treasury (h.hasHardfork.mp h21))

/-- A hardfork keeps the accounts and the time. -/
theorem applyHardfork_keeps (h : L.applyHardfork = .ok L') :
    L.accounts.keys ⊆ L'.accounts.keys ∧ L.props.time ≤ L'.props.time := by
  simp only [Ledger.applyHardfork, returns] at h
  obtain ⟨-, -, h⟩ := h
  split_ifs at h with h1 h17 h21
  · cases h
    exact ⟨(Table.keys_mapWithKey L.accounts fun _ => splitShares 1000000).ge, le_rfl⟩
  · exact Except.ok.inj h ▸ ⟨subset_rfl, le_rfl⟩
  · simp only [returns] at h
    obtain ⟨a, -, rfl⟩ := h
    exact ⟨subset_rfl, le_rfl⟩
  · exact Except.ok.inj h ▸ ⟨subset_rfl, le_rfl⟩

/-- The hardforks furnish the ledger. -/
theorem Furnished.applyHardfork (hL : L.Furnished) (h : L.applyHardfork = .ok L') :
    L'.Furnished := by
  simp only [Ledger.applyHardfork, returns] at h
  obtain ⟨-, -, h⟩ := h
  split_ifs at h with h1 h17 h21
  · cases h
    refine ⟨fun _ => hL.noFund ?_, fun h => ?_, fun h => ?_⟩
    · unfold HasHardfork
      omega
    · exact absurd (show 17 ≤ L.hardfork + 1 from h) (by omega)
    · exact absurd (show 21 ≤ L.hardfork + 1 from h) (by omega)
  · cases h
    have hnone : L.rewardFunds = [] := hL.noFund (by unfold HasHardfork; omega)
    refine ⟨fun h => ?_, fun _ => ?_, fun h => ?_⟩
    · exact absurd (show 17 ≤ L.hardfork + 1 by omega) h
    · simp only [hnone, List.nil_append, List.map_cons, List.map_nil]
    · exact absurd (show 21 ≤ L.hardfork + 1 from h) (by omega)
  · simp only [returns, getAccount_eq_ok] at h
    obtain ⟨a, ha, rfl⟩ := h
    refine ⟨fun h => ?_, fun _ => hL.fund (by unfold HasHardfork; omega), fun _ => ?_⟩
    · exact absurd (show 17 ≤ L.hardfork + 1 by omega) h
    · rw [Table.mem_keys]
      exact Option.isSome_iff_exists.mpr ⟨a, ha⟩
  · cases h
    refine ⟨fun h => hL.noFund fun h' => h (Nat.le_succ_of_le h'), fun h => hL.fund ?_,
      fun h => hL.treasury ?_⟩
    · have h' : 17 ≤ L.hardfork + 1 := h
      unfold HasHardfork
      omega
    · have h' : 21 ≤ L.hardfork + 1 := h
      unfold HasHardfork
      omega

theorem Furnished.step (hL : L.Furnished) (step : LedgerStep) : (L.afterStep step).Furnished := by
  unfold afterStep
  split
  · rename_i L' h
    by_cases hstep : step = .applyHardfork
    · subst hstep
      exact hL.applyHardfork h
    · exact hL.grows (apply_grows hstep h)
  · exact hL

/-- Every run leaves the ledger furnished. -/
theorem Furnished.run (hL : L.Furnished) (steps : List LedgerStep) : (L.run steps).Furnished := by
  induction steps generalizing L with
  | nil => exact hL
  | cons step steps ih => exact ih (hL.step step)

theorem furnished_genesis (time initSupply sbdInitSupply : Nat) :
    (genesis time initSupply sbdInitSupply).Furnished :=
  ⟨fun _ => rfl, fun h => absurd h (by decide : ¬ 17 ≤ 0), fun h =>
    absurd h (by decide : ¬ 21 ≤ 0)⟩

end Freezone.Chain.Funds.Ledger
