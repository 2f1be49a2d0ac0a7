import Freezone.Chain.Ledger.Processing
import Freezone.Chain.Witnesses.Rounds

/-!
# The pay of a producer

The pay of a witness is its weight over the sum of the weights of its round. Only
`update_witness_schedule4` writes the sum, for a round with at least one witness, so
`process_funds` never divides by zero.
-/

namespace Freezone.Chain.Witnesses.Council

open Funds (AccountName)

variable {S S' : Council}

/-- What `process_funds` reads of the schedule: the weights and their sum. -/
def payTerms (S : Council) : Nat × Nat × Nat × Nat :=
  (S.wso.electedWeight, S.wso.timeshareWeight, S.wso.minerWeight,
    S.wso.witnessPayNormalizationFactor)

/-- The weight of a witness; one that was never scheduled counts once. -/
def payWeight (S : Council) : ScheduleType → Nat
  | .timeshare => S.wso.timeshareWeight
  | .miner => S.wso.minerWeight
  | .elected => S.wso.electedWeight
  | .none => 1

/-- The pay of the witness that signed the block. -/
def producerPay (S : Council) (owner : AccountName) (w : Witness) : Funds.Ledger.ProducerPay :=
  ⟨owner, S.payWeight w.schedule, S.wso.witnessPayNormalizationFactor⟩

/-- No weight and no sum of weights is zero. -/
structure Pays (S : Council) : Prop where
  elected : 0 < S.wso.electedWeight
  timeshare : 0 < S.wso.timeshareWeight
  miner : 0 < S.wso.minerWeight
  factor : 0 < S.wso.witnessPayNormalizationFactor

theorem Pays.of_payTerms (hS : S.Pays) (h : S'.payTerms = S.payTerms) : S'.Pays := by
  simp only [payTerms, Prod.mk.injEq] at h
  obtain ⟨helected, htimeshare, hminer, hfactor⟩ := h
  exact ⟨helected ▸ hS.elected, htimeshare ▸ hS.timeshare, hminer ▸ hS.miner, hfactor ▸ hS.factor⟩

/-! ### Votes and hardforks -/

/-- Votes do not change the terms of pay. -/
theorem payTerms_adjustWitnessVote {name : AccountName} {delta : Int}
    (h : S.adjustWitnessVote name delta = .ok S') : S'.payTerms = S.payTerms := by
  obtain ⟨w, -, -, -, rfl⟩ := adjustWitnessVote_eq h
  rfl

variable {n : Nat}

theorem payTerms_hardforkEffects (h : S.hardforkEffects n = .ok S') : S'.payTerms = S.payTerms := by
  unfold hardforkEffects at h
  split at h
  · simp only [performVestingShareSplit, returns, exists_const] at h
    obtain ⟨-, rfl⟩ := h
    rfl
  split at h
  · exact forEach_invariant (P := fun T => T.payTerms = S.payTerms)
      (fun e _ T T' hT hadjust => (payTerms_adjustWitnessVote hadjust).trans hT) rfl h
  split at h
  · obtain rfl := resetVirtualScheduleTime_eq h
    rfl
  split at h
  · cases h
    exact rfl
  split at h
  · simp only [raiseFees, returns, exists_const] at h
    obtain ⟨-, -, rfl⟩ := h
    rfl
  · cases h
    exact rfl

theorem Pays.applyHardfork (hS : S.Pays) (h : S.applyHardfork n = .ok S') : S'.Pays := by
  obtain ⟨S1, h1, -, -, rfl⟩ := applyHardfork_eq h
  have hterms := payTerms_hardforkEffects h1
  exact hS.of_payTerms hterms

theorem Pays.setHardfork (hS : S.Pays) (h : S.setHardfork n = .ok S') : S'.Pays := by
  obtain ⟨times, next, time, h, -⟩ := setHardfork_eq h
  have hset : { S with
      hardforkTimes := times
      nextHardfork := next
      nextHardforkTime := time }.Pays := ⟨hS.elected, hS.timeshare, hS.miner, hS.factor⟩
  exact hset.applyHardfork h

/-! ### Rounds -/

theorem payTerms_votedRound {r : Council × List AccountName × Uint128}
    (h : S.votedRound = .ok r) : r.1.payTerms = S.payTerms := by
  unfold votedRound at h
  split at h
  · simp only [scheduleByVotes] at h
    split at h
    · cases h
      exact rfl
    · simp only [returns, exists_const] at h
      obtain ⟨-, rfl⟩ := h
      rfl
  · cases h
    exact rfl

theorem payTerms_popMiner (S : Council) : S.popMiner.payTerms = S.payTerms := by
  unfold popMiner
  split
  · split
    · rfl
    · rfl
  · rfl

theorem payTerms_setVirtualTime (time : Uint128) (S : Council) :
    (S.setVirtualTime time).payTerms = S.payTerms := by
  unfold setVirtualTime
  split
  · rfl
  · rfl

theorem payTerms_updateMedianWitnessProps (h : S.updateMedianWitnessProps = .ok S') :
    S'.payTerms = S.payTerms := by
  obtain ⟨size, rate, props, rd, witnessRd, rfl⟩ := updateMedianWitnessProps_eq h
  rfl

theorem payTerms_updateWitnessSchedule0 (h : S.updateWitnessSchedule0 = .ok S') :
    S'.payTerms = S.payTerms := by
  simp only [updateWitnessSchedule0, returns] at h
  obtain ⟨⟨voted, active, time⟩, hvoted, h⟩ := h
  rw [payTerms_updateMedianWitnessProps h, payTerms_setVirtualTime]
  change voted.popMiner.payTerms = _
  rw [payTerms_popMiner, payTerms_votedRound hvoted]

/-- The new sum counts every witness of the round. -/
theorem Pays.updateWitnessSchedule4 (hS : S.Pays) (hsound : S.Sound)
    (h : S.updateWitnessSchedule4 = .ok S') : S'.Pays := by
  simp only [Council.updateWitnessSchedule4, returns, exists_const] at h
  obtain ⟨advanced, hadvanced, hlength, counted, hcounted, hmedian⟩ := h
  obtain ⟨witnesses, count, -, rfl⟩ := advanceVirtualTime_eq hadvanced
  obtain ⟨next, time, version, rfl, -⟩ := countVersions_eq hcounted
  have hterms := payTerms_updateMedianWitnessProps hmedian
  refine Pays.of_payTerms ?_ hterms
  refine ⟨hS.elected, hS.timeshare, hS.miner, ?_⟩
  have hpos : 0 < S.activeWitnesses.length := by
    rw [hlength]
    exact Nat.lt_min.mpr ⟨by decide, hsound.entries_pos⟩
  rw [activeWitnesses, List.length_append, List.length_append] at hpos
  have helected := Nat.le_mul_of_pos_left S.selectedVoted.length hS.elected
  have hminer := Nat.le_mul_of_pos_left S.selectedMiners.length hS.miner
  have htimeshare := Nat.le_mul_of_pos_left S.selectedTimeshare.length hS.timeshare
  exact lt_of_lt_of_le hpos (Nat.add_le_add (Nat.add_le_add helected hminer) htimeshare)

/-- A round keeps the terms of pay. -/
theorem Pays.updateWitnessSchedule (hS : S.Pays) (hsound : S.Sound)
    (h : S.updateWitnessSchedule = .ok S') : S'.Pays := by
  unfold Council.updateWitnessSchedule at h
  split at h
  · split at h
    · exact hS.updateWitnessSchedule4 hsound h
    · exact hS.of_payTerms (payTerms_updateWitnessSchedule0 h)
  · cases h
    exact hS

/-! ### Runs -/

/-- Every step keeps the terms of pay. -/
theorem Pays.step (hS : S.Pays) (hsound : S.Sound) {step : WitnessStep}
    (h : StepEffect step S S') : S'.Pays := by
  cases h with
  | edits h => exact hS.of_payTerms (by rw [payTerms, payTerms, h.wso])
  | ballot voter name weight h =>
    simp only [changeBallot, returns] at h
    obtain ⟨S1, h1, rfl⟩ := h
    have hterms := payTerms_adjustWitnessVote h1
    exact hS.of_payTerms hterms
  | round hstep h => exact hS.updateWitnessSchedule hsound h
  | hardforks h => exact processHardforks_invariant (fun _ _ hT h => hT.applyHardfork h) hS h
  | firstBlock timestamp h =>
    exact genesisHardforks_invariant (fun _ _ _ hT h => hT.setHardfork h)
      (fun _ _ _ hT => ⟨hT.elected, hT.timeshare, hT.miner, hT.factor⟩) hS h

/-- In every reachable council the pay of a producer is defined. -/
theorem run_pays (steps : List WitnessStep) : (genesis.run steps).Pays := by
  have hstep : ∀ step S S', S.Sound ∧ S.Pays → StepEffect step S S' → S'.Sound ∧ S'.Pays :=
    fun _ _ _ hS h => ⟨hS.1.step h, hS.2.step hS.1 h⟩
  have hgenesis : genesis.Pays := ⟨by decide, by decide, by decide, by decide⟩
  exact (run_invariant hstep steps ⟨sound_genesis, hgenesis⟩).2

/-- `get_scheduled_witness`, with the number of the current slot. -/
def getScheduledWitness (currentAslot slotNum : Nat) (S : Council) : Option AccountName :=
  S.shuffledAt ((currentAslot + slotNum) % 2 ^ 64 % S.wso.numScheduledWitnesses)

/-- In every reachable council each slot belongs to a witness that exists and has a positive part of
a positive pay. -/
theorem run_scheduledWitness (steps : List WitnessStep) (currentAslot slotNum : Nat) :
    ∃ name w, (genesis.run steps).getScheduledWitness currentAslot slotNum = some name ∧
      (genesis.run steps).witnesses.find? name = some w ∧
      0 < (genesis.run steps).payWeight w.schedule ∧
      0 < (genesis.run steps).wso.witnessPayNormalizationFactor := by
  have hsound := run_sound steps
  have hpays := run_pays steps
  obtain ⟨w, hw⟩ := hsound.slots _
    (Nat.mod_lt ((currentAslot + slotNum) % 2 ^ 64) hsound.count_pos)
  obtain ⟨name, hname, hfound⟩ := Option.bind_eq_some_iff.mp hw
  refine ⟨name, w, hname, hfound, ?_, hpays.factor⟩
  unfold payWeight
  split
  · exact hpays.timeshare
  · exact hpays.miner
  · exact hpays.elected
  · exact Nat.one_pos

end Freezone.Chain.Witnesses.Council
