import Freezone.Chain.Witnesses.Operations
import Freezone.Chain.Witnesses.Selection

/-!
# Councils that can schedule

In every reachable council there is a witness, every scheduled name is that of a
witness, no witness has votes whose successor is zero, and the properties of all
witnesses are within their bounds. As long as the first schedule is in use, the
counter of the mining queue is right.
-/

namespace Freezone.Chain.Witnesses.Council

open Protocol Table
open Funds (AccountName)

variable {S S' S'' : Council}

theorem hasHardfork_congr (h : S'.processedHardforks = S.processedHardforks) (n : Nat) :
    S'.HasHardfork n ↔ S.HasHardfork n := by
  rw [HasHardfork, HasHardfork, h]

/-- The invariant of the schedule. -/
structure Sound (S : Council) : Prop where
  nonempty : ∃ name w, S.witnesses.find? name = some w
  votes : ∀ name w, S.witnesses.find? name = some w → w.votes + 1 ≠ 0
  valid : ∀ name w, S.witnesses.find? name = some w → w.Valid
  slots : ∀ i < S.wso.numScheduledWitnesses, ∃ w, (S.shuffledAt i).bind S.witnesses.find? = some w
  count_pos : 0 < S.wso.numScheduledWitnesses
  quota : S.wso.maxVotedWitnesses + S.wso.maxMinerWitnesses ≤ maxWitnesses
  queue : ¬ S.HasHardfork 4 → S.queueExcess = 0

theorem shuffledAt_congr
    (h : S'.wso.currentShuffledWitnesses = S.wso.currentShuffledWitnesses) (i : Nat) :
    S'.shuffledAt i = S.shuffledAt i := by
  simp only [shuffledAt, h]

/-- Edits of the witnesses keep the council sound. -/
theorem Sound.edits (hS : S.Sound) (h : S.Edits S') : S'.Sound where
  nonempty := by
    obtain ⟨name, w, hw⟩ := hS.nonempty
    obtain ⟨w', hw'⟩ := h.known name w hw
    exact ⟨name, w', hw'⟩
  votes name w' hw' := by
    rcases h.witnesses name w' hw' with ⟨w, hw, hstays⟩ | ⟨-, hfresh⟩
    · rw [hstays.votes]
      exact hS.votes name w hw
    · rw [hfresh.votes]
      decide
  valid name w' hw' := by
    rcases h.witnesses name w' hw' with ⟨w, hw, hstays⟩ | ⟨-, hfresh⟩
    · exact hstays.valid (hS.valid name w hw)
    · exact hfresh.valid
  slots i hi := by
    rw [h.wso] at hi
    obtain ⟨w, hw⟩ := hS.slots i hi
    obtain ⟨name, hname, hw⟩ := Option.bind_eq_some_iff.mp hw
    obtain ⟨w', hw'⟩ := h.known name w hw
    have hslot : S'.shuffledAt i = S.shuffledAt i := shuffledAt_congr (by rw [h.wso]) i
    refine ⟨w', ?_⟩
    rw [hslot, hname]
    exact hw'
  count_pos := by
    rw [h.wso]
    exact hS.count_pos
  quota := by
    rw [h.wso]
    exact hS.quota
  queue h4 := by
    rw [h.queue]
    rw [hasHardfork_congr h.processedHardforks] at h4
    exact hS.queue h4

/-! ### Votes and hardforks -/

/-- What votes and hardforks leave alone. -/
structure Keeps (S S' : Council) : Prop where
  headBlockTime : S'.headBlockTime = S.headBlockTime
  processedHardforks : S'.processedHardforks = S.processedHardforks
  lastHardfork : S'.lastHardfork = S.lastHardfork
  currentHardforkVersion : S'.currentHardforkVersion = S.currentHardforkVersion
  nextHardfork : S'.nextHardfork = S.nextHardfork
  nextHardforkTime : S'.nextHardforkTime = S.nextHardforkTime
  hardforkOperations : S'.hardforkOperations = S.hardforkOperations
  shuffled : S'.wso.currentShuffledWitnesses = S.wso.currentShuffledWitnesses
  count : S'.wso.numScheduledWitnesses = S.wso.numScheduledWitnesses
  quota : S.wso.maxVotedWitnesses + S.wso.maxMinerWitnesses ≤ maxWitnesses →
    S'.wso.maxVotedWitnesses + S'.wso.maxMinerWitnesses ≤ maxWitnesses
  witnesses : Table.Related (fun _ w w' => (w.votes + 1 ≠ 0 → w'.votes + 1 ≠ 0) ∧
    w'.subsidyParams = w.subsidyParams) S.witnesses S'.witnesses
  queue : S'.queueExcess = S.queueExcess

theorem Keeps.refl (S : Council) : S.Keeps S :=
  ⟨rfl, rfl, rfl, rfl, rfl, rfl, rfl, rfl, rfl, id,
    related_refl _ fun _ _ => ⟨id, rfl⟩, rfl⟩

theorem Keeps.trans (h : S.Keeps S') (h' : S'.Keeps S'') : S.Keeps S'' where
  headBlockTime := h'.headBlockTime.trans h.headBlockTime
  processedHardforks := h'.processedHardforks.trans h.processedHardforks
  lastHardfork := h'.lastHardfork.trans h.lastHardfork
  currentHardforkVersion := h'.currentHardforkVersion.trans h.currentHardforkVersion
  nextHardfork := h'.nextHardfork.trans h.nextHardfork
  nextHardforkTime := h'.nextHardforkTime.trans h.nextHardforkTime
  hardforkOperations := h'.hardforkOperations.trans h.hardforkOperations
  shuffled := h'.shuffled.trans h.shuffled
  count := h'.count.trans h.count
  quota hq := h'.quota (h.quota hq)
  witnesses := h.witnesses.trans h'.witnesses fun _ _ _ _ h1 h2 =>
    ⟨fun hv => h2.1 (h1.1 hv), h2.2.trans h1.2⟩
  queue := h'.queue.trans h.queue

/-- A step that keeps the slots and the hardforks keeps the council sound. -/
theorem Sound.keeps (hS : S.Sound) (h : S.Keeps S') : S'.Sound where
  nonempty := by
    obtain ⟨name, w, hw⟩ := hS.nonempty
    obtain ⟨w', hw', -⟩ := h.witnesses.after hw
    exact ⟨name, w', hw'⟩
  votes name w' hw' := by
    obtain ⟨w, hw, hkeep⟩ := h.witnesses.before hw'
    exact hkeep.1 (hS.votes name w hw)
  valid name w' hw' := by
    obtain ⟨w, hw, hkeep⟩ := h.witnesses.before hw'
    unfold Witness.Valid
    rw [hkeep.2]
    exact hS.valid name w hw
  slots i hi := by
    rw [h.count] at hi
    obtain ⟨w, hw⟩ := hS.slots i hi
    obtain ⟨name, hname, hw⟩ := Option.bind_eq_some_iff.mp hw
    obtain ⟨w', hw', -⟩ := h.witnesses.after hw
    refine ⟨w', ?_⟩
    rw [shuffledAt_congr h.shuffled, hname]
    exact hw'
  count_pos := by
    rw [h.count]
    exact hS.count_pos
  quota := h.quota hS.quota
  queue h4 := by
    rw [h.queue]
    rw [hasHardfork_congr h.processedHardforks] at h4
    exact hS.queue h4

variable {name : AccountName} {n : Nat}

/-- A change of votes stays between zero and the total of the shares. -/
theorem adjustWitnessVote_eq {delta : Int}
    (h : S.adjustWitnessVote name delta = .ok S') : ∃ w, S.witnesses.find? name = some w ∧
      w.votes + delta ≤ S.totalVestingShares ∧ w.votes + delta + 1 ≠ 0 ∧
      S' = S.setWitness name (S.adjusted w delta) := by
  simp only [adjustWitnessVote, returns, exists_const, getWitness_eq_ok] at h
  obtain ⟨w, hw, hle, hne, rfl⟩ := h
  exact ⟨w, hw, hle, hne, rfl⟩

theorem keeps_adjustWitnessVote {delta : Int}
    (h : S.adjustWitnessVote name delta = .ok S') : S.Keeps S' := by
  obtain ⟨w, hw, -, hne, rfl⟩ := adjustWitnessVote_eq h
  refine ⟨rfl, rfl, rfl, rfl, rfl, rfl, rfl, rfl, rfl, id,
    related_set hw ⟨fun _ => hne, rfl⟩ fun _ _ _ => ⟨id, rfl⟩, ?_⟩
  simp only [queueExcess, setWitness, total_set hw, mines, adjusted]
  omega

theorem keeps_changeBallot {voter : AccountName} {weight : Nat}
    (h : S.changeBallot voter name weight = .ok S') : S.Keeps S' := by
  simp only [changeBallot, returns] at h
  obtain ⟨S1, h1, rfl⟩ := h
  have hkeep := keeps_adjustWitnessVote h1
  exact ⟨hkeep.1, hkeep.2, hkeep.3, hkeep.4, hkeep.5, hkeep.6, hkeep.7, hkeep.8, hkeep.9, hkeep.10,
    hkeep.11, hkeep.12⟩

/-- A change of every witness that keeps its votes and properties, and its place in the queue. -/
theorem keeps_map {f : Witness → Witness}
    (hf : ∀ w, (w.votes + 1 ≠ 0 → (f w).votes + 1 ≠ 0) ∧ (f w).subsidyParams = w.subsidyParams)
    (hpow : ∀ w, (f w).powWorker = w.powWorker) :
    S.Keeps { S with witnesses := S.witnesses.map f } := by
  refine ⟨rfl, rfl, rfl, rfl, rfl, rfl, rfl, rfl, rfl, id,
    related_map _ fun _ w _ => hf w, ?_⟩
  simp only [queueExcess, total_map, mines, hpow]
  rfl

theorem keeps_retallyWitnessVotes (h : S.retallyWitnessVotes = .ok S') : S.Keeps S' := by
  have hcleared : S.Keeps { S with
      witnesses := S.witnesses.map fun w => { w with votes := 0, virtualPosition := 0 } } :=
    keeps_map (fun _ => ⟨fun _ => by simp, rfl⟩) fun _ => rfl
  exact forEach_invariant (P := fun T => S.Keeps T)
    (fun e _ T T' hT hadjust => hT.trans (keeps_adjustWitnessVote hadjust)) hcleared h

theorem keeps_raiseFees (h : S.raiseFees = .ok S') : S.Keeps S' := by
  simp only [raiseFees, returns, exists_const] at h
  obtain ⟨-, -, rfl⟩ := h
  refine ⟨rfl, rfl, rfl, rfl, rfl, rfl, rfl, rfl, rfl, id,
    related_mapWithKey _ fun _ w _ => ?_, ?_⟩
  · split
    · exact ⟨id, rfl⟩
    · exact ⟨id, rfl⟩
  · have htotal := S.witnesses.total_mapWithKey_eq (f := mines) (g := fun name w =>
      if name ∈ (List.finRange maxWitnesses).filterMap S.wso.currentShuffledWitnesses then
        raiseFee w else w) fun name w => by split <;> rfl
    simp only [queueExcess, modifyWitnesses, htotal]

/-- The effects of a hardfork leave the slots and the versions alone. -/
theorem keeps_hardforkEffects (h : S.hardforkEffects n = .ok S') : S.Keeps S' := by
  unfold hardforkEffects at h
  split at h
  · simp only [performVestingShareSplit, returns, exists_const] at h
    obtain ⟨-, rfl⟩ := h
    exact ⟨rfl, rfl, rfl, rfl, rfl, rfl, rfl, rfl, rfl, id,
      related_refl _ fun _ _ => ⟨id, rfl⟩, rfl⟩
  split at h
  · exact keeps_retallyWitnessVotes h
  split at h
  · obtain rfl := resetVirtualScheduleTime_eq h
    have hkeep : S.Keeps { S with witnesses := S.witnesses.map (startLap 0) } :=
      keeps_map (fun _ => ⟨id, rfl⟩) fun _ => rfl
    exact ⟨rfl, rfl, rfl, rfl, rfl, rfl, rfl, rfl, rfl, id, hkeep.witnesses, hkeep.queue⟩
  split at h
  · cases h
    exact ⟨rfl, rfl, rfl, rfl, rfl, rfl, rfl, rfl, rfl,
      fun _ => (by decide : 20 + 0 ≤ maxWitnesses), related_refl _ fun _ _ => ⟨id, rfl⟩, rfl⟩
  split at h
  · exact keeps_raiseFees h
  · cases h
    exact .refl S

/-- A hardfork is the next one, and it is recorded. -/
theorem applyHardfork_eq (h : S.applyHardfork n = .ok S') : ∃ S1,
    S.hardforkEffects n = .ok S1 ∧ n = S.lastHardfork + 1 ∧ S.processedHardforks.length = n ∧
      S' = { S1 with
        processedHardforks := S1.processedHardforks ++ [S1.hardforkTimes n]
        lastHardfork := n
        currentHardforkVersion := hardforkVersion n
        hardforkOperations := S1.hardforkOperations ++ [n] } := by
  simp only [applyHardfork, returns, exists_const] at h
  obtain ⟨S1, h1, hnext, hlength, rfl⟩ := h
  have hkeep := keeps_hardforkEffects h1
  rw [hkeep.lastHardfork] at hnext
  rw [hkeep.processedHardforks] at hlength
  exact ⟨S1, h1, hnext, hlength, rfl⟩

/-- A hardfork keeps the council sound. -/
theorem Sound.applyHardfork (hS : S.Sound) (h : S.applyHardfork n = .ok S') : S'.Sound := by
  obtain ⟨S1, h1, -, -, rfl⟩ := applyHardfork_eq h
  have h2 := hS.keeps (keeps_hardforkEffects h1)
  refine ⟨h2.nonempty, h2.votes, h2.valid, h2.slots, h2.count_pos, h2.quota, fun h4 => h2.queue ?_⟩
  unfold HasHardfork at h4 ⊢
  rw [List.length_append] at h4
  omega

/-- A forced hardfork is applied with its time and version set. -/
theorem setHardfork_eq (h : S.setHardfork n = .ok S') : ∃ times next time, { S with
      hardforkTimes := times
      nextHardfork := next
      nextHardforkTime := time }.applyHardfork n = .ok S' ∧
      (next = S.nextHardfork ∧ time = S.nextHardforkTime ∨ 5 < n ∧ next = hardforkVersion n) := by
  simp only [setHardfork] at h
  by_cases hn : n ≤ 5
  · rw [if_pos hn] at h
    exact ⟨_, _, _, h, Or.inl ⟨rfl, rfl⟩⟩
  · rw [if_neg hn] at h
    exact ⟨_, _, _, h, Or.inr ⟨Nat.lt_of_not_le hn, rfl⟩⟩

theorem Sound.setHardfork (hS : S.Sound) (h : S.setHardfork n = .ok S') : S'.Sound := by
  obtain ⟨times, next, time, h, -⟩ := setHardfork_eq h
  have hset : { S with
      hardforkTimes := times
      nextHardfork := next
      nextHardforkTime := time }.Sound :=
    ⟨hS.nonempty, hS.votes, hS.valid, hS.slots, hS.count_pos, hS.quota, hS.queue⟩
  exact hset.applyHardfork h

end Freezone.Chain.Witnesses.Council
