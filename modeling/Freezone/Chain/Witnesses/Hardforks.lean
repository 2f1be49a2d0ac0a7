import Freezone.Chain.Witnesses.Rounds

/-!
# Votes for hardforks

Hardforks are applied one after the other, each once. After the first block and the
fifth hardfork a hardfork needs a majority of the scheduled witnesses at the latest
update of the schedule, for a version that includes it and a time that has come.
-/

namespace Freezone.Chain.Witnesses.Council

open Funds (AccountName)

variable {S S' : Council}

/-- A step that ends a round. -/
def EndsRound (S : Council) (step : WitnessStep) : Prop :=
  match step with
  | .updateWitnessSchedule =>
    S.headBlockNum % maxWitnesses = 0 ∧ S.updateWitnessSchedule.toOption.isSome
  | _ => False

instance (S : Council) : DecidablePred S.EndsRound
  | .updateWitnessSchedule => inferInstanceAs (Decidable (_ ∧ _))
  | .witnessUpdate .. | .witnessSetProperties .. | .pow .. | .reportVersion .. | .voteHardfork ..
  | .shutdownWitness .. | .processSubsidizedAccounts .. | .claimAccount .. | .changeBallot ..
  | .setTotalVestingShares .. | .advance .. | .processHardforks | .genesisHardforks .. =>
    inferInstanceAs (Decidable False)

/-- The council that made the latest update of its schedule in the course of some steps. -/
def latestUpdate (S : Council) (latest : Option Council) : List WitnessStep → Option Council
  | [] => latest
  | step :: steps =>
    (S.afterStep step).latestUpdate (if S.EndsRound step then some S else latest) steps

/-- The hardforks up to the last one were applied in their order. -/
structure InOrder (S : Council) : Prop where
  operations : S.hardforkOperations = List.range' 1 S.lastHardfork
  version : S.currentHardforkVersion = hardforkVersion S.lastHardfork
  length : S.processedHardforks.length = S.lastHardfork + 1

/-- The next hardfork was decided by the latest update of the schedule, or it is past. -/
structure Hardforks (latest : Option Council) (S : Council) : Prop extends InOrder S where
  early : ¬ S.HasHardfork 5 → S.nextHardfork = 0
  next : S.nextHardfork ≤ hardforkVersion S.lastHardfork ∨
    ∃ T ∈ latest, T.Majority (S.nextHardfork, S.nextHardforkTime)

theorem InOrder.of_same (hS : S.InOrder) (hops : S'.hardforkOperations = S.hardforkOperations)
    (hlast : S'.lastHardfork = S.lastHardfork)
    (hcurrent : S'.currentHardforkVersion = S.currentHardforkVersion)
    (hprocessed : S'.processedHardforks = S.processedHardforks) : S'.InOrder where
  operations := by rw [hops, hlast, hS.operations]
  version := by rw [hcurrent, hlast, hS.version]
  length := by rw [hprocessed, hlast, hS.length]

variable {latest : Option Council} {n : Nat}

theorem Hardforks.of_same (hS : Hardforks latest S)
    (hops : S'.hardforkOperations = S.hardforkOperations) (hlast : S'.lastHardfork = S.lastHardfork)
    (hcurrent : S'.currentHardforkVersion = S.currentHardforkVersion)
    (hprocessed : S'.processedHardforks = S.processedHardforks)
    (hnext : S'.nextHardfork = S.nextHardfork)
    (htime : S'.nextHardforkTime = S.nextHardforkTime) : Hardforks latest S' where
  toInOrder := hS.toInOrder.of_same hops hlast hcurrent hprocessed
  early h5 := by
    rw [hnext]
    rw [hasHardfork_congr hprocessed] at h5
    exact hS.early h5
  next := by
    rw [hnext, htime, hlast]
    exact hS.next

/-- A hardfork that is applied is the next one in order. -/
theorem InOrder.applyHardfork (hS : S.InOrder) (h : S.applyHardfork n = .ok S') :
    S'.InOrder ∧ n = S.lastHardfork + 1 ∧ S'.lastHardfork = n ∧
      S'.nextHardfork = S.nextHardfork ∧ S'.nextHardforkTime = S.nextHardforkTime ∧
      S'.headBlockTime = S.headBlockTime := by
  obtain ⟨S1, h1, hn, hlength, rfl⟩ := applyHardfork_eq h
  have hkeep := keeps_hardforkEffects h1
  refine ⟨⟨?_, rfl, ?_⟩, hn, rfl, hkeep.nextHardfork, hkeep.nextHardforkTime,
    hkeep.headBlockTime⟩
  · have hops := hS.operations
    rw [hkeep.hardforkOperations, hops, hn, List.range'_concat]
    simp [Nat.add_comm]
  · dsimp only
    rw [hkeep.processedHardforks, List.length_append, hlength]
    rfl

/-- The hardforks up to the last one have been processed. -/
theorem InOrder.hasHardfork_iff (hS : S.InOrder) (n : Nat) :
    S.HasHardfork n ↔ n ≤ S.lastHardfork := by
  unfold HasHardfork
  rw [hS.length]
  omega

/-- A hardfork is applied after the one before it. -/
theorem Hardforks.applyHardfork (hS : Hardforks latest S)
    (h : S.applyHardfork n = .ok S') : Hardforks latest S' := by
  obtain ⟨horder, hn, hlast, hnext, htime, -⟩ := hS.toInOrder.applyHardfork h
  refine ⟨horder, fun h5 => ?_, ?_⟩
  · rw [hnext]
    refine hS.early fun h5' => h5 ?_
    rw [hS.hasHardfork_iff] at h5'
    rw [horder.hasHardfork_iff]
    omega
  · rw [hnext, htime, hlast, hn]
    exact hS.next.imp_left fun hle => hle.trans (Nat.le_succ _)

theorem Hardforks.setHardfork (hS : Hardforks latest S)
    (h : S.setHardfork n = .ok S') : Hardforks latest S' := by
  obtain ⟨times, next, time, happly, ⟨rfl, rfl⟩ | ⟨hn5, hversion⟩⟩ := setHardfork_eq h
  · have hset : Hardforks latest { S with hardforkTimes := times } :=
      hS.of_same rfl rfl rfl rfl rfl rfl
    exact hset.applyHardfork happly
  · have hset : InOrder { S with
        hardforkTimes := times
        nextHardfork := next
        nextHardforkTime := time } := hS.toInOrder.of_same rfl rfl rfl rfl
    obtain ⟨horder, -, hlast, hnext, -, -⟩ := hset.applyHardfork happly
    refine ⟨horder, fun h5 => absurd ?_ h5, Or.inl ?_⟩
    · rw [horder.hasHardfork_iff]
      omega
    · rw [hnext, hlast]
      exact hversion.le

/-- A round counts the votes of the scheduled witnesses. -/
theorem Hardforks.updateWitnessSchedule (hS : Hardforks latest S)
    (hsound : S.Sound) (hround : S.headBlockNum % maxWitnesses = 0)
    (h : S.updateWitnessSchedule = .ok S') : Hardforks (some S) S' := by
  rw [Council.updateWitnessSchedule, if_pos hround] at h
  split_ifs at h with h4
  · have hre := updateWitnessSchedule4_rescheduled h
    have hcourse := hre.course
    have horder := hS.toInOrder.of_same hcourse.hardforkOperations hcourse.lastHardfork
      hcourse.currentHardforkVersion hcourse.processedHardforks
    have hdecided := hre.decided
    unfold Decided at hdecided
    split_ifs at hdecided with h5
    · refine ⟨horder, fun hnot => absurd ?_ hnot, ?_⟩
      · rw [horder.hasHardfork_iff, hcourse.lastHardfork]
        exact (hS.hasHardfork_iff 5).mp h5
      rcases hdecided with hmajority | hcurrent
      · exact .inr ⟨S, rfl, hmajority⟩
      · -- no majority: the next hardfork is the current one
        refine .inl ?_
        rw [hcurrent, hcourse.lastHardfork, hS.version]
    · have hnext : S'.nextHardfork = 0 := hdecided.1.trans (hS.early h5)
      exact ⟨horder, fun _ => hnext, Or.inl (hnext ▸ Nat.zero_le _)⟩
  · obtain ⟨T, active, hT, hearly⟩ := hsound.earlyRound h4
    rw [hT, Except.ok.injEq] at h
    subst h
    have hcourse := hearly.course
    have hnext : T.nextHardfork = 0 :=
      hearly.nextHardfork.trans (hS.early fun h5 => h4 (hasHardfork_mono (by decide) h5))
    exact ⟨hS.toInOrder.of_same hcourse.hardforkOperations hcourse.lastHardfork
      hcourse.currentHardforkVersion hcourse.processedHardforks, fun _ => hnext,
      Or.inl (hnext ▸ Nat.zero_le _)⟩

/-- Every step keeps the decision of the latest update. -/
theorem Hardforks.step (hS : Hardforks latest S) (hsound : S.Sound)
    {step : WitnessStep} (h : S.apply step = .ok S') :
    Hardforks (if S.EndsRound step then some S else latest) S' := by
  by_cases hend : S.EndsRound step
  · rw [if_pos hend]
    cases step with
    | updateWitnessSchedule => exact hS.updateWitnessSchedule hsound hend.1 h
    | _ => exact absurd hend id
  · rw [if_neg hend]
    cases stepEffect_of_apply h with
    | edits h =>
      exact hS.of_same h.hardforkOperations h.lastHardfork h.currentHardforkVersion
        h.processedHardforks h.nextHardfork h.nextHardforkTime
    | ballot voter name weight h =>
      have hkeep := keeps_changeBallot h
      exact hS.of_same hkeep.hardforkOperations hkeep.lastHardfork hkeep.currentHardforkVersion
        hkeep.processedHardforks hkeep.nextHardfork hkeep.nextHardforkTime
    | round hstep hupdate =>
      subst hstep
      have hwithin : ¬ S.headBlockNum % maxWitnesses = 0 := fun hround =>
        hend ⟨hround, by rw [hupdate]; rfl⟩
      rw [Council.updateWitnessSchedule, if_neg hwithin] at hupdate
      cases hupdate
      exact hS
    | hardforks h =>
      exact processHardforks_invariant (fun _ _ hT h => Hardforks.applyHardfork hT h) hS h
    | firstBlock timestamp h =>
      exact genesisHardforks_invariant (fun _ _ _ hT h => Hardforks.setHardfork hT h)
        (fun _ _ _ hT => hT.of_same rfl rfl rfl rfl rfl rfl) hS h

/-- Every run applies the hardforks in order. -/
theorem Hardforks.run (hS : Hardforks latest S) (hsound : S.Sound)
    (steps : List WitnessStep) : Hardforks (S.latestUpdate latest steps) (S.run steps) := by
  induction steps generalizing S latest with
  | nil => exact hS
  | cons step steps ih =>
    cases h : S.apply step with
    | ok S' =>
      have hafter : S.afterStep step = S' := by rw [afterStep, h]
      have hnext := ih (hS.step hsound h) (hsound.step (stepEffect_of_apply h))
      rw [latestUpdate, hafter]
      rw [Council.run, List.foldl_cons, hafter]
      exact hnext
    | error e =>
      have hafter : S.afterStep step = S := by rw [afterStep, h]
      have hend : ¬ S.EndsRound step := by
        cases step with
        | updateWitnessSchedule =>
          rintro ⟨-, hreturns⟩
          rw [show S.updateWitnessSchedule = .error e from h] at hreturns
          cases hreturns
        | _ => exact id
      rw [latestUpdate, hafter, if_neg hend]
      rw [Council.run, List.foldl_cons, hafter]
      exact ih hS hsound

theorem hardforks_genesis : Hardforks none genesis :=
  ⟨⟨rfl, rfl, rfl⟩, fun _ => rfl, Or.inl le_rfl⟩

/-- A round applies no hardfork. -/
theorem Sound.lastHardfork_updateWitnessSchedule (hsound : S.Sound)
    (h : S.updateWitnessSchedule = .ok S') : S'.lastHardfork = S.lastHardfork := by
  unfold Council.updateWitnessSchedule at h
  split at h
  · split_ifs at h with h4
    · exact (updateWitnessSchedule4_rescheduled h).course.lastHardfork
    · obtain ⟨T, active, hT, hearly⟩ := hsound.earlyRound h4
      rw [hT] at h
      cases h
      exact hearly.course.lastHardfork
  · exact Except.ok.inj h ▸ rfl

/-- The hardforks that are applied by votes do not pass the next one, whose time has come. -/
theorem InOrder.applyVotedHardforks (hS : S.InOrder) {left : Nat}
    (h : applyVotedHardforks left S = .ok S') :
    S'.lastHardfork = S.lastHardfork ∨ S.lastHardfork < S'.lastHardfork ∧
      hardforkVersion S'.lastHardfork ≤ S.nextHardfork ∧ S.nextHardforkTime ≤ S.headBlockTime := by
  have hkept := applyVotedHardforks_invariant (P := fun T => T.InOrder ∧
    T.nextHardfork = S.nextHardfork ∧ T.nextHardforkTime = S.nextHardforkTime ∧
    T.headBlockTime = S.headBlockTime ∧ (T.lastHardfork = S.lastHardfork ∨
      S.lastHardfork < T.lastHardfork ∧ hardforkVersion T.lastHardfork ≤ S.nextHardfork ∧
        S.nextHardforkTime ≤ S.headBlockTime)) ?_ ⟨hS, rfl, rfl, rfl, Or.inl rfl⟩ h
  · exact hkept.2.2.2.2
  rintro T T' ⟨hT, hnext, htime, hhead, hlast⟩ hdue happly
  obtain ⟨hT', -, hlast', hnext', htime', hhead'⟩ := hT.applyHardfork happly
  refine ⟨hT', hnext'.trans hnext, htime'.trans htime, hhead'.trans hhead, Or.inr ⟨?_, ?_, ?_⟩⟩
  · rcases hlast with hlast | ⟨hlast, -⟩ <;> omega
  · rw [hlast', ← hnext]
    exact hdue.1
  · rw [← htime, ← hhead]
    exact hdue.2

/-- The hardforks that are applied by their times are the first five. -/
theorem InOrder.applyTimedHardforks (hS : S.InOrder) {left : Nat}
    (h : applyTimedHardforks left S = .ok S') :
    S'.lastHardfork = S.lastHardfork ∨ S.lastHardfork < S'.lastHardfork ∧ S'.lastHardfork ≤ 5 := by
  have hkept := applyTimedHardforks_invariant (P := fun T => T.InOrder ∧
    (T.lastHardfork = S.lastHardfork ∨ S.lastHardfork < T.lastHardfork ∧ T.lastHardfork ≤ 5)) ?_
    ⟨hS, Or.inl rfl⟩ h
  · exact hkept.2
  · rintro T T' ⟨hT, hlast⟩ hearly happly
    obtain ⟨hT', -, hlast', -⟩ := hT.applyHardfork happly
    refine ⟨hT', Or.inr ?_⟩
    rcases hlast with hlast | ⟨hlast, -⟩ <;> omega

/-- What a step after the first block does to the last hardfork. -/
theorem InOrder.step (hS : S.InOrder) (hsound : S.Sound) {step : WitnessStep}
    (hnum : S.headBlockNum ≠ 0) (h : S.apply step = .ok S') :
    S'.lastHardfork = S.lastHardfork ∨ S.lastHardfork < S'.lastHardfork ∧
      (S'.lastHardfork ≤ 5 ∨ hardforkVersion S'.lastHardfork ≤ S.nextHardfork ∧
        S.nextHardforkTime ≤ S.headBlockTime) := by
  cases stepEffect_of_apply h with
  | edits h => exact .inl h.lastHardfork
  | ballot voter name weight h => exact .inl (keeps_changeBallot h).lastHardfork
  | round hstep h => exact .inl (hsound.lastHardfork_updateWitnessSchedule h)
  | hardforks h =>
    unfold processHardforks at h
    split at h
    · exact (hS.applyVotedHardforks h).imp_right fun hvoted => ⟨hvoted.1, Or.inr hvoted.2⟩
    · exact (hS.applyTimedHardforks h).imp_right fun htimed => ⟨htimed.1, Or.inl htimed.2⟩
  | firstBlock timestamp h =>
    simp only [Council.genesisHardforks, returns, exists_const] at h
    exact absurd h.1 hnum

/-- A hardfork after the fifth that a later block applies has a majority. -/
theorem Hardforks.majority (hS : Hardforks latest S) (hsound : S.Sound)
    {step : WitnessStep} (hnum : S.headBlockNum ≠ 0) (h : S.apply step = .ok S')
    (hn : 5 < n) (hlast : S.lastHardfork < n) (hle : n ≤ S'.lastHardfork) :
    ∃ T ∈ latest, ∃ version time, T.Majority (version, time) ∧ hardforkVersion n ≤ version ∧
      time ≤ S.headBlockTime := by
  rcases hS.toInOrder.step hsound hnum h with hsame | ⟨-, h5 | ⟨hnext, htime⟩⟩
  · omega
  · omega
  unfold hardforkVersion at hnext ⊢
  rcases hS.next with hpast | ⟨T, hT, hmajority⟩
  · unfold hardforkVersion at hpast
    omega
  · exact ⟨T, hT, S.nextHardfork, S.nextHardforkTime, hmajority, hle.trans hnext, htime⟩

/-- Hardforks are applied in their order, each once. After the first block each one after the
fifth has a majority at the latest update of the schedule, and without any majority there no
hardfork is applied. -/
theorem run_hardforks (steps : List WitnessStep) (step : WitnessStep) :
    let S := genesis.run steps
    let S' := S.afterStep step
    S.hardforkOperations = List.range' 1 S.lastHardfork ∧
    (S.headBlockNum ≠ 0 → ∀ n ∈ S'.hardforkOperations, n ∉ S.hardforkOperations → 5 < n →
      ∃ T, genesis.latestUpdate none steps = some T ∧ ∃ version time,
        T.Majority (version, time) ∧ hardforkVersion n ≤ version ∧ time ≤ S.headBlockTime) ∧
    (S.headBlockNum ≠ 0 → 5 ≤ S.lastHardfork →
      (∀ T, genesis.latestUpdate none steps = some T → ∀ p, ¬ T.Majority p) →
      S'.hardforkOperations = S.hardforkOperations) := by
  intro S S'
  have hsound : S.Sound := run_sound steps
  have hS : Hardforks (genesis.latestUpdate none steps) S :=
    hardforks_genesis.run sound_genesis steps
  refine ⟨hS.operations, ?_⟩
  cases h : S.apply step with
  | error e =>
    have hsame : S' = S := by
      unfold S'
      rw [afterStep, h]
    rw [hsame]
    exact ⟨fun _ n hn hnot => absurd hn hnot, fun _ _ _ => rfl⟩
  | ok T' =>
    have hafter : S' = T' := by
      unfold S'
      rw [afterStep, h]
    have horder : T'.InOrder := (hS.step hsound h).toInOrder
    rw [hafter, horder.operations, hS.operations]
    refine ⟨fun hnum n hn hnot hn5 => ?_, fun hnum h5 hlost => ?_⟩
    · rw [List.mem_range'_1] at hn hnot
      exact hS.majority hsound hnum h hn5 (by omega) (by omega)
    · rcases hS.toInOrder.step hsound hnum h with hsame | ⟨hlt, -⟩
      · rw [hsame]
      · obtain ⟨T, hT, version, time, hmajority, -⟩ :=
          hS.majority hsound hnum h (n := S.lastHardfork + 1) (by omega) (by omega) hlt
        exact absurd hmajority (hlost T hT _)

/-- The first block applies hardforks for which no schedule was ever updated. -/
theorem not_hardforks_voted :
    let steps : List WitnessStep := [.genesisHardforks 1540000000]
    (genesis.run steps).hardforkOperations = List.range' 1 20 ∧
      genesis.latestUpdate none steps = none := by
  decide +kernel

/-- Witnesses that register in the first round and vote for hardfork 20 in the second one. -/
def votedRun : List WitnessStep :=
  firstRound 1500000000 ((List.range 20).map fun i => .witnessUpdate (10 + i) (some i) {}) ++
    .updateWitnessSchedule :: ((List.range 20).map fun i => .voteHardfork (10 + i) 20 1580000000) ++
    ((List.range maxWitnesses).map fun i => .advance (1580000000 + 3 * i)) ++
    [.updateWitnessSchedule]

theorem run_hardforks_votedRun :
    let S := genesis.run votedRun
    S.lastHardfork = 19 ∧ (S.afterStep .processHardforks).lastHardfork = 20 ∧
      ∃ T, genesis.latestUpdate none votedRun = some T ∧ ∃ version time,
        T.Majority (version, time) ∧ hardforkVersion 20 ≤ version ∧ time ≤ S.headBlockTime := by
  intro S
  have hlast : S.lastHardfork = 19 := by decide +kernel
  have hlast' : (S.afterStep .processHardforks).lastHardfork = 20 := by decide +kernel
  refine ⟨hlast, hlast', ?_⟩
  have hnum : S.headBlockNum ≠ 0 := by decide +kernel
  have hmem : 20 ∈ (S.afterStep .processHardforks).hardforkOperations := by decide +kernel
  have hnot : 20 ∉ S.hardforkOperations := by decide +kernel
  exact (run_hardforks votedRun .processHardforks).2.1 hnum 20 hmem hnot (by decide)

end Freezone.Chain.Witnesses.Council
