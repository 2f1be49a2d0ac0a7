import Freezone.Chain.Witnesses.Steps

/-!
# What an update of the schedule does

An update keeps the keys, properties, votes and hardfork votes of all witnesses. It
starts a new lap for those it has processed, or for everyone if virtual time
overflows, and it writes the shuffled list of active witnesses.
-/

namespace Freezone.Chain.Witnesses

open Protocol
open Funds (AccountName)

/-- What a round leaves alone in a witness. -/
structure Witness.Alike (w w' : Witness) : Prop where
  signingKey : w'.signingKey = w.signingKey
  props : w'.props = w.props
  votes : w'.votes = w.votes
  hardforkVote : Council.hardforkVote w' = Council.hardforkVote w

/-- Witnesses at the same place of the same lap. -/
structure Witness.SameLap (w w' : Witness) : Prop where
  lastUpdate : w'.virtualLastUpdate = w.virtualLastUpdate
  position : w'.virtualPosition = w.virtualPosition
  scheduledTime : w'.virtualScheduledTime = w.virtualScheduledTime

/-- A witness that starts a lap. -/
structure Witness.Starts (time : Uint128) (w : Witness) : Prop where
  lastUpdate : w.virtualLastUpdate = time
  position : w.virtualPosition = 0
  scheduledTime : w.virtualScheduledTime =
    time + Council.perVote virtualScheduleLapLength2 w.votes

theorem Witness.Alike.refl (w : Witness) : w.Alike w := ⟨rfl, rfl, rfl, rfl⟩

theorem Witness.Alike.trans {w1 w2 w3 : Witness} (h : w1.Alike w2) (h' : w2.Alike w3) :
    w1.Alike w3 :=
  ⟨h'.signingKey.trans h.signingKey, h'.props.trans h.props, h'.votes.trans h.votes,
    h'.hardforkVote.trans h.hardforkVote⟩

theorem Witness.SameLap.refl (w : Witness) : w.SameLap w := ⟨rfl, rfl, rfl⟩

theorem Witness.SameLap.trans {w1 w2 w3 : Witness} (h : w1.SameLap w2) (h' : w2.SameLap w3) :
    w1.SameLap w3 :=
  ⟨h'.lastUpdate.trans h.lastUpdate, h'.position.trans h.position,
    h'.scheduledTime.trans h.scheduledTime⟩

namespace Council

variable {S S' : Council}

theorem getWitness_eq_ok {name : AccountName} {w : Witness} :
    S.getWitness name = .ok w ↔ S.witnesses.find? name = some w := orThrow_eq_ok

theorem startLap_starts (time : Uint128) (w : Witness) : (startLap time w).Starts time :=
  ⟨rfl, rfl, rfl⟩

theorem startLap_alike (time : Uint128) (w : Witness) : w.Alike (startLap time w) :=
  ⟨rfl, rfl, rfl, rfl⟩

/-- The same witness at the same place of its lap. -/
def Marks (_ : AccountName) (w w' : Witness) : Prop := w.Alike w' ∧ w.SameLap w'

theorem marks_trans (name : AccountName) (w1 w2 w3 : Witness) (h : Marks name w1 w2)
    (h' : Marks name w2 w3) : Marks name w1 w3 := ⟨h.1.trans h'.1, h.2.trans h'.2⟩

theorem marks_modifyWitnesses (S : Council) (names : List AccountName) {f : Witness → Witness}
    (hf : ∀ w : Witness, w.Alike (f w) ∧ w.SameLap (f w)) :
    Table.Related Marks S.witnesses (S.modifyWitnesses names f).witnesses := by
  refine Table.related_mapWithKey _ fun name w _ => ?_
  split
  · exact hf w
  · exact ⟨.refl w, .refl w⟩

/-- Marking changes the witnesses, but not their laps, and the length of the mining queue. -/
theorem markSelected_eq (S : Council) : ∃ witnesses count,
    S.markSelected = { S with witnesses := witnesses, numPowWitnesses := count } ∧
      Table.Related Marks S.witnesses witnesses := by
  refine ⟨_, _, rfl, ?_⟩
  have hmark : ∀ (type : ScheduleType) (w : Witness),
      w.Alike { w with schedule := type } ∧ w.SameLap { w with schedule := type } :=
    fun type w => ⟨⟨rfl, rfl, rfl, rfl⟩, ⟨rfl, rfl, rfl⟩⟩
  have helected := marks_modifyWitnesses S S.selectedVoted (hmark .elected)
  have hminer := helected.trans (marks_modifyWitnesses _ S.selectedMiners
    (hmark .miner)) marks_trans
  have hpow := hminer.trans (marks_modifyWitnesses _ (S.visitedMiners.map Prod.fst)
    (f := fun w => { w with powWorker := 0 })
    fun w => ⟨⟨rfl, rfl, rfl, rfl⟩, ⟨rfl, rfl, rfl⟩⟩) marks_trans
  exact hpow.trans (marks_modifyWitnesses _ S.selectedTimeshare (hmark .timeshare)) marks_trans

/-- The laps of the witnesses after an update. -/
def Laps (S : Council) (name : AccountName) (w w' : Witness) : Prop :=
  w.Alike w' ∧
    if S.Overflows then w'.Starts 0
    else if name ∈ S.processedWitnesses.map Prod.fst then w'.Starts S.newVirtualTime
    else w.SameLap w'

/-- The virtual time after an update. -/
def nextVirtualTime (S : Council) : Uint128 := if S.Overflows then 0 else S.newVirtualTime

theorem resetVirtualScheduleTime_eq (h : S.resetVirtualScheduleTime = .ok S') : S' = { S with
      wso := { S.wso with currentVirtualTime := 0 }
      witnesses := S.witnesses.map (startLap 0) } := by
  simp only [resetVirtualScheduleTime, returns, exists_const] at h
  exact h.2.symm

/-- The selected witnesses start their next lap. -/
theorem advanceVirtualTime_eq (h : S.advanceVirtualTime S.markSelected = .ok S') :
    ∃ witnesses count, Table.Related S.Laps S.witnesses witnesses ∧
      S' = { S with
        witnesses := witnesses
        numPowWitnesses := count
        wso := { S.wso with currentVirtualTime := S.nextVirtualTime } } := by
  obtain ⟨marked, count, hmarked, hmarks⟩ := S.markSelected_eq
  rw [hmarked, advanceVirtualTime] at h
  split_ifs at h with hover
  · obtain rfl := resetVirtualScheduleTime_eq h
    refine ⟨marked.map (startLap 0), count, ?_, by rw [nextVirtualTime, if_pos hover]⟩
    refine hmarks.trans (Table.related_mapWithKey (r := fun _ w w' => w' = startLap 0 w) marked
      fun _ _ _ => rfl) ?_
    rintro name w w1 _ hw rfl
    rw [Laps, if_pos hover]
    exact ⟨hw.1.trans (startLap_alike 0 w1), startLap_starts 0 w1⟩
  · simp only [returns, exists_const] at h
    obtain ⟨-, rfl⟩ := h
    refine ⟨_, count, ?_, by rw [nextVirtualTime, if_neg hover]; rfl⟩
    refine hmarks.trans (Table.related_mapWithKey (r := fun name w w' => w' =
      if name ∈ S.processedWitnesses.map Prod.fst then startLap S.newVirtualTime w else w)
      marked fun _ _ _ => rfl) ?_
    rintro name w w1 _ hw rfl
    rw [Laps, if_neg hover]
    split
    · exact ⟨hw.1.trans (startLap_alike _ w1), startLap_starts _ w1⟩
    · exact hw

/-- The number of scheduled witnesses that vote for a version and a time. -/
def votesFor (S : Council) (p : Nat × Nat) : Nat :=
  (List.range S.wso.numScheduledWitnesses).countP fun i =>
    (((S.shuffledAt i).bind S.witnesses.find?).map hardforkVote) = some p

/-- The scheduled witnesses are those of the shuffled slots. -/
theorem scheduledWitnesses_eq_ok {scheduled : List Witness} : S.scheduledWitnesses = .ok scheduled ↔
      List.Forall₂ (fun i w => (S.shuffledAt i).bind S.witnesses.find? = some w)
        (List.range S.wso.numScheduledWitnesses) scheduled := by
  rw [scheduledWitnesses, Checked.mapM_eq_ok]
  have hslot : ∀ i w, (orThrow "unknown key" (S.shuffledAt i) >>= fun name => S.getWitness name) =
      .ok w ↔ (S.shuffledAt i).bind S.witnesses.find? = some w := by
    intro i w
    simp only [returns, getWitness_eq_ok, Option.bind_eq_some_iff]
  simp only [hslot]

/-- The count of a version is the number of the witnesses that vote for it. -/
theorem count_scheduled {scheduled : List Witness} (h : S.scheduledWitnesses = .ok scheduled)
    (p : Nat × Nat) : (scheduled.map hardforkVote).count p = S.votesFor p := by
  rw [scheduledWitnesses_eq_ok] at h
  unfold votesFor
  generalize List.range S.wso.numScheduledWitnesses = slots at h
  induction h with
  | nil => rfl
  | cons hw _ ih =>
    rw [List.map_cons, List.count_cons, List.countP_cons, ih, hw]
    simp

/-- A pair with the required number of votes. -/
def Majority (S : Council) (p : Nat × Nat) : Prop :=
  S.wso.hardforkRequiredWitnesses ≤ S.votesFor p

/-- The scheduled witnesses decide which hardfork is next from hardfork 5 on. -/
def Decided (S S' : Council) : Prop :=
  if S.HasHardfork 5 then
    S.Majority (S'.nextHardfork, S'.nextHardforkTime) ∨ S'.nextHardfork = S.currentHardforkVersion
  else S'.nextHardfork = S.nextHardfork ∧ S'.nextHardforkTime = S.nextHardforkTime

/-- The count of the versions sets the next hardfork. -/
theorem countVersions_eq (h : S.countVersions = .ok S') : ∃ next time version,
    S' = { S with
      nextHardfork := next
      nextHardforkTime := time
      wso := { S.wso with majorityVersion := version } } ∧ S.Decided S' := by
  unfold countVersions at h
  unfold Decided
  split_ifs at h with h5
  · rw [if_pos h5]
    simp only [returns] at h
    obtain ⟨scheduled, hs, rfl⟩ := h
    simp only [setNextHardfork]
    split
    · rename_i p hp
      have hcount := List.find?_some hp
      rw [decide_eq_true_eq, count_scheduled hs] at hcount
      exact ⟨_, _, _, rfl, Or.inl hcount⟩
    · exact ⟨_, _, _, rfl, Or.inr rfl⟩
  · rw [if_neg h5]
    cases h
    exact ⟨S.nextHardfork, S.nextHardforkTime, S.wso.majorityVersion, rfl, rfl, rfl⟩

/-- The medians change only the properties of the chain. -/
theorem updateMedianWitnessProps_eq (h : S.updateMedianWitnessProps = .ok S') :
    ∃ size rate props rd witnessRd, S' = { S with
      maximumBlockSize := size
      sbdInterestRate := rate
      wso := { S.wso with
        medianProps := props
        accountSubsidyRd := rd
        accountSubsidyWitnessRd := witnessRd } } := by
  simp only [updateMedianWitnessProps, returns] at h
  obtain ⟨_, -, _, -, _, -, _, -, _, -, _, -, _, -, _, -, rd, -, witnessRd, -, h⟩ := h
  exact ⟨_, _, _, _, _, h.symm⟩

/-- What no update of the schedule touches. -/
structure SameCourse (S S' : Council) : Prop where
  headBlockNum : S'.headBlockNum = S.headBlockNum
  headBlockTime : S'.headBlockTime = S.headBlockTime
  totalVestingShares : S'.totalVestingShares = S.totalVestingShares
  ballots : S'.ballots = S.ballots
  processedHardforks : S'.processedHardforks = S.processedHardforks
  lastHardfork : S'.lastHardfork = S.lastHardfork
  currentHardforkVersion : S'.currentHardforkVersion = S.currentHardforkVersion
  hardforkTimes : S'.hardforkTimes = S.hardforkTimes
  hardforkOperations : S'.hardforkOperations = S.hardforkOperations
  maxVotedWitnesses : S'.wso.maxVotedWitnesses = S.wso.maxVotedWitnesses
  maxMinerWitnesses : S'.wso.maxMinerWitnesses = S.wso.maxMinerWitnesses
  hardforkRequiredWitnesses : S'.wso.hardforkRequiredWitnesses = S.wso.hardforkRequiredWitnesses

/-- The schedule holds the shuffled active witnesses. -/
structure Writes (active : List AccountName) (S S' : Council) : Prop where
  count : S'.wso.numScheduledWitnesses = max active.length 1
  shuffled : S'.wso.currentShuffledWitnesses =
    shuffle (choosePlace S.headBlockTime (max active.length 1)) (max active.length 1)
      fun i : Fin maxWitnesses => active[(i : Nat)]?

/-- What `update_witness_schedule4` does when it returns. -/
structure Rescheduled (S S' : Council) : Prop where
  active_length : S.activeWitnesses.length = min maxWitnesses S.witnesses.entries.length
  course : S.SameCourse S'
  writes : Writes S.activeWitnesses S S'
  laps : Table.Related S.Laps S.witnesses S'.witnesses
  virtualTime : S'.wso.currentVirtualTime = S.nextVirtualTime
  decided : S.Decided S'

/-- What a round of the schedule changes. -/
theorem updateWitnessSchedule4_rescheduled (h : S.updateWitnessSchedule4 = .ok S') :
    S.Rescheduled S' := by
  simp only [updateWitnessSchedule4, returns, exists_const] at h
  obtain ⟨advanced, hadvanced, hlength, counted, hcounted, hmedian⟩ := h
  obtain ⟨witnesses, count, hlaps, rfl⟩ := advanceVirtualTime_eq hadvanced
  obtain ⟨next, time, version, rfl, hdecided⟩ := countVersions_eq hcounted
  obtain ⟨size, rate, props, rd, witnessRd, rfl⟩ := updateMedianWitnessProps_eq hmedian
  refine ⟨hlength, ⟨rfl, rfl, rfl, rfl, rfl, rfl, rfl, rfl, rfl, rfl, rfl, rfl⟩, ⟨rfl, rfl⟩, hlaps,
    rfl, ?_⟩
  -- the votes were counted after the laps had changed
  have hvotes : ∀ p, { S with
      witnesses := witnesses
      numPowWitnesses := count
      wso := { S.wso with currentVirtualTime := S.nextVirtualTime } }.votesFor p =
          S.votesFor p := by
    intro p
    unfold votesFor
    congr 1
    funext i
    change decide (((S.shuffledAt i).bind witnesses.find?).map hardforkVote = some p) = _
    cases S.shuffledAt i with
    | none => rfl
    | some name =>
      have hvote := hlaps.map_eq (g := hardforkVote) (fun _ _ _ h => h.1.hardforkVote) name
      simp only [Option.bind_some, hvote]
  unfold Decided Majority at hdecided ⊢
  simp only [hvotes] at hdecided
  exact hdecided

end Council

end Freezone.Chain.Witnesses
