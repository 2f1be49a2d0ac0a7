import Freezone.Chain.Witnesses.Rounds

/-!
# Virtual time

Every witness runs laps in virtual time, at a speed given by its votes. From hardfork
4 on no witness is scheduled in the past, no position runs past the end of its lap,
and virtual time goes back only when it overflows.
-/

namespace Freezone.Chain.Witnesses

open List
open Funds (AccountName)

/-- A witness within its lap at a virtual time. -/
structure Witness.OnTrack (now : Uint128) (w : Witness) : Prop where
  lastUpdate : w.virtualLastUpdate ≤ now
  scheduledTime : now ≤ w.virtualScheduledTime
  lap : w.virtualPosition.toNat + (w.votes.toNat + 1) *
    (w.virtualScheduledTime.toNat - w.virtualLastUpdate.toNat) < 2 ^ 128

section Lap

open Council

variable {S : Council} {w w' : Witness} {now : Uint128}

theorem toNat_lapLength2 : virtualScheduleLapLength2.toNat = 2 ^ 128 - 1 := BitVec.toNat_allOnes

theorem toNat_ofInt {n : Int} (hpos : 0 ≤ n) (hlt : n < 2 ^ 128) :
    (BitVec.ofInt 128 n).toNat = n.toNat := by
  obtain ⟨m, rfl⟩ := Int.eq_ofNat_of_zero_le hpos
  exact Nat.mod_eq_of_lt (by exact_mod_cast hlt)

/-- The time per vote is exact where the votes are within 63 bits. -/
theorem toNat_perVote (lap : Uint128) {votes : Int} (hpos : 0 ≤ votes) (hlt : votes < 2 ^ 63) :
    (perVote lap votes).toNat = lap.toNat / (votes.toNat + 1) := by
  rw [perVote, BitVec.toNat_udiv, toNat_ofInt (by omega) (by omega)]
  congr 1
  omega

/-- A sum that is not smaller than a summand did not wrap. -/
theorem add_toNat_lt {x y : Uint128} (h : ¬ x + y < x) : x.toNat + y.toNat < 2 ^ 128 := by
  rw [BitVec.lt_def, BitVec.toNat_add] at h
  omega

/-- A lap that starts before the end of virtual time is on track. -/
theorem Witness.Starts.onTrack (h : w.Starts now) (hpos : 0 ≤ w.votes) (hlt : w.votes < 2 ^ 63)
    (hover : now.toNat + (perVote virtualScheduleLapLength2 w.votes).toNat < 2 ^ 128) :
    w.OnTrack now := by
  have hsched : w.virtualScheduledTime.toNat =
      now.toNat + (perVote virtualScheduleLapLength2 w.votes).toNat := by
    rw [h.scheduledTime, BitVec.toNat_add, Nat.mod_eq_of_lt hover]
  refine ⟨h.lastUpdate ▸ BitVec.le_refl _, ?_, ?_⟩
  · rw [BitVec.le_def, hsched]
    omega
  rw [h.position, h.lastUpdate, hsched, Nat.add_sub_cancel_left, toNat_perVote _ hpos hlt,
    toNat_lapLength2]
  have hdiv := Nat.mul_div_le (2 ^ 128 - 1) (w.votes.toNat + 1)
  have hzero : (0 : Uint128).toNat = 0 := rfl
  omega

/-- A lap that starts at time zero is on track. -/
theorem Witness.Starts.onTrack_zero (h : w.Starts 0) (hpos : 0 ≤ w.votes)
    (hlt : w.votes < 2 ^ 63) : w.OnTrack 0 := by
  have hzero : (0 : Uint128).toNat = 0 := rfl
  exact h.onTrack hpos hlt (by omega)

/-- A witness who has not been scheduled is on track. -/
theorem Witness.Fresh.onTrack (h : w.Fresh) (now : Uint128) : w.OnTrack now := by
  refine ⟨?_, ?_, ?_⟩
  · rw [h.lastUpdate, BitVec.le_def]
    simp
  · rw [h.scheduledTime, BitVec.le_def, BitVec.toNat_allOnes]
    omega
  · rw [h.position, h.votes, h.scheduledTime, h.lastUpdate, BitVec.toNat_allOnes]
    simp

/-- The same lap with the same votes stays on track. -/
theorem Witness.SameLap.onTrack (h : w.SameLap w') (hvotes : w'.votes = w.votes)
    (hw : w.OnTrack now) : w'.OnTrack now := by
  refine ⟨?_, ?_, ?_⟩
  · rw [h.lastUpdate]
    exact hw.lastUpdate
  · rw [h.scheduledTime]
    exact hw.scheduledTime
  · rw [h.position, h.scheduledTime, h.lastUpdate, hvotes]
    exact hw.lap

/-- A witness is on track after its votes have changed. -/
theorem adjusted_onTrack {delta : Int} (hpos : 0 ≤ w.votes + delta)
    (hlt : w.votes + delta < 2 ^ 63) (h4 : S.HasHardfork 4) :
    (S.adjusted w delta).OnTrack S.wso.currentVirtualTime := by
  have h2 : S.HasHardfork 2 := hasHardfork_mono (by decide) h4
  obtain ⟨now, hnow⟩ : ∃ now, now = S.wso.currentVirtualTime := ⟨_, rfl⟩
  obtain ⟨position, hposition⟩ : ∃ position, position =
    w.virtualPosition + BitVec.ofInt 128 w.votes * (now - w.virtualLastUpdate) := ⟨_, rfl⟩
  have hq : (perVote (virtualScheduleLapLength2 - position) (w.votes + delta)).toNat =
      (2 ^ 128 - 1 - position.toNat) / ((w.votes + delta).toNat + 1) := by
    rw [toNat_perVote _ hpos hlt, BitVec.toNat_sub_of_le, toNat_lapLength2]
    rw [BitVec.le_def, toNat_lapLength2]
    omega
  have hdiv := Nat.mul_div_le (2 ^ 128 - 1 - position.toNat) ((w.votes + delta).toNat + 1)
  rw [← hq] at hdiv
  have htime : (S.adjusted w delta).virtualScheduledTime =
      if now + perVote (virtualScheduleLapLength2 - position) (w.votes + delta) < now then
        BitVec.allOnes 128
      else now + perVote (virtualScheduleLapLength2 - position) (w.votes + delta) := by
    simp only [Council.adjusted, lapCompletion, h2, h4, if_true, true_and, hposition, hnow]
  have hfields : (S.adjusted w delta).virtualPosition = position ∧
      (S.adjusted w delta).virtualLastUpdate = now ∧
      (S.adjusted w delta).votes = w.votes + delta := by
    rw [hposition, hnow]
    exact ⟨rfl, rfl, rfl⟩
  obtain ⟨hpos1, hlast1, hvotes1⟩ := hfields
  rw [← hnow]
  refine ⟨hlast1 ▸ BitVec.le_refl _, ?_, ?_⟩
  · rw [htime]
    split_ifs with hover
    · rw [BitVec.le_def, BitVec.toNat_allOnes]
      omega
    · exact BitVec.not_lt.mp hover
  · rw [hpos1, hlast1, hvotes1, htime]
    split_ifs with hover
    · -- the lap would end later than virtual time can tell
      rw [BitVec.lt_def, BitVec.toNat_add] at hover
      rw [BitVec.toNat_allOnes]
      have hle : 2 ^ 128 - 1 - now.toNat ≤
          (perVote (virtualScheduleLapLength2 - position) (w.votes + delta)).toNat := by
        by_contra hlt
        omega
      have hmul := Nat.mul_le_mul_left ((w.votes + delta).toNat + 1) hle
      omega
    · have hsum := add_toNat_lt hover
      rw [BitVec.toNat_add, Nat.mod_eq_of_lt hsum, Nat.add_sub_cancel_left]
      omega

end Lap

namespace Council

variable {S S' : Council}

/-! ### All laps -/

/-- The weight of all ballots for a witness. -/
def tally (S : Council) (name : AccountName) : Int :=
  S.ballots.sum fun k weight => if k.2 = name then (weight : Int) else 0

theorem tally_nonneg (S : Council) (name : AccountName) : 0 ≤ S.tally name := by
  refine sum_nonneg fun x hx => ?_
  obtain ⟨e, -, rfl⟩ := mem_map.mp hx
  dsimp only
  split
  · exact Int.natCast_nonneg _
  · exact le_rfl

/-- Shares and votes are in range, and the ballots are for witnesses. -/
structure Polled (S : Council) : Prop where
  shares : S.totalVestingShares < 2 ^ 63
  votes : ∀ name w, S.witnesses.find? name = some w → w.votes < 2 ^ 63
  known : ∀ voter name weight, S.ballots.find? (voter, name) = some weight →
    ∃ w, S.witnesses.find? name = some w

/-- The votes of every witness are its ballots. -/
def Tallied (S : Council) : Prop :=
  ∀ name w, S.witnesses.find? name = some w → w.votes = S.tally name

/-- The invariant of virtual time. -/
structure Race (S : Council) : Prop extends Polled S where
  tallied : S.HasHardfork 2 → S.Tallied
  laps : S.HasHardfork 4 → ∀ name w, S.witnesses.find? name = some w →
    w.OnTrack S.wso.currentVirtualTime

/-- A change of the witnesses that leaves the votes alone. -/
theorem Polled.related (hS : S.Polled) (hshares : S'.totalVestingShares = S.totalVestingShares)
    (hballots : S'.ballots = S.ballots)
    (hw : Table.Related (fun _ w w' => w'.votes = w.votes) S.witnesses S'.witnesses) :
    S'.Polled ∧ (S.Tallied → S'.Tallied) := by
  refine ⟨⟨hshares ▸ hS.shares, fun name w' hw' => ?_, fun voter name weight hballot => ?_⟩,
    fun htallied name w' hw' => ?_⟩
  · obtain ⟨w, hfind, hvotes⟩ := hw.before hw'
    rw [hvotes]
    exact hS.votes name w hfind
  · rw [hballots] at hballot
    obtain ⟨w, hfind⟩ := hS.known voter name weight hballot
    obtain ⟨w', hw', -⟩ := hw.after hfind
    exact ⟨w', hw'⟩
  · obtain ⟨w, hfind, hvotes⟩ := hw.before hw'
    rw [hvotes, tally, hballots]
    exact htallied name w hfind

variable {n : Nat} {name : AccountName}

/-- Edits of the witnesses keep the race. -/
theorem Race.edits (hS : S.Race) (h : S.Edits S') : S'.Race where
  shares := h.shares hS.shares
  votes name w' hw' := by
    rcases h.witnesses name w' hw' with ⟨w, hw, hstays⟩ | ⟨-, hfresh⟩
    · rw [hstays.votes]
      exact hS.votes name w hw
    · rw [hfresh.votes]
      decide
  known voter name weight hballot := by
    rw [h.ballots] at hballot
    obtain ⟨w, hw⟩ := hS.known voter name weight hballot
    exact h.known name w hw
  tallied h2 name w' hw' := by
    have htally : S'.tally name = S.tally name := by rw [tally, tally, h.ballots]
    rw [hasHardfork_congr h.processedHardforks] at h2
    rw [htally]
    rcases h.witnesses name w' hw' with ⟨w, hw, hstays⟩ | ⟨hnone, hfresh⟩
    · rw [hstays.votes]
      exact hS.tallied h2 name w hw
    rw [hfresh.votes]
    refine (sum_eq_zero fun x hx => ?_).symm
    obtain ⟨e, he, rfl⟩ := mem_map.mp hx
    refine if_neg fun hname => ?_
    obtain ⟨w, hw⟩ := hS.known e.1.1 name e.2 (Table.find?_eq_some.mpr (hname ▸ he))
    rw [hnone] at hw
    cases hw
  laps h4 name w' hw' := by
    rw [hasHardfork_congr h.processedHardforks] at h4
    rw [h.wso]
    rcases h.witnesses name w' hw' with ⟨w, hw, hstays⟩ | ⟨-, hfresh⟩
    · exact hstays.lap.onTrack hstays.votes (hS.laps h4 name w hw)
    · exact hfresh.onTrack _

/-- A recorded ballot counts for its witness. -/
theorem tally_recordBallot (S : Council) (voter name other : AccountName) (weight : Nat) :
    (S.recordBallot voter name weight).tally other =
      S.tally other + if name = other then (weight : Int) - S.ballot voter name else 0 := by
  unfold recordBallot tally ballot
  cases hf : S.ballots.find? (voter, name) with
  | none =>
    obtain ⟨ballots, hballots⟩ : ∃ ballots, S.ballots.insert (voter, name) weight =
      some ballots := by
      rw [Table.insert, dif_neg (Table.find?_eq_none.mp hf)]
      exact ⟨_, rfl⟩
    simp only [hballots, Option.getD_some, Option.getD_none, Table.sum_insert hballots]
    split <;> simp
  | some old =>
    have hnone : S.ballots.insert (voter, name) weight = none := by
      rw [Table.insert, dif_pos]
      by_contra hnot
      rw [Table.find?_eq_none.mpr hnot] at hf
      cases hf
    simp only [hnone, Option.getD_none, Option.getD_some, Table.sum_set hf]
    split <;> omega

theorem find?_recordBallot {S : Council} {voter : AccountName} {weight : Nat}
    {k : AccountName × AccountName} {v : Nat}
    (h : (S.recordBallot voter name weight).ballots.find? k = some v) :
    k = (voter, name) ∨ S.ballots.find? k = some v := by
  by_cases hk : k = (voter, name)
  · exact .inl hk
  refine .inr ?_
  simp only [recordBallot] at h
  cases hi : S.ballots.insert (voter, name) weight with
  | none =>
    rw [hi, Option.getD_none, Table.find?_set_of_ne hk] at h
    exact h
  | some ballots =>
    rw [hi, Option.getD_some, Table.find?_insert hi, if_neg hk] at h
    exact h

/-- A ballot moves its witness along the lap. -/
theorem Race.changeBallot {voter : AccountName} {weight : Nat} (hS : S.Race)
    (h : S.changeBallot voter name weight = .ok S') : S'.Race := by
  simp only [Council.changeBallot, returns] at h
  obtain ⟨S1, h1, rfl⟩ := h
  obtain ⟨w, hw, hle, -, rfl⟩ := adjustWitnessVote_eq h1
  have hshares := hS.shares
  have hfind : ∀ other v, (S.witnesses.set name (S.adjusted w (weight - S.ballot voter name))).find?
      other = some v → other = name ∧ v = S.adjusted w (weight - S.ballot voter name) ∨
        other ≠ name ∧ S.witnesses.find? other = some v := by
    intro other v hv
    rw [Table.find?_set hw] at hv
    split_ifs at hv with hname
    · exact .inl ⟨hname, (Option.some.inj hv).symm⟩
    · exact .inr ⟨hname, hv⟩
  have htally : ∀ other, ((S.setWitness name
    (S.adjusted w (weight - S.ballot voter name))).recordBallot
      voter name weight).tally other =
        S.tally other + if name = other then (weight : Int) - S.ballot voter name else 0 :=
    fun other => tally_recordBallot _ voter name other weight
  have hvotes : S.HasHardfork 2 → w.votes + (weight - S.ballot voter name) =
      ((S.setWitness name (S.adjusted w (weight - S.ballot voter name))).recordBallot voter name
        weight).tally name := by
    intro h2
    rw [htally, if_pos rfl, hS.tallied h2 name w hw]
  refine ⟨⟨hshares, ?_, ?_⟩, ?_, ?_⟩
  · intro other v hv
    rcases hfind other v hv with ⟨-, rfl⟩ | ⟨-, hv⟩
    · exact lt_of_le_of_lt hle hshares
    · exact hS.votes other v hv
  · intro voter' other weight' hballot
    have hexists : ∃ v, S.witnesses.find? other = some v := by
      rcases find?_recordBallot hballot with hk | hballot
      · rw [(Prod.mk.inj hk).2]
        exact ⟨w, hw⟩
      · exact hS.known voter' other weight' hballot
    obtain ⟨v, hv⟩ := hexists
    obtain ⟨v', hv', -⟩ := (Table.related_set (r := fun _ _ _ => True) hw trivial
      fun _ _ _ => trivial).after hv
    exact ⟨v', hv'⟩
  · intro h2 other v hv
    rcases hfind other v hv with ⟨rfl, rfl⟩ | ⟨hne, hv⟩
    · exact hvotes h2
    · rw [htally, if_neg (Ne.symm hne), add_zero]
      exact hS.tallied h2 other v hv
  · intro h4 other v hv
    rcases hfind other v hv with ⟨rfl, rfl⟩ | ⟨-, hv⟩
    · refine adjusted_onTrack ?_ (lt_of_le_of_lt hle hshares) h4
      rw [hvotes (hasHardfork_mono (by decide) h4)]
      exact tally_nonneg _ _
    · exact hS.laps h4 other v hv

/-! ### Rounds -/

/-- The order of the index `by_schedule_time`. -/
theorem pairwise_byScheduleTime (S : Council) : S.byScheduleTime.Pairwise fun e f =>
    e.2.virtualScheduledTime ≤ f.2.virtualScheduledTime := by
  have : Std.Total scheduledBefore := ⟨fun e f => by
    simp only [scheduledBefore, BitVec.lt_def, ← BitVec.toNat_inj]
    omega⟩
  have : IsTrans _ scheduledBefore := ⟨fun e f g => by
    simp only [scheduledBefore, BitVec.lt_def, ← BitVec.toNat_inj]
    omega⟩
  refine (pairwise_insertionSort scheduledBefore S.witnesses.entries).imp ?_
  intro e f h
  simp only [scheduledBefore, BitVec.lt_def, ← BitVec.toNat_inj] at h
  rw [BitVec.le_def]
  omega

variable {w : Witness}

/-- The witnesses that are not processed are scheduled after the new virtual time. -/
theorem newVirtualTime_le
    (hw : S.witnesses.find? name = some w) (hnot : name ∉ S.processedWitnesses.map Prod.fst)
    (hnow : S.wso.currentVirtualTime ≤ w.virtualScheduledTime) :
    S.newVirtualTime ≤ w.virtualScheduledTime := by
  unfold newVirtualTime
  cases hlast : S.processedWitnesses.getLast? with
  | none => exact hnow
  | some e =>
    obtain ⟨rest, hrest⟩ : S.processedWitnesses <+: S.byScheduleTime := isPrefix_takeQuota _ _
    have hmem : (name, w) ∈ S.byScheduleTime :=
      (mem_insertionSort scheduledBefore).mpr (Table.find?_eq_some.mp hw)
    have hafter : (name, w) ∈ rest := by
      rw [← hrest] at hmem
      rcases mem_append.mp hmem with hmem | hmem
      · exact absurd (mem_map_of_mem (f := Prod.fst) hmem) hnot
      · exact hmem
    have hpairwise := S.pairwise_byScheduleTime
    rw [← hrest] at hpairwise
    exact (pairwise_append.mp hpairwise).2.2 e (mem_of_getLast? hlast) _ hafter

/-- Virtual time does not go back to advance to the processed witnesses. -/
theorem le_newVirtualTime (h : ∀ name w, S.witnesses.find? name = some w →
    S.wso.currentVirtualTime ≤ w.virtualScheduledTime) :
    S.wso.currentVirtualTime ≤ S.newVirtualTime := by
  unfold newVirtualTime
  cases hlast : S.processedWitnesses.getLast? with
  | none => exact BitVec.le_refl _
  | some e =>
    exact h e.1 e.2 (S.selection_byScheduleTime.find e
      ((isPrefix_takeQuota _ _).subset (mem_of_getLast? hlast)))

/-- From hardfork 2 on no votes are negative. -/
theorem Race.nonneg (hS : S.Race) (h2 : S.HasHardfork 2)
    (hw : S.witnesses.find? name = some w) : 0 ≤ w.votes := by
  rw [hS.tallied h2 name w hw]
  exact S.tally_nonneg name

/-- The selected witnesses start the lap at the new time. -/
theorem Race.rescheduled (hS : S.Race) (h4 : S.HasHardfork 4) (h : S.Rescheduled S') : S'.Race := by
  have h2 : S.HasHardfork 2 := hasHardfork_mono (by decide) h4
  obtain ⟨hpolled, htallied⟩ := hS.toPolled.related h.course.totalVestingShares h.course.ballots
    (h.laps.mono fun _ _ _ hlap => hlap.1.votes)
  refine ⟨hpolled, fun _ => htallied (hS.tallied h2), ?_⟩
  intro _ name w' hw'
  obtain ⟨w, hw, halike, hlap⟩ := h.laps.before hw'
  rw [h.virtualTime, nextVirtualTime]
  by_cases hover : S.Overflows
  · rw [if_pos hover] at hlap ⊢
    refine hlap.onTrack_zero ?_ ?_
    · rw [halike.votes]
      exact hS.nonneg h2 hw
    · rw [halike.votes]
      exact hS.votes name w hw
  · rw [if_neg hover] at hlap ⊢
    by_cases hmem : name ∈ S.processedWitnesses.map Prod.fst
    · rw [if_pos hmem] at hlap
      obtain ⟨e, he, rfl⟩ := mem_map.mp hmem
      cases (S.selection_byScheduleTime.find e ((isPrefix_takeQuota _ _).subset he)).symm.trans hw
      refine hlap.onTrack ?_ ?_ ?_ <;> rw [halike.votes]
      · exact hS.nonneg h2 hw
      · exact hS.votes e.1 e.2 hw
      · exact add_toNat_lt fun hlt => hover ⟨e, he, hlt⟩
    rw [if_neg hmem] at hlap
    have htrack := hS.laps h4 name w hw
    refine hlap.onTrack halike.votes ⟨?_, ?_, htrack.lap⟩
    · have hnow := le_newVirtualTime fun name w hw => (hS.laps h4 name w hw).scheduledTime
      exact BitVec.le_trans htrack.lastUpdate hnow
    · exact newVirtualTime_le hw hmem htrack.scheduledTime

/-- Every schedule keeps the race. -/
theorem Race.updateWitnessSchedule (hS : S.Race) (hsound : S.Sound)
    (h : S.updateWitnessSchedule = .ok S') : S'.Race := by
  unfold Council.updateWitnessSchedule at h
  split at h
  · split_ifs at h with h4
    · exact hS.rescheduled h4 (updateWitnessSchedule4_rescheduled h)
    obtain ⟨T, active, hT, hround⟩ := hsound.earlyRound h4
    rw [hT] at h
    cases h
    obtain ⟨hpolled, htallied⟩ := hS.toPolled.related hround.course.totalVestingShares
      hround.course.ballots (hround.witnesses.mono fun _ _ _ hbid => hbid.votes)
    have hfork := hasHardfork_congr hround.course.processedHardforks
    exact ⟨hpolled, fun h => htallied (hS.tallied ((hfork 2).mp h)),
      fun h => absurd ((hfork 4).mp h) h4⟩
  · cases h
    exact hS

/-! ### Hardforks -/

/-- The ballots of a list for a witness. -/
def listTally (l : List ((AccountName × AccountName) × Nat)) (name : AccountName) : Int :=
  (l.map fun e => if e.1.2 = name then (e.2 : Int) else 0).sum

/-- A loop over ballots adds their weights to the votes of their witnesses. -/
structure Counted (l : List ((AccountName × AccountName) × Nat)) (S S' : Council) : Prop where
  shares : S'.totalVestingShares = S.totalVestingShares
  ballots : S'.ballots = S.ballots
  votes : Table.Related (fun name w w' => w'.votes = w.votes + listTally l name)
    S.witnesses S'.witnesses

theorem counted_adjustWitnessVote {e : (AccountName × AccountName) × Nat}
    (h : S.adjustWitnessVote e.1.2 e.2 = .ok S') : Counted [e] S S' := by
  obtain ⟨w, hw, -, -, rfl⟩ := adjustWitnessVote_eq h
  refine ⟨rfl, rfl, Table.related_set hw ?_ ?_⟩
  · simp [listTally, adjusted]
  · intro name v hne
    simp [listTally, Ne.symm hne]

/-- The loop over the ballots counts each of them. -/
theorem counted_forEach {l : List ((AccountName × AccountName) × Nat)}
    (h : forEach (fun e S => S.adjustWitnessVote e.1.2 e.2) l S = .ok S') : Counted l S S' := by
  induction l generalizing S with
  | nil =>
    simp only [forEach] at h
    cases h
    exact ⟨rfl, rfl, Table.related_refl _ fun _ _ => by simp [listTally]⟩
  | cons e l ih =>
    simp only [forEach, returns] at h
    obtain ⟨S1, h1, h⟩ := h
    have hfirst := counted_adjustWitnessVote h1
    have hrest := ih h
    refine ⟨hrest.shares.trans hfirst.shares, hrest.ballots.trans hfirst.ballots,
      hfirst.votes.trans hrest.votes fun name w w1 w' hw1 hw' => ?_⟩
    rw [hw', hw1]
    simp only [listTally, map_cons, map_nil, sum_cons, sum_nil]
    omega

/-- What the effects of a hardfork must establish. -/
structure RaceAfter (n : Nat) (S : Council) : Prop extends Polled S where
  tallied : 2 ≤ n → S.Tallied
  laps : 4 ≤ n → ∀ name w, S.witnesses.find? name = some w → w.OnTrack S.wso.currentVirtualTime

/-- After the retally the votes are those of the ballots. -/
theorem Race.retally (hS : S.Race) (hn : n < 4) (h : S.retallyWitnessVotes = .ok S') :
    RaceAfter n S' := by
  have hcounted := counted_forEach h
  have hzero : ∀ name w0, (S.witnesses.map fun w => { w with
      votes := 0, virtualPosition := 0 }).find? name = some w0 →
      w0.votes = 0 ∧ ∃ w, S.witnesses.find? name = some w := by
    intro name w0 hw0
    rw [Table.find?_map, Option.map_eq_some_iff] at hw0
    obtain ⟨w, hw, rfl⟩ := hw0
    exact ⟨rfl, w, hw⟩
  refine ⟨⟨hcounted.shares ▸ hS.shares, ?_, ?_⟩, ?_, fun h4 => by omega⟩
  · -- votes stay below the bound of the vesting shares
    have hkept := forEach_invariant (P := fun T : Council => T.totalVestingShares < 2 ^ 63 ∧
      ∀ name w, T.witnesses.find? name = some w → w.votes < 2 ^ 63) ?_ ?_ h
    · exact hkept.2
    · rintro e - T T' ⟨hshares, hvotes⟩ hadjust
      obtain ⟨w, hw, hle, -, rfl⟩ := adjustWitnessVote_eq hadjust
      refine ⟨hshares, fun name v hv => ?_⟩
      rw [setWitness, Table.find?_set hw] at hv
      split at hv
      · rw [← Option.some.inj hv]
        exact lt_of_le_of_lt hle hshares
      · exact hvotes name v hv
    · refine ⟨hS.shares, fun name w hw => ?_⟩
      rw [(hzero name w hw).1]
      decide
  · intro voter name weight hballot
    rw [hcounted.ballots] at hballot
    obtain ⟨w, hw⟩ := hS.known voter name weight hballot
    obtain ⟨w', hw', -⟩ := hcounted.votes.after
      ((Table.find?_map _ _ _).trans (congrArg (Option.map _) hw))
    exact ⟨w', hw'⟩
  · intro _ name w' hw'
    obtain ⟨w0, hw0, hvotes⟩ := hcounted.votes.before hw'
    rw [hvotes, (hzero name w0 hw0).1, zero_add, tally, hcounted.ballots]
    rfl

/-- A change of the witnesses that leaves votes and laps alone. -/
theorem Race.related (hS : S.Race) (hprocessed : S'.processedHardforks = S.processedHardforks)
    (hshares : S'.totalVestingShares = S.totalVestingShares) (hballots : S'.ballots = S.ballots)
    (htime : S'.wso.currentVirtualTime = S.wso.currentVirtualTime)
    (hw : Table.Related (fun _ w w' => w'.votes = w.votes ∧ w.SameLap w')
      S.witnesses S'.witnesses) : S'.Race := by
  obtain ⟨hpolled, htallied⟩ := hS.toPolled.related hshares hballots (hw.mono fun _ _ _ h => h.1)
  have hfork := hasHardfork_congr hprocessed
  refine ⟨hpolled, fun h => htallied (hS.tallied ((hfork 2).mp h)), fun h name w' hw' => ?_⟩
  obtain ⟨w, hfind, hvotes, hlap⟩ := hw.before hw'
  rw [htime]
  exact hlap.onTrack hvotes (hS.laps ((hfork 4).mp h) name w hfind)

theorem Race.raiseFees (hS : S.Race) (h : S.raiseFees = .ok S') : S'.Race := by
  simp only [Council.raiseFees, returns, exists_const] at h
  obtain ⟨-, -, rfl⟩ := h
  refine hS.related rfl rfl rfl rfl (Table.related_mapWithKey _ fun name w _ => ?_)
  split
  · exact ⟨rfl, rfl, rfl, rfl⟩
  · exact ⟨rfl, .refl w⟩

theorem Race.after (hS : S.Race) (hlength : S.processedHardforks.length = n)
    (hn : n ≠ 2 ∧ n ≠ 4) : RaceAfter n S where
  toPolled := hS.toPolled
  tallied h := hS.tallied (by unfold HasHardfork; omega)
  laps h := hS.laps (by unfold HasHardfork; omega)

/-- The effects of a hardfork keep the race. -/
theorem Race.effects (hS : S.Race) (hlength : S.processedHardforks.length = n)
    (h : S.hardforkEffects n = .ok S') : RaceAfter n S' := by
  unfold hardforkEffects at h
  split at h
  · rename_i hn
    simp only [performVestingShareSplit, returns, exists_const] at h
    obtain ⟨hshares, rfl⟩ := h
    refine ⟨⟨hshares, hS.votes, ?_⟩, fun h => by omega, fun h => by omega⟩
    intro voter name weight hballot
    rw [Table.find?_map, Option.map_eq_some_iff] at hballot
    obtain ⟨old, hold, -⟩ := hballot
    exact hS.known voter name old hold
  split at h
  · exact hS.retally (by omega) h
  split at h
  · rename_i hn
    obtain rfl := resetVirtualScheduleTime_eq h
    have h2 : S.HasHardfork 2 := by
      unfold HasHardfork
      omega
    obtain ⟨hpolled, htallied⟩ : Polled { S with witnesses := S.witnesses.map (startLap 0) } ∧ _ :=
      hS.toPolled.related rfl rfl (Table.related_map _ fun _ _ _ => rfl)
    refine ⟨⟨hS.shares, hpolled.votes, hpolled.known⟩, fun _ => htallied (hS.tallied h2), ?_⟩
    intro _ name w' hw'
    rw [Table.find?_map, Option.map_eq_some_iff] at hw'
    obtain ⟨w, hw, rfl⟩ := hw'
    have hpos : 0 ≤ w.votes := hS.nonneg h2 hw
    exact (startLap_starts 0 w).onTrack_zero hpos (hS.votes name w hw)
  split at h
  · rename_i hn
    cases h
    have hafter := hS.after hlength (by omega)
    exact ⟨⟨hafter.shares, hafter.votes, hafter.known⟩, hafter.tallied, hafter.laps⟩
  split at h
  · rename_i hn
    refine (hS.raiseFees h).after ?_ (by omega)
    rw [(keeps_raiseFees h).processedHardforks, hlength]
  · rename_i h1 h₂ h4 _ _
    cases h
    exact hS.after hlength (by omega)

/-- A hardfork keeps the race. -/
theorem Race.applyHardfork (hS : S.Race) (h : S.applyHardfork n = .ok S') : S'.Race := by
  obtain ⟨S1, h1, -, hlength, rfl⟩ := applyHardfork_eq h
  have hafter := hS.effects hlength h1
  have hprocessed := (keeps_hardforkEffects h1).processedHardforks
  refine ⟨⟨hafter.shares, hafter.votes, hafter.known⟩, fun h2 => hafter.tallied ?_,
    fun h4 => hafter.laps ?_⟩
  · unfold HasHardfork at h2
    rw [hprocessed, length_append, hlength] at h2
    exact Nat.le_of_lt_succ h2
  · unfold HasHardfork at h4
    rw [hprocessed, length_append, hlength] at h4
    exact Nat.le_of_lt_succ h4

/-- Every step keeps the race. -/
theorem Race.step (hS : S.Race) (hsound : S.Sound) {step : WitnessStep}
    (h : StepEffect step S S') : S'.Race := by
  cases h with
  | edits h => exact hS.edits h
  | ballot voter name weight h => exact hS.changeBallot h
  | round _ h => exact hS.updateWitnessSchedule hsound h
  | hardforks h =>
    exact processHardforks_invariant (fun _ _ hS h => Race.applyHardfork hS h) hS h
  | firstBlock timestamp h =>
    refine genesisHardforks_invariant (fun n T T' hT h => ?_) (fun T n time hT => ?_) hS h
    · obtain ⟨times, next, time, h, -⟩ := setHardfork_eq h
      have hset : { T with
          hardforkTimes := times
          nextHardfork := next
          nextHardforkTime := time }.Race :=
        ⟨⟨hT.shares, hT.votes, hT.known⟩, hT.tallied, hT.laps⟩
      exact hset.applyHardfork h
    · exact hT.related rfl rfl rfl rfl (Table.related_map _ fun _ _ _ => ⟨rfl, rfl, rfl, rfl⟩)

theorem race_genesis : genesis.Race where
  shares := by decide
  votes name w h := by
    rw [find?_genesis h]
    decide
  known _ _ _ h := by cases h
  tallied h := absurd h (by decide)
  laps h := absurd h (by decide)

/-- Every run keeps the race. -/
theorem run_race (steps : List WitnessStep) : (genesis.run steps).Race :=
  (run_invariant (P := fun S => S.Sound ∧ S.Race)
    (fun _ _ _ hS h => ⟨hS.1.step h, hS.2.step hS.1 h⟩) steps ⟨sound_genesis, race_genesis⟩).2

/-! ### The course of virtual time -/

/-- The hardforks after the fourth leave virtual time alone. -/
theorem applyHardfork_virtualTime (h4 : S.HasHardfork 4) (h : S.applyHardfork n = .ok S') :
    S'.HasHardfork 4 ∧ S'.wso.currentVirtualTime = S.wso.currentVirtualTime := by
  obtain ⟨S1, h1, -, hlength, rfl⟩ := applyHardfork_eq h
  have hprocessed := (keeps_hardforkEffects h1).processedHardforks
  unfold HasHardfork at h4
  refine ⟨?_, ?_⟩
  · unfold HasHardfork
    rw [hprocessed, length_append]
    omega
  · unfold hardforkEffects at h1
    rw [if_neg (by omega), if_neg (by omega), if_neg (by omega)] at h1
    split at h1
    · cases h1
      rfl
    split at h1
    · simp only [Council.raiseFees, returns, exists_const] at h1
      obtain ⟨-, -, rfl⟩ := h1
      rfl
    · cases h1
      rfl

/-- A step after hardfork 4 advances virtual time, or resets it because it overflows. -/
theorem virtualTime_step (hS : S.Race) (h4 : S.HasHardfork 4) {step : WitnessStep}
    (h : StepEffect step S S') : S.wso.currentVirtualTime ≤ S'.wso.currentVirtualTime ∨
      S.Overflows ∧ S'.wso.currentVirtualTime = 0 := by
  cases h with
  | edits h =>
    rw [h.wso]
    exact .inl (BitVec.le_refl _)
  | ballot voter name weight h =>
    simp only [changeBallot, returns] at h
    obtain ⟨S1, h1, rfl⟩ := h
    refine .inl (BitVec.le_of_eq ?_)
    obtain ⟨w, -, -, -, rfl⟩ := adjustWitnessVote_eq h1
    rfl
  | round _ h =>
    unfold Council.updateWitnessSchedule at h
    split at h
    · have hre := updateWitnessSchedule4_rescheduled h
      rw [hre.virtualTime, nextVirtualTime]
      split_ifs with hover
      · exact .inr ⟨hover, rfl⟩
      · exact .inl (le_newVirtualTime fun name w hw => (hS.laps h4 name w hw).scheduledTime)
    · rw [Except.ok.injEq] at h
      exact .inl (h ▸ BitVec.le_refl _)
  | hardforks h =>
    have hkept := processHardforks_invariant (P := fun T => T.HasHardfork 4 ∧
      T.wso.currentVirtualTime = S.wso.currentVirtualTime) ?_ ⟨h4, rfl⟩ h
    · exact .inl (BitVec.le_of_eq hkept.2.symm)
    · rintro T T' ⟨h4, htime⟩ happly
      obtain ⟨h4', htime'⟩ := applyHardfork_virtualTime h4 happly
      exact ⟨h4', htime'.trans htime⟩
  | firstBlock timestamp h =>
    have hkept := genesisHardforks_invariant (P := fun T => T.HasHardfork 4 ∧
      T.wso.currentVirtualTime = S.wso.currentVirtualTime) ?_ (fun _ _ _ hT => hT) ⟨h4, rfl⟩ h
    · exact .inl (BitVec.le_of_eq hkept.2.symm)
    rintro n T T' ⟨h4, htime⟩ hset
    obtain ⟨times, next, time, happly, -⟩ := setHardfork_eq hset
    have hbefore : { T with
        hardforkTimes := times
        nextHardfork := next
        nextHardforkTime := time }.HasHardfork 4 := h4
    obtain ⟨h4', htime'⟩ := applyHardfork_virtualTime hbefore happly
    exact ⟨h4', htime'.trans htime⟩

/-- In every reachable council after hardfork 4 no witness is scheduled in the past, no position
runs past the end of its lap, and the next step advances virtual time or resets it because it
overflows. -/
theorem run_virtualTime (steps : List WitnessStep) (h4 : (genesis.run steps).HasHardfork 4) :
    (∀ name w, (genesis.run steps).witnesses.find? name = some w →
      (genesis.run steps).wso.currentVirtualTime ≤ w.virtualScheduledTime ∧
      w.virtualPosition.toNat + w.votes.toNat *
        ((genesis.run steps).wso.currentVirtualTime.toNat - w.virtualLastUpdate.toNat) ≤
        virtualScheduleLapLength2.toNat) ∧
    ∀ step, (genesis.run steps).wso.currentVirtualTime ≤
        ((genesis.run steps).afterStep step).wso.currentVirtualTime ∨
      (genesis.run steps).Overflows ∧
        ((genesis.run steps).afterStep step).wso.currentVirtualTime = 0 := by
  have hS := run_race steps
  generalize genesis.run steps = S at hS h4
  refine ⟨fun name w hw => ?_, fun step => ?_⟩
  · have htrack := hS.laps h4 name w hw
    refine ⟨htrack.scheduledTime, ?_⟩
    have hsched := BitVec.le_def.mp htrack.scheduledTime
    have hlap := htrack.lap
    have hle : w.votes.toNat * (S.wso.currentVirtualTime.toNat - w.virtualLastUpdate.toNat) ≤
        (w.votes.toNat + 1) * (w.virtualScheduledTime.toNat - w.virtualLastUpdate.toNat) :=
      Nat.mul_le_mul (Nat.le_succ _) (by omega)
    rw [toNat_lapLength2]
    omega
  · unfold afterStep
    split
    · rename_i S' h
      exact virtualTime_step hS h4 (stepEffect_of_apply h)
    · exact .inl (BitVec.le_refl _)

/-- A round of two witnesses with votes, after which one of them loses votes. -/
def afterVotes : Council :=
  genesis.run (firstRound 1540000000 [.setTotalVestingShares 5000, .witnessUpdate 10 (some 7) {},
      .changeBallot 5 10 1000, .changeBallot 5 2 999] ++
    [.updateWitnessSchedule, .changeBallot 5 10 400])

theorem run_virtualTime_afterVotes : afterVotes.HasHardfork 4 ∧
    0 < afterVotes.wso.currentVirtualTime ∧
    ∃ w, afterVotes.witnesses.find? 10 = some w ∧ w.votes = 400 ∧
      afterVotes.wso.currentVirtualTime < w.virtualScheduledTime ∧
      afterVotes.wso.currentVirtualTime ≤
        (afterVotes.afterStep (.changeBallot 5 2 2000)).wso.currentVirtualTime := by
  have h4 : afterVotes.HasHardfork 4 := by decide +kernel
  have hmoved : 0 < afterVotes.wso.currentVirtualTime := by decide +kernel
  have hvotes : (afterVotes.witnesses.find? 10).map (fun w => (w.votes,
      decide (afterVotes.wso.currentVirtualTime ≠ w.virtualScheduledTime))) = some (400, true) := by
    decide +kernel
  have hsame : ¬ afterVotes.Overflows := by decide +kernel
  obtain ⟨w, hw, hvotes⟩ := Option.map_eq_some_iff.mp hvotes
  obtain ⟨hvotes, hahead⟩ := Prod.mk.inj hvotes
  unfold afterVotes at *
  obtain ⟨hbehind, htime⟩ := run_virtualTime _ h4
  refine ⟨h4, hmoved, w, hw, hvotes, ?_, ?_⟩
  · exact BitVec.lt_of_le_ne (hbehind 10 w hw).1 (of_decide_eq_true hahead)
  · exact (htime (.changeBallot 5 2 2000)).resolve_right fun h => hsame h.1

end Council

end Freezone.Chain.Witnesses
