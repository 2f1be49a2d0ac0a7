import Freezone.Chain.Witnesses.Soundness

/-!
# Rounds

Every update of the schedule keeps the council sound. It returns if and only if
enough witnesses have a signing key, and the schedule it writes then holds distinct
witnesses with keys, among them the highest voted ones.
-/

namespace Freezone.Chain.Witnesses.Council

open Protocol NthElement List Table
open Funds (AccountName)

variable {S S' : Council}

/-! ### The medians -/

/-- The median of some values is one of them. -/
theorem exists_median {α : Type} [LinearOrder α] {values : List α} (h : values ≠ []) :
    ∃ a ∈ values, median values = .ok a := by
  have hpos := length_pos_of_ne_nil h
  obtain ⟨a, ha⟩ := exists_nthElement (l := values) (k := values.length / 2) (by omega)
  exact ⟨a, mem_of_nthElement ha, orThrow_eq_ok.mpr ha⟩

theorem exists_median_map {α : Type} [LinearOrder α] {active : List Witness} (h : active ≠ [])
    (f : Witness → α) : ∃ w ∈ active, median (active.map f) = .ok (f w) := by
  have hmap : active.map f ≠ [] := by simpa using h
  obtain ⟨a, ha, hmedian⟩ := exists_median hmap
  obtain ⟨w, hw, rfl⟩ := mem_map.mp ha
  exact ⟨w, hw, hmedian⟩

/-- Slots with known witnesses give the scheduled witnesses. -/
theorem exists_scheduledWitnesses
    (hslots : ∀ i < S.wso.numScheduledWitnesses,
      ∃ w, (S.shuffledAt i).bind S.witnesses.find? = some w) :
    ∃ active, S.scheduledWitnesses = .ok active ∧
      active.length = S.wso.numScheduledWitnesses ∧
      ∀ w ∈ active, ∃ name, S.witnesses.find? name = some w := by
  have hall : ∀ l : List Nat, (∀ i ∈ l, ∃ w, (S.shuffledAt i).bind S.witnesses.find? = some w) →
      ∃ active, Forall₂ (fun i w => (S.shuffledAt i).bind S.witnesses.find? = some w) l active ∧
        ∀ w ∈ active, ∃ name, S.witnesses.find? name = some w := by
    intro l hl
    induction l with
    | nil => exact ⟨[], .nil, by simp⟩
    | cons i l ih =>
      obtain ⟨w, hw⟩ := hl i mem_cons_self
      obtain ⟨active, hactive, hnames⟩ := ih fun j hj => hl j (mem_cons_of_mem _ hj)
      refine ⟨w :: active, .cons hw hactive, ?_⟩
      rintro v (_ | ⟨_, hv⟩)
      · obtain ⟨name, -, hname⟩ := Option.bind_eq_some_iff.mp hw
        exact ⟨name, hname⟩
      · exact hnames v hv
  obtain ⟨active, hactive, hnames⟩ := hall (range S.wso.numScheduledWitnesses)
    fun i hi => hslots i (mem_range.mp hi)
  refine ⟨active, scheduledWitnesses_eq_ok.mpr hactive, ?_, hnames⟩
  rw [← hactive.length_eq, length_range]

/-- The medians of valid properties can be computed. -/
theorem exists_updateMedianWitnessProps
    (hslots : ∀ i < S.wso.numScheduledWitnesses,
      ∃ w, (S.shuffledAt i).bind S.witnesses.find? = some w)
    (hpos : 0 < S.wso.numScheduledWitnesses)
    (hvalid : ∀ name w, S.witnesses.find? name = some w → w.Valid) :
    ∃ S', S.updateMedianWitnessProps = .ok S' := by
  obtain ⟨active, hactive, hlength, hnames⟩ := exists_scheduledWitnesses hslots
  have hne : active ≠ [] := ne_nil_of_length_pos (by omega)
  have hbounds : ∀ w ∈ active, rdValidateUserParams w.subsidyParams = .ok () := by
    intro w hw
    obtain ⟨name, hname⟩ := hnames w hw
    exact hvalid name w hname
  obtain ⟨wf, -, hfee⟩ := exists_median_map hne fun w => w.props.accountCreationFee
  obtain ⟨ws, -, hsize⟩ := exists_median_map hne fun w => w.props.maximumBlockSize
  obtain ⟨wr, -, hrate⟩ := exists_median_map hne fun w => w.props.sbdInterestRate
  obtain ⟨wb, hwb, hbudget⟩ := exists_median_map hne fun w => w.props.accountSubsidyBudget
  obtain ⟨wd, hwd, hdecay⟩ := exists_median_map hne fun w => w.props.accountSubsidyDecay
  obtain ⟨wa, -, havailable⟩ := exists_median_map hne fun w => w.availableWitnessAccountSubsidies
  -- the medians are bids of two witnesses, each within its bounds
  have hparams : rdValidateUserParams
      ⟨wb.props.accountSubsidyBudget, wd.props.accountSubsidyDecay⟩ = .ok () := by
    obtain ⟨hmin, hmax, -, -⟩ := rdValidateUserParams_eq_ok.mp (hbounds wb hwb)
    obtain ⟨-, -, hlow, hhigh⟩ := rdValidateUserParams_eq_ok.mp (hbounds wd hwd)
    exact rdValidateUserParams_eq_ok.mpr ⟨hmin, hmax, hlow, hhigh⟩
  have hrd := rdSetupDynamicsParams_eq_ok (RdUserParams.sound_of_valid hparams)
    (s := ({} : RdSystemParams)) rfl
  have hwitnessRd := rdSetupDynamicsParams_eq_ok (perWitnessParams_sound hparams)
    (s := ({} : RdSystemParams)) rfl
  simp only [updateMedianWitnessProps, returns]
  exact ⟨_, active, hactive, _, hfee, _, hsize, _, hrate, _, hbudget, _, hdecay, _, havailable, (),
    hparams, _, hrd, _, hwitnessRd, rfl⟩

/-! ### The schedule that is written -/

variable {active : List AccountName} {name : AccountName} {w : Witness} {single : Bool}
  {queue : List AccountName}

/-- What a round leaves alone in a witness. -/
structure SameBid (w w' : Witness) : Prop where
  votes : w'.votes = w.votes
  props : w'.props = w.props

theorem SameBid.refl (w : Witness) : SameBid w w := ⟨rfl, rfl⟩

/-- The slots that a round writes hold known witnesses. -/
theorem Writes.slots (h : Writes active S S')
    (hpos : 0 < active.length) (hmax : active.length ≤ maxWitnesses)
    (hknown : ∀ name ∈ active, ∃ w, S.witnesses.find? name = some w)
    (hw : Table.Related (fun _ => SameBid) S.witnesses S'.witnesses) :
    ∀ i < S'.wso.numScheduledWitnesses,
      ∃ w, (S'.shuffledAt i).bind S'.witnesses.find? = some w := by
  obtain ⟨hcount, σ, hσ, hshuffled⟩ := h.exists_perm hpos
  intro i hi
  rw [hcount] at hi
  have hplace : (σ ⟨i, by omega⟩ : Nat) < active.length := (hσ ⟨i, by omega⟩).mpr hi
  obtain ⟨w, hfind⟩ := hknown _ (List.getElem_mem hplace)
  obtain ⟨w', hw', -⟩ := hw.after hfind
  refine ⟨w', ?_⟩
  rw [shuffledAt, dif_pos (by omega), hshuffled, List.getElem?_eq_getElem hplace]
  exact hw'

theorem Sound.valid_related (hS : S.Sound)
    (hw : Table.Related (fun _ => SameBid) S.witnesses S'.witnesses) :
    ∀ name w', S'.witnesses.find? name = some w' → w'.Valid := by
  intro name w' hw'
  obtain ⟨w, hfind, hbid⟩ := hw.before hw'
  unfold Witness.Valid Witness.subsidyParams
  rw [hbid.props]
  exact hS.valid name w hfind

/-- The medians of a written schedule can be computed. -/
theorem Sound.exists_medians (hS : S.Sound) (h : Writes active S S')
    (hpos : 0 < active.length) (hmax : active.length ≤ maxWitnesses)
    (hknown : ∀ name ∈ active, ∃ w, S.witnesses.find? name = some w)
    (hw : Table.Related (fun _ => SameBid) S.witnesses S'.witnesses) :
    ∃ S'', S'.updateMedianWitnessProps = .ok S'' := by
  refine exists_updateMedianWitnessProps (h.slots hpos hmax hknown hw) ?_ (hS.valid_related hw)
  rw [h.count]
  omega

/-- A round that writes active witnesses keeps the council sound. -/
theorem Sound.writes (hS : S.Sound) (h : Writes active S S')
    (hpos : 0 < active.length) (hmax : active.length ≤ maxWitnesses)
    (hknown : ∀ name ∈ active, ∃ w, S.witnesses.find? name = some w)
    (hcourse : S.SameCourse S') (hw : Table.Related (fun _ => SameBid) S.witnesses S'.witnesses)
    (hqueue : ¬ S'.HasHardfork 4 → S'.queueExcess = 0) : S'.Sound where
  nonempty := by
    obtain ⟨name, w, hw'⟩ := hS.nonempty
    obtain ⟨w', hw', -⟩ := hw.after hw'
    exact ⟨name, w', hw'⟩
  votes name w' hw' := by
    obtain ⟨w, hfind, hbid⟩ := hw.before hw'
    rw [hbid.votes]
    exact hS.votes name w hfind
  valid := hS.valid_related hw
  slots := h.slots hpos hmax hknown hw
  count_pos := by
    rw [h.count]
    omega
  quota := by
    rw [hcourse.maxVotedWitnesses, hcourse.maxMinerWitnesses]
    exact hS.quota
  queue := hqueue

theorem Sound.entries_pos (hS : S.Sound) : 0 < S.witnesses.entries.length := by
  obtain ⟨name, w, hw⟩ := hS.nonempty
  exact length_pos_of_mem (find?_eq_some.mp hw)

/-- A round leaves the council sound. -/
theorem Sound.rescheduled (hS : S.Sound) (h4 : S.HasHardfork 4) (h : S.Rescheduled S') :
    S'.Sound := by
  have hentries := hS.entries_pos
  have hlength := h.active_length
  have hlt : 0 < maxWitnesses := by decide
  refine hS.writes h.writes (by omega) (by omega)
    (fun name hname => (mem_activeWitnesses hname).imp fun _ hw => hw.1) h.course
    (h.laps.mono fun _ _ _ hlap => ⟨hlap.1.votes, hlap.1.props⟩) fun hnot => absurd ?_ hnot
  exact (hasHardfork_congr h.course.processedHardforks 4).mpr h4

/-! ### Rounds before hardfork 4 -/

/-- A change of the witnesses and of the counter of the mining queue that keeps it right. -/
structure Shifts (S S' : Council) : Prop where
  unchanged : ∃ witnesses count,
    S' = { S with witnesses := witnesses, numPowWitnesses := count }
  witnesses : Table.Related (fun _ => SameBid) S.witnesses S'.witnesses
  queue : S'.queueExcess = S.queueExcess

theorem Shifts.refl (S : Council) : S.Shifts S :=
  ⟨⟨_, _, rfl⟩, related_refl _ fun _ w => .refl w, rfl⟩

theorem Shifts.trans {S'' : Council} (h : S.Shifts S') (h' : S'.Shifts S'') : S.Shifts S'' := by
  refine ⟨?_, h.witnesses.trans h'.witnesses fun _ _ _ _ h h' => ?_, h'.queue.trans h.queue⟩
  swap
  · exact ⟨h'.votes.trans h.votes, h'.props.trans h.props⟩
  obtain ⟨witnesses, count, rfl⟩ := h.unchanged
  obtain ⟨witnesses', count', rfl⟩ := h'.unchanged
  exact ⟨witnesses', count', rfl⟩

/-- One witness changes, and the counter with its place in the queue. -/
theorem shifts_setWitness {w' : Witness}
    (hw : S.witnesses.find? name = some w) (hbid : SameBid w w') {count : Nat}
    (hcount : (count : Int) = S.numPowWitnesses - mines w + mines w') :
    S.Shifts { S.setWitness name w' with numPowWitnesses := count } := by
  refine ⟨⟨_, _, rfl⟩, related_set hw hbid fun _ v _ => .refl v, ?_⟩
  simp only [queueExcess, setWitness, total_set hw]
  omega

theorem shifts_modifyWitnesses (S : Council) (names : List AccountName) {f : Witness → Witness}
    (hf : ∀ w, SameBid w (f w)) (hpow : ∀ w, (f w).powWorker = w.powWorker) :
    S.Shifts (S.modifyWitnesses names f) := by
  refine ⟨⟨_, _, rfl⟩, related_mapWithKey _ fun name w _ => ?_, ?_⟩
  · split
    · exact hf w
    · exact .refl w
  · have htotal := S.witnesses.total_mapWithKey_eq (f := mines)
      (g := fun name w => if name ∈ names then f w else w) fun name w => by
        split
        · rw [mines, mines, hpow]
        · rfl
    simp only [queueExcess, modifyWitnesses, htotal]

theorem mem_topVoted (h : name ∈ S.topVoted) : ∃ w, S.witnesses.find? name = some w := by
  obtain ⟨e, he, rfl⟩ := mem_map.mp h
  exact ⟨e.2, S.selection_byVoteName.find e (mem_of_mem_filter (mem_of_mem_take he))⟩

theorem length_topVoted_le (S : Council) : S.topVoted.length ≤ maxWitnesses - 2 := by
  rw [topVoted, length_map, length_take]
  exact Nat.min_le_left _ _

/-- If some witness does not mine, the voted ones are not empty. -/
theorem topVoted_ne_nil
    (hw : S.witnesses.find? name = some w) (hpow : w.powWorker = 0) : S.topVoted ≠ [] := by
  have hperm := perm_insertionSort voteBefore S.witnesses.entries
  have hmem : (name, w) ∈ S.byVoteName.filter fun e => e.2.powWorker = 0 :=
    mem_filter.mpr ⟨hperm.mem_iff.mpr (find?_eq_some.mp hw), by simpa using hpow⟩
  have hpos := length_pos_of_mem hmem
  refine ne_nil_of_length_pos ?_
  rw [topVoted, length_map, length_take]
  exact Nat.lt_min.mpr ⟨by decide, hpos⟩

/-- A part of a round: the council after it, the witnesses selected, and no exception. -/
structure VotedRound (S : Council) (r : Council × List AccountName × Uint128) : Prop where
  shifts : S.Shifts r.1
  numPowWitnesses : r.1.numPowWitnesses = S.numPowWitnesses
  known : ∀ name ∈ r.2.1, ∃ w, S.witnesses.find? name = some w
  length : r.2.1.length < maxWitnesses
  ne_nil : S.VoteScheduling → ∀ name w, S.witnesses.find? name = some w → w.powWorker = 0 →
    r.2.1 ≠ []

/-- The schedule by votes never throws. -/
theorem Sound.scheduleByVotes (hS : S.Sound) : ∃ r, S.scheduleByVotes = .ok r ∧ S.VotedRound r := by
  have htop := S.length_topVoted_le
  have hmax : maxWitnesses = 21 := rfl
  have hranked := shifts_modifyWitnesses S S.topVoted
    (f := fun w => { w with virtualScheduledTime := BitVec.allOnes 128 })
    (fun _ => ⟨rfl, rfl⟩) fun _ => rfl
  simp only [Council.scheduleByVotes]
  split
  · exact ⟨_, rfl, hranked, rfl, fun name hname => mem_topVoted hname, by simp only; omega,
      fun _ name w hw hpow => topVoted_ne_nil hw hpow⟩
  rename_i e he
  have hfind := (selection_byScheduleTime _).find e (mem_of_find?_eq_some he)
  obtain ⟨w, hw, hbid⟩ := hranked.witnesses.before hfind
  have hvotes : e.2.votes + 1 ≠ 0 := by
    rw [hbid.votes]
    exact hS.votes e.1 w hw
  rw [ensure, if_pos hvotes]
  refine ⟨_, rfl, ?_, rfl, ?_, ?_, ?_⟩
  · have hlap : SameBid e.2 (S.nextLap e.2) := ⟨rfl, rfl⟩
    refine hranked.trans (shifts_setWitness hfind hlap ?_)
    simp only [mines, nextLap]
    omega
  · intro name hname
    rcases mem_append.mp hname with hname | hname
    · exact mem_topVoted hname
    · rw [mem_singleton.mp hname]
      exact ⟨w, hw⟩
  · rw [length_append, length_singleton]
    omega
  · intro _ _ _ _ _
    simp

/-- A sound council always has a round by votes. -/
theorem Sound.votedRound (hS : S.Sound) : ∃ r, S.votedRound = .ok r ∧ S.VotedRound r := by
  unfold Council.votedRound
  split_ifs with hvote
  · exact hS.scheduleByVotes
  · exact ⟨_, rfl, .refl S, rfl, by simp, (by decide : 0 < maxWitnesses), fun h => absurd h hvote⟩

theorem shifts_popMiner (S : Council) : S.Shifts S.popMiner := by
  unfold popMiner
  split
  · rename_i e he
    split_ifs with hlong
    · have hmem := mem_of_mem_head? (Option.mem_def.mpr he)
      have hmines : mines e.2 = 1 := by
        rw [miningQueue, mem_insertionSort, mem_filter, decide_eq_true_eq] at hmem
        exact if_pos hmem.2
      have hpopped : SameBid e.2 { e.2 with powWorker := 0 } := ⟨rfl, rfl⟩
      refine shifts_setWitness (S.selection_miningQueue.find e hmem) hpopped ?_
      rw [hmines]
      simp only [mines, lt_irrefl, if_false]
      omega
    · exact .refl S
  · exact .refl S

/-- A council without miners did not lose one. -/
theorem numPowWitnesses_of_popMiner (h : S.popMiner.numPowWitnesses = 0) :
    S.numPowWitnesses = 0 := by
  unfold popMiner at h
  split at h
  · split_ifs at h with hlong
    · have hmax : maxWitnesses = 21 := rfl
      simp only at h
      omega
    · exact h
  · exact h

/-- Miners are added from the queue. -/
theorem mem_pushMiners
    (h : name ∈ pushMiners single active queue) : name ∈ active ∨ name ∈ queue := by
  induction queue generalizing active with
  | nil => exact .inl h
  | cons miner queue ih =>
    have hpush : name ∈ active ++ [miner] → name ∈ active ∨ name ∈ miner :: queue := by
      intro h
      rcases mem_append.mp h with h | h
      · exact .inl h
      · exact .inr (mem_cons.mpr (Or.inl (mem_singleton.mp h)))
    rw [pushMiners] at h
    split at h
    · exact hpush h
    · rcases ih h with h | h
      · exact hpush h
      · exact .inr (mem_cons_of_mem _ h)

/-- No more miners are added than there are slots. -/
theorem length_pushMiners_le (h : active.length < maxWitnesses) :
    (pushMiners single active queue).length ≤ maxWitnesses := by
  induction queue generalizing active with
  | nil => exact h.le
  | cons miner queue ih =>
    rw [pushMiners]
    split_ifs with hmore
    · rw [length_append, length_singleton]
      omega
    · exact ih (Nat.lt_of_not_le fun hle => hmore (Or.inr hle))

theorem length_le_pushMiners : active.length ≤ (pushMiners single active queue).length := by
  induction queue generalizing active with
  | nil => exact le_rfl
  | cons miner queue ih =>
    rw [pushMiners]
    split
    · rw [length_append]
      omega
    · refine le_trans ?_ ih
      rw [length_append]
      omega

theorem pushMiners_ne_nil {miner : AccountName}
    : pushMiners single active (miner :: queue) ≠ [] := by
  rw [pushMiners]
  split
  · simp
  · refine ne_nil_of_length_pos (lt_of_lt_of_le ?_ length_le_pushMiners)
    simp

/-- A queue without miners is counted as empty. -/
theorem numPowWitnesses_of_miningQueue (hqueue : S.queueExcess = 0) (h : S.miningQueue = []) :
    S.numPowWitnesses = 0 := by
  have htotal : S.witnesses.total mines = 0 := by
    refine sum_eq_zero fun x hx => ?_
    obtain ⟨e, he, rfl⟩ := mem_map.mp hx
    refine if_neg fun hpow => ?_
    have hmem : e ∈ S.miningQueue := by
      rw [miningQueue, mem_insertionSort, mem_filter, decide_eq_true_eq]
      exact ⟨he, hpow⟩
    rw [h] at hmem
    cases hmem
  unfold queueExcess at hqueue
  omega

/-- No witness mines if none is counted. -/
theorem powWorker_of_numPowWitnesses (hqueue : S.queueExcess = 0) (h : S.numPowWitnesses = 0)
    (hw : S.witnesses.find? name = some w) : w.powWorker = 0 := by
  have hnonneg : S.witnesses.Holds fun v => 0 ≤ mines v := by
    intro _ v _
    unfold mines
    split <;> decide
  have hle := Table.le_total hnonneg hw
  unfold queueExcess at hqueue
  by_contra hpow
  have hmines : mines w = 1 := if_pos (Nat.pos_of_ne_zero hpow)
  omega

theorem setVirtualTime_eq (time : Uint128) (S : Council) : ∃ t, S.setVirtualTime time =
    { S with wso := { S.wso with currentVirtualTime := t } } := by
  unfold setVirtualTime
  split
  · exact ⟨time, rfl⟩
  · exact ⟨S.wso.currentVirtualTime, rfl⟩

/-- What the branch before hardfork 4 does, which always returns. -/
structure EarlyRound (S S' : Council) (active : List AccountName) : Prop where
  course : S.SameCourse S'
  writes : Writes active S S'
  pos : 0 < active.length
  le : active.length ≤ maxWitnesses
  known : ∀ name ∈ active, ∃ w, S.witnesses.find? name = some w
  witnesses : Table.Related (fun _ => SameBid) S.witnesses S'.witnesses
  queue : S'.queueExcess = S.queueExcess
  nextHardfork : S'.nextHardfork = S.nextHardfork

/-- The early schedule never throws. -/
theorem Sound.earlyRound (hS : S.Sound) (h4 : ¬ S.HasHardfork 4) :
    ∃ S' active, S.updateWitnessSchedule0 = .ok S' ∧ EarlyRound S S' active := by
  obtain ⟨⟨voted, active, time⟩, hround, hvoted⟩ := hS.votedRound
  have hshifts := hvoted.shifts.trans voted.shifts_popMiner
  obtain ⟨witnesses, count, hpopped⟩ := hshifts.unchanged
  have hqueue := hshifts.queue.trans (hS.queue h4)
  obtain ⟨all, hall⟩ : ∃ all, all = pushMiners (decide (startMinerVotingBlock < S.headBlockNum))
    active (voted.popMiner.miningQueue.map Prod.fst) := ⟨_, rfl⟩
  have hle : all.length ≤ maxWitnesses := hall ▸ length_pushMiners_le hvoted.length
  have hknown : ∀ name ∈ all, ∃ w, S.witnesses.find? name = some w := by
    intro name hname
    rw [hall] at hname
    rcases mem_pushMiners hname with hname | hname
    · exact hvoted.known name hname
    · obtain ⟨e, he, rfl⟩ := mem_map.mp hname
      obtain ⟨w, hw, -⟩ := hshifts.witnesses.before ((selection_miningQueue _).find e he)
      exact ⟨w, hw⟩
  have hpos : 0 < all.length := by
    refine length_pos_of_ne_nil ?_
    rw [hall]
    cases hminers : voted.popMiner.miningQueue with
    | cons e queue => exact pushMiners_ne_nil
    | nil =>
      -- without miners the round is scheduled by votes, and no witness mines
      have hnone : S.numPowWitnesses = 0 := by
        rw [← hvoted.numPowWitnesses]
        exact numPowWitnesses_of_popMiner (numPowWitnesses_of_miningQueue hqueue hminers)
      obtain ⟨name, w, hw⟩ := hS.nonempty
      exact hvoted.ne_nil (Or.inl hnone) name w hw
        (powWorker_of_numPowWitnesses (hS.queue h4) hnone hw)
  obtain ⟨t, ht⟩ := setVirtualTime_eq time (voted.popMiner.writeSchedule all)
  rw [hpopped] at ht
  have hwrites : Writes all S ((voted.popMiner.writeSchedule all).setVirtualTime time) := by
    rw [hpopped, ht]
    exact ⟨rfl, rfl⟩
  have hrelated : Related (fun _ => SameBid) S.witnesses
      ((voted.popMiner.writeSchedule all).setVirtualTime time).witnesses := by
    have hw := hshifts.witnesses
    rw [hpopped] at hw ⊢
    rw [ht]
    exact hw
  obtain ⟨S', hS'⟩ := hS.exists_medians hwrites hpos hle hknown hrelated
  refine ⟨S', all, ?_, ?_⟩
  · simp only [updateWitnessSchedule0, returns]
    exact ⟨_, hround, hall ▸ hS'⟩
  obtain ⟨size, rate, props, rd, witnessRd, rfl⟩ := updateMedianWitnessProps_eq hS'
  have hq := hshifts.queue
  rw [hpopped] at hq
  refine ⟨?_, ⟨hwrites.count, hwrites.shuffled⟩, hpos, hle, hknown, hrelated, ?_, ?_⟩
  · rw [hpopped, ht]
    exact ⟨rfl, rfl, rfl, rfl, rfl, rfl, rfl, rfl, rfl, rfl, rfl, rfl⟩
  · rw [hpopped, ht]
    exact hq
  · rw [hpopped, ht]
    rfl

/-- The schedule leaves the council sound. -/
theorem Sound.updateWitnessSchedule (hS : S.Sound) (h : S.updateWitnessSchedule = .ok S') :
    S'.Sound := by
  unfold Council.updateWitnessSchedule at h
  split at h
  · split_ifs at h with h4
    · exact hS.rescheduled h4 (updateWitnessSchedule4_rescheduled h)
    obtain ⟨T, active, hT, hround⟩ := hS.earlyRound h4
    rw [hT] at h
    cases h
    refine hS.writes hround.writes hround.pos hround.le hround.known hround.course
      hround.witnesses fun _ => ?_
    rw [hround.queue]
    exact hS.queue h4
  · cases h
    exact hS

/-- Every step keeps the council sound. -/
theorem Sound.step (hS : S.Sound) {step : WitnessStep} (h : StepEffect step S S') : S'.Sound := by
  cases h with
  | edits h => exact hS.edits h
  | ballot voter name weight h => exact hS.keeps (keeps_changeBallot h)
  | round _ h => exact hS.updateWitnessSchedule h
  | hardforks h =>
    exact processHardforks_invariant (fun _ _ hS h => Sound.applyHardfork hS h) hS h
  | firstBlock timestamp h =>
    refine genesisHardforks_invariant (fun _ _ _ hS h => Sound.setHardfork hS h) ?_ hS h
    intro T n time hT
    exact hT.keeps (keeps_map (fun _ => ⟨id, rfl⟩) fun _ => rfl)

theorem find?_genesis (h : genesis.witnesses.find? name = some w) :
    w = { id := 0, signingKey := some 0, schedule := .miner } := by
  have hmem := find?_eq_some.mp h
  exact congrArg Prod.snd (mem_singleton.mp hmem)

theorem sound_genesis : genesis.Sound where
  nonempty := ⟨_, _, find?_eq_some.mpr mem_cons_self⟩
  votes name w h := by
    rw [find?_genesis h]
    decide
  valid name w h := by
    rw [find?_genesis h]
    exact valid_default 0
  slots i hi := by
    have hi : i = 0 := Nat.lt_one_iff.mp hi
    subst hi
    exact ⟨_, rfl⟩
  count_pos := by decide
  quota := by decide
  queue _ := rfl

/-- Every run leaves the council sound. -/
theorem run_sound (steps : List WitnessStep) : (genesis.run steps).Sound :=
  run_invariant (fun _ _ _ hS h => hS.step h) steps sound_genesis

/-! ### What an update achieves -/

/-- The number of witnesses with a signing key. -/
def keyedCount (S : Council) : Nat :=
  S.witnesses.entries.countP fun e => e.2.signingKey.isSome

/-- At the end of a round from hardfork 14 on, all witnesses have a signing key or enough do. -/
def EnoughKeys (S : Council) : Prop :=
  S.headBlockNum % maxWitnesses = 0 → S.HasHardfork 14 →
    (S.witnesses.All fun _ w => w.signingKey.isSome) ∨ maxWitnesses ≤ S.keyedCount

theorem hasHardfork_mono {m n : Nat} (hmn : m ≤ n) (h : S.HasHardfork n) : S.HasHardfork m :=
  Nat.lt_of_le_of_lt hmn h

/-- From hardfork 14 on the witnesses with a key are eligible. -/
theorem length_eligibleNames (h14 : S.HasHardfork 14) : S.eligibleNames.length = S.keyedCount := by
  rw [eligibleNames, length_map, keyedCount, countP_eq_length_filter]
  congr 2
  funext e
  simp [Eligible, h14]

/-- The number of active witnesses is the expected one if and only if there are enough keys. -/
theorem length_activeWitnesses_iff
    (hquota : S.wso.maxVotedWitnesses + S.wso.maxMinerWitnesses ≤ maxWitnesses)
    (hround : S.headBlockNum % maxWitnesses = 0) :
    S.activeWitnesses.length = min maxWitnesses S.witnesses.entries.length ↔ S.EnoughKeys := by
  rw [length_activeWitnesses hquota]
  by_cases h14 : S.HasHardfork 14
  · have hle : S.keyedCount ≤ S.witnesses.entries.length := countP_le_length
    have hall : (S.witnesses.All fun _ w => w.signingKey.isSome) ↔
        S.keyedCount = S.witnesses.entries.length := by
      rw [all_iff, keyedCount, countP_eq_length]
    rw [length_eligibleNames h14]
    unfold EnoughKeys
    simp only [hround, h14, forall_const, hall]
    omega
  · rw [eligibleNames, length_map, filter_eq_self.mpr fun e _ => by simp [Eligible, h14]]
    exact iff_of_true rfl fun _ h => absurd h h14

/-- The virtual time advances unless a divisor is zero. -/
theorem exists_advanceVirtualTime (hvotes : ∀ name w, S.witnesses.find? name = some w →
    w.votes + 1 ≠ 0) : ∃ S', S.advanceVirtualTime S.markSelected = .ok S' := by
  unfold advanceVirtualTime
  split
  · obtain ⟨witnesses, count, hmarked, hmarks⟩ := S.markSelected_eq
    have hall : S.markSelected.witnesses.All fun _ w => w.votes + 1 ≠ 0 := by
      intro name w' hw'
      rw [hmarked] at hw'
      obtain ⟨w, hw, hmark⟩ := hmarks.before hw'
      rw [hmark.1.votes]
      exact hvotes name w hw
    rw [resetVirtualScheduleTime, ensure, if_pos hall]
    exact ⟨_, rfl⟩
  · have hprocessed : ∀ e ∈ S.processedWitnesses, e.2.votes + 1 ≠ 0 := by
      intro e he
      exact hvotes e.1 e.2 (S.selection_byScheduleTime.find e
        ((isPrefix_takeQuota _ _).subset he))
    rw [ensure, if_pos hprocessed]
    exact ⟨_, rfl⟩

/-- The update after hardfork 4 returns if it finds the expected number of witnesses. -/
theorem Sound.exists_updateWitnessSchedule4 (hS : S.Sound)
    (hlength : S.activeWitnesses.length = min maxWitnesses S.witnesses.entries.length) :
    ∃ S', S.updateWitnessSchedule4 = .ok S' := by
  have hentries := hS.entries_pos
  have hmax : 0 < maxWitnesses := by decide
  obtain ⟨advanced, hadvanced⟩ := exists_advanceVirtualTime hS.votes
  obtain ⟨witnesses, count, hlaps, hadv⟩ := advanceVirtualTime_eq hadvanced
  have hcounted : ∃ counted, advanced.countVersions = .ok counted := by
    unfold countVersions
    split
    · obtain ⟨active, hactive, -, -⟩ := exists_scheduledWitnesses (S := advanced) fun i hi => by
        rw [hadv] at hi
        obtain ⟨w, hw⟩ := hS.slots i hi
        obtain ⟨name, hname, hw⟩ := Option.bind_eq_some_iff.mp hw
        obtain ⟨w', hw', -⟩ := hlaps.after hw
        have hslot : advanced.shuffledAt i = S.shuffledAt i := shuffledAt_congr (by rw [hadv]) i
        refine ⟨w', ?_⟩
        rw [hslot, hname, hadv]
        exact hw'
      simp only [returns]
      exact ⟨_, active, hactive, rfl⟩
    · exact ⟨_, rfl⟩
  obtain ⟨counted, hcounted⟩ := hcounted
  obtain ⟨next, time, version, hcnt, -⟩ := countVersions_eq hcounted
  obtain ⟨written, hwritten⟩ : ∃ written, written =
    (counted.writeSchedule S.activeWitnesses).setNormalizationFactor S.selectedVoted.length
      S.selectedMiners.length S.selectedTimeshare.length := ⟨_, rfl⟩
  have hwrites : Writes S.activeWitnesses S written := by
    rw [hwritten, hcnt, hadv]
    exact ⟨rfl, rfl⟩
  have hsame : written.witnesses = witnesses := by
    rw [hwritten, hcnt, hadv]
    rfl
  obtain ⟨S', hS'⟩ := hS.exists_medians hwrites (by omega) (by omega)
    (fun name hname => (mem_activeWitnesses hname).imp fun _ hw => hw.1)
    (hsame ▸ hlaps.mono fun _ _ _ hlap => ⟨hlap.1.votes, hlap.1.props⟩)
  simp only [updateWitnessSchedule4, returns]
  exact ⟨S', advanced, hadvanced, (), hlength, counted, hcounted, hwritten ▸ hS'⟩

/-- In every reachable council the schedule can be updated if and only if there are enough
signing keys. -/
theorem updateWitnessSchedule_returns_iff (steps : List WitnessStep) :
    (∃ S', (genesis.run steps).updateWitnessSchedule = .ok S') ↔
      (genesis.run steps).EnoughKeys := by
  have hS := run_sound steps
  generalize genesis.run steps = S at hS
  unfold Council.updateWitnessSchedule
  split
  · rename_i hround
    rw [← length_activeWitnesses_iff hS.quota hround]
    split_ifs with h4
    · constructor
      · rintro ⟨S', h⟩
        exact (updateWitnessSchedule4_rescheduled h).active_length
      · exact hS.exists_updateWitnessSchedule4
    · obtain ⟨S', active, h, -⟩ := hS.earlyRound h4
      refine iff_of_true ⟨S', h⟩ ?_
      rw [length_activeWitnesses_iff hS.quota hround]
      exact fun _ h14 => absurd (hasHardfork_mono (by decide) h14) h4
  · rename_i hround
    exact iff_of_true ⟨S, rfl⟩ fun h => absurd h hround

/-- The first block at a time, some operations in it, and blocks to the end of the round. -/
def firstRound (time : Nat) (operations : List WitnessStep) : List WitnessStep :=
  .genesisHardforks time :: operations ++
    (List.range maxWitnesses).map fun i => .advance (time + 3 * i)

/-- A witness registered without a signing key stops the chain at the end of the round. -/
theorem not_returns_keyless :
    let S := genesis.run (firstRound 1540000000 [.witnessUpdate 10 none {}])
    S.HasHardfork 20 ∧ S.headBlockNum = 21 ∧ S.witnesses.entries.length = 2 ∧ S.keyedCount = 1 ∧
      (match S.updateWitnessSchedule with
        | .ok _ => ""
        | .error text => text) =
        "number of active witnesses does not equal expected_active_witnesses" := by
  decide +kernel

/-- From hardfork 4 on an update writes a permutation of distinct witnesses, with the highest voted
ones among them, and from hardfork 14 on all of them have signing keys. -/
theorem updateWitnessSchedule_selects (steps : List WitnessStep) {S' : Council}
    (h4 : (genesis.run steps).HasHardfork 4)
    (hround : (genesis.run steps).headBlockNum % maxWitnesses = 0)
    (h : (genesis.run steps).updateWitnessSchedule = .ok S') :
    ∃ active : List AccountName, active.Nodup ∧
      (∀ name ∈ active, ∃ w, (genesis.run steps).witnesses.find? name = some w ∧
        ((genesis.run steps).HasHardfork 14 → w.signingKey.isSome)) ∧
      (∀ name w, (genesis.run steps).witnesses.find? name = some w →
        ((genesis.run steps).HasHardfork 14 → w.signingKey.isSome) →
        (genesis.run steps).rank (name, w) < (genesis.run steps).wso.maxVotedWitnesses →
        name ∈ active) ∧
      S'.wso.numScheduledWitnesses = active.length ∧
      (∃ σ : Equiv.Perm (Fin maxWitnesses), KeepsFirst active.length σ ∧
        ∀ i, S'.wso.currentShuffledWitnesses i = active[(σ i : Nat)]?) ∧
      ∀ i < active.length, ∀ j < active.length, S'.shuffledAt i = S'.shuffledAt j → i = j := by
  have hS := run_sound steps
  generalize genesis.run steps = S at hS h4 hround h
  rw [Council.updateWitnessSchedule, if_pos hround, if_pos h4] at h
  have hre := updateWitnessSchedule4_rescheduled h
  have hentries := hS.entries_pos
  have hlength := hre.active_length
  have hmax : 0 < maxWitnesses := by decide
  obtain ⟨hcount, σ, hσ, hshuffled⟩ := hre.writes.exists_perm (by omega)
  refine ⟨S.activeWitnesses, S.nodup_activeWitnesses, ?_, ?_, hcount, ⟨σ, hσ, hshuffled⟩, ?_⟩
  · intro name hname
    exact mem_activeWitnesses hname
  · intro name w hw hkey hrank
    have hvoted := mem_selectedVoted hw hkey hrank
    exact mem_append_left _ (mem_append_left _ hvoted)
  · intro i hi j hj hij
    rw [shuffledAt, shuffledAt, dif_pos (by omega), dif_pos (by omega), hshuffled, hshuffled] at hij
    have hplaces := (List.getElem?_inj ((hσ ⟨i, by omega⟩).mpr hi) S.nodup_activeWitnesses).mp hij
    exact congrArg Fin.val (σ.injective (Fin.ext hplaces))

/-- A round with two witnesses that have keys. -/
def twoWitnesses : Council :=
  genesis.run (firstRound 1540000000 [.witnessUpdate 10 (some 7) {}])

theorem updateWitnessSchedule_selects_two : ∃ S', twoWitnesses.updateWitnessSchedule = .ok S' ∧
    S'.wso.numScheduledWitnesses = 2 ∧ S'.shuffledAt 0 ≠ S'.shuffledAt 1 := by
  cases h : twoWitnesses.updateWitnessSchedule with
  | error e =>
    have hreturns : twoWitnesses.updateWitnessSchedule.toOption.isSome := by decide +kernel
    rw [h] at hreturns
    cases hreturns
  | ok S' =>
    have hnum : twoWitnesses.updateWitnessSchedule.toOption.map
        (fun S => S.wso.numScheduledWitnesses) = some 2 := by
      decide +kernel
    rw [h, Except.toOption, Option.map_some, Option.some.injEq] at hnum
    obtain ⟨active, -, -, -, hcount, -, hdistinct⟩ :=
      updateWitnessSchedule_selects _ (by decide +kernel) (by decide +kernel) h
    refine ⟨S', rfl, hnum, fun heq => ?_⟩
    exact absurd (hdistinct 0 (by omega) 1 (by omega) heq) (by decide)

/-- Before hardfork 14 a witness without a signing key is scheduled, and before hardfork 4 one of
two witnesses gets two of three slots. -/
theorem not_selects_keyed :
    (let S := genesis.run (firstRound 1472000000 [.witnessUpdate 10 none {}])
    S.HasHardfork 13 ∧ ¬ S.HasHardfork 14 ∧
      (S.witnesses.find? 10).map (fun w => w.signingKey) = some none ∧
      S.updateWitnessSchedule.toOption.map
        (fun S' => (S'.wso.numScheduledWitnesses, S'.shuffledAt 0, S'.shuffledAt 1)) =
        some (2, some 2, some 10)) ∧
    let S := genesis.run (firstRound 1461000000 [.witnessUpdate 10 (some 7) {}])
    ¬ S.HasHardfork 4 ∧ S.updateWitnessSchedule.toOption.map
      (fun S' => (S'.wso.numScheduledWitnesses, S'.shuffledAt 0, S'.shuffledAt 1,
        S'.shuffledAt 2)) = some (3, some 2, some 2, some 10) := by
  decide +kernel

end Freezone.Chain.Witnesses.Council
