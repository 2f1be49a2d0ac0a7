import Freezone.Chain.Witnesses.Effects

/-!
# The selection of active witnesses

The three loops of an update select distinct witnesses, each with a signing key from
hardfork 14 on. They fill the round as long as there are eligible witnesses, and no
witness is left out that ranks high enough by its votes.
-/

namespace Freezone.Chain.Witnesses.Council

open List
open Funds (AccountName)

variable {S S' : Council}

/-! ### One loop -/

section Loop

variable {selected : List AccountName} {count : Nat} {index : List (AccountName × Witness)}

/-- A loop selects the first suitable witnesses of its index. -/
theorem chosen_visited (S : Council) (selected : List AccountName) (count : Nat)
    (index : List (AccountName × Witness)) : S.chosen selected (S.visited selected count index) =
      ((index.filter fun e => S.Suitable selected e).take count).map Prod.fst := by
  rw [chosen, visited, filter_takeQuota]

theorem chosen_sublist : (S.chosen selected (S.visited selected count index)).Sublist
    (index.map Prod.fst) := by
  rw [chosen_visited]
  exact ((take_sublist _ _).trans filter_sublist).map _

/-- No more are chosen than asked for. -/
theorem length_chosen_le : (S.chosen selected (S.visited selected count index)).length ≤ count := by
  rw [chosen_visited, length_map, length_take]
  exact Nat.min_le_left _ _

variable {name : AccountName}

/-- The chosen ones are eligible and not selected before. -/
theorem mem_chosen (hindex : S.witnesses.Selection index)
    (h : name ∈ S.chosen selected (S.visited selected count index)) :
    name ∉ selected ∧ ∃ w, S.witnesses.find? name = some w ∧ S.Eligible w := by
  rw [chosen_visited] at h
  obtain ⟨e, he, rfl⟩ := mem_map.mp h
  have hfilter := mem_filter.mp (mem_of_mem_take he)
  have hsuitable : S.Suitable selected e := by simpa using hfilter.2
  exact ⟨hsuitable.2, e.2, hindex.find e hfilter.1, hsuitable.1⟩

/-- No witness is chosen twice. -/
theorem nodup_chosen (hindex : S.witnesses.Selection index) :
    (S.chosen selected (S.visited selected count index)).Nodup :=
  hindex.nodup.sublist chosen_sublist

end Loop

theorem selection_insertionSort (S : Council)
    (r : AccountName × Witness → AccountName × Witness → Prop)
    [DecidableRel r] : S.witnesses.Selection (S.witnesses.entries.insertionSort r) := by
  have h := S.witnesses.selection_sorted (fun _ => true) r
  rwa [filter_true] at h

theorem selection_byVoteName (S : Council) : S.witnesses.Selection S.byVoteName :=
  S.selection_insertionSort voteBefore

theorem selection_miningQueue (S : Council) : S.witnesses.Selection S.miningQueue :=
  S.witnesses.selection_sorted _ powBefore

theorem selection_byScheduleTime (S : Council) : S.witnesses.Selection S.byScheduleTime :=
  S.selection_insertionSort scheduledBefore

/-! ### The three loops -/

/-- The active witnesses are eligible. -/
theorem mem_activeWitnesses (h : name ∈ S.activeWitnesses) :
    ∃ w, S.witnesses.find? name = some w ∧ S.Eligible w := by
  rw [activeWitnesses, mem_append, mem_append] at h
  rcases h with (h | h) | h
  · exact (mem_chosen S.selection_byVoteName h).2
  · exact (mem_chosen S.selection_miningQueue h).2
  · exact (mem_chosen S.selection_byScheduleTime h).2

/-- No witness is selected both by votes and by mining. -/
theorem nodup_voted_miners (S : Council) : (S.selectedVoted ++ S.selectedMiners).Nodup := by
  refine nodup_append.mpr
    ⟨nodup_chosen S.selection_byVoteName, nodup_chosen S.selection_miningQueue, ?_⟩
  rintro name hvoted _ hminer rfl
  exact (mem_chosen S.selection_miningQueue hminer).1 hvoted

/-- No witness is selected twice. -/
theorem nodup_activeWitnesses (S : Council) : S.activeWitnesses.Nodup := by
  refine nodup_append.mpr
    ⟨S.nodup_voted_miners, nodup_chosen S.selection_byScheduleTime, ?_⟩
  rintro name hselected _ htimeshare rfl
  exact (mem_chosen S.selection_byScheduleTime htimeshare).1 hselected

/-- The names of the witnesses that may be scheduled. -/
def eligibleNames (S : Council) : List AccountName :=
  (S.witnesses.entries.filter fun e => S.Eligible e.2).map Prod.fst

theorem nodup_eligibleNames (S : Council) : S.eligibleNames.Nodup :=
  S.witnesses.nodup.sublist (filter_sublist.map _)

/-- A loop over an index of all witnesses finds all eligible ones that are not yet selected. -/
theorem length_suitable {selected : List AccountName} (hnodup : selected.Nodup)
    (hsub : ∀ name ∈ selected, name ∈ S.eligibleNames) {index : List (AccountName × Witness)}
    (hperm : index.Perm S.witnesses.entries) :
    (index.filter fun e => S.Suitable selected e).length =
      S.eligibleNames.length - selected.length := by
  have hnames : ((S.witnesses.entries.filter fun e => S.Suitable selected e).map Prod.fst) =
      S.eligibleNames.filter fun name => name ∉ selected := by
    rw [eligibleNames, filter_map, filter_filter]
    congr 1
    refine filter_congr fun e _ => ?_
    simp [Suitable, and_comm]
  have hlength := congrArg length hnames
  rw [length_map] at hlength
  rw [(hperm.filter _).length_eq, hlength]
  have hsplit := length_eq_countP_add_countP (fun name => decide (name ∈ selected))
    (l := S.eligibleNames)
  have hselected : (S.eligibleNames.filter fun name => name ∈ selected).Perm selected := by
    refine (perm_ext_iff_of_nodup (S.nodup_eligibleNames.filter _) hnodup).mpr fun name => ?_
    rw [mem_filter, decide_eq_true_eq]
    exact ⟨fun h => h.2, fun h => ⟨hsub name h, h⟩⟩
  rw [countP_eq_length_filter, countP_eq_length_filter, hselected.length_eq] at hsplit
  simp only [decide_eq_true_eq] at hsplit
  omega

/-- The selected witnesses are eligible. -/
theorem selected_eligible (h : name ∈ S.selectedVoted ++ S.selectedMiners) :
    name ∈ S.eligibleNames := by
  obtain ⟨w, hw, hel⟩ := mem_activeWitnesses (mem_append_left S.selectedTimeshare h)
  exact mem_map.mpr ⟨(name, w),
    mem_filter.mpr ⟨Table.find?_eq_some.mp hw, by simpa using hel⟩, rfl⟩

/-- A round is full as long as there are eligible witnesses. -/
theorem length_activeWitnesses
    (hquota : S.wso.maxVotedWitnesses + S.wso.maxMinerWitnesses ≤ maxWitnesses) :
    S.activeWitnesses.length = min maxWitnesses S.eligibleNames.length := by
  have hvoted : S.selectedVoted.length ≤ S.wso.maxVotedWitnesses := length_chosen_le
  have hminers : S.selectedMiners.length ≤ S.wso.maxMinerWitnesses := length_chosen_le
  have hsub : (S.selectedVoted ++ S.selectedMiners).length ≤ S.eligibleNames.length :=
    (subperm_of_subset S.nodup_voted_miners fun _ h => selected_eligible h).length_le
  have htimeshare : S.selectedTimeshare.length =
      min (maxWitnesses - (S.selectedVoted.length + S.selectedMiners.length))
        (S.eligibleNames.length - (S.selectedVoted ++ S.selectedMiners).length) := by
    rw [selectedTimeshare, processedWitnesses, chosen_visited, length_map, length_take,
      byScheduleTime, length_suitable S.nodup_voted_miners (fun _ h => selected_eligible h)
        (perm_insertionSort scheduledBefore S.witnesses.entries)]
  rw [activeWitnesses, length_append, htimeshare]
  rw [length_append] at hsub ⊢
  omega

/-! ### The highest voted witnesses -/

/-- A witness with more votes than another, or with the same votes and an earlier name. -/
def RanksBefore (e f : AccountName × Witness) : Prop :=
  f.2.votes < e.2.votes ∨ f.2.votes = e.2.votes ∧ e.1 < f.1

instance : DecidableRel RanksBefore := fun _ _ => inferInstanceAs (Decidable (_ ∨ _))

/-- The number of eligible witnesses that rank before a witness. -/
def rank (S : Council) (e : AccountName × Witness) : Nat :=
  S.witnesses.entries.countP fun f => S.Eligible f.2 ∧ RanksBefore f e

theorem pairwise_byVoteName (S : Council) : S.byVoteName.Pairwise RanksBefore := by
  have : Std.Total voteBefore := ⟨fun e f => by
    unfold voteBefore
    grind⟩
  have : IsTrans _ voteBefore := ⟨fun e f g => by
    unfold voteBefore
    grind⟩
  have hsorted := pairwise_insertionSort voteBefore S.witnesses.entries
  have hnames := pairwise_map.mp S.selection_byVoteName.nodup
  refine (hsorted.and hnames).imp ?_
  rintro e f ⟨hvote, hne⟩
  unfold voteBefore at hvote
  unfold RanksBefore
  grind

/-- A witness with few eligible ones before it is selected. -/
theorem mem_selectedVoted {w : Witness} (hw : S.witnesses.find? name = some w) (hel : S.Eligible w)
    (hrank : S.rank (name, w) < S.wso.maxVotedWitnesses) : name ∈ S.selectedVoted := by
  rw [selectedVoted, chosen_visited]
  refine mem_map.mpr ⟨(name, w), ?_, rfl⟩
  have hperm := perm_insertionSort voteBefore S.witnesses.entries
  refine mem_take_of_countP_lt (S.pairwise_byVoteName.sublist filter_sublist) ?_ ?_
  · refine mem_filter.mpr ⟨hperm.mem_iff.mpr (Table.find?_eq_some.mp hw), ?_⟩
    simpa [Suitable] using hel
  · rw [countP_filter, byVoteName, hperm.countP_eq]
    refine lt_of_le_of_lt (countP_mono_left fun f _ hf => ?_) hrank
    simpa [Suitable, and_comm] using hf

/-! ### The shuffle -/

/-- The place that the shuffle draws is in the range. -/
theorem choosePlace_lt {time count i : Nat} (h : i < count) : choosePlace time count i < count := by
  have hmod := Nat.mod_lt (randomNumber time i).toNat (Nat.sub_pos_of_lt h)
  unfold choosePlace
  omega

/-- The schedule that is written is a permutation of the active witnesses. -/
theorem Writes.exists_perm {active : List AccountName} (h : Writes active S S')
    (hpos : 0 < active.length) : S'.wso.numScheduledWitnesses = active.length ∧
      ∃ σ : Equiv.Perm (Fin maxWitnesses), KeepsFirst active.length σ ∧
        ∀ i, S'.wso.currentShuffledWitnesses i = active[(σ i : Nat)]? := by
  have hmax : max active.length 1 = active.length := Nat.max_eq_left hpos
  refine ⟨h.count.trans hmax, ?_⟩
  have hchoose : ∀ i < active.length,
      choosePlace S.headBlockTime active.length i < active.length := fun _ hi => choosePlace_lt hi
  obtain ⟨σ, hσ, hshuffle⟩ :=
    exists_shuffle hchoose fun i : Fin maxWitnesses => active[(i : Nat)]?
  refine ⟨σ, hσ, fun i => ?_⟩
  rw [h.shuffled, hmax, hshuffle]
  rfl

end Freezone.Chain.Witnesses.Council
