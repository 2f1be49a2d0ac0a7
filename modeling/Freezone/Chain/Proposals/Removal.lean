import Freezone.Chain.Proposals.Model

/-!
# Removing proposals

A removal that stops at the threshold has erased some votes of a proposal, or all of
them and the proposal too; it never leaves a vote without its proposal. The owner of
a proposal is checked by the loop that erases, which the threshold may stop before it
has seen every id, while the loop that marks proposals as removed sees them all.
-/

namespace Freezone.Chain.Proposals.Sps

open Protocol Funds List

variable {S S' S'' : Sps} {A : Nat → Prop} {id : Nat} {r : RemovingReducer}

/-- Only votes and proposals of some ids have been erased, and no vote without its proposal. -/
structure Erased (A : Nat → Prop) (S S' : Sps) : Prop where
  rest : S' = { S with proposals := S'.proposals, votes := S'.votes }
  votes_other : ∀ k : Nat × AccountName, ¬ A k.1 → S'.votes.find? k = S.votes.find? k
  votes_kept : ∀ k, (S'.votes.find? k).isSome → (S.votes.find? k).isSome
  proposals : ∀ id, S'.proposals.find? id = S.proposals.find? id ∨
    A id ∧ S'.proposals.find? id = none ∧ ∀ voter, S'.votes.find? (id, voter) = none

theorem Erased.refl (S : Sps) : Erased A S S where
  rest := rfl
  votes_other _ _ := rfl
  votes_kept _ h := h
  proposals _ := .inl rfl

theorem Erased.trans (h : Erased A S S') (h' : Erased A S' S'') : Erased A S S'' where
  rest := by
    rw [h'.rest, h.rest]
  votes_other k hk := (h'.votes_other k hk).trans (h.votes_other k hk)
  votes_kept k hk := h.votes_kept k (h'.votes_kept k hk)
  proposals id := by
    rcases h'.proposals id with hsame | hgone
    · rcases h.proposals id with hsame' | ⟨hA, hnone, hvotes⟩
      · exact .inl (hsame.trans hsame')
      refine .inr ⟨hA, hsame.trans hnone, fun voter => ?_⟩
      rw [Option.eq_none_iff_forall_ne_some]
      intro u hu
      have hsome := h'.votes_kept (id, voter) (Option.isSome_iff_exists.mpr ⟨u, hu⟩)
      rw [hvotes voter] at hsome
      cases hsome
    · exact .inr hgone

/-- What is erased of fewer proposals is erased of more. -/
theorem Erased.mono {B : Nat → Prop} (h : Erased A S S') (hAB : ∀ id, A id → B id) :
    Erased B S S' where
  rest := h.rest
  votes_other k hk := h.votes_other k fun hA => hk (hAB _ hA)
  votes_kept := h.votes_kept
  proposals id := (h.proposals id).imp_right fun ⟨hA, hgone⟩ => ⟨hAB id hA, hgone⟩

/-- A proposal that is still there is as it was. -/
theorem Erased.find_of_some (h : Erased A S S') {p : Proposal}
    (hp : S'.proposals.find? id = some p) : S.proposals.find? id = some p := by
  rcases h.proposals id with hsame | ⟨-, hnone, -⟩
  · exact hsame ▸ hp
  · rw [hnone] at hp
    cases hp

/-- A proposal of another id is as it was. -/
theorem Erased.find_of_not (h : Erased A S S') (hid : ¬ A id) :
    S'.proposals.find? id = S.proposals.find? id :=
  (h.proposals id).resolve_right fun hgone => hid hgone.1

/-! ### One proposal -/

/-- The voters of a proposal are those with a vote for it. -/
theorem mem_votersOf {voter : AccountName} :
    voter ∈ S.votersOf id ↔ (S.votes.find? (id, voter)).isSome := by
  rw [← Table.mem_keys]
  simp only [votersOf, Table.keys, mem_insertionSort, mem_map, mem_filter,
    decide_eq_true_eq, mem_toFinset]
  constructor
  · rintro ⟨⟨i, v⟩, ⟨hk, rfl⟩, rfl⟩
    exact hk
  · intro hk
    exact ⟨(id, voter), ⟨hk, rfl⟩, rfl⟩

theorem eraseVote_erased (S : Sps) (id : Nat) (voter : AccountName) :
    Erased (· = id) S { S with votes := S.votes.erase (id, voter) } where
  rest := rfl
  votes_other k hk := by
    rw [Table.find?_erase, if_neg]
    rintro rfl
    exact hk rfl
  votes_kept k hk := by
    rw [Table.find?_erase] at hk
    split at hk
    · cases hk
    · exact hk
  proposals _ := .inl rfl

/-- The loop over the votes leaves the proposals alone; if it was not stopped, the voters it went
over have no vote. -/
theorem removeVotes_erased (voters : List AccountName) :
    Erased (· = id) S (S.removeVotes id voters r).1 ∧
      (S.removeVotes id voters r).1.proposals = S.proposals ∧
      ((S.removeVotes id voters r).2.done = false →
        ∀ voter ∈ voters, (S.removeVotes id voters r).1.votes.find? (id, voter) = none) := by
  induction voters generalizing S r with
  | nil => exact ⟨.refl S, rfl, nofun⟩
  | cons voter rest ih =>
    rw [removeVotes]
    by_cases hdone : r.check.done = true
    · rw [if_pos hdone]
      exact ⟨.refl S, rfl, fun h => absurd h (by rw [hdone]; decide)⟩
    rw [if_neg hdone]
    obtain ⟨herased, hproposals, hgone⟩ :=
      ih (S := { S with votes := S.votes.erase (id, voter) }) (r := r.check)
    refine ⟨(eraseVote_erased S id voter).trans herased, hproposals, fun h v hv => ?_⟩
    rcases mem_cons.mp hv with rfl | hv
    · rw [Option.eq_none_iff_forall_ne_some]
      intro u hu
      have hsome := herased.votes_kept (id, v) (Option.isSome_iff_exists.mpr ⟨u, hu⟩)
      rw [Table.find?_erase, if_pos rfl] at hsome
      cases hsome
    · exact hgone h v hv

/-- A removal takes only its proposal and the votes for it. -/
theorem removeProposal_erased (id : Nat) (r : RemovingReducer) (S : Sps) :
    Erased (· = id) S (S.removeProposal id r).1 := by
  obtain ⟨herased, hproposals, hgone⟩ := removeVotes_erased (S := S) (r := r) (S.votersOf id)
  unfold removeProposal
  generalize S.removeVotes id (S.votersOf id) r = out at herased hproposals hgone ⊢
  obtain ⟨S1, r1⟩ := out
  dsimp only at herased hproposals hgone ⊢
  split_ifs with hdone hdone'
  · exact herased
  · exact herased
  have hnone : ∀ voter, S1.votes.find? (id, voter) = none := by
    intro voter
    rw [Option.eq_none_iff_forall_ne_some]
    intro u hu
    have hsome := herased.votes_kept (id, voter) (Option.isSome_iff_exists.mpr ⟨u, hu⟩)
    rw [hgone (Bool.eq_false_iff.mpr hdone) voter (mem_votersOf.mpr hsome)] at hu
    cases hu
  have hlast : Erased (· = id) S1 { S1 with proposals := S1.proposals.erase id } := by
    refine ⟨rfl, fun _ _ => rfl, fun _ h => h, fun i => ?_⟩
    by_cases hi : i = id
    · subst hi
      refine .inr ⟨rfl, ?_, hnone⟩
      rw [Table.find?_erase, if_pos rfl]
    · refine .inl ?_
      rw [Table.find?_erase, if_neg hi]
  exact herased.trans hlast

/-! ### The loops -/

/-- The proposals of an owner. -/
def OwnedBy (owner : AccountName) (S : Sps) (id : Nat) : Prop :=
  ∃ p, S.proposals.find? id = some p ∧ p.creator = owner

variable {ids : List Nat} {n : Nat}

/-- An owner removes only proposals of their own. -/
theorem removeOwned_erased {owner : AccountName}
    (h : S.removeOwned owner ids r = .ok S') : Erased (S.OwnedBy owner) S S' := by
  induction ids generalizing S r with
  | nil =>
    rw [removeOwned, Except.ok.injEq] at h
    exact h ▸ .refl S
  | cons id rest ih =>
    rw [removeOwned] at h
    split at h
    · exact ih h
    rename_i p hp
    simp only [returns] at h
    obtain ⟨-, howner, h⟩ := h
    have hone : Erased (S.OwnedBy owner) S (S.removeProposal id r).1 := by
      refine (removeProposal_erased id r S).mono ?_
      rintro _ rfl
      exact ⟨p, hp, howner⟩
    split at h
    · cases h
      exact hone
    · refine hone.trans ((ih h).mono ?_)
      rintro i ⟨q, hq, hq'⟩
      exact ⟨q, hone.find_of_some hq, hq'⟩

/-- The expiry takes only proposals and votes. -/
theorem removeExpired_erased (ids : List Nat) :
    Erased (fun _ => True) S (S.removeExpired ids r) := by
  induction ids generalizing S r with
  | nil => exact .refl S
  | cons id rest ih =>
    have hone : Erased (fun _ => True) S (S.removeProposal id r).1 :=
      (removeProposal_erased id r S).mono fun _ _ => trivial
    rw [removeExpired]
    dsimp only
    split_ifs
    · exact hone
    · exact hone.trans ih

/-! ### The threshold -/

/-- How many objects the erasing of the named proposals takes. -/
def removalWork (ids : List Nat) (S : Sps) : Nat :=
  (ids.map fun id => if (S.proposals.find? id).isSome then (S.votersOf id).length + 1 else 0).sum

theorem removalWork_cons (id : Nat) (ids : List Nat) (S : Sps) : S.removalWork (id :: ids) =
      (if (S.proposals.find? id).isSome then (S.votersOf id).length + 1 else 0) +
        S.removalWork ids := by
  rfl

/-- The reducer lets so many more objects be erased. -/
def Allows (r : RemovingReducer) (n : Nat) : Prop :=
  r.threshold < 0 ∨ r.counter.toInt + n ≤ r.threshold.toInt

/-- One check leaves one object less to remove. -/
theorem check_of_allows (h : Allows r (n + 1)) : r.check.done = false ∧ Allows r.check n := by
  unfold RemovingReducer.check
  split_ifs with hneg
  · exact ⟨rfl, .inl hneg⟩
  have hle := h.resolve_left hneg
  have hlow := r.counter.le_toInt
  have hhigh := r.threshold.toInt_lt
  have hnext : (r.counter + 1).toInt = r.counter.toInt + 1 := by
    rw [Int16.toInt_add, Int16.toInt_one]
    refine Int.bmod_eq_of_le ?_ ?_ <;> omega
  refine ⟨decide_eq_false ?_, .inr ?_⟩
  · rw [Int16.lt_iff_toInt_lt, hnext]
    omega
  · dsimp only
    omega

/-- The votes are removed as far as the threshold allows. -/
theorem removeVotes_of_allows (S : Sps) (id : Nat) (voters : List AccountName)
    (h : Allows r (voters.length + n)) (hr : r.done = false) :
    (S.removeVotes id voters r).2.done = false ∧ Allows (S.removeVotes id voters r).2 n := by
  induction voters generalizing S r with
  | nil =>
    rw [length_nil, Nat.zero_add] at h
    exact ⟨hr, h⟩
  | cons voter rest ih =>
    rw [length_cons, Nat.add_right_comm] at h
    obtain ⟨hdone, hallows⟩ := check_of_allows h
    rw [removeVotes, if_neg (Bool.eq_false_iff.mp hdone)]
    exact ih _ hallows hdone

/-- A proposal is removed after its votes. -/
theorem removeProposal_of_allows (h : Allows r ((S.votersOf id).length + 1 + n))
    (hr : r.done = false) :
    (S.removeProposal id r).2.done = false ∧ Allows (S.removeProposal id r).2 n := by
  rw [Nat.add_assoc] at h
  obtain ⟨hdone, hallows⟩ := removeVotes_of_allows S id (S.votersOf id) h hr
  rw [Nat.add_comm] at hallows
  obtain ⟨hdone', hallows'⟩ := check_of_allows hallows
  unfold removeProposal
  dsimp only
  rw [if_neg (Bool.eq_false_iff.mp hdone), if_neg (Bool.eq_false_iff.mp hdone')]
  exact ⟨hdone', hallows'⟩

theorem nodup_votersOf (S : Sps) (id : Nat) : (S.votersOf id).Nodup := by
  unfold votersOf
  rw [(perm_insertionSort _ _).nodup_iff]
  refine Nodup.map_on ?_ (S.votes.nodup.filter _)
  rintro ⟨i, v⟩ hi ⟨j, w⟩ hj rfl
  simp only [mem_filter, decide_eq_true_eq] at hi hj
  rw [hi.2, hj.2]

/-- Erasing a proposal does not change the work that other proposals take. -/
theorem removalWork_removeProposal (hid : id ∉ ids) :
    removalWork ids (S.removeProposal id r).1 = S.removalWork ids := by
  have herased := removeProposal_erased id r S
  refine congrArg sum (map_congr_left fun i hi => ?_)
  have hne : ¬ i = id := fun h => hid (h ▸ hi)
  have hperm : ((S.removeProposal id r).1.votersOf i).Perm (S.votersOf i) := by
    rw [perm_ext_iff_of_nodup (nodup_votersOf _ i) (nodup_votersOf S i)]
    intro voter
    rw [mem_votersOf, mem_votersOf, herased.votes_other (i, voter) hne]
  rw [herased.find_of_not hne, hperm.length_eq]

/-- A removal that may erase all it has to has seen every named proposal. -/
theorem owned_of_removeOwned {owner : AccountName} (hids : ids.Nodup)
    (hallows : Allows r (S.removalWork ids)) (hr : r.done = false)
    (h : S.removeOwned owner ids r = .ok S') :
    ∀ id ∈ ids, ∀ p, S.proposals.find? id = some p → p.creator = owner := by
  induction ids generalizing S r with
  | nil => exact nofun
  | cons i rest ih =>
    obtain ⟨hi, hrest⟩ := nodup_cons.mp hids
    rw [removeOwned] at h
    split at h
    · rename_i hnone
      rw [removalWork_cons, hnone, if_neg (by decide), Nat.zero_add] at hallows
      intro id hid p hp
      rcases mem_cons.mp hid with rfl | hid
      · rw [hnone] at hp
        cases hp
      · exact ih hrest hallows hr h id hid p hp
    · rename_i q hq
      simp only [returns] at h
      obtain ⟨-, howner, h⟩ := h
      rw [removalWork_cons, hq, Option.isSome_some, if_pos rfl] at hallows
      obtain ⟨hdone, hallows'⟩ := removeProposal_of_allows hallows hr
      rw [if_neg (Bool.eq_false_iff.mp hdone)] at h
      intro id hid p hp
      rcases mem_cons.mp hid with rfl | hid
      · rw [hq, Option.some.injEq] at hp
        exact hp ▸ howner
      refine ih hrest ?_ hdone h id hid p ?_
      · rw [removalWork_removeProposal hi]
        exact hallows'
      · rw [(removeProposal_erased i r S).find_of_not fun heq => hi (heq ▸ hid)]
        exact hp

/-! ### Marking -/

/-- The loop that marks proposals as removed. -/
def markAll (ids : List Nat) (S : Sps) : Sps := ids.foldl (fun S id => S.markRemoved id) S

/-- Only the given proposal is marked. -/
theorem markRemoved_find (S : Sps) (id i : Nat) :
    (S.markRemoved id).proposals.find? i = (S.proposals.find? i).map fun p =>
      if i = id ∧ p.removed = false then
        { p with removed := true, endDate := S.headTime - maintenanceCleanup }
      else p := by
  unfold markRemoved
  cases hp : S.proposals.find? id with
  | none =>
    cases hi : S.proposals.find? i with
    | none => rfl
    | some q =>
      have hne : i ≠ id := by
        rintro rfl
        rw [hi] at hp
        cases hp
      rw [Option.map_some, if_neg fun h => hne h.1]
  | some p =>
    dsimp only
    split_ifs with hremoved
    · cases hi : S.proposals.find? i with
      | none => rfl
      | some q =>
        rw [Option.map_some, if_neg]
        rintro ⟨rfl, hq⟩
        rw [hp, Option.some.injEq] at hi
        rw [hi, hq] at hremoved
        cases hremoved
    · dsimp only
      rw [Table.find?_set hp]
      split_ifs with heq
      · subst heq
        rw [hp, Option.map_some, if_pos ⟨rfl, Bool.eq_false_iff.mpr hremoved⟩]
      · cases S.proposals.find? i with
        | none => rfl
        | some q => rw [Option.map_some, if_neg fun h => heq h.1]

theorem markRemoved_rest (S : Sps) (id : Nat) :
    S.markRemoved id = { S with proposals := (S.markRemoved id).proposals } := by
  unfold markRemoved
  cases S.proposals.find? id with
  | none => rfl
  | some p =>
    dsimp only
    split_ifs <;> rfl

theorem markAll_rest (ids : List Nat) (S : Sps) :
    S.markAll ids = { S with proposals := (S.markAll ids).proposals } := by
  induction ids generalizing S with
  | nil => rfl
  | cons id rest ih =>
    have h := ih (S.markRemoved id)
    rw [markRemoved_rest S id] at h
    unfold markAll at h ⊢
    rw [foldl_cons, markRemoved_rest S id]
    exact h

/-- What the marking makes of a proposal. -/
theorem markAll_find (ids : List Nat) (S : Sps) (i : Nat) :
    (S.markAll ids).proposals.find? i = (S.proposals.find? i).map fun p =>
      if i ∈ ids ∧ p.removed = false then
        { p with removed := true, endDate := S.headTime - maintenanceCleanup }
      else p := by
  induction ids generalizing S with
  | nil =>
    cases h : S.proposals.find? i with
    | none => exact h
    | some p => simpa [markAll] using h
  | cons id rest ih =>
    have htime : (S.markRemoved id).headTime = S.headTime := by
      rw [markRemoved_rest S id]
      rfl
    have h := ih (S.markRemoved id)
    rw [markRemoved_find, htime, Option.map_map] at h
    refine h.trans ?_
    cases S.proposals.find? i with
    | none => rfl
    | some p =>
      by_cases hp : p.removed = false
      · by_cases hi : i = id <;> by_cases hr : i ∈ rest <;> simp [hp, hi, hr]
      · simp [hp]

/-! ### The operation -/

/-- A proposal and its votes are the same. -/
def Untouched (id : Nat) (S S' : Sps) : Prop :=
  S'.proposals.find? id = S.proposals.find? id ∧
    ∀ voter, S'.votes.find? (id, voter) = S.votes.find? (id, voter)

/-- The removal goes first and the marking second. -/
theorem removeProposals_eq_ok {o : RemoveProposal} (h : S.removeProposals o = .ok S') :
    ∃ S1, S.removeOwned o.proposalOwner o.proposalIds.ids { threshold := S.removeThreshold } =
      .ok S1 ∧ S' = S1.markAll o.proposalIds.ids := by
  simp only [removeProposals, returns] at h
  obtain ⟨-, -, a, -, -, -, S1, h1, h⟩ := h
  exact ⟨S1, h1, h.symm⟩

/-- An accepted removal leaves the proposals of others alone if and only if the threshold does not
stop it, or what it names are proposals of the owner and proposals marked before. -/
theorem removeProposals_untouched_iff {o : RemoveProposal} (h : S.removeProposals o = .ok S') :
    (∀ id p, S.proposals.find? id = some p → p.creator ≠ o.proposalOwner → Untouched id S S') ↔
      S.removeThreshold < 0 ∨
      S.removalWork o.proposalIds.ids ≤ S.removeThreshold.toInt ∨
      ∀ id ∈ o.proposalIds.ids, ∀ p, S.proposals.find? id = some p →
        p.creator = o.proposalOwner ∨ p.removed = true := by
  obtain ⟨S1, h1, rfl⟩ := removeProposals_eq_ok h
  have herased := removeOwned_erased h1
  have hnodup : o.proposalIds.ids.Nodup := o.proposalIds.sorted.imp fun h => h.ne
  constructor
  · intro huntouched
    refine .inr (.inr fun id hid p hp => ?_)
    by_contra hnot
    obtain ⟨howner, hremoved⟩ := not_or.mp hnot
    have hsame := (huntouched id p hp howner).1
    have hnotOwned : ¬ S.OwnedBy o.proposalOwner id := by
      rintro ⟨q, hq, hq'⟩
      rw [hp, Option.some.injEq] at hq
      exact howner (hq ▸ hq')
    rw [markAll_find, herased.find_of_not hnotOwned, hp, Option.map_some,
      if_pos ⟨hid, Bool.eq_false_iff.mpr hremoved⟩, Option.some.injEq] at hsame
    exact hremoved (congrArg Proposal.removed hsame).symm
  · intro hcondition id p hp howner
    have hnamed : ∀ id ∈ o.proposalIds.ids, ∀ p, S.proposals.find? id = some p →
        p.creator = o.proposalOwner ∨ p.removed = true := by
      by_cases hallows : Allows { threshold := S.removeThreshold }
          (S.removalWork o.proposalIds.ids)
      · exact fun id hid p hp => .inl (owned_of_removeOwned hnodup hallows rfl h1 id hid p hp)
      rcases hcondition with hneg | hwork | hnamed
      · exact absurd (.inl hneg) hallows
      · refine absurd (.inr ?_) hallows
        rw [Int16.toInt_zero, zero_add]
        exact hwork
      · exact hnamed
    have hnotOwned : ¬ S.OwnedBy o.proposalOwner id := by
      rintro ⟨q, hq, hq'⟩
      rw [hp, Option.some.injEq] at hq
      exact howner (hq ▸ hq')
    refine ⟨?_, fun voter => ?_⟩
    · rw [markAll_find, herased.find_of_not hnotOwned, hp, Option.map_some, if_neg]
      rintro ⟨hid, hfalse⟩
      have hremoved := (hnamed id hid p hp).resolve_left howner
      rw [hfalse] at hremoved
      cases hremoved
    · rw [markAll_rest]
      exact herased.votes_other (id, voter) hnotOwned

/-- A chain at hardfork 21 with a price, whose treasury holds SBD and where the accounts 2 and 5
have each posted an article. -/
def foundingSteps : List SpsStep :=
  [.ledger (.accountCreate initMinerAccount treasuryAccount 0),
    .ledger (.accountCreate initMinerAccount 5 0),
    .ledger (.transferToVesting initMinerAccount none 1000)] ++
  List.replicate 21 (.ledger .applyHardfork) ++
  [.ledger (.setMedian ⟨⟨1, .sbd⟩, ⟨1, .freezone⟩, by decide, by decide, by decide⟩),
    .ledger (.transfer initMinerAccount 5 ⟨50000, .sbd⟩),
    .ledger (.transfer initMinerAccount treasuryAccount ⟨8640000, .sbd⟩),
    .comment initMinerAccount 0, .comment 5 0]

/-- Each of the two accounts makes a proposal, and account 2 votes for its own. -/
@[irreducible] def contested : Sps :=
  (start (Ledger.genesis genesisTime 1000000 10000000) 0).run (foundingSteps ++
    [.createProposal ⟨2, 2, genesisTime, genesisTime + 864000, ⟨1000, .sbd⟩, 0⟩,
      .createProposal ⟨5, 5, genesisTime, genesisTime + 864000, ⟨1000, .sbd⟩, 0⟩,
      .updateProposalVotes ⟨2, ⟨[0], by decide⟩, true⟩])

theorem removeProposals_untouched_iff_contested :
    ∃ S', contested.removeProposals ⟨2, ⟨[0], by decide⟩⟩ = .ok S' ∧
      ∀ id p, contested.proposals.find? id = some p → p.creator ≠ 2 →
          Untouched id contested S' := by
  have hok : (contested.removeProposals ⟨2, ⟨[0], by decide⟩⟩).toBool = true := by decide +kernel
  have howner : (contested.proposals.find? 0).map Proposal.creator = some 2 := by decide +kernel
  cases h : contested.removeProposals ⟨2, ⟨[0], by decide⟩⟩ with
  | error e =>
    rw [h] at hok
    cases hok
  | ok S' =>
    refine ⟨S', rfl, (removeProposals_untouched_iff h).mpr (.inr (.inr ?_))⟩
    intro id hid p hp
    rw [mem_singleton.mp hid] at hp
    rw [hp] at howner
    exact .inl (Option.some.inj howner)

/-- With a threshold of zero, account 2 removes a proposal of account 5 by naming its own first. -/
theorem removeProposals_touched_contested :
    ∃ S', contested.removeProposals ⟨2, ⟨[0, 1], by decide⟩⟩ = .ok S' ∧
      ∃ p, contested.proposals.find? 1 = some p ∧ p.creator = 5 ∧ ¬ Untouched 1 contested S' := by
  have hbefore : (contested.proposals.find? 1).map (fun p => (p.creator, p.removed)) =
    some (5, false) := by decide +kernel
  have hafter : ((contested.removeProposals ⟨2, ⟨[0, 1], by decide⟩⟩).toOption.bind
      fun S' => (S'.proposals.find? 1).map Proposal.removed) = some true := by decide +kernel
  cases h : contested.removeProposals ⟨2, ⟨[0, 1], by decide⟩⟩ with
  | error e =>
    rw [h] at hafter
    cases hafter
  | ok S' =>
    rw [Option.map_eq_some_iff] at hbefore
    obtain ⟨p, hp, hfields⟩ := hbefore
    rw [Prod.mk.injEq] at hfields
    refine ⟨S', rfl, p, hp, hfields.1, fun huntouched => ?_⟩
    have hremoved : (S'.proposals.find? 1).map Proposal.removed = some true := by
      rw [h] at hafter
      exact hafter
    rw [huntouched.1, hp, Option.map_some, hfields.2] at hremoved
    cases hremoved

end Freezone.Chain.Proposals.Sps
