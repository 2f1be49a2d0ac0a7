import Freezone.Chain.Ledger.Growth
import Freezone.Chain.Proposals.Payouts

/-!
# The integrity of proposals and votes

In every run each vote refers to a proposal, and a proposal that is marked as removed
has ended, so it is neither paid nor voted for while its removal goes on.
-/

namespace Freezone.Chain.Proposals.Sps

open Protocol Funds Table Option Except

variable {S S' : Sps}

/-- Votes refer to proposals, and proposals marked as removed have ended. -/
structure Intact (S : Sps) : Prop where
  votes : S.votes.All fun k _ => k.1 ∈ S.proposals.keys
  ended : S.proposals.Holds fun p => p.removed = true → p.endDate < S.headTime
  started : 0 < S.headTime

/-- What a proposal may become: its receiver stays, and so does the mark of its removal, with
the date on which it ended. -/
structure Later (now : Nat) (p p' : Proposal) : Prop where
  receiver : p'.receiver = p.receiver
  stays : p.removed = true → p'.removed = true ∧ p'.endDate = p.endDate
  marked : p'.removed = true → p.removed = true ∨ p'.endDate < now

theorem Later.refl (now : Nat) (p : Proposal) : Later now p p := ⟨rfl, fun h => ⟨h, rfl⟩, .inl⟩

/-- What a step may do. A vote is new only for a proposal that is not marked, a proposal is gone
only with its votes, and a new proposal is not marked. -/
structure Progress (S S' : Sps) : Prop where
  accounts : S.ledger.accounts.keys ⊆ S'.ledger.accounts.keys
  time : S.headTime ≤ S'.headTime
  votes : ∀ k, (S'.votes.find? k).isSome → (S.votes.find? k).isSome ∨
    (∃ p, S.proposals.find? k.1 = some p ∧ p.removed = false) ∧ k.2 ∈ S.ledger.accounts.keys
  gone : ∀ id p, S.proposals.find? id = some p → (S'.proposals.find? id).isSome ∨
    ∀ voter, S'.votes.find? (id, voter) = none
  proposals : ∀ id p', S'.proposals.find? id = some p' →
    (∃ p, S.proposals.find? id = some p ∧ Later S.headTime p p') ∨
      S.proposals.find? id = none ∧ p'.removed = false ∧ p'.receiver ∈ S.ledger.accounts.keys

/-- The votes stay votes for proposals that exist. -/
theorem Intact.progress (hS : S.Intact) (h : Progress S S') : S'.Intact where
  votes k u hu := by
    have hexists : ∃ p, S.proposals.find? k.1 = some p := by
      rcases h.votes k (isSome_iff_exists.mpr ⟨u, hu⟩) with hold | ⟨⟨p, hp, -⟩, -⟩
      · obtain ⟨u', hu'⟩ := isSome_iff_exists.mp hold
        exact isSome_iff_exists.mp (mem_keys.mp (hS.votes k u' hu'))
      · exact ⟨p, hp⟩
    obtain ⟨p, hp⟩ := hexists
    refine mem_keys.mpr ((h.gone k.1 p hp).resolve_right fun hnone => ?_)
    have hvote : S'.votes.find? k = none := hnone k.2
    rw [hvote] at hu
    cases hu
  ended id p' hp' hremoved := by
    refine lt_of_lt_of_le ?_ h.time
    rcases h.proposals id p' hp' with ⟨p, hp, hlater⟩ | ⟨-, hfalse, -⟩
    · rcases hlater.marked hremoved with hbefore | hdate
      · rw [(hlater.stays hbefore).2]
        exact hS.ended id p hp hbefore
      · exact hdate
    · rw [hfalse] at hremoved
      cases hremoved
  started := hS.started.trans_le h.time

/-- Voters and receivers stay accounts. -/
theorem Registered.progress (hS : S.Registered) (h : Progress S S') : S'.Registered where
  voters k u hu := by
    apply h.accounts
    rcases h.votes k (isSome_iff_exists.mpr ⟨u, hu⟩) with hold | ⟨-, hvoter⟩
    · obtain ⟨u', hu'⟩ := isSome_iff_exists.mp hold
      exact hS.voters k u' hu'
    · exact hvoter
  receivers id p' hp' := by
    apply h.accounts
    rcases h.proposals id p' hp' with ⟨p, hp, hlater⟩ | ⟨-, -, hreceiver⟩
    · rw [hlater.receiver]
      exact hS.receivers id p hp
    · exact hreceiver

/-- A step that leaves proposals and votes alone. -/
theorem progress_of_same (hproposals : S'.proposals = S.proposals) (hvotes : S'.votes = S.votes)
    (hgrows : Ledger.Grows S.ledger S'.ledger) : Progress S S' where
  accounts := hgrows.accounts
  time := hgrows.time
  votes k hk := .inl (hvotes ▸ hk)
  gone id p hp := by
    rw [hproposals, hp]
    exact .inl rfl
  proposals id p' hp' := by
    rw [hproposals] at hp'
    exact .inl ⟨p', hp', .refl _ p'⟩

/-! ### Operations -/

theorem createProposal_progress {o : CreateProposal} (h : S.createProposal o = .ok S') :
    Progress S S' := by
  simp only [createProposal, returns] at h
  obtain ⟨-, -, -, -, -, -, t, -, c, -, -, hreceiver, -, -, proposals, hinsert,
    ledger, hfee, rfl⟩ :=
    h
  have hgrows := (Ledger.payProposalFee_conserves hfee).toGrows
  refine ⟨hgrows.accounts, hgrows.time, fun k hk => .inl hk, fun id p hp => .inl ?_, ?_⟩
  · dsimp only
    rw [find?_insert hinsert]
    split_ifs
    · rfl
    · rw [hp]
      rfl
  · intro id p' hp'
    rw [find?_insert hinsert] at hp'
    split_ifs at hp' with hid
    · rw [some.injEq] at hp'
      subst hid hp'
      exact .inr ⟨(insert_eq_some.mp hinsert).1, rfl, mem_keys.mpr hreceiver⟩
    · exact .inl ⟨p', hp', .refl _ p'⟩

/-- Votes change only for proposals that are there and not marked. -/
theorem updateVote_votes {voter : AccountName} {approve : Bool} {id : Nat}
    (h : S.updateVote voter approve id = .ok S') :
    S' = { S with votes := S'.votes } ∧ ∀ k, (S'.votes.find? k).isSome →
      (S.votes.find? k).isSome ∨
        (∃ p, S.proposals.find? k.1 = some p ∧ p.removed = false) ∧ k.2 = voter := by
  unfold updateVote at h
  split at h
  · cases h
    exact ⟨rfl, fun _ => .inl⟩
  rename_i p hp
  split_ifs at h with hremoved happrove hvoted
  · exact ok.inj h ▸ ⟨rfl, fun _ => .inl⟩
  · exact ok.inj h ▸ ⟨rfl, fun _ => .inl⟩
  · simp only [returns] at h
    obtain ⟨votes, hinsert, rfl⟩ := h
    refine ⟨rfl, fun k hk => ?_⟩
    rw [find?_insert hinsert] at hk
    split_ifs at hk with hkey
    · subst hkey
      exact .inr ⟨⟨p, hp, Bool.eq_false_iff.mpr hremoved⟩, rfl⟩
    · exact .inl hk
  · cases h
    refine ⟨rfl, fun k hk => .inl ?_⟩
    rw [find?_erase] at hk
    split_ifs at hk
    · cases hk
    · exact hk

theorem updateVotes_votes {voter : AccountName} {approve : Bool} {ids : List Nat}
    (h : forEach (updateVote voter approve) ids S = .ok S') :
    S' = { S with votes := S'.votes } ∧ ∀ k, (S'.votes.find? k).isSome →
      (S.votes.find? k).isSome ∨
        (∃ p, S.proposals.find? k.1 = some p ∧ p.removed = false) ∧ k.2 = voter := by
  refine forEach_invariant (P := fun S1 => S1 = { S with votes := S1.votes } ∧
    ∀ k, (S1.votes.find? k).isSome → (S.votes.find? k).isSome ∨
      (∃ p, S.proposals.find? k.1 = some p ∧ p.removed = false) ∧ k.2 = voter)
    (fun id _ S1 S2 hS1 h2 => ?_) ⟨rfl, fun _ => .inl⟩ h
  obtain ⟨hrest, hvotes⟩ := updateVote_votes h2
  have hproposals : S1.proposals = S.proposals := by rw [hS1.1]
  refine ⟨?_, fun k hk => ?_⟩
  · rw [hrest, hS1.1]
  · rcases hvotes k hk with hold | hnew
    · exact hS1.2 k hold
    · exact .inr (hproposals ▸ hnew)

theorem updateProposalVotes_progress {o : UpdateProposalVotes}
    (h : S.updateProposalVotes o = .ok S') : Progress S S' := by
  simp only [updateProposalVotes, returns, Ledger.getAccount_eq_ok] at h
  obtain ⟨-, -, a, ha, -, -, h⟩ := h
  obtain ⟨hrest, hvotes⟩ := updateVotes_votes h
  have hproposals : S'.proposals = S.proposals := by rw [hrest]
  have hledger : S'.ledger = S.ledger := by rw [hrest]
  have hvoter : o.voter ∈ S.ledger.accounts.keys :=
    mem_keys.mpr (isSome_iff_exists.mpr ⟨a, ha⟩)
  refine ⟨hledger ▸ subset_rfl, ?_, fun k hk => ?_, fun id p hp => ?_, fun id p' hp' => ?_⟩
  · unfold headTime
    rw [hledger]
  · exact (hvotes k hk).imp_right fun ⟨hp, hk⟩ => ⟨hp, hk ▸ hvoter⟩
  · rw [hproposals, hp]
    exact .inl rfl
  · rw [hproposals] at hp'
    exact .inl ⟨p', hp', .refl _ p'⟩

/-- Erasing proposals with their votes. -/
theorem Erased.progress {A : Nat → Prop} (h : Erased A S S') : Progress S S' where
  accounts := by rw [h.rest]
  time := by
    unfold headTime
    rw [h.rest]
  votes k hk := .inl (h.votes_kept k hk)
  gone id p hp := by
    rcases h.proposals id with hsame | ⟨-, -, hnone⟩
    · rw [hsame, hp]
      exact .inl rfl
    · exact .inr hnone
  proposals id p' hp' := .inl ⟨p', h.find_of_some hp', .refl _ p'⟩

/-- A removal erases the votes of a proposal before it. -/
theorem removeProposals_progress {o : RemoveProposal} (hS : S.Intact)
    (h : S.removeProposals o = .ok S') : Progress S S' := by
  obtain ⟨S1, h1, rfl⟩ := removeProposals_eq_ok h
  have herased := removeOwned_erased h1
  have hp1 := herased.progress
  have htime : S1.headTime = S.headTime := by
    unfold headTime
    rw [herased.rest]
  have hvotes : (S1.markAll o.proposalIds.ids).votes = S1.votes := by
    rw [markAll_rest]
  have hledger : (S1.markAll o.proposalIds.ids).ledger = S1.ledger := by
    rw [markAll_rest]
  refine ⟨hledger ▸ hp1.accounts, ?_, fun k hk => hp1.votes k (hvotes ▸ hk), fun id p hp => ?_,
    fun id p' hp' => ?_⟩
  · unfold headTime
    rw [hledger]
    exact hp1.time
  · rw [hvotes, markAll_find, isSome_map]
    exact hp1.gone id p hp
  · rw [markAll_find, map_eq_some_iff] at hp'
    obtain ⟨p, hp, rfl⟩ := hp'
    refine .inl ⟨p, herased.find_of_some hp, ?_⟩
    split_ifs with hmark
    · refine ⟨rfl, fun hremoved => ?_, fun _ => .inr ?_⟩
      · rw [hmark.2] at hremoved
        cases hremoved
      · have := hS.started
        dsimp only [maintenanceCleanup]
        omega
    · exact .refl _ p

/-! ### Blocks -/

/-- Storing the votes changes nothing else of the proposals. -/
theorem storeAll_related {counted : List (Nat × Proposal)} {t : Table Nat Proposal}
    (h : ∀ e ∈ counted, ∃ p votes, t.find? e.1 = some p ∧ e.2 = { p with totalVotes := votes }) :
    Table.Related (fun _ p p' => ∃ votes, p' = { p with totalVotes := votes }) t
      (storeAll counted t) := by
  induction counted generalizing t with
  | nil => exact related_refl t fun _ p => ⟨p.totalVotes, rfl⟩
  | cons e rest ih =>
    rw [List.forall_mem_cons] at h
    obtain ⟨⟨p, votes, hp, he⟩, hrest⟩ := h
    have hone : Related (fun _ p p' => ∃ votes, p' = { p with totalVotes := votes }) t
        (t.set e.1 e.2) :=
      related_set hp ⟨votes, he⟩ fun _ q _ => ⟨q.totalVotes, rfl⟩
    refine hone.trans (ih fun e' he' => ?_) ?_
    · obtain ⟨q, votes', hq, heq⟩ := hrest e' he'
      obtain ⟨q', hq', w, rfl⟩ := hone.after hq
      exact ⟨_, votes', hq', heq⟩
    · rintro k q q' q'' ⟨v, rfl⟩ ⟨w, rfl⟩
      exact ⟨w, rfl⟩

/-- Payments make no proposal. -/
theorem makePayments_progress (h : S.makePayments = .ok S') : Progress S S' ∧
    ∀ id p', S'.proposals.find? id = some p' → (S.proposals.find? id).isSome := by
  unfold makePayments at h
  split_ifs at h with hdue
  · cases h
    exact ⟨progress_of_same rfl rfl (.refl _), fun _ p' hp' => isSome_iff_exists.mpr ⟨p', hp'⟩⟩
  simp only [returns] at h
  obtain ⟨counted, hcounted, ledger, hledger, rfl⟩ := h
  have hgrows := (Ledger.makePayments_conserves hledger).toGrows
  have hrelated := storeAll_related (t := S.proposals) fun e he => by
    obtain ⟨e0, he0, votes, -, rfl⟩ := mem_counted hcounted he
    exact ⟨e0.2, votes, (mem_findActiveProposals.mp he0).1, rfl⟩
  refine ⟨⟨hgrows.accounts, hgrows.time, fun k hk => .inl hk, fun id p hp => .inl ?_,
    fun id p' hp' => .inl ?_⟩, fun id p' hp' => ?_⟩
  · obtain ⟨p', hp', -⟩ := hrelated.after hp
    exact isSome_iff_exists.mpr ⟨p', hp'⟩
  · obtain ⟨p, hp, votes, rfl⟩ := hrelated.before hp'
    exact ⟨p, hp, rfl, fun h => ⟨h, rfl⟩, .inl⟩
  · obtain ⟨p, hp, -⟩ := hrelated.before hp'
    exact isSome_iff_exists.mpr ⟨p, hp⟩

/-- A step that makes no proposal, after proposals have been erased. -/
theorem Progress.after_erased {A : Nat → Prop} {S1 : Sps} (h1 : Erased A S S1) (h : Progress S1 S')
    (hold : ∀ id p', S'.proposals.find? id = some p' → (S1.proposals.find? id).isSome) :
    Progress S S' := by
  have hledger : S1.ledger = S.ledger := by rw [h1.rest]
  have htime : S1.headTime = S.headTime := by
    unfold headTime
    rw [hledger]
  refine ⟨hledger ▸ h.accounts, htime ▸ h.time, fun k hk => ?_, fun id p hp => ?_,
    fun id p' hp' => ?_⟩
  · rcases h.votes k hk with hvote | ⟨⟨p, hp, hremoved⟩, hvoter⟩
    · exact .inl (h1.votes_kept k hvote)
    · exact .inr ⟨⟨p, h1.find_of_some hp, hremoved⟩, hledger ▸ hvoter⟩
  · rcases h1.proposals id with hsame | ⟨-, hgone, hnone⟩
    · exact h.gone id p (hsame.trans hp)
    refine .inr fun voter => ?_
    rw [eq_none_iff_forall_ne_some]
    intro u hu
    rcases h.votes (id, voter) (isSome_iff_exists.mpr ⟨u, hu⟩) with hvote | ⟨⟨p, hp, -⟩, -⟩
    · rw [hnone voter] at hvote
      cases hvote
    · rw [hgone] at hp
      cases hp
  · rcases h.proposals id p' hp' with ⟨p, hp, hlater⟩ | ⟨hnew, -⟩
    · exact .inl ⟨p, h1.find_of_some hp, htime ▸ hlater⟩
    · have hsome := hold id p' hp'
      rw [hnew] at hsome
      cases hsome

theorem processProposals_progress (h : S.processProposals = .ok S') : Progress S S' := by
  unfold processProposals at h
  split_ifs at h with hfork
  · obtain ⟨hprogress, hold⟩ := makePayments_progress h
    exact hprogress.after_erased (removeExpired_erased _) hold
  · exact ok.inj h ▸ progress_of_same rfl rfl (.refl _)

/-! ### Runs -/

/-- Every step is progress: what is gone has no votes left. -/
theorem apply_progress {step : SpsStep} (hS : S.Intact) (h : S.apply step = .ok S') :
    Progress S S' := by
  cases step with
  | createProposal o => exact createProposal_progress h
  | updateProposalVotes o => exact updateProposalVotes_progress h
  | removeProposals o => exact removeProposals_progress hS h
  | processProposals => exact processProposals_progress h
  | setRemoveThreshold | setProxying | comment =>
    exact ok.inj h ▸ progress_of_same rfl rfl (.refl _)
  | ledger step =>
    simp only [apply, returns] at h
    obtain ⟨-, -, L, hL, rfl⟩ := h
    -- the ledger's other steps keep its accounts and do not turn back the time
    have hkeeps : S.ledger.accounts.keys ⊆ L.accounts.keys ∧
        S.ledger.props.time ≤ L.props.time := by
      by_cases hstep : step = .applyHardfork
      · subst hstep
        exact Ledger.applyHardfork_keeps hL
      · have hgrows := Ledger.apply_grows hstep hL
        exact ⟨hgrows.accounts, hgrows.time⟩
    exact ⟨hkeeps.1, hkeeps.2, fun _ hk => .inl hk, fun id p hp =>
      .inl (isSome_iff_exists.mpr ⟨p, hp⟩), fun id p' hp' => .inl ⟨p', hp', .refl _ p'⟩⟩

/-- Every step keeps the votes, the voters and the receivers. -/
theorem afterStep_sound (hS : S.Intact ∧ S.Registered) (step : SpsStep) :
    (S.afterStep step).Intact ∧ (S.afterStep step).Registered := by
  unfold afterStep
  split
  · rename_i S' h
    have hprogress := apply_progress hS.1 h
    exact ⟨hS.1.progress hprogress, hS.2.progress hprogress⟩
  · exact hS

/-- In every state of a run votes refer to proposals, and voters and receivers have accounts. -/
theorem run_sound (hS : S.Intact ∧ S.Registered) (steps : List SpsStep) :
    (S.run steps).Intact ∧ (S.run steps).Registered := by
  induction steps generalizing S with
  | nil => exact hS
  | cons step steps ih => exact ih (afterStep_sound hS step)

/-- A payment goes to a proposal that is not marked. -/
theorem Intact.paid (hS : S.Intact) {payments : List ((Nat × Proposal) × Int)}
    (h : S.payments = .ok payments) {x : (Nat × Proposal) × Int} (hx : x ∈ payments) :
    ∃ p, S.proposals.find? x.1.1 = some p ∧ p.removed = false := by
  by_cases hdue : S.headTime < S.ledger.props.nextMaintenanceTime
  · rw [Sps.payments, if_pos hdue, ok.injEq] at h
    rw [← h] at hx
    cases hx
  · obtain ⟨counted, hcounted, hpayments⟩ := (payments_eq_ok hdue).mp h
    have hmem : x.1 ∈ sortByVotes counted := by
      unfold paymentsOf at hpayments
      split_ifs at hpayments with hnil
      · rw [ok.injEq] at hpayments
        rw [← hpayments] at hx
        cases hx
      · simp only [returns] at hpayments
        obtain ⟨t, -, budget, -, rfl⟩ := hpayments
        split_ifs at hx with hzero
        · cases hx
        · obtain ⟨rest, hrest, -⟩ :=
            payouts_take S.ledger.paymentRatio (sortByVotes counted) budget
          rw [hrest]
          exact List.mem_append_left _ (List.mem_map_of_mem hx)
    obtain ⟨e, he, votes, -, hx1⟩ := mem_counted hcounted ((List.mem_insertionSort _).mp hmem)
    obtain ⟨hfind, -, hend⟩ := mem_findActiveProposals.mp he
    rw [hx1]
    refine ⟨e.2, hfind, ?_⟩
    by_contra hremoved
    have hlt := hS.ended e.1 e.2 hfind (by simpa using hremoved)
    omega

/-- In every run each vote refers to a proposal, no block pays a proposal that is marked as removed,
and no step adds a vote to one or takes its mark away. -/
theorem run_integrity (initSupply sbdInitSupply : Nat) (threshold : Int16) (steps : List SpsStep) :
    let S := (start (Ledger.genesis genesisTime initSupply sbdInitSupply) threshold).run steps
    (∀ id voter, (S.votes.find? (id, voter)).isSome → (S.proposals.find? id).isSome) ∧
      (∀ payments, S.removeOldProposals.payments = .ok payments → ∀ x ∈ payments,
        ∃ p, S.proposals.find? x.1.1 = some p ∧ p.removed = false) ∧
      ∀ step S', S.apply step = .ok S' → ∀ id p, S.proposals.find? id = some p →
        p.removed = true →
          (∀ voter, (S'.votes.find? (id, voter)).isSome → (S.votes.find? (id, voter)).isSome) ∧
          ∀ p', S'.proposals.find? id = some p' → p'.removed = true := by
  intro S
  have htime : 0 < (Ledger.genesis genesisTime initSupply sbdInitSupply).props.time :=
    show 0 < genesisTime by decide
  have hS : S.Intact := (run_sound
    ⟨⟨all_empty _, holds_empty _, by exact htime⟩, ⟨all_empty _, holds_empty _⟩⟩ steps).1
  refine ⟨fun id voter hvote => ?_, fun payments hpayments x hx => ?_, ?_⟩
  · obtain ⟨u, hu⟩ := isSome_iff_exists.mp hvote
    exact mem_keys.mp (hS.votes (id, voter) u hu)
  · have herased : Erased (fun _ => True) S S.removeOldProposals := removeExpired_erased _
    obtain ⟨p, hp, hremoved⟩ := (hS.progress herased.progress).paid hpayments hx
    exact ⟨p, herased.find_of_some hp, hremoved⟩
  · intro step S' h id p hp hremoved
    have hprogress := apply_progress hS h
    refine ⟨fun voter hvote => ?_, fun p' hp' => ?_⟩
    · refine (hprogress.votes (id, voter) hvote).resolve_right ?_
      rintro ⟨⟨q, hq, hfalse⟩, -⟩
      rw [hp, some.injEq] at hq
      rw [← hq, hremoved] at hfalse
      cases hfalse
    · rcases hprogress.proposals id p' hp' with ⟨q, hq, hlater⟩ | ⟨hnone, -⟩
      · rw [hp, some.injEq] at hq
        subst hq
        exact (hlater.stays hremoved).1
      · rw [hp] at hnone
        cases hnone

end Freezone.Chain.Proposals.Sps
