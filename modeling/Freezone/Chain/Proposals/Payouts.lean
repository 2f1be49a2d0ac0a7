import Freezone.Core.Greedy
import Freezone.Core.SortedRange
import Freezone.Chain.Ledger.Adjustments
import Freezone.Chain.Proposals.Removal

/-!
# The payments of a maintenance

What one maintenance pays is a list of proposals with amounts, and the ledger makes
just these transfers. The amounts are within the budget, which is within the treasury
as long as the pause before the maintenance was not longer than a hundred days; later
the maintenance returns only if the proposals with votes ask for less. The ratio of the
days that passed is computed with 32 bits, which are too few after five days.
-/

namespace Freezone.Chain.Proposals

open Protocol Funds List Table

/-- What a proposal is due for a ratio of days. -/
def Proposal.periodPay (ratio : Nat) (p : Proposal) : Int :=
  (ratio * p.dailyPay / hundredPercent : Nat)

/-- The pay of a period is not negative. -/
theorem Proposal.periodPay_nonneg (ratio : Nat) (p : Proposal) : 0 ≤ p.periodPay ratio :=
  Int.natCast_nonneg _

/-- Who is paid by the loop of `transfer_payments`, and how much. -/
def payouts (ratio : Nat) (proposals : List (Nat × Proposal)) (budget : Int) :
    List ((Nat × Proposal) × Int) :=
  Greedy.fill (fun e => e.2.totalVotes = 0) (fun e => e.2.periodPay ratio) proposals budget

variable {ratio : Nat} {e : Nat × Proposal} {budget : Int} {L : Ledger}
  {counted : List (Nat × Proposal)}

/-- The proposals that are paid come first. The next one has no votes, or the budget is used up. -/
theorem payouts_take (ratio : Nat) (proposals : List (Nat × Proposal)) (budget : Int) :
    ∃ rest, proposals = (payouts ratio proposals budget).map Prod.fst ++ rest ∧
      ((∀ e ∈ rest.head?, e.2.totalVotes = 0) ∨
        ((payouts ratio proposals budget).map Prod.snd).sum = budget) :=
  Greedy.fill_take

/-- The two transfers of a payment. -/
def payProposal (x : (Nat × Proposal) × Int) (L : Ledger) : Except String Ledger := do
  let L ← L.adjustBalance treasuryAccount ⟨-x.2, .sbd⟩
  L.adjustBalance x.1.2.receiver ⟨x.2, .sbd⟩

/-- The loop of `transfer_payments` makes the payments of the proposals that it reaches, if the
product of each with the ratio has 64 bits. -/
theorem transferPayments_eq_ok {proposals : List (Nat × Proposal)} {L' : Ledger} :
    L.transferPayments ratio (proposals.map fun e => e.2.toActive) budget = .ok L' ↔
      (∀ x ∈ payouts ratio proposals budget, ratio * x.1.2.dailyPay < 2 ^ 64) ∧
        forEach payProposal (payouts ratio proposals budget) L = .ok L' := by
  induction proposals generalizing L budget with
  | nil => exact ⟨fun h => ⟨by simp [payouts, Greedy.fill], h⟩, fun h => h.2⟩
  | cons e rest ih =>
    rw [map_cons, Ledger.transferPayments]
    by_cases hvotes : e.2.totalVotes = 0
    · rw [if_pos (show e.2.toActive.totalVotes = 0 from hvotes), payouts, Greedy.fill,
        if_pos hvotes]
      exact ⟨fun h => ⟨by simp, h⟩, fun h => h.2⟩
    rw [if_neg (show ¬ e.2.toActive.totalVotes = 0 from hvotes), payouts, Greedy.fill,
      if_neg hvotes]
    simp only [returns, exists_const, forEach, payProposal, forall_mem_cons]
    by_cases hlast : budget ≤ e.2.periodPay ratio
    · rw [if_pos hlast]
      simp only [forEach, Except.ok.injEq]
      constructor
      · rintro ⟨hfits, L1, h1, L2, h2, h⟩
        rw [if_pos (by exact hlast)] at h
        exact ⟨⟨hfits, by simp⟩, L2, ⟨L1, h1, h2⟩, Except.ok.inj h⟩
      · rintro ⟨⟨hfits, -⟩, L2, ⟨L1, h1, h2⟩, h⟩
        refine ⟨hfits, L1, h1, L2, h2, ?_⟩
        rw [if_pos (by exact hlast), h]
    · rw [if_neg hlast]
      constructor
      · rintro ⟨hfits, L1, h1, L2, h2, h⟩
        rw [if_neg (by exact hlast)] at h
        obtain ⟨hrest, h'⟩ := ih.mp h
        exact ⟨⟨hfits, hrest⟩, L2, ⟨L1, h1, h2⟩, h'⟩
      · rintro ⟨⟨hfits, hrest⟩, L2, ⟨L1, h1, h2⟩, h⟩
        refine ⟨hfits, L1, h1, L2, h2, ?_⟩
        rw [if_neg (by exact hlast)]
        exact ih.mpr ⟨hrest, h⟩

/-- What the proposals, in the order of their votes, are paid from the budget. -/
def paymentsOf (proposals : List (Nat × Proposal)) (L : Ledger) :
    Except String (List ((Nat × Proposal) × Int)) :=
  if proposals = [] then .ok []
  else do
    let treasury ← L.getAccount treasuryAccount
    let budget ← L.maintenanceBudget treasury.sbd.balance
    .ok (if budget = 0 then [] else payouts L.paymentRatio proposals budget)

/-- The payments return if they can be computed and the ledger can make them. -/
theorem payProposals_eq_ok {proposals : List (Nat × Proposal)} {L' : Ledger} :
    (if proposals.map (fun e => e.2.toActive) = [] then (.ok L : Except String Ledger)
      else L.payProposals (proposals.map fun e => e.2.toActive)) = .ok L' ↔
      ∃ payments, paymentsOf proposals L = .ok payments ∧
        (∀ x ∈ payments, L.paymentRatio * x.1.2.dailyPay < 2 ^ 64) ∧
        forEach payProposal payments L = .ok L' := by
  by_cases hnil : proposals = []
  · subst hnil
    simp [paymentsOf, forEach]
  rw [if_neg (by simpa using hnil), paymentsOf, if_neg hnil]
  simp only [Ledger.payProposals, returns]
  constructor
  · rintro ⟨treasury, ht, budget, hbudget, h⟩
    split_ifs at h with hzero
    · exact ⟨_, ⟨treasury, ht, budget, hbudget, if_pos hzero⟩, by simp, h⟩
    · obtain ⟨hfits, h⟩ := transferPayments_eq_ok.mp h
      exact ⟨_, ⟨treasury, ht, budget, hbudget, if_neg hzero⟩, hfits, h⟩
  · rintro ⟨payments, ⟨treasury, ht, budget, hbudget, rfl⟩, hfits, h⟩
    refine ⟨treasury, ht, budget, hbudget, ?_⟩
    split_ifs at hfits h ⊢ with hzero
    · exact h
    · exact transferPayments_eq_ok.mpr ⟨hfits, h⟩

namespace Sps

variable {S S' : Sps}

/-- What one maintenance pays. -/
def payments (S : Sps) : Except String (List ((Nat × Proposal) × Int)) :=
  if S.headTime < S.ledger.props.nextMaintenanceTime then .ok []
  else do
    let counted ← S.countVotes S.findActiveProposals
    paymentsOf (sortByVotes counted) S.ledger

/-- The ledger makes these payments and starts a new period. -/
def Pays (payments : List ((Nat × Proposal) × Int)) (L L' : Ledger) : Prop :=
  ∃ L₁, forEach payProposal payments L = .ok L₁ ∧
    L' = { L₁ with props := { L₁.props with
      nextMaintenanceTime := L₁.props.time + 3600
      lastBudgetTime := L₁.props.time } }

/-- A maintenance that is due makes its payments, and returns if they can be made. -/
theorem makePayments_eq_ok (hf : S.ledger.HasHardfork 21)
    (hdue : ¬ S.headTime < S.ledger.props.nextMaintenanceTime) :
    S.makePayments = .ok S' ↔ ∃ counted payments,
      S.countVotes S.findActiveProposals = .ok counted ∧
      paymentsOf (sortByVotes counted) S.ledger = .ok payments ∧
      (∀ x ∈ payments, S.ledger.paymentRatio * x.1.2.dailyPay < 2 ^ 64) ∧
      Pays payments S.ledger S'.ledger ∧
      S' = { S with ledger := S'.ledger, proposals := storeAll counted S.proposals } := by
  have hnot : ¬ (¬ S.ledger.HasHardfork 21 ∨
      S.ledger.props.time < S.ledger.props.nextMaintenanceTime) :=
    not_or.mpr ⟨not_not.mpr hf, hdue⟩
  rw [makePayments, if_neg hdue]
  simp only [returns, Ledger.makePayments, if_neg hnot, payProposals_eq_ok]
  constructor
  · rintro ⟨counted, hcounted, _, ⟨L1, ⟨payments, hpayments, hfits, hpaid⟩, rfl⟩, rfl⟩
    exact ⟨counted, payments, hcounted, hpayments, hfits, ⟨L1, hpaid, rfl⟩, rfl⟩
  · rintro ⟨counted, payments, hcounted, hpayments, hfits, ⟨L1, hpaid, hledger⟩, hS⟩
    exact ⟨counted, hcounted, _, ⟨L1, ⟨payments, hpayments, hfits, hpaid⟩, hledger.symm⟩, hS.symm⟩

/-- The payments are those of the active proposals in the order of their votes. -/
theorem payments_eq_ok (hdue : ¬ S.headTime < S.ledger.props.nextMaintenanceTime)
    {payments : List ((Nat × Proposal) × Int)} :
    S.payments = .ok payments ↔ ∃ counted, S.countVotes S.findActiveProposals = .ok counted ∧
      paymentsOf (sortByVotes counted) S.ledger = .ok payments := by
  rw [Sps.payments, if_neg hdue]
  simp only [returns]

/-! ### Counting the votes -/

/-- What a vote weighs: nothing, if the voter has a proxy. -/
def stakeOf (voter : AccountName) (S : Sps) : Int :=
  match S.ledger.accounts.find? voter with
  | none => 0
  | some a => if (S.proxying voter).proxy = none then S.witnessVoteWeight voter a else 0

/-- The stake of the voters of a proposal that have no proxy. -/
def stake (id : Nat) (S : Sps) : Int := ((S.votersOf id).map fun voter => S.stakeOf voter).sum

/-- The loop adds the stakes in numbers of 64 bits. -/
theorem calculateVotes_eq {voters : List AccountName} {votes total : Nat} (hvotes : votes < 2 ^ 64)
    (h : S.calculateVotes voters votes = .ok total) :
    (total : Int) = (votes + (voters.map fun voter => S.stakeOf voter).sum) % 2 ^ 64 := by
  induction voters generalizing votes with
  | nil =>
    rw [calculateVotes, Except.ok.injEq] at h
    simp only [map_nil, sum_nil, add_zero]
    omega
  | cons voter rest ih =>
    simp only [calculateVotes, returns, Ledger.getAccount_eq_ok] at h
    obtain ⟨a, ha, h⟩ := h
    rw [map_cons, sum_cons]
    split_ifs at h with hproxy
    · have hstake : S.stakeOf voter = S.witnessVoteWeight voter a := by
        simp only [stakeOf, ha, if_pos hproxy]
      rw [ih (by omega) h, hstake]
      omega
    · have hstake : S.stakeOf voter = 0 := by
        simp only [stakeOf, ha, if_neg hproxy]
      rw [ih hvotes h, hstake, zero_add]

/-- The votes can be counted if the voters have accounts. -/
theorem exists_calculateVotes {voters : List AccountName} (votes : Nat)
    (h : ∀ voter ∈ voters, (S.ledger.accounts.find? voter).isSome) :
    ∃ total, S.calculateVotes voters votes = .ok total := by
  induction voters generalizing votes with
  | nil => exact ⟨votes, rfl⟩
  | cons voter rest ih =>
    obtain ⟨a, ha⟩ := Option.isSome_iff_exists.mp (h voter mem_cons_self)
    have hrest := fun v hv => h v (mem_cons_of_mem _ hv)
    simp only [calculateVotes, Ledger.getAccount, ha, orThrow]
    split_ifs
    · exact ih _ hrest
    · exact ih _ hrest

/-- A counted proposal is an active one with its votes. -/
theorem countVotes_eq_ok {l : List (Nat × Proposal)} (h : S.countVotes l = .ok counted) :
    List.Forall₂ (fun e e' => ∃ votes, S.calculateVotes (S.votersOf e.1) 0 = .ok votes ∧
      e' = (e.1, { e.2 with totalVotes := votes })) l counted := by
  refine (Checked.mapM_eq_ok.mp h).imp fun e e' he => ?_
  simp only [returns] at he
  obtain ⟨votes, hvotes, rfl⟩ := he
  exact ⟨votes, hvotes, rfl⟩

/-- Votes of registered voters can be counted. -/
theorem exists_countVotes (l : List (Nat × Proposal))
    (h : S.votes.All fun k _ => k.2 ∈ S.ledger.accounts.keys) :
    ∃ counted, S.countVotes l = .ok counted := by
  induction l with
  | nil => exact ⟨[], rfl⟩
  | cons e l ih =>
    obtain ⟨counted, hcounted⟩ := ih
    have hvoters : ∀ voter ∈ S.votersOf e.1, (S.ledger.accounts.find? voter).isSome := by
      intro voter hv
      obtain ⟨u, hu⟩ := Option.isSome_iff_exists.mp (mem_votersOf.mp hv)
      exact mem_keys.mp (h _ u hu)
    obtain ⟨votes, hvotes⟩ := exists_calculateVotes 0 hvoters
    refine ⟨(e.1, { e.2 with totalVotes := votes }) :: counted,
      Checked.mapM_eq_ok.mpr (.cons ?_ (Checked.mapM_eq_ok.mp hcounted))⟩
    simp only [hvotes]
    rfl

/-- A proposal that is paid is an active one. -/
theorem mem_findActiveProposals : e ∈ S.findActiveProposals ↔
      S.proposals.find? e.1 = some e.2 ∧ e.2.IsActive S.headTime := by
  rw [findActiveProposals, mem_insertionSort, mem_filter, decide_eq_true_eq,
    find?_eq_some]

/-! ### The order of the votes -/

/-- More stake comes first, and then the smaller id. -/
def StakedBefore (S : Sps) (i j : Nat) : Prop :=
  S.stake j < S.stake i ∨ S.stake i = S.stake j ∧ i < j

/-- More votes come first, and the lower id among equals. -/
theorem votedBefore_iff (e e' : Nat × Proposal) : VotedBefore e e' ↔
    toLex (OrderDual.toDual e.2.totalVotes, e.1) ≤
      toLex (OrderDual.toDual e'.2.totalVotes, e'.1) := by
  rw [Prod.Lex.toLex_le_toLex, OrderDual.toDual_lt_toDual, OrderDual.toDual_inj]
  rfl

/-- The sorted proposals are in the order of the votes. -/
theorem sortByVotes_pairwise (l : List (Nat × Proposal)) :
    (sortByVotes l).Pairwise fun e e' => e'.2.totalVotes ≤ e.2.totalVotes ∧
      (e.2.totalVotes = e'.2.totalVotes → e.1 ≤ e'.1) := by
  refine (SortedRange.pairwise_insertionSort (r := VotedBefore) _ votedBefore_iff l).imp ?_
  intro e e' h
  rw [← votedBefore_iff] at h
  rcases h with hlt | ⟨heq, hle⟩
  · exact ⟨hlt.le, fun h => absurd h hlt.ne'⟩
  · exact ⟨heq.ge, fun _ => hle⟩

/-- A counted proposal is one of the list, with the votes for it. -/
theorem mem_counted {l : List (Nat × Proposal)} (h : S.countVotes l = .ok counted)
    {e' : Nat × Proposal} (he : e' ∈ counted) : ∃ e ∈ l, ∃ votes,
      S.calculateVotes (S.votersOf e.1) 0 = .ok votes ∧
        e' = (e.1, { e.2 with totalVotes := votes }) := by
  have hall := countVotes_eq_ok h
  clear h
  induction hall with
  | nil => cases he
  | cons hone _ ih =>
    rcases mem_cons.mp he with rfl | he
    · exact ⟨_, mem_cons_self, hone⟩
    · obtain ⟨e, hmem, hcount⟩ := ih he
      exact ⟨e, mem_cons_of_mem _ hmem, hcount⟩

/-- The active proposals with their votes, the stakes of the voters in 64 bits, in the order in
which they are paid. -/
def ranked (S : Sps) : List (Nat × Proposal) :=
  sortByVotes (S.findActiveProposals.map fun e =>
    (e.1, { e.2 with totalVotes := (S.stake e.1 % 2 ^ 64).toNat }))

/-- Counting the votes gives just these proposals. -/
theorem sortByVotes_counted (h : S.countVotes S.findActiveProposals = .ok counted) :
    sortByVotes counted = S.ranked := by
  rw [ranked]
  congr 1
  have hall := countVotes_eq_ok h
  clear h
  generalize S.findActiveProposals = active at hall
  induction hall with
  | nil => rfl
  | cons hone _ ih =>
    obtain ⟨votes, hcount, rfl⟩ := hone
    have htotal := calculateVotes_eq (by decide) hcount
    rw [Nat.cast_zero, zero_add] at htotal
    rw [map_cons, ← ih, stake, ← htotal, Int.toNat_natCast]

/-- The ranked proposals are the active ones with their votes. -/
theorem mem_ranked : e ∈ S.ranked ↔ ∃ p, (e.1, p) ∈ S.findActiveProposals ∧
    e.2 = { p with totalVotes := (S.stake e.1 % 2 ^ 64).toNat } := by
  rw [ranked, sortByVotes, mem_insertionSort, mem_map]
  constructor
  · rintro ⟨e', he', rfl⟩
    exact ⟨e'.2, he', rfl⟩
  · rintro ⟨p, hp, heq⟩
    exact ⟨(e.1, p), hp, Prod.ext rfl heq.symm⟩

/-- The order of the payments, where the stakes have 64 bits. -/
theorem ranked_staked
    (hstake : ∀ e ∈ S.findActiveProposals, 0 ≤ S.stake e.1 ∧ S.stake e.1 < 2 ^ 64) :
    (∀ e ∈ S.ranked, (e.2.totalVotes : Int) = S.stake e.1) ∧
      (S.ranked.map Prod.fst).Perm (S.findActiveProposals.map Prod.fst) ∧
      (S.ranked.map Prod.fst).Pairwise S.StakedBefore := by
  have hvotes : ∀ e ∈ S.ranked, (e.2.totalVotes : Int) = S.stake e.1 := by
    intro e he
    obtain ⟨p, hp, heq⟩ := mem_ranked.mp he
    have hfits := hstake _ hp
    rw [heq, Int.emod_eq_of_lt hfits.1 hfits.2, Int.toNat_of_nonneg hfits.1]
  have hperm : (S.ranked.map Prod.fst).Perm (S.findActiveProposals.map Prod.fst) := by
    refine ((perm_insertionSort _ _).map _).trans ?_
    rw [map_map]
    exact .refl _
  refine ⟨hvotes, hperm, pairwise_map.mpr ?_⟩
  have hnodup := pairwise_map.mp (hperm.nodup_iff.mpr (selection_sorted S.proposals _ _).nodup)
  refine ((sortByVotes_pairwise _).and hnodup).imp_of_mem ?_
  intro e e' he he' ⟨⟨hle, hids⟩, hne⟩
  unfold StakedBefore
  rw [← hvotes e he, ← hvotes e' he']
  rcases hle.lt_or_eq with hlt | heq
  · exact .inl (by exact_mod_cast hlt)
  · exact .inr ⟨by exact_mod_cast heq.symm, lt_of_le_of_ne (hids heq.symm) hne⟩

/-- The active proposals with votes, in their order. -/
def voted (S : Sps) : List (Nat × Proposal) := Greedy.payable (fun e => e.2.totalVotes = 0) S.ranked

theorem voted_of_ranked_nil (h : S.ranked = []) : S.voted = [] := by
  rw [voted, h]
  rfl

/-- What proposals are due at the ratio of the code. -/
def owed (S : Sps) (l : List (Nat × Proposal)) : Int :=
  (l.map fun e => e.2.periodPay S.ledger.paymentRatio).sum

/-- What is owed is not negative. -/
theorem owed_nonneg (S : Sps) (l : List (Nat × Proposal)) : 0 ≤ S.owed l :=
  Greedy.sum_want_nonneg (fun e => e.2.periodPay_nonneg _) l

/-- The proposals after one without votes have no stake. -/
theorem stake_eq_zero
    (hstake : ∀ e ∈ S.findActiveProposals, 0 ≤ S.stake e.1 ∧ S.stake e.1 < 2 ^ 64)
    {l rest : List (Nat × Proposal)} (hrest : S.ranked = l ++ rest)
    (hhead : ∀ e ∈ rest.head?, e.2.totalVotes = 0) : ∀ id ∈ rest.map Prod.fst, S.stake id = 0 := by
  intro id hid
  obtain ⟨e, he, rfl⟩ := mem_map.mp hid
  rw [← (ranked_staked hstake).1 e (hrest ▸ mem_append_right _ he)]
  cases rest with
  | nil => cases he
  | cons first others =>
    have hfirst := hhead first rfl
    rcases mem_cons.mp he with rfl | he
    · rw [hfirst, Nat.cast_zero]
    · have hsorted : S.ranked.Pairwise _ := sortByVotes_pairwise _
      rw [hrest] at hsorted
      have hle := ((pairwise_cons.mp (pairwise_append.mp hsorted).2.1).1 e he).1
      omega

/-! ### The budget -/

/-- A hundredth of the treasury for each day since the last maintenance, rounded down. -/
def budgetOf (treasury : Int) (S : Sps) : Int :=
  S.ledger.passedTimeSeconds * (treasury / 100) / 86400

/-- There is nothing negative in a budget. -/
theorem budgetOf_nonneg {treasury : Int} (htreasury : 0 ≤ treasury) : 0 ≤ S.budgetOf treasury :=
  Int.ediv_nonneg (mul_nonneg (Int.natCast_nonneg _) (Int.ediv_nonneg htreasury (by decide)))
    (by decide)

/-- The budget as a signed number of 64 bits. -/
theorem bmod_budget {budget : Int} (h : 0 ≤ budget) (hlt : budget < 2 ^ 64) :
    budget.bmod (2 ^ 64) = if budget < 2 ^ 63 then budget else budget - 2 ^ 64 := by
  have hmod : budget % ((2 ^ 64 : Nat) : Int) = budget :=
    Int.emod_eq_of_lt h (by exact_mod_cast hlt)
  rw [Int.bmod_def, hmod]
  split_ifs <;> omega

/-- Only an empty budget is zero in 64 bits. -/
theorem bmod_eq_zero {budget : Int} (h : 0 ≤ budget) (hlt : budget < 2 ^ 64) :
    budget.bmod (2 ^ 64) = 0 ↔ budget = 0 := by
  rw [bmod_budget h hlt]
  split_ifs <;> omega

/-- What a maintenance with a treasury pays the proposals. -/
theorem paymentsOf_eq_ok {proposals : List (Nat × Proposal)} {a : Account}
    (ha : S.ledger.accounts.find? treasuryAccount = some a) (htreasury : 0 ≤ a.sbd.balance)
    {payments : List ((Nat × Proposal) × Int)} :
    paymentsOf proposals S.ledger = .ok payments ↔
      (proposals ≠ [] → S.budgetOf a.sbd.balance < 2 ^ 64) ∧
        payments = if proposals = [] ∨ S.budgetOf a.sbd.balance = 0 then []
          else payouts S.ledger.paymentRatio proposals
            ((S.budgetOf a.sbd.balance).bmod (2 ^ 64)) := by
  have hnonneg := budgetOf_nonneg (S := S) htreasury
  unfold paymentsOf
  by_cases hnil : proposals = []
  · simp [hnil, eq_comm]
  rw [if_neg hnil]
  simp only [returns, Ledger.getAccount_eq_ok, Ledger.maintenanceBudget, exists_const, hnil,
    not_false_eq_true, forall_const, false_or, ne_eq]
  constructor
  · rintro ⟨b, hb, _, ⟨hlt, rfl⟩, rfl⟩
    obtain rfl : a = b := Option.some.inj (ha.symm.trans hb)
    exact ⟨hlt, if_congr (bmod_eq_zero hnonneg hlt) rfl rfl⟩
  · rintro ⟨hlt, rfl⟩
    exact ⟨a, ha, _, ⟨hlt, rfl⟩, if_congr (bmod_eq_zero hnonneg hlt) rfl rfl⟩

/-! ### Who is paid -/

/-- The pay of a proposal for the days since the last maintenance, in hundredths of a percent of a
day, rounded down. -/
def duePay (p : Proposal) (S : Sps) : Int :=
  (S.ledger.passedTimeSeconds * hundredPercent / 86400 * p.dailyPay / hundredPercent : Nat)

/-- The proposals that are paid come first in the order of the stakes. Each is paid what it is due,
or as the last one the rest of the budget, and the others have no stake or there is nothing left. -/
structure PaidByStake (S : Sps) (budget : Int) (payments : List ((Nat × Proposal) × Int))
    (unpaid : List Nat) : Prop where
  active : (payments.map (fun x => x.1.1) ++ unpaid).Perm (S.findActiveProposals.map Prod.fst)
  sorted : (payments.map (fun x => x.1.1) ++ unpaid).Pairwise S.StakedBefore
  proposals : ∀ x ∈ payments, ∃ p, S.proposals.find? x.1.1 = some p ∧
    x.1.2.receiver = p.receiver ∧ x.1.2.dailyPay = p.dailyPay
  amounts : ∀ before x after, payments = before ++ x :: after →
    x.2 = S.duePay x.1.2 ∨ after = [] ∧ x.2 = budget - (before.map Prod.snd).sum
  exhausted : ∀ id ∈ unpaid, S.stake id = 0 ∨ (payments.map Prod.snd).sum = budget

/-- What is paid is what is due: the budget has 63 bits, and every proposal with votes that it
reaches has the pay of the days that passed, or is the last one. -/
structure PaysDue (budget : Int) (S : Sps) : Prop where
  signed : S.voted ≠ [] → budget < 2 ^ 63
  amounts : ∀ before e after, S.voted = before ++ e :: after → S.owed before < budget →
    e.2.periodPay S.ledger.paymentRatio = S.duePay e.2 ∨
      budget ≤ S.owed before + e.2.periodPay S.ledger.paymentRatio

/-- The days since the last maintenance can be counted with 32 bits. -/
theorem PaysDue.of_ratio (hratio : S.ledger.passedTimeSeconds * hundredPercent < 2 ^ 32)
    (hbudget : budget < 2 ^ 63) : S.PaysDue budget := by
  refine ⟨fun _ => hbudget, fun before e after _ _ => .inl ?_⟩
  rw [Proposal.periodPay, duePay, Ledger.paymentRatio, Nat.mod_eq_of_lt hratio]

/-- What is left unpaid, and the order, of payments that fill the budget. -/
theorem paidByStake_of_fill (hbudget : 0 < budget)
    (hstake : ∀ e ∈ S.findActiveProposals, 0 ≤ S.stake e.1 ∧ S.stake e.1 < 2 ^ 64)
    (hdue : S.PaysDue budget) :
    ∃ unpaid, PaidByStake S budget (payouts S.ledger.paymentRatio S.ranked budget) unpaid := by
  obtain ⟨-, hperm, hsorted⟩ := ranked_staked hstake
  obtain ⟨rest, hrest, hdone⟩ := payouts_take S.ledger.paymentRatio S.ranked budget
  have hids : (payouts S.ledger.paymentRatio S.ranked budget).map (fun x => x.1.1) ++
      rest.map Prod.fst = S.ranked.map Prod.fst := by
    rw [hrest, map_append, map_map, ← hrest]
    rfl
  refine ⟨rest.map Prod.fst, hids ▸ hperm, hids ▸ hsorted, ?_, ?_, ?_⟩
  · intro x hx
    have hmem : x.1 ∈ S.ranked := by
      rw [hrest]
      exact mem_append_left _ (mem_map_of_mem hx)
    obtain ⟨p, hp, heq⟩ := mem_ranked.mp hmem
    rw [heq]
    exact ⟨p, (mem_findActiveProposals.mp hp).1, rfl, rfl⟩
  · intro before x after hsplit
    obtain ⟨post, hvoted, hsnd, hsum, hamount, hlast⟩ := Greedy.fill_split hbudget hsplit
    rw [hsnd]
    rcases hdue.amounts _ _ _ hvoted hsum with hpay | hall
    · rcases le_total (x.1.2.periodPay S.ledger.paymentRatio)
        (budget - S.owed (before.map Prod.fst)) with hle | hle
      · exact .inl (hamount.trans ((min_eq_left hle).trans hpay))
      · exact .inr ⟨hlast hle, hamount.trans (min_eq_right hle)⟩
    · have hle := sub_le_iff_le_add'.mpr hall
      exact .inr ⟨hlast hle, hamount.trans (min_eq_right hle)⟩
  · intro id hid
    exact hdone.imp_left fun hhead => stake_eq_zero hstake hrest hhead id hid

/-- A maintenance that returns pays the proposals in the order of their stakes if and only if what
it pays is what is due. -/
theorem makePayments_paidByStake_iff {a : Account} (hf : S.ledger.HasHardfork 21)
    (hdue : S.ledger.props.nextMaintenanceTime ≤ S.headTime)
    (ha : S.ledger.accounts.find? treasuryAccount = some a) (htreasury : 0 ≤ a.sbd.balance)
    (hstake : ∀ e ∈ S.findActiveProposals, 0 ≤ S.stake e.1 ∧ S.stake e.1 < 2 ^ 64)
    (h : S.makePayments = .ok S') :
    (∃ payments unpaid, S.payments = .ok payments ∧ Pays payments S.ledger S'.ledger ∧
      PaidByStake S (S.budgetOf a.sbd.balance) payments unpaid) ↔
        S.PaysDue (S.budgetOf a.sbd.balance) := by
  obtain ⟨counted, payments, hcounted, hpayments, -, hpays, -⟩ :=
    (makePayments_eq_ok hf (not_lt.mpr hdue)).mp h
  have hlist : S.payments = .ok payments :=
    (payments_eq_ok (not_lt.mpr hdue)).mpr ⟨counted, hcounted, hpayments⟩
  rw [sortByVotes_counted hcounted, paymentsOf_eq_ok ha htreasury] at hpayments
  obtain ⟨hfits, hpayments⟩ := hpayments
  have hnonneg := budgetOf_nonneg (S := S) htreasury
  constructor
  · rintro ⟨payments', unpaid, hlist', -, hpaid⟩
    obtain rfl : payments = payments' := Except.ok.inj (hlist.symm.trans hlist')
    have hsigned : S.voted ≠ [] → S.budgetOf a.sbd.balance < 2 ^ 63 := by
      intro hvoted
      by_contra hlarge
      have hlt := hfits (mt voted_of_ranked_nil hvoted)
      rw [if_neg (not_or.mpr ⟨mt voted_of_ranked_nil hvoted, by omega⟩), bmod_budget hnonneg hlt,
        if_neg hlarge] at hpayments
      obtain ⟨e, he⟩ := Greedy.fill_of_neg (fun e => e.2.periodPay_nonneg _)
        (by omega : S.budgetOf a.sbd.balance - 2 ^ 64 < 0) hvoted
      rcases hpaid.amounts [] _ [] (hpayments.trans he) with hpay | ⟨-, hpay⟩
      · have hpos : 0 ≤ S.duePay e.2 := Int.natCast_nonneg _
        simp only at hpay
        omega
      · simp only [map_nil, sum_nil] at hpay
        omega
    refine ⟨hsigned, fun before e after hvoted hbefore => ?_⟩
    have howed := S.owed_nonneg before
    have hne : S.voted ≠ [] := by simp [hvoted]
    have hlt := hsigned hne
    rw [if_neg (not_or.mpr ⟨mt voted_of_ranked_nil hne, by omega⟩), bmod_budget hnonneg (by omega),
      if_pos hlt] at hpayments
    obtain ⟨rest, hfill⟩ := Greedy.fill_reached (fun e => e.2.periodPay_nonneg _) hvoted hbefore
    have hamount := hpaid.amounts _ _ _ (hpayments.trans hfill)
    rw [map_map] at hamount
    change min (e.2.periodPay S.ledger.paymentRatio) (_ - S.owed before) = S.duePay e.2 ∨
      _ ∧ min _ (_ - S.owed before) = _ - S.owed before at hamount
    rcases hamount with hpay | ⟨-, hpay⟩ <;> omega
  · intro hpaysDue
    refine ⟨payments, ?_⟩
    obtain ⟨hvotes, hperm, hsorted⟩ := ranked_staked hstake
    have hnone : payments = [] → (∀ id ∈ S.ranked.map Prod.fst, S.stake id = 0 ∨
        0 = S.budgetOf a.sbd.balance) → ∃ unpaid, PaidByStake S (S.budgetOf a.sbd.balance)
          payments unpaid := by
      rintro rfl hzero
      refine ⟨S.ranked.map Prod.fst, hperm, hsorted, nofun, fun before x after hnil => ?_, hzero⟩
      exact absurd hnil (by simp)
    have hall : ∃ unpaid, PaidByStake S (S.budgetOf a.sbd.balance) payments unpaid := by
      by_cases hzero : S.budgetOf a.sbd.balance = 0
      · rw [if_pos (.inr hzero)] at hpayments
        exact hnone hpayments fun _ _ => .inr hzero.symm
      by_cases hvoted : S.voted = []
      · have hnil : payments = [] := by
          rw [hpayments]
          split_ifs
          · rfl
          · exact Greedy.fill_of_payable_nil hvoted
        refine hnone hnil fun id hid => .inl ?_
        exact stake_eq_zero hstake (nil_append _).symm (Greedy.stop_of_payable_nil hvoted) id hid
      · have hlt := hpaysDue.signed hvoted
        rw [if_neg (not_or.mpr ⟨mt voted_of_ranked_nil hvoted, hzero⟩),
          bmod_budget hnonneg (by omega),
          if_pos hlt] at hpayments
        rw [hpayments]
        exact paidByStake_of_fill (by omega) hstake hpaysDue
    obtain ⟨unpaid, hpaid⟩ := hall
    exact ⟨unpaid, hlist, hpays, hpaid⟩

/-! ### What the treasury pays -/

/-- A price is known, nobody owes SBD, and the treasury holds so much. -/
structure Funded (amount : Int) (L : Ledger) : Prop where
  median : L.currentMedianHistory.isSome
  balances : L.accounts.Holds fun a => 0 ≤ a.sbd.balance
  treasury : ∃ a, L.accounts.find? treasuryAccount = some a ∧ amount ≤ a.sbd.balance

/-- A payment that the treasury can afford can be made. -/
theorem exists_payProposal {x : (Nat × Proposal) × Int} {rest : Int} (hx : 0 ≤ x.2)
    (hrest : 0 ≤ rest) (hL : Funded (x.2 + rest) L) (hreceiver : x.1.2.receiver ∈ L.accounts.keys) :
    ∃ L', payProposal x L = .ok L' ∧ Funded rest L' ∧ L'.accounts.keys = L.accounts.keys := by
  obtain ⟨t, ht, hamount⟩ := hL.treasury
  have hcovered : 0 ≤ t.sbd.balance + -x.2 := by omega
  obtain ⟨L1, h1⟩ := Ledger.exists_adjustBalance_sbd hL.median ht hcovered
  obtain ⟨t', haccounts, ht', hmedian⟩ := Ledger.adjustBalance_sbd_set h1 ht
  have hbalances : L1.accounts.Holds fun a => 0 ≤ a.sbd.balance := by
    rw [haccounts]
    exact hL.balances.set _ (by omega)
  have htreasury : L1.accounts.find? treasuryAccount = some t' := by
    rw [haccounts, find?_set ht, if_pos rfl]
  have hkeys : L1.accounts.keys = L.accounts.keys := by
    rw [haccounts, keys_set]
  obtain ⟨r, hr⟩ := Option.isSome_iff_exists.mp (mem_keys.mp (hkeys ▸ hreceiver))
  have hrn := hbalances _ _ hr
  have hmedian1 : L1.currentMedianHistory.isSome := hmedian ▸ hL.median
  obtain ⟨L2, h2⟩ := Ledger.exists_adjustBalance_sbd hmedian1 hr (add_nonneg hrn hx)
  obtain ⟨r', haccounts', hr', hmedian'⟩ := Ledger.adjustBalance_sbd_set h2 hr
  refine ⟨L2, ?_, ⟨?_, ?_, ?_⟩, ?_⟩
  · simp only [payProposal, returns]
    exact ⟨L1, h1, h2⟩
  · rw [hmedian']
    exact hmedian1
  · rw [haccounts']
    exact hbalances.set _ (by omega)
  · rw [haccounts', find?_set hr]
    split_ifs with hself
    · -- the treasury may pay itself
      rw [← hself, htreasury] at hr
      cases hr
      exact ⟨r', rfl, by omega⟩
    · exact ⟨t', htreasury, by omega⟩
  · rw [haccounts', keys_set, hkeys]

/-- A funded treasury can pay all payments to accounts that exist. -/
theorem exists_payAll {payments : List ((Nat × Proposal) × Int)}
    (hpayments : ∀ x ∈ payments, 0 ≤ x.2 ∧ x.1.2.receiver ∈ L.accounts.keys)
    (hL : Funded (payments.map Prod.snd).sum L) : ∃ L',
    forEach payProposal payments L = .ok L' := by
  induction payments generalizing L with
  | nil => exact ⟨L, rfl⟩
  | cons x rest ih =>
    rw [forall_mem_cons] at hpayments
    obtain ⟨⟨hx, hreceiver⟩, hothers⟩ := hpayments
    have hrest : 0 ≤ (rest.map Prod.snd).sum := by
      refine sum_nonneg fun y hy => ?_
      obtain ⟨z, hz, rfl⟩ := mem_map.mp hy
      exact (hothers z hz).1
    obtain ⟨L1, h1, hfunded, hkeys⟩ := exists_payProposal hx hrest hL hreceiver
    obtain ⟨L', h⟩ := ih (fun y hy => ⟨(hothers y hy).1, hkeys ▸ (hothers y hy).2⟩) hfunded
    simp only [forEach, returns]
    exact ⟨L', L1, h1, h⟩

/-- The voters and the receivers have accounts. -/
structure Registered (S : Sps) : Prop where
  voters : S.votes.All fun k _ => k.2 ∈ S.ledger.accounts.keys
  receivers : S.proposals.Holds fun p => p.receiver ∈ S.ledger.accounts.keys

/-- The maintenance has the means for what it pays: its budget can be computed where there are
active proposals, and has a sign bit to spare where they have votes; the daily pay of every proposal
with votes that the budget reaches has a product with the ratio of 64 bits; and the treasury has the
budget, or else what all the proposals with votes are due. -/
structure Affordable (treasury : Int) (S : Sps) : Prop where
  computed : S.ranked ≠ [] → S.budgetOf treasury < 2 ^ 64
  signed : S.voted ≠ [] → S.budgetOf treasury < 2 ^ 63
  products : ∀ before e after, S.voted = before ++ e :: after →
    S.owed before < S.budgetOf treasury → S.ledger.paymentRatio * e.2.dailyPay < 2 ^ 64
  covered : min (S.budgetOf treasury) (S.owed S.voted) ≤ treasury

theorem firstOnly_sorted : [0].Pairwise (· < ·) := pairwise_singleton _ _

/-- One proposal with such a daily pay and a vote, so many seconds later. -/
@[irreducible] def pausedFor (dailyPay : Int) (seconds : Nat) : Sps :=
  (start (Ledger.genesis genesisTime 1000000 10000000) (-1)).run (foundingSteps ++
    [.createProposal ⟨2, 5, genesisTime, genesisTime + 31536000, ⟨dailyPay, .sbd⟩, 0⟩,
      .updateProposalVotes ⟨2, ⟨[0], firstOnly_sorted⟩, true⟩,
      .ledger (.advance 1 (genesisTime + seconds))])

/-- The treasury of these runs. -/
theorem pausedFor_treasury : (pausedFor 1000 3600).ledger.accounts.find? treasuryAccount =
        some { sbd := ⟨8650000, 0, genesisTime, 0⟩, vestingWithdrawRate := 1 } ∧
      (pausedFor 1000 429497).ledger.accounts.find? treasuryAccount =
        some { sbd := ⟨8650000, 0, genesisTime, 0⟩, vestingWithdrawRate := 1 } := by
  constructor <;> decide +kernel

theorem registered_pausedFor : (pausedFor 1000 3600).Registered := by
  refine ⟨all_iff.mpr ?_, all_iff.mpr ?_⟩
  · decide +kernel
  · decide +kernel

theorem makePayments_paidByStake_hour :
    ∃ S' payments unpaid, (pausedFor 1000 3600).makePayments = .ok S' ∧
      (pausedFor 1000 3600).payments = .ok payments ∧
      Pays payments (pausedFor 1000 3600).ledger S'.ledger ∧
      PaidByStake (pausedFor 1000 3600)
          ((pausedFor 1000 3600).budgetOf 8650000) payments unpaid := by
  have hok : (pausedFor 1000 3600).makePayments.toBool = true := by decide +kernel
  cases h : (pausedFor 1000 3600).makePayments with
  | error e =>
    rw [h] at hok
    cases hok
  | ok S' =>
    obtain ⟨payments, unpaid, hpayments, hpays, hpaid⟩ :=
      (makePayments_paidByStake_iff (by decide +kernel) (by decide +kernel) pausedFor_treasury.1
        (by decide) (by decide +kernel) h).mpr (.of_ratio (by decide +kernel) (by decide +kernel))
    exact ⟨S', payments, unpaid, rfl, hpayments, hpays, hpaid⟩

/-- After 429497 seconds the ratio of the days has wrapped to nothing: the proposal is paid zero,
though it is due 4971 and the budget is larger. -/
theorem makePayments_not_paidByStake :
    ∃ S' payments, (pausedFor 1000 429497).makePayments = .ok S' ∧
      (pausedFor 1000 429497).payments = .ok payments ∧
      ¬ ∃ unpaid, PaidByStake (pausedFor 1000 429497) ((pausedFor 1000 429497).budgetOf 8650000)
        payments unpaid := by
  have hok : (pausedFor 1000 429497).makePayments.toBool = true := by decide +kernel
  have hpaid : (pausedFor 1000 429497).payments.toOption.map
      (fun l => l.map fun x => (x.1.2.dailyPay, x.2)) = some [(1000, 0)] := by decide +kernel
  have hpassed : (pausedFor 1000 429497).ledger.passedTimeSeconds = 429497 := by decide +kernel
  cases h : (pausedFor 1000 429497).makePayments with
  | error e =>
    rw [h] at hok
    cases hok
  | ok S' =>
    cases hp : (pausedFor 1000 429497).payments with
    | error e =>
      rw [hp] at hpaid
      cases hpaid
    | ok payments =>
      refine ⟨S', payments, rfl, rfl, ?_⟩
      rintro ⟨unpaid, hbyStake⟩
      rw [hp] at hpaid
      obtain ⟨x, rfl, hx⟩ := map_eq_singleton_iff.mp (Option.some.inj hpaid)
      rw [Prod.mk.injEq] at hx
      rcases hbyStake.amounts [] x [] rfl with hdue | ⟨-, hrest⟩
      · rw [hx.2, duePay, hpassed, hx.1] at hdue
        exact absurd hdue (by decide)
      · rw [hx.2, budgetOf, hpassed] at hrest
        exact absurd hrest (by decide)

end Sps

end Freezone.Chain.Proposals
