import Freezone.Chain.Ledger.Trading

/-!
# The processing of a block conserves

New FREEZONE and SBD are counted when they are issued, and payments come out of the
fund that they are counted in. A payout of rewards gains the amount once more if it
goes to the reward balance and buys no share.
-/

namespace Freezone.Chain.Funds.Ledger

open Protocol List Table Except Properties

variable {L L' : Ledger} {name : AccountName}

/-- One conversion exchanges SBD for FREEZONE. -/
theorem fillConversion_moves {median : Price Liquid}
    {e : (AccountName × Nat) × ConvertRequest} {s s' : Ledger × Int × Int}
    (h : fillConversion median e s = .ok s') (he : s.1.convertRequests.find? e.1 = some e.2) :
    (Steady (fun b => only .freezone (s'.2.2 - s.2.2) b - only .sbd (s'.2.1 - s.2.1) b) s.1 s'.1) ∧
      s'.1.convertRequests = s.1.convertRequests.erase e.1 := by
  simp only [fillConversion, returns] at h
  obtain ⟨issued, hissued, L1, h1, rfl⟩ := h
  have hsame := (adjustBalance_frame h1).convertRequests
  have hsym : issued.symbol = .freezone := by
    have hne := Asset.mul_symbol_ne hissued
    cases hs : issued.symbol with
    | freezone => rfl
    | sbd => exact absurd hs hne
  refine ⟨((adjustBalance_moves h1).trans (moves_convertRequests
    (fun b => total_erase (hsame ▸ he) _) fun hL => ?_)).congr fun b => ?_, ?_⟩
  · exact hL.convertRequests.erase _
  · cases b <;> simp [ConvertRequest.entry, liquidEntry, hsym, bookOf, only]
  · simp only [hsame]

/-- Conversions burn the dollars and create what they are worth. -/
theorem processConversions_conserves (h : L.processConversions = .ok L') : Conserves L L' := by
  unfold processConversions at h
  split at h
  · cases h
    exact Steady.refl L
  rename_i median _
  simp only [returns] at h
  obtain ⟨⟨L1, netSbd, netFreezone⟩, h1, value, -, rfl⟩ := h
  -- what has been converted so far is missing, what has been issued is too much
  have hloop : Steady (fun b => only .freezone netFreezone b - only .sbd netSbd b) L L1 := by
    refine forEach_selection (fun s : Ledger × Int × Int => s.1.convertRequests)
      (P := fun s => Steady (fun b => only .freezone s.2.2 b - only .sbd s.2.1 b) L s.1)
      (s := (L, 0, 0)) (fun e _ s s' hs he h => ?_) (Table.selection_sorted _ _ _) ?_ h1
    · obtain ⟨hm, herase⟩ := fillConversion_moves h he
      refine ⟨(hs.trans hm).congr fun b => ?_, herase⟩
      cases b <;> simp [only]
      ring
    · refine (Steady.refl L).congr fun b => ?_
      rw [only_zero, only_zero, sub_zero]
  refine (hloop.trans (moves_props L1 _ (by exact id) (by exact id))).conserves fun b => ?_
  cases b <;> simp [entry, counted, only]

/-- Due withdrawals go from the requests to their receivers. -/
theorem processSavingsWithdraws_conserves (h : L.processSavingsWithdraws = .ok L') :
    Conserves L L' := by
  refine forEach_selection Ledger.savingsWithdraws (P := Conserves L)
    (fun e _ s s' hs he h => ?_) (selection_sorted _ _ _) (Steady.refl L) h
  simp only [fillSavingsWithdraw, returns] at h
  obtain ⟨L1, h1, L2, h2, rfl⟩ := h
  obtain ⟨hdrop, hsame2⟩ := dropSavingsRequest_conserves h2
  have hsame : L2.savingsWithdraws = s.savingsWithdraws :=
    hsame2.trans (adjustBalance_frame h1).savingsWithdraws
  have herase : Steady (fun b => -liquidEntry e.2.amount b) L2
      { L2 with savingsWithdraws := L2.savingsWithdraws.erase e.1 } :=
    moves_savingsWithdraws (fun b => total_erase (hsame ▸ he) _)
      fun hL => hL.savingsWithdraws.erase _
  refine ⟨hs.trans ((((adjustBalance_moves h1).trans hdrop).trans herase).conserves
    fun b => ?_), ?_⟩
  · rw [add_zero, add_neg_cancel]
  · simp only [hsame]

/-- The fund for comments, which rewards come out of. -/
def commentFund (L : Ledger) : Int :=
  if L.HasHardfork 17 then L.rewardFunds.head?.elim 0 RewardFund.rewardBalance
  else L.props.totalRewardFundFreezone

theorem takeReward_stays {claimed : Int} (h : L.takeReward claimed = .ok L') : Stays L L' := by
  unfold takeReward at h
  split at h
  · split at h
    · cases h
    rename_i hfunds
    cases h
    refine ⟨⟨rfl, rfl, rfl⟩, rfl, subset_rfl, ?_, le_rfl⟩
    rw [hfunds]
    rfl
  · cases h
    exact ⟨⟨rfl, rfl, rfl⟩, rfl, subset_rfl, rfl, le_rfl⟩

/-- Rewards come out of the fund for comments, which has to cover them. -/
theorem takeReward_moves {claimed : Int} (h : L.takeReward claimed = .ok L')
    (hle : claimed ≤ L.commentFund) : Steady (only .freezone (-claimed)) L L' := by
  unfold takeReward at h
  unfold commentFund at hle
  split_ifs at h hle
  · split at h
    · cases h
    rename_i fund rest hfunds
    cases h
    rw [hfunds] at hle
    refine moves_rewardFunds ?_ (by rw [hfunds]; rfl) fun hL f hf => ?_
    · rw [hfunds]
      simp only [map_cons, sum_cons]
      ring
    · have hall := hL.rewardFunds
      rw [hfunds] at hall
      rcases mem_cons.mp hf with rfl | hf
      · exact sub_nonneg.mpr hle
      · exact hall f (mem_cons_of_mem _ hf)
  · cases h
    refine (moves_props L _ (by exact id) fun _ => sub_nonneg.mpr hle).congr fun b => ?_
    cases b <;> simp [entry, counted, only]

/-- What is gained by a payout of vesting that buys no share. -/
def unfundedEntry (amount : Int) (L : Ledger) : Book → Int := fun b =>
  if L.HasHardfork 17 ∧ ¬ L.Funded amount then
    only .freezone amount b - only .rewardBacking amount b
  else 0

/-- Vesting paid to the reward balance from hardfork 17 on. -/
theorem rewardVesting_moves {amount : Int}
    (h : L.createVesting name amount (decide (L.HasHardfork 17)) = .ok L')
    (hc : L.HasHardfork 17 → L.Countable amount) :
    Steady (fun b => only .freezone amount b + L.unfundedEntry amount b) L L' := by
  refine (createVesting_moves h fun hr => hc (of_decide_eq_true hr)).congr fun b => ?_
  simp only [vestingEntry, unfundedEntry, decide_eq_true_eq]

/-- Taking a reward changes nothing that its payment depends on. -/
theorem takeReward_leaves {claimed : Int} (h : L.takeReward claimed = .ok L') :
    (∀ n, L'.HasHardfork n ↔ L.HasHardfork n) ∧ ∀ amount,
    (L'.Countable amount ↔ L.Countable amount) ∧
      (L'.Printable amount ↔ L.Printable amount) ∧
      L'.unfundedEntry amount = L.unfundedEntry amount := by
  unfold takeReward at h
  split at h
  · split at h
    · cases h
    · cases h
      exact ⟨fun _ => Iff.rfl, fun _ => ⟨Iff.rfl, Iff.rfl, rfl⟩⟩
  · cases h
    exact ⟨fun _ => Iff.rfl, fun _ => ⟨Iff.rfl, Iff.rfl, rfl⟩⟩

/-- A curator is paid out of the reward fund, as far as that goes. -/
theorem payCurator_moves {claim : Nat} (h : L.payCurator name claim = .ok L')
    (hle : claim ≤ L.commentFund) (hc : L.HasHardfork 17 → L.Countable claim) :
    Steady (L.unfundedEntry claim) L L' := by
  unfold payCurator at h
  split_ifs at h with hz
  · rw [ok.injEq] at h
    subst h hz
    refine (Steady.refl L).congr fun b => ?_
    rw [unfundedEntry, if_neg (fun hn => hn.2 (Or.inl rfl))]
  · simp only [returns] at h
    obtain ⟨L1, h1, h2⟩ := h
    obtain ⟨hfork, hleaves⟩ := takeReward_leaves h1
    obtain ⟨hcount, -, hentry⟩ := hleaves claim
    have hc1 : L1.HasHardfork 17 → L1.Countable claim := by
      rwa [hfork, hcount]
    refine ((takeReward_moves h1 hle).trans (rewardVesting_moves h2 hc1)).congr fun b => ?_
    rw [hentry]
    cases b <;> simp [only]

theorem payCurator_stays {claim : Nat} (h : L.payCurator name claim = .ok L') : Stays L L' := by
  unfold payCurator at h
  split_ifs at h
  · exact Stays.of_ok h
  · simp only [returns] at h
    obtain ⟨L1, h1, h2⟩ := h
    exact (takeReward_stays h1).trans (createVesting_stays h2)

variable {tokens : Int} {percent : Nat} {proposals : List ActiveProposal}

/-- The treasury's reward leaves the supply of FREEZONE as SBD come into theirs. -/
theorem payTreasury_moves (h : L.payTreasury tokens = .ok L') :
    Steady (only .freezone tokens) L L' := by
  simp only [payTreasury, returns] at h
  obtain ⟨sbd, -, L1, h1, L2, h2, h3⟩ := h
  refine (((adjustBalance_moves h1).trans (adjustSupply_moves h2)).trans
    (adjustSupply_moves h3)).congr fun b => ?_
  rw [show (⟨-tokens, .freezone⟩ : Asset Liquid) = -⟨tokens, .freezone⟩ from rfl, liquidEntry_neg]
  simp only [liquidEntry, bookOf]
  ring

theorem payTreasury_frame (h : L.payTreasury tokens = .ok L') : Frame L L' := by
  simp only [payTreasury, returns] at h
  obtain ⟨sbd, -, L1, h1, L2, h2, h3⟩ := h
  exact ((adjustBalance_frame h1).trans (adjustSupply_frame h2)).trans (adjustSupply_frame h3)

/-- The part of a payout in SBD is not negative. -/
theorem sbdPart_nonneg (h : 0 ≤ tokens) (percent : Nat) : 0 ≤ sbdPart tokens percent :=
  Int.ediv_nonneg (mul_nonneg h (Int.natCast_nonneg _)) (by decide)

theorem Frame.countable (h : Frame L L') (amount : Int) :
    L'.Countable amount ↔ L.Countable amount := by
  simp only [Countable, h.fund, h.shares, h.pendingShares, h.pendingFreezone]

/-- A frame keeps what a payout gains. -/
theorem Frame.unfundedEntry (h : Frame L L') (amount : Int) (b : Book) :
    L'.unfundedEntry amount b = L.unfundedEntry amount b := by
  have hfunded : L'.Funded amount ↔ L.Funded amount := by
    simp only [Funded, h.fund, h.shares, h.pendingShares, h.pendingFreezone]
  simp only [Ledger.unfundedEntry, h.hasHardfork, hfunded]

/-- A beneficiary is paid out of the reward fund, as far as that goes. -/
theorem payBeneficiary_moves {tokens : Nat} (h : L.payBeneficiary name tokens percent = .ok L')
    (hle : tokens ≤ L.commentFund)
    (hc : L.HasHardfork 17 → L.Countable (L.benefactorVesting name tokens percent))
    (hp : L.HasHardfork 20 → L.Printable (sbdPart tokens percent)) :
    Steady (L.unfundedEntry (L.benefactorVesting name tokens percent)) L L' := by
  simp only [payBeneficiary, returns] at h
  obtain ⟨-, -, L0, h0, L1, h1, h2⟩ := h
  obtain ⟨hfork, hleaves⟩ := takeReward_leaves h0
  have hpart0 := sbdPart_nonneg (Int.natCast_nonneg tokens) percent
  have hfirst : Frame L0 L1 ∧
      Steady (only .freezone (tokens - L.benefactorVesting name tokens percent)) L0 L1 := by
    unfold benefactorVesting
    simp only [hfork] at h1
    split_ifs at h1 ⊢ with htreasury h20
    · rw [sub_zero]
      exact ⟨payTreasury_frame h1, payTreasury_moves h1⟩
    · rw [sub_sub_cancel]
      exact ⟨createSbd_frame h1, createSbd_moves h1 hpart0 fun _ => (hleaves _).2.1.mpr (hp h20)⟩
    · cases h1
      rw [sub_self]
      exact ⟨Frame.refl L0, (Steady.refl L0).congr fun b => (only_zero .freezone b).symm⟩
  obtain ⟨hframe, hmoves⟩ := hfirst
  have hsame : L1.benefactorVesting name tokens percent =
    L.benefactorVesting name tokens percent := by
    simp only [benefactorVesting, hframe.hasHardfork, hfork]
  rw [hsame] at h2
  have hc1 : L1.HasHardfork 17 → L1.Countable (L.benefactorVesting name tokens percent) := by
    rwa [hframe.hasHardfork, hframe.countable, hfork, (hleaves _).1]
  refine (((takeReward_moves h0 hle).trans hmoves).trans
    (rewardVesting_moves h2 hc1)).congr fun b => ?_
  rw [hframe.unfundedEntry, (hleaves _).2.2]
  cases b <;> simp [only]
  ring

theorem payBeneficiary_stays {tokens : Nat}
    (h : L.payBeneficiary name tokens percent = .ok L') : Stays L L' := by
  simp only [payBeneficiary, returns] at h
  obtain ⟨-, -, L0, h0, L1, h1, h2⟩ := h
  have hpaid : Stays L0 L1 := by
    split_ifs at h1
    · exact (payTreasury_moves h1).stays
    · exact createSbd_stays h1
    · exact Stays.of_ok h1
  exact ((takeReward_stays h0).trans hpaid).trans (createVesting_stays h2)

/-- An author is paid out of the reward fund, as far as that goes. -/
theorem payAuthor_moves {tokens : Nat} (h : L.payAuthor name tokens percent = .ok L')
    (hle : tokens ≤ L.commentFund)
    (hc : L.HasHardfork 17 → L.Countable (tokens - sbdPart tokens percent))
    (hp : L.HasHardfork 17 → L.Printable (sbdPart tokens percent)) :
    Steady (L.unfundedEntry (tokens - sbdPart tokens percent)) L L' := by
  simp only [payAuthor, returns] at h
  obtain ⟨-, -, L0, h0, L1, h1, h2⟩ := h
  obtain ⟨hfork, hleaves⟩ := takeReward_leaves h0
  have hpart0 := sbdPart_nonneg (Int.natCast_nonneg tokens) percent
  have hpaid := createSbd_moves h1 hpart0 fun hr =>
    (hleaves _).2.1.mpr (hp ((hfork 17).mp (of_decide_eq_true hr)))
  have hframe := createSbd_frame h1
  have hc1 : L1.HasHardfork 17 → L1.Countable (tokens - sbdPart tokens percent) := by
    rwa [hframe.hasHardfork, hframe.countable, hfork, (hleaves _).1]
  refine (((takeReward_moves h0 hle).trans hpaid).trans
    (rewardVesting_moves h2 hc1)).congr fun b => ?_
  rw [hframe.unfundedEntry, (hleaves _).2.2]
  cases b <;> simp [only]
  ring

theorem payAuthor_stays {tokens : Nat} (h : L.payAuthor name tokens percent = .ok L') :
    Stays L L' := by
  simp only [payAuthor, returns] at h
  obtain ⟨-, -, L0, h0, L1, h1, h2⟩ := h
  exact ((takeReward_stays h0).trans (createSbd_stays h1)).trans (createVesting_stays h2)

/-- A mined reward is new supply. -/
theorem payMinedReward_conserves {reward : Nat} {asVesting : Bool}
    (h : L.payMinedReward name reward asVesting = .ok L') : Conserves L L' := by
  simp only [payMinedReward, returns] at h
  obtain ⟨-, -, L1, h1, h⟩ := h
  split at h
  · exact ((adjustSupply_moves h1).trans (powerUp_moves h)).conserves fun b => neg_add_cancel _
  · exact ((adjustSupply_moves h1).trans (adjustBalance_moves h)).conserves fun b =>
      neg_add_cancel _

/-- The rewards of the early chain are new supply. -/
theorem processEarlyFunds_conserves {rewards : EarlyRewards}
    (h : L.processEarlyFunds name rewards = .ok L') : Conserves L L' := by
  simp only [processEarlyFunds, returns, getAccount_eq_ok] at h
  obtain ⟨a, ha, L1, h1, rfl⟩ := h
  have hproducer : Steady (only .freezone rewards.producer) L L1 := by
    split at h1
    · exact powerUp_moves h1
    cases h1
    refine (moves_setAccount ha fun _ hn => ?_).congr fun b => ?_
    · have := hn.balance
      exact { hn with balance := by dsimp only; omega }
    · cases b <;> simp [Account.entry, only]
  refine (hproducer.trans (moves_props L1 _ ?_ ?_)).conserves fun b => ?_
  · intro hf
    dsimp only
    split <;> omega
  · intro hr
    dsimp only
    omega
  · cases b <;> simp [entry, counted, only]
    ring

/-- Proposals are paid out of the treasury. -/
theorem transferPayments_conserves {ratio : Nat} {budget : Int}
    (h : L.transferPayments ratio proposals budget = .ok L') : Conserves L L' := by
  induction proposals generalizing L budget with
  | nil =>
    rw [transferPayments, ok.injEq] at h
    exact h ▸ Steady.refl L
  | cons p rest ih =>
    rw [transferPayments] at h
    split at h
    · rw [ok.injEq] at h
      exact h ▸ Steady.refl L
    simp only [returns] at h
    obtain ⟨-, -, L1, h1, L2, h2, h⟩ := h
    have hpaid : Conserves L L2 := by
      refine ((adjustBalance_moves h1).trans (adjustBalance_moves h2)).conserves fun b => ?_
      cases b <;> simp [liquidEntry, bookOf, only]
    split at h
    · cases h
      exact hpaid
    · exact hpaid.trans (ih h)

theorem payProposals_conserves (h : L.payProposals proposals = .ok L') : Conserves L L' := by
  simp only [payProposals, returns] at h
  obtain ⟨treasury, -, budget, -, h⟩ := h
  split at h
  · cases h
    exact Steady.refl L
  · exact transferPayments_conserves h

/-- Properties that are in no book. -/
theorem conserves_props (L : Ledger) (p : Properties)
    (hf : p.totalVestingFundFreezone = L.props.totalVestingFundFreezone)
    (hr : p.totalRewardFundFreezone = L.props.totalRewardFundFreezone)
    (he : ∀ b, p.entry b = L.props.entry b) (hc : ∀ b, p.counted b = L.props.counted b)
    (hi : p.initSbdSupply = L.props.initSbdSupply := by rfl)
    (ht : L.props.time ≤ p.time := by exact le_rfl) : Conserves L { L with props := p } := by
  refine (moves_props L p (fun h => hf ▸ h) (fun h => hr ▸ h) hi ht).conserves fun b => ?_
  rw [he, hc, sub_self]

/-- The maintenance of the proposals conserves the books. -/
theorem makePayments_conserves (h : L.makePayments proposals = .ok L') : Conserves L L' := by
  unfold makePayments at h
  split at h
  · cases h
    exact Steady.refl L
  simp only [returns] at h
  obtain ⟨L1, h1, rfl⟩ := h
  have hpaid : Conserves L L1 := by
    split at h1
    · cases h1
      exact Steady.refl L
    · exact payProposals_conserves h1
  exact hpaid.trans (conserves_props L1 _ rfl rfl (fun _ => rfl) fun b => by cases b <;> rfl)

/-- A new block moves nothing. -/
theorem advance_conserves {headBlockNumber time : Nat}
    (h : L.advance headBlockNumber time = .ok L') : Conserves L L' := by
  simp only [advance, returns] at h
  obtain ⟨-, hlater, rfl⟩ := h
  exact conserves_props L _ rfl rfl (fun _ => rfl) (fun b => by cases b <;> rfl) rfl hlater.2.le

/-- What a split adds to the shares beyond their count. -/
def splitEntry (L : Ledger) : Book → Int :=
  if L.hardfork = 0 then only .shares (999999 * L.gap .shares) else fun _ => 0

/-- The split leaves no negative balance. -/
theorem splitShares_nonneg {a : Account} (h : a.NonNegative) :
    (splitShares 1000000 a).NonNegative := by
  have hshares := h.vestingShares
  have hto := h.toWithdraw
  exact { h with
    vestingShares := by
      dsimp only [splitShares]
      omega
    vestingWithdrawRate := by
      dsimp only [splitShares]
      split <;> omega
    toWithdraw := by
      dsimp only [splitShares]
      omega }

/-- The shares of all accounts are split by the same factor. -/
theorem total_splitShares (t : Table AccountName Account) (b : Book) :
    (t.map (splitShares 1000000)).total (·.entry b) =
      t.total (·.entry b) + only .shares (999999 * t.total (·.entry .shares)) b := by
  rw [total_map]
  cases b with
  | shares =>
    have hmul : (fun a => (splitShares 1000000 a).entry .shares) =
        fun a : Account => 1000000 * a.entry .shares := by
      funext a
      exact mul_comm _ _
    rw [hmul, total_const_mul, only_self]
    ring
  | freezone | sbd | rewardShares | rewardBacking => exact (add_zero _).symm

/-- Only the split shifts the books. -/
theorem applyHardfork_moves (h : L.applyHardfork = .ok L') : Moves L.splitEntry L L' := by
  simp only [applyHardfork, returns] at h
  obtain ⟨-, -, h⟩ := h
  unfold splitEntry
  split at h
  · rename_i hone
    cases h
    rw [if_pos (by omega)]
    refine ⟨⟨fun b => ?_, fun hL => ?_, rfl⟩, ⟨rfl, rfl, rfl⟩⟩
    · cases b with
      | shares =>
        rw [gap, gap, held_eq_accounts _ (by decide), held_eq_accounts _ (by decide),
          total_splitShares]
        simp only [counted, only_self]
        ring
      | freezone | sbd | rewardShares | rewardBacking =>
        simp [gap, held, total_splitShares, entry, counted, only]
    · exact { hL with accounts := hL.accounts.map fun _ hn => splitShares_nonneg hn }
  · rename_i hone
    rw [if_neg (by omega)]
    split at h
    · cases h
      refine ⟨⟨fun b => ?_, fun hL => ?_, rfl⟩, ⟨rfl, rfl, rfl⟩⟩
      · cases b <;> simp [gap, held, entry, counted, only]
        ring
      refine { hL with rewardFunds := fun f hf => ?_, rewardFund := le_rfl }
      rcases mem_append.mp hf with hf | hf
      · exact hL.rewardFunds f hf
      · rw [mem_singleton] at hf
        subst hf
        exact hL.rewardFund
    · -- hardfork 21 only asks for the account of the treasury
      have hsame : L' = { L with hardfork := L.hardfork + 1 } := by
        split at h
        · simp only [returns] at h
          obtain ⟨-, -, h⟩ := h
          exact h.symm
        · exact (ok.inj h).symm
      subst hsame
      exact ⟨⟨fun b => (add_zero _).symm, fun hL => { hL with }, rfl⟩, ⟨rfl, rfl, rfl⟩⟩

/-- The loop of `pay_reward_funds` adds to the funds what it uses. -/
theorem payRewardFunds_spec {reward used used' : Int} {funds funds' : List RewardFund}
    (h : payRewardFunds reward funds used = .ok (funds', used')) :
    (funds'.map RewardFund.rewardBalance).sum =
        (funds.map RewardFund.rewardBalance).sum + (used' - used) ∧
      funds'.map RewardFund.percentContentRewards =
        funds.map RewardFund.percentContentRewards ∧
      (0 ≤ reward → (∀ f ∈ funds, 0 ≤ f.rewardBalance) → ∀ f ∈ funds', 0 ≤ f.rewardBalance) := by
  induction funds generalizing used funds' with
  | nil =>
    obtain ⟨rfl, rfl⟩ := h
    exact ⟨by simp, rfl, fun _ hf => hf⟩
  | cons fund rest ih =>
    simp only [payRewardFunds, returns, Prod.mk.injEq] at h
    obtain ⟨-, -, ⟨rest', u⟩, hrest, rfl, rfl⟩ := h
    obtain ⟨hsum, hpercents, hnonneg⟩ := ih hrest
    refine ⟨?_, by rw [map_cons, map_cons, hpercents], fun hr hf f hmem => ?_⟩
    · simp only [map_cons, sum_cons, hsum]
      ring
    rcases mem_cons.mp hmem with rfl | hmem
    · have hshare : 0 ≤ reward * fund.percentContentRewards / hundredPercent :=
        Int.ediv_nonneg (mul_nonneg hr (Int.natCast_nonneg _)) (by decide)
      exact add_nonneg (hf fund mem_cons_self) hshare
    · exact hnonneg hr (fun f hf' => hf f (mem_cons_of_mem _ hf')) f hmem

/-- The product with the median price of an amount of FREEZONE is SBD. -/
theorem mulMedian_symbol {amount : Int} {b : Asset Liquid}
    (h : L.mulMedian ⟨amount, .freezone⟩ = .ok b) : b.symbol = .sbd := by
  unfold mulMedian at h
  split at h
  · cases h
  have hne := Asset.mul_symbol_ne h
  cases hs : b.symbol with
  | freezone => exact absurd hs hne
  | sbd => rfl

/-- The treasury's part is paid in SBD, which are not counted yet. -/
theorem paySpsFund_moves {spsFund newSbd : Int} (h : L.paySpsFund spsFund = .ok (L', newSbd)) :
    Steady (only .sbd newSbd) L L' ∧ Frame L L' := by
  unfold paySpsFund at h
  split at h
  · simp only [ok.injEq, Prod.mk.injEq] at h
    obtain ⟨rfl, rfl⟩ := h
    exact ⟨(Steady.refl L).congr fun b => (only_zero .sbd b).symm, Frame.refl L⟩
  · simp only [returns, Prod.mk.injEq] at h
    obtain ⟨sbd, hsbd, L1, h1, rfl, rfl⟩ := h
    refine ⟨(adjustBalance_moves h1).congr fun b => ?_, adjustBalance_frame h1⟩
    rw [liquidEntry, mulMedian_symbol hsbd]
    rfl

/-- The inflation is not negative. -/
theorem newFreezone_nonneg (h : 0 ≤ L.props.virtualSupply) : 0 ≤ L.newFreezone := by
  refine Int.ediv_nonneg (mul_nonneg h ?_) (by decide)
  exact le_trans (by decide) (le_max_right _ _)

/-- A part of what a block issues. -/
theorem issuedPart_nonneg (h : 0 ≤ L.props.virtualSupply) {percent : Int} (hp : 0 ≤ percent) :
    0 ≤ L.newFreezone * percent / hundredPercent :=
  Int.ediv_nonneg (mul_nonneg (newFreezone_nonneg h) hp) (by decide)

theorem processFunds_stays {pay : ProducerPay} (h : L.processFunds pay = .ok L') : Stays L L' := by
  simp only [processFunds, returns] at h
  obtain ⟨⟨funds, content⟩, hfunds, -, -, ⟨L1, newSbd⟩, hsps, h⟩ := h
  have hpaid : Stays L { L with rewardFunds := funds } := by
    refine ⟨⟨rfl, rfl, rfl⟩, rfl, subset_rfl, ?_, le_rfl⟩
    split at hfunds
    · exact (payRewardFunds_spec hfunds).2.1
    · simp only [ok.injEq, Prod.mk.injEq] at hfunds
      rw [hfunds.1]
  refine (hpaid.trans (paySpsFund_moves hsps).1.stays).trans
    (Stays.trans ?_ (powerUp_moves h).stays)
  exact ⟨⟨rfl, rfl, rfl⟩, rfl, subset_rfl, rfl, le_rfl⟩

/-- The inflation is divided among the funds, the witness and the shares. -/
theorem processFunds_conserves {pay : ProducerPay} (h : L.processFunds pay = .ok L')
    (hv : 0 ≤ L.props.virtualSupply) : Conserves L L' := by
  simp only [processFunds, returns] at h
  obtain ⟨⟨funds, content⟩, hfunds, -, -, ⟨L1, newSbd⟩, hsps, h⟩ := h
  obtain ⟨hsbd, hframe⟩ := paySpsFund_moves hsps
  have hfork : L1.HasHardfork 17 ↔ L.HasHardfork 17 := hframe.hasHardfork
  have hpercent : (0 : Int) ≤ if L.HasHardfork 21 then 6500 else 7500 := by split <;> decide
  have hcontent := issuedPart_nonneg hv hpercent
  -- from hardfork 17 on the funds for comments are paid at once
  have hpaid : Steady (only .freezone (if L.HasHardfork 17 then content else 0)) L
      { L with rewardFunds := funds } ∧ (¬ L.HasHardfork 17 → 0 ≤ content) := by
    by_cases h17 : L.HasHardfork 17
    · rw [if_pos h17] at hfunds ⊢
      obtain ⟨hsum, hpercents, hnonneg⟩ := payRewardFunds_spec hfunds
      rw [sub_zero] at hsum
      exact ⟨moves_rewardFunds hsum hpercents fun hL => hnonneg hcontent hL.rewardFunds,
        absurd h17⟩
    · rw [if_neg h17] at hfunds ⊢
      obtain ⟨rfl, rfl⟩ := hfunds
      exact ⟨(Steady.refl L).congr fun b => (only_zero .freezone b).symm, fun _ => hcontent⟩
  have hvesting := issuedPart_nonneg hv (by decide : (0 : Int) ≤ 1500)
  -- the count runs ahead of the payment of the witness and of the funds for comments
  refine (((hpaid.1.trans hsbd).trans (moves_props L1 _ (fun hf => add_nonneg hf hvesting)
    fun hr => ?_)).trans (powerUp_moves h)).conserves fun b => ?_
  · dsimp only
    split_ifs with h17
    · rwa [add_zero]
    · exact add_nonneg hr (hpaid.2 (hfork.not.mp h17))
  · simp only [hfork]
    by_cases h17 : L.HasHardfork 17 <;> cases b <;>
      simp [h17, Properties.entry, Properties.counted, only] <;> ring

end Freezone.Chain.Funds.Ledger
