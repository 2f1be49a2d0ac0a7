import Freezone.Chain.Ledger.Vesting

/-!
# Operations conserve

What the evaluators of operations and the market take from one place they put into
another, whatever the ledger was.
-/

namespace Freezone.Chain.Funds

open Protocol Table Account

theorem liquidEntry_neg (a : Asset Liquid) (b : Book) : liquidEntry (-a) b = -liquidEntry a b := by
  simp only [liquidEntry, only, Asset.neg_amount, Asset.neg_symbol]
  split <;> simp

theorem liquidEntry_sub (x y : Int) (s : Liquid) (b : Book) :
    liquidEntry ⟨x - y, s⟩ b = liquidEntry ⟨x, s⟩ b - liquidEntry ⟨y, s⟩ b := by
  simp only [liquidEntry, only]
  split <;> simp

variable {a : Account} {creator fromAccount toAccount : AccountName} {amount : Asset Liquid}
  {shares : Int}

theorem Account.NonNegative.getSavingsBalance (h : a.NonNegative) (s : Liquid) :
    0 ≤ a.getSavingsBalance s := by
  cases s with
  | freezone => exact h.savingsBalance
  | sbd => exact h.savingsSbd

/-- The empty account holds nothing. -/
theorem Account.nonNegative_default : ({} : Account).NonNegative := by
  constructor <;> exact le_rfl

namespace Ledger

variable {L L' : Ledger} {name : AccountName}

/-- Power-ups move FREEZONE into the fund. -/
theorem powerUp_moves {liquid : Int} (h : L.createVesting name liquid false = .ok L') :
    Steady (only .freezone liquid) L L' :=
  (createVesting_moves h (absurd · Bool.false_ne_true)).congr fun b => by simp [vestingEntry]

/-- The fee goes to the null account or becomes shares of the new account. -/
theorem accountCreate_conserves {newAccountName : AccountName} {fee : Int}
    (h : L.accountCreate creator newAccountName fee = .ok L') : Conserves L L' := by
  simp only [accountCreate, returns] at h
  obtain ⟨-, hfee, L1, h1, L2, h2, accounts, hacc, h⟩ := h
  have hnew : Conserves L2 { L2 with accounts := accounts } := by
    refine moves_accounts (fun b => ?_)
      (by rw [keys_insert hacc]; exact Finset.subset_insert _ _) fun hL => hL.accounts.insert hacc
      nonNegative_default
    rw [total_insert hacc]
    cases b <;> rfl
  split at h2
  · rename_i hfork
    have hfork2 := (adjustBalance_frame h2).hasHardfork.mpr hfork
    rw [if_neg (fun hn => hn.1 hfork2)] at h
    cases h
    refine (((adjustBalance_moves h1).trans (adjustBalance_moves h2)).conserves fun b => ?_).trans
      hnew
    cases b <;> simp [liquidEntry, bookOf, only]
  · cases h2
    split at h
    · refine (((adjustBalance_moves h1).trans hnew).trans (powerUp_moves h)).conserves fun b => ?_
      cases b <;> simp [liquidEntry, bookOf, only]
    rename_i hfork hzero
    have hfee : fee = 0 := by
      by_contra hne
      exact hzero ⟨hfork, lt_of_le_of_ne hfee (Ne.symm hne)⟩
    rw [Except.ok.injEq] at h
    subst h hfee
    refine ((adjustBalance_moves h1).trans hnew).conserves fun b => ?_
    cases b <;> simp [liquidEntry, bookOf, only]

/-- The fee goes to the null account. -/
theorem claimAccount_conserves {fee : Int}
    (h : L.claimAccount creator fee = .ok L') : Conserves L L' := by
  simp only [claimAccount, returns, getAccount_eq_ok] at h
  obtain ⟨-, hfee, -, -, a, ha, -, hle, L1, h1, a', ha', rfl⟩ := h
  -- the fee has not made the creator poorer, not even the null account
  obtain ⟨a1, hfind, -, -, hmore⟩ := adjustBalance_find h1 ha
  obtain rfl := Option.some.inj (hfind.symm.trans ha')
  refine ((adjustBalance_moves h1).trans (moves_setAccount ha' fun _ hn => ?_)).conserves
    fun b => ?_
  · have := hmore hfee
    exact { hn with balance := by dsimp only; omega }
  · cases b <;> simp [entry, liquidEntry, bookOf, only]

theorem transfer_conserves
    (h : L.transfer fromAccount toAccount amount = .ok L') : Conserves L L' := by
  simp only [transfer, returns] at h
  obtain ⟨-, -, -, -, L1, h1, h2⟩ := h
  refine ((adjustBalance_moves h1).trans (adjustBalance_moves h2)).conserves fun b => ?_
  rw [liquidEntry_neg, neg_add_cancel]

/-- The amount goes to the vesting fund. -/
theorem transferToVesting_conserves {toAccount : Option AccountName}
    {amount : Int} (h : L.transferToVesting fromAccount toAccount amount = .ok L') :
    Conserves L L' := by
  simp only [transferToVesting, returns] at h
  obtain ⟨-, -, -, -, L1, h1, h2⟩ := h
  refine ((adjustBalance_moves h1).trans (powerUp_moves h2)).conserves fun b => ?_
  cases b <;> simp [liquidEntry, bookOf, only]

/-- The rate of a power-down of a positive number of shares is not negative. -/
theorem newVestingWithdrawRate_nonneg (h : 0 ≤ shares) : 0 ≤ L.newVestingWithdrawRate shares := by
  have hintervals : 0 < vestingWithdrawIntervals (L.HasHardfork 16) := by
    unfold vestingWithdrawIntervals
    split <;> decide
  have hdiv := Int.ediv_nonneg h hintervals.le
  unfold newVestingWithdrawRate
  dsimp only
  split_ifs <;> omega

/-- Setting a power down moves nothing. -/
theorem withdrawVesting_conserves {account : AccountName}
    (h : L.withdrawVesting account shares = .ok L') : Conserves L L' := by
  simp only [withdrawVesting, returns, getAccount_eq_ok] at h
  obtain ⟨a, ha, h⟩ := h
  split at h
  · simp only [returns] at h
    obtain ⟨-, -, rfl⟩ := h
    exact Steady.refl L
  · rename_i hneg
    simp only [returns] at h
    obtain ⟨-, -, -, -, h⟩ := h
    split at h
    · simp only [returns] at h
      obtain ⟨-, -, rfl⟩ := h
      refine (moves_setAccount ha fun _ hn => ?_).conserves fun b => ?_
      · exact { hn with vestingWithdrawRate := le_rfl, toWithdraw := le_rfl }
      · cases b <;> simp [entry]
    · simp only [returns] at h
      obtain ⟨-, -, rfl⟩ := h
      refine (moves_setAccount ha fun _ hn => ?_).conserves fun b => ?_
      · exact { hn with
          vestingWithdrawRate := newVestingWithdrawRate_nonneg (not_lt.mp hneg)
          toWithdraw := not_lt.mp hneg }
      · cases b <;> simp [entry]

/-- Routes are in no book. -/
theorem conserves_routes (L : Ledger)
    (routes : Table (AccountName × AccountName) WithdrawVestingRoute) :
    Conserves L { L with withdrawRoutes := routes } where
  gap _ := (add_zero _).symm
  nonneg hL := { hL with }
  init := rfl
  toKept := ⟨rfl, rfl, rfl⟩
  toGrows := ⟨rfl, subset_rfl, rfl, le_rfl⟩

/-- Setting a route moves nothing. -/
theorem updateRoute_conserves {route : WithdrawVestingRoute}
    (h : L.updateRoute fromAccount toAccount route a = .ok L')
    (ha : L.accounts.find? fromAccount = some a) : Conserves L L' := by
  -- the number of routes of the account is in no book either
  have hcount : ∀ routes n, Conserves L ({ L with withdrawRoutes := routes }.setAccount fromAccount
      { a with withdrawRoutes := n }) := by
    intro routes n
    refine Conserves.trans ((moves_setAccount ha fun _ hn => ?_).conserves fun b => ?_)
      (conserves_routes (L.setAccount fromAccount { a with withdrawRoutes := n }) routes)
    · exact { hn with }
    · cases b <;> simp [entry]
  unfold updateRoute at h
  split at h
  · simp only [returns] at h
    obtain ⟨-, -, -, -, routes, -, rfl⟩ := h
    exact hcount routes _
  · split at h
    · cases h
      exact hcount _ _
    · cases h
      exact conserves_routes L _

theorem setWithdrawVestingRoute_conserves {percent : Nat} {autoVest : Bool}
    (h : L.setWithdrawVestingRoute fromAccount toAccount percent autoVest = .ok L') :
    Conserves L L' := by
  simp only [setWithdrawVestingRoute, returns, getAccount_eq_ok] at h
  obtain ⟨-, -, a, ha, -, -, -, -, L1, h1, -, -, rfl⟩ := h
  exact updateRoute_conserves h1 ha

/-- The dollars wait in a request. -/
theorem convert_conserves {owner : AccountName} {requestid : Nat} {amount : Int}
    (h : L.convert owner requestid amount = .ok L') : Conserves L L' := by
  simp only [convert, returns] at h
  obtain ⟨-, hpos, L1, h1, -, -, requests, hins, rfl⟩ := h
  refine ((adjustBalance_moves h1).trans (moves_convertRequests
    (fun b => total_insert hins _) fun hL => ?_)).conserves fun b => ?_
  · exact hL.convertRequests.insert hins hpos.le
  · cases b <;> simp [ConvertRequest.entry, liquidEntry, bookOf, only]

/-- The amount goes to the savings of the receiver. -/
theorem transferToSavings_conserves
    (h : L.transferToSavings fromAccount toAccount amount = .ok L') : Conserves L L' := by
  simp only [transferToSavings, returns] at h
  obtain ⟨-, hpos, -, -, -, -, L1, h1, h2⟩ := h
  refine ((adjustBalance_moves h1).trans
    (adjustSavingsBalance_moves h2 fun hL a ha => ?_)).conserves
    fun b => ?_
  · exact add_nonneg ((hL.accounts _ a ha).getSavingsBalance _) hpos.le
  · rw [liquidEntry_neg, neg_add_cancel]

/-- The number of an account's savings requests is in no book. -/
theorem conserves_requests (ha : L.accounts.find? name = some a) (n : Nat) :
    Conserves L (L.setAccount name { a with savingsWithdrawRequests := n }) := by
  refine (moves_setAccount ha fun _ hn => ?_).conserves fun b => ?_
  · exact { hn with }
  · cases b <;> simp [entry]

/-- The amount waits in a request. -/
theorem transferFromSavings_conserves {requestId : Nat}
    (h : L.transferFromSavings fromAccount requestId toAccount amount = .ok L') :
    Conserves L L' := by
  simp only [transferFromSavings, returns, getAccount_eq_ok] at h
  obtain ⟨-, hpos, a, ha, -, -, -, -, -, -, -, hle, L1, h1, withdraws, hins, a', ha', rfl⟩ := h
  have htake : Steady (liquidEntry (-amount)) L L1 := by
    refine adjustSavingsBalance_moves h1 fun _ a0 ha0 => ?_
    obtain rfl : a = a0 := Option.some.inj (ha.symm.trans ha0)
    simp only [Asset.neg_symbol, Asset.neg_amount]
    omega
  have hput : Steady (liquidEntry amount) L1 { L1 with savingsWithdraws := withdraws } :=
    moves_savingsWithdraws (fun b => total_insert hins _)
      fun hL => hL.savingsWithdraws.insert hins hpos.le
  refine ((htake.trans hput).conserves fun b => ?_).trans
    (conserves_requests (L := { L1 with savingsWithdraws := withdraws }) ha' _)
  rw [liquidEntry_neg, neg_add_cancel]

/-- The counter of the requests is no book. -/
theorem dropSavingsRequest_conserves (h : L.dropSavingsRequest name = .ok L') :
    Conserves L L' ∧ L'.savingsWithdraws = L.savingsWithdraws := by
  simp only [dropSavingsRequest, returns, getAccount_eq_ok] at h
  obtain ⟨a, ha, rfl⟩ := h
  exact ⟨conserves_requests ha _, rfl⟩

/-- The amount of the request returns to the savings. -/
theorem cancelTransferFromSavings_conserves {requestId : Nat}
    (h : L.cancelTransferFromSavings fromAccount requestId = .ok L') : Conserves L L' := by
  simp only [cancelTransferFromSavings, returns] at h
  obtain ⟨request, hfind, L1, h1, h2⟩ := h
  have hput : Steady (liquidEntry request.amount) L L1 := by
    refine adjustSavingsBalance_moves h1 fun hL a ha => ?_
    exact add_nonneg ((hL.accounts _ a ha).getSavingsBalance _) (hL.savingsWithdraws _ _ hfind)
  have hsame := (adjustSavingsBalance_frame h1).savingsWithdraws
  have htake : Steady (fun b => -liquidEntry request.amount b) L1
      { L1 with savingsWithdraws := L1.savingsWithdraws.erase (fromAccount, requestId) } :=
    moves_savingsWithdraws (fun b => total_erase (hsame ▸ hfind) _)
      fun hL => hL.savingsWithdraws.erase _
  refine ((hput.trans htake).conserves fun b => ?_).trans (dropSavingsRequest_conserves h2).1
  exact add_neg_cancel _

/-- The rewards go to the balances and the vesting fund. -/
theorem claimRewardBalance_conserves {account : AccountName}
    {rewardFreezone rewardSbd rewardVests : Int}
    (h : L.claimRewardBalance account rewardFreezone rewardSbd rewardVests = .ok L') :
    Conserves L L' := by
  simp only [claimRewardBalance, returns, getAccount_eq_ok] at h
  obtain ⟨-, -, -, hs, -, hv, -, -, a, ha, -, hfle, -, hsle, -, hvle, L1, h1, L2, h2, L3, h3,
    L4, h4, a', ha', rfl⟩ := h
  -- the account keeps its pending shares and their backing until they are moved
  obtain ⟨a1, ha1, hv1, hb1, hs1⟩ := adjustRewardBalance_find h1 ha
  obtain ⟨a2, ha2, hv2, hb2, -⟩ := adjustRewardBalance_find h2 ha1
  obtain ⟨a3, ha3, hv3, hb3, -⟩ := adjustBalance_find h3 ha2
  obtain ⟨a4, ha4, hv4, hb4, -⟩ := adjustBalance_find h4 ha3
  obtain rfl := Option.some.inj (ha4.symm.trans ha')
  have hm1 := adjustRewardBalance_moves h1 le_rfl (Or.inr ⟨rfl, fun a0 ha0 => by
    obtain rfl := Option.some.inj (ha.symm.trans ha0)
    simp only [getRewardBalance]
    omega⟩)
  have hm2 := adjustRewardBalance_moves h2 le_rfl (Or.inr ⟨rfl, fun a0 ha0 => by
    obtain rfl := Option.some.inj (ha1.symm.trans ha0)
    simp only [getRewardBalance, hs1, Asset.part]
    simp only [reduceCtorEq, if_false, add_zero]
    omega⟩)
  have hliquid : Conserves L L4 := by
    refine (((hm1.trans hm2).trans (adjustBalance_moves h3)).trans
      (adjustBalance_moves h4)).conserves fun b => ?_
    cases b <;> simp [rewardEntry, liquidEntry, bookOf, only]
  -- a claim moves no more than the whole backing
  have hmoved : 0 ≤ a4.rewardVestingFreezone → 0 ≤ rewardVestingToMove a rewardVests ∧
      rewardVestingToMove a rewardVests ≤ a4.rewardVestingFreezone := by
    rw [hb4, hb3, hb2, hb1]
    intro hback
    unfold rewardVestingToMove
    split_ifs with hne
    · exact ⟨hback, le_rfl⟩
    have hpos : 0 < a.rewardVestingBalance := by omega
    refine ⟨Int.ediv_nonneg (mul_nonneg hv hback) hpos.le, ?_⟩
    rcases hback.lt_or_eq with hlt | heq
    · exact (part_le hpos hlt hvle).1
    · rw [← heq, mul_zero, Int.zero_ediv]
  dsimp only [setAccount]
  refine hliquid.trans {
    gap := fun b => ?_
    nonneg := fun hL => ?_
    init := rfl
    toKept := ⟨rfl, rfl, rfl⟩
    toGrows := ⟨rfl, (keys_set _ _ _).ge, rfl, le_rfl⟩ }
  · simp only [gap, held, total_set ha4]
    cases b <;> simp [entry, Properties.entry, Properties.counted, only] <;> ring
  · have hn := hL.accounts _ _ ha4
    obtain ⟨hm0, hm⟩ := hmoved hn.rewardVestingFreezone
    have hvests := hn.vestingShares
    have hfund := hL.vestingFund
    exact { hL with
      accounts := hL.accounts.set account { hn with
        vestingShares := by dsimp only; omega
        rewardVestingBalance := by dsimp only; omega
        rewardVestingFreezone := by dsimp only; omega }
      vestingFund := by dsimp only; omega }

/-- The fee goes to the treasury. -/
theorem payProposalFee_conserves (h : L.payProposalFee creator = .ok L') : Conserves L L' := by
  simp only [payProposalFee, returns] at h
  obtain ⟨-, -, L1, h1, h2⟩ := h
  refine ((adjustBalance_moves h1).trans (adjustBalance_moves h2)).conserves fun b => ?_
  cases b <;> simp [liquidEntry, bookOf, only]

/-- Lent shares stay with the delegator. -/
theorem delegate_conserves (h : L.delegate name shares = .ok L') : Conserves L L' := by
  simp only [delegate, returns, getAccount_eq_ok] at h
  obtain ⟨a, ha, rfl⟩ := h
  refine (moves_setAccount ha fun _ hn => ?_).conserves fun b => ?_
  · exact { hn with }
  · cases b <;> simp [entry]

end Ledger

end Freezone.Chain.Funds
