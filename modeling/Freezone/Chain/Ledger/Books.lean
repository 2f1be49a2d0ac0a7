import Freezone.Chain.Ledger.Processing

/-!
# The books of the ledger

Five quantities are held in several places and counted in the global properties.
The gap of a book is what is held beyond the count. Each function of the ledger
shifts the gaps by an amount that depends on its arguments alone, and the shifts
add up along a sequence of functions.
-/

namespace Freezone.Chain.Funds

open Protocol

/-- What is counted: the two supplies, the vesting shares, the pending shares of rewards and the
FREEZONE behind these. -/
inductive Book
  | freezone
  | sbd
  | shares
  | rewardShares
  | rewardBacking
  deriving DecidableEq

/-- The book of a liquid currency. -/
def bookOf : Liquid → Book
  | .freezone => .freezone
  | .sbd => .sbd

/-- An amount in one book. -/
def only (b : Book) (d : Int) : Book → Int := fun b' => if b' = b then d else 0

/-- What an asset adds to a book. -/
def liquidEntry (a : Asset Liquid) : Book → Int := only (bookOf a.symbol) a.amount

namespace Account

/-- What an account adds to a book. -/
def entry (a : Account) : Book → Int
  | .freezone => a.balance + a.savingsBalance + a.rewardFreezoneBalance
  | .sbd => a.sbd.balance + a.savingsSbd.balance + a.rewardSbdBalance
  | .shares => a.vestingShares
  | .rewardShares => a.rewardVestingBalance
  | .rewardBacking => a.rewardVestingFreezone

/-- No amount of the account is negative. -/
structure NonNegative (a : Account) : Prop where
  balance : 0 ≤ a.balance
  sbd : 0 ≤ a.sbd.balance
  seconds : 0 ≤ a.sbd.seconds
  savingsBalance : 0 ≤ a.savingsBalance
  savingsSbd : 0 ≤ a.savingsSbd.balance
  savingsSeconds : 0 ≤ a.savingsSbd.seconds
  rewardFreezoneBalance : 0 ≤ a.rewardFreezoneBalance
  rewardSbdBalance : 0 ≤ a.rewardSbdBalance
  rewardVestingBalance : 0 ≤ a.rewardVestingBalance
  rewardVestingFreezone : 0 ≤ a.rewardVestingFreezone
  vestingShares : 0 ≤ a.vestingShares
  vestingWithdrawRate : 0 ≤ a.vestingWithdrawRate
  toWithdraw : 0 ≤ a.toWithdraw

/-- Nothing that an account adds to a book is negative. -/
theorem NonNegative.entry {a : Account} (h : a.NonNegative) (b : Book) : 0 ≤ a.entry b := by
  cases b with
  | freezone => exact add_nonneg (add_nonneg h.balance h.savingsBalance) h.rewardFreezoneBalance
  | sbd => exact add_nonneg (add_nonneg h.sbd h.savingsSbd) h.rewardSbdBalance
  | shares => exact h.vestingShares
  | rewardShares => exact h.rewardVestingBalance
  | rewardBacking => exact h.rewardVestingFreezone

end Account

/-- What a conversion holds. -/
def ConvertRequest.entry (r : ConvertRequest) : Book → Int := only .sbd r.amount

/-- What an order holds. -/
def LimitOrder.entry (o : LimitOrder) : Book → Int := liquidEntry o.amountForSale

/-- What an escrow holds. -/
def Escrow.entry (e : Escrow) : Book → Int := fun b =>
  only .freezone e.freezoneBalance b + only .sbd e.sbdBalance b + liquidEntry e.pendingFee b

/-- No amount of the escrow is negative. -/
structure Escrow.NonNegative (e : Escrow) : Prop where
  freezoneBalance : 0 ≤ e.freezoneBalance
  sbdBalance : 0 ≤ e.sbdBalance
  pendingFee : 0 ≤ e.pendingFee.amount

/-- What a savings withdrawal holds. -/
def SavingsWithdraw.entry (w : SavingsWithdraw) : Book → Int := liquidEntry w.amount

namespace Properties

/-- What the global properties hold themselves. -/
def entry (p : Properties) : Book → Int :=
  only .freezone
    (p.totalVestingFundFreezone + p.totalRewardFundFreezone + p.pendingRewardedVestingFreezone)

/-- What they count; the SBD of the genesis is counted apart. -/
def counted (p : Properties) : Book → Int
  | .freezone => p.currentSupply
  | .sbd => p.currentSbdSupply + p.initSbdSupply
  | .shares => p.totalVestingShares
  | .rewardShares => p.pendingRewardedVestingShares
  | .rewardBacking => p.pendingRewardedVestingFreezone

end Properties

namespace Ledger

variable {L L' L'' : Ledger} {δ δ' : Book → Int}

/-- All that is held of a book, as `validate_invariants` adds it up. -/
def held (L : Ledger) (b : Book) : Int :=
  L.accounts.total (·.entry b) + L.convertRequests.total (·.entry b) +
    L.limitOrders.total (·.entry b) + L.escrows.total (·.entry b) +
    L.savingsWithdraws.total (·.entry b) +
    only .freezone (L.rewardFunds.map RewardFund.rewardBalance).sum b + L.props.entry b

/-- Vesting shares and pending shares are held by accounts only. -/
theorem held_eq_accounts (L : Ledger) {b : Book} (h : b ≠ .freezone ∧ b ≠ .sbd) :
    L.held b = L.accounts.total (·.entry b) := by
  have hliquid : ∀ a : Asset Liquid, liquidEntry a b = 0 := by
    rintro ⟨d, s⟩
    cases s with
    | freezone => exact if_neg h.1
    | sbd => exact if_neg h.2
  have hconvert : ∀ r : ConvertRequest, r.entry b = 0 := fun _ => if_neg h.2
  have horder : ∀ o : LimitOrder, o.entry b = 0 := fun _ => hliquid _
  have hescrow : ∀ e : Escrow, e.entry b = 0 := by
    intro e
    simp only [Escrow.entry, hliquid, only, if_neg h.1, if_neg h.2, add_zero]
  have hsavings : ∀ w : SavingsWithdraw, w.entry b = 0 := fun _ => hliquid _
  rw [held, L.convertRequests.total_zero hconvert, L.limitOrders.total_zero horder,
    L.escrows.total_zero hescrow, L.savingsWithdraws.total_zero hsavings]
  simp only [Properties.entry, only, if_neg h.1, add_zero]

/-- What is held of a book beyond its count. -/
def gap (L : Ledger) (b : Book) : Int := L.held b - L.props.counted b

/-- No amount in any object, in a reward fund or in the vesting fund is negative. -/
structure NonNegative (L : Ledger) : Prop where
  accounts : L.accounts.Holds Account.NonNegative
  convertRequests : L.convertRequests.Holds fun r => 0 ≤ r.amount
  limitOrders : L.limitOrders.Holds fun o => 0 ≤ o.forSale
  escrows : L.escrows.Holds Escrow.NonNegative
  savingsWithdraws : L.savingsWithdraws.Holds fun w => 0 ≤ w.amount.amount
  rewardFunds : ∀ f ∈ L.rewardFunds, 0 ≤ f.rewardBalance
  vestingFund : 0 ≤ L.props.totalVestingFundFreezone
  rewardFund : 0 ≤ L.props.totalRewardFundFreezone

/-- The escrows, their record and the next id are as they were. -/
structure Kept (L L' : Ledger) : Prop where
  escrows : L'.escrows = L.escrows
  escrowLog : L'.escrowLog = L.escrowLog
  nextEscrowId : L'.nextEscrowId = L.nextEscrowId

theorem Kept.refl (L : Ledger) : Kept L L := ⟨rfl, rfl, rfl⟩

theorem Kept.trans (h : Kept L L') (h' : Kept L' L'') : Kept L L'' where
  escrows := h'.escrows.trans h.escrows
  escrowLog := h'.escrowLog.trans h.escrowLog
  nextEscrowId := h'.nextEscrowId.trans h.nextEscrowId

/-- The gaps shift, what was not negative is not, and the SBD of the genesis are the same. -/
structure Shifts (δ : Book → Int) (L L' : Ledger) : Prop where
  gap : ∀ b, L'.gap b = L.gap b + δ b
  nonneg : L.NonNegative → L'.NonNegative
  init : L'.props.initSbdSupply = L.props.initSbdSupply

/-- A shift that leaves the escrows alone. -/
structure Moves (δ : Book → Int) (L L' : Ledger) : Prop extends Shifts δ L L', Kept L L'

/-- The shifts of two steps add up. -/
theorem Shifts.trans (h : Shifts δ L L') (h' : Shifts δ' L' L'') :
    Shifts (fun b => δ b + δ' b) L L'' where
  gap b := by rw [h'.gap, h.gap, add_assoc]
  nonneg := h'.nonneg ∘ h.nonneg
  init := h'.init.trans h.init

theorem Shifts.congr (h : Shifts δ L L') (hδ : ∀ b, δ b = δ' b) : Shifts δ' L L' where
  gap b := by rw [h.gap, hδ]
  nonneg := h.nonneg
  init := h.init

/-- The movements of two steps add up. -/
theorem Moves.trans (h : Moves δ L L') (h' : Moves δ' L' L'') : Moves (fun b => δ b + δ' b) L L'' :=
  ⟨h.toShifts.trans h'.toShifts, h.toKept.trans h'.toKept⟩

theorem Moves.congr (h : Moves δ L L') (hδ : ∀ b, δ b = δ' b) : Moves δ' L L' :=
  ⟨h.toShifts.congr hδ, h.toKept⟩

/-- The hardfork and the percentages of the reward funds are the same, no account is gone, and the
time has not gone back. -/
structure Grows (L L' : Ledger) : Prop where
  hardfork : L'.hardfork = L.hardfork
  accounts : L.accounts.keys ⊆ L'.accounts.keys
  percents : L'.rewardFunds.map RewardFund.percentContentRewards =
    L.rewardFunds.map RewardFund.percentContentRewards
  time : L.props.time ≤ L'.props.time

theorem Grows.refl (L : Ledger) : Grows L L := ⟨rfl, subset_rfl, rfl, le_rfl⟩

theorem Grows.trans (h : Grows L L') (h' : Grows L' L'') : Grows L L'' where
  hardfork := h'.hardfork.trans h.hardfork
  accounts := h.accounts.trans h'.accounts
  percents := h'.percents.trans h.percents
  time := h.time.trans h'.time

/-- A shift that leaves the escrows alone and takes nothing away that later steps rely on. -/
structure Steady (δ : Book → Int) (L L' : Ledger) : Prop extends Moves δ L L', Grows L L'

theorem Steady.trans (h : Steady δ L L') (h' : Steady δ' L' L'') :
    Steady (fun b => δ b + δ' b) L L'' :=
  ⟨h.toMoves.trans h'.toMoves, h.toGrows.trans h'.toGrows⟩

theorem Steady.congr (h : Steady δ L L') (hδ : ∀ b, δ b = δ' b) : Steady δ' L L' :=
  ⟨h.toMoves.congr hδ, h.toGrows⟩

theorem Steady.refl (L : Ledger) : Steady (fun _ => 0) L L where
  gap b := by rw [add_zero]
  nonneg h := h
  init := rfl
  toKept := Kept.refl L
  toGrows := Grows.refl L

/-- A shift that takes nothing away that later steps rely on. -/
structure Drifts (δ : Book → Int) (L L' : Ledger) : Prop extends Shifts δ L L', Grows L L'

theorem Drifts.trans (h : Drifts δ L L') (h' : Drifts δ' L' L'') :
    Drifts (fun b => δ b + δ' b) L L'' :=
  ⟨h.toShifts.trans h'.toShifts, h.toGrows.trans h'.toGrows⟩

theorem Drifts.congr (h : Drifts δ L L') (hδ : ∀ b, δ b = δ' b) : Drifts δ' L L' :=
  ⟨h.toShifts.congr hδ, h.toGrows⟩

theorem Steady.drifts (h : Steady δ L L') : Drifts δ L L' := ⟨h.toShifts, h.toGrows⟩

/-- The escrows are left alone, and nothing is taken away that later steps rely on. -/
structure Stays (L L' : Ledger) : Prop extends Kept L L', Grows L L'

/-- A steady step touches no escrow. -/
theorem Steady.stays (h : Steady δ L L') : Stays L L' := ⟨h.toKept, h.toGrows⟩

theorem Stays.refl (L : Ledger) : Stays L L := (Steady.refl L).stays

theorem Stays.trans (h : Stays L L') (h' : Stays L' L'') : Stays L L'' :=
  ⟨h.toKept.trans h'.toKept, h.toGrows.trans h'.toGrows⟩

theorem Stays.of_ok (h : (.ok L : Except String Ledger) = .ok L') : Stays L L' :=
  Except.ok.inj h ▸ Stays.refl L

/-- A loop touches no escrow if its steps do not. -/
theorem forEach_stays {α : Type} {f : α → Ledger → Except String Ledger} {l : List α}
    (step : ∀ a L L', f a L = .ok L' → Stays L L') (h : forEach f l L = .ok L') : Stays L L' :=
  forEach_invariant (P := Stays L) (fun a _ _ _ hs h => hs.trans (step a _ _ h)) (Stays.refl L) h

/-- Nothing is gained or lost. -/
abbrev Conserves (L L' : Ledger) : Prop := Steady (fun _ => 0) L L'

/-- A steady step that shifts no book conserves. -/
theorem Steady.conserves (h : Steady δ L L') (hδ : ∀ b, δ b = 0) : Conserves L L' := h.congr hδ

theorem Conserves.trans (h : Conserves L L') (h' : Conserves L' L'') : Conserves L L'' :=
  (Steady.trans h h').conserves fun _ => add_zero 0

/-- The table of the accounts changes. -/
theorem moves_accounts {t : Table AccountName Account}
    (ht : ∀ b, t.total (·.entry b) = L.accounts.total (·.entry b) + δ b)
    (hk : L.accounts.keys ⊆ t.keys) (hn : L.NonNegative → t.Holds Account.NonNegative) :
    Steady δ L { L with accounts := t } where
  gap b := by
    simp only [gap, held, ht]
    ring
  nonneg hL := { hL with accounts := hn hL }
  init := rfl
  toKept := ⟨rfl, rfl, rfl⟩
  toGrows := ⟨rfl, hk, rfl, le_rfl⟩

/-- An account is replaced. -/
theorem moves_setAccount {name : AccountName} {a a' : Account} (h : L.accounts.find? name = some a)
    (ha : L.NonNegative → a.NonNegative → a'.NonNegative) :
    Steady (fun b => a'.entry b - a.entry b) L (L.setAccount name a') := by
  refine moves_accounts (fun b => ?_) (Table.keys_set _ _ _).ge fun hL => ?_
  · rw [Table.total_set h]
    ring
  · exact hL.accounts.set name (ha hL (hL.accounts _ _ h))

theorem stays_setAccount (L : Ledger) (name : AccountName) (a : Account) :
    Stays L (L.setAccount name a) :=
  ⟨⟨rfl, rfl, rfl⟩, rfl, (Table.keys_set _ _ _).ge, rfl, le_rfl⟩

/-- The table of the conversions changes. -/
theorem moves_convertRequests {t : Table (AccountName × Nat) ConvertRequest}
    (ht : ∀ b, t.total (·.entry b) = L.convertRequests.total (·.entry b) + δ b)
    (hn : L.NonNegative → t.Holds fun r => 0 ≤ r.amount) :
    Steady δ L { L with convertRequests := t } where
  gap b := by
    simp only [gap, held, ht]
    ring
  nonneg hL := { hL with convertRequests := hn hL }
  init := rfl
  toKept := ⟨rfl, rfl, rfl⟩
  toGrows := ⟨rfl, subset_rfl, rfl, le_rfl⟩

/-- The table of the orders changes. -/
theorem moves_limitOrders {t : Table (AccountName × Nat) LimitOrder}
    (ht : ∀ b, t.total (·.entry b) = L.limitOrders.total (·.entry b) + δ b)
    (hn : L.NonNegative → t.Holds fun o => 0 ≤ o.forSale) :
    Steady δ L { L with limitOrders := t } where
  gap b := by
    simp only [gap, held, ht]
    ring
  nonneg hL := { hL with limitOrders := hn hL }
  init := rfl
  toKept := ⟨rfl, rfl, rfl⟩
  toGrows := ⟨rfl, subset_rfl, rfl, le_rfl⟩

/-- The table of the savings withdrawals changes. -/
theorem moves_savingsWithdraws {t : Table (AccountName × Nat) SavingsWithdraw}
    (ht : ∀ b, t.total (·.entry b) = L.savingsWithdraws.total (·.entry b) + δ b)
    (hn : L.NonNegative → t.Holds fun w => 0 ≤ w.amount.amount) :
    Steady δ L { L with savingsWithdraws := t } where
  gap b := by
    simp only [gap, held, ht]
    ring
  nonneg hL := { hL with savingsWithdraws := hn hL }
  init := rfl
  toKept := ⟨rfl, rfl, rfl⟩
  toGrows := ⟨rfl, subset_rfl, rfl, le_rfl⟩

/-- The reward funds change. -/
theorem moves_rewardFunds {l : List RewardFund} {d : Int}
    (hl : (l.map RewardFund.rewardBalance).sum =
      (L.rewardFunds.map RewardFund.rewardBalance).sum + d)
    (hp : l.map RewardFund.percentContentRewards =
      L.rewardFunds.map RewardFund.percentContentRewards)
    (hn : L.NonNegative → ∀ f ∈ l, 0 ≤ f.rewardBalance) :
    Steady (only .freezone d) L { L with rewardFunds := l } where
  gap b := by
    simp only [gap, held, hl]
    cases b <;> simp [only]
    ring
  nonneg hL := { hL with rewardFunds := hn hL }
  init := rfl
  toKept := ⟨rfl, rfl, rfl⟩
  toGrows := ⟨rfl, subset_rfl, hp, le_rfl⟩

/-- The global properties change. -/
theorem moves_props (L : Ledger) (p : Properties)
    (hf : 0 ≤ L.props.totalVestingFundFreezone → 0 ≤ p.totalVestingFundFreezone)
    (hr : 0 ≤ L.props.totalRewardFundFreezone → 0 ≤ p.totalRewardFundFreezone)
    (hi : p.initSbdSupply = L.props.initSbdSupply := by rfl)
    (ht : L.props.time ≤ p.time := by exact le_rfl) :
    Steady (fun b => p.entry b - p.counted b - (L.props.entry b - L.props.counted b)) L
      { L with props := p } where
  gap b := by
    simp only [gap, held]
    ring
  nonneg hL := { hL with vestingFund := hf hL.vestingFund, rewardFund := hr hL.rewardFund }
  init := hi
  toKept := ⟨rfl, rfl, rfl⟩
  toGrows := ⟨rfl, subset_rfl, rfl, ht⟩

end Ledger

end Freezone.Chain.Funds
