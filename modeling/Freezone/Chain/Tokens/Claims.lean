import Freezone.Chain.Tokens.Model

/-!
# Claims of pending shares

The rewards of a token are pending as liquid tokens and as shares with their backing.
The evaluator compares a claim of shares with the pending liquid tokens, which have
another symbol, so that the comparison throws whatever is pending.
-/

namespace Freezone.Chain.Tokens

open Funds (AccountName)

/-- The backing that belongs to some of the pending shares, all of it to all of them. -/
def RewardsBalance.backingOf (b : RewardsBalance) (shares : Int) : Int :=
  if shares = b.pendingVestingShares then b.pendingVestingValue
  else shares * b.pendingVestingValue / b.pendingVestingShares

namespace State

variable {account : AccountName} {s : Nat} {S S' : State}

/-- Shares that were pending, and their backing, are counted for the account and the token. -/
structure ClaimsShares (account : AccountName) (s : Nat) (shares : Int) (S S' : State) : Prop where
  pending : ∀ b ∈ S.rewards.find? (account, s), S'.rewards.find? (account, s) = some { b with
    pendingVestingShares := b.pendingVestingShares - shares
    pendingVestingValue := b.pendingVestingValue - b.backingOf shares }
  balance : S'.getBalance account s true = S.getBalance account s true + shares
  token : ∀ t ∈ S.tokens.find? s, ∀ b ∈ S.rewards.find? (account, s),
    S'.tokens.find? s = some { t with
      totalVestingShares := t.totalVestingShares + shares
      totalVestingFund := t.totalVestingFund + b.backingOf shares
      pendingRewardedVestingShares := t.pendingRewardedVestingShares - shares
      pendingRewardedVestingFund := t.pendingRewardedVestingFund - b.backingOf shares }

/-- Claims of shares, one after another. -/
def claimShares (account : AccountName) (s : Nat) (claims : List Int) (S : State) :
    Except String State :=
  claims.foldlM (fun S shares => S.claimReward account ⟨shares, s, true⟩) S

/-- The pending shares of an account can be claimed, and no more than they are; when none are left,
no backing is. -/
def Claimable (account : AccountName) (s : Nat) (S : State) : Prop :=
  ∀ b ∈ S.rewards.find? (account, s), 0 < b.pendingVestingShares →
    (∀ shares, 0 < shares → shares ≤ b.pendingVestingShares →
      ∃ S', S.claimReward account ⟨shares, s, true⟩ = .ok S' ∧
        ClaimsShares account s shares S S') ∧
    (∀ shares S', b.pendingVestingShares < shares →
      S.claimReward account ⟨shares, s, true⟩ ≠ .ok S') ∧
    ∀ claims S', S.claimShares account s claims = .ok S' →
      ∀ b' ∈ S'.rewards.find? (account, s), b'.pendingVestingShares = 0 →
        b'.pendingVestingValue = 0

/-- Pending shares can be claimed as they should if and only if there are none. -/
theorem claimable_iff (account : AccountName) (s : Nat) (S : State) : S.Claimable account s ↔
      ∀ b ∈ S.rewards.find? (account, s), b.pendingVestingShares ≤ 0 := by
  constructor
  · intro h b hb
    by_contra hpending
    obtain ⟨hclaim, -, -⟩ := h b hb (not_le.mp hpending)
    obtain ⟨S', hok, -⟩ := hclaim 1 one_pos (by omega)
    simp only [claimReward, SstAsset.le, returns] at hok
    obtain ⟨-, -, -, -, b, -, within, ⟨-, ⟨-, hsymbol⟩, -⟩, -⟩ := hok
    cases hsymbol
  · intro hnone b hb hpending
    exact absurd hpending (hnone b hb).not_gt

/-- Five shares are pending beside ten liquid tokens, and one of them is claimed. -/
theorem claimReward_one_of_five : State.claimReward 1 ⟨1, 7, true⟩
    { ledger := { Funds.Ledger.genesis 0 0 0 with hardfork := sstHardfork }
      rewards := ⟨[((1, 7), ⟨10, 5, 5⟩)], by decide⟩ } = .error "a.symbol == b.symbol" := rfl

end State

end Freezone.Chain.Tokens
