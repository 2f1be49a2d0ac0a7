import Freezone.Chain.Ledger.Model

/-!
# Vesting accounts and their mana

What `account_object` holds of VESTS and `account_regular_balance_object` of the
vesting shares of a token: shares, delegated and received shares, the power-down in
progress, and the two manabars. Mana is bounded by the effective vesting shares and
regenerates with time.
-/

namespace Freezone.Chain.Delegation

open Protocol
open Funds (maximumTime)

/-- A number brought into the range of 64 bits. -/
def saturate (n : Int) : Int := max (-2 ^ 63) (min n (2 ^ 63 - 1))

/-- `util::manabar`. -/
structure Manabar where
  currentMana : Int := 0
  lastUpdateTime : Nat := 0

namespace Manabar

/-- `manabar::regenerate_mana`. -/
def regenerateMana (m : Manabar) (maxMana : Int) (regenTime now : Nat) : Except String Manabar := do
  ensure (0 ≤ maxMana) "max_mana >= 0"
  ensure (m.lastUpdateTime ≤ now) "now >= last_update_time"
  if maxMana ≤ m.currentMana then .ok ⟨maxMana, now⟩
  else do
    let dt := min (now - m.lastUpdateTime) regenTime
    let regen := maxMana * dt / regenTime
    ensure (regen ≤ 2 ^ 63 - 1) "u_regen <= std::numeric_limits< int64_t >::max()"
    .ok ⟨min (saturate (m.currentMana + regen)) maxMana, now⟩

/-- `manabar::use_mana`. -/
def useMana (m : Manabar) (manaUsed : Int) : Manabar :=
  { m with currentMana := max (saturate (m.currentMana - manaUsed)) 0 }

end Manabar

/-- The fields that `account_object` has for VESTS and `account_regular_balance_object` for the
vesting shares of a token. -/
structure VestingAccount where
  vestingShares : Int := 0
  delegatedVestingShares : Int := 0
  receivedVestingShares : Int := 0
  vestingWithdrawRate : Int := 0
  nextVestingWithdrawal : Nat := maximumTime
  withdrawn : Int := 0
  toWithdraw : Int := 0
  votingManabar : Manabar := {}
  downvoteManabar : Manabar := {}

namespace VestingAccount

/-- This week's part of a power-down. -/
def weeklyWithdraw (a : VestingAccount) : Int :=
  min a.vestingWithdrawRate (a.toWithdraw - a.withdrawn)

/-- `get_effective_vesting_shares`. -/
def effectiveVestingShares (a : VestingAccount) : Int :=
  let shares := a.vestingShares + a.receivedVestingShares - a.delegatedVestingShares
  if a.nextVestingWithdrawal ≠ maximumTime then shares - a.weeklyWithdraw else shares

/-- `update_manabar` at a time and with a part of the mana for downvotes, whose product has 64
bits. -/
def updateManabar (time downvotePoolPercent manaRegenSeconds : Nat) (downvoteMana : Bool)
    (newMana : Int) (a : VestingAccount) : Except String VestingAccount := do
  let effective := a.effectiveVestingShares
  let voting ← a.votingManabar.regenerateMana effective manaRegenSeconds time
  let a := { a with votingManabar := voting.useMana (-newMana) }
  if downvoteMana then do
    let downvote ← a.downvoteManabar.regenerateMana
      (effective * downvotePoolPercent / hundredPercent) manaRegenSeconds time
    .ok { a with downvoteManabar :=
      downvote.useMana (((-newMana * downvotePoolPercent).bmod (2 ^ 64)).tdiv hundredPercent) }
  else .ok a

/-- Nothing but the manabars differs. -/
def SameShares (a a' : VestingAccount) : Prop :=
  ∃ voting downvote, a' = { a with votingManabar := voting, downvoteManabar := downvote }

theorem SameShares.refl (a : VestingAccount) : a.SameShares a := ⟨_, _, rfl⟩

theorem updateManabar_sameShares {time percent seconds : Nat} {downvoteMana : Bool} {newMana : Int}
    {a a' : VestingAccount}
    (h : a.updateManabar time percent seconds downvoteMana newMana = .ok a') : a.SameShares a' := by
  simp only [updateManabar, returns] at h
  obtain ⟨voting, -, h⟩ := h
  split at h
  · rw [Checked.bind_eq_ok] at h
    obtain ⟨downvote, -, h⟩ := h
    rw [Except.ok.injEq] at h
    exact ⟨_, _, h.symm⟩
  · rw [Except.ok.injEq] at h
    exact ⟨_, _, h.symm⟩

end VestingAccount

end Freezone.Chain.Delegation
