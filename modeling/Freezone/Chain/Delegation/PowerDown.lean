import Freezone.Chain.Delegation.Backing
import Freezone.Chain.Delegation.Sweep

/-!
# The course of a power-down

A power-down that is requested at a rate rounded up pays the rate each time and the
rest at last: after any number of instalments it has paid that many times the rate,
or all of the shares that were requested.
-/

namespace Freezone.Chain.Delegation

open Protocol List Table
open Funds (AccountName nullAccount maximumTime vestingWithdrawIntervalSeconds)

/-- The request to power down the shares of a balance. -/
def VestingStep.Requests (k : HolderKey) : VestingStep → Prop
  | .withdrawVesting k' _ => k' = k
  | _ => False

namespace Registry

/-- The instalments of a balance among payments, but for those of nothing. -/
def instalmentsOf (k : HolderKey) (l : List (HolderKey × Int)) : List Int :=
  ((l.filter fun p => p.1 = k).map Prod.snd).filter fun amount => amount ≠ 0

/-- What a step pays of the power-down of a balance; a step that throws pays nothing. -/
def paidBy (k : HolderKey) (S : Registry) : VestingStep → List Int
  | .processVestingWithdrawals =>
    match S.processVestingWithdrawals with
    | .ok _ => instalmentsOf k S.payments
    | .error _ => []
  | _ => []

/-- What a run pays of the power-down of a balance. -/
def paidTo (k : HolderKey) : Registry → List VestingStep → List Int
  | _, [] => []
  | S, step :: steps => S.paidBy k step ++ paidTo k (S.afterStep step) steps

/-- A power-down of shares at a rate, and what it has paid. -/
structure Progress (shares rate : Int) (a : VestingAccount) (paid : List Int) : Prop where
  rate_pos : 0 < rate
  enough : shares ≤ 13 * rate
  toWithdraw : a.toWithdraw = shares
  withdrawn : a.withdrawn = paid.sum
  pace : a.vestingWithdrawRate = if paid.sum < shares then rate else 0
  sum : paid.sum = min (paid.length * rate) shares
  pos : ∀ amount ∈ paid, 0 < amount
  count : (paid.length : Int) ≤ 13
  covers : shares - paid.sum ≤ a.vestingShares

variable {shares rate : Int} {a a' : VestingAccount} {paid : List Int}

/-- The next instalment is the rate or the rest, and nothing at the end. -/
theorem Progress.instalment_eq (h : Progress shares rate a paid) :
    instalment a = if paid.sum < shares then min rate (shares - paid.sum) else 0 := by
  have hcovers := h.covers
  have hall : paid.sum ≤ shares := h.sum.trans_le (min_le_right _ _)
  unfold instalment
  rw [h.toWithdraw, h.withdrawn, h.pace]
  by_cases hmore : paid.sum < shares
  · rw [if_pos hmore, if_pos hmore]
    have hsum : paid.sum = paid.length * rate := by
      have := h.sum
      omega
    split_ifs with hlast
    · have hrest := rest_emod (hsum ▸ Dvd.intro_left _ rfl) hall hlast
      omega
    · omega
  · rw [if_neg hmore, if_neg hmore, if_neg (by omega)]
    omega

/-- A further instalment. -/
theorem Progress.pay (h : Progress shares rate a paid) {gained : Int}
    (hgained : a.vestingShares ≤ gained) :
    Progress shares rate (payInstalment (instalment a) { a with vestingShares := gained })
      (paid ++ [instalment a].filter fun amount => amount ≠ 0) := by
  have hamount := h.instalment_eq
  have hcovers := h.covers
  have hsum := h.sum
  have hrate := h.rate_pos
  have hcount := h.enough
  by_cases hmore : paid.sum < shares
  · rw [if_pos hmore] at hamount
    have hne : instalment a ≠ 0 := by omega
    rw [filter_cons_of_pos (by simpa using hne), filter_nil]
    have hpaid : (paid ++ [instalment a]).sum = paid.sum + instalment a := by simp
    have hlength : ((paid ++ [instalment a]).length : Int) = paid.length + 1 := by simp
    have hless : (paid.length : Int) < 13 := by
      by_contra hge
      have : 13 * rate ≤ paid.length * rate := Int.mul_le_mul_of_nonneg_right (by omega) hrate.le
      omega
    have hnext : (paid.length + 1 : Int) * rate = paid.length * rate + rate := by ring
    have hfields : (payInstalment (instalment a) { a with vestingShares := gained }).toWithdraw =
          a.toWithdraw ∧
        (payInstalment (instalment a) { a with vestingShares := gained }).withdrawn =
          a.withdrawn + instalment a ∧
        (payInstalment (instalment a) { a with vestingShares := gained }).vestingShares =
          gained - instalment a := by
      simp only [payInstalment]
      split <;> exact ⟨rfl, rfl, rfl⟩
    refine ⟨hrate, hcount, hfields.1.trans h.toWithdraw, ?_, ?_, ?_, ?_, ?_, ?_⟩
    · rw [hfields.2.1, hpaid, h.withdrawn]
    · simp only [payInstalment, h.toWithdraw, h.withdrawn]
      split
      · rw [if_neg (by omega)]
      · rw [if_pos (by omega), h.pace, if_pos hmore]
    · rw [hpaid, hlength, hnext]
      omega
    · intro amount hmem
      rcases mem_append.mp hmem with hmem | hmem
      · exact h.pos amount hmem
      · rw [mem_singleton.mp hmem]
        omega
    · rw [hlength]
      omega
    · rw [hfields.2.2, hpaid]
      omega
  · rw [if_neg hmore] at hamount
    rw [hamount, filter_cons_of_neg (by simp), filter_nil, append_nil]
    have hdone : payInstalment 0 { a with vestingShares := gained } =
        { a with
          vestingShares := gained
          vestingWithdrawRate := 0
          nextVestingWithdrawal := maximumTime } := by
      simp only [payInstalment, sub_zero, add_zero]
      rw [if_pos (.inl (by rw [h.toWithdraw, h.withdrawn]; omega))]
    rw [hdone]
    exact ⟨hrate, hcount, h.toWithdraw, h.withdrawn, by rw [if_neg hmore], hsum, h.pos, h.count,
      hcovers.trans hgained⟩

/-- What goes on with a power-down. -/
structure Continues (a a' : VestingAccount) : Prop where
  toWithdraw : a'.toWithdraw = a.toWithdraw
  withdrawn : a'.withdrawn = a.withdrawn
  pace : a'.vestingWithdrawRate = a.vestingWithdrawRate

/-- A power-down goes on as long as the account keeps what is left of it. -/
theorem Progress.continues (h : Progress shares rate a paid) (hc : Continues a a')
    (hkeeps : Keeps a') : Progress shares rate a' paid := by
  have htoWithdraw := hc.toWithdraw.trans h.toWithdraw
  have hwithdrawn := hc.withdrawn.trans h.withdrawn
  refine ⟨h.rate_pos, h.enough, htoWithdraw, hwithdrawn, hc.pace.trans h.pace, h.sum, h.pos,
    h.count, ?_⟩
  rwa [Keeps, htoWithdraw, hwithdrawn] at hkeeps

theorem Continues.refl (a : VestingAccount) : Continues a a := ⟨rfl, rfl, rfl⟩

variable {n : Int}

/-- Mana, delegated and received shares are of no concern to a power-down. -/
theorem continues_of_sameShares {m : Int}
    (h : ({ a with delegatedVestingShares := n, receivedVestingShares := m } :
      VestingAccount).SameShares a') : Continues a a' := by
  obtain ⟨_, _, rfl⟩ := h
  exact ⟨rfl, rfl, rfl⟩

section Undisturbed

/-- The power-down of a balance goes on. -/
structure Undisturbed (k : HolderKey) (S S' : Registry) : Prop where
  hardfork : S.hardfork ≤ S'.hardfork
  account : ∀ a, S.holders.find? k = some a →
    ∃ a', S'.holders.find? k = some a' ∧ Continues a a'

variable {k k' : HolderKey} {S S' S'' : Registry}

theorem undisturbed_of_eq (h : S'.holders = S.holders) (hle : S.hardfork ≤ S'.hardfork) :
    Undisturbed k S S' :=
  ⟨hle, fun a ha => ⟨a, h ▸ ha, .refl a⟩⟩

theorem Undisturbed.trans (h : Undisturbed k S S') (h' : Undisturbed k S' S'') :
    Undisturbed k S S'' := by
  refine ⟨h.hardfork.trans h'.hardfork, fun a ha => ?_⟩
  obtain ⟨b, hb, hab⟩ := h.account a ha
  obtain ⟨c, hc, hbc⟩ := h'.account b hb
  exact ⟨c, hc, hbc.toWithdraw.trans hab.toWithdraw, hbc.withdrawn.trans hab.withdrawn,
    hbc.pace.trans hab.pace⟩

/-- Another account, or one that continues its power down, may be replaced. -/
theorem undisturbed_setHolder (ha : S.holders.find? k' = some a) (hc : k = k' → Continues a a') :
    Undisturbed k S (S.setHolder k' a') := by
  refine ⟨le_rfl, fun b hb => ?_⟩
  by_cases hk : k = k'
  · subst hk
    rw [ha, Option.some.injEq] at hb
    exact ⟨a', find?_set_self ha, hb ▸ hc rfl⟩
  · exact ⟨b, (find?_set_of_ne hk).trans hb, .refl b⟩

theorem undisturbed_createHolder (h : S.createHolder k' a = .ok S') : Undisturbed k S S' := by
  obtain ⟨holders, hi, rfl⟩ := createHolder_eq h
  refine ⟨le_rfl, fun b hb => ?_⟩
  have hne : k ≠ k' := by
    rintro rfl
    rw [(insert_eq_some.mp hi).1] at hb
    cases hb
  exact ⟨b, by rw [find?_insert hi, if_neg hne]; exact hb, .refl b⟩

theorem undisturbed_lendShares {d : DelegationKey} {delta : Int} {r : Nat}
    (h : S.lendShares d delta r = .ok S') : Undisturbed k S S' := by
  obtain ⟨a, a', b, b', ha, hs, hb, hs', rfl⟩ := lendShares_eq h
  exact (undisturbed_setHolder ha fun _ => continues_of_sameShares hs).trans
    (undisturbed_setHolder hb fun _ => continues_of_sameShares hs')

theorem undisturbed_genericDelegateVestingShares {d : DelegationKey} {r : Nat}
    (h : S.genericDelegateVestingShares d n r = .ok S') : Undisturbed k S S' := by
  obtain ⟨a, a', ha, hs, h⟩ := genericDelegateVestingShares_cases h
  have hrefresh : Undisturbed k S (S.setHolder d.source a') :=
    undisturbed_setHolder ha fun _ => continues_of_sameShares hs
  rcases h with ⟨delegations, -, -, hlend⟩ | ⟨_, S1, -, -, -, hlend, rfl⟩ |
    ⟨_, S1, time, -, -, hreclaim, rfl⟩
  · refine hrefresh.trans (.trans ?_ (undisturbed_lendShares hlend))
    exact undisturbed_of_eq rfl le_rfl
  · exact hrefresh.trans ((undisturbed_lendShares hlend).trans (undisturbed_of_eq rfl le_rfl))
  · obtain ⟨b, b', hb, hs', rfl⟩ := reclaimShares_eq hreclaim
    have hset := undisturbed_setHolder (k := k) hb fun _ => continues_of_sameShares hs'
    refine hrefresh.trans (.trans ?_ (hset.trans (undisturbed_of_eq rfl le_rfl)))
    exact undisturbed_of_eq rfl le_rfl

theorem undisturbed_accountCreateWithDelegation {creator name : AccountName} {fee : Int}
    (h : S.accountCreateWithDelegation creator name fee n = .ok S') : Undisturbed k S S' := by
  obtain ⟨-, -, c, S1, hc, -, hcreate, h⟩ := accountCreateWithDelegation_eq h
  have hS1 : Undisturbed k S S1 := by
    refine .trans ?_ (undisturbed_createHolder hcreate)
    exact undisturbed_setHolder hc fun _ => ⟨rfl, rfl, rfl⟩
  rcases h with ⟨delegations, time, -, rfl⟩ | ⟨-, rfl⟩
  · exact hS1.trans (undisturbed_of_eq rfl le_rfl)
  · exact hS1

theorem undisturbed_clearExpiredDelegations (h : S.clearExpiredDelegations = .ok S') :
    Undisturbed k S S' := by
  refine clearExpiredDelegations_invariant (P := Undisturbed k S) ?_
    (undisturbed_of_eq rfl le_rfl) h
  rintro T T' e hT - hclear
  obtain ⟨r, T1, hreturn, rfl⟩ := clearDelegation_eq hclear
  obtain ⟨a, a', ha, hs, rfl⟩ := returnShares_eq hreturn
  have hset := undisturbed_setHolder (k := k) ha fun _ => continues_of_sameShares hs
  exact hT.trans (hset.trans (undisturbed_of_eq rfl le_rfl))

theorem undisturbed_adjustVesting (h : S.adjustVesting k' n = .ok S') : Undisturbed k S S' := by
  obtain ⟨-, rfl | hcreate⟩ | ⟨a, ha, rfl⟩ := adjustVesting_cases h
  · exact undisturbed_of_eq rfl le_rfl
  · exact undisturbed_createHolder hcreate
  · exact undisturbed_setHolder ha fun _ => ⟨rfl, rfl, rfl⟩

/-- Every step but the processing of power-downs and a new request lets the power-down of a balance
go on. -/
theorem undisturbed_apply {step : VestingStep} (hk : k.1 ≠ nullAccount) (h1 : S.HasHardfork 1)
    (hreq : ¬ step.Requests k) (hproc : step ≠ .processVestingWithdrawals)
    (h : S.apply step = .ok S') : Undisturbed k S S' := by
  cases step with
  | accountCreate => exact undisturbed_createHolder h
  | accountCreateWithDelegation =>
    exact undisturbed_accountCreateWithDelegation h
  | delegateVestingShares =>
    obtain ⟨-, -, -, S1, r, hcreate, h⟩ := delegateVestingShares_eq h
    refine .trans ?_ (undisturbed_genericDelegateVestingShares h)
    rcases hcreate with rfl | hcreate
    · exact undisturbed_of_eq rfl le_rfl
    · exact undisturbed_createHolder hcreate
  | withdrawVesting k' n =>
    have hne : ¬ k = k' := fun heq => hreq heq.symm
    obtain ⟨-, ⟨-, -, rfl⟩ | ⟨a, ha, -, h⟩⟩ := withdrawVesting_cases h
    · exact undisturbed_of_eq rfl le_rfl
    · rcases h with ⟨-, rfl⟩ | ⟨-, _, _, -, -, rfl⟩
      · exact undisturbed_setHolder ha fun heq => absurd heq hne
      · exact undisturbed_setHolder ha fun heq => absurd heq hne
  | createVesting =>
    obtain rfl | ⟨_, -, h⟩ := createVesting_cases h
    · exact undisturbed_of_eq rfl le_rfl
    · exact undisturbed_adjustVesting h
  | claimRewardVesting => exact undisturbed_adjustVesting (claimRewardVesting_eq h).2
  | setManabars =>
    simp only [apply, setManabars, getHolder, returns] at h
    obtain ⟨a, ha, rfl⟩ := h
    exact undisturbed_setHolder ha fun _ => ⟨rfl, rfl, rfl⟩
  | clearExpiredDelegations => exact undisturbed_clearExpiredDelegations h
  | processVestingWithdrawals => exact absurd rfl hproc
  | clearNullAccountBalance =>
    simp only [apply, clearNullAccountBalance, getHolder, returns] at h
    obtain ⟨-, -, a, ha, rfl⟩ := h
    refine undisturbed_setHolder ha fun heq => absurd ?_ hk
    rw [heq]
  | applyHardfork =>
    obtain ⟨hzero, -⟩ | ⟨_, _, _, _, -, -, rfl⟩ := applyHardfork_cases h
    · have hone : 1 ≤ S.hardfork := h1
      omega
    · exact undisturbed_of_eq rfl (Nat.le_succ _)
  | advance =>
    simp only [apply, advance, returns] at h
    obtain ⟨-, -, -, -, rfl⟩ := h
    exact undisturbed_of_eq rfl le_rfl
  | elsewhere =>
    rw [apply] at h
    cases h
    exact undisturbed_of_eq rfl le_rfl

end Undisturbed

section Run

variable {k : HolderKey} {S S' T : Registry}

theorem instalmentsOf_concat_self (k : HolderKey) (l : List (HolderKey × Int)) (amount : Int) :
    instalmentsOf k (l ++ [(k, amount)]) =
      instalmentsOf k l ++ [amount].filter fun x => x ≠ 0 := by
  simp [instalmentsOf]

theorem instalmentsOf_concat_of_ne {k' : HolderKey} (h : k' ≠ k) (l : List (HolderKey × Int))
    (amount : Int) : instalmentsOf k (l ++ [(k', amount)]) = instalmentsOf k l := by
  simp [instalmentsOf, h]

/-- The power-down of a balance in the course of the loops, which began with a hardfork. -/
structure Paying (k : HolderKey) (shares rate : Int) (paid : List Int) (hardfork : Nat)
    (T : Registry) (l : List (HolderKey × Int)) : Prop where
  fork : T.hardfork = hardfork
  progress : ∃ a, T.holders.find? k = some a ∧ Progress shares rate a (paid ++ instalmentsOf k l)
  moves : paid.sum < shares → k ∈ l.map Prod.fst → instalmentsOf k l ≠ []

/-- An instalment of the balance itself. -/
theorem Paying.paySelf {n : Nat} {l : List (HolderKey × Int)} (h : Paying k shares rate paid n S l)
    (ha : S.holders.find? k = some a) {gained : Int} (hgained : a.vestingShares ≤ gained)
    (hfork : T.hardfork = S.hardfork) (hfind : T.holders.find? k =
      some (payInstalment (instalment a) { a with vestingShares := gained })) :
    Paying k shares rate paid n T (l ++ [(k, instalment a)]) := by
  obtain ⟨b, hb, hprogress⟩ := h.progress
  cases ha.symm.trans hb
  have hnext := hprogress.pay hgained
  have hrate := hprogress.rate_pos
  rw [append_assoc, ← instalmentsOf_concat_self] at hnext
  refine ⟨hfork.trans h.fork, ⟨_, hfind, hnext⟩, fun hmore _ hnil => ?_⟩
  -- an instalment is of nothing only when all has been paid
  rw [instalmentsOf_concat_self, append_eq_nil_iff] at hnil
  have hamount := hprogress.instalment_eq
  rw [hnil.1, append_nil, if_pos hmore] at hamount
  have hzero : instalment a = 0 := by
    by_contra hne
    simp [hne] at hnil
  omega

/-- An instalment of another balance. -/
theorem Paying.payOther {n : Nat} {l : List (HolderKey × Int)} {k' : HolderKey} {amount : Int}
    (h : Paying k shares rate paid n S l) (hk : k' ≠ k)
    (hfork : T.hardfork = S.hardfork) (hothers : ∀ b, S.holders.find? k = some b → ∃ gained,
    b.vestingShares ≤ gained ∧
      T.holders.find? k = some { b with vestingShares := gained }) :
    Paying k shares rate paid n T (l ++ [(k', amount)]) := by
  obtain ⟨b, hb, hprogress⟩ := h.progress
  obtain ⟨gained, hgained, hfind⟩ := hothers b hb
  refine ⟨hfork.trans h.fork, ⟨_, hfind, ?_⟩, fun hmore hmem => ?_⟩
  · rw [instalmentsOf_concat_of_ne hk]
    refine hprogress.continues ⟨rfl, rfl, rfl⟩ (le_trans ?_ hgained)
    rw [hprogress.toWithdraw, hprogress.withdrawn]
    exact hprogress.covers
  · rw [instalmentsOf_concat_of_ne hk]
    refine h.moves hmore ?_
    simpa [hk.symm] using hmem

/-- A sweep pays a power down in progress. -/
theorem Paying.payments (hS : ∃ a, S.holders.find? k = some a ∧ Progress shares rate a paid)
    (h : S.processVestingWithdrawals = .ok S') :
    Paying k shares rate paid S.hardfork S' S.payments := by
  refine processVestingWithdrawals_payments (P := Paying k shares rate paid S.hardfork) ?_ ?_ ?_ h
  · intro T l k' a hT ha hdue
    by_cases hk : k' = k
    · subst hk
      exact hT.paySelf ha le_rfl rfl (find?_set_self ha)
    · exact hT.payOther hk rfl fun b hb =>
        ⟨b.vestingShares, le_rfl, (find?_set_of_ne (Ne.symm hk)).trans hb⟩
  · intro T T' l k' a hT ha hdue hpay
    obtain ⟨-, hfork, -, ⟨gained, hgained, hself⟩, hothers⟩ := payVestsInstalment_frame hpay ha
    by_cases hk : k' = k
    · subst hk
      exact hT.paySelf ha hgained hfork hself
    · exact hT.payOther hk hfork fun b hb => hothers k b (Ne.symm hk) hb
  · refine ⟨rfl, ?_, nofun⟩
    rw [instalmentsOf, filter_nil, map_nil, filter_nil, append_nil]
    exact hS

/-- One step: what it pays is added to what was paid. -/
theorem progress_afterStep {step : VestingStep} (hk : k.1 ≠ nullAccount) (h1 : S.HasHardfork 1)
    (hreq : ¬ step.Requests k) (hkeeps : ∀ a ∈ (S.afterStep step).holders.find? k, Keeps a)
    (hS : ∃ a, S.holders.find? k = some a ∧ Progress shares rate a paid) :
    (S.afterStep step).HasHardfork 1 ∧ ∃ a, (S.afterStep step).holders.find? k = some a ∧
      Progress shares rate a (paid ++ S.paidBy k step) := by
  by_cases hproc : step = .processVestingWithdrawals
  · subst hproc
    rw [afterStep, apply, paidBy]
    cases h : S.processVestingWithdrawals with
    | ok S' =>
      have hpaying := Paying.payments hS h
      exact ⟨h1.trans hpaying.fork.ge, hpaying.progress⟩
    | error e =>
      simp only [append_nil]
      exact ⟨h1, hS⟩
  · have hnothing : S.paidBy k step = [] := by
      cases step <;> first | rfl | exact absurd rfl hproc
    rw [hnothing, append_nil]
    rw [afterStep] at hkeeps ⊢
    obtain ⟨a, ha, hprogress⟩ := hS
    split at hkeeps
    · rename_i S' h
      have hquiet := undisturbed_apply hk h1 hreq hproc h
      obtain ⟨a', ha', hc⟩ := hquiet.account a ha
      exact ⟨h1.trans hquiet.hardfork, a', ha', hprogress.continues hc (hkeeps a' ha')⟩
    · exact ⟨h1, a, ha, hprogress⟩

/-- In every state of a run the account keeps the shares that are left of its power-down. -/
def KeepsShares (k : HolderKey) : Registry → List VestingStep → Prop
  | _, [] => True
  | S, step :: steps => (∀ a ∈ (S.afterStep step).holders.find? k, Keeps a) ∧
    KeepsShares k (S.afterStep step) steps

instance decidableKeepsShares (k : HolderKey) :
    (S : Registry) → (steps : List VestingStep) → Decidable (S.KeepsShares k steps)
  | _, [] => .isTrue trivial
  | S, step :: steps =>
    have := decidableKeepsShares k (S.afterStep step) steps
    inferInstanceAs (Decidable (_ ∧ _))

/-- A run keeps the shares up to each of its states. -/
theorem KeepsShares.append_left {steps more : List VestingStep}
    (h : S.KeepsShares k (steps ++ more)) : S.KeepsShares k steps := by
  induction steps generalizing S with
  | nil => exact trivial
  | cons step steps ih => exact ⟨h.1, ih h.2⟩

/-- A run without a new request. -/
theorem progress_run {steps : List VestingStep} (hk : k.1 ≠ nullAccount) (h1 : S.HasHardfork 1)
    (hreq : ∀ step ∈ steps, ¬ step.Requests k) (hkeeps : S.KeepsShares k steps)
    (hS : ∃ a, S.holders.find? k = some a ∧ Progress shares rate a paid) :
    ∃ a, (S.run steps).holders.find? k = some a ∧
      Progress shares rate a (paid ++ S.paidTo k steps) := by
  induction steps generalizing S paid with
  | nil =>
    rw [paidTo, append_nil]
    exact hS
  | cons step steps ih =>
    rw [paidTo, ← append_assoc]
    obtain ⟨h1', hS'⟩ := progress_afterStep hk h1 (hreq step mem_cons_self) hkeeps.1 hS
    exact ih h1' (fun s hs => hreq s (mem_cons_of_mem _ hs)) hkeeps.2 hS'

/-- What a run pays is what its parts pay. -/
theorem paidTo_append (k : HolderKey) (S : Registry) (steps more : List VestingStep) :
    S.paidTo k (steps ++ more) = S.paidTo k steps ++ (S.run steps).paidTo k more := by
  induction steps generalizing S with
  | nil => rfl
  | cons step steps ih =>
    rw [cons_append, paidTo, paidTo, ih, append_assoc]
    rfl

/-- From hardfork 21 on thirteen instalments are enough. -/
theorem le_withdrawRate : n ≤ 13 * withdrawRate n 13 true := by
  simp only [withdrawRate, true_and]
  split <;> split <;> omega

/-- A request from hardfork 21 on begins a power-down that has paid nothing. -/
theorem progress_withdrawVesting (hb : S.Books) (h21 : S.HasHardfork 21)
    (h : S.withdrawVesting k n = .ok S') : k.1 ≠ nullAccount ∧ S'.HasHardfork 1 ∧
      ∃ rate a, S'.holders.find? k = some a ∧ Progress n rate a [] := by
  obtain ⟨hk, ⟨-, h20, -⟩ | ⟨a, ha, hle, h⟩⟩ := withdrawVesting_cases h
  · exact absurd (le_trans (by decide) h21) h20
  have h1 : S.HasHardfork 1 := le_trans (by decide) h21
  have hdelegated := (hb.nonneg_shares ha).1
  rcases h with ⟨rfl, rfl⟩ | ⟨hpos, intervals, roundUp, -, hrate, rfl⟩
  · refine ⟨hk, h1, 1, _, find?_set_self ha, by decide, by decide, rfl, rfl, rfl, rfl,
      ?_, ?_, ?_⟩
    · exact nofun
    · decide
    · change 0 ≤ a.vestingShares
      omega
  · obtain ⟨rfl, rfl⟩ := hrate h21
    have hrate := withdrawRate_pos hpos (by decide : (0 : Int) < 13) true
    refine ⟨hk, h1, _, _, find?_set_self ha, hrate, le_withdrawRate, rfl, rfl,
      ?_, ?_, ?_, ?_, ?_⟩
    · rw [sum_nil, if_pos hpos]
      rfl
    · rw [sum_nil, length_nil, Nat.cast_zero, zero_mul, min_eq_left hpos.le]
    · exact nofun
    · decide
    · change n - 0 ≤ a.vestingShares
      omega

/-- A power-down of any number of shares that is requested from hardfork 21 on, up to a new
request, in a run in which the account keeps the shares that are left of it: at most thirteen
instalments are paid, none beyond the shares; when the power-down is over, or has paid thirteen,
they are all of the shares, and nothing more is paid. An account of VESTS that is due, or the first
balance of a token, is paid when the power-downs are processed. -/
theorem run_powerDown (before steps more : List VestingStep) {k : HolderKey} {shares : Int}
    {S : Registry} (h21 : (genesis.run before).HasHardfork 21)
    (hrequest : (genesis.run before).withdrawVesting k shares = .ok S)
    (hsteps : ∀ step ∈ steps, ¬ step.Requests k) (hmore : ∀ step ∈ more, ¬ step.Requests k)
    (hkeeps : S.KeepsShares k (steps ++ more)) :
    ∃ a, (S.run steps).holders.find? k = some a ∧
      a.toWithdraw = shares ∧ a.withdrawn = (S.paidTo k steps).sum ∧
      a.withdrawn ≤ a.toWithdraw ∧ (S.paidTo k steps).length ≤ 13 ∧
      (∀ amount ∈ S.paidTo k steps, 0 < amount) ∧
      (a.vestingWithdrawRate = 0 ∨ (S.paidTo k steps).length = 13 →
        (S.paidTo k steps).sum = shares) ∧
      ((S.paidTo k steps).sum = shares → (S.run steps).paidTo k more = []) ∧
      ((S.paidTo k steps).sum < shares → (S.run steps).Due k →
        (S.run steps).time + vestingWithdrawIntervalSeconds < maximumTime →
        (k.2 = .vests ∨
          ((S.run steps).byNextVestingWithdrawal true).head?.map Prod.fst = some k) →
        ∀ S', (S.run steps).processVestingWithdrawals = .ok S' →
          (S.run steps).paidBy k .processVestingWithdrawals ≠ []) := by
  obtain ⟨hk, h1, rate, hbegin⟩ := progress_withdrawVesting (run_books before) h21 hrequest
  obtain ⟨a, ha, hprogress⟩ := progress_run hk h1 hsteps hkeeps.append_left hbegin
  rw [nil_append] at hprogress
  refine ⟨a, ha, hprogress.toWithdraw, hprogress.withdrawn, ?_, ?_, hprogress.pos,
    fun hover => ?_, ?_, ?_⟩
  · rw [hprogress.toWithdraw, hprogress.withdrawn, hprogress.sum]
    exact min_le_right _ _
  · exact_mod_cast hprogress.count
  · have hsum := hprogress.sum
    have hrate := hprogress.rate_pos
    have hcount := hprogress.enough
    rcases hover with hover | hover
    · by_contra hne
      rw [hprogress.pace, if_pos (by omega)] at hover
      omega
    · rw [hsum, hover]
      omega
  · intro hall
    have hnomore : ∀ step ∈ steps ++ more, ¬ step.Requests k := by
      intro step hstep
      rcases mem_append.mp hstep with hstep | hstep
      · exact hsteps step hstep
      · exact hmore step hstep
    obtain ⟨b, -, hlater⟩ := progress_run hk h1 hnomore hkeeps hbegin
    rw [nil_append, paidTo_append] at hlater
    cases hrest : (S.run steps).paidTo k more with
    | nil => rfl
    | cons amount l =>
      rw [hrest] at hlater
      have hpos := hlater.pos amount (by simp)
      have hnonneg : 0 ≤ l.sum :=
        sum_nonneg fun x hx => (hlater.pos x (by simp [hx])).le
      have hsum := hlater.sum.trans_le (min_le_right _ _)
      rw [sum_append, sum_cons, hall] at hsum
      omega
  · intro hless hdue hclock hfirst S' hprocess
    have hpaying := Paying.payments ⟨a, ha, hprogress⟩ hprocess
    have hmem : k ∈ (S.run steps).payments.map Prod.fst := by
      rcases hfirst with hvests | hfirst
      · exact mem_payments_of_vests hclock hprocess hdue hvests
      · rw [payments, map_append, mem_append]
        exact .inl (mem_tokenPayments_of_first hdue hfirst _)
    rw [paidBy, hprocess]
    exact hpaying.moves hless hmem

/-- An account with a thousand shares asks for a hundred of them in hardfork 21. -/
def powerDownSetup : List VestingStep :=
  List.replicate 21 .applyHardfork ++ [.accountCreate 10, .createVesting (10, .vests) 1000 1 1]

/-- Fourteen weekly blocks after the request. -/
def fourteenWeeks : List VestingStep := (List.range 14).flatMap fun i => weekly (i + 1)

/-- Twelve instalments of eight shares and a last one of four. -/
theorem run_powerDown_hundred : ∃ S, (genesis.run powerDownSetup).withdrawVesting (10, .vests) 100 =
      .ok S ∧
    S.paidTo (10, .vests) fourteenWeeks = List.replicate 12 8 ++ [4] ∧
    (S.paidTo (10, .vests) fourteenWeeks).sum = 100 ∧
    (S.run fourteenWeeks).paidTo (10, .vests) fourteenWeeks = [] := by
  have hnone : ∀ step ∈ fourteenWeeks, ¬ step.Requests (10, .vests) := by
    intro step hstep
    obtain ⟨i, -, hmem⟩ := mem_flatMap.mp hstep
    simp only [weekly, mem_cons, not_mem_nil, or_false] at hmem
    rcases hmem with rfl | rfl <;> exact id
  cases h : (genesis.run powerDownSetup).withdrawVesting (10, .vests) 100 with
  | error e =>
    have hreturns : ((genesis.run powerDownSetup).withdrawVesting (10, .vests)
      100).toOption.isSome := by decide +kernel
    rw [h] at hreturns
    cases hreturns
  | ok S =>
    have hpaid : ((genesis.run powerDownSetup).withdrawVesting (10, .vests) 100).toOption.map
        (fun S => S.paidTo (10, .vests) fourteenWeeks) = some (replicate 12 8 ++ [4]) := by
      decide +kernel
    rw [h, Except.toOption, Option.map_some, Option.some.injEq] at hpaid
    have hkeeps : ∀ S ∈ ((genesis.run powerDownSetup).withdrawVesting (10, .vests) 100).toOption,
        S.KeepsShares (10, .vests) (fourteenWeeks ++ fourteenWeeks) := by decide +kernel
    obtain ⟨a, -, -, -, -, -, -, hall, hrest, -⟩ :=
      run_powerDown powerDownSetup fourteenWeeks fourteenWeeks (by decide +kernel) h hnone hnone
        (hkeeps S (by rw [h]; rfl))
    have hsum := hall (.inr (by rw [hpaid]; rfl))
    exact ⟨S, rfl, hpaid, hsum, hrest hsum⟩

end Run

end Registry

end Freezone.Chain.Delegation
