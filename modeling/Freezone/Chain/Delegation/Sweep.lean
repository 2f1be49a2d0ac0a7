import Freezone.Core.SortedRange
import Freezone.Chain.Delegation.Books

/-!
# Which power-downs a block pays

Both loops of `process_vesting_withdrawals` walk an index by the time of the next
instalment, which every instalment changes. The loop over the accounts steps to the
following account first and so meets every account that is due. The loop over the
balances of tokens steps on from the new place of the balance it has just paid, past
all others that are due.
-/

namespace Freezone.Chain.Delegation.Registry

open Protocol List Table
open Funds (AccountName maximumTime vestingWithdrawIntervalSeconds)

variable {S S' : Registry}

/-- The power-down of a balance is due. -/
def Due (S : Registry) (k : HolderKey) : Prop :=
  ∃ a, S.holders.find? k = some a ∧ a.nextVestingWithdrawal ≤ S.time

/-- Every power-down that was due was paid one instalment, and none is due any more. -/
structure SweptOnce (S S' : Registry) : Prop where
  noneDue : ∀ k, ¬ S'.Due k
  once : (S.payments.map Prod.fst).Nodup
  paid : ∀ k, k ∈ S.payments.map Prod.fst ↔ S.Due k

/-- The account has the shares that are left of its power-down. -/
abbrev Keeps (a : VestingAccount) : Prop := a.toWithdraw - a.withdrawn ≤ a.vestingShares

/-- Every power-down that is due has the shares that are left of it. -/
def DueKept (S : Registry) : Prop :=
  S.holders.All fun _ a => a.nextVestingWithdrawal ≤ S.time → Keeps a

/-- Every power-down that is due gets, by one instalment, a next time after the block: the
instalment is the last one, or it is overdue by less than a week. -/
def PutOff (S : Registry) : Prop :=
  S.holders.All fun _ a => a.nextVestingWithdrawal ≤ S.time →
    S.time < (payInstalment (instalment a) a).nextVestingWithdrawal

section Order

/-- The key of an entry in `by_next_vesting_withdrawal`. -/
def withdrawalRank (e : HolderKey × VestingAccount) : Nat ×ₗ (AccountName ×ₗ AssetSymbol) :=
  toLex (e.2.nextVestingWithdrawal, toLex (e.1.1, e.1.2))

/-- The order of the index `by_next_vesting_withdrawal`. -/
theorem withdrawalBefore_iff (e f : HolderKey × VestingAccount) :
    withdrawalBefore e f ↔ withdrawalRank e ≤ withdrawalRank f := by
  rw [withdrawalRank, withdrawalRank, Prod.Lex.toLex_le_toLex, Prod.Lex.toLex_le_toLex]
  rfl

variable {e : HolderKey × VestingAccount} {isToken : Bool} {d : HolderKey}

theorem next_le_of_withdrawalBefore {f : HolderKey × VestingAccount} (h : withdrawalBefore e f) :
    e.2.nextVestingWithdrawal ≤ f.2.nextVestingWithdrawal := by
  rcases h with h | h
  · exact h.le
  · exact h.1.le

theorem mem_byNextVestingWithdrawal : e ∈ S.byNextVestingWithdrawal isToken ↔
      S.holders.find? e.1 = some e.2 ∧ isToken = decide (e.1.2 ≠ .vests) := by
  rw [byNextVestingWithdrawal, mem_insertionSort, mem_filter, find?_eq_some,
    decide_eq_true_eq]

theorem byNextVestingWithdrawal_sorted (isToken : Bool) (S : Registry) :
    (S.byNextVestingWithdrawal isToken).Pairwise withdrawalBefore :=
  (SortedRange.pairwise_insertionSort withdrawalRank withdrawalBefore_iff _).imp
    (withdrawalBefore_iff _ _).mpr

/-- The first balance of an index. -/
theorem first_spec (isToken : Bool) {a : VestingAccount}
    (hd : S.holders.find? d = some a) (ht : isToken = decide (d.2 ≠ .vests)) :
    ∃ k b, (S.byNextVestingWithdrawal isToken).head?.map Prod.fst = some k ∧
      S.holders.find? k = some b ∧ isToken = decide (k.2 ≠ .vests) ∧
      withdrawalBefore (k, b) (d, a) := by
  have hmem : (d, a) ∈ S.byNextVestingWithdrawal isToken :=
    mem_byNextVestingWithdrawal.mpr ⟨hd, ht⟩
  have hsorted := byNextVestingWithdrawal_sorted isToken S
  cases hindex : S.byNextVestingWithdrawal isToken with
  | nil =>
    rw [hindex] at hmem
    cases hmem
  | cons e l =>
    have he : e ∈ S.byNextVestingWithdrawal isToken := hindex ▸ mem_cons_self
    obtain ⟨hfind, htoken⟩ := mem_byNextVestingWithdrawal.mp he
    rw [hindex] at hmem hsorted
    refine ⟨e.1, e.2, rfl, hfind, htoken, ?_⟩
    rcases mem_cons.mp hmem with heq | hmem
    · rw [heq, withdrawalBefore_iff]
    · exact (pairwise_cons.mp hsorted).1 _ hmem

/-- The balance to which an iterator moves comes after its place, and before all others that do. -/
theorem following_spec {f : HolderKey} (h : S.following isToken e = some f) :
    ∃ b, S.holders.find? f = some b ∧ isToken = decide (f.2 ≠ .vests) ∧
      ¬ withdrawalBefore (f, b) e ∧
      ∀ d a, S.holders.find? d = some a → isToken = decide (d.2 ≠ .vests) →
        ¬ withdrawalBefore (d, a) e → withdrawalBefore (f, b) (d, a) := by
  obtain ⟨g, hg, rfl⟩ := Option.map_eq_some_iff.mp h
  obtain ⟨hfind, htoken⟩ := mem_byNextVestingWithdrawal.mp (mem_of_find?_eq_some hg)
  have hafter : ¬ withdrawalBefore g e := by simpa using find?_some hg
  refine ⟨g.2, hfind, htoken, hafter, fun d a hd ht hda => ?_⟩
  exact SortedRange.find?_least (fun x => (withdrawalBefore_iff x x).mpr le_rfl)
    (byNextVestingWithdrawal_sorted isToken S) hg
    (mem_byNextVestingWithdrawal.mpr ⟨hd, ht⟩) (by simpa using hda)

/-- An account that does not come before an entry is reached after it. -/
theorem exists_following
    {a : VestingAccount} (hd : S.holders.find? d = some a) (ht : isToken = decide (d.2 ≠ .vests))
    (hda : ¬ withdrawalBefore (d, a) e) : ∃ f, S.following isToken e = some f := by
  cases h : S.following isToken e with
  | some f => exact ⟨f, rfl⟩
  | none =>
    rw [following, Option.map_eq_none_iff, find?_eq_none] at h
    have hmem : (d, a) ∈ S.byNextVestingWithdrawal isToken :=
      mem_byNextVestingWithdrawal.mpr ⟨hd, ht⟩
    exact absurd (by simpa using hda) (h _ hmem)

end Order

/-- An instalment that was due puts off the next one by a week or for ever. -/
theorem payInstalment_next {a : VestingAccount} (amount : Int)
    (hclock : a.nextVestingWithdrawal + vestingWithdrawIntervalSeconds < maximumTime) :
    (payInstalment amount a).nextVestingWithdrawal = maximumTime ∨
      (payInstalment amount a).nextVestingWithdrawal =
        a.nextVestingWithdrawal + vestingWithdrawIntervalSeconds := by
  simp only [payInstalment]
  split
  · exact .inl rfl
  · refine .inr (Nat.mod_eq_of_lt ?_)
    unfold maximumTime at hclock
    omega

section Once

/-- New shares do not change the time of the next instalment. -/
theorem payInstalment_next_eq {a : VestingAccount} {shares shares' : Int} (hkeeps : Keeps a)
    (hle : a.vestingShares ≤ shares) (hle' : shares ≤ shares') :
    (payInstalment (instalment { a with vestingShares := shares })
      { a with vestingShares := shares' }).nextVestingWithdrawal =
        (payInstalment (instalment a) a).nextVestingWithdrawal := by
  -- whoever has what is left ends with the instalment that is large enough
  have hiff : (a.toWithdraw ≤ a.withdrawn + instalment { a with vestingShares := shares } ∨
      shares' - instalment { a with vestingShares := shares } = 0) ↔
        (a.toWithdraw ≤ a.withdrawn + instalment a ∨ a.vestingShares - instalment a = 0) := by
    unfold Keeps at hkeeps
    simp only [instalment]
    split_ifs
    · generalize a.toWithdraw % a.vestingWithdrawRate = rest
      omega
    · omega
  by_cases hlast : a.toWithdraw ≤ a.withdrawn + instalment a ∨ a.vestingShares - instalment a = 0
  · simp only [payInstalment, if_pos hlast, if_pos (hiff.mpr hlast)]
  · simp only [payInstalment, if_neg hlast, if_neg (mt hiff.mp hlast)]

/-- The state in the course of the loops: a balance that is not paid yet has at most gained shares,
and one that is paid once has the next time that its instalment gives it. -/
structure Swept (S T : Registry) (l : List (HolderKey × Int)) : Prop where
  time : T.time = S.time
  keys : T.holders.keys = S.holders.keys
  due : ∀ k ∈ l.map Prod.fst, S.Due k
  accounts : ∀ k a, S.holders.find? k = some a → ∃ a', T.holders.find? k = some a' ∧
    (k ∉ l.map Prod.fst → ∃ shares, a.vestingShares ≤ shares ∧
      a' = { a with vestingShares := shares }) ∧
    ((l.map Prod.fst).count k = 1 →
      a'.nextVestingWithdrawal = (payInstalment (instalment a) a).nextVestingWithdrawal)

variable {T T' : Registry} {l : List (HolderKey × Int)} {k : HolderKey} {a : VestingAccount}

/-- The account that a balance was before the loops. -/
theorem Swept.origin (h : Swept S T l) (hfind : T.holders.find? k = some a) :
    ∃ a₀, S.holders.find? k = some a₀ ∧
      (k ∉ l.map Prod.fst → ∃ shares, a₀.vestingShares ≤ shares ∧
        a = { a₀ with vestingShares := shares }) ∧
      ((l.map Prod.fst).count k = 1 →
        a.nextVestingWithdrawal = (payInstalment (instalment a₀) a₀).nextVestingWithdrawal) := by
  have hkey : k ∈ S.holders.keys := h.keys ▸ mem_keys.mpr (hfind ▸ rfl)
  obtain ⟨a₀, ha₀⟩ := Option.isSome_iff_exists.mp (mem_keys.mp hkey)
  obtain ⟨a', ha', hunpaid, honce⟩ := h.accounts k a₀ ha₀
  obtain rfl : a = a' := Option.some.inj (hfind.symm.trans ha')
  exact ⟨a₀, ha₀, hunpaid, honce⟩

/-- One more instalment. -/
theorem Swept.pay (h : Swept S T l) (hkept : S.DueKept) (hfind : T.holders.find? k = some a)
    (hdue : a.nextVestingWithdrawal ≤ T.time) (htime : T'.time = T.time)
    (hkeys : T'.holders.keys = T.holders.keys) (hself : ∃ shares, a.vestingShares ≤ shares ∧
      T'.holders.find? k = some (payInstalment (instalment a) { a with vestingShares := shares }))
    (hothers : ∀ k' b, k' ≠ k → T.holders.find? k' = some b → ∃ shares,
      b.vestingShares ≤ shares ∧ T'.holders.find? k' = some { b with vestingShares := shares }) :
    Swept S T' (l ++ [(k, instalment a)]) := by
  obtain ⟨a₀, ha₀, hunpaid, -⟩ := h.origin hfind
  have hdue₀ : k ∉ l.map Prod.fst → a₀.nextVestingWithdrawal ≤ S.time := by
    intro hk
    obtain ⟨shares, -, rfl⟩ := hunpaid hk
    exact h.time ▸ hdue
  refine ⟨htime.trans h.time, hkeys.trans h.keys, ?_, ?_⟩
  · intro k' hk'
    rw [map_append, mem_append, map_cons, map_nil, mem_singleton] at hk'
    rcases hk' with hk' | rfl
    · exact h.due k' hk'
    · by_cases hk : k' ∈ l.map Prod.fst
      · exact h.due k' hk
      · exact ⟨a₀, ha₀, hdue₀ hk⟩
  · intro k' b hb
    by_cases hk : k' = k
    · subst hk
      obtain rfl : a₀ = b := Option.some.inj (ha₀.symm.trans hb)
      obtain ⟨shares', hle', hself⟩ := hself
      refine ⟨_, hself, fun hk => absurd (by simp) hk, fun hcount => ?_⟩
      have hk : k' ∉ l.map Prod.fst := by
        rw [map_append, count_append, map_cons, map_nil, count_singleton_self] at hcount
        exact count_eq_zero.mp (by omega)
      obtain ⟨shares, hle, rfl⟩ := hunpaid hk
      exact payInstalment_next_eq (hkept k' a₀ ha₀ (hdue₀ hk)) hle hle'
    · obtain ⟨b', hb', hunpaid', honce'⟩ := h.accounts k' b hb
      obtain ⟨shares', hle', hother⟩ := hothers k' b' hk hb'
      refine ⟨_, hother, fun hk' => ?_, fun hcount => honce' ?_⟩
      · obtain ⟨shares, hle, rfl⟩ := hunpaid' fun hin => hk' (by simp [hin])
        exact ⟨shares', hle.trans hle', rfl⟩
      · rw [map_append, count_append, map_cons, map_nil,
          count_singleton, if_neg (by simpa using Ne.symm hk), add_zero] at hcount
        exact hcount

/-- A balance that one instalment puts off is not paid again. -/
theorem Swept.nodup_pay (h : Swept S T l) (hnodup : S.PutOff → (l.map Prod.fst).Nodup)
    (hfind : T.holders.find? k = some a) (hdue : a.nextVestingWithdrawal ≤ T.time) {amount : Int} :
    S.PutOff → ((l ++ [(k, amount)]).map Prod.fst).Nodup := by
  intro hput
  rw [map_append, map_cons, map_nil, ← concat_eq_append, nodup_concat]
  refine ⟨fun hk => ?_, hnodup hput⟩
  obtain ⟨a₀, ha₀, -, honce⟩ := h.origin hfind
  obtain ⟨b, hb, hdue₀⟩ := h.due k hk
  obtain rfl : a₀ = b := Option.some.inj (ha₀.symm.trans hb)
  have hlater := hput k a₀ ha₀ hdue₀
  rw [← honce (count_eq_one_of_mem (hnodup hput) hk), ← h.time] at hlater
  omega

theorem swept_nil (S : Registry) : Swept S S [] := by
  refine ⟨rfl, rfl, fun k hk => absurd hk not_mem_nil, fun k a ha => ?_⟩
  exact ⟨a, ha, fun _ => ⟨_, le_rfl, rfl⟩, fun hcount => absurd hcount (by simp)⟩

/-- What the loops do to the balances. -/
theorem swept_payments (hkept : S.DueKept) (h : S.processVestingWithdrawals = .ok S') :
    Swept S S' S.payments ∧ (S.PutOff → (S.payments.map Prod.fst).Nodup) := by
  refine processVestingWithdrawals_payments
    (P := fun T l => Swept S T l ∧ (S.PutOff → (l.map Prod.fst).Nodup)) ?_ ?_
    ⟨swept_nil S, fun _ => nodup_nil⟩ h
  · rintro T l k a ⟨hT, hnodup⟩ hfind hdue
    refine ⟨hT.pay hkept hfind hdue rfl (keys_set _ _ _)
      ⟨a.vestingShares, le_rfl, find?_set_self hfind⟩ fun k' b hk hb => ?_,
      hT.nodup_pay hnodup hfind hdue⟩
    exact ⟨b.vestingShares, le_rfl, (find?_set_of_ne hk).trans hb⟩
  · rintro T T' l k a ⟨hT, hnodup⟩ hfind hdue hpay
    obtain ⟨htime, -, hkeys, ⟨shares, hle, hself⟩, hothers⟩ := payVestsInstalment_frame hpay hfind
    exact ⟨hT.pay hkept hfind hdue htime hkeys ⟨shares, hle, hself⟩ hothers,
      hT.nodup_pay hnodup hfind hdue⟩

end Once

section Visits

/-- The instalments of an account that can be due. -/
def overdue (time : Nat) (a : VestingAccount) : Int :=
  if a.nextVestingWithdrawal ≤ time then
    ((time - a.nextVestingWithdrawal) / vestingWithdrawIntervalSeconds + 1 : Nat) else 0

variable {a : VestingAccount}

theorem overdue_pos {time : Nat} (h : a.nextVestingWithdrawal ≤ time) : 0 < overdue time a := by
  rw [overdue, if_pos h]
  exact_mod_cast Nat.succ_pos _

/-- The instalments that are due, one account after the other. -/
theorem dueInstalments_eq (S : Registry) :
    (S.dueInstalments : Int) = S.holders.total (overdue S.time) := by
  unfold dueInstalments total
  induction S.holders.entries with
  | nil => rfl
  | cons e l ih =>
    rw [filter_cons, map_cons, sum_cons, ← ih, overdue]
    by_cases he : e.2.nextVestingWithdrawal ≤ S.time
    · rw [if_pos (decide_eq_true he), if_pos he, map_cons, sum_cons, Nat.cast_add]
    · rw [if_neg (by simpa using he), if_neg he, zero_add]

/-- An instalment leaves fewer that can be due. -/
theorem overdue_payInstalment {time : Nat} (amount : Int) (hdue : a.nextVestingWithdrawal ≤ time)
    (hclock : time + vestingWithdrawIntervalSeconds < maximumTime) :
    overdue time (payInstalment amount a) < overdue time a := by
  have hpos := overdue_pos hdue
  rcases payInstalment_next (a := a) amount (by omega) with hn | hn
  · rw [overdue, hn, if_neg (by omega)]
    exact hpos
  rw [overdue, overdue, hn, if_pos hdue]
  split_ifs with hlate
  · have hweek : 0 < vestingWithdrawIntervalSeconds := by decide
    have hstep : time - a.nextVestingWithdrawal =
        time - (a.nextVestingWithdrawal + vestingWithdrawIntervalSeconds) +
          vestingWithdrawIntervalSeconds := by omega
    rw [hstep, Nat.add_div_right _ hweek]
    omega
  · rw [overdue, if_pos hdue] at hpos
    exact hpos

/-- Each instalment of VESTS that was due leaves fewer that can be due. -/
theorem dueInstalments_payVestsInstalment {k : HolderKey}
    (ha : S.holders.find? k = some a) (hdue : a.nextVestingWithdrawal ≤ S.time)
    (hclock : S.time + vestingWithdrawIntervalSeconds < maximumTime) {amount : Int}
    (h : S.payVestsInstalment k amount = .ok S') : S'.dueInstalments < S.dueInstalments := by
  have htime := (payVestsInstalment_frame h ha).1
  obtain ⟨S1, shares, hdeposit, -, hfind, rfl⟩ := payVestsInstalment_eq h ha
  have htotal : S1.holders.total (overdue S.time) = S.holders.total (overdue S.time) := by
    refine forEach_deposit_invariant (P := fun T => T.holders.total (overdue S.time) =
      S.holders.total (overdue S.time)) (fun T k b shares hT hb _ => ?_) rfl hdeposit
    rw [← hT, setHolder, total_set hb]
    simp only [overdue]
    omega
  have hless := overdue_payInstalment (a := { a with vestingShares := shares }) amount hdue hclock
  have hset : ((S1.setHolder k
      (payInstalment amount { a with vestingShares := shares })).dueInstalments : Int) <
        S.dueInstalments := by
    rw [dueInstalments_eq, dueInstalments_eq, htime, setHolder, total_set hfind, htotal]
    omega
  exact_mod_cast hset

/-- The loop over the accounts comes to every account that is due at or after its position. -/
theorem mem_vestsPayments {fuel : Nat} {c : HolderKey} {b : VestingAccount}
    (hclock : S.time + vestingWithdrawIntervalSeconds < maximumTime)
    (hfuel : S.dueInstalments < fuel) (h : S.payVestsInstalments fuel (some c) = .ok S')
    (hc : S.holders.find? c = some b) (hd : S.holders.find? d = some a) (hvests : d.2 = .vests)
    (hdue : a.nextVestingWithdrawal ≤ S.time) (hbefore : withdrawalBefore (c, b) (d, a)) :
    d ∈ (vestsPayments fuel (some c) S).map Prod.fst := by
  induction fuel generalizing S c a b with
  | zero => exact absurd hfuel (Nat.not_lt_zero _)
  | succ fuel ih =>
    have hcdue : b.nextVestingWithdrawal ≤ S.time :=
      (next_le_of_withdrawalBefore hbefore).trans hdue
    simp only [payVestsInstalments, getHolder, hc, orThrow, returns, exists_eq_left',
      if_pos hcdue] at h
    obtain ⟨S1, hpay, h⟩ := h
    simp only [vestsPayments, hc, if_pos hcdue, hpay, map_cons, mem_cons]
    by_cases hdc : d = c
    · exact .inl hdc
    right
    have hafter : ¬ withdrawalBefore (d, a) (c, b) := by
      intro hback
      rw [withdrawalBefore_iff] at hback hbefore
      have hrank := congrArg (fun x => ofLex (ofLex x).2) (le_antisymm hback hbefore)
      exact hdc (Prod.ext (congrArg Prod.fst hrank) (congrArg Prod.snd hrank))
    have htoken : false = decide (d.2 ≠ .vests) := by simp [hvests]
    obtain ⟨f, hf⟩ := exists_following hd htoken hafter
    obtain ⟨bf, hfind, -, hfafter, hleast⟩ := following_spec hf
    have hfc : f ≠ c := by
      rintro rfl
      cases hc.symm.trans hfind
      exact hfafter ((withdrawalBefore_iff _ _).mpr le_rfl)
    obtain ⟨htime, -, -, -, hothers⟩ := payVestsInstalment_frame hpay hc
    obtain ⟨_, -, hf1⟩ := hothers f bf hfc hfind
    obtain ⟨_, -, hd1⟩ := hothers d a hdc hd
    have hless := dueInstalments_payVestsInstalment hc hcdue hclock hpay
    rw [hf] at h ⊢
    exact ih (htime ▸ hclock) (by omega) h hf1 hd1 (htime ▸ hdue) (hleast d a hd htoken hafter)

/-- An account that is due is paid. -/
theorem mem_payments_of_vests (hclock : S.time + vestingWithdrawIntervalSeconds < maximumTime)
    (h : S.processVestingWithdrawals = .ok S') (hd : S.Due d) (hvests : d.2 = .vests) :
    d ∈ S.payments.map Prod.fst := by
  rw [processVestingWithdrawals, Checked.bind_eq_ok] at h
  obtain ⟨S1, h1, h2⟩ := h
  simp only [payments, h1, map_append, mem_append]
  refine or_iff_not_imp_left.mpr fun hunpaid => ?_
  -- the loop over the balances of tokens leaves the account as it was
  have hkept := payTokenInstalments_payments (P := fun T l => T.time = S.time ∧
    (d ∉ l.map Prod.fst → T.holders.find? d = S.holders.find? d)) ?_
    (l := []) ⟨rfl, fun _ => rfl⟩ h1
  · rw [nil_append] at hkept
    obtain ⟨htime, hfind⟩ := hkept
    obtain ⟨a, ha, hdue⟩ := hd
    rw [← hfind hunpaid] at ha
    obtain ⟨c, b, hfirst, hb, -, hbefore⟩ := first_spec false ha (by simp [hvests])
    rw [hfirst] at h2 ⊢
    exact mem_vestsPayments (htime ▸ hclock) (Nat.lt_succ_self _) h2 hb ha hvests (htime ▸ hdue)
      hbefore
  · rintro T l k a ⟨htime, hfind⟩ - -
    refine ⟨htime, fun hd => ?_⟩
    rw [map_append, mem_append, not_or, map_cons, map_nil,
      mem_singleton] at hd
    exact (find?_set_of_ne hd.2).trans (hfind hd.1)

/-- The sweep of the shares pays no tokens. -/
theorem vests_of_mem_vestsPayments {fuel : Nat} {c : Option HolderKey}
    (hc : ∀ k, c = some k → k.2 = .vests) {p : HolderKey × Int}
    (h : p ∈ vestsPayments fuel c S) : p.1.2 = .vests := by
  induction fuel generalizing S c with
  | zero =>
    cases h
  | succ fuel ih =>
    cases c with
    | none =>
      rw [vestsPayments] at h
      · cases h
      · simp
    | some k =>
      rw [vestsPayments] at h
      split at h
      · cases h
      split at h
      · split at h
        · cases h
        rcases mem_cons.mp h with rfl | h
        · exact hc k rfl
        · refine ih (fun f hf => ?_) h
          obtain ⟨-, -, htoken, -⟩ := following_spec hf
          simpa using htoken.symm
      · cases h

end Visits

section Tokens

/-- The loop over the balances of tokens stops after its first instalment. -/
theorem length_tokenPayments_le (hput : S.PutOff) (fuel : Nat) (c : Option HolderKey) :
    (tokenPayments fuel c S).length ≤ 1 := by
  cases fuel with
  | zero => exact Nat.zero_le _
  | succ fuel =>
    cases c with
    | none =>
      rw [tokenPayments]
      · exact Nat.zero_le _
      · simp
    | some k =>
      rw [tokenPayments]
      split
      · exact Nat.zero_le _
      rename_i a ha
      split_ifs with hdue
      · have hlater := hput k a ha hdue
        -- what follows the new place of the balance is not due
        have htail : tokenPayments fuel
            (following true (k, payInstalment (instalment a) a)
              (S.setHolder k (payInstalment (instalment a) a)))
            (S.setHolder k (payInstalment (instalment a) a)) = [] := by
          cases hf : following true (k, payInstalment (instalment a) a)
              (S.setHolder k (payInstalment (instalment a) a)) with
          | none => cases fuel <;> rfl
          | some f =>
            cases fuel with
            | zero => rfl
            | succ fuel =>
              obtain ⟨bf, hfind, -, hafter, -⟩ := following_spec hf
              have hnext : ¬ bf.nextVestingWithdrawal ≤ S.time := by
                intro hle
                exact hafter (.inl (by simp only; omega))
              simp only [tokenPayments, hfind]
              exact if_neg hnext
        simp only [htail]
        exact le_rfl
      · exact Nat.zero_le _

/-- The first balance of a token is paid if it is due. -/
theorem mem_tokenPayments_of_first (hd : S.Due d)
    (hfirst : (S.byNextVestingWithdrawal true).head?.map Prod.fst = some d) (fuel : Nat) :
    d ∈ (tokenPayments (fuel + 1) ((S.byNextVestingWithdrawal true).head?.map Prod.fst)
      S).map Prod.fst := by
  obtain ⟨a, ha, hdue⟩ := hd
  simp only [hfirst, tokenPayments, ha, if_pos hdue, map_cons]
  exact mem_cons_self

end Tokens

/-- A block pays every power-down that is due once, and leaves none due, if and only if at most one
balance of a token is due and one instalment puts off every power-down that is. -/
theorem sweptOnce_iff (hclock : S.time + vestingWithdrawIntervalSeconds < maximumTime)
    (hkept : S.DueKept) (h : S.processVestingWithdrawals = .ok S') : SweptOnce S S' ↔
      (∀ k k', S.Due k → S.Due k' → k.2 ≠ .vests → k'.2 ≠ .vests → k = k') ∧ S.PutOff := by
  obtain ⟨hswept, hnodup⟩ := swept_payments hkept h
  have hprocess := h
  rw [processVestingWithdrawals, Checked.bind_eq_ok] at hprocess
  obtain ⟨S1, h1, -⟩ := hprocess
  have hpayments : S.payments =
      tokenPayments (S.dueInstalments + 1)
          ((S.byNextVestingWithdrawal true).head?.map Prod.fst) S ++
        vestsPayments (S1.dueInstalments + 1)
          ((S1.byNextVestingWithdrawal false).head?.map Prod.fst) S1 := by
    simp only [payments, h1]
  constructor
  · intro honce
    have hput : S.PutOff := by
      intro k a ha hdue
      obtain ⟨a', ha', -, hpaid⟩ := hswept.accounts k a ha
      rw [← hpaid (count_eq_one_of_mem honce.once ((honce.paid k).mpr ⟨a, ha, hdue⟩)),
        ← hswept.time]
      exact not_le.mp fun hle => honce.noneDue k ⟨a', ha', hle⟩
    refine ⟨fun k k' hk hk' htok htok' => ?_, hput⟩
    have hmem : ∀ k, S.Due k → k.2 ≠ .vests → k ∈ (tokenPayments (S.dueInstalments + 1)
        ((S.byNextVestingWithdrawal true).head?.map Prod.fst) S).map Prod.fst := by
      intro k hk htok
      have hpaid := (honce.paid k).mpr hk
      rw [hpayments, map_append, mem_append] at hpaid
      rcases hpaid with hpaid | hpaid
      · exact hpaid
      · obtain ⟨p, hp, rfl⟩ := mem_map.mp hpaid
        refine absurd (vests_of_mem_vestsPayments (fun f hf => ?_) hp) htok
        obtain ⟨e, he, rfl⟩ := Option.map_eq_some_iff.mp hf
        simpa using (mem_byNextVestingWithdrawal.mp (mem_of_mem_head? he)).2.symm
    have hlength := length_tokenPayments_le hput (S.dueInstalments + 1)
      ((S.byNextVestingWithdrawal true).head?.map Prod.fst)
    have hk := hmem k hk htok
    have hk' := hmem k' hk' htok'
    rcases Nat.le_one_iff_eq_zero_or_eq_one.mp hlength with hnone | hone
    · rw [length_eq_zero_iff.mp hnone] at hk
      cases hk
    · obtain ⟨p, hp⟩ := length_eq_one_iff.mp hone
      rw [hp, map_cons, map_nil, mem_singleton] at hk hk'
      rw [hk, hk']
  · rintro ⟨honly, hput⟩
    have hall : ∀ k, S.Due k → k ∈ S.payments.map Prod.fst := by
      intro k hk
      by_cases htok : k.2 = .vests
      · exact mem_payments_of_vests hclock h hk htok
      · rw [hpayments, map_append, mem_append]
        -- the balance that comes first is due as well, so it is this one
        obtain ⟨a, ha, hdue⟩ := hk
        obtain ⟨k', b, hfirst, hb, hk', hbefore⟩ := first_spec true ha (decide_eq_true htok).symm
        have hdue' : S.Due k' := ⟨b, hb, (next_le_of_withdrawalBefore hbefore).trans hdue⟩
        obtain rfl : k' = k := honly k' k hdue' ⟨a, ha, hdue⟩ (by simpa using hk'.symm) htok
        exact .inl (mem_tokenPayments_of_first hdue' hfirst _)
    refine ⟨?_, hnodup hput, fun k => ⟨hswept.due k, hall k⟩⟩
    rintro k ⟨a, ha, hdue⟩
    obtain ⟨a₀, ha₀, hunpaid, honce⟩ := hswept.origin ha
    rw [hswept.time] at hdue
    by_cases hk : k ∈ S.payments.map Prod.fst
    · obtain ⟨b, hb, hdue₀⟩ := hswept.due k hk
      obtain rfl : a₀ = b := Option.some.inj (ha₀.symm.trans hb)
      have hlater := hput k a₀ ha₀ hdue₀
      rw [← honce (count_eq_one_of_mem (hnodup hput) hk)] at hlater
      omega
    · obtain ⟨shares, -, rfl⟩ := hunpaid hk
      exact hk (hall k ⟨a₀, ha₀, hdue⟩)

/-- The vesting symbol of a token. -/
def someToken : AssetSymbol := ⟨320000051⟩

/-- A week after accounts have begun to power down a token, and one of them VESTS as well. -/
def powerDowns (holders : List AccountName) : List VestingStep :=
  List.replicate 23 .applyHardfork ++
    [.elsewhere 1 0 0 ⟨[(someToken, 432000)], List.nodup_singleton _⟩ .empty, .accountCreate 10,
      .accountCreate 11, .createVesting (10, .vests) 1300 1 1,
          .withdrawVesting (10, .vests) 1300] ++
    holders.flatMap (fun name =>
      [.createVesting (name, someToken) 1300 1 1, .withdrawVesting (name, someToken) 1300]) ++
    [.advance (genesisTime + vestingWithdrawIntervalSeconds)]

/-- The account asks for one share, whose only instalment is overdue by eight days; the balance of
the token is due as well. -/
def overdueLast : List VestingStep :=
  List.replicate 23 .applyHardfork ++
    [.elsewhere 1 0 0 ⟨[(someToken, 432000)], List.nodup_singleton _⟩ .empty, .accountCreate 10,
      .createVesting (10, .vests) 1300 1 1, .withdrawVesting (10, .vests) 1,
      .advance (genesisTime + 8 * 86400), .createVesting (10, someToken) 1300 1 1,
      .withdrawVesting (10, someToken) 1300, .advance (genesisTime + 15 * 86400)]

/-- With one balance of the token due, and one account whose last instalment is eight days overdue,
both are paid. -/
theorem sweptOnce_iff_overdue : ∃ S', (genesis.run overdueLast).DueKept ∧
    (genesis.run overdueLast).processVestingWithdrawals = .ok S' ∧
    SweptOnce (genesis.run overdueLast) S' := by
  have hreturns : ((genesis.run overdueLast).processVestingWithdrawals.toOption).isSome := by
    decide +kernel
  have hkept : (genesis.run overdueLast).DueKept :=
    show (genesis.run overdueLast).holders.All fun _ a =>
      a.nextVestingWithdrawal ≤ (genesis.run overdueLast).time → Keeps a by decide +kernel
  have hput : (genesis.run overdueLast).PutOff :=
    show (genesis.run overdueLast).holders.All fun _ a =>
      a.nextVestingWithdrawal ≤ (genesis.run overdueLast).time → (genesis.run overdueLast).time <
        (payInstalment (instalment a) a).nextVestingWithdrawal by decide +kernel
  have honly : (genesis.run overdueLast).holders.All fun k a =>
      a.nextVestingWithdrawal ≤ (genesis.run overdueLast).time → k.2 ≠ .vests →
        k = (10, someToken) := by decide +kernel
  cases h : (genesis.run overdueLast).processVestingWithdrawals with
  | error e =>
    rw [h] at hreturns
    cases hreturns
  | ok S' =>
    refine ⟨S', hkept, rfl, (sweptOnce_iff (by decide +kernel) hkept h).mpr ⟨?_, hput⟩⟩
    rintro k k' ⟨a, ha, hdue⟩ ⟨a', ha', hdue'⟩ htok htok'
    rw [honly k a ha hdue htok, honly k' a' ha' hdue' htok']

/-- With two balances of the token due, the second one is left unpaid. -/
theorem not_sweptOnce_two : ∃ S', (genesis.run (powerDowns [10, 11])).processVestingWithdrawals =
    .ok S' ∧ S'.Due (11, someToken) ∧ ¬ SweptOnce (genesis.run (powerDowns [10, 11])) S' := by
  have hleft : ((genesis.run (powerDowns
    [10, 11])).processVestingWithdrawals.toOption.bind fun S' =>
      (S'.holders.find? (11, someToken)).map fun a =>
        decide (a.nextVestingWithdrawal ≤ S'.time)) = some true := by decide +kernel
  cases h : (genesis.run (powerDowns [10, 11])).processVestingWithdrawals with
  | error e =>
    rw [h] at hleft
    cases hleft
  | ok S' =>
    rw [h] at hleft
    obtain ⟨a, ha, hnext⟩ := Option.map_eq_some_iff.mp hleft
    have hdue : S'.Due (11, someToken) := ⟨a, ha, of_decide_eq_true hnext⟩
    exact ⟨S', rfl, hdue, fun honce => honce.noneDue _ hdue⟩

end Freezone.Chain.Delegation.Registry
