import Freezone.Chain.Ledger.Withdrawals

/-!
# Routes of power-downs

The routes of an account go to different accounts and together take no more than all
of an instalment: the evaluator adds them up after the change, in sixteen bits, and
before the change they were at most all, so the sum has not wrapped. Each route takes
its part rounded down, so the parts never exceed the instalment.
-/

namespace Freezone.Chain.Funds

open Protocol List

/-- The operations on routes. -/
def LedgerStep.SetsRoute : LedgerStep → Prop
  | .setWithdrawVestingRoute _ _ _ _ => True
  | _ => False

namespace Ledger

variable {L L' : Ledger} {name : AccountName} {a : Account}

section Sums

/-- A quantity of the routes of an account, added up. -/
def routeTotal (f : WithdrawVestingRoute → Int) (name : AccountName) (L : Ledger) : Int :=
  L.withdrawRoutes.sum fun k r => if k.1 = name then f r else 0

/-- A sum over the routes of an account is one over the table. -/
theorem sum_routesOf (f : WithdrawVestingRoute → Int) (name : AccountName) (L : Ledger) :
    ((L.routesOf name).map fun r => f r.2).sum = L.routeTotal f name := by
  rw [routesOf, ((perm_insertionSort _ _).map _).sum_eq, routeTotal, Table.sum, map_map]
  induction L.withdrawRoutes.entries with
  | nil => rfl
  | cons e l ih =>
    rw [filter_cons, map_cons, sum_cons, ← ih]
    by_cases he : e.1.1 = name
    · rw [if_pos (decide_eq_true he), if_pos he, map_cons, sum_cons]
      rfl
    · rw [if_neg (by simpa using he), if_neg he, zero_add]

theorem sum_percent_routesOf (name : AccountName) (L : Ledger) :
    ((((L.routesOf name).map fun r => r.2.percent).sum : Nat) : Int) =
      L.routeTotal (fun r => r.percent) name := by
  rw [← sum_routesOf, Nat.cast_list_sum, map_map]
  rfl

theorem routeTotal_nonneg {f : WithdrawVestingRoute → Int} (hf : ∀ r, 0 ≤ f r)
    (name : AccountName) (L : Ledger) : 0 ≤ L.routeTotal f name := by
  rw [← sum_routesOf]
  refine sum_nonneg fun x hx => ?_
  obtain ⟨r, -, rfl⟩ := mem_map.mp hx
  exact hf r.2

/-- Parts that are each rounded down do not exceed the whole. -/
theorem sum_routedPart_le (toWithdraw : Int) (routes : List (AccountName × WithdrawVestingRoute)) :
    hundredPercent * (routes.map fun r => routedPart toWithdraw r.2).sum ≤
      toWithdraw * ((routes.map fun r => r.2.percent).sum : Nat) := by
  induction routes with
  | nil => simp
  | cons r rest ih =>
    have hpart : hundredPercent * routedPart toWithdraw r.2 ≤ toWithdraw * r.2.percent :=
      Int.mul_ediv_self_le (by decide)
    rw [map_cons, map_cons, sum_cons, sum_cons, Nat.cast_add, mul_add, mul_add]
    exact add_le_add hpart ih

end Sums

/-- The routes of every account take at most all of its instalments, every account counts its
routes, and only accounts have routes. -/
structure RoutesSound (L : Ledger) : Prop where
  percent : ∀ name, L.routeTotal (fun r => r.percent) name ≤ hundredPercent
  count : ∀ name a, L.accounts.find? name = some a →
    (a.withdrawRoutes : Int) = L.routeTotal (fun _ => 1) name
  owned : ∀ k r, L.withdrawRoutes.find? k = some r → (L.accounts.find? k.1).isSome

/-- The routes are the same, every account has its number of routes, and new accounts have none. -/
structure SameRoutes (L L' : Ledger) : Prop where
  routes : L'.withdrawRoutes = L.withdrawRoutes
  accounts : ∀ name a, L.accounts.find? name = some a →
    ∃ a', L'.accounts.find? name = some a' ∧ a'.withdrawRoutes = a.withdrawRoutes
  new : ∀ name a, L'.accounts.find? name = some a → L.accounts.find? name = none →
    a.withdrawRoutes = 0

/-- The ledgers to which `set_withdraw_vesting_route` operations lead from one without routes, with
anything in between that is not about routes. -/
inductive RouteHistory : Ledger → Prop
  | start {L : Ledger} (hroutes : L.withdrawRoutes.entries = [])
      (hcount : L.accounts.All fun _ a => a.withdrawRoutes = 0) : RouteHistory L
  | setRoute {L L' : Ledger} {fromAccount toAccount : AccountName} {percent : Nat} {autoVest : Bool}
      (history : RouteHistory L)
      (h : L.setWithdrawVestingRoute fromAccount toAccount percent autoVest = .ok L') :
      RouteHistory L'
  | other {L L' : Ledger} (history : RouteHistory L) (h : SameRoutes L L') : RouteHistory L'

section Steps

/-- The totals read only the routes. -/
theorem routeTotal_congr (h : L'.withdrawRoutes = L.withdrawRoutes)
    (f : WithdrawVestingRoute → Int) (name : AccountName) :
    L'.routeTotal f name = L.routeTotal f name := by
  rw [routeTotal, h, routeTotal]

theorem routeTotal_eq_zero (h : L.withdrawRoutes.entries = []) (f : WithdrawVestingRoute → Int)
    (name : AccountName) : L.routeTotal f name = 0 := by
  rw [routeTotal, Table.sum, h, map_nil, sum_nil]

/-- The counters agree while there are no routes. -/
theorem RoutesSound.start (hroutes : L.withdrawRoutes.entries = [])
    (hcount : L.accounts.All fun _ a => a.withdrawRoutes = 0) : L.RoutesSound where
  percent name := by
    rw [routeTotal_eq_zero hroutes]
    decide
  count name a ha := by
    have hzero : a.withdrawRoutes = 0 := hcount name a ha
    rw [hzero, routeTotal_eq_zero hroutes, Nat.cast_zero]
  owned k r hr := by
    rw [Table.find?_eq_some, hroutes] at hr
    cases hr

/-- An account without routes of its own. -/
theorem RoutesSound.routeTotal_eq_zero (hL : L.RoutesSound) (h : L.accounts.find? name = none)
    (f : WithdrawVestingRoute → Int) : L.routeTotal f name = 0 := by
  refine sum_eq_zero fun x hx => ?_
  obtain ⟨e, he, rfl⟩ := mem_map.mp hx
  refine if_neg fun hname => ?_
  have hsome := hL.owned e.1 e.2 (Table.find?_eq_some.mpr he)
  rw [hname, h] at hsome
  cases hsome

/-- A step that touches no route keeps the counters right. -/
theorem RoutesSound.sameRoutes (hL : L.RoutesSound) (h : SameRoutes L L') : L'.RoutesSound where
  percent name := by
    rw [routeTotal_congr h.routes]
    exact hL.percent name
  count name a ha := by
    rw [routeTotal_congr h.routes]
    cases hold : L.accounts.find? name with
    | none => rw [h.new name a ha hold, hL.routeTotal_eq_zero hold, Nat.cast_zero]
    | some a0 =>
      obtain ⟨a', ha', hcount⟩ := h.accounts name a0 hold
      rw [ha, Option.some.injEq] at ha'
      rw [ha', hcount]
      exact hL.count name a0 hold
  owned k r hr := by
    rw [h.routes] at hr
    obtain ⟨a0, ha0⟩ := Option.isSome_iff_exists.mp (hL.owned k r hr)
    obtain ⟨a', ha', -⟩ := h.accounts k.1 a0 ha0
    exact Option.isSome_iff_exists.mpr ⟨a', ha'⟩

/-- A change of a route of one account that changes a total by a difference. -/
theorem RoutesSound.update (hL : L.RoutesSound) (ha : L.accounts.find? name = some a)
    {routes : Table (AccountName × AccountName) WithdrawVestingRoute} {n : Nat}
    (hsum : ((({ L with withdrawRoutes := routes } : Ledger).routesOf name).map
      fun r => r.2.percent).sum % 2 ^ 16 ≤ hundredPercent)
    (hchange : ({ L with withdrawRoutes := routes } : Ledger).routeTotal (fun r => r.percent) name ≤
      L.routeTotal (fun r => r.percent) name + hundredPercent)
    (hcount : ({ L with withdrawRoutes := routes } : Ledger).routeTotal (fun _ => 1) name = n)
    (hothers : ∀ f other, other ≠ name →
      ({ L with withdrawRoutes := routes } : Ledger).routeTotal f other = L.routeTotal f other)
    (hkeys : ∀ k r, routes.find? k = some r → k.1 = name ∨ (L.withdrawRoutes.find? k).isSome) :
    (({ L with withdrawRoutes := routes } : Ledger).setAccount name
      { a with withdrawRoutes := n }).RoutesSound where
  percent other := by
    by_cases ho : other = name
    · -- the total has not wrapped in sixteen bits
      subst ho
      have hbefore := hL.percent other
      have hcast := sum_percent_routesOf other { L with withdrawRoutes := routes }
      generalize (((({ L with withdrawRoutes := routes } : Ledger).routesOf other).map
        fun r => r.2.percent).sum) = total at hsum hcast
      have hbound : total ≤ hundredPercent := by
        unfold hundredPercent at hsum hchange hbefore ⊢
        omega
      change ({ L with withdrawRoutes := routes } : Ledger).routeTotal (fun r => r.percent) other ≤
        hundredPercent
      rw [← hcast]
      exact_mod_cast hbound
    · exact (hothers _ other ho).trans_le (hL.percent other)
  count other b hb := by
    by_cases ho : other = name
    · subst ho
      rw [setAccount, Table.find?_set_self ha, Option.some.injEq] at hb
      rw [← hb]
      exact hcount.symm
    · rw [setAccount, Table.find?_set_of_ne ho] at hb
      exact (hL.count other b hb).trans (hothers _ other ho).symm
  owned k r hr := by
    have hold : (L.accounts.find? k.1).isSome := by
      rcases hkeys k r hr with hk | hk
      · rw [hk, ha]
        rfl
      · obtain ⟨r', hr'⟩ := Option.isSome_iff_exists.mp hk
        exact hL.owned k r' hr'
    rw [← Table.mem_keys] at hold ⊢
    rw [setAccount, Table.keys_set]
    exact hold

/-- A route is counted when it is set and forgotten with its last percent. -/
theorem RoutesSound.setWithdrawVestingRoute (hL : L.RoutesSound)
    {fromAccount toAccount : AccountName} {percent : Nat} {autoVest : Bool}
    (h : L.setWithdrawVestingRoute fromAccount toAccount percent autoVest = .ok L') :
    L'.RoutesSound := by
  simp only [Ledger.setWithdrawVestingRoute, returns, getAccount_eq_ok] at h
  obtain ⟨-, hpercent, a, ha, -, -, -, -, L1, hupdate, -, hsum, rfl⟩ := h
  have hcount := hL.count fromAccount a ha
  rw [updateRoute] at hupdate
  split at hupdate
  · simp only [returns] at hupdate
    obtain ⟨-, -, -, -, routes, hi, rfl⟩ := hupdate
    refine hL.update ha hsum ?_ ?_ ?_ ?_
    · rw [routeTotal, Table.sum_insert hi, if_pos rfl, routeTotal]
      exact add_le_add le_rfl (by exact_mod_cast hpercent)
    · rw [routeTotal, Table.sum_insert hi, if_pos rfl, Nat.cast_add, hcount]
      rfl
    · intro f other ho
      rw [routeTotal, Table.sum_insert hi, if_neg (Ne.symm ho), add_zero, routeTotal]
    intro k r hr
    rw [Table.find?_insert hi] at hr
    split_ifs at hr with hk
    · exact .inl (by rw [hk])
    · exact .inr (hr ▸ rfl)
  · rename_i old hold
    split at hupdate
    · cases hupdate
      refine hL.update ha hsum ?_ ?_ ?_ ?_
      · rw [routeTotal, Table.sum_erase hold, if_pos rfl, routeTotal]
        omega
      · -- the account has this route at least
        have hrest := routeTotal_nonneg (f := fun _ => 1) (fun _ => Int.one_nonneg) fromAccount
          { L with withdrawRoutes := L.withdrawRoutes.erase (fromAccount, toAccount) }
        rw [routeTotal, Table.sum_erase hold, if_pos rfl, ← routeTotal, ← hcount] at hrest ⊢
        omega
      · intro f other ho
        rw [routeTotal, Table.sum_erase hold, if_neg (Ne.symm ho), sub_zero, routeTotal]
      · intro k r hr
        rw [Table.find?_erase] at hr
        split at hr
        · cases hr
        · exact .inr (hr ▸ rfl)
    · cases hupdate
      have hsame : ∀ routes, ({ L with withdrawRoutes := routes } : Ledger).setAccount fromAccount
          a = { L with withdrawRoutes := routes } := by
        intro routes
        rw [setAccount, Table.set_eq_self ha]
      rw [← hsame]
      refine hL.update ha hsum ?_ ?_ ?_ ?_
      · rw [routeTotal, Table.sum_set hold, if_pos rfl, if_pos rfl, routeTotal]
        dsimp only
        omega
      · rw [routeTotal, Table.sum_set hold, if_pos rfl, sub_add_cancel, hcount]
        rfl
      · intro f other ho
        rw [routeTotal, Table.sum_set hold, if_neg (Ne.symm ho), if_neg (Ne.symm ho), sub_zero,
          add_zero, routeTotal]
      · intro k r hr
        by_cases hk : k = (fromAccount, toAccount)
        · exact .inl (by rw [hk])
        · rw [Table.find?_set_of_ne hk] at hr
          exact .inr (hr ▸ rfl)

/-- Every ledger that operations on routes reach has sound routes. -/
theorem RouteHistory.routesSound (h : L.RouteHistory) : L.RoutesSound := by
  induction h with
  | start hroutes hcount => exact .start hroutes hcount
  | setRoute history h ih => exact ih.setWithdrawVestingRoute h
  | other history h ih => exact ih.sameRoutes h

/-- Any accounts may set routes, one after the other; a throw leaves the routes as they were. -/
theorem RouteHistory.run (h : L.RouteHistory) {steps : List LedgerStep}
    (hsteps : ∀ step ∈ steps, step.SetsRoute) : (L.run steps).RouteHistory := by
  induction steps generalizing L with
  | nil => exact h
  | cons step steps ih =>
    refine ih ?_ fun s hs => hsteps s (mem_cons_of_mem _ hs)
    rw [afterStep]
    split
    · rename_i L' happly
      cases step with
      | setWithdrawVestingRoute => exact h.setRoute happly
      | _ => exact absurd (hsteps _ mem_cons_self) id
    · exact h

end Steps

section Instalment

/-- What of an instalment no route takes. -/
def unrouted (toWithdraw : Int) (routes : List (AccountName × WithdrawVestingRoute)) : Int :=
  toWithdraw - (routes.map fun r => routedPart toWithdraw r.2).sum

/-- The routes never take more than an instalment. -/
theorem RoutesSound.unrouted_nonneg (hL : L.RoutesSound) (name : AccountName) {toWithdraw : Int}
    (h : 0 ≤ toWithdraw) : 0 ≤ unrouted toWithdraw (L.routesOf name) := by
  have hparts := sum_routedPart_le toWithdraw (L.routesOf name)
  have hpercent := hL.percent name
  rw [← sum_percent_routesOf] at hpercent
  have hall := mul_le_mul_of_nonneg_left hpercent h
  rw [unrouted]
  unfold hundredPercent at hparts hall
  omega

theorem SameRoutes.refl (L : Ledger) : SameRoutes L L :=
  ⟨rfl, fun _ a ha => ⟨a, ha, rfl⟩, fun _ _ ha hnone => absurd ha (by rw [hnone]; exact nofun)⟩

theorem SameRoutes.trans {L'' : Ledger} (h : SameRoutes L L') (h' : SameRoutes L' L'') :
    SameRoutes L L'' where
  routes := h'.routes.trans h.routes
  accounts name a ha := by
    obtain ⟨b, hb, hab⟩ := h.accounts name a ha
    obtain ⟨c, hc, hbc⟩ := h'.accounts name b hb
    exact ⟨c, hc, hbc.trans hab⟩
  new name a ha hnone := by
    cases hmid : L'.accounts.find? name with
    | none => exact h'.new name a ha hmid
    | some b =>
      obtain ⟨c, hc, hbc⟩ := h'.accounts name b hmid
      rw [ha, Option.some.injEq] at hc
      rw [hc, hbc]
      exact h.new name b hmid hnone

/-- Shares move as they should while an instalment is paid: some are added to those of accounts and
some leave the count of all shares. -/
structure SharesMove (kept paid : Int) (L L' : Ledger) : Prop extends SameRoutes L L' where
  held : L'.accounts.total (·.vestingShares) = L.accounts.total (·.vestingShares) + kept
  counted : L'.props.totalVestingShares = L.props.totalVestingShares - paid

theorem SharesMove.refl (L : Ledger) : SharesMove 0 0 L L :=
  ⟨.refl L, (add_zero _).symm, (sub_zero _).symm⟩

theorem SharesMove.trans {L'' : Ledger} {kept paid kept' paid' : Int}
    (h : SharesMove kept paid L L') (h' : SharesMove kept' paid' L' L'') :
    SharesMove (kept + kept') (paid + paid') L L'' :=
  ⟨h.toSameRoutes.trans h'.toSameRoutes, by rw [h'.held, h.held, add_assoc],
    by rw [h'.counted, h.counted, sub_sub]⟩

theorem sharesMove_setAccount (a' : Account) (ha : L.accounts.find? name = some a)
    (hcount : a'.withdrawRoutes = a.withdrawRoutes) :
    SharesMove (a'.vestingShares - a.vestingShares) 0 L (L.setAccount name a') where
  routes := rfl
  accounts other b hb := by
    by_cases ho : other = name
    · subst ho
      rw [ha, Option.some.injEq] at hb
      exact ⟨a', Table.find?_set_self ha, hb ▸ hcount⟩
    · exact ⟨b, (Table.find?_set_of_ne ho).trans hb, rfl⟩
  new other b hb hnone := by
    have ho : other ≠ name := by
      rintro rfl
      rw [ha] at hnone
      cases hnone
    rw [setAccount, Table.find?_set_of_ne ho, hnone] at hb
    cases hb
  held := by
    rw [setAccount, Table.total_set ha]
    omega
  counted := (sub_zero _).symm

/-- Shares that are paid out leave the total. -/
theorem sharesMove_leaveVesting (shares value : Int) (L : Ledger) :
    SharesMove 0 shares L (L.leaveVesting shares value) :=
  ⟨⟨rfl, fun _ a ha => ⟨a, ha, rfl⟩, (SameRoutes.refl L).new⟩, (add_zero _).symm, rfl⟩

variable {toWithdraw : Int}

/-- The first pass adds its part to the shares of an account. -/
theorem depositVests_sharesMove {r : AccountName × WithdrawVestingRoute}
    (h : depositVests toWithdraw r L = .ok L') (hw : 0 ≤ toWithdraw) :
    SharesMove (keptPart toWithdraw r) 0 L L' := by
  have hpart := routedPart_nonneg hw r.2
  rw [depositVests] at h
  rw [keptPart]
  split_ifs at h with hnot
  · simp only [returns, getAccount_eq_ok] at h
    obtain ⟨b, hb, rfl⟩ := h
    rw [if_pos hnot.1]
    have hmove := sharesMove_setAccount
      { b with vestingShares := b.vestingShares + routedPart toWithdraw r.2 } hb rfl
    rw [add_sub_cancel_left] at hmove
    exact hmove
  · rw [Except.ok.injEq] at h
    have hzero : (if r.2.autoVest then routedPart toWithdraw r.2 else 0) = 0 := by
      split_ifs with hvest
      · exact le_antisymm (not_lt.mp fun hpos => hnot ⟨hvest, hpos⟩) hpart
      · rfl
    rw [hzero, ← h]
    exact .refl L

/-- The second pass takes its part out of the count. -/
theorem depositFreezone_sharesMove {r : AccountName × WithdrawVestingRoute}
    (h : depositFreezone toWithdraw r L = .ok L') (hw : 0 ≤ toWithdraw) :
    SharesMove 0 (paidPart toWithdraw r) L L' := by
  have hpart := routedPart_nonneg hw r.2
  rw [depositFreezone] at h
  rw [paidPart]
  split at h
  · rename_i hvest
    cases h
    rw [if_pos hvest]
    exact .refl L
  · rename_i hvest
    simp only [returns, getAccount_eq_ok] at h
    obtain ⟨b, hb, value, -, h⟩ := h
    rw [if_neg hvest]
    split_ifs at h with hpos
    · rw [Except.ok.injEq] at h
      have hset := sharesMove_setAccount { b with balance := b.balance + value } hb rfl
      have hmove := hset.trans (sharesMove_leaveVesting (routedPart toWithdraw r.2) value _)
      rw [sub_self, zero_add, zero_add] at hmove
      exact h ▸ hmove
    · cases h
      rw [le_antisymm (not_lt.mp hpos) hpart]
      exact .refl L

/-- A pass over the routes. -/
theorem forEach_sharesMove {f : AccountName × WithdrawVestingRoute → Ledger → Except String Ledger}
    (kept paid : AccountName × WithdrawVestingRoute → Int)
    (step : ∀ r L L', f r L = .ok L' → SharesMove (kept r) (paid r) L L')
    {routes : List (AccountName × WithdrawVestingRoute)} (h : forEach f routes L = .ok L') :
    SharesMove (routes.map kept).sum (routes.map paid).sum L L' := by
  induction routes generalizing L with
  | nil =>
    rw [forEach, Except.ok.injEq] at h
    exact h ▸ .refl L
  | cons r rest ih =>
    simp only [forEach, returns] at h
    obtain ⟨L1, h1, h⟩ := h
    exact (step r L L1 h1).trans (ih h)

/-- An instalment takes the withdrawn shares and leaves the count of the routes. -/
theorem finishInstalment_fields (toWithdraw converted : Int) (a : Account) :
    (finishInstalment toWithdraw converted a).vestingShares = a.vestingShares - toWithdraw ∧
      (finishInstalment toWithdraw converted a).withdrawRoutes = a.withdrawRoutes := by
  simp only [finishInstalment]
  split <;> exact ⟨rfl, rfl⟩

/-- After any operations on routes, and for every amount: the routes of an account take at most all
of it, the account counts them, what no route takes is not negative, and the routed shares with
the rest are exactly the amount. An instalment moves just these shares. -/
theorem routes_exact (h : L.RouteHistory) (ha : L.accounts.find? name = some a) :
    ((L.routesOf name).map fun r => r.2.percent).sum ≤ hundredPercent ∧
    a.withdrawRoutes = (L.routesOf name).length ∧
    (∀ toWithdraw, 0 ≤ toWithdraw → 0 ≤ unrouted toWithdraw (L.routesOf name)) ∧
    (∀ toWithdraw, ((L.routesOf name).map (keptPart toWithdraw)).sum +
      ((L.routesOf name).map (paidPart toWithdraw)).sum +
      unrouted toWithdraw (L.routesOf name) = toWithdraw) ∧
    ∀ L', 0 ≤ instalment a → L.payInstalment name = .ok L' →
      SharesMove (((L.routesOf name).map (keptPart (instalment a))).sum - instalment a)
        (((L.routesOf name).map (paidPart (instalment a))).sum +
          unrouted (instalment a) (L.routesOf name)) L L' := by
  have hsound := h.routesSound
  refine ⟨?_, ?_, fun _ => hsound.unrouted_nonneg name, fun toWithdraw => ?_,
    fun L' hw h => ?_⟩
  · have hpercent := hsound.percent name
    rw [← sum_percent_routesOf] at hpercent
    exact_mod_cast hpercent
  · have hcount := hsound.count name a ha
    rw [← sum_routesOf] at hcount
    simpa using hcount
  · rw [← sum_parts, unrouted, add_sub_cancel]
  · simp only [payInstalment, returns, getAccount_eq_ok] at h
    obtain ⟨b, hb, L1, h1, L2, h2, -, -, value, -, c, hc, rfl⟩ := h
    cases ha.symm.trans hb
    have hm1 := forEach_sharesMove (keptPart (instalment a)) (fun _ => 0)
      (fun r L L' hr => depositVests_sharesMove hr hw) h1
    have hm2 := forEach_sharesMove (fun _ => 0) (paidPart (instalment a))
      (fun r L L' hr => depositFreezone_sharesMove hr hw) h2
    obtain ⟨hshares, hcount⟩ := finishInstalment_fields (instalment a) value c
    have hm3 := (sharesMove_setAccount _ hc hcount).trans
      (sharesMove_leaveVesting (unrouted (instalment a) (L.routesOf name)) value _)
    have hm := (hm1.trans hm2).trans hm3
    rw [hshares] at hm
    simp only [map_const', sum_replicate, smul_zero, add_zero, zero_add, sub_sub_cancel_left,
      ← sub_eq_add_neg] at hm
    exact hm

/-- An account powers down in hardfork 20. -/
def poweredDown : Ledger :=
  (genesis 1458835200 800000000 0).run (.advance 1 1700000000 ::
    List.replicate 20 .applyHardfork ++ [.transferToVesting 2 none 1000, .withdrawVesting 2 1001])

/-- It sets two routes; a third one would be too much. -/
def threeRoutes : List LedgerStep :=
  [.setWithdrawVestingRoute 2 3 3333 true, .setWithdrawVestingRoute 2 4 3333 false,
    .setWithdrawVestingRoute 2 0 5000 true]

/-- The instalment of seventy-seven shares goes in two parts of twenty-five, and the account has the
other twenty-seven. -/
theorem routes_exact_threeRoutes : ∃ a, (poweredDown.run threeRoutes).RouteHistory ∧
    (poweredDown.run threeRoutes).accounts.find? 2 = some a ∧ a.withdrawRoutes = 2 ∧
    ((poweredDown.run threeRoutes).routesOf 2).length = 2 ∧
    unrouted 77 ((poweredDown.run threeRoutes).routesOf 2) = 27 ∧
    (((poweredDown.run threeRoutes).routesOf 2).map (keptPart 77)).sum +
      (((poweredDown.run threeRoutes).routesOf 2).map (paidPart 77)).sum + 27 = 77 := by
  have hstart : poweredDown.RouteHistory := .start (by decide +kernel) (by decide +kernel)
  have hhistory : (poweredDown.run threeRoutes).RouteHistory := by
    refine hstart.run fun step hstep => ?_
    simp only [threeRoutes, mem_cons, not_mem_nil, or_false] at hstep
    rcases hstep with rfl | rfl | rfl <;> exact trivial
  have hcount : ((poweredDown.run threeRoutes).accounts.find? 2).map
    (·.withdrawRoutes) = some 2 := by
    decide +kernel
  obtain ⟨a, ha, htwo⟩ := Option.map_eq_some_iff.mp hcount
  obtain ⟨-, hlength, -, hexact, -⟩ := routes_exact hhistory ha
  have hrest : unrouted 77 ((poweredDown.run threeRoutes).routesOf 2) = 27 := by decide +kernel
  exact ⟨a, hhistory, ha, htwo, hlength.symm.trans htwo, hrest, hrest ▸ hexact 77⟩

end Instalment

end Ledger

end Freezone.Chain.Funds
