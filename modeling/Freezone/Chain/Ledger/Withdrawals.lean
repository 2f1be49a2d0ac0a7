import Freezone.Chain.Ledger.Payments

/-!
# Power-downs

An instalment is split over the routes of its account. The shares that stay shares
are added to their receivers first and the others leave the vesting fund at its
price; the account itself gives up the whole instalment last. So all through the
instalment there are shares beyond their count, and in the end there are none.
-/

namespace Freezone.Chain.Funds.Ledger

open Protocol List Table

variable {L L' L'' : Ledger} {name : AccountName} {toWithdraw : Int}

/-- What goes along a route as shares. -/
def keptPart (toWithdraw : Int) (r : AccountName × WithdrawVestingRoute) : Int :=
  if r.2.autoVest then routedPart toWithdraw r.2 else 0

/-- What goes along a route as FREEZONE. -/
def paidPart (toWithdraw : Int) (r : AccountName × WithdrawVestingRoute) : Int :=
  if r.2.autoVest then 0 else routedPart toWithdraw r.2

theorem routedPart_nonneg (h : 0 ≤ toWithdraw) (r : WithdrawVestingRoute) :
    0 ≤ routedPart toWithdraw r :=
  Int.ediv_nonneg (mul_nonneg h (Int.natCast_nonneg _)) (by decide)

/-- Shares have been added to accounts, and others have left the fund and their count. -/
structure Deposits (kept paid : Int) (L L' : Ledger) : Prop where
  gap : ∀ b, L'.gap b = L.gap b + only .shares (kept + paid) b
  init : L'.props.initSbdSupply = L.props.initSbdSupply
  shares : L'.props.totalVestingShares = L.props.totalVestingShares - paid
  nonneg : L'.NonNegative
  redeemable : L'.Redeemable
  accounts : ∀ k a, L.accounts.find? k = some a →
    ∃ a', L'.accounts.find? k = some a' ∧ a.vestingShares ≤ a'.vestingShares

theorem Deposits.refl (hL : L.NonNegative) (hr : L.Redeemable) : Deposits 0 0 L L where
  gap b := by rw [add_zero, only_zero, add_zero]
  init := rfl
  shares := (sub_zero _).symm
  nonneg := hL
  redeemable := hr
  accounts k a ha := ⟨a, ha, le_rfl⟩

theorem Deposits.trans {kept paid kept' paid' : Int} (h : Deposits kept paid L L')
    (h' : Deposits kept' paid' L' L'') : Deposits (kept + kept') (paid + paid') L L'' where
  gap b := by
    rw [h'.gap, h.gap, add_assoc, only_add]
    congr 2
    ring
  init := h'.init.trans h.init
  shares := by
    rw [h'.shares, h.shares]
    ring
  nonneg := h'.nonneg
  redeemable := h'.redeemable
  accounts k a ha := by
    obtain ⟨a1, ha1, hle1⟩ := h.accounts k a ha
    obtain ⟨a2, ha2, hle2⟩ := h'.accounts k a1 ha1
    exact ⟨a2, ha2, hle1.trans hle2⟩

variable {a : Account} {r : AccountName × WithdrawVestingRoute}

/-- A replaced account that holds no fewer shares. -/
theorem find_setAccount_le {a' : Account} (ha : L.accounts.find? name = some a)
    (hle : a.vestingShares ≤ a'.vestingShares) (k : AccountName) (c : Account)
    (hc : L.accounts.find? k = some c) : ∃ c', (L.setAccount name a').accounts.find? k = some c' ∧
      c.vestingShares ≤ c'.vestingShares := by
  by_cases hk : k = name
  · subst hk
    obtain rfl : a = c := Option.some.inj (ha.symm.trans hc)
    exact ⟨a', find?_set_self ha, hle⟩
  · exact ⟨c, (find?_set_of_ne hk).trans hc, le_rfl⟩

/-- A route that stays in shares moves them to its account. -/
theorem depositVests_deposits
    (h : depositVests toWithdraw r L = .ok L') (hw : 0 ≤ toWithdraw) (hL : L.NonNegative)
    (hr : L.Redeemable) : Deposits (keptPart toWithdraw r) 0 L L' := by
  have hpart := routedPart_nonneg hw r.2
  unfold depositVests at h
  split_ifs at h with hauto
  · simp only [returns, getAccount_eq_ok] at h
    obtain ⟨a, ha, rfl⟩ := h
    have hm : Steady (only .shares (routedPart toWithdraw r.2)) L (L.setAccount r.1
        { a with vestingShares := a.vestingShares + routedPart toWithdraw r.2 }) := by
      refine (moves_setAccount ha fun _ hn => ?_).congr fun b => ?_
      · exact { hn with vestingShares := add_nonneg hn.vestingShares hpart }
      · cases b <;> simp [Account.entry, only]
    refine ⟨fun b => ?_, rfl, (sub_zero _).symm, hm.nonneg hL, hr, find_setAccount_le ha ?_⟩
    · rw [hm.gap, keptPart, if_pos hauto.1, add_zero]
    · exact le_add_of_nonneg_right hpart
  · cases h
    have hzero : keptPart toWithdraw r = 0 := by
      unfold keptPart
      split_ifs with hv
      · exact le_antisymm (not_lt.mp fun hpos => hauto ⟨hv, hpos⟩) hpart
      · rfl
    rw [hzero]
    exact Deposits.refl hL hr

/-- A route that pays out takes its value from the vesting fund. -/
theorem depositFreezone_deposits (h : depositFreezone toWithdraw r L = .ok L') (hw : 0 ≤ toWithdraw)
    (hle : paidPart toWithdraw r ≤ L.props.totalVestingShares) (hL : L.NonNegative)
    (hr : L.Redeemable) : Deposits 0 (paidPart toWithdraw r) L L' := by
  unfold depositFreezone at h
  unfold paidPart at hle ⊢
  split at h
  · rename_i hauto
    cases h
    rw [if_pos hauto]
    exact Deposits.refl hL hr
  · rename_i hauto
    rw [if_neg hauto] at hle ⊢
    simp only [returns, getAccount_eq_ok] at h
    obtain ⟨a, ha, value, hvalue, h⟩ := h
    split_ifs at h with hpos
    · cases h
      obtain ⟨hv0, hvle, hrest⟩ := vestingValue_le hvalue hL.vestingFund hr hle
      refine ⟨fun b => ?_, rfl, rfl, ?_, hrest, find_setAccount_le ha le_rfl⟩
      · simp only [gap, held, leaveVesting, setAccount, total_set ha]
        cases b <;> simp [Account.entry, Properties.entry, Properties.counted, only] <;> ring
      · have hn := hL.accounts _ _ ha
        exact { hL with
          accounts := hL.accounts.set _ { hn with balance := add_nonneg hn.balance hv0 }
          vestingFund := sub_nonneg.mpr hvle }
    · cases h
      rw [le_antisymm (not_lt.mp hpos) (routedPart_nonneg hw r.2)]
      exact Deposits.refl hL hr

/-- The first pass over the routes. -/
theorem depositVests_all {routes : List (AccountName × WithdrawVestingRoute)}
    (h : forEach (depositVests toWithdraw) routes L = .ok L') (hw : 0 ≤ toWithdraw)
    (hL : L.NonNegative) (hr : L.Redeemable) :
    Deposits (routes.map (keptPart toWithdraw)).sum 0 L L' := by
  induction routes generalizing L with
  | nil =>
    rw [forEach] at h
    cases h
    exact Deposits.refl hL hr
  | cons r rest ih =>
    simp only [forEach, returns] at h
    obtain ⟨L1, h1, h⟩ := h
    have hd := depositVests_deposits h1 hw hL hr
    exact hd.trans (ih h hd.nonneg hd.redeemable)

/-- The second pass, which redeems no more shares than there are. -/
theorem depositFreezone_all {routes : List (AccountName × WithdrawVestingRoute)}
    (h : forEach (depositFreezone toWithdraw) routes L = .ok L') (hw : 0 ≤ toWithdraw)
    (hle : (routes.map (paidPart toWithdraw)).sum ≤ L.props.totalVestingShares)
    (hL : L.NonNegative) (hr : L.Redeemable) :
    Deposits 0 (routes.map (paidPart toWithdraw)).sum L L' := by
  induction routes generalizing L with
  | nil =>
    rw [forEach] at h
    cases h
    exact Deposits.refl hL hr
  | cons r rest ih =>
    simp only [forEach, returns] at h
    obtain ⟨L1, h1, h⟩ := h
    rw [map_cons, sum_cons] at hle
    have hrest : 0 ≤ (rest.map (paidPart toWithdraw)).sum := by
      apply sum_nonneg
      intro x hx
      obtain ⟨r', -, rfl⟩ := mem_map.mp hx
      unfold paidPart
      split
      · exact le_rfl
      · exact routedPart_nonneg hw r'.2
    have hd := depositFreezone_deposits h1 hw (by omega) hL hr
    have hle1 : (rest.map (paidPart toWithdraw)).sum ≤ L1.props.totalVestingShares := by
      rw [hd.shares]
      omega
    exact hd.trans (ih h hle1 hd.nonneg hd.redeemable)

/-- Every part goes one of the two ways. -/
theorem sum_parts (routes : List (AccountName × WithdrawVestingRoute)) :
    (routes.map fun r => routedPart toWithdraw r.2).sum =
      (routes.map (keptPart toWithdraw)).sum + (routes.map (paidPart toWithdraw)).sum := by
  rw [← sum_map_add]
  congr 1
  refine map_congr_left fun r _ => ?_
  unfold keptPart paidPart
  split <;> simp

/-- An instalment is some of the account's shares. -/
theorem instalment_bounds (h : a.NonNegative) :
    0 ≤ instalment a ∧ instalment a ≤ a.vestingShares := by
  have hshares := h.vestingShares
  have hrate := h.vestingWithdrawRate
  unfold instalment
  split
  · refine ⟨le_min hshares ?_, min_le_left _ _⟩
    rcases hrate.lt_or_eq with hpos | hzero
    · exact Int.emod_nonneg _ hpos.ne'
    · rw [← hzero, Int.emod_zero]
      exact h.toWithdraw
  · exact ⟨le_min hshares hrate, min_le_left _ _⟩

/-- An account holds no more than all the shares. -/
theorem vestingShares_le (hL : L.NonNegative) (hshares : L.gap .shares = 0)
    (ha : L.accounts.find? name = some a) : a.vestingShares ≤ L.props.totalVestingShares := by
  rw [gap, held_eq_accounts _ (by decide)] at hshares
  have hle : a.vestingShares ≤ L.accounts.total (·.entry .shares) :=
    Table.le_total (f := (·.entry .shares)) (fun k c hc => (hL.accounts k c hc).entry _) ha
  simp only [Properties.counted] at hshares
  omega

/-- No amount is negative, all shares are counted, and they can be redeemed. -/
structure Solvent (L : Ledger) : Prop where
  nonneg : L.NonNegative
  shares : L.gap .shares = 0
  redeemable : L.Redeemable

/-- An instalment takes no more shares than there are. -/
theorem finishInstalment_nonneg {converted : Int} (h : a.NonNegative)
    (hle : toWithdraw ≤ a.vestingShares) (hc : 0 ≤ converted) :
    (finishInstalment toWithdraw converted a).NonNegative := by
  have hshares := sub_nonneg.mpr hle
  have hbalance := add_nonneg h.balance hc
  unfold finishInstalment
  dsimp only
  split
  · exact { h with vestingShares := hshares, balance := hbalance, vestingWithdrawRate := le_rfl }
  · exact { h with vestingShares := hshares, balance := hbalance }

/-- The books as an instalment finds and leaves them. -/
theorem finishInstalment_entry (a : Account) (converted : Int) (b : Book) :
    (finishInstalment toWithdraw converted a).entry b =
      a.entry b + (only .freezone converted b - only .shares toWithdraw b) := by
  unfold finishInstalment
  dsimp only
  split <;> cases b <;> simp [Account.entry, only] <;> ring

/-- The books are as far from their counts as before, and the SBD of the genesis are the same. -/
structure SameBooks (L L' : Ledger) : Prop where
  gap : ∀ b, L'.gap b = L.gap b
  init : L'.props.initSbdSupply = L.props.initSbdSupply

theorem SameBooks.refl (L : Ledger) : SameBooks L L := ⟨fun _ => rfl, rfl⟩

theorem SameBooks.trans (h : SameBooks L L') (h' : SameBooks L' L'') : SameBooks L L'' :=
  ⟨fun b => (h'.gap b).trans (h.gap b), h'.init.trans h.init⟩

/-- An instalment moves nothing out of the books. -/
theorem payInstalment_solvent (h : L.payInstalment name = .ok L') (hs : L.Solvent) :
    SameBooks L L' ∧ L'.Solvent := by
  simp only [payInstalment, returns, getAccount_eq_ok] at h
  obtain ⟨a, ha, L1, h1, L2, h2, -, hconvert, converted, hvalue, a', ha', rfl⟩ := h
  obtain ⟨hw, hwle⟩ := instalment_bounds (hs.nonneg.accounts _ _ ha)
  have hkept : 0 ≤ ((L.routesOf name).map (keptPart (instalment a))).sum := by
    refine sum_nonneg fun x hx => ?_
    obtain ⟨r, -, rfl⟩ := mem_map.mp hx
    unfold keptPart
    split
    · exact routedPart_nonneg hw r.2
    · exact le_rfl
  have hV := vestingShares_le hs.nonneg hs.shares ha
  rw [sum_parts] at hconvert hvalue ⊢
  have hd1 := depositVests_all h1 hw hs.nonneg hs.redeemable
  have hd2 := depositFreezone_all h2 hw (by rw [hd1.shares]; omega) hd1.nonneg hd1.redeemable
  have hd := hd1.trans hd2
  obtain ⟨a2, ha2, hmore⟩ := hd.accounts _ _ ha
  obtain rfl : a2 = a' := Option.some.inj (ha2.symm.trans ha')
  obtain ⟨hv0, hvle, hrest⟩ := vestingValue_le hvalue hd.nonneg.vestingFund hd.redeemable
    (by rw [hd.shares]; omega)
  have hgap : ∀ b, ((L2.setAccount name (finishInstalment (instalment a) converted a2)).leaveVesting
      (instalment a - (((L.routesOf name).map (keptPart (instalment a))).sum +
        ((L.routesOf name).map (paidPart (instalment a))).sum)) converted).gap b = L.gap b := by
    intro b
    have hb := hd.gap b
    simp only [gap, held, leaveVesting, setAccount, total_set ha2,
      finishInstalment_entry] at hb ⊢
    cases b <;> simp [Properties.entry, Properties.counted, only] at hb ⊢ <;> omega
  refine ⟨⟨hgap, hd.init⟩, ?_, ?_, hrest⟩
  · exact { hd.nonneg with
      accounts := hd.nonneg.accounts.set name
        (finishInstalment_nonneg (hd.nonneg.accounts _ _ ha2) (hwle.trans hmore) hv0)
      vestingFund := sub_nonneg.mpr hvle }
  · rw [hgap, hs.shares]

/-- What every instalment keeps, the loop over the accounts does. -/
theorem payInstalments_invariant {P : Ledger → Prop} {fuel : Nat} {account : Option AccountName}
    (step : ∀ name L L', P L → L.payInstalment name = .ok L' → P L') (hL : P L)
    (h : L.payInstalments fuel account = .ok L') : P L' := by
  induction fuel generalizing L account with
  | zero => exact Except.ok.inj h ▸ hL
  | succ fuel ih =>
    cases account with
    | none => exact Except.ok.inj h ▸ hL
    | some account =>
      simp only [payInstalments, returns] at h
      obtain ⟨a, -, h⟩ := h
      split at h
      · simp only [returns] at h
        obtain ⟨L1, h1, h⟩ := h
        exact ih (step _ _ _ hL h1) h
      · exact Except.ok.inj h ▸ hL

/-- The sweep keeps the ledger solvent. -/
theorem payInstalments_solvent {fuel : Nat} {account : Option AccountName}
    (h : L.payInstalments fuel account = .ok L') (hs : L.Solvent) :
    SameBooks L L' ∧ L'.Solvent := by
  refine payInstalments_invariant (P := fun L1 => SameBooks L L1 ∧ L1.Solvent)
    (fun name L1 L2 h1 h => ?_) ⟨SameBooks.refl L, hs⟩ h
  obtain ⟨hsame, hs2⟩ := payInstalment_solvent h h1.2
  exact ⟨h1.1.trans hsame, hs2⟩

theorem payInstalment_stays (h : L.payInstalment name = .ok L') : Stays L L' := by
  simp only [payInstalment, returns] at h
  obtain ⟨a, -, L1, h1, L2, h2, -, -, converted, -, a', -, rfl⟩ := h
  have hvests : Stays L L1 := by
    refine forEach_stays (fun r L L' h => ?_) h1
    unfold depositVests at h
    split at h
    · simp only [returns] at h
      obtain ⟨a, -, rfl⟩ := h
      exact ⟨⟨rfl, rfl, rfl⟩, rfl, (keys_set _ _ _).ge, rfl, le_rfl⟩
    · exact .of_ok h
  have hfreezone : Stays L1 L2 := by
    refine forEach_stays (fun r L L' h => ?_) h2
    unfold depositFreezone at h
    split at h
    · exact .of_ok h
    simp only [returns] at h
    obtain ⟨a, -, value, -, h⟩ := h
    split at h
    · exact Except.ok.inj h ▸ ⟨⟨rfl, rfl, rfl⟩, rfl, (keys_set _ _ _).ge, rfl, le_rfl⟩
    · exact .of_ok h
  exact (hvests.trans hfreezone).trans
    ⟨⟨rfl, rfl, rfl⟩, rfl, (keys_set _ _ _).ge, rfl, le_rfl⟩

end Freezone.Chain.Funds.Ledger
