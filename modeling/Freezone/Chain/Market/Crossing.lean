import Freezone.Chain.Market.Matching

/-!
# No two orders of a market cross

The walk of a new order starts at the best price of its market. As long as no order
is dearer than that, a new order meets every order that it crosses, and is gone or has
outlived them all when the walk ends. Amounts above the best price make an order that
later ones pass by.
-/

namespace Freezone.Chain.Market.Exchange

open Protocol
open Funds (AccountName OrderKey)

variable {σ B : Type} [LinearOrder σ] {bank : Bank σ B} {E E' : Exchange σ B}

/-- The book between two operations. -/
structure Calm (E : Exchange σ B) : Prop where
  resting : E.limitOrders.Holds LimitOrder.Resting
  apart : ∀ {k o k' o'}, E.limitOrders.find? k = some o → E.limitOrders.find? k' = some o' →
    ¬ o.sellPrice.Crosses o'.sellPrice

/-- A book from which orders only shrink or go stays calm. -/
theorem Calm.of_shrinks (hE : E.Calm) (h : Shrinks E E') : E'.Calm where
  resting := h.resting hE.resting
  apart ho ho' := by
    obtain ⟨o0, ho0, hp, -⟩ := h.find ho
    obtain ⟨o0', ho0', hp', -⟩ := h.find ho'
    rw [hp, hp']
    exact hE.apart ho0 ho0'

/-- The book during the walk of a new order: only orders that are still to come cross it. -/
structure Pending (newKey : OrderKey) (rest : List OrderKey) (E : Exchange σ B) : Prop where
  apart : ∀ {k o k' o'}, k ≠ newKey → k' ≠ newKey → E.limitOrders.find? k = some o →
    E.limitOrders.find? k' = some o' → ¬ o.sellPrice.Crosses o'.sellPrice
  pending : ∀ {n k o}, E.limitOrders.find? newKey = some n → E.limitOrders.find? k = some o →
    o.sellPrice.Crosses n.sellPrice → k ∈ rest

namespace Pending

variable {newKey oldKey : OrderKey} {rest : List OrderKey}

/-- The walk has come to its end. -/
theorem calm_of_nil (h : Pending newKey [] E) (hr : E.limitOrders.Holds LimitOrder.Resting) :
    E.Calm where
  resting := hr
  apart {k o k' o'} ho ho' hc := by
    by_cases hk : k = newKey
    · exact absurd (h.pending (hk ▸ ho) ho' hc.symm) List.not_mem_nil
    · by_cases hk' : k' = newKey
      · exact absurd (h.pending (hk' ▸ ho') ho hc) List.not_mem_nil
      · exact h.apart hk hk' ho ho' hc

/-- The new order is gone. -/
theorem calm_of_gone (h : Pending newKey rest E) (hs : Shrinks E E')
    (hr : E.limitOrders.Holds LimitOrder.Resting) (hgone : E'.limitOrders.find? newKey = none) :
    E'.Calm where
  resting := hs.resting hr
  apart {k o k' o'} ho ho' := by
    have hne : ∀ {k o}, E'.limitOrders.find? k = some o → k ≠ newKey := by
      rintro k o hk rfl
      rw [hgone] at hk
      cases hk
    obtain ⟨o0, ho0, hp, -⟩ := hs.find ho
    obtain ⟨o0', ho0', hp', -⟩ := hs.find ho'
    rw [hp, hp']
    exact h.apart (hne ho) (hne ho') ho0 ho0'

/-- A match that leaves the new order takes the old one out of its way. -/
theorem next (h : Pending newKey (oldKey :: rest) E) (ht : Traded newKey oldKey E E' false) :
    Pending newKey rest E' where
  apart hk hk' ho ho' := by
    obtain ⟨o0, ho0, hp, -⟩ := ht.shrinks.find ho
    obtain ⟨o0', ho0', hp', -⟩ := ht.shrinks.find ho'
    rw [hp, hp']
    exact h.apart hk hk' ho0 ho0'
  pending {n k o} hn ho hc := by
    obtain ⟨n0, hn0, hpn, -⟩ := ht.shrinks.find hn
    obtain ⟨o0, ho0, hpo, -⟩ := ht.shrinks.find ho
    rw [hpn, hpo] at hc
    rcases List.mem_cons.mp (h.pending hn0 ho0 hc) with rfl | hk
    · rw [(ht.left rfl).2] at ho
      cases ho
    · exact hk

end Pending

/-- The walk of a new order leaves a calm book. -/
theorem applyOrderWith_calm {newKey : OrderKey} {stops : Bool} {rest : List OrderKey}
    (hw : Walking newKey rest E) (hp : Pending newKey rest E)
    (h : E.applyOrderWith bank newKey stops rest = .ok E') : E'.Calm := by
  induction rest generalizing E with
  | nil =>
    simp only [applyOrderWith] at h
    split_ifs at h
    cases h
    exact hp.calm_of_nil hw.resting
  | cons oldKey rest ih =>
    simp only [applyOrderWith, getLimitOrder, returns, Prod.exists] at h
    obtain ⟨o, ho, E1, finished, hmatch, h⟩ := h
    have ht := hw.traded ho hmatch
    cases finished with
    | true =>
      rw [if_pos rfl] at h
      cases h
      exact hp.calm_of_gone ht.shrinks hw.resting (ht.gone rfl)
    | false =>
      rw [if_neg (by decide)] at h
      exact ih (hw.next ht) (hp.next ht) h

/-- No order on the other side of a price is dearer than the best price of the market. -/
def WithinMax (p : Price σ) (E : Exchange σ B) : Prop :=
  ∀ k o, E.limitOrders.find? k = some o → o.sellPrice.Opposite p → ¬ o.sellPrice.Gt p.flip.max

section Place

variable {owner : AccountName} {orderid expiration : Nat} {amountToSell : Asset σ}
  {sellPrice : Price σ} {fillOrKill : Bool}

/-- An order that asks for something at the price of what it sells may rest. -/
theorem placeOrder_calm (hE : E.Calm) (hmax : E.WithinMax sellPrice)
    (hr : ∀ id created, LimitOrder.Resting ⟨id, created, expiration,
    amountToSell.amount, sellPrice⟩)
    (h : E.placeOrder bank owner orderid amountToSell sellPrice expiration fillOrKill = .ok E') :
    E'.Calm := by
  simp only [placeOrder, applyOrder, getLimitOrder, returns, Prod.mk.injEq, Prod.exists] at h
  obtain ⟨funds, -, orders, hinsert, E2, filled, ⟨n, hn, E3, hwith, rfl, -⟩, -, -, rfl⟩ := h
  have hold : ∀ {k o}, k ≠ (owner, orderid) → orders.find? k = some o →
      E.limitOrders.find? k = some o := fun hk ho => by
    rwa [Table.find?_insert hinsert, if_neg hk] at ho
  have hprice : n.sellPrice = sellPrice := by
    have hfirst := hn
    rw [Table.find?_insert hinsert, if_pos rfl, Option.some.injEq] at hfirst
    rw [← hfirst]
  -- no order that the walk should meet is dearer than the price from which it starts
  have hbelow : ∀ {k o}, orders.find? k = some o →
      o.sellPrice.symbols = n.sellPrice.flip.symbols → ¬ o.sellPrice.Gt n.sellPrice.flip.max := by
    intro k o ho hsym
    have hopposite : o.sellPrice.Opposite n.sellPrice := by
      rwa [Price.symbols, Price.symbols, toLex_inj, Prod.mk.injEq] at hsym
    by_cases hk : k = (owner, orderid)
    · rw [hk, hn, Option.some.injEq] at ho
      rw [← ho] at hopposite
      exact absurd hopposite.1 n.sellPrice.symbol_ne
    · rw [hprice] at hopposite ⊢
      exact hmax k o (hold hk ho) hopposite
  have hstops : ¬ Overruns n { E with funds, limitOrders := orders, nextId := E.nextId + 1 } := by
    intro hover
    obtain ⟨k, o, ho, habove, hbetween⟩ := overruns_iff.mp hover
    have hsym := Price.symbols_eq_of_above habove hbetween
    exact hbelow ho hsym habove
  have hresting := hE.resting.insert hinsert (hr _ _)
  refine applyOrderWith_calm (walking_start hresting hn hstops) ?_ hwith
  refine ⟨fun hk hk' ho ho' => hE.apart (hold hk ho) (hold hk' ho'), fun hn' ho hc => ?_⟩
  rw [← Option.some.inj (hn.symm.trans hn')] at hc
  obtain ⟨hsym, hmin⟩ := Price.crosses_iff_between.mp hc
  exact (mem_matchingOrders hstops).mpr ⟨_, ho, hbelow ho hsym, hmin⟩

end Place

/-- A cancelled order leaves the book calm. -/
theorem cancelOrder_calm {key : OrderKey} (hE : E.Calm) (h : E.cancelOrder bank key = .ok E') :
    E'.Calm := by
  simp only [cancelOrder, returns] at h
  obtain ⟨-, -, -, -, rfl⟩ := h
  exact hE.of_shrinks (shrinks_erase rfl)

/-- Orders that leave the book cross no other. -/
theorem clearExpiredOrders_calm (hE : E.Calm) (h : E.clearExpiredOrders bank = .ok E') : E'.Calm :=
  forEach_invariant (P := Calm) (fun _ _ _ _ hE h => cancelOrder_calm hE h) hE h

end Freezone.Chain.Market.Exchange

namespace Freezone.Chain.Market

open Protocol

/-- The order of a valid `limit_order_create` asks for what it says. -/
theorem LimitOrderCreate.validate_resting {o : LimitOrderCreate} {p : Price AssetSymbol}
    (h : o.validate = .ok p) (id created expiration : Nat) :
    LimitOrder.Resting ⟨id, created, expiration, o.amountToSell.amount, p⟩ := by
  simp only [validate, returns] at h
  obtain ⟨-, -, hp⟩ := h
  obtain ⟨hb, hq⟩ := Price.make_eq_ok hp
  have hbpos := p.base_pos
  have hlt : p.base.amount < 2 ^ 63 := hb ▸ o.amountToSell.lt
  have hlt' : p.quote.amount < 2 ^ 63 := hq ▸ o.minToReceive.lt
  have hasks : p.asks p.base.amount = p.quote.amount := Int.mul_ediv_cancel_left _ hbpos.ne'
  have hsell : o.amountToSell.amount = p.base.amount := congrArg Asset.amount hb.symm
  rw [hsell]
  refine ⟨hbpos, hlt, hlt, hlt', _, Asset.mul64_eq_asks rfl hbpos.le hlt hlt' ?_, ?_⟩
  · change p.asks p.base.amount < 2 ^ 63
    rwa [hasks]
  · change 1 ≤ p.asks p.base.amount
    rw [hasks]
    exact p.quote_pos

/-- The order of a valid `limit_order_create2` asks for something. -/
theorem LimitOrderCreate2.validate_resting {B : Type} {o : LimitOrderCreate2}
    {rate p : Price AssetSymbol} {E : Exchange AssetSymbol B} (h : o.validate = .ok rate)
    (hprice : E.sellingPrice o.amountToSell rate = .ok p) (id created expiration : Nat) :
    LimitOrder.Resting ⟨id, created, expiration, o.amountToSell.amount, p⟩ := by
  simp only [validate, returns] at h
  obtain ⟨rate', hrate, -, -, received, hmul, -, hpos, rfl⟩ := h
  obtain ⟨hb, hq⟩ := Price.make_eq_ok hrate
  have hblt : rate'.base.amount < 2 ^ 63 := hb ▸ o.exchangeBase.lt
  have hqlt : rate'.quote.amount < 2 ^ 63 := hq ▸ o.exchangeQuote.lt
  -- the price is the rate or its inverse, whichever has the asset for sale as its base
  have hcase : o.amountToSell.symbol = p.base.symbol ∧
      o.amountToSell.toAsset.mul64 p = .ok received ∧ p.base.amount < 2 ^ 63 ∧
        p.quote.amount < 2 ^ 63 := by
    unfold Exchange.sellingPrice at hprice
    split at hprice
    · simp only [returns] at hprice
      obtain ⟨-, -, -, -, -, hsym, hp⟩ := hprice
      by_cases hne : o.amountToSell.symbol ≠ rate'.base.symbol
      · rw [if_pos hne] at hp hsym
        subst hp
        exact ⟨hsym, by rwa [← Asset.mul64_quote hsym], hqlt, hblt⟩
      · rw [if_neg hne] at hp hsym
        subst hp
        exact ⟨hsym, hmul, hblt, hqlt⟩
    · simp only [returns] at hprice
      obtain ⟨-, hsym, -, -, rfl⟩ := hprice
      exact ⟨hsym, hmul, hblt, hqlt⟩
  obtain ⟨hsym, hmul', hb', hq'⟩ := hcase
  obtain ⟨hamount, -, -⟩ := Asset.asks_of_mul64 hsym o.amountToSell.ge o.amountToSell.lt hb' hq'
    hmul' hpos
  refine ⟨hamount, o.amountToSell.lt, hb', hq', received, ?_, hpos⟩
  change (⟨o.amountToSell.amount, p.base.symbol⟩ : Asset AssetSymbol).mul64 p = _
  rw [← hsym]
  exact hmul'

namespace Exchange

variable {B : Type} {bank : Bank AssetSymbol B} {E E' : Exchange AssetSymbol B}

/-- A new order finds no order on the other side that is dearer than the best price. -/
def Admits (E : Exchange AssetSymbol B) : MarketStep B → Prop
  | .limitOrderCreate o => ∀ p, o.validate = .ok p → E.WithinMax p
  | .limitOrderCreate2 o => ∀ rate p, o.validate = .ok rate →
    E.sellingPrice o.amountToSell rate = .ok p → E.WithinMax p
  | _ => True

/-- The steps of a run are admitted where they are made. -/
def AdmitsAll (bank : Bank AssetSymbol B) : Exchange AssetSymbol B → List (MarketStep B) → Prop
  | _, [] => True
  | E, step :: steps => E.Admits step ∧ AdmitsAll bank (E.afterStep bank step) steps

/-- Every step keeps the book calm. -/
theorem apply_calm {step : MarketStep B} (hE : E.Calm) (hstep : E.Admits step)
    (h : E.apply bank step = .ok E') : E'.Calm := by
  cases step with
  | limitOrderCreate o =>
    simp only [apply, limitOrderCreate, returns] at h
    obtain ⟨p, hp, -, -, -, -, h⟩ := h
    exact placeOrder_calm hE (hstep p hp) (fun id created => o.validate_resting hp id created _) h
  | limitOrderCreate2 o =>
    simp only [apply, limitOrderCreate2, returns] at h
    obtain ⟨rate, hrate, -, -, p, hp, h⟩ := h
    exact placeOrder_calm hE (hstep rate p hrate hp)
      (fun id created => o.validate_resting hrate hp id created _) h
  | limitOrderCancel => exact cancelOrder_calm hE h
  | clearExpiredOrders => exact clearExpiredOrders_calm hE h
  | elsewhere =>
    simp only [apply] at h
    cases h
    exact ⟨hE.resting, hE.apart⟩

/-- So does every run of admitted steps. -/
theorem run_calm {steps : List (MarketStep B)} (hE : E.Calm) (h : AdmitsAll bank E steps) :
    (E.run bank steps).Calm := by
  induction steps generalizing E with
  | nil => exact hE
  | cons step steps ih =>
    refine ih ?_ h.2
    unfold afterStep
    split
    · rename_i E' hstep
      exact apply_calm hE h.1 hstep
    · exact hE

/-- An empty book is calm. -/
theorem opening_calm (funds : B) : (opening funds).Calm where
  resting := Table.holds_empty _
  apart ho := by cases ho

/-- In every run of orders that come and go in whatever markets, each new one on a book without
an order on its other side that is dearer than the best price, no two orders that rest cross and
every one that rests asks for something. -/
theorem run_apart (bank : Bank AssetSymbol B) (funds : B) (steps : List (MarketStep B))
    (h : AdmitsAll bank (opening funds) steps) :
    (∀ k o k' o', ((opening funds).run bank steps).limitOrders.find? k = some o →
      ((opening funds).run bank steps).limitOrders.find? k' = some o' →
        ¬ o.sellPrice.Crosses o'.sellPrice) ∧
      ∀ k o, ((opening funds).run bank steps).limitOrders.find? k = some o →
        ∃ a, o.amountToReceive = .ok a ∧ a.amount ≠ 0 := by
  have hcalm := run_calm (opening_calm funds) h
  refine ⟨fun k o k' o' => hcalm.apart, fun k o ho => ?_⟩
  obtain ⟨a, ha, hone⟩ := (hcalm.resting k o ho).receives
  exact ⟨a, ha, by omega⟩

/-- An order of an account for one of the two assets of the market of dollars. -/
def sell (owner : Funds.AccountName) (amountToSell minToReceive : Amount) :
    MarketStep (Holdings AssetSymbol) :=
  .limitOrderCreate ⟨owner, 1, amountToSell, minToReceive, false, 9, 0⟩

/-- Three orders of which the second and the third cross the first. -/
def threeOrders : List (MarketStep (Holdings AssetSymbol)) :=
  [sell 1 ⟨⟨10, .freezone⟩, by decide, by decide⟩ ⟨⟨5, .sbd⟩, by decide, by decide⟩,
    sell 2 ⟨⟨3, .sbd⟩, by decide, by decide⟩ ⟨⟨5, .freezone⟩, by decide, by decide⟩,
    sell 3 ⟨⟨4, .sbd⟩, by decide, by decide⟩ ⟨⟨4, .freezone⟩, by decide, by decide⟩]

/-- What is left of the third order rests. -/
theorem run_apart_threeOrders :
    let E := (opening fun _ _ => 100).run Holdings.bank threeOrders
    E.limitOrders.entries.map (fun e => (e.1, e.2.forSale)) = [((3, 1), 2)] ∧
      ∀ k o k' o', E.limitOrders.find? k = some o → E.limitOrders.find? k' = some o' →
        ¬ o.sellPrice.Crosses o'.sellPrice := by
  refine ⟨by decide +kernel, (run_apart Holdings.bank (fun _ _ => 100) threeOrders ?_).1⟩
  have hwithin : ∀ {E : Exchange AssetSymbol (Holdings AssetSymbol)} {p : Price AssetSymbol},
      (∀ e ∈ E.limitOrders.entries, ¬ e.2.sellPrice.Gt p.flip.max) → E.WithinMax p :=
    fun h k o ho _ => h (k, o) (Table.find?_eq_some.mp ho)
  refine ⟨?_, ?_, ?_, trivial⟩
  all_goals
    rintro p ⟨⟩
    exact hwithin (by decide +kernel)

/-- The first order is dearer than the best price, so that the second, which it crosses, comes to
rest. -/
theorem run_crossing :
    let E := (opening fun _ _ => 5000000000000000000).run Holdings.bank
      [sell 1 ⟨⟨5000000000000000000, .freezone⟩, by decide, by decide⟩
        ⟨⟨1, .sbd⟩, by decide, by decide⟩,
      sell 2 ⟨⟨1, .sbd⟩, by decide, by decide⟩ ⟨⟨1, .freezone⟩, by decide, by decide⟩]
    ∃ o o', E.limitOrders.find? (1, 1) = some o ∧ E.limitOrders.find? (2, 1) = some o' ∧
      o.sellPrice.Crosses o'.sellPrice := by
  exact ⟨_, _, rfl, rfl, Price.crosses_iff.mpr ⟨⟨rfl, rfl⟩, by decide +kernel⟩⟩

end Exchange

end Freezone.Chain.Market
