import Freezone.Chain.Market.Model

/-!
# Trades

A match of two resting orders that cross is a trade: each side gives up an amount
of its own asset for an amount of the other, both get at least what their price
asks for it, and one of the two orders is used up. None of the checks of `match`
and `fill_order` can fail there.
-/

namespace Freezone.Chain.Market

open Protocol
open Funds (OrderKey)

variable {σ B : Type}

section Amounts

variable [LinearOrder σ]

/-- An order that may rest in the book: its amounts are 64-bit numbers, something is for sale
and it asks for something. -/
structure LimitOrder.Resting (o : LimitOrder σ) : Prop where
  pos : 0 < o.forSale
  forSale_lt : o.forSale < 2 ^ 63
  base_lt : o.sellPrice.base.amount < 2 ^ 63
  quote_lt : o.sellPrice.quote.amount < 2 ^ 63
  receives : ∃ a, o.amountToReceive = .ok a ∧ 1 ≤ a.amount

namespace LimitOrder.Resting

variable {o : LimitOrder σ}

/-- A resting order asks for at least one satoshi, within 63 bits. -/
theorem asks (h : o.Resting) :
    1 ≤ o.sellPrice.asks o.forSale ∧ o.sellPrice.asks o.forSale < 2 ^ 63 := by
  obtain ⟨a, ha, hone⟩ := h.receives
  have hge : -2 ^ 63 ≤ o.amountForSale.amount := by
    have := h.pos
    simp only [amountForSale]
    omega
  obtain ⟨-, rfl, hlt⟩ :=
    Asset.asks_of_mul64 (a := o.amountForSale) rfl hge h.forSale_lt h.base_lt h.quote_lt ha
      (by omega)
  exact ⟨hone, hlt⟩

/-- What part of an order asks for. -/
theorem mul64_part (h : o.Resting) {x : Int} (hx : 0 ≤ x) (hle : x ≤ o.forSale) :
    (⟨x, o.sellPrice.base.symbol⟩ : Asset σ).mul64 o.sellPrice =
      .ok ⟨o.sellPrice.asks x, o.sellPrice.quote.symbol⟩ :=
  Asset.mul64_eq_asks rfl hx (hle.trans_lt h.forSale_lt) h.quote_lt
    ((o.sellPrice.asks_le_asks hle).trans_lt h.asks.2)

/-- What is left of an order rests on if it asks for something. -/
theorem rest (h : o.Resting) {x : Int} (hx : 0 < x) (hle : x ≤ o.forSale)
    (hasks : o.sellPrice.asks x ≠ 0) : LimitOrder.Resting { o with forSale := x } where
  pos := hx
  forSale_lt := hle.trans_lt h.forSale_lt
  base_lt := h.base_lt
  quote_lt := h.quote_lt
  receives := by
    have := o.sellPrice.asks_nonneg hx.le
    exact ⟨_, h.mul64_part hx.le hle, by dsimp only; omega⟩

end LimitOrder.Resting

/-- What a trade between a new and an old order grants each of them. -/
structure Fair (n o : LimitOrder σ) (newPays oldPays : Int) : Prop where
  newReceives : 1 ≤ oldPays
  oldReceives : 1 ≤ newPays
  newLimit : n.sellPrice.asks newPays ≤ oldPays
  oldLimit : o.sellPrice.asks oldPays ≤ newPays
  newPays_le : newPays ≤ n.forSale
  oldPays_le : oldPays ≤ o.forSale
  closes : newPays = n.forSale ∨ oldPays = o.forSale

variable {n o : LimitOrder σ}

/-- The new order is sold out. -/
theorem fair_new (hn : n.Resting) (hc : o.sellPrice.Crosses n.sellPrice)
    (hle : n.forSale ≤ o.sellPrice.asks o.forSale) :
    Fair n o n.forSale (o.sellPrice.flip.asks n.forSale) where
  newReceives := hn.asks.1.trans (hc.asks_le hn.pos.le)
  oldReceives := hn.pos
  newLimit := hc.asks_le hn.pos.le
  oldLimit := o.sellPrice.flip.flip_asks_asks_le n.forSale
  newPays_le := le_rfl
  oldPays_le := (o.sellPrice.flip.asks_le_asks hle).trans (o.sellPrice.flip_asks_asks_le o.forSale)
  closes := Or.inl rfl

/-- The old order is sold out. -/
theorem fair_old (ho : o.Resting) (hc : o.sellPrice.Crosses n.sellPrice)
    (hlt : o.sellPrice.asks o.forSale < n.forSale) :
    Fair n o (o.sellPrice.asks o.forSale) o.forSale where
  newReceives := ho.pos
  oldReceives := ho.asks.1
  newLimit := (hc.asks_le (o.sellPrice.asks_nonneg ho.pos.le)).trans
    (o.sellPrice.flip_asks_asks_le o.forSale)
  oldLimit := le_rfl
  newPays_le := hlt.le
  oldPays_le := le_rfl
  closes := Or.inr rfl

/-- The amounts that `match` computes for two orders that cross. -/
theorem matchAmounts_fair (hn : n.Resting) (ho : o.Resting)
    (hc : o.sellPrice.Crosses n.sellPrice) : ∃ newPays oldPays,
      Exchange.matchAmounts n o o.sellPrice =
        .ok (⟨newPays, n.sellPrice.base.symbol⟩, ⟨oldPays, o.sellPrice.base.symbol⟩) ∧
      Fair n o newPays oldPays := by
  have hsym : n.amountForSale.symbol = o.sellPrice.quote.symbol := hc.1.2.symm
  have hvalue : o.amountForSale.mul64 o.sellPrice = _ := ho.mul64_part ho.pos.le le_rfl
  unfold Exchange.matchAmounts
  rw [hvalue]
  simp only [bind, Except.bind, ensure, if_pos hsym]
  by_cases hle : n.forSale ≤ o.sellPrice.asks o.forSale
  · have hfair := fair_new hn hc hle
    have hmul : n.amountForSale.mul64 o.sellPrice =
        .ok ⟨o.sellPrice.flip.asks n.forSale, o.sellPrice.base.symbol⟩ := by
      rw [Asset.mul64_quote hsym]
      exact Asset.mul64_eq_asks hsym hn.pos.le hn.forSale_lt ho.base_lt
        (hfair.oldPays_le.trans_lt ho.forSale_lt)
    rw [if_pos hle, hmul]
    exact ⟨_, _, rfl, hfair⟩
  · rw [if_neg hle]
    refine ⟨_, _, ?_, fair_old ho hc (not_le.mp hle)⟩
    rw [← hsym]
    rfl

end Amounts

namespace Exchange

variable (bank : Bank σ B)

/-- An order pays an amount for what its seller receives; it is gone when it is sold out or when
what is left asks for nothing, which is then refunded. -/
def pay (key : OrderKey) (order : LimitOrder σ) (pays : Int) (receives : Asset σ)
    (E : Exchange σ B) : Except String (Exchange σ B × Bool) := do
  let funds ← bank.adjustBalance key.1 receives E.funds
  let rest := order.forSale - pays
  if rest = 0 then
    .ok ({ E with funds := funds, limitOrders := E.limitOrders.erase key }, true)
  else if order.sellPrice.asks rest = 0 then do
    let funds ← bank.adjustBalance key.1 ⟨rest, order.sellPrice.base.symbol⟩ funds
    .ok ({ E with funds := funds, limitOrders := E.limitOrders.erase key }, true)
  else
    .ok ({ E with
      funds := funds
      limitOrders := E.limitOrders.set key { order with forSale := rest } }, false)

/-- The new order pays for what the old one pays, and the other way round. -/
def trade (newKey oldKey : OrderKey) (n o : LimitOrder σ) (newPays oldPays : Int)
    (E : Exchange σ B) : Except String (Exchange σ B × Bool) := do
  let (E, newFilled) ← E.pay bank newKey n newPays ⟨oldPays, o.sellPrice.base.symbol⟩
  let (E, _) ← E.pay bank oldKey o oldPays ⟨newPays, n.sellPrice.base.symbol⟩
  .ok (E, newFilled)

variable {bank} {E E' : Exchange σ B} {key newKey oldKey : OrderKey} {order n o : LimitOrder σ}

variable {pays : Int} {receives : Asset σ}

/-- What paying does to the book. -/
theorem pay_eq_ok {filled : Bool} (h : E.pay bank key order pays receives = .ok (E', filled)) :
    (filled = true ∧ E'.limitOrders = E.limitOrders.erase key) ∨
      (filled = false ∧ order.forSale - pays ≠ 0 ∧
        order.sellPrice.asks (order.forSale - pays) ≠ 0 ∧
        E'.limitOrders =
          E.limitOrders.set key { order with forSale := order.forSale - pays }) := by
  simp only [pay, returns] at h
  obtain ⟨funds, -, h⟩ := h
  split at h
  · simp only [Except.ok.injEq, Prod.mk.injEq] at h
    obtain ⟨rfl, rfl⟩ := h
    exact .inl ⟨rfl, rfl⟩
  · rename_i hrest
    split_ifs at h with hasks
    · simp only [returns, Prod.mk.injEq] at h
      obtain ⟨-, -, rfl, rfl⟩ := h
      exact .inl ⟨rfl, rfl⟩
    · simp only [Except.ok.injEq, Prod.mk.injEq] at h
      obtain ⟨rfl, rfl⟩ := h
      exact .inr ⟨rfl, hrest, hasks, rfl⟩

/-- The other orders stay. -/
theorem pay_find?_of_ne {filled : Bool}
    (h : E.pay bank key order pays receives = .ok (E', filled)) {k : OrderKey} (hk : k ≠ key) :
    E'.limitOrders.find? k = E.limitOrders.find? k := by
  obtain ⟨-, he⟩ | ⟨-, -, -, he⟩ := pay_eq_ok h
  · rw [he, Table.find?_erase, if_neg hk]
  · rw [he, Table.find?_set_of_ne hk]

variable [LinearOrder σ]

/-- `fill_order` of an order that has enough for sale is that payment. -/
theorem fillOrder_eq (hfind : E.limitOrders.find? key = some order) (hr : order.Resting)
    (hne : order.sellPrice.base.symbol ≠ receives.symbol)
    (hpos : 0 < pays) (hle : pays ≤ order.forSale) :
    E.fillOrder bank key ⟨pays, order.sellPrice.base.symbol⟩ receives =
      E.pay bank key order pays receives := by
  unfold fillOrder pay getLimitOrder
  rw [hfind]
  cases hadjust : bank.adjustBalance key.1 receives E.funds with
  | error e => simp [bind, Except.bind, orThrow, ensure, LimitOrder.amountForSale, hne]
  | ok funds =>
    by_cases hrest : order.forSale - pays = 0
    · have hpays : pays = order.forSale := by omega
      simp [bind, Except.bind, orThrow, ensure, LimitOrder.amountForSale, hne, hpays]
    have hpays : ¬ pays = order.forSale := by omega
    have hlt : pays < order.forSale := by omega
    have hmul : LimitOrder.amountToReceive { order with forSale := order.forSale - pays } =
        .ok ⟨order.sellPrice.asks (order.forSale - pays), order.sellPrice.quote.symbol⟩ :=
      hr.mul64_part (x := order.forSale - pays) (by omega) (by omega)
    by_cases hasks : order.sellPrice.asks (order.forSale - pays) = 0
    · have herase : (E.limitOrders.set key { order with forSale := order.forSale - pays }).erase
          key = E.limitOrders.erase key := Table.erase_set _ _ _
      simp only [bind, Except.bind, orThrow, ensure, LimitOrder.amountForSale, hne, hpays, hlt,
        hrest, hmul, hasks, cancelOrder, getLimitOrder, Table.find?_set_self hfind, herase,
        Asset.mk.injEq, ne_eq, not_false_eq_true, false_and, if_true, if_false]
      cases bank.adjustBalance key.1 ⟨order.forSale - pays, order.sellPrice.base.symbol⟩ funds with
      | error e => rfl
      | ok funds' => rfl
    · simp [bind, Except.bind, orThrow, ensure, LimitOrder.amountForSale, hne, hpays, hlt, hrest,
        hmul, hasks]

/-- `match` of two orders that cross is a fair trade between them. -/
theorem matchOrders_eq (hn : E.limitOrders.find? newKey = some n)
    (ho : E.limitOrders.find? oldKey = some o) (hrn : n.Resting) (hro : o.Resting)
    (hc : o.sellPrice.Crosses n.sellPrice) (bank : Bank σ B) : ∃ newPays oldPays,
      Fair n o newPays oldPays ∧
      E.matchOrders bank newKey oldKey o.sellPrice =
        E.trade bank newKey oldKey n o newPays oldPays := by
  obtain ⟨newPays, oldPays, hamounts, hfair⟩ := matchAmounts_fair hrn hro hc
  have hkeys : oldKey ≠ newKey := by
    rintro rfl
    rw [hn, Option.some.injEq] at ho
    exact Price.not_crosses_self _ (ho ▸ hc)
  have hcloses : (⟨newPays, n.sellPrice.base.symbol⟩ : Asset σ) = n.amountForSale ∨
      (⟨oldPays, o.sellPrice.base.symbol⟩ : Asset σ) = o.amountForSale := by
    rcases hfair.closes with h | h
    · exact .inl (by rw [h]; rfl)
    · exact .inr (by rw [h]; rfl)
  have hnew : n.sellPrice.base.symbol ≠ o.sellPrice.base.symbol := by
    rw [← hc.1.2]
    exact o.sellPrice.symbol_ne.symm
  have hfill : E.fillOrder bank newKey ⟨newPays, n.sellPrice.base.symbol⟩
      ⟨oldPays, o.sellPrice.base.symbol⟩ =
        E.pay bank newKey n newPays ⟨oldPays, o.sellPrice.base.symbol⟩ :=
    fillOrder_eq hn hrn hnew hfair.oldReceives hfair.newPays_le
  refine ⟨newPays, oldPays, hfair, ?_⟩
  unfold matchOrders trade getLimitOrder
  rw [hn, ho]
  simp only [bind, Except.bind, orThrow, ensure, ← hc.1.1, hc.1.2, hrn.pos, hro.pos, hamounts,
    if_pos hcloses, and_self, if_true, hfill]
  cases hpay : E.pay bank newKey n newPays ⟨oldPays, o.sellPrice.base.symbol⟩ with
  | error e => rfl
  | ok r =>
    obtain ⟨E1, newFilled⟩ := r
    have ho1 : E1.limitOrders.find? oldKey = some o := by rw [pay_find?_of_ne hpay hkeys, ho]
    have hfill1 : E1.fillOrder bank oldKey ⟨oldPays, o.sellPrice.base.symbol⟩
        ⟨newPays, n.sellPrice.base.symbol⟩ =
          E1.pay bank oldKey o oldPays ⟨newPays, n.sellPrice.base.symbol⟩ :=
      fillOrder_eq ho1 hro hnew.symm hfair.newReceives hfair.oldPays_le
    simp only [hfill1]
    cases hpay' : E1.pay bank oldKey o oldPays ⟨newPays, n.sellPrice.base.symbol⟩ with
    | error e => rfl
    | ok r =>
      obtain ⟨E2, oldFilled⟩ := r
      have hfilled : newFilled = true ∨ oldFilled = true := by
        rcases hfair.closes with h | h
        · obtain ⟨hf, -⟩ | ⟨-, hrest, -⟩ := pay_eq_ok hpay
          · exact .inl hf
          · omega
        · obtain ⟨hf, -⟩ | ⟨-, hrest, -⟩ := pay_eq_ok hpay'
          · exact .inr hf
          · omega
      simp only [if_pos hfilled]

end Exchange

end Freezone.Chain.Market
