import Freezone.Chain.Ledger.Model

/-!
# The internal market

Limit orders sell one liquid currency for the other. A new order is matched with
the resting orders of the other side from the best price on, at their prices.
-/

namespace Freezone.Chain.Funds

open Protocol

/-- `freezone_MAX_LIMIT_ORDER_EXPIRATION`. -/
def maxLimitOrderExpiration : Nat := 60 * 60 * 24 * 28

/-- `freezone_HARDFORK_0_20_TIME`. -/
def hardfork20Time : Nat := 1537887600

/-- The key of an order: its seller and the number the seller gave it. -/
abbrev OrderKey := AccountName × Nat

namespace LimitOrder

def amountForSale (o : LimitOrder) : Asset Liquid := ⟨o.forSale, o.sellPrice.base.symbol⟩

def amountToReceive (o : LimitOrder) : Except String (Asset Liquid) :=
  o.amountForSale.mul o.sellPrice

end LimitOrder

/-- `limit_order_create_operation`. The offset stands for the block id that it is drawn from. -/
structure LimitOrderCreate where
  owner : AccountName
  orderid : Nat
  amountToSell : Asset Liquid
  minToReceive : Asset Liquid
  fillOrKill : Bool
  expiration : Nat
  randOffset : Nat

/-- `limit_order_create2_operation`. -/
structure LimitOrderCreate2 where
  owner : AccountName
  orderid : Nat
  amountToSell : Asset Liquid
  exchangeRate : Price Liquid
  fillOrKill : Bool
  expiration : Nat

namespace Ledger

def getLimitOrder (key : OrderKey) (L : Ledger) : Except String LimitOrder :=
  orThrow "unknown key" (L.limitOrders.find? key)

/-- `cancel_order`. -/
def cancelOrder (key : OrderKey) (L : Ledger) : Except String Ledger := do
  let order ← L.getLimitOrder key
  let L ← L.adjustBalance key.1 order.amountForSale
  .ok { L with limitOrders := L.limitOrders.erase key }

/-- `fill_order`; the flag says that the order is gone. -/
def fillOrder (key : OrderKey) (pays receives : Asset Liquid) (L : Ledger) :
    Except String (Ledger × Bool) := do
  let order ← L.getLimitOrder key
  ensure (order.amountForSale.symbol = pays.symbol)
    "error filling orders: ${order} ${pays} ${receives}"
  ensure (pays.symbol ≠ receives.symbol) "error filling orders: ${order} ${pays} ${receives}"
  let L ← L.adjustBalance key.1 receives
  if pays = order.amountForSale then
    .ok ({ L with limitOrders := L.limitOrders.erase key }, true)
  else do
    ensure (pays.amount < order.forSale) "error filling orders: ${order} ${pays} ${receives}"
    let order := { order with forSale := order.forSale - pays.amount }
    let L := { L with limitOrders := L.limitOrders.set key order }
    let rest ← order.amountToReceive
    -- what is left is too small to be sold at the price of the order
    if rest.amount = 0 then do
      let L ← L.cancelOrder key
      .ok (L, true)
    else .ok (L, false)

/-- What the two orders of a match pay, the new one first. -/
def matchAmounts (newOrder oldOrder : LimitOrder) :
    Except String (Asset Liquid × Asset Liquid) := do
  let oldValue ← oldOrder.amountForSale.mul oldOrder.sellPrice
  if newOrder.forSale ≤ oldValue.amount then do
    let newReceives ← newOrder.amountForSale.mul oldOrder.sellPrice
    .ok (newOrder.amountForSale, newReceives)
  else .ok (oldValue, oldOrder.amountForSale)

/-- `match`, at the price of the old order; the flag says that the new order is gone. -/
def matchOrders (newKey oldKey : OrderKey) (L : Ledger) : Except String (Ledger × Bool) := do
  let newOrder ← L.getLimitOrder newKey
  let oldOrder ← L.getLimitOrder oldKey
  ensure (newOrder.sellPrice.quote.symbol = oldOrder.sellPrice.base.symbol)
    "error matching orders: ${new_order} ${old_order} ${match_price}"
  ensure (newOrder.sellPrice.base.symbol = oldOrder.sellPrice.quote.symbol)
    "error matching orders: ${new_order} ${old_order} ${match_price}"
  ensure (0 < newOrder.forSale ∧ 0 < oldOrder.forSale)
    "error matching orders: ${new_order} ${old_order} ${match_price}"
  let (newPays, oldPays) ← matchAmounts newOrder oldOrder
  ensure (newPays = newOrder.amountForSale ∨ oldPays = oldOrder.amountForSale)
    "error matching orders: ${new_order} ${old_order} ${match_price}"
  let (L, newFilled) ← L.fillOrder newKey newPays oldPays
  let (L, oldFilled) ← L.fillOrder oldKey oldPays newPays
  ensure (newFilled ∨ oldFilled) "error matching orders: ${new_order} ${old_order} ${match_price}"
  .ok (L, newFilled)

/-- The resting orders that an order can be matched with, by price and then by age. -/
def matchingOrders (order : LimitOrder) (L : Ledger) : List OrderKey :=
  ((L.limitOrders.entries.filter fun e =>
      e.2.sellPrice.base.symbol = order.sellPrice.quote.symbol ∧
        e.2.sellPrice.quote.symbol = order.sellPrice.base.symbol ∧
        e.2.sellPrice.Ge order.sellPrice.flip).insertionSort
    fun e f => e.2.sellPrice.Ge f.2.sellPrice).map Prod.fst

/-- The loop of `apply_order`. -/
def applyOrderWith (newKey : OrderKey) : List OrderKey → Ledger → Except String Ledger
  | [], L => .ok L
  | oldKey :: rest, L => do
    let (L, finished) ← L.matchOrders newKey oldKey
    if finished then .ok L else applyOrderWith newKey rest L

/-- `apply_order`; the flag says that the order was filled. -/
def applyOrder (key : OrderKey) (L : Ledger) : Except String (Ledger × Bool) := do
  let order ← L.getLimitOrder key
  let L ← L.applyOrderWith key (L.matchingOrders order)
  .ok (L, (L.limitOrders.find? key).isNone)

/-- The part that the two operations that create an order share. -/
def placeOrder (owner : AccountName) (orderid : Nat) (amountToSell : Asset Liquid)
    (sellPrice : Price Liquid) (expiration : Nat) (fillOrKill : Bool) (L : Ledger) :
    Except String Ledger := do
  let L ← L.adjustBalance owner (-amountToSell)
  let orders ← orThrow uniqueness (L.limitOrders.insert (owner, orderid)
    ⟨L.props.time, expiration, amountToSell.amount, sellPrice⟩)
  let (L, filled) ← { L with limitOrders := orders }.applyOrder (owner, orderid)
  ensure (fillOrKill = true → filled = true) "Cancelling order because it was not filled."
  .ok L

/-- The checks of the expiration that the two operations share. -/
def checkExpiration (expiration : Nat) (L : Ledger) : Except String Unit := do
  ensure (L.props.time < expiration) "Limit order has to expire after head block time."
  ensure (L.HasHardfork 20 → expiration ≤ L.props.time + maxLimitOrderExpiration)
    "Limit Order Expiration must not be more than 28 days in the future"

/-- `limit_order_create_evaluator`. -/
def limitOrderCreate (o : LimitOrderCreate) (L : Ledger) : Except String Ledger := do
  let price ← Price.make o.amountToSell o.minToReceive
  L.checkExpiration o.expiration
  let expiration := if L.HasHardfork 20 then o.expiration
    else min o.expiration (hardfork20Time + maxLimitOrderExpiration + o.randOffset % 86400)
  L.placeOrder o.owner o.orderid o.amountToSell price expiration o.fillOrKill

/-- `limit_order_create2_evaluator` before hardfork 23. -/
def limitOrderCreate2 (o : LimitOrderCreate2) (L : Ledger) : Except String Ledger := do
  let received ← o.amountToSell.mul o.exchangeRate
  ensure (0 < received.amount) "Amount to sell cannot round to 0 when traded"
  L.checkExpiration o.expiration
  ensure (o.amountToSell.symbol = o.exchangeRate.base.symbol)
    "Sell asset must be the base of the price"
  let expiration := if L.HasHardfork 20 then o.expiration
    else min o.expiration (hardfork20Time + maxLimitOrderExpiration)
  L.placeOrder o.owner o.orderid o.amountToSell o.exchangeRate expiration o.fillOrKill

/-- The expired orders, by expiration and then by age. -/
def expiredOrders (L : Ledger) : List OrderKey :=
  ((L.limitOrders.entries.filter fun e => e.2.expiration < L.props.time).insertionSort
    fun e f => e.2.expiration ≤ f.2.expiration).map Prod.fst

/-- `clear_expired_orders`. -/
def clearExpiredOrders (L : Ledger) : Except String Ledger :=
  forEach cancelOrder L.expiredOrders L

end Ledger

end Freezone.Chain.Funds
