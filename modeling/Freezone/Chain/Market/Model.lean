import Freezone.Core.Safe
import Freezone.Core.SortedRange
import Freezone.Protocol.Price
import Freezone.Chain.Ledger.Market

/-!
# The order book of all markets

Limit orders in every pair of assets rest in one index by price. A new order walks
the range of that index between the best price of its market and the inverse of its
own, or past it where these two lie the wrong way round. The balances are those of any
bank: the market debits the seller when an order comes and credits the parties of each
trade.
-/

namespace Freezone.Chain.Market

open Protocol
open Funds (AccountName OrderKey uniqueness maxLimitOrderExpiration hardfork20Time)

/-- What the market needs of the accounts: `adjust_balance`. -/
structure Bank (σ B : Type) where
  adjustBalance : AccountName → Asset σ → B → Except String B

/-- The balances of the accounts. -/
def Holdings (σ : Type) : Type := AccountName → σ → Int

namespace Holdings

variable {σ : Type} [DecidableEq σ]

/-- `adjust_balance` without interest. -/
def adjustBalance (name : AccountName) (a : Asset σ) (h : Holdings σ) :
    Except String (Holdings σ) := do
  ensure (a.amount < 0 → -a.amount ≤ h name a.symbol)
    "Account ${acc} does not have sufficient funds for balance adjustment."
  let balance ← Safe.add (h name a.symbol) a.amount
  .ok fun name' s' => if name' = name ∧ s' = a.symbol then balance else h name' s'

/-- The bank that keeps balances and pays no interest. -/
def bank : Bank σ (Holdings σ) := ⟨adjustBalance⟩

end Holdings

/-- `limit_order_object`; its seller and number are the key that it is found under. -/
structure LimitOrder (σ : Type) where
  id : Nat
  created : Nat
  expiration : Nat
  forSale : Int
  sellPrice : Price σ

namespace LimitOrder

variable {σ : Type} [DecidableEq σ]

def amountForSale (o : LimitOrder σ) : Asset σ := ⟨o.forSale, o.sellPrice.base.symbol⟩

def amountToReceive (o : LimitOrder σ) : Except String (Asset σ) :=
  o.amountForSale.mul64 o.sellPrice

end LimitOrder

/-- The part of the database that the market works on. -/
structure Exchange (σ B : Type) where
  funds : B
  limitOrders : Table OrderKey (LimitOrder σ)
  nextId : Nat
  headBlockTime : Nat
  hardfork : Nat
  tokens : List σ

namespace Exchange

variable {σ B : Type} [LinearOrder σ] (bank : Bank σ B)

def getLimitOrder (key : OrderKey) (E : Exchange σ B) : Except String (LimitOrder σ) :=
  orThrow "unknown key" (E.limitOrders.find? key)

/-- `cancel_order`. -/
def cancelOrder (key : OrderKey) (E : Exchange σ B) : Except String (Exchange σ B) := do
  let order ← E.getLimitOrder key
  let funds ← bank.adjustBalance key.1 order.amountForSale E.funds
  .ok { E with funds := funds, limitOrders := E.limitOrders.erase key }

/-- `fill_order`; the flag says that the order is gone. -/
def fillOrder (key : OrderKey) (pays receives : Asset σ) (E : Exchange σ B) :
    Except String (Exchange σ B × Bool) := do
  let order ← E.getLimitOrder key
  ensure (order.amountForSale.symbol = pays.symbol)
    "error filling orders: ${order} ${pays} ${receives}"
  ensure (pays.symbol ≠ receives.symbol) "error filling orders: ${order} ${pays} ${receives}"
  let funds ← bank.adjustBalance key.1 receives E.funds
  if pays = order.amountForSale then
    .ok ({ E with funds := funds, limitOrders := E.limitOrders.erase key }, true)
  else do
    ensure (pays.amount < order.forSale) "error filling orders: ${order} ${pays} ${receives}"
    let order := { order with forSale := order.forSale - pays.amount }
    let E := { E with funds := funds, limitOrders := E.limitOrders.set key order }
    let rest ← order.amountToReceive
    -- what is left is too small to be sold at the price of the order
    if rest.amount = 0 then do
      let E ← E.cancelOrder bank key
      .ok (E, true)
    else .ok (E, false)

/-- What the two orders of a match pay, the new one first. -/
def matchAmounts (newOrder oldOrder : LimitOrder σ) (matchPrice : Price σ) :
    Except String (Asset σ × Asset σ) := do
  let oldValue ← oldOrder.amountForSale.mul64 matchPrice
  ensure (newOrder.amountForSale.symbol = oldValue.symbol) "a.symbol == b.symbol"
  if newOrder.forSale ≤ oldValue.amount then do
    let newReceives ← newOrder.amountForSale.mul64 matchPrice
    .ok (newOrder.amountForSale, newReceives)
  else .ok (oldValue, oldOrder.amountForSale)

/-- The text of the exceptions of `match`. -/
def matchError : String := "error matching orders: ${new_order} ${old_order} ${match_price}"

/-- `match`; the flag is the bit of the result that says that the new order is gone. -/
def matchOrders (newKey oldKey : OrderKey) (matchPrice : Price σ) (E : Exchange σ B) :
    Except String (Exchange σ B × Bool) := do
  let newOrder ← E.getLimitOrder newKey
  let oldOrder ← E.getLimitOrder oldKey
  ensure (newOrder.sellPrice.quote.symbol = oldOrder.sellPrice.base.symbol) matchError
  ensure (newOrder.sellPrice.base.symbol = oldOrder.sellPrice.quote.symbol) matchError
  ensure (0 < newOrder.forSale ∧ 0 < oldOrder.forSale) matchError
  ensure (matchPrice.quote.symbol = newOrder.sellPrice.base.symbol) matchError
  ensure (matchPrice.base.symbol = oldOrder.sellPrice.base.symbol) matchError
  let (newPays, oldPays) ← matchAmounts newOrder oldOrder matchPrice
  ensure (newPays = newOrder.amountForSale ∨ oldPays = oldOrder.amountForSale) matchError
  let (E, newFilled) ← E.fillOrder bank newKey newPays oldPays
  let (E, oldFilled) ← E.fillOrder bank oldKey oldPays newPays
  ensure (newFilled ∨ oldFilled) matchError
  .ok (E, newFilled)

/-- The order of the index `by_price`: the greater price first, then the older order. -/
def PriceOrder (e f : OrderKey × LimitOrder σ) : Prop :=
  e.2.sellPrice.Gt f.2.sellPrice ∨ ¬ f.2.sellPrice.Gt e.2.sellPrice ∧ e.2.id ≤ f.2.id

instance (e f : OrderKey × LimitOrder σ) : Decidable (PriceOrder e f) :=
  inferInstanceAs (Decidable (_ ∨ _))

variable (E : Exchange σ B)

/-- The index `by_price`, with the orders of all markets. -/
def byPrice : List (OrderKey × LimitOrder σ) :=
  E.limitOrders.entries.insertionSort PriceOrder

/-- The upper bound of the inverse price, where the walk of `apply_order` stops, lies before the
lower bound of the best price, where it starts. -/
def Overruns (order : LimitOrder σ) (E : Exchange σ B) : Prop :=
  let maxPrice := order.sellPrice.flip
  SortedRange.Overruns Price.Gt (fun e => e.2.sellPrice) maxPrice.max maxPrice E.byPrice

instance (order : LimitOrder σ) (E : Exchange σ B) : Decidable (E.Overruns order) :=
  inferInstanceAs (Decidable (SortedRange.Overruns ..))

/-- The orders that the walk meets: those between the two bounds, or all from the first one on. A
match removes no other order than its two, so they stay. -/
def matchingOrders (order : LimitOrder σ) (E : Exchange σ B) : List OrderKey :=
  let maxPrice := order.sellPrice.flip
  if E.Overruns order then
    (E.byPrice.dropWhile fun e => e.2.sellPrice.Gt maxPrice.max).map Prod.fst
  else
    (SortedRange.range Price.Gt (fun e =>
    e.2.sellPrice) maxPrice.max maxPrice E.byPrice).map Prod.fst

/-- The loop of `apply_order`; a walk that has no place to stop reads past the end of the index. -/
def applyOrderWith (newKey : OrderKey) (stops : Bool) :
    List OrderKey → Exchange σ B → Except String (Exchange σ B)
  | [], E => if stops then .ok E else .error "undefined behaviour: past the end of the index"
  | oldKey :: rest, E => do
    let oldOrder ← E.getLimitOrder oldKey
    let (E, finished) ← E.matchOrders bank newKey oldKey oldOrder.sellPrice
    if finished then .ok E else applyOrderWith newKey stops rest E

/-- `apply_order`; the flag says that the order was filled. -/
def applyOrder (key : OrderKey) (E : Exchange σ B) : Except String (Exchange σ B × Bool) := do
  let order ← E.getLimitOrder key
  let E ← E.applyOrderWith bank key (¬ E.Overruns order) (E.matchingOrders order)
  .ok (E, (E.limitOrders.find? key).isNone)

/-- The part that the two operations that create an order share. -/
def placeOrder (owner : AccountName) (orderid : Nat) (amountToSell : Asset σ)
    (sellPrice : Price σ) (expiration : Nat) (fillOrKill : Bool) (E : Exchange σ B) :
    Except String (Exchange σ B) := do
  let funds ← bank.adjustBalance owner (-amountToSell) E.funds
  let orders ← orThrow uniqueness (E.limitOrders.insert (owner, orderid)
    ⟨E.nextId, E.headBlockTime, expiration, amountToSell.amount, sellPrice⟩)
  let E := { E with funds := funds, limitOrders := orders, nextId := E.nextId + 1 }
  let (E, filled) ← E.applyOrder bank (owner, orderid)
  ensure (fillOrKill = true → filled = true) "Cancelling order because it was not filled."
  .ok E

/-- The checks of the expiration that the two operations share. -/
def checkExpiration (expiration : Nat) (E : Exchange σ B) : Except String Unit := do
  ensure (E.headBlockTime < expiration) "Limit order has to expire after head block time."
  ensure (20 ≤ E.hardfork → expiration ≤ E.headBlockTime + maxLimitOrderExpiration)
    "Limit Order Expiration must not be more than 28 days in the future"

/-- The expired orders, by expiration and then by age. -/
def expiredOrders : List OrderKey :=
  ((E.limitOrders.entries.filter fun e => e.2.expiration < E.headBlockTime).insertionSort
    fun e f => e.2.expiration < f.2.expiration ∨
      e.2.expiration = f.2.expiration ∧ e.2.id ≤ f.2.id).map Prod.fst

/-- `clear_expired_orders`. -/
def clearExpiredOrders : Except String (Exchange σ B) :=
  forEach (cancelOrder bank) E.expiredOrders E

end Exchange

/-- An asset as an operation carries it, with a 64-bit amount. -/
structure Amount extends Asset AssetSymbol where
  ge : -2 ^ 63 ≤ amount
  lt : amount < 2 ^ 63

/-- `limit_order_create_operation`. The offset stands for the block id that it is drawn from. -/
structure LimitOrderCreate where
  owner : AccountName
  orderid : Nat
  amountToSell : Amount
  minToReceive : Amount
  fillOrKill : Bool
  expiration : Nat
  randOffset : Nat

/-- `limit_order_create2_operation`; the price is as it was received, two amounts. -/
structure LimitOrderCreate2 where
  owner : AccountName
  orderid : Nat
  amountToSell : Amount
  exchangeBase : Amount
  exchangeQuote : Amount
  fillOrKill : Bool
  expiration : Nat

/-- `limit_order_create_operation::validate`; returns the price of the order. -/
def LimitOrderCreate.validate (o : LimitOrderCreate) : Except String (Price AssetSymbol) := do
  let sell := o.amountToSell.symbol
  let receive := o.minToReceive.symbol
  ensure ((sell = .freezone ∧ receive = .sbd) ∨ (sell = .sbd ∧ receive = .freezone) ∨
      (sell.space = .sstNaiSpace ∧ receive = .freezone) ∨
      (sell = .freezone ∧ receive.space = .sstNaiSpace))
    "Limit order must be for the freezone:SBD or SST:(freezone/SBD) market"
  Price.make o.amountToSell.toAsset o.minToReceive.toAsset

/-- `limit_order_create2_operation::validate`; returns the exchange rate. -/
def LimitOrderCreate2.validate (o : LimitOrderCreate2) : Except String (Price AssetSymbol) := do
  let exchangeRate ← Price.make o.exchangeBase.toAsset o.exchangeQuote.toAsset
  ensure (o.amountToSell.symbol.isVesting = false) "Cannot create a limit order for vesting types."
  let received ← o.amountToSell.toAsset.mul64 exchangeRate
  ensure (0 < received.amount) "Amount to sell cannot round to 0 when traded"
  .ok exchangeRate

/-- The loop of `validate_tick_pricing`; the fuel is more than the digits of a 64-bit number. -/
def stripTens : Nat → Int → Int
  | 0, tmp => tmp
  | fuel + 1, tmp => if 9 < tmp ∧ tmp % 10 = 0 then stripTens fuel (tmp / 10) else tmp

/-- `validate_tick_pricing`. -/
def validateTickPricing (p : Price AssetSymbol) : Except String Unit := do
  if p.base.symbol = .sbd then
    ensure (p.quote.symbol = .freezone) "Only freezone can be paired with SBD as the base symbol."
  else if p.base.symbol = .freezone then do
    ensure (p.quote.symbol.space = .sstNaiSpace)
      "Only tokens can be paired with freezone as the base symbol."
    ensure (p.quote.symbol.isVesting = false) "Quote symbol cannot be a vesting symbol."
  else .error "freezone and SBD are the only valid base symbols."
  ensure (stripTens 20 p.quote.amount = 1) "The quote amount must be a power of 10."

namespace Exchange

variable {B : Type} (bank : Bank AssetSymbol B)

/-- `limit_order_create_evaluator`. -/
def limitOrderCreate (o : LimitOrderCreate) (E : Exchange AssetSymbol B) :
    Except String (Exchange AssetSymbol B) := do
  let price ← o.validate
  ensure (E.hardfork < 23)
    "The 'limit_order_create' operation is deprecated in favor of `limit_order_create2'."
  E.checkExpiration o.expiration
  let expiration := if 20 ≤ E.hardfork then o.expiration
    else min o.expiration (hardfork20Time + maxLimitOrderExpiration + o.randOffset % 86400)
  E.placeOrder bank o.owner o.orderid o.amountToSell.toAsset price expiration o.fillOrKill

/-- The price at which `limit_order_create2` sells, and its checks. -/
def sellingPrice (amountToSell : Amount) (exchangeRate : Price AssetSymbol)
    (E : Exchange AssetSymbol B) : Except String (Price AssetSymbol) := do
  if 23 ≤ E.hardfork then do
    validateTickPricing exchangeRate
    ensure (exchangeRate.quote.symbol.space = .sstNaiSpace → exchangeRate.quote.symbol ∈ E.tokens)
      "Unable to find quote token. Symbol: ${symbol}"
    let price := if amountToSell.symbol ≠ exchangeRate.base.symbol then exchangeRate.flip
      else exchangeRate
    ensure (amountToSell.symbol = price.base.symbol)
      "Sell asset must be in the price. Sell symbol: ${symbol}, Exchange rate: ${exchange}"
    .ok price
  else do
    ensure (amountToSell.symbol = exchangeRate.base.symbol)
      "Sell asset must be the base of the price"
    ensure ((amountToSell.symbol = .freezone ∧ exchangeRate.quote.symbol = .sbd) ∨
        (amountToSell.symbol = .sbd ∧ exchangeRate.quote.symbol = .freezone))
      "Amount to sell symbol cannot be paired the given quote."
    .ok exchangeRate

/-- `limit_order_create2_evaluator`. -/
def limitOrderCreate2 (o : LimitOrderCreate2) (E : Exchange AssetSymbol B) :
    Except String (Exchange AssetSymbol B) := do
  let exchangeRate ← o.validate
  E.checkExpiration o.expiration
  let price ← E.sellingPrice o.amountToSell exchangeRate
  let expiration := if 20 ≤ E.hardfork then o.expiration
    else min o.expiration (hardfork20Time + maxLimitOrderExpiration)
  E.placeOrder bank o.owner o.orderid o.amountToSell.toAsset price expiration o.fillOrKill

end Exchange

/-- What happens in the market, and what happens elsewhere in between. -/
inductive MarketStep (B : Type)
  | limitOrderCreate (o : LimitOrderCreate)
  | limitOrderCreate2 (o : LimitOrderCreate2)
  | limitOrderCancel (owner : AccountName) (orderid : Nat)
  | clearExpiredOrders
  | elsewhere (funds : B) (headBlockTime hardfork : Nat) (tokens : List AssetSymbol)

namespace Exchange

variable {B : Type} (bank : Bank AssetSymbol B)

/-- One step, which may throw. -/
def apply (E : Exchange AssetSymbol B) : MarketStep B → Except String (Exchange AssetSymbol B)
  | .limitOrderCreate o => E.limitOrderCreate bank o
  | .limitOrderCreate2 o => E.limitOrderCreate2 bank o
  | .limitOrderCancel owner orderid => E.cancelOrder bank (owner, orderid)
  | .clearExpiredOrders => E.clearExpiredOrders bank
  | .elsewhere funds headBlockTime hardfork tokens =>
    .ok { E with
      funds := funds, headBlockTime := headBlockTime, hardfork := hardfork, tokens := tokens }

/-- A step that throws is undone. -/
def afterStep (E : Exchange AssetSymbol B) (step : MarketStep B) : Exchange AssetSymbol B :=
  match E.apply bank step with
  | .ok E' => E'
  | .error _ => E

def run (E : Exchange AssetSymbol B) (steps : List (MarketStep B)) : Exchange AssetSymbol B :=
  steps.foldl (afterStep bank) E

/-- The market before its first order. -/
def opening (funds : B) : Exchange AssetSymbol B := ⟨funds, .empty, 0, 0, 0, []⟩

end Exchange

end Freezone.Chain.Market
