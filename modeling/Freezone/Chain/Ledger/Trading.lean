import Freezone.Chain.Ledger.Transfers

/-!
# The market conserves

A fill takes from an order what it pays and gives its owner what it receives; the
two fills of a match exchange the same two amounts, and what is left of an order
goes back with its cancellation.
-/

namespace Freezone.Chain.Funds.Ledger

open Protocol

variable {L L' : Ledger} {key : OrderKey}

theorem getLimitOrder_eq_ok {order : LimitOrder} :
    L.getLimitOrder key = .ok order ↔ L.limitOrders.find? key = some order := orThrow_eq_ok

/-- An order that leaves takes what it holds out of the books. -/
theorem moves_eraseOrder {order : LimitOrder} (h : L.limitOrders.find? key = some order) :
    Steady (fun b => -liquidEntry order.amountForSale b) L
      { L with limitOrders := L.limitOrders.erase key } :=
  moves_limitOrders (fun _ => Table.total_erase h _) fun hL => hL.limitOrders.erase key

/-- What an order still sells returns to its owner. -/
theorem cancelOrder_conserves (h : L.cancelOrder key = .ok L') : Conserves L L' := by
  simp only [cancelOrder, returns, getLimitOrder_eq_ok] at h
  obtain ⟨order, ho, L1, h1, rfl⟩ := h
  rw [← (adjustBalance_frame h1).limitOrders] at ho
  refine ((adjustBalance_moves h1).trans (moves_eraseOrder ho)).conserves fun b => ?_
  exact add_neg_cancel _

/-- The owner receives, and what is paid leaves the order. -/
theorem fillOrder_moves {pays receives : Asset Liquid} {filled : Bool}
    (h : L.fillOrder key pays receives = .ok (L', filled)) :
    Steady (fun b => liquidEntry receives b - liquidEntry pays b) L L' := by
  simp only [fillOrder, returns, getLimitOrder_eq_ok] at h
  obtain ⟨order, ho, -, hsym, -, -, L1, h1, h⟩ := h
  rw [← (adjustBalance_frame h1).limitOrders] at ho
  have hreceive := adjustBalance_moves h1
  split_ifs at h with hall
  · obtain ⟨rfl, -⟩ := h
    subst hall
    exact hreceive.trans (moves_eraseOrder ho)
  · simp only [returns] at h
    obtain ⟨-, hlt, rest, -, h⟩ := h
    have hpay : Steady (fun b => -liquidEntry pays b) L1 { L1 with
        limitOrders := L1.limitOrders.set key
            { order with forSale := order.forSale - pays.amount } } := by
      refine moves_limitOrders (fun b => ?_) fun hL => hL.limitOrders.set key (by dsimp only; omega)
      have hentry : LimitOrder.entry { order with forSale := order.forSale - pays.amount } b =
          order.entry b - liquidEntry pays b := by
        have hsale : order.amountForSale = ⟨order.forSale, pays.symbol⟩ := hsym ▸ rfl
        rw [LimitOrder.entry, LimitOrder.entry, hsale, ← liquidEntry_sub]
        exact congrFun (congrArg liquidEntry (hsym ▸ rfl)) b
      rw [Table.total_set ho, hentry]
      ring
    split at h
    · -- the rest goes back to the owner
      simp only [returns, Prod.mk.injEq] at h
      obtain ⟨L2, h2, rfl, -⟩ := h
      refine ((hreceive.trans hpay).trans (cancelOrder_conserves h2)).congr fun b => ?_
      rw [add_zero, ← sub_eq_add_neg]
    · simp only [Except.ok.injEq, Prod.mk.injEq] at h
      obtain ⟨rfl, -⟩ := h
      exact hreceive.trans hpay

/-- Of two orders, each receives what the other pays. -/
theorem matchOrders_conserves {newKey oldKey : OrderKey} {finished : Bool}
    (h : L.matchOrders newKey oldKey = .ok (L', finished)) : Conserves L L' := by
  simp only [matchOrders, returns, Prod.mk.injEq] at h
  obtain ⟨new, -, old, -, -, -, -, -, -, -, ⟨newPays, oldPays⟩, -, -, -, ⟨L1, f1⟩, h1, ⟨L2, f2⟩, h2,
    -, -, rfl, -⟩ := h
  refine ((fillOrder_moves h1).trans (fillOrder_moves h2)).conserves fun b => ?_
  ring

/-- The walk along the book conserves the books. -/
theorem applyOrderWith_conserves {newKey : OrderKey} {keys : List OrderKey}
    (h : L.applyOrderWith newKey keys = .ok L') : Conserves L L' := by
  induction keys generalizing L with
  | nil =>
    rw [applyOrderWith, Except.ok.injEq] at h
    exact h ▸ Steady.refl L
  | cons oldKey rest ih =>
    simp only [applyOrderWith, returns] at h
    obtain ⟨⟨L1, finished⟩, h1, h⟩ := h
    split at h
    · cases h
      exact matchOrders_conserves h1
    · exact (matchOrders_conserves h1).trans (ih h)

/-- What an order sells is taken from its owner. -/
theorem placeOrder_conserves {owner : AccountName} {orderid expiration : Nat}
    {amountToSell : Asset Liquid} {sellPrice : Price Liquid} {fillOrKill : Bool}
    (h : L.placeOrder owner orderid amountToSell sellPrice expiration fillOrKill = .ok L')
    (hsym : sellPrice.base.symbol = amountToSell.symbol) (hpos : 0 ≤ amountToSell.amount) :
    Conserves L L' := by
  simp only [placeOrder, applyOrder, returns] at h
  obtain ⟨L1, h1, orders, hins, ⟨L2, filled⟩, ⟨order, -, L3, h3, h2⟩, -, -, rfl⟩ := h
  obtain ⟨rfl, -⟩ := h2
  have hput : Steady (liquidEntry amountToSell) L1 { L1 with limitOrders := orders } := by
    refine moves_limitOrders (fun b => ?_) fun hL => hL.limitOrders.insert hins hpos
    rw [Table.total_insert hins]
    simp only [LimitOrder.entry, LimitOrder.amountForSale, liquidEntry, hsym]
  refine (((adjustBalance_moves h1).trans hput).conserves fun b => ?_).trans
    (applyOrderWith_conserves h3)
  rw [liquidEntry_neg, neg_add_cancel]

theorem limitOrderCreate_conserves {o : LimitOrderCreate}
    (h : L.limitOrderCreate o = .ok L') : Conserves L L' := by
  simp only [limitOrderCreate, returns] at h
  obtain ⟨price, hprice, -, -, h⟩ := h
  have hbase := (Price.make_eq_ok hprice).1
  have hpos := price.base_pos
  rw [hbase] at hpos
  exact placeOrder_conserves h (by rw [hbase]) hpos.le

theorem limitOrderCreate2_conserves {o : LimitOrderCreate2}
    (h : L.limitOrderCreate2 o = .ok L') : Conserves L L' := by
  simp only [limitOrderCreate2, returns] at h
  obtain ⟨received, hreceived, -, -, -, -, -, hsym, h⟩ := h
  exact placeOrder_conserves h hsym.symm (Asset.amount_nonneg_of_mul hreceived)

/-- Expired orders return what they still sell. -/
theorem clearExpiredOrders_conserves (h : L.clearExpiredOrders = .ok L') : Conserves L L' :=
  forEach_invariant (P := Conserves L) (fun _ _ _ _ hs h => hs.trans (cancelOrder_conserves h))
    (Steady.refl L) h

end Freezone.Chain.Funds.Ledger
