import Freezone.Chain.Market.Trade

/-!
# The matches of a new order

The walk of `apply_order` meets the orders of the book that cross the new one, each
once. A match leaves the orders that are still to come as they are, so every match
of the walk is between two resting orders that cross.
-/

namespace Freezone.Chain.Market.Exchange

open Protocol List Table Price
open Funds (OrderKey)

variable {σ B : Type} [LinearOrder σ]

section Index

/-- The place of an order in the index. -/
def place (e : OrderKey × LimitOrder σ) : ((σ ×ₗ σ) ×ₗ ℚ)ᵒᵈ ×ₗ Nat :=
  toLex (OrderDual.toDual e.2.sellPrice.rank, e.2.id)

/-- The order of the index `by_price`. -/
theorem priceOrder_iff (e f : OrderKey × LimitOrder σ) : PriceOrder e f ↔ place e ≤ place f := by
  rw [PriceOrder, place, place, Prod.Lex.toLex_le_toLex, gt_iff, gt_iff,
    OrderDual.toDual_lt_toDual, OrderDual.toDual_inj, not_lt]
  constructor
  · rintro (h | ⟨hle, hid⟩)
    · exact .inl h
    · rcases hle.lt_or_eq with hlt | heq
      · exact .inl hlt
      · exact .inr ⟨heq.symm, hid⟩
  · rintro (h | ⟨heq, hid⟩)
    · exact .inl h
    · exact .inr ⟨heq.ge, hid⟩

variable {k : OrderKey} {rest : List OrderKey} {E : Exchange σ B} {n : LimitOrder σ}

/-- The index is sorted by the rank of the prices, the greatest first. -/
theorem pairwise_byPrice (E : Exchange σ B) : E.byPrice.Pairwise fun e f =>
    OrderDual.toDual e.2.sellPrice.rank ≤ OrderDual.toDual f.2.sellPrice.rank := by
  refine (SortedRange.pairwise_insertionSort place priceOrder_iff _).imp fun {e f} h => ?_
  rw [place, place, Prod.Lex.toLex_le_toLex] at h
  rcases h with h | ⟨h, -⟩
  · exact h.le
  · exact h.le

/-- The entries of the index are the orders of the book. -/
theorem mem_byPrice {e : OrderKey × LimitOrder σ} :
    e ∈ E.byPrice ↔ E.limitOrders.find? e.1 = some e.2 := by
  rw [byPrice, mem_insertionSort, find?_eq_some]

/-- The walk overruns its end if an order lies between the best price and the inverse price. -/
theorem overruns_iff : E.Overruns n ↔ ∃ k o, E.limitOrders.find? k = some o ∧
    o.sellPrice.Gt n.sellPrice.flip.max ∧ n.sellPrice.flip.Gt o.sellPrice := by
  have hiff := SortedRange.overruns_iff Gt (fun e : OrderKey × LimitOrder σ => e.2.sellPrice)
    (fun p => OrderDual.toDual p.rank) (fun p q => gt_iff) (pairwise_byPrice E)
    n.sellPrice.flip.max n.sellPrice.flip
  rw [Overruns, hiff]
  constructor
  · rintro ⟨e, he, hbetween⟩
    exact ⟨e.1, e.2, mem_byPrice.mp he, hbetween⟩
  · rintro ⟨k, o, ho, hbetween⟩
    exact ⟨(k, o), mem_byPrice.mpr ho, hbetween⟩

/-- The walk meets the orders between the best price and the inverse of the new order's. -/
theorem mem_matchingOrders (h : ¬ E.Overruns n) :
    k ∈ E.matchingOrders n ↔ ∃ o, E.limitOrders.find? k = some o ∧
      ¬ o.sellPrice.Gt n.sellPrice.flip.max ∧ ¬ n.sellPrice.flip.Gt o.sellPrice := by
  have hmem : ∀ e : OrderKey × LimitOrder σ,
      e ∈ SortedRange.range Gt (fun e => e.2.sellPrice) n.sellPrice.flip.max n.sellPrice.flip
        E.byPrice ↔ e ∈ E.byPrice ∧ ¬ e.2.sellPrice.Gt n.sellPrice.flip.max ∧
          ¬ n.sellPrice.flip.Gt e.2.sellPrice := fun e =>
    SortedRange.mem_range Gt _ (fun p => OrderDual.toDual p.rank) (fun p q => gt_iff)
      (pairwise_byPrice E)
  rw [matchingOrders, if_neg h, mem_map]
  simp only [hmem, mem_byPrice]
  constructor
  · rintro ⟨e, ⟨he, hmax, hmin⟩, rfl⟩
    exact ⟨e.2, he, hmax, hmin⟩
  · rintro ⟨o, ho, hmax, hmin⟩
    exact ⟨(k, o), ⟨ho, hmax, hmin⟩, rfl⟩

/-- An overrunning walk meets only orders that do not cross the new one. -/
theorem not_crosses_of_overruns (h : E.Overruns n) (hk : k ∈ E.matchingOrders n)
    {o : LimitOrder σ} (ho : E.limitOrders.find? k = some o) :
    ¬ o.sellPrice.Crosses n.sellPrice := by
  obtain ⟨_, between, -, habove, hbelow⟩ := overruns_iff.mp h
  have hdrop := SortedRange.dropWhile_eq_filter
    (p := fun e : OrderKey × LimitOrder σ => decide (e.2.sellPrice.Gt n.sellPrice.flip.max))
    (pairwise_byPrice E) fun e f hef h => by
      rw [decide_eq_true_eq, gt_iff] at h ⊢
      exact h.trans_le hef
  rw [matchingOrders, if_pos h, mem_map] at hk
  obtain ⟨e, he, rfl⟩ := hk
  rw [hdrop, mem_filter, mem_byPrice, ho, Option.some.injEq] at he
  obtain ⟨rfl, hmax⟩ := he
  simp only [Bool.not_eq_true', decide_eq_false_iff_not] at hmax
  intro hc
  refine (crosses_iff_between.mp hc).2 ?_
  rw [gt_iff] at habove hbelow hmax ⊢
  exact (not_lt.mp hmax).trans_lt (habove.trans hbelow)

/-- The walk meets an order once. -/
theorem matchingOrders_nodup (E : Exchange σ B) (n : LimitOrder σ) :
    (E.matchingOrders n).Nodup := by
  have hperm := perm_insertionSort PriceOrder E.limitOrders.entries
  have hnodup := (hperm.map Prod.fst).nodup_iff.mpr E.limitOrders.nodup
  unfold matchingOrders
  split_ifs
  · exact hnodup.sublist ((dropWhile_sublist _).map Prod.fst)
  · exact hnodup.sublist ((SortedRange.range_sublist ..).map Prod.fst)

end Index

variable {bank : Bank σ B} {E E' T : Exchange σ B} {newKey oldKey : OrderKey}

/-- Orders of the book have only shrunk or gone. -/
structure Shrinks (E E' : Exchange σ B) : Prop where
  resting : E.limitOrders.Holds LimitOrder.Resting → E'.limitOrders.Holds LimitOrder.Resting
  find : ∀ {k o'}, E'.limitOrders.find? k = some o' → ∃ o, E.limitOrders.find? k = some o ∧
    o'.sellPrice = o.sellPrice ∧ o'.forSale ≤ o.forSale

theorem Shrinks.trans {E1 E2 E3 : Exchange σ B} (h : Shrinks E1 E2) (h' : Shrinks E2 E3) :
    Shrinks E1 E3 where
  resting hr := h'.resting (h.resting hr)
  find ho := by
    obtain ⟨o2, ho2, hp2, hs2⟩ := h'.find ho
    obtain ⟨o1, ho1, hp1, hs1⟩ := h.find ho2
    exact ⟨o1, ho1, hp2.trans hp1, hs2.trans hs1⟩

theorem shrinks_erase (h : E'.limitOrders = E.limitOrders.erase k) : Shrinks E E' where
  resting hr := h ▸ hr.erase k
  find {k' o'} ho := by
    rw [h, find?_erase] at ho
    by_cases hk : k' = k
    · rw [if_pos hk] at ho
      cases ho
    · rw [if_neg hk] at ho
      exact ⟨o', ho, rfl, le_rfl⟩

/-- A paid order keeps its price and sells less. -/
theorem pay_shrinks {key : OrderKey} {order : LimitOrder σ} {pays : Int} {receives : Asset σ}
    {filled : Bool} (hfind : E.limitOrders.find? key = some order) (hpos : 0 < pays)
    (hle : pays ≤ order.forSale) (h : E.pay bank key order pays receives = .ok (E', filled)) :
    Shrinks E E' := by
  obtain ⟨-, he⟩ | ⟨-, hrest, hasks, he⟩ := pay_eq_ok h
  · exact shrinks_erase he
  refine ⟨fun hr => ?_, fun {k o'} ho => ?_⟩
  · rw [he]
    exact hr.set key ((hr key order hfind).rest (by omega) (by omega) hasks)
  rw [he, find?_set hfind] at ho
  by_cases hk : k = key
  · rw [if_pos hk] at ho
    cases ho
    exact ⟨order, hk ▸ hfind, rfl, by dsimp only; omega⟩
  · rw [if_neg hk] at ho
    exact ⟨o', ho, rfl, le_rfl⟩

section Trade

variable {n o : LimitOrder σ} {newPays oldPays : Int} {filled : Bool}

/-- What a trade does to the book. -/
structure Traded (newKey oldKey : OrderKey) (E E' : Exchange σ B) (filled : Bool) : Prop where
  shrinks : Shrinks E E'
  frame : ∀ k, k ≠ newKey → k ≠ oldKey → E'.limitOrders.find? k = E.limitOrders.find? k
  gone : filled = true → E'.limitOrders.find? newKey = none
  left : filled = false →
    (E'.limitOrders.find? newKey).isSome ∧ E'.limitOrders.find? oldKey = none

/-- A trade at fair amounts is one between the two orders. -/
theorem trade_traded (hn : E.limitOrders.find? newKey = some n)
    (ho : E.limitOrders.find? oldKey = some o) (hkeys : oldKey ≠ newKey)
    (hfair : Fair n o newPays oldPays)
    (h : E.trade bank newKey oldKey n o newPays oldPays = .ok (E', filled)) :
    Traded newKey oldKey E E' filled := by
  simp only [trade, returns, Prod.mk.injEq, Prod.exists] at h
  obtain ⟨E1, filled1, h1, E2, oldFilled, h2, rfl, rfl⟩ := h
  have ho1 : E1.limitOrders.find? oldKey = some o := by rw [pay_find?_of_ne h1 hkeys, ho]
  have hnew : E2.limitOrders.find? newKey = E1.limitOrders.find? newKey :=
    pay_find?_of_ne h2 hkeys.symm
  refine ⟨(pay_shrinks hn hfair.oldReceives hfair.newPays_le h1).trans
    (pay_shrinks ho1 hfair.newReceives hfair.oldPays_le h2), ?_, ?_, ?_⟩
  · intro k hk hk'
    rw [pay_find?_of_ne h2 hk', pay_find?_of_ne h1 hk]
  · intro hf
    obtain ⟨-, he⟩ | ⟨hf', -⟩ := pay_eq_ok h1
    · rw [hnew, he, find?_erase, if_pos rfl]
    · rw [hf] at hf'
      cases hf'
  · intro hf
    obtain ⟨hf', -⟩ | ⟨-, hrest, -, he⟩ := pay_eq_ok h1
    · rw [hf] at hf'
      cases hf'
    refine ⟨by rw [hnew, he, find?_set_self hn]; rfl, ?_⟩
    -- something of the new order is left, so the old one is sold out
    have hold : oldPays = o.forSale := by
      rcases hfair.closes with hc | hc
      · omega
      · exact hc
    obtain ⟨-, he'⟩ | ⟨-, hrest', -⟩ := pay_eq_ok h2
    · rw [he', find?_erase, if_pos rfl]
    · omega

end Trade

/-- The walk at one of its points, with the orders that are still to come. -/
structure Walking (newKey : OrderKey) (rest : List OrderKey) (E : Exchange σ B) : Prop where
  resting : E.limitOrders.Holds LimitOrder.Resting
  nodup : rest.Nodup
  crossing : ∃ n, E.limitOrders.find? newKey = some n ∧
    ∀ k ∈ rest, ∃ o, E.limitOrders.find? k = some o ∧ o.sellPrice.Crosses n.sellPrice

/-- The walk starts with orders that cross the new one. -/
theorem walking_start (hE : E.limitOrders.Holds LimitOrder.Resting) {n : LimitOrder σ}
    (hn : E.limitOrders.find? newKey = some n) (hstops : ¬ E.Overruns n) :
    Walking newKey (E.matchingOrders n) E where
  resting := hE
  nodup := E.matchingOrders_nodup n
  crossing := ⟨n, hn, fun _ hk => by
    obtain ⟨o, ho, hmax, hmin⟩ := (mem_matchingOrders hstops).mp hk
    exact ⟨o, ho, crosses_iff_between.mpr ⟨symbols_eq_of_between hmax hmin, hmin⟩⟩⟩

/-- The next match of the walk. -/
theorem Walking.matches (bank : Bank σ B) (h : Walking newKey (oldKey :: rest) E) :
    ∃ n o newPays oldPays, E.limitOrders.find? newKey = some n ∧
      E.limitOrders.find? oldKey = some o ∧ oldKey ≠ newKey ∧ Fair n o newPays oldPays ∧
      E.matchOrders bank newKey oldKey o.sellPrice =
        E.trade bank newKey oldKey n o newPays oldPays := by
  obtain ⟨n, hn, hall⟩ := h.crossing
  obtain ⟨o, ho, hc⟩ := hall oldKey mem_cons_self
  have hkeys : oldKey ≠ newKey := by
    rintro rfl
    rw [hn, Option.some.injEq] at ho
    exact not_crosses_self _ (ho ▸ hc)
  obtain ⟨newPays, oldPays, hfair, heq⟩ :=
    matchOrders_eq hn ho (h.resting _ _ hn) (h.resting _ _ ho) hc bank
  exact ⟨n, o, newPays, oldPays, hn, ho, hkeys, hfair, heq⟩

/-- A match on the walk along the book is a trade. -/
theorem Walking.traded (h : Walking newKey (oldKey :: rest) E)
    {o : LimitOrder σ} (ho : E.limitOrders.find? oldKey = some o) {filled : Bool}
    (hmatch : E.matchOrders bank newKey oldKey o.sellPrice = .ok (E', filled)) :
    Traded newKey oldKey E E' filled := by
  obtain ⟨n, o', newPays, oldPays, hn, ho', hkeys, hfair, heq⟩ := h.matches bank
  rw [ho, Option.some.injEq] at ho'
  subst ho'
  rw [heq] at hmatch
  exact trade_traded hn ho hkeys hfair hmatch

/-- A match that leaves the new order leaves the rest of the walk as it was. -/
theorem Walking.next (h : Walking newKey (oldKey :: rest) E)
    (htraded : Traded newKey oldKey E E' false) : Walking newKey rest E' := by
  obtain ⟨n, hn, hall⟩ := h.crossing
  obtain ⟨n', hn'⟩ := Option.isSome_iff_exists.mp (htraded.left rfl).1
  obtain ⟨n0, hn0, hprice, -⟩ := htraded.shrinks.find hn'
  cases hn.symm.trans hn0
  have hnodup := nodup_cons.mp h.nodup
  refine ⟨htraded.shrinks.resting h.resting, hnodup.2, n', hn', fun k hk => ?_⟩
  obtain ⟨o, ho, hc⟩ := hall k (mem_cons_of_mem _ hk)
  have hold : k ≠ oldKey := fun he => hnodup.1 (he ▸ hk)
  have hnew : k ≠ newKey := by
    rintro rfl
    rw [hn, Option.some.injEq] at ho
    exact not_crosses_self _ (ho ▸ hc)
  exact ⟨o, (htraded.frame k hnew hold).trans ho, hprice ▸ hc⟩

/-- The loop of `apply_order` comes to a match with an order in a state of the book. -/
inductive Comes (bank : Bank σ B) (newKey : OrderKey) :
    List OrderKey → Exchange σ B → OrderKey → Exchange σ B → Prop
  | now (oldKey : OrderKey) (rest : List OrderKey) (E : Exchange σ B) :
    Comes bank newKey (oldKey :: rest) E oldKey E
  | later {oldKey k : OrderKey} {rest : List OrderKey} {o : LimitOrder σ} {E E' T : Exchange σ B}
    (ho : E.limitOrders.find? oldKey = some o)
    (hmatch : E.matchOrders bank newKey oldKey o.sellPrice = .ok (E', false))
    (hcomes : Comes bank newKey rest E' k T) : Comes bank newKey (oldKey :: rest) E k T

/-- `apply_order` of an order of the book performs a match with an old order in a state of the
book. -/
def Performs (bank : Bank σ B) (newKey : OrderKey) (E : Exchange σ B) (oldKey : OrderKey)
    (T : Exchange σ B) : Prop :=
  ∃ n, E.limitOrders.find? newKey = some n ∧
    Comes bank newKey (E.matchingOrders n) E oldKey T

/-- The walk goes on at the next order. -/
theorem Walking.comes (h : Walking newKey rest E) (hcomes : Comes bank newKey rest E oldKey T) :
    ∃ rest', Walking newKey (oldKey :: rest') T := by
  induction hcomes with
  | now oldKey rest E => exact ⟨rest, h⟩
  | later ho hmatch _ ih => exact ih (h.next (h.traded ho hmatch))

/-- If no order lies between the best price and the inverse price, every match that `apply_order`
performs in a book of resting orders is a fair trade, none of the checks fails, and one of the two
orders is gone after it. Otherwise the walk meets no order that crosses the new one. -/
theorem applyOrder_trades (bank : Bank σ B) {E : Exchange σ B} {newKey : OrderKey}
    {n : LimitOrder σ} (hE : E.limitOrders.Holds LimitOrder.Resting)
    (hn : E.limitOrders.find? newKey = some n) :
    ((∀ k o, E.limitOrders.find? k = some o →
        ¬ (o.sellPrice.Gt n.sellPrice.flip.max ∧ n.sellPrice.flip.Gt o.sellPrice)) →
      ∀ oldKey T, E.Performs bank newKey oldKey T →
        ∃ n o newPays oldPays, T.limitOrders.find? newKey = some n ∧
          T.limitOrders.find? oldKey = some o ∧ Fair n o newPays oldPays ∧
          T.matchOrders bank newKey oldKey o.sellPrice =
            T.trade bank newKey oldKey n o newPays oldPays ∧
          ∀ T' filled, T.trade bank newKey oldKey n o newPays oldPays = .ok (T', filled) →
            T'.limitOrders.find? newKey = none ∨ T'.limitOrders.find? oldKey = none) ∧
    ((∃ k o, E.limitOrders.find? k = some o ∧
        o.sellPrice.Gt n.sellPrice.flip.max ∧ n.sellPrice.flip.Gt o.sellPrice) →
      ∀ k ∈ E.matchingOrders n, ∀ o, E.limitOrders.find? k = some o →
        ¬ o.sellPrice.Crosses n.sellPrice) := by
  constructor
  · intro hstops oldKey T hperforms
    have hstops : ¬ E.Overruns n := fun h => by
      obtain ⟨k, o, ho, hbetween⟩ := overruns_iff.mp h
      exact hstops k o ho hbetween
    obtain ⟨n', hn', hcomes⟩ := hperforms
    cases hn.symm.trans hn'
    obtain ⟨rest, hwalk⟩ := (walking_start hE hn hstops).comes hcomes
    obtain ⟨n, o, newPays, oldPays, hn, ho, hkeys, hfair, heq⟩ := hwalk.matches bank
    refine ⟨n, o, newPays, oldPays, hn, ho, hfair, heq, fun T' filled ht => ?_⟩
    have htraded := trade_traded hn ho hkeys hfair ht
    cases filled with
    | true => exact .inl (htraded.gone rfl)
    | false => exact .inr (htraded.left rfl).2
  · intro hbetween k hk o ho
    exact not_crosses_of_overruns (overruns_iff.mpr hbetween) hk ho

theorem threeSbd_pos : 0 < (⟨3, .sbd⟩ : Asset AssetSymbol).amount := by decide

theorem sbd_ne_freezone : AssetSymbol.sbd ≠ .freezone := by decide

/-- Ten of the one asset rest for five of the other, and three of that come for five. -/
def crossed : Exchange AssetSymbol (Holdings AssetSymbol) where
  funds := fun _ _ => 0
  limitOrders := ⟨[
    ((1, 1), ⟨0, 0, 9, 10, ⟨⟨10, .freezone⟩, ⟨5, .sbd⟩, by decide, by decide, by decide⟩⟩),
    ((2, 1), ⟨1, 0, 9, 3, ⟨⟨3, .sbd⟩, ⟨5, .freezone⟩, threeSbd_pos, by decide, by decide⟩⟩)],
    by decide⟩
  nextId := 2
  headBlockTime := 0
  hardfork := 22
  tokens := []

theorem applyOrder_trades_crossed : crossed.limitOrders.Holds LimitOrder.Resting ∧
    crossed.Performs Holdings.bank (2, 1) (1, 1) crossed ∧
    ∃ n o newPays oldPays, crossed.limitOrders.find? (2, 1) = some n ∧
      crossed.limitOrders.find? (1, 1) = some o ∧ Fair n o newPays oldPays := by
  have hresting : crossed.limitOrders.Holds LimitOrder.Resting := by
    intro k o ho
    rw [find?_eq_some] at ho
    simp only [crossed, mem_cons, not_mem_nil, or_false, Prod.mk.injEq] at ho
    rcases ho with ⟨-, rfl⟩ | ⟨-, rfl⟩
    · exact ⟨by decide, by decide, by decide, by decide, ⟨5, .sbd⟩, rfl, by decide⟩
    · exact ⟨by decide, by decide, by decide, by decide, ⟨5, .freezone⟩, rfl, by decide⟩
  have hmatching : ∀ n, crossed.limitOrders.find? (2, 1) = some n →
      ¬ crossed.Overruns n ∧ crossed.matchingOrders n = [(1, 1)] := by
    rintro n hn
    obtain rfl := Option.some.inj hn
    decide +kernel
  have hperforms : crossed.Performs Holdings.bank (2, 1) (1, 1) crossed := by
    refine ⟨_, rfl, ?_⟩
    rw [(hmatching _ rfl).2]
    exact Comes.now (1, 1) [] crossed
  have hstops : ∀ k o, crossed.limitOrders.find? k = some o → ¬ (o.sellPrice.Gt _ ∧ Gt _ _) :=
    fun k o ho hbetween => (hmatching _ rfl).1 (overruns_iff.mpr ⟨k, o, ho, hbetween⟩)
  obtain ⟨n, o, newPays, oldPays, hn, ho, hfair, -⟩ :=
    (applyOrder_trades Holdings.bank hresting rfl).1 hstops (1, 1) crossed hperforms
  exact ⟨hresting, hperforms, n, o, newPays, oldPays, hn, ho, hfair⟩

theorem fiveSbd_pos : 0 < (⟨5000000000000000000, .sbd⟩ : Asset AssetSymbol).amount := by decide

theorem sixSbd_pos : 0 < (⟨6000000000000000000, .sbd⟩ : Asset AssetSymbol).amount := by decide

/-- Two orders sell dollars for one `freezone`, the first above the best price, and a new order
asks for more dollars than either. -/
def dear : Exchange AssetSymbol (Holdings AssetSymbol) where
  funds := fun _ _ => 0
  limitOrders := ⟨[
    ((1, 1), ⟨0, 0, 9, 5000000000000000000,
      ⟨⟨5000000000000000000, .sbd⟩, ⟨1, .freezone⟩, fiveSbd_pos, Int.one_pos, sbd_ne_freezone⟩⟩),
    ((2, 1), ⟨1, 0, 9, 1, ⟨⟨1, .sbd⟩, ⟨1, .freezone⟩, Int.one_pos, Int.one_pos, sbd_ne_freezone⟩⟩),
    ((3, 1), ⟨2, 0, 9, 1, ⟨⟨1, .freezone⟩, ⟨6000000000000000000, .sbd⟩, Int.one_pos, sixSbd_pos,
      sbd_ne_freezone.symm⟩⟩)], by decide⟩
  nextId := 3
  headBlockTime := 0
  hardfork := 22
  tokens := []

/-- The new order gets one of the six quintillion satoshi that it asks for. -/
theorem applyOrder_underpays : dear.limitOrders.Holds LimitOrder.Resting ∧
    dear.Performs Holdings.bank (3, 1) (2, 1) dear ∧
    ∃ n o, dear.limitOrders.find? (3, 1) = some n ∧ dear.limitOrders.find? (2, 1) = some o ∧
      matchAmounts n o o.sellPrice = .ok (⟨1, .freezone⟩, ⟨1, .sbd⟩) ∧
      n.sellPrice.asks 1 = 6000000000000000000 := by
  refine ⟨fun k o ho => ?_, ⟨_, rfl, ?_⟩, _, _, rfl, rfl, rfl, by decide +kernel⟩
  · rw [find?_eq_some] at ho
    simp only [dear, mem_cons, not_mem_nil, or_false, Prod.mk.injEq] at ho
    rcases ho with ⟨-, rfl⟩ | ⟨-, rfl⟩ | ⟨-, rfl⟩
    · exact ⟨by decide, by decide, by decide, by decide, ⟨1, .freezone⟩, rfl, by decide⟩
    · exact ⟨by decide, by decide, by decide, by decide, ⟨1, .freezone⟩, rfl, by decide⟩
    · exact ⟨by decide, by decide, by decide, by decide, ⟨6000000000000000000, .sbd⟩, rfl,
        by decide⟩
  · have hmatching : ∀ n, dear.limitOrders.find? (3, 1) = some n →
        dear.matchingOrders n = [(2, 1)] := by
      rintro n hn
      obtain rfl := Option.some.inj hn
      decide +kernel
    rw [hmatching _ rfl]
    exact Comes.now (2, 1) _ dear

end Freezone.Chain.Market.Exchange
