import Freezone.Protocol.Asset
import Freezone.Protocol.AssetSymbol

/-!
# Prices in order

Prices of all markets share one order: by the two symbols first, then by the
ratio of the amounts. The product of an asset and a price is computed in 128 bits
and returned in 64.
-/

namespace Freezone.Protocol

/-- `freezone_MAX_SATOSHIS`. -/
def maxSatoshis : Int := 4611686018427387903

theorem maxSatoshis_pos : 0 < maxSatoshis := by decide

namespace Price

variable {σ : Type} (p : Price σ)

/-- `price::max`. -/
def max : Price σ :=
  ⟨⟨maxSatoshis, p.base.symbol⟩, ⟨1, p.quote.symbol⟩, maxSatoshis_pos, Int.one_pos, p.symbol_ne⟩

/-- What the price asks for an amount of its base, rounded down. -/
def asks (amount : Int) : Int := amount * p.quote.amount / p.base.amount

/-- The two prices are those of the two sides of one market. -/
def Opposite (p q : Price σ) : Prop :=
  p.base.symbol = q.quote.symbol ∧ p.quote.symbol = q.base.symbol

/-- The price of one side satisfies the limit of the other. -/
def Crosses (p q : Price σ) : Prop := p.Opposite q ∧ p.Ge q.flip

/-- Opposite prices cross if their ratios multiply to at least one. -/
theorem crosses_iff {p q : Price σ} : p.Crosses q ↔ p.Opposite q ∧
    p.quote.amount * q.quote.amount ≤ p.base.amount * q.base.amount := by
  rw [Crosses, Ge, flip, Int.mul_comm q.base.amount]

theorem Crosses.symm {p q : Price σ} (h : p.Crosses q) : q.Crosses p := by
  obtain ⟨⟨hb, hq⟩, hle⟩ := crosses_iff.mp h
  refine crosses_iff.mpr ⟨⟨hq.symm, hb.symm⟩, ?_⟩
  rwa [Int.mul_comm q.quote.amount, Int.mul_comm q.base.amount]

/-- No price crosses itself. -/
theorem not_crosses_self : ¬ p.Crosses p := fun h => p.symbol_ne h.1.1

theorem asks_le_asks {x y : Int} (h : x ≤ y) : p.asks x ≤ p.asks y :=
  Int.ediv_le_ediv p.base_pos (Int.mul_le_mul_of_nonneg_right h p.quote_pos.le)

theorem asks_nonneg {x : Int} (h : 0 ≤ x) : 0 ≤ p.asks x :=
  Int.ediv_nonneg (Int.mul_nonneg h p.quote_pos.le) p.base_pos.le

/-- Converting there and back loses to the rounding. -/
theorem flip_asks_asks_le (x : Int) : p.flip.asks (p.asks x) ≤ x := by
  have h : p.asks x * p.base.amount ≤ x * p.quote.amount := Int.ediv_mul_le _ p.base_pos.ne'
  have h' : p.asks x * p.base.amount / p.quote.amount ≤ x * p.quote.amount / p.quote.amount :=
    Int.ediv_le_ediv p.quote_pos h
  rwa [Int.mul_ediv_cancel _ p.quote_pos.ne'] at h'

/-- At the price of the one side, the other gets what its own price asks. -/
theorem Crosses.asks_le {p q : Price σ} (h : p.Crosses q) {x : Int} (hx : 0 ≤ x) :
    q.asks x ≤ p.flip.asks x := by
  have hle := (crosses_iff.mp h).2
  have hq : q.asks x * q.base.amount ≤ x * q.quote.amount := Int.ediv_mul_le _ q.base_pos.ne'
  refine (Int.le_ediv_iff_mul_le p.quote_pos).mpr ?_
  -- compare after multiplying both sides with the base of the other price
  refine Int.le_of_mul_le_mul_right ?_ q.base_pos
  calc q.asks x * p.quote.amount * q.base.amount
      = q.asks x * q.base.amount * p.quote.amount := by ring
    _ ≤ x * q.quote.amount * p.quote.amount := Int.mul_le_mul_of_nonneg_right hq p.quote_pos.le
    _ = x * (p.quote.amount * q.quote.amount) := by ring
    _ ≤ x * (p.base.amount * q.base.amount) := Int.mul_le_mul_of_nonneg_left hle hx
    _ = x * p.base.amount * q.base.amount := by ring

/-- The ratio of the amounts. -/
def ratio : ℚ := p.base.amount / p.quote.amount

/-- The order of the prices, without a division. -/
theorem ratio_lt_iff {p q : Price σ} : q.ratio < p.ratio ↔
    p.quote.amount * q.base.amount < q.quote.amount * p.base.amount := by
  have hp : (0 : ℚ) < p.quote.amount := Int.cast_pos.mpr p.quote_pos
  have hq : (0 : ℚ) < q.quote.amount := Int.cast_pos.mpr q.quote_pos
  rw [ratio, ratio, div_lt_div_iff₀ hq hp]
  constructor
  · intro h
    have h' : q.base.amount * p.quote.amount < p.base.amount * q.quote.amount := by exact_mod_cast h
    linarith
  · intro h
    have h' : q.base.amount * p.quote.amount < p.base.amount * q.quote.amount := by linarith
    exact_mod_cast h'

variable [LinearOrder σ]

/-- The symbols as they are compared. -/
def symbols : σ ×ₗ σ := toLex (p.base.symbol, p.quote.symbol)

/-- `p > q`. -/
def Gt (p q : Price σ) : Prop :=
  if p.symbols ≠ q.symbols then q.symbols < p.symbols
  else p.quote.amount * q.base.amount < q.quote.amount * p.base.amount

instance (p q : Price σ) : Decidable (p.Gt q) :=
  inferInstanceAs (Decidable (if p.symbols ≠ q.symbols then q.symbols < p.symbols
    else p.quote.amount * q.base.amount < q.quote.amount * p.base.amount))

/-- The place of a price in the order of all prices. -/
def rank : (σ ×ₗ σ) ×ₗ ℚ := toLex (p.symbols, p.ratio)

/-- The comparison is that of the ranks. -/
theorem gt_iff {p q : Price σ} : p.Gt q ↔ q.rank < p.rank := by
  rw [rank, rank, Prod.Lex.toLex_lt_toLex, ratio_lt_iff, Gt]
  by_cases hs : p.symbols = q.symbols
  · simp [hs]
  · have hs' : q.symbols ≠ p.symbols := fun h => hs h.symm
    simp [hs, hs']

/-- The prices between the best one and the inverse of a limit are those that cross it. -/
theorem crosses_iff_between {p q : Price σ} :
    p.Crosses q ↔ p.symbols = q.flip.symbols ∧ ¬ q.flip.Gt p := by
  have hsym : p.symbols = q.flip.symbols ↔ p.Opposite q := by
    rw [symbols, symbols, toLex_inj, Prod.mk.injEq]
    exact Iff.rfl
  rw [hsym, Crosses]
  refine and_congr_right fun ho => ?_
  rw [Gt, if_neg (not_not.mpr (hsym.mpr ho).symm), not_lt, Ge]

/-- A price that is neither above the greatest nor below the least of a market is of that market. -/
theorem symbols_eq_of_between {p q : Price σ} (hmax : ¬ p.Gt q.max) (hmin : ¬ q.Gt p) :
    p.symbols = q.symbols := by
  have hq : q.max.symbols = q.symbols := rfl
  by_contra hne
  rw [Gt, hq, if_pos hne, not_lt] at hmax
  rw [Gt, if_pos (Ne.symm hne), not_lt] at hmin
  exact hne (le_antisymm hmax hmin)

/-- A price above the greatest of a market and below another of the market is of that market. -/
theorem symbols_eq_of_above {p q : Price σ} (hmax : p.Gt q.max) (hmin : q.Gt p) :
    p.symbols = q.symbols := by
  have hq : q.max.symbols = q.symbols := rfl
  by_contra hne
  rw [Gt, hq, if_pos hne] at hmax
  rw [Gt, if_pos (Ne.symm hne)] at hmin
  exact lt_asymm hmax hmin

end Price

/-- The product of an amount and a fraction in 128 bits, returned in 64 bits. -/
def scale (amount num den : Int) : Except String Int :=
  let result := amount * num % 2 ^ 128 / den
  if result < 2 ^ 64 then .ok (result.bmod (2 ^ 64)) else .error "result.hi == 0"

/-- The product of amounts that are not negative does not wrap before it is returned. -/
theorem scale_eq {amount num den : Int} (ha : 0 ≤ amount) (ha' : amount < 2 ^ 63)
    (hn : 0 < num) (hn' : num < 2 ^ 63) : scale amount num den = if amount * num / den < 2 ^ 64
      then .ok ((amount * num / den).bmod (2 ^ 64)) else .error "result.hi == 0" := by
  have hprod : amount * num < 2 ^ 128 := by
    calc amount * num ≤ 2 ^ 63 * 2 ^ 63 := Int.mul_le_mul ha'.le hn'.le hn.le (by norm_num)
      _ < 2 ^ 128 := by norm_num
  simp only [scale, Int.emod_eq_of_lt (Int.mul_nonneg ha hn.le) hprod]

/-- The product of a negative amount wraps to nearly `2 ^ 128`, which no 63-bit divisor brings down
to 64 bits. -/
theorem scale_neg {amount num den : Int} (ha : -2 ^ 63 ≤ amount) (hneg : amount < 0)
    (hn : 0 < num) (hn' : num < 2 ^ 63) (hd : 0 < den) (hd' : den < 2 ^ 63) :
    scale amount num den = .error "result.hi == 0" := by
  have hlow : -2 ^ 126 ≤ amount * num := by nlinarith
  have hprod : amount * num < 0 := mul_neg_of_neg_of_pos hneg hn
  have hmod : amount * num % 2 ^ 128 = amount * num + 2 ^ 128 := by omega
  have hge : ¬ amount * num % 2 ^ 128 / den < 2 ^ 64 := by
    rw [hmod, Int.ediv_lt_iff_lt_mul hd]
    nlinarith
  simp only [scale, if_neg hge]

/-- A product that is positive as a 64-bit number did not wrap. -/
theorem scale_pos {amount num den r : Int} (ha : -2 ^ 63 ≤ amount) (ha' : amount < 2 ^ 63)
    (hn : 0 < num) (hn' : num < 2 ^ 63) (hd : 0 < den) (hd' : den < 2 ^ 63)
    (h : scale amount num den = .ok r) (hr : 0 < r) :
    0 < amount ∧ r = amount * num / den ∧ r < 2 ^ 63 := by
  have hamount : 0 ≤ amount := by
    by_contra hneg
    rw [scale_neg ha (not_le.mp hneg) hn hn' hd hd'] at h
    cases h
  rw [scale_eq hamount ha' hn hn'] at h
  split_ifs at h with hlt
  rw [Except.ok.injEq] at h
  have hres : 0 ≤ amount * num / den := Int.ediv_nonneg (Int.mul_nonneg hamount hn.le) hd.le
  have hsmall : amount * num / den < 2 ^ 63 := by
    by_contra hbig
    rw [Int.bmod_def, Int.emod_eq_of_lt hres (by omega), if_neg (by omega)] at h
    omega
  rw [Int.bmod_eq_of_le (by omega) (by omega)] at h
  refine ⟨?_, h.symm, by omega⟩
  by_contra hneg
  have hzero : amount = 0 := by omega
  rw [hzero, Int.zero_mul, Int.zero_ediv] at h
  omega

namespace Asset

variable {σ : Type} [DecidableEq σ]

/-- `asset * price`. -/
def mul64 (a : Asset σ) (p : Price σ) : Except String (Asset σ) := do
  if a.symbol = p.base.symbol then
    let result ← scale a.amount p.quote.amount p.base.amount
    .ok ⟨result, p.quote.symbol⟩
  else if a.symbol = p.quote.symbol then
    let result ← scale a.amount p.base.amount p.quote.amount
    .ok ⟨result, p.base.symbol⟩
  else .error "invalid asset * price"

/-- On amounts of 64 bits the product of the ledger is that of the source. -/
theorem mul_eq_mul64 {a : Asset σ} {p : Price σ} (ha : -2 ^ 63 ≤ a.amount)
    (ha' : a.amount < 2 ^ 63) (hb : p.base.amount < 2 ^ 63) (hq : p.quote.amount < 2 ^ 63) :
    a.mul p = a.mul64 p := by
  have hscale : ∀ num den : Int, 0 < num → num < 2 ^ 63 → 0 < den → den < 2 ^ 63 → ∀ symbol : σ,
      (do
        ensure (0 ≤ a.amount) "result.hi == 0"
        ensure (a.amount * num / den < 2 ^ 64) "result.hi == 0"
        .ok (⟨(a.amount * num / den).bmod (2 ^ 64), symbol⟩ : Asset σ)) =
      (do
        let result ← scale a.amount num den
        .ok ⟨result, symbol⟩) := by
    intro num den hn hn' hd hd' symbol
    by_cases h0 : 0 ≤ a.amount
    · rw [scale_eq h0 ha' hn hn', ensure, if_pos h0]
      by_cases hlt : a.amount * num / den < 2 ^ 64
      · rw [ensure, if_pos hlt, if_pos hlt]
        rfl
      · rw [ensure, if_neg hlt, if_neg hlt]
        rfl
    · rw [scale_neg ha (not_le.mp h0) hn hn' hd hd', ensure, if_neg h0]
      rfl
  unfold mul quotient mul64
  split_ifs
  · rw [← hscale _ _ p.quote_pos hq p.base_pos hb]
    by_cases h0 : 0 ≤ a.amount <;> simp only [ensure, h0, if_true, if_false] <;> rfl
  · rw [← hscale _ _ p.base_pos hb p.quote_pos hq]
    by_cases h0 : 0 ≤ a.amount <;> simp only [ensure, h0, if_true, if_false] <;> rfl
  · rfl

theorem mul64_base {a : Asset σ} {p : Price σ} (h : a.symbol = p.base.symbol) : a.mul64 p = (do
      let result ← scale a.amount p.quote.amount p.base.amount
      .ok ⟨result, p.quote.symbol⟩) := by
  rw [mul64, if_pos h]

/-- The product of an amount of the base is what the price asks for it, if that fits. -/
theorem mul64_eq_asks {a : Asset σ} {p : Price σ} (h : a.symbol = p.base.symbol)
    (ha : 0 ≤ a.amount) (ha' : a.amount < 2 ^ 63) (hq : p.quote.amount < 2 ^ 63)
    (hlt : p.asks a.amount < 2 ^ 63) : a.mul64 p = .ok ⟨p.asks a.amount, p.quote.symbol⟩ := by
  have hres := Int.ediv_nonneg (Int.mul_nonneg ha p.quote_pos.le) p.base_pos.le
  unfold Price.asks at hlt
  rw [mul64_base h, scale_eq ha ha' p.quote_pos hq, if_pos (by omega),
    Int.bmod_eq_of_le (by omega) (by omega)]
  rfl

/-- A product of an amount of the base that is positive is what the price asks for it. -/
theorem asks_of_mul64 {a b : Asset σ} {p : Price σ} (h : a.symbol = p.base.symbol)
    (ha : -2 ^ 63 ≤ a.amount) (ha' : a.amount < 2 ^ 63) (hb : p.base.amount < 2 ^ 63)
    (hq : p.quote.amount < 2 ^ 63) (hmul : a.mul64 p = .ok b) (hpos : 0 < b.amount) :
    0 < a.amount ∧ b = ⟨p.asks a.amount, p.quote.symbol⟩ ∧ p.asks a.amount < 2 ^ 63 := by
  rw [mul64_base h, Checked.bind_eq_ok] at hmul
  obtain ⟨r, hr, hok⟩ := hmul
  cases hok
  obtain ⟨hamount, rfl, hlt⟩ := scale_pos ha ha' p.quote_pos hq p.base_pos hb hr hpos
  exact ⟨hamount, rfl, hlt⟩

/-- An asset of the quote is multiplied by the inverse of the price. -/
theorem mul64_quote {a : Asset σ} {p : Price σ} (h : a.symbol = p.quote.symbol) :
    a.mul64 p = a.mul64 p.flip := by
  have hb : ¬ a.symbol = p.base.symbol := fun hb => p.symbol_ne (hb.symm.trans h)
  have hflip : a.symbol = p.flip.base.symbol := h
  rw [mul64_base hflip, mul64, if_neg hb, if_pos h]
  rfl

/-- A flipped price has the same values. -/
theorem mul64_flip (a : Asset σ) (p : Price σ) : a.mul64 p.flip = a.mul64 p := by
  by_cases hb : a.symbol = p.base.symbol
  · exact mul64_quote (p := p.flip) hb
  · by_cases hq : a.symbol = p.quote.symbol
    · exact (mul64_quote hq).symm
    · simp only [mul64, Price.flip, hb, hq, if_false]

/-- The rational product, rounded down, of an asset of either side. -/
def worth (p : Price σ) (a : Asset σ) : Int :=
  if a.symbol = p.base.symbol then p.asks a.amount
  else if a.symbol = p.quote.symbol then p.flip.asks a.amount
  else 0

/-- What one expects of a product: it is exact, it grows with the amount, the parts of the amount
bring no more than the whole, and it does not bring more than the amount when it is converted
back. -/
def MulFair (a : Asset σ) (p : Price σ) : Prop :=
  ∀ b, a.mul64 p = .ok b →
    (b.amount = worth p a ∧ 0 ≤ b.amount ∧ b.amount < 2 ^ 63) ∧
    (∀ x c, 0 ≤ x → x ≤ a.amount → mul64 ⟨x, a.symbol⟩ p = .ok c → c.amount ≤ b.amount) ∧
    (∀ x y c d, 0 ≤ x → 0 ≤ y → x + y = a.amount → mul64 ⟨x, a.symbol⟩ p = .ok c →
      mul64 ⟨y, a.symbol⟩ p = .ok d → c.amount + d.amount ≤ b.amount) ∧
    ∀ c, b.mul64 p = .ok c → c.amount ≤ a.amount

section Fair

variable {σ : Type} [LinearOrder σ] {a : Asset σ} {p : Price σ}

/-- The value of an amount of the base, or the throw beyond 64 bits. -/
theorem mul64_base_eq (h : a.symbol = p.base.symbol) (ha : 0 ≤ a.amount)
    (ha' : a.amount < 2 ^ 63) (hq : p.quote.amount < 2 ^ 63) :
    a.mul64 p = if p.asks a.amount < 2 ^ 64
      then .ok ⟨(p.asks a.amount).bmod (2 ^ 64), p.quote.symbol⟩
      else .error "result.hi == 0" := by
  rw [mul64_base h, scale_eq ha ha' p.quote_pos hq, Price.asks]
  split <;> rfl

/-- The value is fair unless its 64 bits read as a negative number. -/
theorem mulFair_base_iff (h : a.symbol = p.base.symbol) (ha : 0 ≤ a.amount)
    (ha' : a.amount < 2 ^ 63) (hb : p.base.amount < 2 ^ 63) (hq : p.quote.amount < 2 ^ 63) :
    a.MulFair p ↔ ¬ (2 ^ 63 ≤ p.asks a.amount ∧ p.asks a.amount < 2 ^ 64) := by
  have hworth : worth p a = p.asks a.amount := if_pos h
  have hnonneg := p.asks_nonneg ha
  constructor
  · rintro hfair ⟨hge, hlt⟩
    -- a quotient of 64 bits comes back negative
    obtain ⟨⟨hexact, -, hsmall⟩, -⟩ := hfair _ ((mul64_base_eq h ha ha' hq).trans (if_pos hlt))
    omega
  · intro hrange b hmul
    have hlt : p.asks a.amount < 2 ^ 63 := by
      by_contra hge
      rw [mul64_base_eq h ha ha' hq, if_neg (by omega)] at hmul
      cases hmul
    -- every smaller amount has its exact product
    have hpart : ∀ x c, 0 ≤ x → x ≤ a.amount → mul64 ⟨x, a.symbol⟩ p = .ok c →
        c.amount = p.asks x := by
      intro x c hx hxa hc
      rw [mul64_eq_asks (a := ⟨x, a.symbol⟩) h hx (hxa.trans_lt ha') hq
        ((p.asks_le_asks hxa).trans_lt hlt)] at hc
      cases hc
      rfl
    have hbeq := hpart _ b ha le_rfl hmul
    refine ⟨⟨hworth ▸ hbeq, hbeq ▸ hnonneg, hbeq ▸ hlt⟩, ?_, ?_, ?_⟩
    · intro x c hx hxa hc
      rw [hpart x c hx hxa hc, hbeq]
      exact p.asks_le_asks hxa
    · intro x y c d hx hy hxy hc hd
      rw [hpart x c hx (by omega) hc, hpart y d hy (by omega) hd, hbeq, ← hxy, Price.asks,
        Price.asks, Price.asks, Int.add_mul]
      refine (Int.le_ediv_iff_mul_le p.base_pos).mpr ?_
      rw [Int.add_mul]
      exact Int.add_le_add (Int.ediv_mul_le _ p.base_pos.ne') (Int.ediv_mul_le _ p.base_pos.ne')
    · intro c hc
      have hsymbol : b.symbol = p.flip.base.symbol := by
        rw [mul64_eq_asks h ha ha' hq hlt] at hmul
        cases hmul
        rfl
      have hback := p.flip_asks_asks_le a.amount
      rw [← mul64_flip, mul64_eq_asks hsymbol (hbeq ▸ hnonneg) (hbeq ▸ hlt) hb
        (by rw [hbeq]; omega)] at hc
      cases hc
      rw [hbeq]
      exact hback

/-- A product is as expected just when it does not take the 64th bit. -/
theorem mulFair_iff (ha : 0 ≤ a.amount) (ha' : a.amount < 2 ^ 63)
    (hb : p.base.amount < 2 ^ 63) (hq : p.quote.amount < 2 ^ 63) :
    a.MulFair p ↔ ¬ (2 ^ 63 ≤ worth p a ∧ worth p a < 2 ^ 64) := by
  by_cases hbase : a.symbol = p.base.symbol
  · rw [mulFair_base_iff hbase ha ha' hb hq, worth, if_pos hbase]
  by_cases hquote : a.symbol = p.quote.symbol
  · have hflip := mulFair_base_iff (p := p.flip) hquote ha ha' hq hb
    have hworth : worth p a = p.flip.asks a.amount := by rw [worth, if_neg hbase, if_pos hquote]
    have hsame : worth p.flip a = worth p a := by rw [hworth, worth]; exact if_pos hquote
    rw [hworth, ← hflip]
    simp only [MulFair, mul64_flip, hsame]
  · -- an asset of a third symbol is not converted at all
    refine iff_of_true (fun b hmul => ?_) ?_
    · rw [mul64, if_neg hbase, if_neg hquote] at hmul
      cases hmul
    · rw [worth, if_neg hbase, if_neg hquote]
      omega

end Fair

/-- A price of one unit for three. -/
def oneForThree : Price AssetSymbol :=
  ⟨⟨1, .freezone⟩, ⟨3, .sbd⟩, by decide, by decide, by decide⟩

theorem mulFair_seven : MulFair ⟨7, .freezone⟩ oneForThree :=
  (mulFair_iff (by decide) (by decide) (by decide) (by decide)).mpr (by decide)

/-- Three times `2 ^ 62` is returned as a negative amount. -/
theorem mul64_negative : mul64 ⟨2 ^ 62, .freezone⟩ oneForThree = .ok ⟨-2 ^ 62, .sbd⟩ := by decide

end Asset

end Freezone.Protocol
