import Freezone.Core.Checked

/-!
# Assets and prices

Amounts are whole numbers of the smallest unit. A price relates two assets of
different symbols; multiplying an asset by a price gives the other side of it,
rounded down. The type of the symbols is that of the market in question: the two
liquid currencies, or a liquid token and its vesting shares.
-/

namespace Freezone.Protocol

/-- `freezone_100_PERCENT`. -/
def hundredPercent : Nat := 10000

/-- The liquid currencies, `freezone_SYMBOL` and `SBD_SYMBOL`. -/
inductive Liquid
  | freezone
  | sbd
  deriving DecidableEq

/-- The two sides of the price of vesting shares, `freezone_SYMBOL` and `VESTS_SYMBOL`. -/
inductive Stake
  | freezone
  | vests
  deriving DecidableEq

/-- `asset`. -/
structure Asset (σ : Type) where
  amount : Int
  symbol : σ
  deriving DecidableEq

/-- `price`; its constructor validates. -/
structure Price (σ : Type) where
  base : Asset σ
  quote : Asset σ
  base_pos : 0 < base.amount
  quote_pos : 0 < quote.amount
  symbol_ne : base.symbol ≠ quote.symbol

variable {σ : Type}

instance : Neg (Asset σ) := ⟨fun a => ⟨-a.amount, a.symbol⟩⟩

@[simp] theorem Asset.neg_amount (a : Asset σ) : (-a).amount = -a.amount := rfl

@[simp] theorem Asset.neg_symbol (a : Asset σ) : (-a).symbol = a.symbol := rfl

variable [DecidableEq σ]

namespace Price

/-- The constructor of `price`. -/
def make (base quote : Asset σ) : Except String (Price σ) :=
  if h : 0 < base.amount ∧ 0 < quote.amount ∧ base.symbol ≠ quote.symbol then
    .ok ⟨base, quote, h.1, h.2.1, h.2.2⟩
  else .error "price::validate"

variable {p : Price σ}

theorem make_eq_ok {base quote : Asset σ} (h : make base quote = .ok p) :
    p.base = base ∧ p.quote = quote := by
  unfold make at h
  split at h
  · cases h
    exact ⟨rfl, rfl⟩
  · cases h

/-- The price read from its other side, `~price`. -/
def flip (p : Price σ) : Price σ := ⟨p.quote, p.base, p.quote_pos, p.base_pos, p.symbol_ne.symm⟩

/-- The comparison `p >= q` of prices of the same two symbols. -/
def Ge (p q : Price σ) : Prop :=
  p.quote.amount * q.base.amount ≤ q.quote.amount * p.base.amount

instance (p q : Price σ) : Decidable (p.Ge q) :=
  inferInstanceAs (Decidable (_ ≤ _))

end Price

namespace Asset

/-- The exact product of an asset and a price. The 128-bit product of a negative amount is out of
range. -/
def quotient (a : Asset σ) (p : Price σ) : Except String (Asset σ) :=
  if a.symbol = p.base.symbol then do
    ensure (0 ≤ a.amount) "result.hi == 0"
    .ok ⟨a.amount * p.quote.amount / p.base.amount, p.quote.symbol⟩
  else if a.symbol = p.quote.symbol then do
    ensure (0 ≤ a.amount) "result.hi == 0"
    .ok ⟨a.amount * p.base.amount / p.quote.amount, p.base.symbol⟩
  else .error "invalid asset * price"

/-- `asset * price`: the quotient has to fit into 64 bits, and is returned as a signed number. -/
def mul (a : Asset σ) (p : Price σ) : Except String (Asset σ) := do
  let result ← a.quotient p
  ensure (result.amount < 2 ^ 64) "result.hi == 0"
  .ok ⟨result.amount.bmod (2 ^ 64), result.symbol⟩

/-- The product does not take the 64th bit. -/
def Fits (a : Asset σ) (p : Price σ) : Prop :=
  ∀ b ∈ (a.quotient p).toOption, b.amount < 2 ^ 63

instance (a : Asset σ) (p : Price σ) : Decidable (a.Fits p) :=
  inferInstanceAs (Decidable (∀ b ∈ (a.quotient p).toOption, b.amount < 2 ^ 63))

/-- What a quotient says about its factors. -/
theorem quotient_eq_ok {a b : Asset σ} (h : a.quotient p = .ok b) : 0 ≤ a.amount ∧
      ((a.symbol = p.base.symbol ∧ b = ⟨a.amount * p.quote.amount / p.base.amount,
      p.quote.symbol⟩) ∨
        (a.symbol = p.quote.symbol ∧
          b = ⟨a.amount * p.base.amount / p.quote.amount, p.base.symbol⟩)) := by
  unfold quotient at h
  split_ifs at h with hb hq
  · simp only [returns] at h
    obtain ⟨-, ha, rfl⟩ := h
    exact ⟨ha, .inl ⟨hb, rfl⟩⟩
  · simp only [returns] at h
    obtain ⟨-, ha, rfl⟩ := h
    exact ⟨ha, .inr ⟨hq, rfl⟩⟩

/-- The value at a price is not negative. -/
theorem quotient_nonneg {a b : Asset σ} (h : a.quotient p = .ok b) : 0 ≤ b.amount := by
  obtain ⟨ha, ⟨-, rfl⟩ | ⟨-, rfl⟩⟩ := quotient_eq_ok h
  · exact Int.ediv_nonneg (Int.mul_nonneg ha p.quote_pos.le) p.base_pos.le
  · exact Int.ediv_nonneg (Int.mul_nonneg ha p.base_pos.le) p.quote_pos.le

/-- An amount that is not negative has a quotient in either currency of the price. -/
theorem exists_quotient {a : Asset σ} (ha : 0 ≤ a.amount)
    (hsymbol : a.symbol = p.base.symbol ∨ a.symbol = p.quote.symbol) :
    ∃ b, a.quotient p = .ok b := by
  unfold quotient
  split_ifs with hbase hquote
  · simp only [returns]
    exact ⟨_, (), ha, rfl⟩
  · simp only [returns]
    exact ⟨_, (), ha, rfl⟩
  · exact absurd hsymbol (not_or.mpr ⟨hbase, hquote⟩)

/-- A product is the quotient in 64 bits. -/
theorem mul_eq_ok {a b : Asset σ} (h : a.mul p = .ok b) : ∃ c, a.quotient p = .ok c ∧
    c.amount < 2 ^ 64 ∧ b = ⟨c.amount.bmod (2 ^ 64), c.symbol⟩ := by
  simp only [mul, returns] at h
  obtain ⟨c, hc, -, hlt, rfl⟩ := h
  exact ⟨c, hc, hlt, rfl⟩

/-- Only an amount that is not negative has a value. -/
theorem amount_nonneg_of_mul {a b : Asset σ} (h : a.mul p = .ok b) : 0 ≤ a.amount := by
  obtain ⟨c, hc, -⟩ := mul_eq_ok h
  exact (quotient_eq_ok hc).1

/-- A product that does not take the 64th bit is the quotient. -/
theorem Fits.quotient_eq {a b : Asset σ} (hf : a.Fits p) (h : a.mul p = .ok b) :
    a.quotient p = .ok b := by
  obtain ⟨c, hc, -, rfl⟩ := mul_eq_ok h
  have hlt : c.amount < 2 ^ 63 := hf c (by rw [hc]; rfl)
  have hnonneg := quotient_nonneg hc
  rw [hc, Int.bmod_eq_of_le (by omega) (by omega)]

/-- A value that fits is not negative. -/
theorem Fits.mul_nonneg {a b : Asset σ} (hf : a.Fits p) (h : a.mul p = .ok b) : 0 ≤ b.amount :=
  quotient_nonneg (hf.quotient_eq h)

/-- The part of an asset in a currency. -/
def part (s : σ) (a : Asset σ) : Int := if a.symbol = s then a.amount else 0

/-- A product has the other symbol. -/
theorem mul_symbol_ne {a b : Asset σ} (h : a.mul p = .ok b) : b.symbol ≠ a.symbol := by
  obtain ⟨c, hc, -, rfl⟩ := mul_eq_ok h
  obtain ⟨-, ⟨hs, rfl⟩ | ⟨hs, rfl⟩⟩ := quotient_eq_ok hc
  · exact fun he => p.symbol_ne (hs ▸ he.symm)
  · exact fun he => p.symbol_ne (hs ▸ he)

end Asset

end Freezone.Protocol
