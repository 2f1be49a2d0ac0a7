import Freezone.Core.SortedRange
import Freezone.Chain.Ledger.Model

/-!
# Generation units and tiers of an initial coin offering

Each tier of the offering of a token says, up to a cap on the FREEZONE contributed,
how a unit of FREEZONE and the tokens created for it are distributed. One index
holds the tiers of all tokens in the order of token and cap. A token is known by the
number of its liquid symbol.
-/

namespace Freezone.Chain.Tokens

open Funds List

/-- `freezone_MAX_SHARE_SUPPLY`. -/
def maxShareSupply : Int := 10 ^ 15

/-- `SST_MAX_UNIT_ROUTES`. -/
def maxUnitRoutes : Nat := 10

/-- `unit_target_type`: the special destinations and those that name an account. -/
inductive UnitTarget
  | contributor
  | contributorVesting
  | marketMaker
  | rewards
  | vesting
  | account (name : AccountName)
  | accountVesting (name : AccountName)
  deriving DecidableEq

namespace UnitTarget

/-- `is_contributor`. -/
def IsContributor : UnitTarget → Bool
  | contributor => true
  | contributorVesting => true
  | _ => false

/-- `is_valid_SST_ico_freezone_destination`. -/
def IcoFreezoneDestination : UnitTarget → Bool
  | account _ => true
  | marketMaker => true
  | accountVesting _ => true
  | _ => false

/-- `is_valid_SST_ico_token_destination`. -/
def IcoTokenDestination : UnitTarget → Bool
  | vesting => false
  | _ => true

end UnitTarget

/-- The sum of the weights of a unit. -/
def unitSum (unit : List (UnitTarget × Nat)) : Nat := (unit.map Prod.snd).sum

/-- `SST_generation_unit` as `SST_capped_generation_policy` validates it. -/
structure GenerationUnit where
  freezoneUnit : List (UnitTarget × Nat)
  tokenUnit : List (UnitTarget × Nat)
  freezone_routes : freezoneUnit.length ≤ maxUnitRoutes
  token_routes : tokenUnit.length ≤ maxUnitRoutes
  freezone_ne_nil : freezoneUnit ≠ []
  freezone_valid : ∀ e ∈ freezoneUnit, e.1.IcoFreezoneDestination ∧ 0 < e.2 ∧ e.2 < 2 ^ 16
  token_valid : ∀ e ∈ tokenUnit, e.1.IcoTokenDestination ∧ 0 < e.2 ∧ e.2 < 2 ^ 16

/-- `SST_ico_tier_object`, with a cap that the operation validates. -/
structure IcoTier where
  symbol : Nat
  cap : Int
  unit : GenerationUnit
  cap_nonneg : 0 ≤ cap
  cap_le : cap ≤ maxShareSupply

namespace IcoTier

/-- The key of a tier. -/
def key (t : IcoTier) : Nat × Int := (t.symbol, t.cap)

/-- The order of `by_symbol_freezone_satoshi_cap`. -/
def Before (t t' : IcoTier) : Prop :=
  t.symbol < t'.symbol ∨ t.symbol = t'.symbol ∧ t.cap < t'.cap

instance (t t' : IcoTier) : Decidable (t.Before t') := inferInstanceAs (Decidable (_ ∨ _))

variable {t : IcoTier}

theorem Before.key_ne {t' : IcoTier} (h : t.Before t') : t.key ≠ t'.key := by
  unfold Before at h
  simp only [key, ne_eq, Prod.mk.injEq]
  omega

end IcoTier

/-- The index of the tiers of all tokens. -/
structure TierIndex where
  tiers : List IcoTier
  sorted : tiers.Pairwise IcoTier.Before

namespace TierIndex

variable (index : TierIndex)

/-- The tiers of a token. -/
def own (s : Nat) : List IcoTier :=
  index.tiers.filter fun t => t.symbol = s

/-- `lower_bound` of a token and an amount. -/
def lowerBound (s : Nat) (amount : Int) : List IcoTier :=
  index.tiers.dropWhile fun t => t.symbol < s ∨ t.symbol = s ∧ t.cap < amount

/-- `get_ico_freezone_hard_cap`. -/
def hardCap (s : Nat) : Option Int :=
  (index.own s).getLast?.map IcoTier.cap

/-- The tiers of a token have increasing caps. -/
theorem own_sorted (s : Nat) : (index.own s).Pairwise fun t t' => t.cap < t'.cap := by
  have h := index.sorted.filter fun t => decide (t.symbol = s)
  refine h.imp_of_mem ?_
  intro t t' ht ht' hb
  have hs : t.symbol = s := by simpa using (mem_filter.mp ht).2
  have hs' : t'.symbol = s := by simpa using (mem_filter.mp ht').2
  unfold IcoTier.Before at hb
  omega

theorem mem_own {index : TierIndex} {s : Nat} :
    t ∈ index.own s ↔ t ∈ index.tiers ∧ t.symbol = s := by
  rw [own, mem_filter, decide_eq_true_iff]

/-- From a lower bound on, the tiers of the token come before those of later tokens. -/
theorem lowerBound_eq (s : Nat) (amount : Int) : index.lowerBound s amount =
      ((index.own s).filter fun t => amount ≤ t.cap) ++
        index.tiers.filter fun t => s < t.symbol := by
  obtain ⟨l, hl⟩ := index
  rw [lowerBound, own, SortedRange.dropWhile_eq_filter hl]
  · induction l with
    | nil => rfl
    | cons a l ih =>
      rw [pairwise_cons] at hl
      have hrest := ih hl.2
      rcases lt_trichotomy a.symbol s with hs | hs | hs
      · rw [filter_cons_of_neg (by simp [hs]), filter_cons_of_neg (by simp [hs.ne]),
          filter_cons_of_neg (by simp [hs.le]), hrest]
      · rw [filter_cons_of_pos (p := fun t : IcoTier => decide (t.symbol = s)) (by simp [hs]),
          filter_cons_of_neg (p := fun t : IcoTier => decide (s < t.symbol)) (by simp [hs])]
        by_cases hcap : a.cap < amount
        · rw [filter_cons_of_neg (by simp [hs, hcap]), hrest,
            filter_cons_of_neg (by simpa using hcap)]
        · rw [filter_cons_of_pos (by simp [hs, hcap]), hrest,
            filter_cons_of_pos (by simpa using not_lt.mp hcap), cons_append]
      · -- after a later token no tier of this one follows
        have hlater : ∀ b ∈ l, s < b.symbol := by
          intro b hb
          have hab := hl.1 b hb
          unfold IcoTier.Before at hab
          omega
        have hown : l.filter (fun t => decide (t.symbol = s)) = [] :=
          filter_eq_nil_iff.mpr fun b hb => by simpa using (hlater b hb).ne'
        rw [filter_cons_of_neg (p := fun t : IcoTier => decide (t.symbol = s))
            (by simpa using hs.ne'), hown]
        simp only [filter_nil, nil_append]
        rw [hown, filter_nil, nil_append] at hrest
        rw [filter_cons_of_pos (by simp [hs.le, hs.ne']), hrest,
          filter_cons_of_pos (by simpa using hs)]
  · intro a b hab
    unfold IcoTier.Before at hab
    simp only [decide_eq_true_iff]
    omega

end TierIndex

end Freezone.Chain.Tokens
