import Mathlib.Order.Lattice

/-!
# Asset symbols

A symbol is a number that encodes the asset, its precision and, for a token,
whether it stands for vesting shares. Symbols compare by that number.
-/

namespace Freezone.Protocol

/-- `asset_symbol_type`. -/
structure AssetSymbol where
  assetNum : Nat

/-- `asset_symbol_space`. -/
inductive AssetSymbolSpace
  | legacySpace
  | sstNaiSpace
  deriving DecidableEq

namespace AssetSymbol

instance : LinearOrder AssetSymbol :=
  LinearOrder.lift' assetNum fun a b h => by
    cases a
    cases b
    exact congrArg mk h

/-- `SST_MAX_NAI`. -/
def sstMaxNai : Nat := 99999999

/-- `SBD_SYMBOL`. -/
def sbd : AssetSymbol := ⟨(sstMaxNai + 1) <<< 5 ||| 3⟩

/-- `freezone_SYMBOL`. -/
def freezone : AssetSymbol := ⟨(sstMaxNai + 2) <<< 5 ||| 3⟩

/-- `VESTS_SYMBOL`. -/
def vests : AssetSymbol := ⟨(sstMaxNai + 3) <<< 5 ||| 6⟩

def space (s : AssetSymbol) : AssetSymbolSpace :=
  if s = freezone ∨ s = sbd ∨ s = vests then .legacySpace else .sstNaiSpace

/-- The sixth bit of a token tells its vesting shares from the liquid token. -/
def isVesting (s : AssetSymbol) : Bool :=
  match s.space with
  | .legacySpace => s = vests
  | .sstNaiSpace => s.assetNum &&& 0x20 ≠ 0

end AssetSymbol

end Freezone.Protocol
