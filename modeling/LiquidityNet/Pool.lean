import LiquidityNet.Asset.Parse
import LiquidityNet.Share

/-!
# Pools

A pool pairs RUNE with one asset. Liquidity providers hold units of it, and outstanding synths are
counted as units too, so that they own the share of the asset side they could redeem.
-/

namespace LiquidityNet

inductive PoolStatus where
  | available
  | staged
  | suspended
  deriving DecidableEq, Repr

def PoolStatus.name : PoolStatus → String
  | available => "available"
  | staged => "staged"
  | suspended => "suspended"

structure Pool where
  asset : Asset
  rune : Amount
  depth : Amount
  /-- Units of the liquidity providers. -/
  lpUnits : Amount
  /-- Units that stand for outstanding synths. -/
  synthUnits : Amount
  /-- Decimals of the asset on its chain, zero where they are unknown. -/
  decimals : Signed
  status : PoolStatus
  statusSince : Height
  deriving DecidableEq

namespace Pool

def make (asset : Asset) (rune depth : Amount) : Pool :=
  ⟨asset, rune, depth, 0, 0, 0, .available, 0⟩

def isAvailable (p : Pool) : Bool := p.status == .available

/-- Whether a side is empty, so that the pool has no price. -/
def isEmpty (p : Pool) : Bool := p.rune == 0 || p.depth == 0

def units (p : Pool) : Amount := p.lpUnits.plus p.synthUnits

/-- Synth units for a supply of synths: the liquidity units times `supply / (2 * depth - supply)`,
where the divisor is at least one. -/
def synthUnitsFor (p : Pool) (supply : Amount) : Amount :=
  if p.depth = 0 ∨ p.asset.synth = true then 0
  else .cap (p.lpUnits.val * supply.val / max 1 (2 * p.depth.val - supply.val))

def withSynthSupply (p : Pool) (supply : Amount) : Pool :=
  { p with synthUnits := p.synthUnitsFor supply }

def inRune (p : Pool) (amount : Amount) : Amount :=
  if p.isEmpty then 0 else Share.truncated amount p.rune p.depth

def inAsset (p : Pool) (amount : Amount) : Amount :=
  if p.isEmpty then 0 else Share.truncated amount p.depth p.rune

def text (p : Pool) : String :=
  "Pool " ++ p.asset.text ++ " | RUNE: " ++ p.rune.text ++ " | Asset: " ++ p.depth.text ++ " | " ++
    p.status.name

def reread? (p : Pool) : Option Pool := p.asset.reread?.map fun a => { p with asset := a }

end Pool

end LiquidityNet
