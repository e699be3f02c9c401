import LiquidityNet.Ledger.Payout
import LiquidityNet.Swap.Formula

/-!
# Hops

A hop swaps one coin against one pool, that of the side which is not RUNE. Synths are priced at
virtual depths and never touch the asset side, since they are minted and burned.
-/

namespace LiquidityNet.Swap

structure Quote where
  emitted : Amount
  fee : Amount
  feeInRune : Amount
  slip : Amount
  deriving DecidableEq

def poolAsset (source target : Asset) : Asset :=
  let a := if source.isRune then target else source
  if a.synth then a.backing else a

def depths (p : Pool) (source : Asset) : Amount × Amount :=
  if source.isRune then (p.rune, p.depth) else (p.depth, p.rune)

/-- The depths that a hop reckons with. -/
def pricedDepths (p : Pool) (source target : Asset) (multiplier : Amount) : Amount × Amount :=
  let d := depths p source
  if source.synth || target.synth then (virtualDepth d.1 multiplier, virtualDepth d.2 multiplier)
  else d

/-- The terms of a hop that takes in an amount. `asset` is the one the pool was looked up by. -/
def quote (p : Pool) (asset source target : Asset) (amount multiplier : Amount) :
    Except Error Quote := do
  let (depthIn, depthOut) := pricedDepths p source target multiplier
  if amount = 0 then throw .zeroAmount
  if depthIn = 0 ∨ depthOut = 0 then throw (.emptySide asset)
  let fee := liquidityFee depthIn amount depthOut
  let emitted := toDecimals (emission depthIn amount depthOut) p.decimals
  if depthOut ≤ emitted then throw (.depthExceeded emitted depthOut)
  return ⟨emitted, fee, if source.isRune then p.inRune fee else fee, slip depthIn amount⟩

def traded (p : Pool) (source : Asset) (amount emitted : Amount) : Pool :=
  if source.isRune then { p with rune := p.rune.plus amount, depth := p.depth.minus emitted }
  else { p with depth := p.depth.plus amount, rune := p.rune.minus emitted }

/-- The pool after a hop from or to its synth, whose supply was `supply` before. -/
def tradedSynth (p : Pool) (source : Asset) (amount emitted supply : Amount) : Pool :=
  if source.synth then
    { p with rune := p.rune.minus emitted }.withSynthSupply (supply.minus amount)
  else
    { p with rune := p.rune.plus amount }.withSynthSupply (supply.plus emitted)

/-- What a hop gives back: its event and the coins to burn once the swap is through. -/
structure HopResult where
  event : SwapEvent
  burned : List Coin

/-- Swaps the first coin of a transaction for `target`. `fee` is the RUNE that a hop from RUNE has
to exceed. -/
def hop (tx : Transaction) (source : Coin) (target : Asset) (limit fee multiplier : Amount) :
    Action HopResult := do
  if source.asset.isRune ∧ source.amount ≤ fee then refuse (.runeBelowFee source.amount fee)
  let asset := poolAsset source.asset target
  let some pool ← Pools.find? asset | refuse (.noPool asset)
  if pool.asset.synth then refuse (.vaultPool asset)
  if !source.asset.synth && !pool.isAvailable then refuse (.poolClosed asset)
  let q ← quote pool asset source.asset target source.amount multiplier
  let burns ←
    if source.asset.synth || target.synth then do
      let supply ← Bank.supply pool.asset.asSynth
      Pools.save (tradedSynth pool source.asset source.amount q.emitted supply)
      pure source.asset.synth
    else do
      Pools.save (traded pool source.asset source.amount q.emitted)
      pure pool.asset.isDerived
  return {
    event := {
      pool := asset
      swapTarget := limit
      slip := q.slip
      fee := q.fee
      feeInRune := q.feeInRune
      inbound := tx
      emitted := ⟨target, q.emitted⟩
      onward := none }
    burned := if burns then tx.coins else [] }

end LiquidityNet.Swap
