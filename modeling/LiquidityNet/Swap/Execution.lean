import LiquidityNet.Swap.Hop

/-!
# Swaps

A swap goes through one pool where RUNE is on either side, and through two where it is not. It
either delivers its output or changes nothing: it is run in a checkpoint, and every refusal takes
back what its hops did.
-/

namespace LiquidityNet.Swap

/-- A completed swap: what it emitted, and the event of each hop. -/
structure Outcome where
  emitted : Amount
  events : List SwapEvent

def validate (m : SwapRequest) : Except Error Unit := do
  m.tx.validate
  if m.target.symbol = "" then throw .noTarget
  if m.destination.isEmpty then throw .noSwapDestination

def isPast (mimir : String) : Query Bool := do
  let stop := (← Governance.mimir? mimir).getD 0
  let height ← Ledger.currentHeight
  return decide (0 < stop ∧ stop < height)

/-- Refuses what governance or the route of a swap does not allow. -/
def permit (m : SwapRequest) (source : Asset) : Query Unit := do
  if source.synth then
    if ← isPast Mimir.burnSynths then refuse .synthBurnsHalted
  if m.target.synth then
    if ← isPast Mimir.mintSynths then refuse .synthMintsHalted
  if !m.destination.isNoop && !m.destination.isOn m.target.homeChain then
    refuse (.foreignDestination m.target.homeChain)
  if source = m.target then refuse (.sameAsset source m.target)

def firstHop (tx : Transaction) (source : Coin) (fee multiplier : Amount) :
    Action (HopResult × Transaction) := do
  let r ← hop tx source .rune 0 fee multiplier
  let onward := { tx with coins := [r.event.emitted], gas := [] }
  return ({ r with event := { r.event with onward := some { onward with id := .blank } } }, onward)

def hops (m : SwapRequest) (source : Coin) (fee multiplier : Amount) :
    Action (List HopResult × HopResult) := do
  if source.asset.isRune || m.target.isRune then
    return ([], ← hop m.tx source m.target m.limit fee multiplier)
  else
    let (r, onward) ← firstHop m.tx source fee multiplier
    return ([r], ← hop onward r.event.emitted m.target m.limit fee multiplier)

def accept (m : SwapRequest) (emitted fee : Amount) : Except Error Unit := do
  if m.limit ≠ 0 ∧ emitted < m.limit then throw (.priceLimit emitted m.limit)
  if m.target.isRune ∧ emitted ≤ fee then throw (.outputBelowFee emitted)
  if emitted = 0 then throw .zeroOutput

def publish (e : SwapEvent) : Action Unit := do
  Ledger.emit (.swap e)
  if let some onward := e.onward then Ledger.emit (.outbound e.inbound.id onward)
  if e.pool.isDerived then
    let coin : Coin := ⟨.rune, e.feeInRune⟩
    Bank.mint Module.thorchain coin
    Ledger.emit (.supply .mint .rune coin.amount "derived_swap_fee")
    Bank.moveModule Module.thorchain Module.reserve [coin]
  else
    Pools.addFees e.pool e.feeInRune
    Pools.addSlip e.pool e.slip

def outboundOf (m : SwapRequest) (emitted : Amount) : Outbound :=
  { Outbound.make m.target.homeChain m.destination ⟨m.target, emitted⟩ m.tx.id with
    aggregator := m.aggregator
    aggregatorAsset := m.aggregatorAsset
    aggregatorLimit := m.aggregatorLimit
    payer :=
      if m.target.homeChain.isHome && (m.target.synth || m.target.isDerived) then
        some Module.thorchain
      else none }

/-- Hands the output over: to an outbound, or, for a synth that is to stay, to the pools. -/
def deliver (m : SwapRequest) (emitted : Amount) : Action Unit := do
  if m.destination.isNoop then
    if m.target.synth then
      let coin : Coin := ⟨m.target, emitted⟩
      Bank.mint Module.thorchain coin
      Bank.moveModule Module.thorchain Module.asgard [coin]
      Ledger.emit (.supply .mint m.target emitted "swap")
  else
    match ← attempt (Payout.schedule (outboundOf m emitted) m.limit) with
    | .ok true => pure ()
    | .ok false => refuse (.noVaultFor emitted m.target)
    | .error e => refuse (.swapOutboundFailed e)

def burnCoin (c : Coin) : Action Unit := do
  match ← attempt (Bank.burn Module.thorchain c) with
  | .ok () => Ledger.emit (.supply .burn c.asset c.amount "swap")
  | .error _ => pure ()

def burnCoins (coins : List Coin) : Action Unit := do
  if coins ≠ [] then
    Bank.moveModule Module.asgard Module.thorchain coins
    coins.forM burnCoin

/-- Swaps the first coin of a request's transaction. `fee` is the fee of an outbound in RUNE,
`multiplier` the one of virtual depths in basis points. -/
def execute (m : SwapRequest) (fee multiplier : Amount) : Action Outcome := do
  validate m
  let some source := m.tx.coins.head? | refuse .noCoins
  permit m source.asset
  let (before, last) ← hops m source fee multiplier
  let results := before ++ [last]
  let emitted := last.event.emitted.amount
  accept m emitted fee
  (results.map (·.event)).forM publish
  deliver m emitted
  burnCoins (results.flatMap (·.burned))
  return ⟨emitted, results.map (·.event)⟩

def depthMultiplier : Query Amount := do
  return .wrap (← Governance.valueAtLeast .virtualMultSynthsBasisPoints 1).val

/-- Carries out a request, or refuses it and changes nothing. -/
def handle (m : SwapRequest) : Action Outcome := do
  m.validate
  let fee ← Governance.amount .outboundTransactionFee
  let multiplier ← depthMultiplier
  transactionally (execute m fee multiplier)

end LiquidityNet.Swap
