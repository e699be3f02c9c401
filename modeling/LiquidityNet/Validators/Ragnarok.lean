import LiquidityNet.Bond.Reward
import LiquidityNet.Validators.Recall

/-!
# Ragnarok

The network's shutdown, which is never taken back. The first tick notes its height, recalls
yggdrasil funds and pays rewards out. Every later tick waits until the payouts of the one before
are signed, and then returns a growing part of each bond and stages every pool.
-/

namespace LiquidityNet.Ragnarok

/-- Rounds that pass before bonds are returned. -/
def delay : Signed := ⟨10, by decide, by decide⟩

def unsigned : Query Nat := do
  let pending ← Outbounds.pendingWithin (← Governance.value .signingTransactionPeriod)
  return (pending.filter fun o => Text.beginsWith Memo.ragnarokStart o.memo).length

def payoutOf (height : Height) (n : Node) (amount : Amount) : Outbound :=
  { Outbound.make .thor n.operator ⟨.rune, amount⟩ .blank with
    memo := Memo.ragnarok height
    payer := some Module.bond }

def countPayout : Action Unit := do
  let t ← NetworkState.get
  let pending ← t.ragnarokPending.add 1
  NetworkState.save { t with ragnarokPending := pending }

/-- Enters the return of a part of a bond into the records. -/
def enterReturn (n : Node) (amount : Amount) : Action Unit := do
  countPayout
  let ps ← Bond.providersOf n
  let bond ← n.bond.sub amount
  let ps ← ps.aligned bond
  Nodes.saveWith { n with bond := bond } ps
  Ledger.emit (.bond amount .cost .blank n.address n.operator)

/-- Returns some tenths of a node's bond. A node that holds yggdrasil funds gets nothing yet. -/
def returnBond (tenths : Amount) (n : Node) : Action Unit := do
  if (← Vaults.yggdrasilOf n).any Vault.hasFunds then return
  let amount := Share.truncated n.bond tenths ⟨10, by decide⟩
  if amount = 0 then return
  let height ← Ledger.currentHeight
  match ← attempt (Payout.schedule (payoutOf height n amount) 0) with
  | .ok true => enterReturn n amount
  | .ok false => return
  | .error .feeExceedsCoin => enterReturn n amount
  | .error e => refuse e

def tenthsOf (round : Signed) : Except Fault Amount := do
  let n ← round.sub delay
  return .orZero (min n.val 10).toNat

def returnBonds (round : Signed) : Action Unit := do
  let tenths ← tenthsOf round
  if tenths = 0 then return
  (← Nodes.bonded).forM (returnBond tenths)

def stagePool (height : Height) (p : Pool) : Action Unit := do
  if p.status = .staged then return
  Pools.save { p with status := .staged, statusSince := height }
  Ledger.emit (.poolStatus p.asset .staged)

def stagePools : Action Unit := do
  let t ← NetworkState.get
  if t.ragnarokPoolsStaged then return
  let height ← Ledger.currentHeight
  (← Pools.all).forM (stagePool height)
  NetworkState.save { t with ragnarokPoolsStaged := true }

def start (t : Network) : Action Unit := do
  NetworkState.save { t with ragnarokHeight := ← Ledger.currentHeight }
  Recall.requestAll
  Bond.payRewards

/-- Runs the next round. A round whose bonds cannot all be returned returns none; the pools are
staged all the same. -/
def nextRound (t : Network) : Action Unit := do
  let round ← t.ragnarokRound.add 1
  NetworkState.save { t with ragnarokRound := round }
  let _ ← attempt (transactionally (returnBonds round))
  stagePools

def tick : Action Unit := do
  let t ← NetworkState.get
  if t.ragnarokHeight = 0 then start t
  else if 0 < t.ragnarokPending then
    if 0 < (← unsigned) then return
    nextRound { t with ragnarokPending := 0 }
  else nextRound t

end LiquidityNet.Ragnarok
