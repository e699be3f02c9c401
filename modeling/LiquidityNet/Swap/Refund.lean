import LiquidityNet.Ledger.Payout

/-!
# Refunds

The coins of a failed inbound go back to their sender. A coin that cannot be sent back is given to
its pool if it is external, burned if it is native, and kept in the reserve if it is RUNE. A coin
that no pool prices is left where it is, since no fee could be taken from it.
-/

namespace LiquidityNet.Refund

def outboundOf (inbound : Inbound) (payer : Option String) (c : Coin) : Outbound :=
  { Outbound.make c.asset.homeChain inbound.tx.sender c inbound.tx.id with
    memo := Memo.refund inbound.tx.id
    vault := inbound.vault
    payer := payer }

def donate (inbound : Inbound) (p : Pool) (c : Coin) : Action Unit := do
  Pools.save { p with depth := p.depth.plus c.amount }
  Ledger.emit (.donate p.asset inbound.tx)

/-- Burns a coin of a module, as far as that is possible. -/
def burn (module : String) (c : Coin) : Action Unit := do
  let moved ←
    if module = Module.thorchain then pure (.ok ())
    else attempt (Bank.moveModule module Module.thorchain [c])
  match moved with
  | .error _ => return
  | .ok () =>
    match ← attempt (Bank.burn Module.thorchain c) with
    | .error _ => return
    | .ok () => Ledger.emit (.supply .burn c.asset c.amount "failed_refund")

/-- Moves RUNE of a module to the reserve, as far as that is possible. -/
def reserve (inbound : Inbound) (module : String) (c : Coin) : Action Unit := do
  match ← attempt (Bank.moveModule module Module.reserve [c]) with
  | .error _ => return
  | .ok () => Ledger.emit (.reserve inbound.tx.sender c.amount inbound.tx.id)

def settle (inbound : Inbound) (payer : Option String) (pool : Option Pool) (c : Coin) :
    Action Unit := do
  let module := payer.getD Module.asgard
  if !c.asset.isNative then
    match pool with
    | some p => donate inbound p c
    | none => return
  else if !c.asset.isNativeRune then burn module c
  else if module ≠ Module.reserve then reserve inbound module c

/-- What came of the coins so far: the reason of the refund and the coins sent back. -/
structure Progress where
  reason : String
  returned : List Coin

def coin (inbound : Inbound) (payer : Option String) (done : Progress) (c : Coin) :
    Action Progress := do
  let pool ← Pools.find? c.asset.backing
  if !c.asset.isNativeRune && !pool.any (fun p => p.rune != 0) then return done
  let failure ←
    match ← attempt (Payout.schedule (outboundOf inbound payer c) 0) with
    | .ok true => return { done with returned := done.returned ++ [c] }
    | .ok false => pure "no vault available"
    | .error e => pure e.message
  settle inbound payer pool c
  return { done with
    reason := done.reason ++ "; fail to refund (" ++ c.text ++ "): " ++ failure }

/-- Refunds the coins of an inbound. `payer` is the module that holds them on the home chain, the
pools' if none is named. -/
def refund (inbound : Inbound) (code : Word) (reason : String) (payer : Option String) :
    Action Unit := do
  let done ← inbound.tx.coins.foldlM (coin inbound payer) ⟨reason, []⟩
  Ledger.emit (.refund code done.reason inbound.tx done.returned)

end LiquidityNet.Refund
