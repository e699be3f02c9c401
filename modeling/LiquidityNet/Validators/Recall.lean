import LiquidityNet.Identity.Parse
import LiquidityNet.Ledger.Payout

/-!
# Recall of yggdrasil funds

A node is asked to send back what its yggdrasil vault holds by one outbound without value per
chain; whoever signs it sweeps the vault's balance on that chain.
-/

namespace LiquidityNet.Recall

def chainsOf (vaults : List Vault) : List Chain :=
  Chain.all.filter fun c => vaults.any fun v => v.chains.contains c

/-- Asks for the return of what a yggdrasil vault holds on a chain. -/
def requestOn (ygg target : Vault) (c : Chain) : Action Unit := do
  let height ← Ledger.currentHeight
  let recipient ← (target.key.address c : Except Error Address)
  Payout.scheduleAsIs
    { Outbound.make c recipient ⟨.rune, 0⟩ .blank with
      memo := Memo.yggdrasilReturn height
      vault := some ygg.key }

/-- Asks for the return of all that a yggdrasil vault holds outside the home chain, to the most
secure active vault. -/
def requestFrom (ygg : Vault) : Action Unit := do
  let active ← Vaults.asgards .active
  let retiring ← Vaults.asgards .retiring
  let period ← Governance.value .signingTransactionPeriod
  let some target ← Vaults.mostSecure? active period | refuse .noAsgardVault
  ((chainsOf (active ++ retiring)).filter fun c => !c.isHome && ygg.hasFundsOn c).forM
    (requestOn ygg target)

def request (n : Node) : Action Unit := do
  match ← Vaults.yggdrasilOf n with
  | none => return
  | some ygg => if ygg.hasFunds then requestFrom ygg

def requestAll : Action Unit := do
  ((← Vaults.all).filter fun v => v.isYggdrasil && v.hasFunds).forM fun ygg => do
    match ← Nodes.holding? ygg.key with
    | none => return
    | some n => request n

end LiquidityNet.Recall
