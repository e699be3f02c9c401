import LiquidityNet.Ledger.Tables

/-!
# The bank

Balances of accounts and the supply of each asset. Neither keeps a record of zero. Only minting and
burning change a supply.
-/

namespace LiquidityNet.Bank

def balance (owner : Address) (a : Asset) : Query Amount := Ledger.fetchD (Key.balance owner a) 0

def moduleBalance (module : String) (a : Asset) : Query Amount := balance (.ofModule module) a

/-- Stores an amount under a key, or nothing where it is zero. -/
def record (key : String) (amount : Amount) : Action Unit :=
  if amount = 0 then Ledger.erase key else Ledger.put key amount

def setBalance (owner : Address) (a : Asset) (amount : Amount) : Action Unit :=
  record (Key.balance owner a) amount

def transferCoin (source target : Address) (c : Coin) : Action Unit := do
  let held ← balance source c.asset
  if held < c.amount then refuse (.insufficientFunds source c.amount held c.asset)
  setBalance source c.asset (held.minus c.amount)
  setBalance target c.asset ((← balance target c.asset).plus c.amount)

def transfer (source target : Address) (coins : List Coin) : Action Unit :=
  coins.forM (transferCoin source target)

def supply (a : Asset) : Query Amount := Ledger.fetchD (Key.supply a) 0

def setSupply (a : Asset) (amount : Amount) : Action Unit := record (Key.supply a) amount

def mint (module : String) (c : Coin) : Action Unit := do
  setBalance (.ofModule module) c.asset ((← moduleBalance module c.asset).plus c.amount)
  setSupply c.asset ((← supply c.asset).plus c.amount)

def burn (module : String) (c : Coin) : Action Unit := do
  let held ← moduleBalance module c.asset
  if held < c.amount then refuse (.cannotBurn c module held)
  setBalance (.ofModule module) c.asset (held.minus c.amount)
  setSupply c.asset ((← supply c.asset).minus c.amount)

def moveModule (source target : String) (coins : List Coin) : Action Unit :=
  transfer (.ofModule source) (.ofModule target) coins

def payOut (source : String) (target : Address) (coins : List Coin) : Action Unit :=
  transfer (.ofModule source) target coins

def payIn (source : Address) (target : String) (coins : List Coin) : Action Unit :=
  transfer source (.ofModule target) coins

end LiquidityNet.Bank
