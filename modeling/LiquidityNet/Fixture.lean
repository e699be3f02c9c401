import LiquidityNet.Ledger.Bank
import LiquidityNet.Text.Hex

/-!
# Fixtures

Small ledgers built from names: each name stands for a key, a node address and an operator address.
-/

namespace LiquidityNet.Fixture

/-- The key of a name: the name's octets in hexadecimal digits. -/
def key (name : String) : PublicKey := ⟨Hex.encode (Hex.octets name)⟩

def nodeAddress (name : String) : Address := ⟨"thor1" ++ name⟩

def operatorAddress (name : String) : Address := ⟨"thor1" ++ name ++ "op"⟩

def version : Version := ⟨1, ⟨106, by decide⟩, 0⟩

def fundModule (module : String) (c : Coin) : Action Unit := do
  Bank.mint Module.thorchain c
  Bank.moveModule Module.thorchain module [c]

def fundAccount (owner : Address) (c : Coin) : Action Unit := do
  Bank.mint Module.thorchain c
  Bank.payOut Module.thorchain owner [c]

def addPool (asset : Asset) (rune depth : Amount) : Action Pool := do
  let pool := { Pool.make asset rune depth with lpUnits := rune }
  Pools.save pool
  fundModule Module.asgard ⟨.rune, rune⟩
  return pool

def node (name : String) (status : NodeStatus) (bond : Amount) (height : Height) : Node :=
  { Node.register (nodeAddress name) status ⟨some (key name), some (key name)⟩ bond
      (operatorAddress name) height with
    version := version
    ipAddress := "10.0.0.1"
    consensusKey := "cons-" ++ name }

/-- A node whose operator put up the whole bond, which is in the bonds' module. -/
def addNode (name : String) (status : NodeStatus) (bond : Amount) : Action Unit := do
  let n := node name status bond (← Ledger.currentHeight)
  Nodes.save n
  Nodes.saveProviders ⟨n.address, 0, [⟨n.operator, bond⟩]⟩
  if bond ≠ 0 then fundModule Module.bond ⟨.rune, bond⟩

def asgardChains : List Chain := [.thor, .btc, .eth, .bnb]

def addAsgard (number : Nat) (members : List String) (coins : List Coin) (status : VaultStatus) :
    Action PublicKey := do
  let k := key ("asgard-" ++ toString number)
  let v := Vault.make (← Ledger.currentHeight) status .asgard k asgardChains
  Vaults.save ({ v with members := members.map key }.deposit coins)
  return k

def addYggdrasil (name : String) (coins : List Coin) : Action Unit := do
  let v := Vault.make (← Ledger.currentHeight) .active .yggdrasil (key name) [.btc, .eth, .bnb]
  Vaults.save ({ v with members := [key name] }.deposit coins)

end LiquidityNet.Fixture
