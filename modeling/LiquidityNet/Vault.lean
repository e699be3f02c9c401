import LiquidityNet.Asset.Parse

/-!
# Vaults

An asgard vault is held by a group of nodes, a yggdrasil vault by one node. A retiring asgard vault
still holds funds of an earlier group.
-/

namespace LiquidityNet

inductive VaultKind where
  | asgard
  | yggdrasil
  deriving DecidableEq, Repr

def VaultKind.name : VaultKind → String
  | asgard => "asgard"
  | yggdrasil => "yggdrasil"

inductive VaultStatus where
  | active
  | retiring
  | inactive
  deriving DecidableEq, Repr

def VaultStatus.name : VaultStatus → String
  | active => "active"
  | retiring => "retiring"
  | inactive => "inactive"

structure Vault where
  created : Height
  key : PublicKey
  coins : List Coin
  kind : VaultKind
  status : VaultStatus
  statusSince : Height
  members : List PublicKey
  chains : List Chain
  deriving DecidableEq

namespace Vault

def make (height : Height) (status : VaultStatus) (kind : VaultKind) (key : PublicKey)
    (chains : List Chain) : Vault :=
  ⟨height, key, [], kind, status, height, [], chains⟩

def isAsgard (v : Vault) : Bool := v.kind == .asgard

def isYggdrasil (v : Vault) : Bool := v.kind == .yggdrasil

def hasMember (v : Vault) (k : PublicKey) : Bool := v.members.contains k

def moveTo (v : Vault) (status : VaultStatus) (height : Height) : Vault :=
  { v with status := status, statusSince := height }

def hasFunds (v : Vault) : Bool := v.coins.any fun c => c.amount != 0

def hasFundsOn (v : Vault) (chain : Chain) : Bool :=
  v.coins.any fun c => c.asset.homeChain == chain && c.amount != 0

def held (v : Vault) (asset : Asset) : Amount := Coin.held asset v.coins

def deposit (v : Vault) (coins : List Coin) : Vault :=
  { v with coins := coins.foldl Coin.deposit v.coins }

def withdraw (v : Vault) (coins : List Coin) : Vault :=
  { v with coins := coins.foldl Coin.withdraw v.coins }

def reread? (v : Vault) : Option Vault :=
  (v.coins.mapM Coin.reread?).map fun coins => { v with coins }

end Vault

end LiquidityNet
