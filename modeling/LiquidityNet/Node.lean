import LiquidityNet.Error

/-!
# Nodes

A node moves between statuses as it joins and leaves the validator set. It is active while it
signs for the network, and the height since which it has been active is kept only then.
-/

namespace LiquidityNet

inductive NodeStatus where
  | unknown
  | whitelisted
  | standby
  | ready
  | active
  | disabled
  deriving DecidableEq, Repr

def NodeStatus.name : NodeStatus → String
  | unknown => "unknown"
  | whitelisted => "whitelisted"
  | standby => "standby"
  | ready => "ready"
  | active => "active"
  | disabled => "disabled"

/-- The keys a node registers. The first one also names its yggdrasil vault. -/
structure NodeKeys where
  secp256k1 : Option PublicKey
  ed25519 : Option PublicKey
  deriving DecidableEq

def NodeKeys.isIncomplete (k : NodeKeys) : Bool :=
  k.secp256k1.all PublicKey.isEmpty || k.ed25519.all PublicKey.isEmpty

structure Node where
  address : Address
  status : NodeStatus
  keys : NodeKeys
  consensusKey : String
  bond : Amount
  /-- The height at which the node last became active, zero while it is not. -/
  activeSince : Height
  /-- The operator, who is the first bond provider. -/
  operator : Address
  statusSince : Height
  requestedToLeave : Bool
  forcedToLeave : Bool
  /-- Positive once the node is marked to leave; of two marked nodes the lower score leaves
  first. -/
  leaveScore : Amount
  ipAddress : String
  version : Version
  deriving DecidableEq

namespace Node

def register (address : Address) (status : NodeStatus) (keys : NodeKeys) (bond : Amount)
    (operator : Address) (height : Height) : Node where
  address := address
  status := status
  keys := keys
  consensusKey := ""
  bond := bond
  activeSince := if status = .active then height else 0
  operator := operator
  statusSince := height
  requestedToLeave := false
  forcedToLeave := false
  leaveScore := 0
  ipAddress := ""
  version := default

def isActive (n : Node) : Bool := n.status == .active

/-- The key that vault memberships and the node's yggdrasil vault go by. -/
def vaultKey (n : Node) : Option PublicKey := n.keys.secp256k1

def validate (n : Node) : Except Error Unit := do
  if n.address.isEmpty then throw .unnamedNode
  if n.operator.isEmpty then throw .unownedNode
  if n.status = .unknown then throw .unknownNodeStatus

/-- The node with a status that it takes at a height; one that has it already is not changed. -/
def moveTo (n : Node) (status : NodeStatus) (height : Height) : Node :=
  if n.status = status then n
  else
    { n with
      status := status
      statusSince := height
      activeSince := if status = .active then height else 0 }

end Node

/-- A sentence that keeps a node out of the validator set up to a height. -/
structure Jail where
  node : Address
  release : Height
  reason : String
  deriving DecidableEq

def Jail.holdsAt (j : Jail) (height : Height) : Bool := decide (height < j.release)

end LiquidityNet
