import LiquidityNet.Share
import LiquidityNet.Transaction

/-!
# Messages

What a transaction asks the network to do. The checks here need nothing but the message itself.
-/

namespace LiquidityNet

structure SwapRequest where
  tx : Transaction
  target : Asset
  destination : Address
  /-- The least output accepted, zero for any. -/
  limit : Amount
  signer : Address
  aggregator : Option Address
  aggregatorAsset : Option String
  aggregatorLimit : Option Amount
  deriving DecidableEq

namespace SwapRequest

def validate (m : SwapRequest) : Except Error Unit := do
  m.tx.validate
  if m.tx.coins.length ≠ 1 then throw .severalCoins
  if m.destination.isEmpty && !m.target.isRune then throw .noDestination
  if m.signer.isEmpty then throw .noSigner

def reread? (m : SwapRequest) : Option SwapRequest := do
  let tx ← m.tx.reread?
  let target ← m.target.reread?
  return { m with tx, target }

end SwapRequest

structure UnbondRequest where
  tx : Transaction
  node : Address
  /-- The bond to pay back, zero for all of it. -/
  amount : Amount
  bondAddress : Address
  /-- The provider to pay out and remove, named by the operator. -/
  provider : Option Address
  signer : Address
  deriving DecidableEq

def UnbondRequest.validate (m : UnbondRequest) : Except Error Unit := do
  if m.node.isEmpty then throw .noNodeAddress
  if m.bondAddress.isEmpty then throw .noBondAddress
  if m.signer.isEmpty then throw .noSigner
  if m.tx.id.isEmpty then throw .noTxId
  if m.amount = 0 ∧ m.provider = none then throw .nothingToUnbond

/-- A deposit of bond, which may also admit a provider and set the operator's fee. -/
structure BondRequest where
  tx : Transaction
  node : Address
  bond : Amount
  bondAddress : Address
  provider : Option Address
  operatorFee : Option Amount
  signer : Address
  deriving DecidableEq

def BondRequest.validate (m : BondRequest) : Except Error Unit := do
  if m.node.isEmpty then throw .noNodeAddress
  if m.bondAddress.isEmpty then throw .noBondAddress
  if m.signer.isEmpty then throw .noSigner
  if m.tx.id.isEmpty then throw .noTxId
  if let some fee := m.operatorFee then
    if basisPoints < fee then throw (.operatorFeeTooHigh fee)

inductive Message where
  | swap (request : SwapRequest)
  | unbond (request : UnbondRequest)
  | bond (request : BondRequest)
  deriving DecidableEq

namespace Message

def name : Message → String
  | swap _ => "swap"
  | unbond _ => "unbond"
  | bond _ => "bond"

def validate : Message → Except Error Unit
  | swap m => m.validate
  | unbond m => m.validate
  | bond m => m.validate

end Message

end LiquidityNet
