import LiquidityNet.Asset.Parse

/-!
# Transactions

A transaction moves coins on a chain. One that reaches a vault is an `Inbound`; the record of what
the nodes agreed on about it is its `Attestation`.
-/

namespace LiquidityNet

structure Transaction where
  id : TxId
  chain : Option Chain
  sender : Address
  recipient : Address
  coins : List Coin
  gas : List Coin
  memo : String
  deriving DecidableEq

namespace Transaction

/-- The longest memo of a transaction, in octets of UTF-8. -/
def memoLimit : Nat := 250

def validate (t : Transaction) : Except Error Unit := do
  if t.id.isEmpty then throw .noTxId
  if t.chain.isNone then throw .noChain
  if t.sender.isEmpty then throw .noSender
  if t.recipient.isEmpty then throw .noRecipient
  if t.coins.isEmpty then throw .noCoins
  if memoLimit < t.memo.utf8ByteSize then throw (.memoTooLong memoLimit)

def reread? (t : Transaction) : Option Transaction := do
  let coins ← t.coins.mapM Coin.reread?
  let gas ← t.gas.mapM Coin.reread?
  return { t with coins, gas }

end Transaction

structure Inbound where
  tx : Transaction
  vault : Option PublicKey
  height : Height
  finalHeight : Height
  deriving DecidableEq

/-- What the nodes agreed on about an inbound transaction. -/
structure Attestation where
  txId : TxId
  inbound : Inbound
  /-- The height at which outbounds for it are scheduled, zero while there are none. -/
  outboundHeight : Height
  outbounds : List Transaction
  deriving DecidableEq

namespace Attestation

def reread? (v : Attestation) : Option Attestation := do
  let tx ← v.inbound.tx.reread?
  let outbounds ← v.outbounds.mapM Transaction.reread?
  return { v with inbound := { v.inbound with tx }, outbounds }

end Attestation

end LiquidityNet
