import LiquidityNet.Transaction

/-!
# Outbounds

What the network owes to someone. On the home chain an outbound settles at once, on an external
chain it waits in the batch of its block until a vault has signed it.
-/

namespace LiquidityNet

/-! The beginning of a memo tells what an outbound is for. -/
namespace Memo

def out (id : TxId) : String := "OUT:" ++ id.text

def refund (id : TxId) : String := "REFUND:" ++ id.text

def yggdrasilStart : String := "YGGDRASIL-"

def yggdrasilReturn (height : Height) : String := yggdrasilStart ++ ":" ++ height.text

def ragnarokStart : String := "RAGNAROK:"

def ragnarok (height : Height) : String := ragnarokStart ++ height.text

/-- Whether an outbound with the memo bears a fee; the protocol's own ones do not. -/
def bearsFee (memo : String) : Bool :=
  !(Text.beginsWith yggdrasilStart memo || Text.beginsWith ragnarokStart memo)

end Memo

structure Outbound where
  chain : Chain
  recipient : Address
  /-- The vault that signs it; chosen when the outbound is scheduled, if none is named. -/
  vault : Option PublicKey
  coin : Coin
  memo : String
  /-- The inbound it answers, blank for the protocol's own outbounds. -/
  inbound : TxId
  /-- The transaction that carried it out, once there is one. -/
  sent : Option TxId
  /-- The module that pays on the home chain, the pools' if none is named. -/
  payer : Option String
  aggregator : Option Address
  aggregatorAsset : Option String
  aggregatorLimit : Option Amount
  deriving DecidableEq

namespace Outbound

def make (chain : Chain) (recipient : Address) (coin : Coin) (inbound : TxId) : Outbound :=
  ⟨chain, recipient, none, coin, "", inbound, none, none, none, none, none⟩

def reread? (o : Outbound) : Option Outbound := o.coin.reread?.map fun coin => { o with coin }

end Outbound

structure OutboundBatch where
  height : Height
  items : List Outbound
  deriving DecidableEq

namespace OutboundBatch

def pending (b : OutboundBatch) : List Outbound := b.items.filter fun o => o.sent.isNone

def reread? (b : OutboundBatch) : Option OutboundBatch :=
  (b.items.mapM Outbound.reread?).map fun items => { b with items }

end OutboundBatch

end LiquidityNet
