import LiquidityNet.Node
import LiquidityNet.Pool
import LiquidityNet.Transaction

/-!
# Events

What consumers learn about a block. Every event names the inbound transaction it belongs to, blank
for what the protocol does of its own accord.
-/

namespace LiquidityNet

inductive BondMove where
  | paid
  | returned
  | reward
  | cost
  deriving DecidableEq, Repr

inductive SupplyMove where
  | mint
  | burn
  deriving DecidableEq, Repr

structure SwapEvent where
  pool : Asset
  swapTarget : Amount
  slip : Amount
  /-- The fee in units of the asset that leaves the pool. -/
  fee : Amount
  feeInRune : Amount
  inbound : Transaction
  emitted : Coin
  /-- The transfer to the second hop, for the first of two hops. -/
  onward : Option Transaction
  deriving DecidableEq

inductive Event where
  | swap (hop : SwapEvent)
  | outbound (inbound : TxId) (tx : Transaction)
  | supply (move : SupplyMove) (asset : Asset) (amount : Amount) (reason : String)
  | bond (amount : Amount) (move : BondMove) (txId : TxId) (source target : Address)
  | refund (code : Word) (reason : String) (inbound : Transaction) (coins : List Coin)
  | donate (pool : Asset) (inbound : Transaction)
  | reserve (contributor : Address) (amount : Amount) (inbound : TxId)
  | poolStatus (pool : Asset) (status : PoolStatus)
  | nodeStatus (node : Address) (former current : NodeStatus)
  deriving DecidableEq

def Event.name : Event → String
  | swap _ => "swap"
  | outbound .. => "outbound"
  | supply .mint .. => "mint"
  | supply .burn .. => "burn"
  | bond .. => "bond"
  | refund .. => "refund"
  | donate .. => "donate"
  | reserve .. => "reserve"
  | poolStatus .. => "pool"
  | nodeStatus .. => "update_node_account_status"

end LiquidityNet
