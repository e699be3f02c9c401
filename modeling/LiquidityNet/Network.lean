import LiquidityNet.Amount

/-!
# Network totals

Accounting that concerns no single node, and how far the shutdown of the network, ragnarok, has
come.
-/

namespace LiquidityNet

structure Network where
  /-- RUNE set aside for bond rewards since the last payout. -/
  bondReward : Amount
  bondUnits : Amount
  /-- The height ragnarok began at, zero while it has not. -/
  ragnarokHeight : Height
  ragnarokRound : Signed
  /-- Ragnarok payouts that count as unsigned. -/
  ragnarokPending : Signed
  /-- Whether ragnarok has staged every pool. -/
  ragnarokPoolsStaged : Bool
  deriving DecidableEq

namespace Network

def initial : Network := ⟨0, 0, 0, 0, 0, false⟩

def isEnding (n : Network) : Bool := decide (0 < n.ragnarokHeight)

end Network

end LiquidityNet
