import LiquidityNet.Share

/-!
# Swap formulas

Constant-product pricing with a fee that grows with the slip. For the depth `X` of the side that
takes in `x`, and the depth `Y` of the other side, `x * X * Y / (x + X) ^ 2` leaves the pool,
`x ^ 2 * Y / (x + X) ^ 2` stays as a fee, and the slip is `x / (x + X)`.
-/

namespace LiquidityNet.Swap

def emission (depthIn amount depthOut : Amount) : Amount :=
  let sum := amount.val + depthIn.val
  .orZero (amount.val * depthIn.val * depthOut.val / (sum * sum))

def liquidityFee (depthIn amount depthOut : Amount) : Amount :=
  let sum := amount.val + depthIn.val
  .orZero (amount.val * amount.val * depthOut.val / (sum * sum))

def slip (depthIn amount : Amount) : Amount :=
  let sum := amount.val + depthIn.val
  if sum = 0 then 0
  else .nearest (amount.val * basisPoints.val / sum) (amount.val * basisPoints.val % sum) sum

/-- The depth that a swap of synths reckons with: the pool's, times a number of basis points. -/
def virtualDepth (depth multiplier : Amount) : Amount := Share.of multiplier basisPoints depth

/-- An amount of eight decimals to the nearest one with fewer. Unknown decimals, and eight or more,
leave it as it is. -/
def toDecimals (amount : Amount) (decimals : Signed) : Amount :=
  if decimals.val ≤ 0 ∨ 8 ≤ decimals.val then amount
  else
    let unit := Nat.pow 10 (8 - decimals.val).toNat
    .cap ((Amount.nearest (amount.val / unit) (amount.val % unit) unit).val * unit)

end LiquidityNet.Swap
