import LiquidityNet.Amount
import LiquidityNet.Asset.Basic

/-!
# Coins

An amount of an asset, and what lists of coins hold of one asset.
-/

namespace LiquidityNet

structure Coin where
  asset : Asset
  amount : Amount
  deriving DecidableEq

namespace Coin

def isEmpty (c : Coin) : Bool := c.amount == 0

def text (c : Coin) : String := c.amount.text ++ " " ++ c.asset.text

def find? (asset : Asset) (coins : List Coin) : Option Coin := coins.find? (·.asset == asset)

/-- The amount of the first coin of an asset, zero where there is none. -/
def held (asset : Asset) (coins : List Coin) : Amount :=
  match find? asset coins with
  | some c => c.amount
  | none => 0

def updateFirst (asset : Asset) (f : Amount → Amount) : List Coin → List Coin
  | [] => []
  | c :: cs =>
    if c.asset = asset then { c with amount := f c.amount } :: cs
    else c :: updateFirst asset f cs

/-- Adds a coin to a list: to the first coin of its asset, or at the end where there is none. -/
def deposit (coins : List Coin) (c : Coin) : List Coin :=
  if (find? c.asset coins).isSome then updateFirst c.asset (·.plus c.amount) coins
  else coins ++ [c]

/-- Takes a coin from the first coin of its asset, as far as that reaches. -/
def withdraw (coins : List Coin) (c : Coin) : List Coin :=
  updateFirst c.asset (·.minus c.amount) coins

end Coin

end LiquidityNet
