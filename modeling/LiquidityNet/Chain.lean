import LiquidityNet.Text.Basic

/-!
# Chains

The chains the network holds funds on. THOR is its own chain, where outbounds settle as transfers
between accounts; all others are external.
-/

namespace LiquidityNet

inductive Chain where
  | thor
  | btc
  | eth
  | bnb
  | ltc
  | bch
  | doge
  | gaia
  | avax
  deriving DecidableEq, Repr

namespace Chain

def all : List Chain := [thor, btc, eth, bnb, ltc, bch, doge, gaia, avax]

theorem mem_all (c : Chain) : c ∈ all := by cases c <;> decide

def name : Chain → String
  | thor => "THOR"
  | btc => "BTC"
  | eth => "ETH"
  | bnb => "BNB"
  | ltc => "LTC"
  | bch => "BCH"
  | doge => "DOGE"
  | gaia => "GAIA"
  | avax => "AVAX"

def rank : Chain → Nat
  | thor => 0
  | btc => 1
  | eth => 2
  | bnb => 3
  | ltc => 4
  | bch => 5
  | doge => 6
  | gaia => 7
  | avax => 8

/-- What an address on the chain begins with. -/
def addressStart : Chain → String
  | thor => "thor1"
  | btc => "bc1"
  | eth | avax => "0x"
  | bnb => "bnb1"
  | ltc => "ltc1"
  | bch => "qq"
  | doge => "D"
  | gaia => "cosmos1"

def named? (s : String) : Option Chain := all.find? fun c => c.name == s

theorem named?_name (c : Chain) : named? c.name = some c := by cases c <;> decide

def isHome (c : Chain) : Bool := c == thor

end Chain

end LiquidityNet
