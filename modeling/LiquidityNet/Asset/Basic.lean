import LiquidityNet.Chain

/-!
# Assets

An asset is a symbol on a chain. Written `CHAIN.SYMBOL` it is held on that chain, or derived from
another chain's asset where the chain is THOR. Written `CHAIN/SYMBOL` it is a synth, which lives
on the network's own chain and is redeemed against the pool of its layer-1 asset.
-/

namespace LiquidityNet

structure Asset where
  chain : Chain
  symbol : String
  synth : Bool
  deriving DecidableEq

namespace Asset

def of (chain : Chain) (symbol : String) : Asset := ⟨chain, Text.upper symbol, false⟩

def synthOf (chain : Chain) (symbol : String) : Asset := ⟨chain, Text.upper symbol, true⟩

def runeSymbol : String := "RUNE"

def rune : Asset := ⟨.thor, runeSymbol, false⟩

/-- The symbol up to its first hyphen. -/
def ticker (a : Asset) : String := String.ofList (a.symbol.toList.takeWhile (· != '-'))

def isRune (a : Asset) : Bool := !a.synth && a.symbol == runeSymbol

def isNativeRune (a : Asset) : Bool := a.isRune && a.chain.isHome

/-- An asset of the home chain that is neither RUNE nor a synth. -/
def isDerived (a : Asset) : Bool := a.chain.isHome && !a.synth && !a.isRune

def homeChain (a : Asset) : Chain := if a.synth then .thor else a.chain

def isNative (a : Asset) : Bool := a.homeChain.isHome

/-- The asset that backs this one: for a synth the one of the same chain and symbol, for a derived
asset the one whose chain its ticker names, and any other asset itself. -/
def backing (a : Asset) : Asset :=
  if a.synth then .of a.chain a.symbol
  else if a.isDerived then
    match Chain.named? (Text.upper a.ticker) with
    | some c => .of c a.symbol
    | none => a
  else a

def asSynth (a : Asset) : Asset := .synthOf a.chain a.symbol

def asDerived (a : Asset) : Asset := .of .thor a.symbol

def separator (a : Asset) : Char := if a.synth then '/' else '.'

def text (a : Asset) : String :=
  String.ofList (a.chain.name.toList ++ a.separator :: a.symbol.toList)

/-- The order of assets: by chain, then by symbol, then layer-1 before synth. -/
def precedes (a b : Asset) : Bool :=
  if a.chain = b.chain then
    if a.symbol = b.symbol then !a.synth || b.synth else decide (a.symbol ≤ b.symbol)
  else decide (a.chain.rank ≤ b.chain.rank)

end Asset

end LiquidityNet
