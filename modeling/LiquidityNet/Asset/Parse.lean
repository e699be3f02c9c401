import LiquidityNet.Error

/-!
# Reading chains and assets

Case does not matter. The separator of an asset decides whether it is a synth, and may be repeated
in its symbol, but both separators together are refused. The bare word RUNE is the settlement
asset.
-/

namespace LiquidityNet

/-- The chain a text names, in whatever case. -/
def Chain.parse (s : String) : Except Error Chain :=
  match Chain.named? (Text.upper s) with
  | some c => .ok c
  | none => .error (.unknownChain (Text.upper s))

namespace Asset

def parseAround (sep : Char) (synth : Bool) (s : String) : Except Error Asset :=
  let cs := s.toList
  match Chain.parse (String.ofList (cs.takeWhile (· != sep))) with
  | .error e => .error e
  | .ok chain =>
    match (cs.dropWhile (· != sep)).drop 1 with
    | [] => .error (.malformedAsset s)
    | symbol => .ok ⟨chain, Text.upper (String.ofList symbol), synth⟩

def parse (s : String) : Except Error Asset :=
  match s.toList.contains '.', s.toList.contains '/' with
  | true, false => parseAround '.' false s
  | false, true => parseAround '/' true s
  | _, _ => if Text.upper s = runeSymbol then .ok rune else .error (.malformedAsset s)

/-- The asset as it comes back from a record: records keep assets as texts. -/
def reread? (a : Asset) : Option Asset :=
  match parse a.text with
  | .ok b => some b
  | .error _ => none

end Asset

namespace Coin

def reread? (c : Coin) : Option Coin := c.asset.reread?.map fun a => { c with asset := a }

end Coin

end LiquidityNet
