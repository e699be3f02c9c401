import LiquidityNet.Error
import LiquidityNet.Text.Digest

/-!
# Reading keys, transaction ids and versions

A key has an address on every chain: what addresses of the chain begin with, and the first twenty
octets of the key's SHA-256 digest.
-/

namespace LiquidityNet

namespace PublicKey

def octets (k : PublicKey) : Except Error (List UInt8) :=
  match Hex.decode k.text with
  | .ok os => .ok os
  | .error flaw => .error (.malformedKey k.text flaw)

def parse (s : String) : Except Error PublicKey := (octets ⟨s⟩).map fun _ => ⟨s⟩

def address (k : PublicKey) (c : Chain) : Except Error Address :=
  k.octets.map fun os => ⟨c.addressStart ++ Hex.encode ((Digest.sha256 os).take 20)⟩

end PublicKey

def TxId.parse (s : String) : Except Error TxId :=
  let id := Text.upper s
  match Hex.decode id with
  | .error flaw => .error (.malformedTxId id flaw)
  | .ok os => if os.length = 32 then .ok ⟨id⟩ else .error (.misfitTxId id os.length)

namespace Version

/-- At most three parts between points; a third point belongs to the last part. -/
def parts (cs : List Char) : List (List Char) :=
  match Text.splitAt '.' cs with
  | a :: b :: c :: d :: rest => [a, b, ".".toList.intercalate (c :: d :: rest)]
  | ps => ps

def part (name text : String) : Option (List Char) → Except Error Amount
  | none => .ok 0
  | some cs =>
    match (Text.signedNat? cs).bind Amount.ofNat? with
    | some n => .ok n
    | none => .error (.malformedVersion name text)

/-- Up to three numbers between points, after any number of letters `v`. -/
def parse (s : String) : Except Error Version := do
  let ps := parts ((Text.trim s.toList).dropWhile (· == 'v'))
  let major ← part "major" s ps[0]?
  let minor ← part "minor" s ps[1]?
  let patch ← part "patch" s ps[2]?
  return ⟨major, minor, patch⟩

end Version

end LiquidityNet
