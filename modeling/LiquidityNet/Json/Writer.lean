import LiquidityNet.Json.Basic

/-!
# Writing JSON text

Compact text: no white space, fields sorted by name, characters outside ASCII written as they are.
-/

namespace LiquidityNet.Json

def escape (c : Char) : List Char :=
  if c = '"' then ['\\', '"']
  else if c = '\\' then ['\\', '\\']
  else if c = '\n' then ['\\', 'n']
  else if c = '\r' then ['\\', 'r']
  else if c = '\t' then ['\\', 't']
  else if c = '\x08' then ['\\', 'b']
  else if c = '\x0c' then ['\\', 'f']
  else if c.toNat < 0x20 then
    ['\\', 'u', '0', '0', Nat.digitChar (c.toNat / 16), Nat.digitChar (c.toNat % 16)]
  else [c]

def writeText (s : String) : String := "\"" ++ String.ofList (s.toList.flatMap escape) ++ "\""

def sortFields (fields : List (String × String)) : List (String × String) :=
  fields.mergeSort fun a b => decide (a.1 ≤ b.1)

mutual

/-- The text of a tree. What no record can hold is written as null. -/
def write : Json → String
  | .null => "null"
  | .bool true => "true"
  | .bool false => "false"
  | .int n => toString n
  | .otherNumber => "null"
  | .text s => writeText s
  | .broken => "null"
  | .list xs => "[" ++ ",".intercalate (writeItems xs) ++ "]"
  | .object fs =>
    "\x7b" ++ ",".intercalate ((sortFields (writeFields fs)).map fun f =>
      writeText f.1 ++ ":" ++ f.2) ++ "\x7d"

def writeItems : List Json → List String
  | [] => []
  | x :: xs => write x :: writeItems xs

def writeFields : List (String × Json) → List (String × String)
  | [] => []
  | (k, v) :: rest => (k, write v) :: writeFields rest

end

end LiquidityNet.Json
