/-!
# Hexadecimal text

Two digits of either case stand for one octet. A text is read by its UTF-8 octets: their number is
checked first, then each octet in order.
-/

namespace LiquidityNet.Hex

inductive Flaw where
  | oddLength
  | badDigit (octet : UInt8) (position : Nat)
  deriving DecidableEq, Repr

/-- The octet as a Latin-1 character between single quotes. Control characters, the no-break space
and the soft hyphen are written by their code point, and a quote or backslash is escaped. -/
def quotedOctet (o : UInt8) : String :=
  let n := o.toNat
  let inner :=
    if n = 0 then "\\0"
    else if n = 9 then "\\t"
    else if n = 10 then "\\n"
    else if n = 13 then "\\r"
    else if n = 39 then "\\'"
    else if n = 92 then "\\\\"
    else if n < 32 ∨ (127 ≤ n ∧ n ≤ 160) ∨ n = 173 then
      "\\u\x7b" ++ String.ofList (Nat.toDigits 16 n) ++ "\x7d"
    else String.singleton (Char.ofNat n)
  "'" ++ inner ++ "'"

def Flaw.text : Flaw → String
  | .oddLength => "Odd number of digits"
  | .badDigit o i => "Invalid character " ++ quotedOctet o ++ " at position " ++ toString i

def digit? (o : UInt8) : Option UInt8 :=
  if 48 ≤ o ∧ o ≤ 57 then some (o - 48)
  else if 97 ≤ o ∧ o ≤ 102 then some (o - 87)
  else if 65 ≤ o ∧ o ≤ 70 then some (o - 55)
  else none

/-- The octets written by pairs of digits that start at `position`. -/
def pairs (position : Nat) : List UInt8 → Except Flaw (List UInt8)
  | a :: b :: rest =>
    match digit? a, digit? b with
    | none, _ => .error (.badDigit a position)
    | _, none => .error (.badDigit b (position + 1))
    | some x, some y => (pairs (position + 2) rest).map ((x * 16 + y) :: ·)
  | _ => .ok []

def octets (s : String) : List UInt8 := s.toUTF8.data.toList

def decode (s : String) : Except Flaw (List UInt8) :=
  let os := octets s
  if os.length % 2 = 1 then .error .oddLength else pairs 0 os

def encode (os : List UInt8) : String :=
  String.ofList (os.flatMap fun o =>
    [Nat.digitChar (o.toNat / 16), Nat.digitChar (o.toNat % 16)])

end LiquidityNet.Hex
