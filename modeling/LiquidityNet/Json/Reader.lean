import LiquidityNet.Json.Basic

/-!
# Reading JSON text

A reader takes characters and gives back what it read and what is left, or nothing. The grammar is
that of RFC 8259: no leading zeros, no trailing commas, no control characters inside strings.
-/

namespace LiquidityNet.Json

def isSpace (c : Char) : Bool := c == ' ' || c == '\t' || c == '\n' || c == '\r'

def skipSpace (cs : List Char) : List Char := cs.dropWhile isSpace

def isDigit (c : Char) : Bool := decide ('0' ≤ c ∧ c ≤ '9')

def hexDigit? (c : Char) : Option Nat :=
  if '0' ≤ c ∧ c ≤ '9' then some (c.toNat - 48)
  else if 'a' ≤ c ∧ c ≤ 'f' then some (c.toNat - 87)
  else if 'A' ≤ c ∧ c ≤ 'F' then some (c.toNat - 55)
  else none

def hex4? (a b c d : Char) : Option Nat := do
  some (((← hexDigit? a) * 16 + (← hexDigit? b)) * 256 + (← hexDigit? c) * 16 + (← hexDigit? d))

def escaped? : Char → Option Char
  | '"' => some '"'
  | '\\' => some '\\'
  | '/' => some '/'
  | 'b' => some '\x08'
  | 'f' => some '\x0c'
  | 'n' => some '\n'
  | 'r' => some '\r'
  | 't' => some '\t'
  | _ => none

def isLeading (n : Nat) : Bool := 0xd800 ≤ n && n < 0xdc00

def isTrailing (n : Nat) : Bool := 0xdc00 ≤ n && n < 0xe000

def prepend (c : Char) (r : Option (List Char) × List Char) : Option (List Char) × List Char :=
  (r.1.map (c :: ·), r.2)

def spoil (r : Option (List Char) × List Char) : Option (List Char) × List Char := (none, r.2)

/-- The rest of a string after its opening quote, and what follows the closing quote. -/
def stringBody : List Char → Option (Option (List Char) × List Char)
  | '"' :: rest => some (some [], rest)
  | '\\' :: 'u' :: a :: b :: c :: d :: '\\' :: 'u' :: e :: f :: g :: h :: rest =>
    match hex4? a b c d with
    | none => none
    | some n =>
      if isLeading n then
        match hex4? e f g h with
        | none => none
        | some m =>
          if isTrailing m then
            (stringBody rest).map
              (prepend (Char.ofNat (0x10000 + (n - 0xd800) * 0x400 + (m - 0xdc00))))
          else (stringBody ('\\' :: 'u' :: e :: f :: g :: h :: rest)).map spoil
      else
        let rest := stringBody ('\\' :: 'u' :: e :: f :: g :: h :: rest)
        if isTrailing n then rest.map spoil else rest.map (prepend (Char.ofNat n))
  | '\\' :: 'u' :: a :: b :: c :: d :: rest =>
    match hex4? a b c d with
    | none => none
    | some n =>
      if isLeading n || isTrailing n then (stringBody rest).map spoil
      else (stringBody rest).map (prepend (Char.ofNat n))
  | '\\' :: c :: rest =>
    match escaped? c with
    | none => none
    | some e => (stringBody rest).map (prepend e)
  | c :: rest => if c.toNat < 0x20 then none else (stringBody rest).map (prepend c)
  | [] => none

/-- A string after its opening quote. It is no text where a surrogate is unpaired. -/
def readString (cs : List Char) : Option (Option String × List Char) :=
  (stringBody cs).map fun r => (r.1.map String.ofList, r.2)

def ofString : Option String → Json
  | some s => .text s
  | none => .broken

/-- An object with the given fields, each name of which has to be a text. -/
def ofFields (fields : List (Option String × Json)) : Json :=
  match fields.mapM fun f => f.1.map fun name => (name, f.2) with
  | some fs => .object fs
  | none => .broken

def digits1? (cs : List Char) : Option (List Char × List Char) :=
  match cs.takeWhile isDigit with
  | [] => none
  | ds => some (ds, cs.dropWhile isDigit)

def naturalOf (ds : List Char) : Nat := ds.foldl (fun n c => 10 * n + (c.toNat - 48)) 0

def integerPart? (cs : List Char) : Option (List Char × List Char) :=
  match digits1? cs with
  | some ('0' :: _ :: _, _) => none
  | r => r

def fraction? : List Char → Option (Option (List Char) × List Char)
  | '.' :: cs => (digits1? cs).map fun r => (some r.1, r.2)
  | cs => some (none, cs)

def sign : List Char → Bool × List Char
  | '+' :: cs => (false, cs)
  | '-' :: cs => (true, cs)
  | cs => (false, cs)

def exponent? : List Char → Option (Option Int × List Char)
  | 'e' :: cs | 'E' :: cs =>
    let (negative, cs) := sign cs
    (digits1? cs).map fun r =>
      (some (if negative then -(naturalOf r.1 : Int) else naturalOf r.1), r.2)
  | cs => some (none, cs)

/-- Whether `n` times the `e`-th power of ten rounds to no finite double, that is, whether it is at
least half a last place above the largest one. -/
def exceedsDoubles (n : Nat) (e : Int) : Bool :=
  let places := ((Nat.toDigits 10 n).length : Int) + e
  let limit := Nat.pow 2 1024 - Nat.pow 2 970
  if n = 0 ∨ places < 309 then false
  else if 309 < places then true
  else decide (limit * Nat.pow 10 (-e).toNat ≤ n * Nat.pow 10 e.toNat)

/-- A number from its sign, its digits and its exponent. A negative zero is no integer. -/
def ofNumber (negative : Bool) (whole : List Char) (fraction : Option (List Char))
    (exponent : Option Int) : Json :=
  let n := naturalOf whole
  if fraction.isNone ∧ exponent.isNone ∧ negative ∧ 0 < n ∧ n ≤ 0x8000000000000000 then
    .int (-(n : Int))
  else if fraction.isNone ∧ exponent.isNone ∧ ¬ negative ∧ n < 0x10000000000000000 then .int n
  else
    let places := fraction.getD []
    if exceedsDoubles (naturalOf (whole ++ places)) (exponent.getD 0 - places.length) then .broken
    else .otherNumber

def readNumber (cs : List Char) : Option (Json × List Char) := do
  let (negative, cs) := match cs with | '-' :: r => (true, r) | r => (false, r)
  let (whole, cs) ← integerPart? cs
  let (fraction, cs) ← fraction? cs
  let (exponent, cs) ← exponent? cs
  some (ofNumber negative whole fraction exponent, cs)

mutual

/-- A value after white space. `fuel` bounds the nesting and the number of items. -/
def readValue (fuel : Nat) (cs : List Char) : Option (Json × List Char) :=
  match fuel with
  | 0 => none
  | fuel + 1 =>
    match skipSpace cs with
    | 'n' :: 'u' :: 'l' :: 'l' :: rest => some (.null, rest)
    | 't' :: 'r' :: 'u' :: 'e' :: rest => some (.bool true, rest)
    | 'f' :: 'a' :: 'l' :: 's' :: 'e' :: rest => some (.bool false, rest)
    | '"' :: rest => (readString rest).map fun r => (ofString r.1, r.2)
    | '[' :: rest =>
      match skipSpace rest with
      | ']' :: rest => some (.list [], rest)
      | rest => (readItems fuel rest).map fun r => (.list r.1, r.2)
    | '\x7b' :: rest =>
      match skipSpace rest with
      | '\x7d' :: rest => some (.object [], rest)
      | rest => (readFields fuel rest).map fun r => (ofFields r.1, r.2)
    | rest => readNumber rest

def readItems (fuel : Nat) (cs : List Char) : Option (List Json × List Char) :=
  match fuel with
  | 0 => none
  | fuel + 1 =>
    match readValue fuel cs with
    | none => none
    | some (v, rest) =>
      match skipSpace rest with
      | ',' :: rest => (readItems fuel rest).map fun r => (v :: r.1, r.2)
      | ']' :: rest => some ([v], rest)
      | _ => none

def readFields (fuel : Nat) (cs : List Char) : Option (List (Option String × Json) × List Char) :=
  match fuel with
  | 0 => none
  | fuel + 1 =>
    match skipSpace cs with
    | '"' :: rest =>
      match readString rest with
      | some (k, rest) =>
        match skipSpace rest with
        | ':' :: rest =>
          match readValue fuel rest with
          | none => none
          | some (v, rest) =>
            match skipSpace rest with
            | ',' :: rest => (readFields fuel rest).map fun r => ((k, v) :: r.1, r.2)
            | '\x7d' :: rest => some ([(k, v)], rest)
            | _ => none
        | _ => none
      | _ => none
    | _ => none

end

def read? (s : String) : Option Json :=
  let cs := s.toList
  match readValue (2 * cs.length + 2) cs with
  | some (v, rest) => if skipSpace rest = [] then some v else none
  | none => none

end LiquidityNet.Json
