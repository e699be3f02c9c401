/-!
# Texts

Beginnings of texts, white space at their ends, and natural numbers in decimal digits. White space
is the Unicode property `White_Space`, so a text of no-break spaces counts as blank.
-/

namespace LiquidityNet.Text

def beginsWith (start s : String) : Bool := start.toList.isPrefixOf s.toList

theorem beginsWith_iff {start s : String} :
    beginsWith start s = true ↔ start.toList <+: s.toList := by
  simp [beginsWith]

/-- The characters of the Unicode property `White_Space`. -/
def isBlank (c : Char) : Bool :=
  let n := c.toNat
  (9 ≤ n && n ≤ 13) || n == 0x20 || n == 0x85 || n == 0xa0 || n == 0x1680 ||
    (0x2000 ≤ n && n ≤ 0x200a) || n == 0x2028 || n == 0x2029 || n == 0x202f || n == 0x205f ||
    n == 0x3000

def trim (cs : List Char) : List Char :=
  ((cs.dropWhile isBlank).reverse.dropWhile isBlank).reverse

def isEmpty (s : String) : Bool := s.toList.all isBlank

def upper (s : String) : String := s.map Char.toUpper

@[simp] theorem toList_upper (s : String) : (upper s).toList = s.toList.map Char.toUpper :=
  String.toList_map

def digit? (c : Char) : Option Nat :=
  if '0' ≤ c ∧ c ≤ '9' then some (c.toNat - '0'.toNat) else none

/-- Decimal digits after `acc`, the number read so far. -/
def digits? (acc : Nat) : List Char → Option Nat
  | [] => some acc
  | c :: cs => (digit? c).bind fun d => digits? (10 * acc + d) cs

def nat? : List Char → Option Nat
  | [] => none
  | cs => digits? 0 cs

/-- A natural number after an optional plus sign. -/
def signedNat? : List Char → Option Nat
  | '+' :: cs => nat? cs
  | cs => nat? cs

/-- A natural number of any size after an optional plus sign; underscores may stand between and
after its digits. -/
def groupedNat? (cs : List Char) : Option Nat :=
  match (match cs with | '+' :: '+' :: _ => cs | '+' :: rest => rest | _ => cs) with
  | '_' :: _ => none
  | rest => if rest = [] then none else digits? 0 (rest.filter (· != '_'))

def splitAt (sep : Char) : List Char → List (List Char)
  | [] => [[]]
  | c :: cs =>
    if c = sep then [] :: splitAt sep cs
    else
      match splitAt sep cs with
      | [] => [[c]]
      | p :: ps => (c :: p) :: ps

/-- The digits of a number filled up with zeros to `width` characters, of which a minus sign is
the first. -/
def padded (width : Nat) (i : Int) : String :=
  let ds := Nat.toDigits 10 i.natAbs
  if i < 0 then String.ofList ('-' :: (List.replicate (width - 1 - ds.length) '0' ++ ds))
  else String.ofList (List.replicate (width - ds.length) '0' ++ ds)

end LiquidityNet.Text
