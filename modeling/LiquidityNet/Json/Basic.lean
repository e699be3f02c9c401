/-!
# JSON trees

A tree tells apart what a record can hold: integers that fit 64 bits, and all other numbers.
Fields of an object keep their order in the text, repetitions included. A value may be well formed
and still stand for nothing; it is broken then, and only what skips it unread may contain it.
-/

namespace LiquidityNet

inductive Json where
  | null
  | bool (value : Bool)
  /-- A number written without fraction and exponent, between `-2 ^ 63` and `2 ^ 64`. -/
  | int (value : Int)
  | otherNumber
  | text (value : String)
  /-- A string with an unpaired surrogate escape, an object with such a name, or a number beyond the
  range of doubles. -/
  | broken
  | list (items : List Json)
  | object (fields : List (String × Json))
  deriving Inhabited

namespace Json

def field? (name : String) : List (String × Json) → Option Json
  | [] => none
  | (k, v) :: rest => if k = name then some v else field? name rest

def repeats (name : String) : List (String × Json) → Bool
  | [] => false
  | (k, _) :: rest => if k = name then (field? name rest).isSome else repeats name rest

/-- The fields left when of each repeated name the last one wins. -/
def lastWins (fields : List (String × Json)) : List (String × Json) :=
  fields.foldr (fun f rest => if (field? f.1 rest).isSome then rest else f :: rest) []

mutual

def settle : Json → Json
  | .list xs => .list (settleItems xs)
  | .object fs => .object (lastWins (settleFields fs))
  | j => j

def settleItems : List Json → List Json
  | [] => []
  | x :: xs => settle x :: settleItems xs

def settleFields : List (String × Json) → List (String × Json)
  | [] => []
  | (k, v) :: rest => (k, settle v) :: settleFields rest

end

mutual

def isReadable : Json → Bool
  | .broken => false
  | .list xs => areReadable xs
  | .object fs => areReadableFields fs
  | _ => true

def areReadable : List Json → Bool
  | [] => true
  | x :: xs => isReadable x && areReadable xs

def areReadableFields : List (String × Json) → Bool
  | [] => true
  | (_, v) :: rest => isReadable v && areReadableFields rest

end

mutual

def depth : Json → Nat
  | .list xs => itemsDepth xs + 1
  | .object fs => fieldsDepth fs + 1
  | _ => 0

def itemsDepth : List Json → Nat
  | [] => 0
  | x :: xs => max (depth x) (itemsDepth xs)

def fieldsDepth : List (String × Json) → Nat
  | [] => 0
  | (_, v) :: rest => max (depth v) (fieldsDepth rest)

end

end Json

end LiquidityNet
