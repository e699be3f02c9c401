import LiquidityNet.Json.Basic

/-!
# Records in JSON

A record is an object with known fields, of which none is written twice; unknown fields are
ignored. It may also be a list of its fields in their order. A field is required, may be missing in
favour of a default, or may be missing or null.
-/

namespace LiquidityNet.Json

structure Fields where
  /-- Whether the record is a list, in which only defaults may be left out at the end. -/
  byPosition : Bool
  found : List (String × Json)

namespace Fields

def ofJson? (names : List String) : Json → Option Fields
  | .object fs => if names.any fun n => repeats n fs then none else some ⟨false, fs⟩
  | .list xs => if names.length < xs.length then none else some ⟨true, names.zip xs⟩
  | _ => none

variable {α : Type}

def required (r : Fields) (name : String) (decode : Json → Option α) : Option α :=
  (field? name r.found).bind decode

def withDefault (r : Fields) (name : String) (default : α) (decode : Json → Option α) : Option α :=
  match field? name r.found with
  | none => some default
  | some j => decode j

def nullable (decode : Json → Option α) : Json → Option (Option α)
  | .null => some none
  | j => (decode j).map some

def optional (r : Fields) (name : String) (decode : Json → Option α) : Option (Option α) :=
  match field? name r.found with
  | none => if r.byPosition then none else some none
  | some j => nullable decode j

def optionalDefault (r : Fields) (name : String) (decode : Json → Option α) : Option (Option α) :=
  r.withDefault name none (nullable decode)

end Fields

def listOf? {α : Type} (decode : Json → Option α) : Json → Option (List α)
  | .list xs => xs.mapM decode
  | _ => none

def text? : Json → Option String
  | .text s => some s
  | _ => none

def bool? : Json → Option Bool
  | .bool b => some b
  | _ => none

def int? : Json → Option Int
  | .int i => some i
  | _ => none

/-- A name among finitely many: a string, or an object whose only field has that name and is
null. -/
def word? : Json → Option String
  | .text s => some s
  | .object [(s, .null)] => some s
  | _ => none

mutual

/-- The tree in which the empty object that an only field holds has become null. -/
def emptyAsNull : Json → Json
  | .list xs => .list (emptyAsNullItems xs)
  | .object [(name, .object [])] => .object [(name, .null)]
  | .object fs => .object (emptyAsNullFields fs)
  | j => j

def emptyAsNullItems : List Json → List Json
  | [] => []
  | x :: xs => emptyAsNull x :: emptyAsNullItems xs

def emptyAsNullFields : List (String × Json) → List (String × Json)
  | [] => []
  | (name, v) :: rest => (name, emptyAsNull v) :: emptyAsNullFields rest

end

/-- The tag of a tagged record and the record without it: an object with a field `type`, or a list
that starts with the tag. Inside it a word may also be an object whose only field is empty. -/
def tagged? : Json → Option (String × Json)
  | .object fs =>
    if repeats "type" fs then none
    else ((field? "type" fs).bind text?).map fun t =>
      (t, .object (emptyAsNullFields (fs.filter fun f => f.1 != "type")))
  | .list (.text t :: rest) => some (t, .list (emptyAsNullItems rest))
  | _ => none

def orNull {α : Type} (encode : α → Json) : Option α → Json
  | none => .null
  | some a => encode a

end LiquidityNet.Json
