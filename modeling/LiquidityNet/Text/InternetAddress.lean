/-!
# Internet addresses

The texts that name an internet address: four decimal groups below 256 without leading zeros, or
eight groups of up to four hexadecimal digits, of which one run of zero groups may be left out as
a double colon and the last two may be written as four decimal groups.
-/

namespace LiquidityNet.InternetAddress

def digit? (base : Nat) (c : Char) : Option Nat :=
  let v :=
    if '0' ≤ c ∧ c ≤ '9' then some (c.toNat - 48)
    else if 'a' ≤ c ∧ c ≤ 'f' then some (c.toNat - 87)
    else if 'A' ≤ c ∧ c ≤ 'F' then some (c.toNat - 55)
    else none
  v.filter (· < base)

def decimalGroup? (cs : List Char) : Option (List Char) :=
  let ds := cs.takeWhile fun c => (digit? 10 c).isSome
  let n := ds.foldl (fun n c => 10 * n + (c.toNat - 48)) 0
  if ds.isEmpty || 3 < ds.length || 255 < n || (ds.head? == some '0' && 1 < ds.length) then none
  else some (cs.drop ds.length)

def hexGroup? (cs : List Char) : Option (List Char) :=
  let ds := cs.takeWhile fun c => (digit? 16 c).isSome
  if ds.isEmpty || 4 < ds.length then none else some (cs.drop ds.length)

def expect? (c : Char) : List Char → Option (List Char)
  | [] => none
  | d :: rest => if d = c then some rest else none

/-- Four decimal groups between points, and what follows them. -/
def dotted? (cs : List Char) : Option (List Char) := do
  let cs ← decimalGroup? cs
  let cs ← decimalGroup? (← expect? '.' cs)
  let cs ← decimalGroup? (← expect? '.' cs)
  decimalGroup? (← expect? '.' cs)

/-- Groups read one after the other: how many, whether the last two were written in decimal, and
what follows. `room` is how many more may come, `first` whether no colon is due. -/
def groups (room : Nat) (first : Bool) (cs : List Char) : Nat × Bool × List Char :=
  match room with
  | 0 => (0, false, cs)
  | room + 1 =>
    let start := if first then some cs else expect? ':' cs
    match (if room = 0 then none else start.bind dotted?) with
    | some rest => (2, true, rest)
    | none =>
      match start.bind hexGroup? with
      | none => (0, false, cs)
      | some rest =>
        let (n, tail, rest) := groups room false rest
        (n + 1, tail, rest)

/-- An address of eight groups and what follows it. -/
def colons? (cs : List Char) : Option (List Char) :=
  let (n, decimal, rest) := groups 8 true cs
  if n = 8 then some rest
  else if decimal then none
  else do
    let rest ← expect? ':' (← expect? ':' rest)
    let (_, _, rest) := groups (7 - n) true rest
    some rest

def isValid (s : String) : Bool :=
  let cs := s.toList
  match (dotted? cs).or (colons? cs) with
  | some [] => true
  | _ => false

end LiquidityNet.InternetAddress
