import LiquidityNet.Identity
import LiquidityNet.Share

/-!
# Bond providers

Who put up the bond of a node. The operator stands first; the others are paid by their part of the
bond, after the operator's fee on what the bond gained.
-/

namespace LiquidityNet

structure Provider where
  address : Address
  bond : Amount
  deriving DecidableEq

structure Providers where
  node : Address
  /-- The operator's part of the other providers' gains, in basis points. -/
  operatorFee : Amount
  list : List Provider
  deriving DecidableEq

namespace Providers

def empty (node : Address) : Providers := ⟨node, 0, []⟩

def find? (ps : Providers) (a : Address) : Option Provider := ps.list.find? (·.address == a)

def has (ps : Providers) (a : Address) : Bool := (ps.find? a).isSome

def bondOf (ps : Providers) (a : Address) : Amount :=
  match ps.find? a with
  | some p => p.bond
  | none => 0

def isOperator (ps : Providers) (a : Address) : Bool := ps.list.head?.any (·.address == a)

def total (ps : Providers) : Except Fault Amount := Amount.sum (ps.list.map (·.bond))

/-- Adds a provider without bond, unless the address is there already. -/
def admitted (ps : Providers) (a : Address) : Providers :=
  if ps.has a then ps else { ps with list := ps.list ++ [⟨a, 0⟩] }

def updateFirst (a : Address) (f : Amount → Amount) : List Provider → List Provider
  | [] => []
  | p :: ps =>
    if p.address = a then { p with bond := f p.bond } :: ps else p :: updateFirst a f ps

def deposit (ps : Providers) (amount : Amount) (a : Address) : Providers :=
  { ps with list := updateFirst a (·.plus amount) ps.list }

def withdraw (ps : Providers) (amount : Amount) (a : Address) : Providers :=
  { ps with list := updateFirst a (·.minus amount) ps.list }

def isRemovable (a : Address) (p : Provider) : Bool := p.address == a && p.bond == 0

/-- The providers without a provider that has no bond, if there is one besides the operator. -/
def remove? (ps : Providers) (a : Address) : Option Providers :=
  match ps.list with
  | [] => none
  | operator :: others =>
    if others.any (isRemovable a) then
      some { ps with list := operator :: others.eraseP (isRemovable a) }
    else none

/-- Whether anyone but the operator has bond. -/
def isBackedBeside (ps : Providers) (operator : Address) : Bool :=
  ps.list.any fun p => p.address != operator && p.bond != 0

/-- Hands out shares of `whole` in the order of the list, each by its part of `total` and at most
what is left; the last amount is what remains. -/
def dealt (total whole : Amount) : Amount → List Provider → Except Fault (List Provider × Amount)
  | left, [] => .ok ([], left)
  | left, p :: ps => do
    let share := min (Share.within p.bond total whole) left
    let left ← left.sub share
    let (ps, left) ← dealt total whole left ps
    return ({ p with bond := share } :: ps, left)

/-- The operator's fee on what the node's bond gained over the bonds so far. -/
def feeOnGain (ps : Providers) (total nodeBond : Amount) : Except Fault Amount :=
  if total < nodeBond then do
    return Share.within ps.operatorFee basisPoints (← nodeBond.sub total)
  else return 0

/-- Brings the bonds in line with the node's bond. What the bond gained bears the operator's fee;
the rest is shared by the bonds so far, and the operator takes what rounding leaves. -/
def aligned (ps : Providers) (nodeBond : Amount) : Except Fault Providers :=
  match ps.list with
  | [] => .ok ps
  | operator :: others => do
    let total ← ps.total
    if total = nodeBond then return ps
    let fee ← ps.feeOnGain total nodeBond
    let whole := nodeBond.minus fee
    let (others, left) ← dealt total whole whole others
    let bond ← left.add fee
    return { ps with list := { operator with bond } :: others }

end Providers

end LiquidityNet
