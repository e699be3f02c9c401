import LiquidityNet.Node
import LiquidityNet.Share

/-!
# Churn arithmetic

How many nodes may leave at once, in which order they leave, and how the next validator set is
split into groups that each hold an asgard vault.
-/

namespace LiquidityNet.Churn

def leastNodes : Nat := 4

/-- A node's conduct since the last churn, lower for worse: blocks per slash point, scaled by the
base units of one RUNE. -/
def score (height : Height) (slash : Signed) (lastChurn : Height) : Except Fault Amount := do
  let blocks := (← height.sub lastChurn).positivePart
  let scaled := (Amount.orZero blocks.val.toNat).times oneRune
  return if slash.val ≤ 0 then scaled else .cap (scaled.val / slash.val.toNat)

/-- The most nodes that may leave a set, so that more than two thirds and at least the smallest set
remain. -/
def mostToLeave (count : Nat) : Nat := min (count - (count * 2 / 3 + 1)) (count - leastNodes)

def wantsOut (n : Node) : Bool := n.forcedToLeave || n.requestedToLeave

/-- How many of the active nodes leave: those that want out, up to a third of the set, and marked
ones as far as there is room. -/
def countToRemove (active : List Node) : Nat :=
  let leaving := min (active.countP wantsOut) (active.length / 3)
  let marked := active.countP fun n => !wantsOut n && n.leaveScore != 0
  leaving + min marked (mostToLeave active.length - leaving)

/-- The class and score by which a node leaves: forced before requested before marked before all
others. -/
def leaveRank (n : Node) : Nat × Nat :=
  if n.forcedToLeave then (0, 0)
  else if n.requestedToLeave then (1, 0)
  else if n.leaveScore ≠ 0 then (2, n.leaveScore.val)
  else (3, 0)

def leavesBefore (a b : Node) : Bool :=
  let x := leaveRank a
  let y := leaveRank b
  if x.1 = y.1 then
    if x.2 = y.2 then decide (a.address.text ≤ b.address.text) else decide (x.2 ≤ y.2)
  else decide (x.1 ≤ y.1)

/-- The order in which nodes join: larger bonds first, then by address. -/
def joinsBefore (a b : Node) : Bool :=
  if a.bond = b.bond then decide (a.address.text ≤ b.address.text) else decide (b.bond ≤ a.bond)

/-- The members of one of `count` groups when nodes are dealt to the groups in turn. -/
def group (nodes : List Node) (count i : Nat) : List Node :=
  (nodes.zipIdx.filter fun x => x.2 % count = i).map (·.1)

def deal (nodes : List Node) (count : Nat) : List (List Node) :=
  (List.range count).map (group nodes count)

/-- Whether neighbouring groups differ in size by one at most. -/
def areEven : List (List Node) → Bool
  | g :: h :: rest => g.length ≤ h.length + 1 && h.length ≤ g.length + 1 && areEven (h :: rest)
  | _ => true

/-- Groups of near-equal size and at most `size` nodes, dealt in the order of descending bonds; none
if that leaves a group of a single node. -/
def split (nodes : List Node) (size : Nat) : List (List Node) :=
  let size := max size 1
  let count := (nodes.length + size - 1) / size
  let groups := deal (nodes.mergeSort fun a b => decide (b.bond ≤ a.bond)) count
  if groups.all (fun g => g.length ≤ size && 2 ≤ g.length) && areEven groups then groups else []

end LiquidityNet.Churn
