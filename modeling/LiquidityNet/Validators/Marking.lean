import LiquidityNet.Ledger.Tables
import LiquidityNet.Text.InternetAddress
import LiquidityNet.Validators.Churn

/-!
# Marks and readiness

Active nodes are marked to leave for bad conduct, age, a small bond or an old version. Nodes that
wait outside are ready once nothing stands against them.
-/

namespace LiquidityNet.Marking

def lastChurn : Query Height := do
  match ← Vaults.asgards .active with
  | [] => return 0
  | v :: vs => return (vs.map (·.created)).foldl max v.created

/-- The score that marks a node, at least one. -/
def markOf (n : Node) : Query Amount := do
  let slash ← Nodes.slashPoints n.address
  let last ← lastChurn
  let score ← Churn.score (← Ledger.currentHeight) slash last
  return max score 1

def mark (n : Node) : Action Unit := do
  if n.leaveScore ≠ 0 then return
  Nodes.save { n with leaveScore := ← markOf n }

/-- The nodes with more slash points than `tolerated`, each with its score. -/
def offenders (tolerated : Signed) (nodes : List Node) : Query (List (Amount × Node)) := do
  let last ← lastChurn
  let height ← Ledger.currentHeight
  let found ← nodes.mapM fun n => do
    let slash ← Nodes.slashPoints n.address
    if slash ≤ tolerated then return none
    return some (← Churn.score height slash last, n)
  return found.filterMap id

def isWorse (a b : Amount × Node) : Bool :=
  if a.1 = b.1 then decide (a.2.address.text ≤ b.2.address.text) else decide (a.1 ≤ b.1)

/-- The score up to which offenders leave: their scores spread over all active nodes, divided by
the redline. -/
def redScore (scores : List Amount) (active : Nat) (redline : Amount) : Except Fault Nat :=
  if redline = 0 then throw .division
  else pure (Amount.total scores / active / redline.val)

/-- The active nodes of the worst conduct, the worst first: those up to the red score, or the worst
one alone if none is that bad. -/
def badNodes : Query (List Node) := do
  let tolerated ← Governance.value .minSlashPointsForBadValidator
  let redline := Amount.wrap (← Governance.valueAtLeast .badValidatorRedline 1).val
  let most ← Governance.count .maxNodeToChurnOutForBadActors
  if most = 0 then return []
  let active ← Nodes.active
  let found ← offenders tolerated active
  if found.isEmpty then return []
  let sorted := found.mergeSort isWorse
  let red ← redScore (found.map (·.1)) active.length redline
  let bad := (sorted.filter fun x => x.1.val ≤ red).take most
  return (if bad.isEmpty then sorted.take 1 else bad).map (·.2)

def isOlder (a b : Node) : Bool :=
  if a.statusSince = b.statusSince then decide (a.address.text ≤ b.address.text)
  else decide (a.statusSince ≤ b.statusSince)

def oldest? : Query (Option Node) := do
  let height ← Ledger.currentHeight
  let nodes := (← Nodes.active).filter fun n => n.statusSince < height
  return (nodes.mergeSort isOlder).head?

def isPoorer (a b : Node) : Bool :=
  if a.bond = b.bond then decide (a.address.text ≤ b.address.text) else decide (a.bond ≤ b.bond)

def poorest? : Query (Option Node) := do
  return ((← Nodes.active).mergeSort isPoorer).head?

/-- Whether a node runs less than a version for longer than a grace period. -/
def isOutdated (least : Version) (grace height : Signed) (n : Node) : Except Fault Bool :=
  if n.version < least then do return decide (grace < (← height.sub n.statusSince))
  else pure false

def markOutdated : Action Unit := do
  let most ← Governance.count .maxNodeToChurnOutForLowVersion
  let grace ← Governance.value .churnOutForLowVersionBlocks
  let least ← Nodes.joinVersion
  let height ← Ledger.currentHeight
  let nodes ← Nodes.active
  let outdated ← nodes.filterM fun n => isOutdated least grace height n
  ((outdated.mergeSort isOlder).take most).forM mark

inductive Obstacle where
  | forcedToLeave
  | requestedToLeave
  | badIpAddress
  | missingKeys
  | bondTooLow (bond least : Amount)
  | versionTooLow (version least : Version)
  | jailed
  | ragnarok
  deriving DecidableEq

namespace Obstacle

def text : Obstacle → String
  | forcedToLeave => "node account has been forced to leave"
  | requestedToLeave => "node account has requested to leave"
  | badIpAddress => "node account has invalid registered IP address"
  | missingKeys => "node account has not registered their pubkey set"
  | bondTooLow bond least =>
    "node account does not have minimum bond requirement: " ++ bond.text ++ "/" ++ least.text
  | versionTooLow version least =>
    "node account does not meet min version requirement: " ++ version.text ++ " vs " ++ least.text
  | jailed => "node account is jailed"
  | ragnarok => "ragnarok is currently in progress: no churning"

def status : Obstacle → NodeStatus
  | forcedToLeave => .disabled
  | missingKeys => .whitelisted
  | _ => .standby

end Obstacle

/-- The first thing that stands against a node's joining, if anything does. -/
def obstacle? (n : Node) : Query (Option Obstacle) := do
  if n.forcedToLeave then return some .forcedToLeave
  if n.requestedToLeave then return some .requestedToLeave
  if !InternetAddress.isValid n.ipAddress then return some .badIpAddress
  if n.keys.isIncomplete then return some .missingKeys
  let leastBond ← Governance.amount .minimumBondInRune
  if n.bond < leastBond then return some (.bondTooLow n.bond leastBond)
  let leastVersion ← Nodes.joinVersion
  if n.version < leastVersion then return some (.versionTooLow n.version leastVersion)
  if (← Nodes.jailOf n.address).holdsAt (← Ledger.currentHeight) then return some .jailed
  if ← NetworkState.isEnding then return some .ragnarok
  return none

def fitting (o : Option Obstacle) : NodeStatus :=
  match o with
  | some o => o.status
  | none => .ready

def readjust (n : Node) : Action Unit := do
  let status := fitting (← obstacle? n)
  if status ≠ n.status then
    Nodes.save (n.moveTo status (← Ledger.currentHeight))

def readjustAll : Action Unit := do
  let standby ← Nodes.withStatus .standby
  let ready ← Nodes.withStatus .ready
  (standby ++ ready).forM readjust

end LiquidityNet.Marking
