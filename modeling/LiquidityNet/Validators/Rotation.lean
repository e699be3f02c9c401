import LiquidityNet.Validators.Marking
import LiquidityNet.Validators.Ragnarok

/-!
# Rotation of the validator set

At the beginning of a block a churn may be due: nodes are marked, the next set is chosen, and a
keygen is requested for it. At the end of a block the memberships of the active vaults, which an
earlier keygen brought about, become node statuses and voting powers.
-/

namespace LiquidityNet.Rotation

def firstHeight : Height := 1

def activePower : Nat := 100

structure PowerUpdate where
  key : String
  power : Nat
  deriving DecidableEq

def seat (seats : Nat) (height : Height) (n : Node × Nat) : Action Unit :=
  Nodes.save (n.1.moveTo (if n.2 < seats then .active else .standby) height)

def seatAll : Action Unit := do
  let seats ← Governance.count .desiredValidatorSet
  let height ← Ledger.currentHeight
  let nodes := (← Nodes.all).filter fun n => n.status = .ready ∨ n.status = .active
  (nodes.mergeSort Churn.joinsBefore).zipIdx.forM (seat seats height)

/-- Whether a number is a multiple of a step; nothing is a multiple of zero. -/
def isMultiple (x step : Signed) : Bool :=
  step.val != 0 && !(x.val == -0x8000000000000000 && step.val == -1) && x.val.tmod step.val == 0

/-- When a churn falls due: on schedule, or on a later try. -/
structure Due where
  onSchedule : Bool
  retry : Bool

def groupSize : Query Nat := do return (max (← Governance.value .asgardSize) 1).val.toNat

def due (vaults activeNodes : Nat) : Query Due := do
  let interval ← Governance.value .churnInterval
  let step ← Governance.value .churnRetryInterval
  let size ← groupSize
  let last ← Marking.lastChurn
  let height ← Ledger.currentHeight
  let next ← last.add interval
  let passed ← height.sub last
  let overdue := decide (interval < passed) || vaults != (activeNodes + size - 1) / size
  let retry ← if overdue then do pure (isMultiple (← passed.sub interval) step) else pure false
  return ⟨next == height, retry⟩

def isHalted (c : Chain) : Query Bool := do
  let height ← Ledger.currentHeight
  match ← Governance.mimir? (Mimir.haltChain c) with
  | some halt => return decide (0 < halt ∧ halt ≤ height)
  | none => return false

def anyHalted (vaults : List Vault) : Query Bool := (Recall.chainsOf vaults).anyM isHalted

/-- Marks the nodes that have to go. On a later try neither age nor a small bond is a reason. -/
def markAll (activeNodes desired : Nat) (retry : Bool) : Action Unit := do
  (← Marking.badNodes).forM Marking.mark
  if !retry then
    if let some n ← Marking.oldest? then Marking.mark n
    if desired ≤ activeNodes then
      if let some n ← Marking.poorest? then Marking.mark n
  Marking.markOutdated

def rescored (height lastChurn : Height) (n : Node) : Query Node := do
  if n.leaveScore = 0 then return n
  let slash ← Nodes.slashPoints n.address
  return { n with leaveScore := max (← Churn.score height slash lastChurn) 1 }

/-- How many nodes may join when some leave and others stay: one for each that leaves, those that
join in every churn, and enough for the smallest set. -/
def joinLimit (leaving staying least : Nat) (newPerChurn : Signed) : Nat :=
  let limit := leaving + (if newPerChurn.val ≤ 0 then 1 else newPerChurn.val.toNat)
  if staying < least then max limit (least - staying) else limit

def nextSet (target : Nat) : Action (List Node × Bool) := do
  Marking.readjustAll
  let ready := (← Nodes.withStatus .ready).mergeSort Churn.joinsBefore
  let present ← Nodes.active
  let height ← Ledger.currentHeight
  let last ← Marking.lastChurn
  let active := (← present.mapM fun n => rescored height last n).mergeSort Churn.leavesBefore
  let leaving := Churn.countToRemove active
  let staying := active.drop leaving
  let least ← Governance.count .minimumNodesForBFT
  let newPerChurn ← Governance.value .numberOfNewNodesPerChurn
  let limit := joinLimit leaving staying.length least newPerChurn
  let joining := ready.take (min limit (target - staying.length))
  return (staying ++ joining, leaving != 0 || !joining.isEmpty)

/-- Requests a keygen for the groups of the next set, if it can be split. -/
def requestKeygen (next : List Node) (size : Nat) : Action Unit := do
  let groups := Churn.split next size
  if groups ≠ [] then
    let height ← Ledger.currentHeight
    let block ← Keygens.atHeight height
    Keygens.save
      { height, groups := block.groups ++ groups.map fun g => g.filterMap Node.vaultKey }

/-- Runs a churn that is due, unless a chain is halted or a retiring vault still holds funds. -/
def churn (vaults : List Vault) (activeNodes : Nat) (retry : Bool) : Action Unit := do
  if ← anyHalted vaults then return
  if (← Vaults.asgards .retiring).any Vault.hasFunds then return
  let least ← Governance.count .minimumNodesForBFT
  let desired ← Governance.count .desiredValidatorSet
  if least + 2 < activeNodes then markAll activeNodes desired retry
  let (next, differs) ← nextSet desired
  if differs then requestKeygen next (← groupSize)

def beginBlock : Action Unit := do
  if (← Ledger.currentHeight) = firstHeight then seatAll
  else if ← NetworkState.isEnding then return
  else
    let vaults ← Vaults.asgards .active
    let activeNodes := (← Nodes.active).length
    let d ← due vaults.length activeNodes
    if d.onSchedule || d.retry then churn vaults activeNodes d.retry

structure Changes where
  joining : List Node
  leaving : List Node

def memberKeys (vaults : List Vault) : List PublicKey :=
  ((vaults.flatMap (·.members)).mergeSort fun a b => decide (a.text ≤ b.text)).eraseDups

def leaves (members : List PublicKey) (n : Node) : Bool :=
  n.forcedToLeave || (!members.isEmpty && !n.vaultKey.any members.contains)

def joiner? (k : PublicKey) : Query (Option Node) := do
  return (← Nodes.holding? k).filter fun n => n.status ≠ .active ∧ n.status ≠ .disabled

def changes : Query Changes := do
  let vaults ← Vaults.asgards .active
  if vaults.isEmpty then refuse .noActiveVault
  let members := memberKeys vaults
  let leaving := (← Nodes.active).filter (leaves members)
  let joining ← members.mapM joiner?
  return ⟨joining.filterMap id, leaving⟩

/-- Whether ragnarok begins: too few nodes would remain, or governance set its height; but not
while a vault is retiring. -/
def endsNow (c : Changes) : Query Bool := do
  if (← Vaults.asgards .retiring) ≠ [] then return false
  let least ← Governance.count .minimumNodesForBFT
  let active := (← Nodes.active).length
  if least ≤ active ∧ active + c.joining.length - c.leaving.length < least then return true
  let planned ← Governance.value .artificialRagnarokBlockHeight
  return decide (0 < planned ∧ planned ≤ (← Ledger.currentHeight))

def join (height : Height) (a : Address) : Action (List PowerUpdate) := do
  let some n ← Nodes.find? a | return []
  Ledger.emit (.nodeStatus n.address n.status .active)
  Nodes.clearSlashPoints n.address
  Nodes.save { n.moveTo .active height with leaveScore := 0, requestedToLeave := false }
  return if n.consensusKey = "" then [] else [⟨n.consensusKey, activePower⟩]

/-- Takes a node out of the active set and asks it for its yggdrasil funds. -/
def leave (height : Height) (engineKeys : List String) (a : Address) :
    Action (List PowerUpdate) := do
  let some n ← Nodes.find? a | return []
  let status : NodeStatus := if n.forcedToLeave then .disabled else .standby
  Ledger.emit (.nodeStatus n.address n.status status)
  let n := { n.moveTo status height with requestedToLeave := false }
  Nodes.save n
  let _ ← attempt (Recall.request n)
  return if engineKeys.contains n.consensusKey then [⟨n.consensusKey, 0⟩] else []

def standDown (height : Height) : Action Unit := do
  (← Nodes.withStatus .ready).forM fun n => Nodes.save (n.moveTo .standby height)

def apply (engineKeys : List String) (c : Changes) : Action (List PowerUpdate) := do
  let _ ← attempt Bond.payRewards
  let height ← Ledger.currentHeight
  let joined ← c.joining.mapM fun n => join height n.address
  let left ← c.leaving.mapM fun n => leave height engineKeys n.address
  standDown height
  return joined.flatten ++ left.flatten

/-- What the validators do at the end of a block. `engineKeys` are the consensus keys that the
engine counted among its validators when the block began. -/
def endBlock (engineKeys : List String) : Action (List PowerUpdate) := do
  if ← NetworkState.isEnding then
    Ragnarok.tick
    return []
  let c ← changes
  if ← endsNow c then
    Ragnarok.tick
    return []
  if c.joining.isEmpty && c.leaving.isEmpty then return []
  apply engineKeys c

def nextChurn : Query Height := do
  let interval ← Governance.value .churnInterval
  let last ← Marking.lastChurn
  (last.add interval : Except Fault Height)

end LiquidityNet.Rotation
