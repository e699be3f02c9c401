import LiquidityNet.Bond.Deposit

/-!
# Bond rewards

The reward pool is shared among the active nodes by their bonds, up to a cap, and by the blocks
each served without slashes; what slashed blocks forfeit stays in the pool. Each node is paid on
its own, so that one which cannot be paid does not keep the others from their reward.
-/

namespace LiquidityNet.Bond

/-- The bond two thirds up the ascending list of bonds, above which bond earns no reward. -/
def cap (nodes : List Node) : Amount :=
  let bonds := (nodes.map (·.bond)).mergeSort fun a b => decide (a ≤ b)
  let n := bonds.length
  bonds.getD (n * 2 / 3 - if n % 3 = 0 then 1 else 0) 0

structure RewardRound where
  lastChurn : Height
  pool : Amount
  totalBond : Amount
  bondCap : Amount

structure Service where
  blocks : Amount
  earned : Amount
  /-- The slash points left once the blocks are worked off. -/
  slashLeft : Signed

def serviceOf (r : RewardRound) (height : Height) (slash : Signed) : Except Fault Service := do
  let blocks := (← height.sub r.lastChurn).positivePart
  let earned := (← blocks.sub slash).positivePart
  let left ← slash.sub blocks
  return ⟨.orZero blocks.val.toNat, .orZero earned.val.toNat, left⟩

def rewardOf (r : RewardRound) (n : Node) (s : Service) : Amount :=
  let whole := Share.of (min n.bond r.bondCap) r.totalBond r.pool
  if s.blocks = 0 then whole else Share.of s.earned s.blocks whole

def afterReward (t : Network) (reward blocks : Amount) : Network :=
  { t with bondReward := t.bondReward.minus reward, bondUnits := t.bondUnits.minus blocks }

/-- Enters a reward into the records of a node whose operator had some bond before. Gives the
operator's fee, which is not added to the bond. -/
def enterReward (n : Node) (reward : Amount) (before : Providers) (operatorBond : Amount) :
    Action Amount := do
  let bond := n.bond.plus reward
  let after ← before.aligned bond
  let gain := (after.bondOf n.operator).minus operatorBond
  let fee := min (Share.within after.operatorFee basisPoints reward) gain
  let rest ← bond.sub fee
  Nodes.saveWith { n with bond := rest } (after.withdraw fee n.operator)
  return fee

def payFee (n : Node) (fee : Amount) : Action Unit := do
  if fee ≠ 0 then
    Bank.payOut Module.bond n.operator [⟨.rune, fee⟩]
    Ledger.emit (.bond fee .returned .blank n.address n.operator)

/-- Pays a node its reward and the operator its fee. Gives the network's totals afterwards. -/
def payReward (r : RewardRound) (t : Network) (n : Node) : Action Network := do
  if n.activeSince = 0 ∨ n.bond = 0 then return t
  let slash ← Nodes.slashPoints n.address
  let service ← serviceOf r (← Ledger.currentHeight) slash
  let reward := rewardOf r n service
  let before ← (← providersOf n).aligned n.bond
  let some operatorBefore := before.find? n.operator | refuse (.noOperatorProvider n.address)
  Nodes.setSlashPoints n.address service.slashLeft
  let fee ← enterReward n reward before operatorBefore.bond
  Ledger.emit (.bond reward .reward .blank (.ofModule Module.bond) n.operator)
  payFee n fee
  return afterReward t reward service.blocks

/-- Pays a node together with the reduced pool, or leaves both as they are. -/
def payNode (r : RewardRound) (n : Node) : Action Unit := do
  let _ ← attempt (transactionally do
    let t ← NetworkState.get
    NetworkState.save (← payReward r t n))

def rewardRound (active : List Node) (pool : Amount) : Except Fault RewardRound := do
  let bondCap := cap active
  let totalBond ← Amount.sum (active.map fun n => min n.bond bondCap)
  let lastChurn :=
    match active with
    | [] => 0
    | n :: ns => (ns.map (·.activeSince)).foldl max n.activeSince
  return ⟨lastChurn, pool, totalBond, bondCap⟩

def payRewards : Action Unit := do
  let active ← Nodes.active
  let round ← rewardRound active 0
  let pool := (← NetworkState.get).bondReward
  active.forM (payNode { round with pool := pool })

end LiquidityNet.Bond
