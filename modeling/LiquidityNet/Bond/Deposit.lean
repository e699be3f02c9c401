import LiquidityNet.Ledger.Bank

/-!
# Bond deposits

Anyone may open a node by bonding it, and is its operator from then on. Later deposits come from
the operator or from providers the operator admitted.
-/

namespace LiquidityNet.Bond

/-- The providers of a node; one without any counts its operator as provider of the whole bond. -/
def backfilled (n : Node) (ps : Providers) : Query Providers := do
  if ps.list ≠ [] then return ps
  return { ps with
    operatorFee := ← Governance.amount .nodeOperatorFee
    list := [⟨n.operator, n.bond⟩] }

/-- The providers of a node as they stand, at least the operator. -/
def providersOf (n : Node) : Query Providers := do
  backfilled n (← Nodes.providersOf n.address)

def admitDeposit (m : BondRequest) (n : Node) : Query Unit := do
  if n.status = .ready then refuse .bondWhileReady
  let byOperator := m.bondAddress == n.operator
  let ps ← providersOf n
  if m.operatorFee.isSome then
    if !byOperator then refuse .feeNotByOperator
    if ps.isBackedBeside n.operator then refuse .feeWhileBacked
  if m.provider.isSome && !byOperator then refuse .whitelistNotByOperator
  if !byOperator && !ps.has m.bondAddress then refuse .notAProvider
  if n.isActive && !ps.has m.bondAddress then refuse .onlyProvidersWhileActive

def validateDeposit (m : BondRequest) : Query Unit := do
  m.validate
  if !m.bondAddress.isOn .thor then refuse (.foreignBondAddress m.bondAddress)
  match ← Nodes.find? m.node with
  | some n => admitDeposit m n
  | none => if m.provider.isSome then refuse .whitelistNotByOperator

def nodeFor (m : BondRequest) : Query Node := do
  match ← Nodes.find? m.node with
  | some n => return n
  | none =>
    let height ← Ledger.currentHeight
    return .register m.node .whitelisted ⟨none, none⟩ 0 m.bondAddress height

def afterAdmission (m : BondRequest) (operator : Address) (ps : Providers) : Providers :=
  match m.provider with
  | some p => if m.bondAddress = operator then ps.admitted p else ps
  | none => ps

/-- The providers after a deposit: the operator may admit one more and set the fee, and the bond
is counted for its provider. -/
def afterDeposit (m : BondRequest) (operator : Address) (ps : Providers) : Providers :=
  let ps := afterAdmission m operator ps
  let ps := if ps.has m.bondAddress then ps.deposit m.bond m.bondAddress else ps
  { ps with operatorFee := m.operatorFee.getD ps.operatorFee }

def enterDeposit (m : BondRequest) : Action Unit := do
  let n ← nodeFor m
  let ps ← (← providersOf n).aligned n.bond
  Nodes.saveWith { n with bond := n.bond.plus m.bond } (afterDeposit m n.operator ps)
  if m.bond ≠ 0 then Bank.moveModule Module.asgard Module.bond [⟨.rune, m.bond⟩]
  Ledger.emit (.bond m.bond .paid m.tx.id m.tx.sender m.tx.recipient)

def deposit (m : BondRequest) : Action Unit := do
  validateDeposit m
  transactionally (enterDeposit m)

end LiquidityNet.Bond
