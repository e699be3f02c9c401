import LiquidityNet.Bond.Deposit
import LiquidityNet.Validators.Recall

/-!
# Bond withdrawals

A provider gets back at most its own share of the bond, and only while the node neither signs nor
holds funds. A node whose yggdrasil vault holds funds is asked to return them first; that request
stands although the withdrawal is refused.
-/

namespace LiquidityNet.Bond

/-- Refuses withdrawals that a node does not allow, and gives the node of the others. -/
def admitWithdrawal (m : UnbondRequest) : Query Node := do
  m.validate
  let some n ← Nodes.find? m.node | refuse (.noSuchNode m.node)
  if n.isActive then refuse .unbondWhileActive
  let ps ← Nodes.providersOf m.node
  if !ps.has m.bondAddress && n.operator != m.bondAddress then
    refuse (.notAuthorized m.bondAddress m.node)
  let jail ← Nodes.jailOf m.node
  if jail.holdsAt (← Ledger.currentHeight) then refuse (.jailed jail.release jail.reason)
  if let some key := n.vaultKey then
    if (← Vaults.asgards .retiring).any fun v => v.hasMember key then refuse .stillRetiring
  return n

/-- Admits a withdrawal, unless there are funds to return first: then asks for them. -/
def validateWithdrawal (m : UnbondRequest) : Action Node := do
  let n ← admitWithdrawal m
  if (← Vaults.yggdrasilOf n).any Vault.hasFunds then
    Recall.request n
    refuse .fundsToReturn
  return n

def payoutOf (tx : Transaction) (provider : Address) (amount : Amount) : Outbound :=
  { Outbound.make .thor provider ⟨.rune, amount⟩ tx.id with payer := some Module.bond }

def payProvider (tx : Transaction) (n : Node) (provider : Address) (amount : Amount) :
    Action Unit := do
  match ← attempt (Payout.schedule (payoutOf tx provider amount) 0) with
  | .ok true => pure ()
  | .ok false => refuse .bondPayoutUnsigned
  | .error e => refuse (.bondPayoutFailed e)
  Ledger.emit (.bond amount .returned tx.id n.address provider)

/-- The node once it got a withdrawal; one that asked to leave does not come back. -/
def settled (n : Node) (height : Height) : Node :=
  if n.requestedToLeave then n.moveTo .disabled height else n

/-- What a provider is paid of an amount: all of the bond where the amount is zero, and at most the
provider's share. -/
def paidOf (bond amount share : Amount) : Amount :=
  if share = 0 then 0 else min (if amount = 0 ∨ bond < amount then bond else amount) share

/-- Enters a payment to a provider into the records. Gives the node as it is afterwards. -/
def enterPayment (provider : Address) (paid : Amount) (ps : Providers) (n : Node) :
    Action Node := do
  let bond ← n.bond.sub paid
  let n := settled { n with bond := bond } (← Ledger.currentHeight)
  Nodes.saveWith n (ps.withdraw paid provider)
  return n

def payBack (tx : Transaction) (provider : Address) (amount : Amount) (n : Node) :
    Action Node := do
  if n.isActive then return n
  let ps ← (← providersOf n).aligned n.bond
  let paid := paidOf n.bond amount (ps.bondOf provider)
  if ps.bondOf provider ≠ 0 then payProvider tx n provider paid
  enterPayment provider paid ps n

def dismiss (node provider : Address) : Action Unit := do
  let ps ← Nodes.providersOf node
  if (ps.find? provider).any fun p => p.bond = 0 then
    match ps.remove? provider with
    | some ps => Nodes.saveProviders ps
    | none => return

def toppedUp (tx : Transaction) (n : Node) : Node :=
  match Coin.find? .rune tx.coins with
  | some c => { n with bond := n.bond.plus c.amount }
  | none => n

def dismissed? (m : UnbondRequest) (n : Node) : Option Address :=
  if m.bondAddress = n.operator then m.provider else none

def payee (m : UnbondRequest) (n : Node) : Address := (dismissed? m n).getD m.bondAddress

/-- Enters a withdrawal into the records. RUNE that comes with it is added to the bond first. -/
def enterWithdrawal (m : UnbondRequest) (n : Node) : Action Unit := do
  let _ ← payBack m.tx (payee m n) m.amount (toppedUp m.tx n)
  if (dismissed? m n).isSome ∧ payee m n ≠ n.operator then dismiss n.address (payee m n)

def withdraw (m : UnbondRequest) : Action Unit := do
  let n ← validateWithdrawal m
  transactionally (enterWithdrawal m n)

end LiquidityNet.Bond
