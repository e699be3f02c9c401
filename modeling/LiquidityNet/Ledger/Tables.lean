import LiquidityNet.Ledger.Basic
import LiquidityNet.Share

/-!
# The tables of the ledger

Typed access to the records: governance, pools, nodes, vaults, attestations, outbound batches,
keygens and queued swaps.
-/

namespace LiquidityNet

namespace Governance

def mimir? (name : String) : Query (Option Signed) := Ledger.fetch? (Key.mimir name)

def setMimir (name : String) (value : Signed) : Action Unit := Ledger.put (Key.mimir name) value

def clearMimir (name : String) : Action Unit := Ledger.erase (Key.mimir name)

/-- The number in force for a setting: its mimir, unless there is none or it is below `least`. -/
def valueAtLeast (s : Setting) (least : Signed) : Query Signed := fun l =>
  match mimir? s.name l with
  | .ok (some v) => .ok (if least ≤ v then v else l.settings.value s)
  | _ => .ok (l.settings.value s)

def value (s : Setting) : Query Signed := valueAtLeast s 0

def count (s : Setting) : Query Nat := do return (← value s).val.toNat

def amount (s : Setting) : Query Amount := do return .orZero (← value s).val.toNat

end Governance

namespace Pools

def find? (a : Asset) : Query (Option Pool) := Ledger.fetch? (Key.pool a)

def save (p : Pool) : Action Unit := Ledger.put (Key.pool p.asset) p

def all : Query (List Pool) := Ledger.fetchAll Key.poolStart

def feesOf (a : Asset) : Query Amount := Ledger.fetchD (Key.poolFees a) 0

def addFees (a : Asset) (fee : Amount) : Action Unit := do
  Ledger.put (Key.poolFees a) ((← feesOf a).plus fee)

def slipOf (a : Asset) : Query Amount := Ledger.fetchD (Key.poolSlip a) 0

def addSlip (a : Asset) (slip : Amount) : Action Unit := do
  Ledger.put (Key.poolSlip a) ((← slipOf a).plus slip)

/-- What a coin is worth in RUNE, zero where no pool prices it. -/
def valueInRune (c : Coin) : Query Amount := do
  if c.asset.isRune then return c.amount
  match ← find? c.asset.backing with
  | some p => return p.inRune c.amount
  | none => return 0

end Pools

namespace Nodes

def find? (a : Address) : Query (Option Node) := Ledger.fetch? (Key.node a)

/-- Stores a node that is complete. -/
def save (n : Node) : Action Unit := do
  n.validate
  Ledger.put (Key.node n.address) n

def all : Query (List Node) := Ledger.fetchAll Key.nodeStart

def withStatus (s : NodeStatus) : Query (List Node) := do
  return (← all).filter fun n => n.status = s

def active : Query (List Node) := withStatus .active

def bonded : Query (List Node) := do return (← all).filter fun n => n.bond ≠ 0

def holding? (k : PublicKey) : Query (Option Node) := do
  return (← all).find? fun n => n.vaultKey == some k

/-- Whether two thirds of some nodes run a version or a later one. -/
def isSupported (nodes : List Node) (v : Version) : Bool :=
  isSuperMajority (nodes.countP fun n => v ≤ n.version) nodes.length

/-- The latest version among those that nodes run and two thirds of them support, or the very
first version. -/
def majorityVersion (nodes : List Node) : Version :=
  (nodes.map (·.version)).foldl
    (fun best v => if isSupported nodes v && decide (best ≤ v) then v else best) default

def joinVersion : Query Version := do return majorityVersion (← active)

def slashPoints (a : Address) : Query Signed := Ledger.fetchD (Key.slash a) 0

def setSlashPoints (a : Address) (points : Signed) : Action Unit :=
  Ledger.put (Key.slash a) points.positivePart

def addSlashPoints (a : Address) (points : Signed) : Action Unit := do
  setSlashPoints a ((← slashPoints a).plus points)

def clearSlashPoints (a : Address) : Action Unit := Ledger.erase (Key.slash a)

def jailOf (a : Address) : Query Jail := Ledger.fetchD (Key.jail a) ⟨a, 0, ""⟩

/-- Puts a node in jail; a longer sentence stands. -/
def jail (a : Address) (release : Height) (reason : String) : Action Unit := do
  let j ← jailOf a
  Ledger.put (Key.jail a) (if j.release < release then { j with release, reason } else j)

def providersOf (a : Address) : Query Providers := Ledger.fetchD (Key.providers a) (.empty a)

def saveProviders (ps : Providers) : Action Unit := Ledger.put (Key.providers ps.node) ps

def saveWith (n : Node) (ps : Providers) : Action Unit := do
  save n
  saveProviders ps

end Nodes

namespace Outbounds

def atHeight (h : Height) : Query OutboundBatch := Ledger.fetchD (Key.outbounds h) ⟨h, []⟩

def save (b : OutboundBatch) : Action Unit := Ledger.put (Key.outbounds b.height) b

def append (h : Height) (o : Outbound) : Action Unit := do
  let b ← Outbounds.atHeight h
  save { b with items := b.items ++ [o] }

/-- The outbounds of the last `period` heights and the current one that are still to be signed. -/
def pendingWithin (period : Signed) : Query (List Outbound) := do
  let height ← Ledger.currentHeight
  let start ← height.sub period
  return (← (Signed.interval (max start 1) height).mapM fun h =>
    do return (← Outbounds.atHeight h).pending).flatten

end Outbounds

namespace Vaults

def find? (k : PublicKey) : Query (Option Vault) := Ledger.fetch? (Key.vault k)

def exists? (k : PublicKey) : Query Bool := fun s => .ok (s.store.has (Key.vault k))

def save (v : Vault) : Action Unit := Ledger.put (Key.vault v.key) v

def all : Query (List Vault) := Ledger.fetchAll Key.vaultStart

def asgards (s : VaultStatus) : Query (List Vault) := do
  return (← all).filter fun v => v.isAsgard && v.status = s

def yggdrasilOf (n : Node) : Query (Option Vault) :=
  match n.vaultKey with
  | none => return none
  | some k => do return (← find? k).filter Vault.isYggdrasil

def memberBond (v : Vault) : Query Nat := do
  let bonds ← v.members.mapM fun k => do
    match ← Nodes.holding? k with
    | some n => return if n.isActive then n.bond else 0
    | none => return 0
  return Amount.total bonds

/-- What a vault holds and what it is still to send, in RUNE. -/
def exposure (period : Signed) (v : Vault) : Query Nat := do
  let holdings ← v.coins.mapM Pools.valueInRune
  let pending ← Outbounds.pendingWithin period
  let owed ← (pending.filter fun o => o.vault == some v.key).mapM fun o => Pools.valueInRune o.coin
  return Amount.total (holdings ++ owed)

/-- How far the bond behind a vault exceeds what it holds. -/
def security (period : Signed) (v : Vault) : Query Int := do
  return ((← memberBond v : Nat) : Int) - (← exposure period v : Nat)

def better (best : Option (Int × Vault)) (x : Int × Vault) : Option (Int × Vault) :=
  match best with
  | none => some x
  | some b =>
    if b.1 < x.1 ∨ (x.1 = b.1 ∧ x.2.key.text < b.2.key.text) then some x else some b

/-- The vault whose bond most exceeds what it holds. -/
def mostSecure? (vaults : List Vault) (period : Signed) : Query (Option Vault) := do
  let rated ← vaults.mapM fun v => do return (← security period v, v)
  return (rated.foldl better none).map (·.2)

end Vaults

namespace NetworkState

def get : Query Network := Ledger.fetchD Key.network .initial

def save (n : Network) : Action Unit := Ledger.put Key.network n

/-- Whether ragnarok has begun; a record that cannot be read counts as not begun. -/
def isEnding : Query Bool := fun s =>
  match get s with
  | .ok n => .ok n.isEnding
  | .error _ => .ok false

end NetworkState

namespace Attestations

def find? (i : TxId) : Query (Option Attestation) := Ledger.fetch? (Key.attestation i)

def save (v : Attestation) : Action Unit := Ledger.put (Key.attestation v.txId) v

end Attestations

namespace Keygens

def atHeight (h : Height) : Query KeygenBlock := Ledger.fetchD (Key.keygen h) ⟨h, []⟩

def save (b : KeygenBlock) : Action Unit := Ledger.put (Key.keygen b.height) b

end Keygens

/-- A queued swap with its index among the swaps of one transaction. -/
structure QueuedSwap where
  request : SwapRequest
  index : Word

namespace Queue

def put (m : SwapRequest) (index : Word) : Action Unit :=
  Ledger.put (Key.swap m.tx.id index) m

def remove (i : TxId) (index : Word) : Action Unit := Ledger.erase (Key.swap i index)

/-- The queued swap of an entry, if the entry can be read. -/
def ofEntry? (e : String × Record) : Option QueuedSwap := do
  let request ← (ofRecord? e.2 : Option SwapRequest)
  let index ← Key.swapIndex? e.1
  return ⟨request, index⟩

/-- The queued swaps in the order of their keys; what cannot be read is passed over. -/
def items : Query (List QueuedSwap) := fun s =>
  .ok ((s.store.under Key.swapStart).filterMap ofEntry?)

end Queue

end LiquidityNet
