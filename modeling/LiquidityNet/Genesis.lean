import LiquidityNet.Ledger.Bank

/-!
# Genesis

What a network starts with: its records, and coins minted for modules and accounts. The entries
are made one after the other; one that is refused ends it, and tells which entry it was.
-/

namespace LiquidityNet

structure Genesis where
  pools : List Pool
  nodes : List Node
  providers : List Providers
  vaults : List Vault
  mimirs : SortedMap Signed
  network : Option Network
  moduleBalances : SortedMap (List Coin)
  accountBalances : SortedMap (List Coin)

namespace Genesis

def empty : Genesis := ⟨[], [], [], [], .empty, none, .empty, .empty⟩

instance : Inhabited Genesis := ⟨empty⟩

inductive Subject where
  | pool (asset : Asset)
  | node (address : Address)
  | providers
  | vault (key : PublicKey)
  | mimir (name : String)
  | network
  | module (name : String)
  | account (owner : Address)

def Subject.complaint : Subject → String
  | pool asset => "failed to set pool " ++ asset.text
  | node address => "failed to set node account " ++ address.text
  | providers => "failed to set bond providers"
  | vault key => "failed to set vault " ++ key.text
  | mimir name => "failed to set mimir " ++ name
  | network => "failed to set network"
  | module name => "failed to fund module " ++ name
  | account owner => "failed to fund account " ++ owner.text

/-- One entry: what it is about and what it does. The minting of coins is about nothing else. -/
structure Entry where
  subject : Option Subject
  action : Action Unit

/-- Coins minted for an account, one after the other. -/
def funding (subject : Subject) (owner : Address) (coins : List Coin) : List Entry :=
  coins.flatMap fun c => [
    ⟨none, Bank.mint Module.thorchain c⟩,
    ⟨some subject, Bank.payOut Module.thorchain owner [c]⟩]

def entries (g : Genesis) : List Entry :=
  g.pools.map (fun p => ⟨some (.pool p.asset), Pools.save p⟩) ++
    g.nodes.map (fun n => ⟨some (.node n.address), Nodes.save n⟩) ++
    g.providers.map (fun ps => ⟨some .providers, Nodes.saveProviders ps⟩) ++
    g.vaults.map (fun v => ⟨some (.vault v.key), Vaults.save v⟩) ++
    g.mimirs.entries.map (fun m => ⟨some (.mimir m.1), Governance.setMimir m.1 m.2⟩) ++
    g.network.toList.map (fun n => ⟨some .network, NetworkState.save n⟩) ++
    g.moduleBalances.entries.flatMap (fun m => funding (.module m.1) (.ofModule m.1) m.2) ++
    g.accountBalances.entries.flatMap fun m => funding (.account ⟨m.1⟩) ⟨m.1⟩ m.2

structure Problem where
  subject : Option Subject
  cause : Error

namespace Problem

/-- What the problem is about, or its cause where it is about nothing else. -/
def summary (p : Problem) : String :=
  match p.subject with
  | some s => s.complaint
  | none => p.cause.message

def text (p : Problem) : String :=
  match p.subject with
  | some s => s.complaint ++ ": " ++ p.cause.message
  | none => p.cause.message

end Problem

def make : List Entry → Action (Option Problem)
  | [] => return none
  | e :: es => do
    match ← attempt e.action with
    | .ok () => make es
    | .error cause => return some ⟨e.subject, cause⟩

def apply (g : Genesis) : Action (Option Problem) := make g.entries

end Genesis

end LiquidityNet
