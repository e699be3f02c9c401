import LiquidityNet.Identity.Parse
import LiquidityNet.Json.Fields
import LiquidityNet.Node
import LiquidityNet.Pool
import LiquidityNet.Settings
import LiquidityNet.Vault
import LiquidityNet.Event

/-!
# Values in JSON

How plain values stand in JSON: numbers as integers in their range, assets, addresses, keys, ids and
versions as texts, and choices by their names. Records are built from these by their fields.
-/

namespace LiquidityNet

class Wire (α : Type) where
  toJson : α → Json
  ofJson? : Json → Option α

export Wire (toJson ofJson?)

namespace Json.Fields

variable {α : Type} [Wire α]

def get? (r : Fields) (name : String) : Option α := r.required name Wire.ofJson?

def getD? (r : Fields) (name : String) (default : α) : Option α :=
  r.withDefault name default Wire.ofJson?

/-- A field that may be null, and that an object may leave out. -/
def getOption? (r : Fields) (name : String) : Option (Option α) := r.optional name Wire.ofJson?

end Json.Fields

namespace Wire

instance : Wire Json := ⟨id, some⟩

instance : Wire Bool := ⟨.bool, Json.bool?⟩

instance : Wire String := ⟨.text, Json.text?⟩

instance : Wire Amount :=
  ⟨fun a => .int a.val, fun j => (Json.int? j).bind fun i =>
    if 0 ≤ i then Amount.ofNat? i.toNat else none⟩

instance : Wire Signed := ⟨fun i => .int i.val, fun j => (Json.int? j).bind Signed.ofInt?⟩

instance : Wire Nat :=
  ⟨fun n => .int n, fun j => (Json.int? j).bind fun i => if 0 ≤ i then some i.toNat else none⟩

instance {n : Nat} : Wire (Fin n) :=
  ⟨fun i => .int i.val, fun j => (Json.int? j).bind fun i =>
    if h : 0 ≤ i ∧ i.toNat < n then some ⟨i.toNat, h.2⟩ else none⟩

instance {α : Type} [Wire α] : Wire (Option α) :=
  ⟨Json.orNull toJson, Json.Fields.nullable ofJson?⟩

instance {α : Type} [Wire α] : Wire (List α) :=
  ⟨fun as => .list (as.map toJson), Json.listOf? ofJson?⟩

instance {α β : Type} [Wire α] [Wire β] : Wire (α × β) :=
  ⟨fun p => .list [toJson p.1, toJson p.2], fun
    | .list [a, b] => (ofJson? a).bind fun a => (ofJson? b).map fun b => (a, b)
    | _ => none⟩

abbrev byName {α : Type} (all : List α) (name : α → String) : Wire α :=
  ⟨fun a => .text (name a), fun j => (Json.word? j).bind fun s => all.find? fun a => name a == s⟩

instance : Wire Chain := byName Chain.all Chain.name

instance : Wire PoolStatus := byName [.available, .staged, .suspended] PoolStatus.name

instance : Wire NodeStatus :=
  byName [.unknown, .whitelisted, .standby, .ready, .active, .disabled] NodeStatus.name

instance : Wire VaultKind := byName [.asgard, .yggdrasil] VaultKind.name

instance : Wire VaultStatus := byName [.active, .retiring, .inactive] VaultStatus.name

instance : Wire Environment := byName [.mainnet, .mocknet] Environment.name

instance : Wire Setting := byName Setting.all Setting.name

def bondMoveName : BondMove → String
  | .paid => "bond_paid"
  | .returned => "bond_returned"
  | .reward => "bond_reward"
  | .cost => "bond_cost"

instance : Wire BondMove := byName [.paid, .returned, .reward, .cost] bondMoveName

def supplyMoveName : SupplyMove → String
  | .mint => "mint"
  | .burn => "burn"

instance : Wire SupplyMove := byName [.mint, .burn] supplyMoveName

/-- A text that a reader accepts. -/
def accepted? {α : Type} (parse : String → Except Error α) (j : Json) : Option α :=
  (Json.text? j).bind fun s =>
    match parse s with
    | .ok a => some a
    | .error _ => none

instance : Wire Asset := ⟨fun a => .text a.text, accepted? Asset.parse⟩

instance : Wire Version := ⟨fun v => .text v.text, accepted? Version.parse⟩

instance : Wire Address := ⟨fun a => .text a.text, fun j => (Json.text? j).map Address.mk⟩

instance : Wire PublicKey := ⟨fun k => .text k.text, fun j => (Json.text? j).map PublicKey.mk⟩

instance : Wire TxId := ⟨fun i => .text i.text, fun j => (Json.text? j).map TxId.mk⟩

end Wire

end LiquidityNet
