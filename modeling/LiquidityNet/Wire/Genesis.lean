import LiquidityNet.Genesis
import LiquidityNet.Json.Reader
import LiquidityNet.Wire.Record

/-!
# Genesis documents

A genesis as a JSON document. Every part of it may be left out. In a map from names a name may be
written repeatedly, and the last value counts.
-/

namespace LiquidityNet

namespace Wire

open Json

instance {α : Type} [Wire α] : Wire (SortedMap α) where
  toJson m := .object (m.entries.map fun e => (e.1, toJson e.2))
  ofJson?
    | .object fs => do
      return .ofList (← fs.mapM fun f => do return (f.1, ← ofJson? f.2))
    | _ => none

instance : Wire Genesis where
  toJson g :=
    .object [
      ("pools", toJson g.pools),
      ("node_accounts", toJson g.nodes),
      ("bond_providers", toJson g.providers),
      ("vaults", toJson g.vaults),
      ("mimir", toJson g.mimirs),
      ("network", toJson g.network),
      ("module_balances", toJson g.moduleBalances),
      ("account_balances", toJson g.accountBalances)]
  ofJson? j := do
    let r ← Fields.ofJson?
      ["pools", "node_accounts", "bond_providers", "vaults", "mimir", "network",
        "module_balances", "account_balances"] j
    return {
      pools := ← r.getD? "pools" []
      nodes := ← r.getD? "node_accounts" []
      providers := ← r.getD? "bond_providers" []
      vaults := ← r.getD? "vaults" []
      mimirs := ← r.getD? "mimir" .empty
      network := ← r.getD? "network" none
      moduleBalances := ← r.getD? "module_balances" .empty
      accountBalances := ← r.getD? "account_balances" .empty }

end Wire

def Genesis.read? (document : String) : Option Genesis := (Json.read? document).bind Wire.ofJson?

end LiquidityNet
