import LiquidityNet.Message
import LiquidityNet.Outbound
import LiquidityNet.Wire.Basic

/-!
# Transactions, outbounds and messages in JSON
-/

namespace LiquidityNet.Wire

open Json

instance : Wire Coin where
  toJson c := .object [("asset", toJson c.asset), ("amount", toJson c.amount)]
  ofJson? j := do
    let r ← Fields.ofJson? ["asset", "amount"] j
    return { asset := ← r.get? "asset", amount := ← r.get? "amount" }

instance : Wire Transaction where
  toJson t :=
    .object [
      ("id", toJson t.id),
      ("chain", toJson t.chain),
      ("from_address", toJson t.sender),
      ("to_address", toJson t.recipient),
      ("coins", toJson t.coins),
      ("gas", toJson t.gas),
      ("memo", toJson t.memo)]
  ofJson? j := do
    let r ← Fields.ofJson?
      ["id", "chain", "from_address", "to_address", "coins", "gas", "memo"] j
    return {
      id := ← r.get? "id"
      chain := ← r.getOption? "chain"
      sender := ← r.get? "from_address"
      recipient := ← r.get? "to_address"
      coins := ← r.get? "coins"
      gas := ← r.getD? "gas" []
      memo := ← r.getD? "memo" "" }

instance : Wire Inbound where
  toJson o :=
    .object [
      ("tx", toJson o.tx),
      ("observed_pub_key", toJson o.vault),
      ("block_height", toJson o.height),
      ("finalise_height", toJson o.finalHeight)]
  ofJson? j := do
    let r ← Fields.ofJson? ["tx", "observed_pub_key", "block_height", "finalise_height"] j
    return {
      tx := ← r.get? "tx"
      vault := ← r.getOption? "observed_pub_key"
      height := ← r.get? "block_height"
      finalHeight := ← r.get? "finalise_height" }

instance : Wire Attestation where
  toJson v :=
    .object [
      ("tx_id", toJson v.txId),
      ("tx", toJson v.inbound),
      ("outbound_height", toJson v.outboundHeight),
      ("out_txs", toJson v.outbounds)]
  ofJson? j := do
    let r ← Fields.ofJson? ["tx_id", "tx", "outbound_height", "out_txs"] j
    return {
      txId := ← r.get? "tx_id"
      inbound := ← r.get? "tx"
      outboundHeight := ← r.getD? "outbound_height" 0
      outbounds := ← r.getD? "out_txs" [] }

instance : Wire Outbound where
  toJson o :=
    .object [
      ("chain", toJson o.chain),
      ("to_address", toJson o.recipient),
      ("vault_pub_key", toJson o.vault),
      ("coin", toJson o.coin),
      ("memo", toJson o.memo),
      ("in_hash", toJson o.inbound),
      ("out_hash", toJson o.sent),
      ("module_name", toJson o.payer),
      ("aggregator", toJson o.aggregator),
      ("aggregator_target_asset", toJson o.aggregatorAsset),
      ("aggregator_target_limit", toJson o.aggregatorLimit)]
  ofJson? j := do
    let r ← Fields.ofJson?
      ["chain", "to_address", "vault_pub_key", "coin", "memo", "in_hash", "out_hash",
        "module_name", "aggregator", "aggregator_target_asset", "aggregator_target_limit"] j
    return {
      chain := ← r.get? "chain"
      recipient := ← r.get? "to_address"
      vault := ← r.getD? "vault_pub_key" none
      coin := ← r.get? "coin"
      memo := ← r.getD? "memo" ""
      inbound := ← r.get? "in_hash"
      sent := ← r.getD? "out_hash" none
      payer := ← r.getD? "module_name" none
      aggregator := ← r.getD? "aggregator" none
      aggregatorAsset := ← r.getD? "aggregator_target_asset" none
      aggregatorLimit := ← r.getD? "aggregator_target_limit" none }

instance : Wire OutboundBatch where
  toJson b := .object [("height", toJson b.height), ("tx_array", toJson b.items)]
  ofJson? j := do
    let r ← Fields.ofJson? ["height", "tx_array"] j
    return { height := ← r.get? "height", items := ← r.get? "tx_array" }

instance : Wire SwapRequest where
  toJson m :=
    .object [
      ("tx", toJson m.tx),
      ("target_asset", toJson m.target),
      ("destination", toJson m.destination),
      ("swap_target", toJson m.limit),
      ("signer", toJson m.signer),
      ("aggregator", toJson m.aggregator),
      ("aggregator_target_asset", toJson m.aggregatorAsset),
      ("aggregator_target_limit", toJson m.aggregatorLimit)]
  ofJson? j := do
    let r ← Fields.ofJson?
      ["tx", "target_asset", "destination", "swap_target", "signer", "aggregator",
        "aggregator_target_asset", "aggregator_target_limit"] j
    return {
      tx := ← r.get? "tx"
      target := ← r.get? "target_asset"
      destination := ← r.get? "destination"
      limit := ← r.getD? "swap_target" 0
      signer := ← r.get? "signer"
      aggregator := ← r.getD? "aggregator" none
      aggregatorAsset := ← r.getD? "aggregator_target_asset" none
      aggregatorLimit := ← r.getD? "aggregator_target_limit" none }

instance : Wire UnbondRequest where
  toJson m :=
    .object [
      ("tx_in", toJson m.tx),
      ("node_address", toJson m.node),
      ("amount", toJson m.amount),
      ("bond_address", toJson m.bondAddress),
      ("bond_provider_address", toJson m.provider),
      ("signer", toJson m.signer)]
  ofJson? j := do
    let r ← Fields.ofJson?
      ["tx_in", "node_address", "amount", "bond_address", "bond_provider_address", "signer"] j
    return {
      tx := ← r.get? "tx_in"
      node := ← r.get? "node_address"
      amount := ← r.get? "amount"
      bondAddress := ← r.get? "bond_address"
      provider := ← r.getD? "bond_provider_address" none
      signer := ← r.get? "signer" }

instance : Wire BondRequest where
  toJson m :=
    .object [
      ("tx_in", toJson m.tx),
      ("node_address", toJson m.node),
      ("bond", toJson m.bond),
      ("bond_address", toJson m.bondAddress),
      ("bond_provider_address", toJson m.provider),
      ("operator_fee", toJson m.operatorFee),
      ("signer", toJson m.signer)]
  ofJson? j := do
    let r ← Fields.ofJson?
      ["tx_in", "node_address", "bond", "bond_address", "bond_provider_address", "operator_fee",
        "signer"] j
    return {
      tx := ← r.get? "tx_in"
      node := ← r.get? "node_address"
      bond := ← r.get? "bond"
      bondAddress := ← r.get? "bond_address"
      provider := ← r.getD? "bond_provider_address" none
      operatorFee := ← r.getD? "operator_fee" none
      signer := ← r.get? "signer" }

/-- A record with its tag as a further field. -/
def tagged (tag : String) : Json → Json
  | .object fs => .object (("type", .text tag) :: fs)
  | j => j

instance : Wire Message where
  toJson
    | .swap m => tagged "swap" (toJson m)
    | .unbond m => tagged "un_bond" (toJson m)
    | .bond m => tagged "bond" (toJson m)
  ofJson? j := do
    match ← tagged? j with
    | ("swap", j) => return .swap (← ofJson? j)
    | ("un_bond", j) => return .unbond (← ofJson? j)
    | ("bond", j) => return .bond (← ofJson? j)
    | _ => none

end LiquidityNet.Wire
