import LiquidityNet.Record
import LiquidityNet.Wire.Transaction

/-!
# Stored records in JSON
-/

namespace LiquidityNet.Wire

open Json

instance : Wire Pool where
  toJson p :=
    .object [
      ("asset", toJson p.asset),
      ("balance_rune", toJson p.rune),
      ("balance_asset", toJson p.depth),
      ("lp_units", toJson p.lpUnits),
      ("synth_units", toJson p.synthUnits),
      ("decimals", toJson p.decimals),
      ("status", toJson p.status),
      ("status_since", toJson p.statusSince)]
  ofJson? j := do
    let r ← Fields.ofJson?
      ["asset", "balance_rune", "balance_asset", "lp_units", "synth_units", "decimals", "status",
        "status_since"] j
    return {
      asset := ← r.get? "asset"
      rune := ← r.get? "balance_rune"
      depth := ← r.get? "balance_asset"
      lpUnits := ← r.getD? "lp_units" 0
      synthUnits := ← r.getD? "synth_units" 0
      decimals := ← r.getD? "decimals" 0
      status := ← r.getD? "status" .available
      statusSince := ← r.getD? "status_since" 0 }

instance : Wire NodeKeys where
  toJson k := .object [("secp256k1", toJson k.secp256k1), ("ed25519", toJson k.ed25519)]
  ofJson? j := do
    let r ← Fields.ofJson? ["secp256k1", "ed25519"] j
    return { secp256k1 := ← r.getOption? "secp256k1", ed25519 := ← r.getOption? "ed25519" }

instance : Wire Node where
  toJson n :=
    .object [
      ("node_address", toJson n.address),
      ("status", toJson n.status),
      ("pub_key_set", toJson n.keys),
      ("validator_cons_pub_key", toJson n.consensusKey),
      ("bond", toJson n.bond),
      ("active_block_height", toJson n.activeSince),
      ("bond_address", toJson n.operator),
      ("status_since", toJson n.statusSince),
      ("requested_to_leave", toJson n.requestedToLeave),
      ("forced_to_leave", toJson n.forcedToLeave),
      ("leave_score", toJson n.leaveScore),
      ("ip_address", toJson n.ipAddress),
      ("version", toJson n.version)]
  ofJson? j := do
    let r ← Fields.ofJson?
      ["node_address", "status", "pub_key_set", "validator_cons_pub_key", "bond",
        "active_block_height", "bond_address", "status_since", "requested_to_leave",
        "forced_to_leave", "leave_score", "ip_address", "version"] j
    return {
      address := ← r.get? "node_address"
      status := ← r.get? "status"
      keys := ← r.get? "pub_key_set"
      consensusKey := ← r.getD? "validator_cons_pub_key" ""
      bond := ← r.get? "bond"
      activeSince := ← r.getD? "active_block_height" 0
      operator := ← r.get? "bond_address"
      statusSince := ← r.getD? "status_since" 0
      requestedToLeave := ← r.getD? "requested_to_leave" false
      forcedToLeave := ← r.getD? "forced_to_leave" false
      leaveScore := ← r.getD? "leave_score" 0
      ipAddress := ← r.getD? "ip_address" ""
      version := ← r.getD? "version" default }

instance : Wire Provider where
  toJson p := .object [("bond_address", toJson p.address), ("bond", toJson p.bond)]
  ofJson? j := do
    let r ← Fields.ofJson? ["bond_address", "bond"] j
    return { address := ← r.get? "bond_address", bond := ← r.get? "bond" }

instance : Wire Providers where
  toJson ps :=
    .object [
      ("node_address", toJson ps.node),
      ("node_operator_fee", toJson ps.operatorFee),
      ("providers", toJson ps.list)]
  ofJson? j := do
    let r ← Fields.ofJson? ["node_address", "node_operator_fee", "providers"] j
    return {
      node := ← r.get? "node_address"
      operatorFee := ← r.getD? "node_operator_fee" 0
      list := ← r.get? "providers" }

instance : Wire Jail where
  toJson j :=
    .object [
      ("node_address", toJson j.node),
      ("release_height", toJson j.release),
      ("reason", toJson j.reason)]
  ofJson? j := do
    let r ← Fields.ofJson? ["node_address", "release_height", "reason"] j
    return {
      node := ← r.get? "node_address"
      release := ← r.get? "release_height"
      reason := ← r.getD? "reason" "" }

instance : Wire Vault where
  toJson v :=
    .object [
      ("block_height", toJson v.created),
      ("pub_key", toJson v.key),
      ("coins", toJson v.coins),
      ("vault_type", toJson v.kind),
      ("status", toJson v.status),
      ("status_since", toJson v.statusSince),
      ("membership", toJson v.members),
      ("chains", toJson v.chains)]
  ofJson? j := do
    let r ← Fields.ofJson?
      ["block_height", "pub_key", "coins", "vault_type", "status", "status_since", "membership",
        "chains"] j
    return {
      created := ← r.get? "block_height"
      key := ← r.get? "pub_key"
      coins := ← r.getD? "coins" []
      kind := ← r.get? "vault_type"
      status := ← r.get? "status"
      statusSince := ← r.getD? "status_since" 0
      members := ← r.getD? "membership" []
      chains := ← r.getD? "chains" [] }

instance : Wire Network where
  toJson n :=
    .object [
      ("bond_reward_rune", toJson n.bondReward),
      ("total_bond_units", toJson n.bondUnits),
      ("ragnarok_block_height", toJson n.ragnarokHeight),
      ("ragnarok_nth", toJson n.ragnarokRound),
      ("ragnarok_pending", toJson n.ragnarokPending),
      ("ragnarok_pools_staged", toJson n.ragnarokPoolsStaged)]
  ofJson? j := do
    let r ← Fields.ofJson?
      ["bond_reward_rune", "total_bond_units", "ragnarok_block_height", "ragnarok_nth",
        "ragnarok_pending", "ragnarok_pools_staged"] j
    return {
      bondReward := ← r.get? "bond_reward_rune"
      bondUnits := ← r.getD? "total_bond_units" 0
      ragnarokHeight := ← r.getD? "ragnarok_block_height" 0
      ragnarokRound := ← r.getD? "ragnarok_nth" 0
      ragnarokPending := ← r.getD? "ragnarok_pending" 0
      ragnarokPoolsStaged := ← r.getD? "ragnarok_pools_staged" false }

instance : Wire KeygenBlock where
  toJson b := .object [("height", toJson b.height), ("keygens", toJson b.groups)]
  ofJson? j := do
    let r ← Fields.ofJson? ["height", "keygens"] j
    return { height := ← r.get? "height", groups := ← r.get? "keygens" }

def ofRecord : Record → Json
  | .amount v => toJson v
  | .number v => toJson v
  | .pool v => toJson v
  | .node v => toJson v
  | .providers v => toJson v
  | .jail v => toJson v
  | .vault v => toJson v
  | .network v => toJson v
  | .attestation v => toJson v
  | .outbounds v => toJson v
  | .keygen v => toJson v
  | .swap v => toJson v

end LiquidityNet.Wire
