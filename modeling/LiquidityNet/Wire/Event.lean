import LiquidityNet.Event
import LiquidityNet.Wire.Transaction

/-!
# Events in JSON
-/

namespace LiquidityNet.Wire

open Json

instance : Wire SwapEvent where
  toJson e :=
    .object [
      ("pool", toJson e.pool),
      ("swap_target", toJson e.swapTarget),
      ("swap_slip", toJson e.slip),
      ("liquidity_fee", toJson e.fee),
      ("liquidity_fee_in_rune", toJson e.feeInRune),
      ("in_tx", toJson e.inbound),
      ("emit_asset", toJson e.emitted),
      ("out_txs", toJson e.onward)]
  ofJson? j := do
    let r ← Fields.ofJson?
      ["pool", "swap_target", "swap_slip", "liquidity_fee", "liquidity_fee_in_rune", "in_tx",
        "emit_asset", "out_txs"] j
    return {
      pool := ← r.get? "pool"
      swapTarget := ← r.get? "swap_target"
      slip := ← r.get? "swap_slip"
      fee := ← r.get? "liquidity_fee"
      feeInRune := ← r.get? "liquidity_fee_in_rune"
      inbound := ← r.get? "in_tx"
      emitted := ← r.get? "emit_asset"
      onward := ← r.getD? "out_txs" none }

def outboundOf? (j : Json) : Option Event := do
  let r ← Fields.ofJson? ["in_tx_id", "tx"] j
  return .outbound (← r.get? "in_tx_id") (← r.get? "tx")

def supplyOf? (j : Json) : Option Event := do
  let r ← Fields.ofJson? ["supply", "denom", "amount", "reason"] j
  return .supply (← r.get? "supply") (← r.get? "denom") (← r.get? "amount") (← r.get? "reason")

def bondOf? (j : Json) : Option Event := do
  let r ← Fields.ofJson? ["amount", "bond_type", "tx_id", "from_address", "to_address"] j
  return .bond (← r.get? "amount") (← r.get? "bond_type") (← r.get? "tx_id")
    (← r.get? "from_address") (← r.get? "to_address")

def refundOf? (j : Json) : Option Event := do
  let r ← Fields.ofJson? ["code", "reason", "in_tx", "coins"] j
  return .refund (← r.get? "code") (← r.get? "reason") (← r.get? "in_tx") (← r.get? "coins")

def donateOf? (j : Json) : Option Event := do
  let r ← Fields.ofJson? ["pool", "in_tx"] j
  return .donate (← r.get? "pool") (← r.get? "in_tx")

def reserveOf? (j : Json) : Option Event := do
  let r ← Fields.ofJson? ["contributor", "amount", "in_tx_id"] j
  return .reserve (← r.get? "contributor") (← r.get? "amount") (← r.get? "in_tx_id")

def poolStatusOf? (j : Json) : Option Event := do
  let r ← Fields.ofJson? ["pool", "status"] j
  return .poolStatus (← r.get? "pool") (← r.get? "status")

def nodeStatusOf? (j : Json) : Option Event := do
  let r ← Fields.ofJson? ["address", "former", "current"] j
  return .nodeStatus (← r.get? "address") (← r.get? "former") (← r.get? "current")

instance : Wire Event where
  toJson
    | .swap e => tagged "swap" (toJson e)
    | .outbound inbound tx =>
      tagged "outbound" (.object [("in_tx_id", toJson inbound), ("tx", toJson tx)])
    | .supply move asset amount reason =>
      tagged "mint_burn" (.object [
        ("supply", toJson move),
        ("denom", toJson asset),
        ("amount", toJson amount),
        ("reason", toJson reason)])
    | .bond amount move txId source target =>
      tagged "bond" (.object [
        ("amount", toJson amount),
        ("bond_type", toJson move),
        ("tx_id", toJson txId),
        ("from_address", toJson source),
        ("to_address", toJson target)])
    | .refund code reason inbound coins =>
      tagged "refund" (.object [
        ("code", toJson code),
        ("reason", toJson reason),
        ("in_tx", toJson inbound),
        ("coins", toJson coins)])
    | .donate pool inbound =>
      tagged "donate" (.object [("pool", toJson pool), ("in_tx", toJson inbound)])
    | .reserve contributor amount inbound =>
      tagged "reserve" (.object [
        ("contributor", toJson contributor),
        ("amount", toJson amount),
        ("in_tx_id", toJson inbound)])
    | .poolStatus pool status =>
      tagged "pool_change" (.object [("pool", toJson pool), ("status", toJson status)])
    | .nodeStatus node former current =>
      tagged "update_node_account_status" (.object [
        ("address", toJson node),
        ("former", toJson former),
        ("current", toJson current)])
  ofJson? j := do
    match ← tagged? j with
    | ("swap", j) => return .swap (← ofJson? j)
    | ("outbound", j) => outboundOf? j
    | ("mint_burn", j) => supplyOf? j
    | ("bond", j) => bondOf? j
    | ("refund", j) => refundOf? j
    | ("donate", j) => donateOf? j
    | ("reserve", j) => reserveOf? j
    | ("pool_change", j) => poolStatusOf? j
    | ("update_node_account_status", j) => nodeStatusOf? j
    | _ => none

end LiquidityNet.Wire
