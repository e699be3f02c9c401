import LiquidityNet.Ledger.Bank

/-!
# Payouts

Scheduling of outbounds. A payout on the home chain is a transfer from a module's account. One on
an external chain joins the batch of the current block, under a vault that can cover it.
-/

namespace LiquidityNet.Payout

def fee (o : Outbound) : Query Amount := do
  let inRune ← Governance.amount
    (if o.chain.isHome then .nativeTransactionFee else .outboundTransactionFee)
  if o.coin.asset.isRune then return inRune
  match ← Pools.find? o.coin.asset.backing with
  | some p => return p.inAsset inRune
  | none => return 0

/-- Whether a vault serves a chain; one that lists no chains serves all. -/
def serves (v : Vault) (c : Chain) : Bool := v.chains.isEmpty || v.chains.contains c

/-- What a vault holds of an asset beyond what it is still to send. -/
def unreserved (pending : List Outbound) (a : Asset) (v : Vault) : Except Fault Amount := do
  let reserved ← Amount.sum
    ((pending.filter fun p => p.vault == some v.key && p.coin.asset == a).map (·.coin.amount))
  return (v.held a).minus reserved

/-- The better of two vaults: the one with more to spare, and of equal ones the smaller key. -/
def better (best : Option (Amount × PublicKey)) (x : Amount × PublicKey) :
    Option (Amount × PublicKey) :=
  match best with
  | none => some x
  | some b => if b.1 < x.1 ∨ (x.1 = b.1 ∧ x.2.text < b.2.text) then some x else some b

/-- The key of the active asgard vault with most to spare that serves the chain and covers the
coin. -/
def signer? (o : Outbound) : Query (Option PublicKey) := do
  let pending ← Outbounds.pendingWithin (← Governance.value .signingTransactionPeriod)
  let vaults := (← Vaults.asgards .active).filter (serves · o.chain)
  let spare ← vaults.mapM fun v => do
    return (← unreserved pending o.coin.asset v, v.key)
  return ((spare.filter fun x => o.coin.amount ≤ x.1).foldl better none).map (·.2)

/-- Joins an outbound to the batch of the current block, and notes the height at the inbound it
answers. -/
def enqueue (o : Outbound) : Action Unit := do
  let height ← Ledger.currentHeight
  if let some v ← Attestations.find? o.inbound then
    if v.outboundHeight = 0 then Attestations.save { v with outboundHeight := height }
  Outbounds.append height o

/-- Takes the fee for a payout on the home chain: RUNE goes to the reserve, synths of the pools
are burned, and what was minted for the payout was minted net of the fee. -/
def collectFee (payer : String) (a : Asset) (fee : Amount) : Action Unit := do
  if payer = Module.thorchain then return
  let coin : Coin := ⟨a, fee⟩
  if a.isRune then
    if payer ≠ Module.reserve then Bank.moveModule payer Module.reserve [coin]
  else if a.synth && payer == Module.asgard then
    Bank.moveModule Module.asgard Module.thorchain [coin]
    Bank.burn Module.thorchain coin
    Ledger.emit (.supply .burn a fee "outbound_fee")

def settlement (payer : String) (o : Outbound) (fee : Amount) : Transaction where
  id := .blank
  chain := some .thor
  sender := .ofModule payer
  recipient := o.recipient
  coins := [o.coin]
  gas := [⟨.rune, fee⟩]
  memo := o.memo

def settle (o : Outbound) (fee : Amount) : Action Unit := do
  let payer := o.payer.getD Module.asgard
  if payer = Module.thorchain then
    Bank.mint Module.thorchain o.coin
    Ledger.emit (.supply .mint o.coin.asset o.coin.amount "swap")
  if o.recipient = .ofModule Module.reserve then
    Bank.moveModule payer Module.reserve [o.coin]
  else
    Bank.payOut payer o.recipient [o.coin]
  if fee ≠ 0 then collectFee payer o.coin.asset fee
  Ledger.emit (.outbound o.inbound (settlement payer o fee))

/-- The outbound with a memo: its own, or the one that answers its inbound. -/
def withMemo (o : Outbound) : Outbound :=
  if o.memo = "" then { o with memo := Memo.out o.inbound } else o

def charge (o : Outbound) : Query Amount := if Memo.bearsFee o.memo then fee o else return 0

/-- Settles an outbound on the home chain, and enqueues any other under its vault or one that can
cover it. Tells whether there was one. -/
def place (o : Outbound) (fee : Amount) : Action Bool := do
  if o.chain.isHome then
    settle o fee
    return true
  if o.vault.isSome then
    enqueue o
    return true
  match ← signer? o with
  | none => return false
  | some key =>
    enqueue { o with vault := some key }
    return true

/-- Schedules an outbound after its fee is deducted, and tells whether a vault could be found for
it. Refused are outbounds that the fee uses up and those of which less than `least` is left. -/
def schedule (o : Outbound) (least : Amount) : Action Bool := do
  let o := withMemo o
  let fee ← charge o
  if fee ≠ 0 ∧ o.coin.amount ≤ fee then refuse .feeExceedsCoin
  let net := o.coin.amount.minus fee
  if net < least then refuse (.outboundBelowMinimum net least)
  place { o with coin := { o.coin with amount := net } } fee

/-- Schedules an outbound as it is, without fee and choice of a vault. -/
def scheduleAsIs (o : Outbound) : Action Unit :=
  if o.chain.isHome then settle o 0 else enqueue o

end LiquidityNet.Payout
