import LiquidityNet.Ledger.Payout
import LiquidityNet.Proofs.Action.Confinement

/-!
# What the ledger's operations write

The tables that the operations on records, the bank and the payouts are confined to.
-/

namespace LiquidityNet

open LiquidityNet.Action LiquidityNet.Action.Confined

namespace Governance

theorem setMimir_confined (name : String) (value : Signed) :
    Confined [.mimirs] (setMimir name value) :=
  .put (T := .mimirs) (by decide) (by simp) ⟨.mimirs, by decide, by simp⟩

end Governance

namespace Pools

theorem save_confined (p : Pool) : Confined [.pools] (save p) :=
  .put (T := .pools) (by decide) (by simp) rfl

theorem addFees_confined (a : Asset) (fee : Amount) : Confined [.fees] (addFees a fee) :=
  .readThen fun _ => .put (T := .fees) (by decide) (by simp) ⟨.fees, by decide, by simp⟩

theorem addSlip_confined (a : Asset) (slip : Amount) : Confined [.slips] (addSlip a slip) :=
  .readThen fun _ => .put (T := .slips) (by decide) (by simp) ⟨.slips, by decide, by simp⟩

end Pools

namespace Nodes

theorem save_confined (n : Node) : Confined [.nodes] (save n) :=
  (check n.validate).bind fun _ => .put (T := .nodes) (by decide) (by simp) rfl

theorem saveProviders_confined (ps : Providers) : Confined [.providers] (saveProviders ps) :=
  .put (T := .providers) (by decide) (by simp) rfl

theorem saveWith_confined (n : Node) (ps : Providers) :
    Confined [.nodes, .providers] (saveWith n ps) :=
  .bind ((save_confined n).mono (by decide)) fun _ => (saveProviders_confined ps).mono (by decide)

theorem setSlashPoints_confined (a : Address) (points : Signed) :
    Confined [.slashes] (setSlashPoints a points) :=
  .put (T := .slashes) (by decide) (by simp) ⟨.slashes, by decide, by simp⟩

theorem clearSlashPoints_confined (a : Address) : Confined [.slashes] (clearSlashPoints a) :=
  .erase (T := .slashes) (by decide) (by simp)

end Nodes

namespace Vaults

theorem save_confined (v : Vault) : Confined [.vaults] (save v) :=
  .put (T := .vaults) (by decide) (by simp) rfl

end Vaults

namespace Keygens

theorem save_confined (b : KeygenBlock) : Confined [.keygens] (save b) :=
  .put (T := .keygens) (by decide) (by simp) rfl

end Keygens

namespace NetworkState

theorem save_confined (n : Network) : Confined [.network] (save n) :=
  .put (T := .network) (by decide) (by simp) rfl

end NetworkState

namespace Attestations

theorem save_confined (v : Attestation) : Confined [.attestations] (save v) :=
  .put (T := .attestations) (by decide) (by simp) rfl

end Attestations

namespace Outbounds

theorem save_confined (b : OutboundBatch) : Confined [.outbounds] (save b) :=
  .put (T := .outbounds) (by decide) (by simp) rfl

theorem append_confined (h : Height) (o : Outbound) : Confined [.outbounds] (append h o) :=
  .readThen fun _ => save_confined _

end Outbounds

namespace Bank

theorem record_confined {k : String} {T : Table} (hk : Table.ofKey? k = some T)
    (hT : T ∈ [Table.fees, .slips, .balances, .supplies]) (amount : Amount) :
    Confined [T] (record k amount) :=
  .ite (fun _ => .erase List.mem_cons_self hk) fun _ => .put List.mem_cons_self hk ⟨T, hT, hk⟩

theorem setBalance_confined (owner : Address) (a : Asset) (amount : Amount) :
    Confined [.balances] (setBalance owner a amount) :=
  record_confined (by simp) (by decide) amount

theorem setSupply_confined (a : Asset) (amount : Amount) :
    Confined [.supplies] (setSupply a amount) :=
  record_confined (by simp) (by decide) amount

theorem transferCoin_confined (source target : Address) (c : Coin) :
    Confined [.balances] (transferCoin source target c) := by
  unfold transferCoin
  simp only [refuse_bind]
  refine .readThen fun held => .ite (fun _ => .refuse _) fun _ => ?_
  refine (setBalance_confined _ _ _).bind fun _ => .readThen fun _ => ?_
  exact setBalance_confined _ _ _

theorem transfer_confined (source target : Address) (coins : List Coin) :
    Confined [.balances] (transfer source target coins) :=
  .forM fun c _ => transferCoin_confined source target c

theorem mint_confined (module : String) (c : Coin) :
    Confined [.balances, .supplies] (mint module c) := by
  refine .readThen fun _ => .bind ((setBalance_confined _ _ _).mono (by decide)) fun _ => ?_
  exact .readThen fun _ => (setSupply_confined _ _).mono (by decide)

theorem burn_confined (module : String) (c : Coin) :
    Confined [.balances, .supplies] (burn module c) := by
  unfold burn
  simp only [refuse_bind]
  refine .readThen fun held => .ite (fun _ => .refuse _) fun _ => ?_
  refine .bind ((setBalance_confined _ _ _).mono (by decide)) fun _ => ?_
  exact .readThen fun _ => (setSupply_confined _ _).mono (by decide)

theorem moveModule_confined (source target : String) (coins : List Coin) :
    Confined [.balances] (moveModule source target coins) :=
  transfer_confined _ _ coins

theorem payOut_confined (source : String) (target : Address) (coins : List Coin) :
    Confined [.balances] (payOut source target coins) :=
  transfer_confined _ target coins

end Bank

namespace Payout

/-- Payouts move coins, or join the batch of the block. -/
def tables : List Table := [.balances, .supplies, .attestations, .outbounds]

theorem enqueue_confined (o : Outbound) : Confined [.attestations, .outbounds] (enqueue o) := by
  unfold enqueue
  refine .readThen fun height => .readThen fun v => ?_
  have happend : Confined [.attestations, .outbounds] (Outbounds.append height o) :=
    (Outbounds.append_confined height o).mono (by decide)
  cases v with
  | none => exact happend
  | some v =>
    refine .ite (fun _ => ?_) fun _ => happend
    exact .bind ((Attestations.save_confined _).mono (by decide)) fun _ => happend

theorem collectFee_confined (payer : String) (a : Asset) (fee : Amount) :
    Confined [.balances, .supplies] (collectFee payer a fee) := by
  unfold collectFee
  refine .ite (fun _ => .pure ()) fun _ => .ite (fun _ => ?_) fun _ => .ite (fun _ => ?_) fun _ => ?_
  · exact .ite (fun _ => (Bank.moveModule_confined _ _ _).mono (by decide)) fun _ => .pure ()
  · refine .bind ((Bank.moveModule_confined _ _ _).mono (by decide)) fun _ => ?_
    exact (Bank.burn_confined _ _).bind fun _ => .emit _
  · exact .pure ()

/-- What is minted before a payout. -/
def mintFor (payer : String) (c : Coin) : Action Unit := do
  if payer = Module.thorchain then
    Bank.mint Module.thorchain c
    Ledger.emit (.supply .mint c.asset c.amount "swap")

def takeFee (payer : String) (a : Asset) (fee : Amount) : Action Unit := do
  if fee ≠ 0 then collectFee payer a fee

/-- A payout mints, transfers, takes the fee and tells of itself, in this order. -/
theorem settle_eq (o : Outbound) (fee : Amount) :
    settle o fee = (do
      mintFor (o.payer.getD Module.asgard) o.coin
      Bank.transfer (.ofModule (o.payer.getD Module.asgard)) o.recipient [o.coin]
      takeFee (o.payer.getD Module.asgard) o.coin.asset fee
      Ledger.emit (.outbound o.inbound (settlement (o.payer.getD Module.asgard) o fee))) := by
  unfold settle mintFor takeFee
  generalize o.payer.getD Module.asgard = payer
  by_cases hrecipient : o.recipient = .ofModule Module.reserve <;>
    by_cases hpayer : payer = Module.thorchain <;> by_cases hfee : fee = 0 <;>
    simp only [hrecipient, hpayer, hfee, ne_eq, not_true_eq_false, not_false_eq_true, if_true,
      if_false, bind_assoc, pure_bind, Bank.moveModule, Bank.payOut]

theorem mintFor_confined (payer : String) (c : Coin) :
    Confined [.balances, .supplies] (mintFor payer c) := by
  refine .ite (fun _ => ?_) fun _ => .pure ()
  exact (Bank.mint_confined _ c).bind fun _ => Action.Confined.emit _

theorem settle_confined (o : Outbound) (fee : Amount) :
    Confined [.balances, .supplies] (settle o fee) := by
  rw [settle_eq]
  refine (mintFor_confined _ _).bind fun _ => ?_
  refine .bind ((Bank.transfer_confined _ _ _).mono (by decide)) fun _ => ?_
  refine .bind (.ite (fun _ => ?_) fun _ => .pure ()) fun _ => Action.Confined.emit _
  exact collectFee_confined _ _ _

theorem place_confined (o : Outbound) (fee : Amount) : Confined tables (place o fee) := by
  unfold place
  have henqueue : ∀ o, Confined tables (enqueue o) := fun o =>
    (enqueue_confined o).mono (by decide)
  refine .ite (fun _ => ?_) fun _ => .ite (fun _ => ?_) fun _ => .readThen fun key => ?_
  · exact .bind ((settle_confined o fee).mono (by decide)) fun _ => .pure true
  · exact (henqueue o).bind fun _ => .pure true
  · cases key with
    | none => exact .pure false
    | some key => exact (henqueue _).bind fun _ => .pure true

/-! A memo is all that an outbound gets with its schedule. -/

@[simp] theorem withMemo_chain (o : Outbound) : (withMemo o).chain = o.chain := by
  unfold withMemo
  split <;> rfl

@[simp] theorem withMemo_coin (o : Outbound) : (withMemo o).coin = o.coin := by
  unfold withMemo
  split <;> rfl

@[simp] theorem withMemo_recipient (o : Outbound) : (withMemo o).recipient = o.recipient := by
  unfold withMemo
  split <;> rfl

@[simp] theorem withMemo_payer (o : Outbound) : (withMemo o).payer = o.payer := by
  unfold withMemo
  split <;> rfl

@[simp] theorem withMemo_vault (o : Outbound) : (withMemo o).vault = o.vault := by
  unfold withMemo
  split <;> rfl

@[simp] theorem withMemo_sent (o : Outbound) : (withMemo o).sent = o.sent := by
  unfold withMemo
  split <;> rfl

/-- What leaves for another chain touches no account. -/
theorem schedule_away_confined {o : Outbound} (haway : o.chain.isHome = false) (least : Amount) :
    Confined [.attestations, .outbounds] (schedule o least) := by
  unfold schedule place
  simp only [refuse_bind, withMemo_chain, haway]
  refine .readThen fun fee => .ite (fun _ => .refuse _) fun _ => .ite (fun _ => .refuse _) fun _ => ?_
  refine .ite (fun h => nomatch h) fun _ => .ite (fun _ => ?_) fun _ => .readThen fun key => ?_
  · exact (enqueue_confined _).bind fun _ => .pure true
  · cases key with
    | none => exact .pure false
    | some key => exact (enqueue_confined _).bind fun _ => .pure true

theorem schedule_confined (o : Outbound) (least : Amount) : Confined tables (schedule o least) := by
  unfold schedule
  simp only [refuse_bind]
  refine .readThen fun fee => .ite (fun _ => .refuse _) fun _ => .ite (fun _ => .refuse _) fun _ => ?_
  exact place_confined _ fee

theorem scheduleAsIs_confined (o : Outbound) : Confined tables (scheduleAsIs o) :=
  .ite (fun _ => (settle_confined o 0).mono (by decide))
    fun _ => (enqueue_confined o).mono (by decide)

end Payout

end LiquidityNet
