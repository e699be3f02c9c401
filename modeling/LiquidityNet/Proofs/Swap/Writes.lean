import LiquidityNet.Proofs.Ledger.Writes
import LiquidityNet.Swap.Execution
import LiquidityNet.Swap.Refund

/-!
# What a swap writes

A swap moves coins and changes pools and their counters, and so does its refund. Neither touches a
node, a vault or the settings.
-/

namespace LiquidityNet

open LiquidityNet.Action LiquidityNet.Action.Confined

namespace Swap

def tables : List Table :=
  [.pools, .fees, .slips, .balances, .supplies, .attestations, .outbounds]

theorem hop_confined (tx : Transaction) (source : Coin) (target : Asset)
    (limit fee multiplier : Amount) :
    Confined [.pools] (hop tx source target limit fee multiplier) := by
  unfold hop
  simp only [refuse_bind]
  refine .ite (fun _ => .refuse _) fun _ => .readThen fun pool => ?_
  cases pool with
  | none => exact .refuse _
  | some pool =>
    refine .ite (fun _ => .refuse _) fun _ => .ite (fun _ => .refuse _) fun _ => ?_
    refine (check _).bind fun q => .ite (fun _ => ?_) fun _ => ?_
    · exact .readThen fun _ => (Pools.save_confined _).bind fun _ => .pure _
    · exact (Pools.save_confined _).bind fun _ => .pure _

theorem hops_confined (m : SwapRequest) (source : Coin) (fee multiplier : Amount) :
    Confined [.pools] (hops m source fee multiplier) := by
  unfold hops firstHop
  refine .ite (fun _ => ?_) fun _ => ?_
  · exact (hop_confined _ _ _ _ _ _).bind fun _ => .pure _
  · refine .bind ((hop_confined _ _ _ _ _ _).bind fun _ => .pure _) fun _ => ?_
    exact (hop_confined _ _ _ _ _ _).bind fun _ => .pure _

theorem publish_confined (e : SwapEvent) :
    Confined [.fees, .slips, .balances, .supplies] (publish e) := by
  unfold publish
  extract_lets coin counted
  have hcounted : ∀ r, Confined [.fees, .slips, .balances, .supplies] (counted r) := by
    intro r
    refine .ite (fun _ => ?_) fun _ => ?_
    · refine .bind ((Bank.mint_confined _ _).mono (by decide)) fun _ => ?_
      exact (Action.Confined.emit _).bind fun _ => (Bank.moveModule_confined _ _ _).mono (by decide)
    · refine .bind ((Pools.addFees_confined _ _).mono (by decide)) fun _ => ?_
      exact (Pools.addSlip_confined _ _).mono (by decide)
  refine (Action.Confined.emit _).bind fun _ => ?_
  split
  · exact (Action.Confined.emit _).bind hcounted
  · exact hcounted ()

/-- The fee of a pool whose asset is not derived stays in the pool. -/
theorem publish_counted {e : SwapEvent} (h : e.pool.isDerived = false) :
    Confined [.fees, .slips] (publish e) := by
  have hcounted : Confined [.fees, .slips]
      (do Pools.addFees e.pool e.feeInRune; Pools.addSlip e.pool e.slip : Action Unit) := by
    refine .bind ((Pools.addFees_confined _ _).mono (by decide)) fun _ => ?_
    exact (Pools.addSlip_confined _ _).mono (by decide)
  unfold publish
  simp only [h, Bool.false_eq_true, if_false]
  refine (Action.Confined.emit _).bind fun _ => ?_
  split
  · exact (Action.Confined.emit _).bind fun _ => hcounted
  · exact hcounted

theorem deliver_confined (m : SwapRequest) (emitted : Amount) :
    Confined Payout.tables (deliver m emitted) := by
  unfold deliver
  refine .ite (fun _ => .ite (fun _ => ?_) fun _ => .pure ()) fun _ => ?_
  · refine .bind ((Bank.mint_confined _ _).mono (by decide)) fun _ => ?_
    refine .bind ((Bank.moveModule_confined _ _ _).mono (by decide)) fun _ => ?_
    exact Action.Confined.emit _
  · refine (Payout.schedule_confined _ _).attempt.bind fun scheduled => ?_
    rcases scheduled with e | _ | _
    · exact .refuse _
    · exact .refuse _
    · exact .pure ()

theorem burnCoins_confined (coins : List Coin) :
    Confined [.balances, .supplies] (burnCoins coins) := by
  unfold burnCoins
  refine .ite (fun _ => ?_) fun _ => .pure ()
  refine .bind ((Bank.moveModule_confined _ _ _).mono (by decide)) fun _ => .forM fun c _ => ?_
  refine (Bank.burn_confined _ c).attempt.bind fun burned => ?_
  rcases burned with e | _
  · exact .pure ()
  · exact Action.Confined.emit _

theorem execute_confined (m : SwapRequest) (fee multiplier : Amount) :
    Confined tables (execute m fee multiplier) := by
  unfold execute
  refine (check _).bind fun _ => ?_
  split
  · refine .readThen fun _ => .bind ((hops_confined _ _ _ _).mono (by decide)) fun hop => ?_
    refine (check _).bind fun _ => .bind (.forM fun e _ => ?_) fun _ => ?_
    · exact (publish_confined e).mono (by decide)
    refine .bind ((deliver_confined _ _).mono (by decide)) fun _ => ?_
    exact .bind ((burnCoins_confined _).mono (by decide)) fun _ => .pure _
  · exact .refuse _

theorem handle_confined (m : SwapRequest) : Confined tables (handle m) :=
  (check _).bind fun _ => .readThen fun _ => .readThen fun _ => (execute_confined _ _ _).transactionally

end Swap

namespace Refund

def tables : List Table := .pools :: Payout.tables

theorem burn_confined (module : String) (c : Coin) :
    Confined [.balances, .supplies] (burn module c) := by
  unfold burn
  extract_lets burned
  have hburned : ∀ moved, Confined [.balances, .supplies] (burned moved) := by
    intro moved
    cases moved with
    | error e => exact .pure ()
    | ok _ =>
      refine (Bank.burn_confined _ c).attempt.bind fun outcome => ?_
      rcases outcome with e | _
      · exact .pure ()
      · exact Action.Confined.emit _
  refine .ite (fun _ => (Action.Confined.pure _).bind hburned) fun _ => ?_
  exact .bind ((Bank.moveModule_confined _ _ _).attempt.mono (by decide)) hburned

theorem reserve_confined (inbound : Inbound) (module : String) (c : Coin) :
    Confined [.balances] (reserve inbound module c) := by
  refine (Bank.moveModule_confined _ _ _).attempt.bind fun moved => ?_
  rcases moved with e | _
  · exact .pure ()
  · exact Action.Confined.emit _

theorem settle_confined (inbound : Inbound) (payer : Option String) (pool : Option Pool)
    (c : Coin) : Confined [.pools, .balances, .supplies] (settle inbound payer pool c) := by
  refine .ite (fun _ => ?_) fun _ => .ite (fun _ => ?_) fun _ => .ite (fun _ => ?_) fun _ => .pure ()
  · cases pool with
    | none => exact .pure ()
    | some p =>
      exact .bind ((Pools.save_confined _).mono (by decide)) fun _ => Action.Confined.emit _
  · exact (burn_confined _ c).mono (by decide)
  · exact (reserve_confined inbound _ c).mono (by decide)

theorem coin_confined (inbound : Inbound) (payer : Option String) (done : Progress) (c : Coin) :
    Confined tables (coin inbound payer done c) := by
  have hsettled : ∀ (pool : Option Pool) (failure : String), Confined tables (do
      settle inbound payer pool c
      return { done with
        reason := done.reason ++ "; fail to refund (" ++ c.text ++ "): " ++ failure } :
        Action Progress) := fun pool _ =>
    ((settle_confined inbound payer pool c).mono (by decide)).bind fun _ => .pure _
  refine .readThen fun pool => .ite (fun _ => .pure done) fun _ => ?_
  refine .bind ((Payout.schedule_confined _ _).attempt.mono (by decide)) fun scheduled => ?_
  rcases scheduled with e | _ | _
  · exact hsettled pool _
  · exact hsettled pool _
  · exact .pure _

theorem refund_confined (inbound : Inbound) (code : Word) (reason : String)
    (payer : Option String) : Confined tables (refund inbound code reason payer) :=
  (Action.Confined.foldlM (coin_confined inbound payer) _).bind fun _ => Action.Confined.emit _

end Refund

end LiquidityNet
