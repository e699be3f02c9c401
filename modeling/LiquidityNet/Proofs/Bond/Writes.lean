import LiquidityNet.Bond.Withdrawal
import LiquidityNet.Proofs.Action.Invariance
import LiquidityNet.Proofs.Ledger.Writes
import LiquidityNet.Validators.Ragnarok

/-!
# What changes of bond write

Besides the records of the node and its providers, a deposit only moves coins, and a withdrawal
only makes a payout. A request for the return of funds is a payout too. Rewards and the rounds of
ragnarok count in the network's totals what they pay.
-/

namespace LiquidityNet

open LiquidityNet.Action LiquidityNet.Action.Confined

namespace Recall

theorem requestOn_confined (ygg target : Vault) (c : Chain) :
    Confined Payout.tables (requestOn ygg target c) :=
  .readThen fun _ => (check _).bind fun _ => Payout.scheduleAsIs_confined _

theorem requestFrom_confined (ygg : Vault) : Confined Payout.tables (requestFrom ygg) := by
  refine .readThen fun _ => .readThen fun _ => .readThen fun _ => .readThen fun target => ?_
  cases target with
  | none => exact .refuse _
  | some target => exact .forM fun c _ => requestOn_confined ygg target c

theorem request_confined (n : Node) : Confined Payout.tables (request n) := by
  refine .readThen fun ygg => ?_
  cases ygg with
  | none => exact .pure ()
  | some ygg => exact .ite (fun _ => requestFrom_confined ygg) fun _ => .pure ()

theorem requestAll_confined : Confined Payout.tables requestAll := by
  refine .readThen fun vaults => .forM fun ygg _ => .readThen fun n => ?_
  cases n with
  | none => exact .pure ()
  | some n => exact request_confined n

end Recall

namespace Bond

theorem enterDeposit_confined (m : BondRequest) :
    Confined [.nodes, .providers, .balances] (enterDeposit m) := by
  unfold enterDeposit
  refine .readThen fun n => .readThen fun ps => (compute _).bind fun _ => ?_
  refine .bind ((Nodes.saveWith_confined _ _).mono (by decide)) fun _ => .ite (fun _ => ?_) fun _ => ?_
  · refine .bind ((Bank.moveModule_confined _ _ _).mono (by decide)) fun _ => ?_
    exact Action.Confined.emit _
  · exact Action.Confined.emit _

theorem deposit_confined (m : BondRequest) :
    Confined [.nodes, .providers, .balances] (deposit m) :=
  .readThen fun _ => (enterDeposit_confined m).transactionally

/-- A withdrawal changes the node's records and pays out. -/
def withdrawalTables : List Table := .nodes :: .providers :: Payout.tables

theorem validateWithdrawal_confined (m : UnbondRequest) :
    Confined Payout.tables (validateWithdrawal m) := by
  unfold validateWithdrawal
  refine .readThen fun n => .readThen fun ygg => .ite (fun _ => ?_) fun _ => .pure n
  exact (Recall.request_confined n).bind fun _ => .refuse _

theorem payProvider_confined (tx : Transaction) (n : Node) (provider : Address) (amount : Amount) :
    Confined Payout.tables (payProvider tx n provider amount) := by
  refine (Payout.schedule_confined _ _).attempt.bind fun scheduled => ?_
  rcases scheduled with e | _ | _
  · exact .refuse _
  · exact .refuse _
  · exact Action.Confined.emit _

theorem enterPayment_confined (provider : Address) (paid : Amount) (ps : Providers) (n : Node) :
    Confined [.nodes, .providers] (enterPayment provider paid ps n) :=
  (compute _).bind fun _ => .readThen fun _ => (Nodes.saveWith_confined _ _).bind fun _ => .pure _

theorem payBack_confined (tx : Transaction) (provider : Address) (amount : Amount) (n : Node) :
    Confined withdrawalTables (payBack tx provider amount n) := by
  have hentered : ∀ paid ps, Confined withdrawalTables (enterPayment provider paid ps n) :=
    fun paid ps => (enterPayment_confined provider paid ps n).mono (by decide)
  refine .ite (fun _ => .pure n) fun _ => .readThen fun _ => (compute _).bind fun ps => ?_
  refine .ite (fun _ => ?_) fun _ => hentered _ ps
  exact .bind ((payProvider_confined _ _ _ _).mono (by decide)) fun _ => hentered _ ps

theorem dismiss_confined (node provider : Address) : Confined [.providers] (dismiss node provider) := by
  refine .readThen fun ps => .ite (fun _ => ?_) fun _ => .pure ()
  cases ps.remove? provider with
  | none => exact .pure ()
  | some ps => exact Nodes.saveProviders_confined ps

theorem enterWithdrawal_confined (m : UnbondRequest) (n : Node) :
    Confined withdrawalTables (enterWithdrawal m n) := by
  refine (payBack_confined _ _ _ _).bind fun _ => .ite (fun _ => ?_) fun _ => .pure ()
  exact (dismiss_confined _ _).mono (by decide)

theorem withdraw_confined (m : UnbondRequest) : Confined withdrawalTables (withdraw m) := by
  refine .bind ((validateWithdrawal_confined m).mono (by decide)) fun n => ?_
  exact (enterWithdrawal_confined m n).transactionally

theorem enterReward_confined (n : Node) (reward : Amount) (before : Providers)
    (operatorBond : Amount) :
    Confined [.nodes, .providers] (enterReward n reward before operatorBond) :=
  (compute _).bind fun _ => (compute _).bind fun _ =>
    (Nodes.saveWith_confined _ _).bind fun _ => .pure _

theorem payFee_confined (n : Node) (fee : Amount) : Confined [.balances] (payFee n fee) :=
  .ite (fun _ => (Bank.payOut_confined _ _ _).bind fun _ => Action.Confined.emit _)
    fun _ => .pure ()

def rewardTables : List Table := [.nodes, .providers, .slashes, .balances]

theorem payReward_confined (r : RewardRound) (t : Network) (n : Node) :
    Confined rewardTables (payReward r t n) := by
  refine .ite (fun _ => .pure t) fun _ => .readThen fun _ => .readThen fun _ => ?_
  refine (compute _).bind fun _ => .readThen fun _ => (compute _).bind fun before => ?_
  split
  · refine .bind ((Nodes.setSlashPoints_confined _ _).mono (by decide)) fun _ => ?_
    refine .bind ((enterReward_confined _ _ _ _).mono (by decide)) fun fee => ?_
    refine (Action.Confined.emit _).bind fun _ => ?_
    exact .bind ((payFee_confined n fee).mono (by decide)) fun _ => .pure _
  · exact .refuse _

/-- A reward and the network's totals after it. -/
theorem countedReward_confined (r : RewardRound) (n : Node) :
    Confined (.network :: rewardTables)
      (do let t ← NetworkState.get; NetworkState.save (← payReward r t n) : Action Unit) := by
  refine .readThen fun t => .bind ((payReward_confined r t n).mono (by decide)) fun _ => ?_
  exact (NetworkState.save_confined _).mono (by decide)

theorem payNode_confined (r : RewardRound) (n : Node) :
    Confined (.network :: rewardTables) (payNode r n) :=
  (countedReward_confined r n).transactionally.attempt.bind fun _ => .pure ()

/-- What a reward keeps and the network's totals leave alone, paying a node keeps. -/
theorem payNode_keeps_of {P : Ledger → Prop} {r : RewardRound} {n : Node}
    (hreward : ∀ t, (payReward r t n).Keeps P) (hnetwork : ∀ t, (NetworkState.save t).Keeps P)
    (hP : ∀ s t : Ledger, (∀ k, t.get? k = s.get? k) → P s → P t) : (payNode r n).Keeps P := by
  have hcounted : Action.Keeps P
      (do let t ← NetworkState.get; NetworkState.save (← payReward r t n) : Action Unit) :=
    .pastRead (fun _ hs => hs) fun t => (hreward t).bind hnetwork
  have hpaid := hcounted.transactionally (countedReward_confined r n) hP
  exact hpaid.attempt.bind fun _ => .pure fun _ hs => hs

end Bond

namespace Ragnarok

theorem countPayout_confined : Confined [.network] countPayout :=
  .readThen fun _ => (compute _).bind fun _ => NetworkState.save_confined _

theorem enterReturn_confined (n : Node) (amount : Amount) :
    Confined [.nodes, .providers, .network] (enterReturn n amount) := by
  refine .bind (countPayout_confined.mono (by decide)) fun _ => .readThen fun _ => ?_
  refine (compute _).bind fun _ => (compute _).bind fun _ => ?_
  exact .bind ((Nodes.saveWith_confined _ _).mono (by decide)) fun _ => Action.Confined.emit _

def returnTables : List Table := .nodes :: .providers :: .network :: Payout.tables

theorem returnBond_confined (tenths : Amount) (n : Node) :
    Confined returnTables (returnBond tenths n) := by
  have henter : ∀ amount, Confined returnTables (enterReturn n amount) := fun amount =>
    (enterReturn_confined n amount).mono (by decide)
  refine .readThen fun _ => .ite (fun _ => .pure ()) fun _ => .ite (fun _ => .pure ()) fun _ => ?_
  refine .readThen fun _ => .bind ?_ fun scheduled => ?_
  · exact ((Payout.schedule_confined _ _).mono (by decide)).attempt
  · split
    · exact henter _
    · exact .pure ()
    · exact henter _
    · exact .refuse _

theorem returnBonds_confined (round : Signed) : Confined returnTables (returnBonds round) :=
  (compute _).bind fun _ => .ite (fun _ => .pure ()) fun _ => .readThen fun _ =>
    .forM fun n _ => returnBond_confined _ n

theorem stagePool_confined (height : Height) (p : Pool) : Confined [.pools] (stagePool height p) :=
  .ite (fun _ => .pure ()) fun _ => (Pools.save_confined _).bind fun _ => Action.Confined.emit _

theorem stagePools_confined : Confined [.pools, .network] stagePools := by
  refine .readThen fun _ => .ite (fun _ => .pure ()) fun _ => .readThen fun _ => .readThen fun _ => ?_
  refine .bind ((Action.Confined.forM fun p _ => stagePool_confined _ p).mono (by decide)) fun _ => ?_
  exact (NetworkState.save_confined _).mono (by decide)

end Ragnarok

end LiquidityNet
