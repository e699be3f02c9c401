import LiquidityNet.Ledger.Payout
import LiquidityNet.Proofs.Action.Completion

/-!
# Operations on the ledger that meet no fault

Records are read and written, coins are moved and fees are taken by operations that cap what they
add and stop at zero. Nothing in them is out of range, whatever the ledger holds.
-/

namespace LiquidityNet

variable {P : Ledger → Prop}

namespace Governance

theorem mimir?_faultless (name : String) : (mimir? name).Faultless P := .fetch? _

/-- There is a number in force for every setting, as a mimir that cannot be read is passed over. -/
theorem valueAtLeast_ok (x : Setting) (least : Signed) (s : Ledger) :
    ∃ v, valueAtLeast x least s = .ok v := by
  unfold valueAtLeast
  split
  · exact ⟨_, rfl⟩
  · exact ⟨_, rfl⟩

theorem valueAtLeast_faultless (x : Setting) (least : Signed) :
    (valueAtLeast x least).Faultless P := by
  intro s f _ h
  obtain ⟨v, hv⟩ := valueAtLeast_ok x least s
  cases hv.symm.trans h

theorem value_faultless (x : Setting) : (value x).Faultless P := valueAtLeast_faultless x 0

theorem count_faultless (x : Setting) : (count x).Faultless P :=
  (value_faultless x).past fun _ => .pure _

theorem amount_faultless (x : Setting) : (amount x).Faultless P :=
  (value_faultless x).past fun _ => .pure _

end Governance

namespace Pools

theorem find?_faultless (a : Asset) : (find? a).Faultless P := .fetch? _

theorem all_faultless : all.Faultless P := .fetchAll _

theorem valueInRune_faultless (c : Coin) : (valueInRune c).Faultless P := by
  refine .ite (fun _ => .pure _) fun _ => (find?_faultless _).past fun p => ?_
  cases p with
  | none => exact .pure _
  | some p => exact .pure _

theorem save_faultless (p : Pool) : (save p).Faultless := .put _ p

end Pools

namespace Nodes

theorem find?_faultless (a : Address) : (find? a).Faultless P := .fetch? _

theorem all_faultless : all.Faultless P := .fetchAll _

theorem withStatus_faultless (status : NodeStatus) : (withStatus status).Faultless P :=
  all_faultless.past fun _ => .pure _

theorem active_faultless : active.Faultless P := withStatus_faultless .active

theorem bonded_faultless : bonded.Faultless P := all_faultless.past fun _ => .pure _

theorem holding?_faultless (k : PublicKey) : (holding? k).Faultless P :=
  all_faultless.past fun _ => .pure _

theorem joinVersion_faultless : joinVersion.Faultless P := active_faultless.past fun _ => .pure _

theorem slashPoints_faultless (a : Address) : (slashPoints a).Faultless P := .fetchD _ _

theorem jailOf_faultless (a : Address) : (jailOf a).Faultless P := .fetchD _ _

theorem providersOf_faultless (a : Address) : (providersOf a).Faultless P := .fetchD _ _

theorem save_faultless (n : Node) : (save n).Faultless :=
  (Action.Faultless.check n.validate).bind fun _ => .put _ n

theorem saveWith_faultless (n : Node) (ps : Providers) : (saveWith n ps).Faultless :=
  (save_faultless n).bind fun _ => .put _ ps

end Nodes

namespace Outbounds

theorem atHeight_faultless (h : Height) : (Outbounds.atHeight h).Faultless P := .fetchD _ _

theorem append_faultless (h : Height) (o : Outbound) : (append h o).Faultless :=
  .readThen (atHeight_faultless h) fun _ => .put _ _

/-- The heights that count begin no earlier than numbers do. -/
theorem pendingWithin_faultless {period : Signed} (hperiod : 0 ≤ period)
    (hP : ∀ s, P s → 0 ≤ s.height) : (pendingWithin period).Faultless P := by
  refine .readFact (p := (0 ≤ ·)) .currentHeight (fun s height hs hread => ?_)
    fun height hheight => ?_
  · cases hread
    exact hP s hs
  · refine .past (.compute fun _ _ => Signed.sub_ok_of_nonneg hheight hperiod) fun start => ?_
    exact .past (.mapM fun h _ => (atHeight_faultless h).past fun _ => .pure _) fun _ => .pure _

end Outbounds

namespace Vaults

theorem find?_faultless (k : PublicKey) : (find? k).Faultless P := .fetch? _

theorem all_faultless : all.Faultless P := .fetchAll _

theorem asgards_faultless (status : VaultStatus) : (asgards status).Faultless P :=
  all_faultless.past fun _ => .pure _

theorem yggdrasilOf_faultless (n : Node) : (yggdrasilOf n).Faultless P := by
  unfold yggdrasilOf
  split
  · exact .pure _
  · exact (find?_faultless _).past fun _ => .pure _

theorem memberBond_faultless (v : Vault) : (memberBond v).Faultless P := by
  refine .past (.mapM fun k _ => (Nodes.holding?_faultless k).past fun n => ?_) fun _ => .pure _
  cases n with
  | none => exact .pure _
  | some n => exact .pure _

theorem exposure_faultless {period : Signed} (hperiod : 0 ≤ period)
    (hP : ∀ s, P s → 0 ≤ s.height) (v : Vault) : (exposure period v).Faultless P := by
  refine .past (.mapM fun c _ => Pools.valueInRune_faultless c) fun _ => ?_
  refine (Outbounds.pendingWithin_faultless hperiod hP).past fun _ => .past ?_ fun _ => .pure _
  exact .mapM fun o _ => Pools.valueInRune_faultless o.coin

theorem mostSecure?_faultless {period : Signed} (hperiod : 0 ≤ period)
    (hP : ∀ s, P s → 0 ≤ s.height) (vaults : List Vault) :
    (mostSecure? vaults period).Faultless P := by
  refine .past (.mapM fun v _ => .past ?_ fun _ => .pure _) fun _ => .pure _
  refine (memberBond_faultless v).past fun _ => ?_
  exact (exposure_faultless hperiod hP v).past fun _ => .pure _

end Vaults

namespace NetworkState

theorem get_faultless : get.Faultless P := .fetchD _ _

theorem isEnding_faultless : isEnding.Faultless P := by
  intro s f _ h
  unfold isEnding at h
  split at h <;> cases h

end NetworkState

theorem Attestations.find?_faultless (i : TxId) : (find? i).Faultless P := .fetch? _

namespace Bank

theorem record_faultless (key : String) (x : Amount) : (record key x).Faultless :=
  .ite (fun _ => .erase key) fun _ => .put key x

theorem balance_faultless (owner : Address) (a : Asset) : (balance owner a).Faultless P :=
  Query.Faultless.fetchD _ _

theorem transferCoin_faultless (source target : Address) (c : Coin) :
    (transferCoin source target c).Faultless := by
  unfold transferCoin
  simp only [Action.refuse_bind]
  refine .readThen (balance_faultless _ _) fun _ => .ite (fun _ => .refuse _) fun _ => ?_
  refine (record_faultless _ _).bind fun _ => .readThen (balance_faultless _ _) fun _ => ?_
  exact record_faultless _ _

theorem transfer_faultless (source target : Address) (coins : List Coin) :
    (transfer source target coins).Faultless :=
  .forM fun c => transferCoin_faultless source target c

theorem mint_faultless (module : String) (c : Coin) : (mint module c).Faultless := by
  refine .readThen (balance_faultless _ _) fun _ => (record_faultless _ _).bind fun _ => ?_
  exact .readThen (Query.Faultless.fetchD _ _) fun _ => record_faultless _ _

theorem burn_faultless (module : String) (c : Coin) : (burn module c).Faultless := by
  unfold burn
  simp only [Action.refuse_bind]
  refine .readThen (balance_faultless _ _) fun _ => .ite (fun _ => .refuse _) fun _ => ?_
  refine (record_faultless _ _).bind fun _ => .readThen (Query.Faultless.fetchD _ _) fun _ => ?_
  exact record_faultless _ _

end Bank

namespace Payout

theorem charge_faultless (o : Outbound) : (charge o).Faultless P := by
  refine .ite (fun _ => ?_) fun _ => .pure _
  refine (Governance.amount_faultless _).past fun _ => .ite (fun _ => .pure _) fun _ => ?_
  refine (Pools.find?_faultless _).past fun p => ?_
  cases p with
  | none => exact .pure _
  | some p => exact .pure _

theorem enqueue_faultless (o : Outbound) : (enqueue o).Faultless := by
  unfold enqueue
  refine .readThen .currentHeight fun height => ?_
  refine .readThen (Attestations.find?_faultless _) fun v => ?_
  cases v with
  | none => exact Outbounds.append_faultless _ _
  | some v =>
    refine .ite (fun _ => ?_) fun _ => Outbounds.append_faultless _ _
    exact (Action.Faultless.put _ _).bind fun _ => Outbounds.append_faultless _ _

theorem collectFee_faultless (payer : String) (a : Asset) (fee : Amount) :
    (collectFee payer a fee).Faultless := by
  unfold collectFee
  refine .ite (fun _ => .pure ()) fun _ => .ite (fun _ => ?_) fun _ => ?_
  · exact .ite (fun _ => Bank.transfer_faultless _ _ _) fun _ => .pure ()
  · refine .ite (fun _ => (Bank.transfer_faultless _ _ _).bind fun _ => ?_) fun _ => .pure ()
    exact (Bank.burn_faultless _ _).bind fun _ => .emit _

theorem settle_faultless (o : Outbound) (fee : Amount) : (settle o fee).Faultless := by
  unfold settle
  extract_lets payer emitted charged paid
  have hcharged : ∀ r, (charged r).Faultless := fun _ =>
    .ite (fun _ => (collectFee_faultless _ _ _).bind fun _ => .emit _) fun _ => .emit _
  have hpaid : ∀ r, (paid r).Faultless := fun _ =>
    .ite (fun _ => (Bank.transfer_faultless _ _ _).bind hcharged)
      fun _ => (Bank.transfer_faultless _ _ _).bind hcharged
  refine .ite (fun _ => ?_) fun _ => hpaid ()
  exact (Bank.mint_faultless _ _).bind fun _ => (Action.Faultless.emit _).bind hpaid

theorem scheduleAsIs_faultless (o : Outbound) : (scheduleAsIs o).Faultless :=
  .ite (fun _ => settle_faultless o 0) fun _ => enqueue_faultless o

/-- A payout on the home chain needs no vault. -/
theorem schedule_faultless {o : Outbound} (hhome : o.chain.isHome = true) (least : Amount) :
    (schedule o least).Faultless := by
  unfold schedule place
  have hsame : (withMemo o).chain = o.chain := by
    unfold withMemo
    split <;> rfl
  simp only [Action.refuse_bind, hsame, hhome, if_true]
  refine .readThen (charge_faultless _) fun fee => .ite (fun _ => .refuse _) fun _ => ?_
  exact .ite (fun _ => .refuse _) fun _ => (settle_faultless _ fee).bind fun _ => .pure true

end Payout

end LiquidityNet
