import LiquidityNet.Proofs.Bond.Backing
import LiquidityNet.Proofs.Ledger.Funds

/-!
# Solvency of the bonds

The account of the bonds is to hold the bonds of all nodes. A deposit moves as much into it as it
adds to the records, and a withdrawal pays as much out of it as it takes from them. Only the RUNE
that rides along with a withdrawal is entered without being moved, so that it has to be covered by
what the account holds beyond the bonds.
-/

namespace LiquidityNet

open Ledger

variable {s t : Ledger} {n : Node} {ps : Providers}

/-- The account of the bonds covers the bonds of all nodes. -/
def Ledger.Solvent (s : Ledger) : Prop := s.bonded ≤ s.held bondAccount

theorem Nodes.saveWith_bonded (h : saveWith n ps s = (.ok (), t)) :
    t.bonded + (s.bondAt n.address).val = s.bonded + n.bond.val ∧
      t.held bondAccount = s.held bondAccount := by
  constructor
  · obtain ⟨_, u, hnode, hproviders⟩ := Action.bind_eq_ok.1 h
    obtain ⟨_, -, hnode⟩ := Action.check_bind_eq_ok.1 hnode
    cases hnode
    rw [bonded_of_changes ((saveProviders_confined ps).changes hproviders) (by decide)]
    exact bonded_putRecord_node s n
  · exact held_of_changes ((saveWith_confined n ps).changes h) (by decide) bondAccount

namespace Bond

/-! ## Deposits -/

theorem nodeFor_steady (m : BondRequest) : (nodeFor m).Steady := by
  refine .bind (.fetch? _) fun found => ?_
  cases found with
  | none => exact .bind (fun _ => rfl) fun _ => .pure _
  | some n => exact .pure n

/-- The node of a deposit is found under its own address, or opened there without bond. -/
theorem nodeFor_filed {m : BondRequest} (hs : s.NodesFiled) (h : nodeFor m s = .ok n) :
    n.address = m.node ∧ s.bondAt m.node = n.bond := by
  rcases nodeFor_eq_ok h with hget | ⟨hnone, haddress, -, hbond⟩
  · refine ⟨(Key.node_inj (hs _ n hget)).symm, ?_⟩
    rw [bondAt, hget]
  · refine ⟨haddress, ?_⟩
    rw [bondAt, hnone, hbond]

/-- A deposit that succeeds enters its bond into the records of its node, and then moves it from the
account of the pools to that of the bonds. -/
theorem deposit_ok {m : BondRequest} (h : deposit m s = (.ok (), t)) :
    ∃ n ps u, nodeFor m s = .ok n ∧
      Nodes.saveWith { n with bond := n.bond.plus m.bond } ps s.checkpointed = (.ok (), u) ∧
      (∃ v, Changes [.balances] u v ∧ ∀ k, t.get? k = v.get? k) ∧
      t.held (.ofModule Module.asgard) + m.bond.val = u.held (.ofModule Module.asgard) ∧
      t.held bondAccount = min (u.held bondAccount + m.bond.val) 0xffffffffffffffff := by
  obtain ⟨_, -, hrun⟩ := Action.read_bind_eq_ok.1 h
  obtain ⟨v, hentered, hcommit⟩ := transactionally_ok (enterDeposit_confined m) hrun
  obtain ⟨n, hn, hentered⟩ := Action.read_bind_eq_ok.1 hentered
  obtain ⟨ps, -, hentered⟩ := Action.read_bind_eq_ok.1 hentered
  obtain ⟨qs, -, hentered⟩ := Action.compute_bind_eq_ok.1 hentered
  obtain ⟨_, u, hsaved, hmoved⟩ := Action.bind_eq_ok.1 hentered
  rw [nodeFor_steady m s] at hn
  refine ⟨n, _, u, hn, hsaved, ?_⟩
  rw [held_congr hcommit.get?, held_congr hcommit.get?]
  split at hmoved
  · obtain ⟨_, x, hcoin, hmoved⟩ := Action.bind_eq_ok.1 hmoved
    cases hmoved
    have hchanges := (Bank.moveModule_confined _ _ _).changes hcoin
    obtain ⟨hle, -, hother⟩ := Bank.transferCoin_held (Bank.transfer_singleton_ok hcoin)
    obtain ⟨hsource, htarget⟩ := hother (by decide)
    exact ⟨⟨x, hchanges, hcommit.get?⟩, by rw [← Nat.sub_add_cancel hle, ← hsource]; rfl, htarget⟩
  · rename_i hzero
    cases hmoved
    rw [Decidable.not_not.1 hzero, Amount.val_zero, Nat.add_zero, Nat.add_zero]
    refine ⟨⟨u, .refl _ u, hcommit.get?⟩, rfl, ?_⟩
    exact (Nat.min_eq_left (Nat.le_of_lt_succ (u.held_lt bondAccount))).symm

/-- A deposit adds as much to the account of the bonds as to the records, up to the largest
amount. -/
theorem deposit_bonded {m : BondRequest} (hs : s.NodesFiled) (h : deposit m s = (.ok (), t)) :
    t.bonded + (s.bondAt m.node).val = s.bonded + ((s.bondAt m.node).plus m.bond).val ∧
      t.held bondAccount = min (s.held bondAccount + m.bond.val) 0xffffffffffffffff := by
  obtain ⟨n, ps, u, hn, hsaved, ⟨v, hchanges, hsame⟩, -, hmoved⟩ := deposit_ok h
  obtain ⟨haddress, hbond⟩ := nodeFor_filed hs hn
  obtain ⟨hbonded, hheld⟩ := Nodes.saveWith_bonded hsaved
  rw [held_congr (get?_checkpointed s)] at hheld
  have hopened : s.checkpointed.bondAt m.node = s.bondAt m.node := by
    rw [bondAt, bondAt, get?_checkpointed]
  rw [bonded_congr (get?_checkpointed s)] at hbonded
  simp only [haddress, ← hbond, hopened] at hbonded
  rw [bonded_congr hsame, bonded_of_changes hchanges (by decide), hmoved, hheld]
  exact ⟨hbonded, rfl⟩

/-! ## Withdrawals -/

/-- The shares in the bond of a node: the bonds of its providers, in line with its own. -/
def shares (n : Node) : Query Providers := do (← providersOf n).aligned n.bond

theorem shares_eq_ok {qs : Providers} :
    shares n s = .ok qs ↔ ∃ ps, providersOf n s = .ok ps ∧ ps.aligned n.bond = .ok qs := by
  unfold shares
  rw [Query.bind_eq_ok]
  refine exists_congr fun ps => and_congr_right fun _ => ?_
  rw [Query.compute_run]
  rcases ps.aligned n.bond with e | rs
  · exact ⟨nofun, nofun⟩
  · exact ⟨fun h => congrArg _ (Except.ok.inj h), fun h => congrArg _ (Except.ok.inj h)⟩

/-- What a withdrawal pays its provider, and the fee that the payout bears. -/
def payment (tx : Transaction) (provider : Address) (amount : Amount) (n : Node) :
    Query (Amount × Amount) := do
  let ps ← (← providersOf n).aligned n.bond
  if ps.bondOf provider = 0 then return (0, 0)
  let paid := paidOf n.bond amount (ps.bondOf provider)
  return (paid, ← Payout.charge (Payout.withMemo (payoutOf tx provider paid)))

theorem amount_steady (x : Setting) : (Governance.amount x).Steady := by
  have hvalue : (Governance.valueAtLeast x 0).Steady := by
    intro s
    unfold Governance.valueAtLeast Governance.mimir?
    rw [Query.Steady.fetch? _ s]
    rfl
  exact hvalue.bind fun _ => .pure _

theorem charge_steady (o : Outbound) : (Payout.charge o).Steady := by
  refine .ite (.bind (amount_steady _) fun _ => .ite (.pure _) (.bind (.fetch? _) ?_)) (.pure 0)
  intro p
  cases p <;> exact .pure _

theorem providersOf_steady (n : Node) : (providersOf n).Steady := by
  refine .bind (.fetchD _ _) fun ps => .ite (.pure ps) ?_
  exact (amount_steady _).bind fun _ => .pure _

theorem shares_steady (n : Node) : (shares n).Steady :=
  (providersOf_steady n).bind fun _ => .compute _

theorem payment_steady (tx : Transaction) (provider : Address) (amount : Amount) (n : Node) :
    (payment tx provider amount n).Steady := by
  refine (providersOf_steady n).bind fun ps => .bind (.compute _) fun qs => .ite (.pure _) ?_
  exact (charge_steady _).bind fun _ => .pure _

/-- A payment to a provider is settled on the home chain, less a fee that it covers. -/
theorem payProvider_ok {tx : Transaction} {provider : Address} {amount : Amount}
    (h : payProvider tx n provider amount s = (.ok (), t)) :
    ∃ fee u, Payout.charge (Payout.withMemo (payoutOf tx provider amount)) s = .ok fee ∧
      fee.val ≤ amount.val ∧
      Payout.settle { Payout.withMemo (payoutOf tx provider amount) with
        coin := ⟨.rune, amount.minus fee⟩ } fee s = (.ok (), u) ∧
      ∀ k, t.get? k = u.get? k := by
  obtain ⟨scheduled, u, hattempt, h⟩ := Action.bind_eq_ok.1 h
  have hscheduled : Payout.schedule (payoutOf tx provider amount) 0 s = (.ok true, u) ∧
      ∀ k, t.get? k = u.get? k := by
    rcases Action.attempt_eq_ok.1 hattempt with ⟨b, rfl, hrun⟩ | ⟨e, rfl, -⟩
    · cases b
      · cases h
      · cases h
        exact ⟨hrun, fun _ => rfl⟩
    · cases h
  obtain ⟨fee, hfee, hless, hsettled⟩ := Payout.schedule_home_ok hscheduled.1 rfl
  refine ⟨fee, u, hfee, ?_, hsettled, hscheduled.2⟩
  by_cases hzero : fee = 0
  · rw [hzero]
    exact Nat.zero_le _
  · exact Nat.le_of_lt (hless hzero)

theorem payProvider_held {tx : Transaction} {provider : Address} {amount : Amount}
    (h : payProvider tx n provider amount s = (.ok (), t)) :
    ∃ fee, Payout.charge (Payout.withMemo (payoutOf tx provider amount)) s = .ok fee ∧
      fee.val ≤ amount.val ∧
      t.held bondAccount + (if provider = bondAccount then fee.val else amount.val) =
        s.held bondAccount := by
  obtain ⟨fee, u, hfee, hle, hsettled, hsame⟩ := payProvider_ok h
  refine ⟨fee, hfee, hle, ?_⟩
  have hpaid : u.held bondAccount + fee.val +
      (if provider = bondAccount then 0 else amount.val - fee.val) = s.held bondAccount := by
    have hpayer : (Payout.withMemo (payoutOf tx provider amount)).payer.getD Module.asgard =
        Module.bond := by rw [Payout.withMemo_payer]; rfl
    have hsource := Payout.settle_held hsettled hpayer (by decide) (by decide) rfl
    rwa [Payout.withMemo_recipient] at hsource
  rw [held_congr hsame]
  split at hpaid
  · rename_i hself
    rw [if_pos hself]
    exact hpaid
  · rename_i hother
    rw [if_neg hother]
    omega

theorem enterPayment_bonded {provider : Address} {paid : Amount} {k : Node}
    (h : enterPayment provider paid ps n s = (.ok k, t)) :
    t.bonded + (s.bondAt n.address).val + paid.val = s.bonded + n.bond.val ∧
      t.held bondAccount = s.held bondAccount := by
  obtain ⟨rest, hrest, h⟩ := Action.compute_bind_eq_ok.1 h
  obtain ⟨height, -, h⟩ := Action.read_bind_eq_ok.1 h
  obtain ⟨_, u, hsaved, h⟩ := Action.bind_eq_ok.1 h
  cases h
  obtain ⟨hbonded, hheld⟩ := Nodes.saveWith_bonded hsaved
  have hsub := Amount.sub_eq_ok_iff.1 hrest
  rw [settled_address, settled_bond] at hbonded
  simp only at hbonded
  exact ⟨by omega, hheld⟩

/-- Whoever has a share is paid out of it, and then the payment is entered. -/
theorem payBack_ok {tx : Transaction} {provider : Address} {amount : Amount} {k : Node}
    (h : payBack tx provider amount n s = (.ok k, t)) (hidle : n.isActive = false) :
    ∃ qs paid u, shares n s = .ok qs ∧ paid = paidOf n.bond amount (qs.bondOf provider) ∧
      (qs.bondOf provider ≠ 0 ∧ payProvider tx n provider paid s = (.ok (), u) ∨
        qs.bondOf provider = 0 ∧ u = s) ∧
      enterPayment provider paid qs n u = (.ok k, t) := by
  unfold payBack at h
  rw [if_neg (Bool.eq_false_iff.1 hidle)] at h
  obtain ⟨ps, hps, h⟩ := Action.read_bind_eq_ok.1 h
  obtain ⟨qs, hqs, h⟩ := Action.compute_bind_eq_ok.1 h
  have hshares := shares_eq_ok.2 ⟨ps, hps, hqs⟩
  split at h
  · rename_i hshare
    obtain ⟨_, u, hpaid, h⟩ := Action.bind_eq_ok.1 h
    exact ⟨qs, _, u, hshares, rfl, .inl ⟨hshare, hpaid⟩, h⟩
  · rename_i hshare
    exact ⟨qs, _, s, hshares, rfl, .inr ⟨Decidable.not_not.1 hshare, rfl⟩, h⟩

theorem payment_eq_ok {tx : Transaction} {provider : Address} {amount paid fee : Amount}
    {qs : Providers} (hqs : shares n s = .ok qs) :
    payment tx provider amount n s = .ok (paid, fee) ↔
      paid = paidOf n.bond amount (qs.bondOf provider) ∧
        (qs.bondOf provider = 0 ∧ fee = 0 ∨ qs.bondOf provider ≠ 0 ∧
          Payout.charge (Payout.withMemo (payoutOf tx provider paid)) s = .ok fee) := by
  obtain ⟨ps, hps, haligned⟩ := shares_eq_ok.1 hqs
  have hread : (liftM (ps.aligned n.bond) : Query Providers) s = .ok qs := by
    rw [Query.compute_run, haligned]
    rfl
  unfold payment
  rw [Query.bind_run, hps]
  simp only [Query.bind_run, hread]
  by_cases hzero : qs.bondOf provider = 0
  · rw [if_pos hzero, hzero, paidOf, if_pos rfl]
    simp [eq_comm]
  · rw [if_neg hzero, Query.bind_eq_ok]
    simp only [hzero, false_and, ne_eq, not_false_eq_true, true_and, false_or]
    constructor
    · rintro ⟨fee, hfee, h⟩
      cases h
      exact ⟨rfl, hfee⟩
    · rintro ⟨rfl, hfee⟩
      exact ⟨fee, hfee, rfl⟩

theorem payBack_bonded {tx : Transaction} {provider : Address} {amount : Amount} {k : Node}
    (h : payBack tx provider amount n s = (.ok k, t)) (hidle : n.isActive = false) :
    ∃ paid fee, payment tx provider amount n s = .ok (paid, fee) ∧ fee.val ≤ paid.val ∧
      t.bonded + (s.bondAt n.address).val + paid.val = s.bonded + n.bond.val ∧
      t.held bondAccount + (if provider = bondAccount then fee.val else paid.val) =
        s.held bondAccount := by
  obtain ⟨qs, paid, u, hqs, hpaidOf, ⟨hshare, hpaid⟩ | ⟨hzero, rfl⟩, hentered⟩ := payBack_ok h hidle
  · obtain ⟨fee, hfee, hle, hheld⟩ := payProvider_held hpaid
    obtain ⟨hbonded, hkept⟩ := enterPayment_bonded hentered
    have hchanges := (payProvider_confined _ _ _ _).changes hpaid
    rw [bonded_of_changes hchanges (by decide), bondAt_of_changes hchanges (by decide)] at hbonded
    refine ⟨paid, fee, (payment_eq_ok hqs).2 ⟨hpaidOf, .inr ⟨hshare, hfee⟩⟩, hle, hbonded, ?_⟩
    rw [hkept]
    exact hheld
  · obtain ⟨hbonded, hheld⟩ := enterPayment_bonded hentered
    have hpaid : paid = 0 := by
      rw [hpaidOf, hzero, paidOf, if_pos rfl]
    rw [hpaid] at hbonded
    refine ⟨0, 0, (payment_eq_ok hqs).2 ⟨hpaid ▸ hpaidOf, .inl ⟨hzero, rfl⟩⟩, Nat.le_refl _,
      hbonded, ?_⟩
    split <;> exact hheld

/-- A withdrawal that succeeds pays back, and dismisses the provider that the operator named. -/
theorem withdraw_ok {m : UnbondRequest} (h : withdraw m s = (.ok (), t)) :
    ∃ n k u v, validateWithdrawal m s = (.ok n, s) ∧
      payBack m.tx (payee m n) m.amount (toppedUp m.tx n) s.checkpointed = (.ok k, u) ∧
      (if (dismissed? m n).isSome ∧ payee m n ≠ n.operator then dismiss n.address (payee m n)
        else pure () : Action Unit) u = (.ok (), v) ∧ v.CommitsTo t := by
  obtain ⟨n, w, hvalidated, hrun⟩ := Action.bind_eq_ok.1 h
  obtain ⟨-, rfl⟩ := validateWithdrawal_eq_ok hvalidated
  obtain ⟨v, hentered, hcommit⟩ := transactionally_ok (enterWithdrawal_confined m n) hrun
  obtain ⟨k, u, hpaid, hdismissed⟩ := Action.bind_eq_ok.1 hentered
  exact ⟨n, k, u, v, hvalidated, hpaid, hdismissed, hcommit⟩

/-- The dismissal at the end of a withdrawal writes lists of providers alone. -/
theorem dismissed_changes {m : UnbondRequest}
    (h : (if (dismissed? m n).isSome ∧ payee m n ≠ n.operator then dismiss n.address (payee m n)
      else pure () : Action Unit) s = (.ok (), t)) : Changes [.providers] s t := by
  have hconfined : Action.Confined [.providers]
      (if (dismissed? m n).isSome ∧ payee m n ≠ n.operator then dismiss n.address (payee m n)
        else pure () : Action Unit) :=
    .ite (fun _ => dismiss_confined _ _) fun _ => .pure ()
  exact hconfined.changes h

/-- A withdrawal adds its RUNE to the records, and takes from both what it pays. -/
theorem withdraw_bonded {m : UnbondRequest} (hs : s.NodesFiled)
    (h : withdraw m s = (.ok (), t)) :
    ∃ n paid fee, Nodes.find? m.node s = .ok (some n) ∧
      payment m.tx (payee m n) m.amount (toppedUp m.tx n) s = .ok (paid, fee) ∧
      fee.val ≤ paid.val ∧
      t.bonded + n.bond.val + paid.val = s.bonded + (toppedUp m.tx n).bond.val ∧
      t.held bondAccount + (if payee m n = bondAccount then fee.val else paid.val) =
        s.held bondAccount := by
  obtain ⟨n, k, u, v, hvalidated, hpaid, hdismissed, hcommit⟩ := withdraw_ok h
  obtain ⟨hfound, hidle⟩ := admitWithdrawal_eq_ok (validateWithdrawal_eq_ok hvalidated).1
  obtain ⟨haddress, -, hactive⟩ := toppedUp_same m.tx n
  obtain ⟨paid, fee, hpayment, hle, hbonded, hheld⟩ := payBack_bonded hpaid (hactive.trans hidle)
  have hchanges := dismissed_changes hdismissed
  have hnode := Nodes.find?_eq_ok.1 hfound
  have hbond : s.checkpointed.bondAt n.address = n.bond := by
    rw [bondAt, get?_checkpointed, ← hs _ n hnode, hnode]
    rfl
  rw [haddress, hbond, bonded_congr (get?_checkpointed s)] at hbonded
  rw [held_congr (get?_checkpointed s)] at hheld
  refine ⟨n, paid, fee, hfound, ?_, hle, ?_, ?_⟩
  · rw [← payment_steady]
    exact hpayment
  · rw [bonded_congr hcommit.get?, bonded_of_changes hchanges (by decide)]
    exact hbonded
  · rw [held_congr hcommit.get?, held_of_changes hchanges (by decide)]
    exact hheld

/-! ## Solvency -/

/-- What the RUNE of a transaction adds to the bond of a node. -/
def added (tx : Transaction) (n : Node) : Nat := (toppedUp tx n).bond.val - n.bond.val

/-- What a withdrawal pays to the account of the bonds itself. -/
def returned (m : UnbondRequest) (n : Node) (s : Ledger) : Nat :=
  match payment m.tx (payee m n) m.amount (toppedUp m.tx n) s with
  | .ok (paid, fee) => if payee m n = bondAccount then paid.val - fee.val else 0
  | .error _ => 0

theorem bond_le_toppedUp (tx : Transaction) (n : Node) : n.bond.val ≤ (toppedUp tx n).bond.val := by
  unfold toppedUp
  split
  · have hlimit := n.bond.isLt
    simp only [Amount.val_plus]
    omega
  · exact Nat.le_refl _

/-- A deposit leaves the bonds covered. A withdrawal leaves them covered exactly if what the account
holds beyond them covers the RUNE that rides along. -/
theorem solvent_after (hs : s.NodesFiled) (hsolvent : s.Solvent) :
    (∀ m t, deposit m s = (.ok (), t) →
      s.held bondAccount + m.bond.val < 0x10000000000000000 → t.Solvent) ∧
    ∀ m t, withdraw m s = (.ok (), t) → ∃ n, Nodes.find? m.node s = .ok (some n) ∧
      (t.Solvent ↔ s.bonded + added m.tx n ≤ s.held bondAccount + returned m n s) := by
  have hcovered : s.bonded ≤ s.held bondAccount := hsolvent
  constructor
  · intro m t hrun hfit
    obtain ⟨hbonded, hheld⟩ := deposit_bonded hs hrun
    rw [Amount.val_plus] at hbonded
    show t.bonded ≤ t.held bondAccount
    omega
  · intro m t hrun
    obtain ⟨n, paid, fee, hfound, hpayment, hfee, hbonded, hheld⟩ := withdraw_bonded hs hrun
    refine ⟨n, hfound, ?_⟩
    have hle := bond_le_toppedUp m.tx n
    have hreturned : returned m n s = if payee m n = bondAccount then paid.val - fee.val else 0 := by
      rw [returned, hpayment]
    rw [hreturned, added]
    show t.bonded ≤ t.held bondAccount ↔ _
    split at hheld
    · rename_i hself
      rw [if_pos hself]
      omega
    · rename_i hother
      rw [if_neg hother]
      omega

instance : Decidable s.Solvent := Nat.decLe _ _

/-- The operator gets some bond back and sends RUNE along. -/
def keeperTopUp : UnbondRequest where
  tx := { keeperTx with coins := [⟨.rune, ⟨0x100000, by decide⟩⟩] }
  node := keeper.address
  amount := ⟨0x18000000, by decide⟩
  bondAddress := keeper.operator
  provider := none
  signer := keeper.operator

theorem keeperTopUp_uncovered :
    keeperLedger.NodesFiled ∧ keeperLedger.Solvent ∧
      ∃ t, withdraw keeperTopUp keeperLedger = (.ok (), t) ∧ ¬ t.Solvent := by
  have hfiled : keeperLedger.NodesFiled := keeperLedger_backed.nodes
  have hsolvent : keeperLedger.Solvent := by decide +kernel
  have hok : (withdraw keeperTopUp keeperLedger).1.isOk = true := by decide +kernel
  have hpair : ∀ p : Except Failure Unit × Ledger, p.1.isOk = true → p = (.ok (), p.2) := by
    rintro ⟨e | _, t⟩ hp
    · cases hp
    · rfl
  have hrun := hpair _ hok
  refine ⟨hfiled, hsolvent, _, hrun, ?_⟩
  obtain ⟨n, hfound, hiff⟩ := (solvent_after hfiled hsolvent).2 _ _ hrun
  have hn : n = keeper := by
    have hkeeper : Nodes.find? keeperTopUp.node keeperLedger = .ok (some keeper) :=
      Nodes.find?_eq_ok.2 (by decide +kernel)
    cases hfound.symm.trans hkeeper
    rfl
  subst hn
  rw [hiff]
  decide +kernel

end Bond

end LiquidityNet
