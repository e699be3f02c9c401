import LiquidityNet.Proofs.Bond.Alignment
import LiquidityNet.Proofs.Bond.Rewards
import LiquidityNet.Proofs.Ledger.Completion
import LiquidityNet.Proofs.Ledger.Room

/-!
# Rewards that are paid to their end

Paying rewards subtracts heights and adds up bonds. This stays in range as long as heights and slash
points count from zero, the providers of each node put up an amount together, and the bonds of all
nodes come to less than half of what amounts reach to. Rewards never break this, since each node's
bond is capped and its providers are brought in line with it.
-/

namespace LiquidityNet

open LiquidityNet.Action Ledger

/-! ## Providers -/

namespace Providers

variable {ps : Providers}

/-- Providers are brought in line with any bond, which covers a fee taken from what one of them
gained. -/
theorem aligned_covers {before : Providers} (hlist : before.list ≠ [])
    (hbefore : before.bonds < 0x10000000000000000) (bond : Amount) :
    ∃ after, before.aligned bond = .ok after ∧ after.bonds = bond.val ∧
      ∀ (share had : Amount) (a : Address),
        (min share ((after.bondOf a).minus had)).val ≤ bond.val := by
  obtain ⟨after, hafter⟩ := aligned_ok hbefore bond
  have hwhole := (aligned_spec hafter).2.2 hlist
  refine ⟨after, hafter, hwhole, fun share had a => ?_⟩
  have hle := after.bondOf_le a
  rw [Amount.val_min, Amount.val_minus]
  omega

theorem withdraw_bonds_le (ps : Providers) (amount : Amount) (a : Address) :
    (ps.withdraw amount a).bonds ≤ ps.bonds := by
  unfold withdraw bonds
  cases hfind : ps.list.find? (·.address == a) with
  | none => exact Nat.le_of_eq (by rw [updateFirst_of_none hfind])
  | some p =>
    have hsum := updateFirst_total (f := (·.minus amount)) hfind
    simp only [Amount.val_minus] at hsum ⊢
    omega

end Providers

namespace Ledger

variable {s t : Ledger} {Ts : List Table}

/-- What the providers of each node put up together is an amount. -/
def ProvidersFit (s : Ledger) : Prop :=
  ∀ a ps, s.get? (Key.providers a) = some (.providers ps) → ps.bonds < 0x10000000000000000

theorem ProvidersFit.of_changes (hs : s.ProvidersFit) (h : Changes Ts s t)
    (hTs : .providers ∉ Ts) : t.ProvidersFit := by
  intro a ps hps
  rw [h.get?_eq (Table.ofKey?_providers a) hTs] at hps
  exact hs a ps hps

theorem ProvidersFit.put (hs : s.ProvidersFit) {ps : Providers}
    (hps : ps.bonds < 0x10000000000000000) :
    (s.putRecord (Key.providers ps.node) (.providers ps)).ProvidersFit := by
  intro a qs hqs
  rw [get?_putRecord] at hqs
  split at hqs
  · cases hqs
    exact hps
  · exact hs a qs hqs

/-- The heights at which outbounds wait to be signed are heights. -/
structure HasWindow (s : Ledger) : Prop where
  height : 0 ≤ s.height
  period : 0 ≤ s.settings.value .signingTransactionPeriod

theorem HasWindow.of_changes (hs : s.HasWindow) (h : Changes Ts s t) : t.HasWindow where
  height := h.height ▸ hs.height
  period := h.settings ▸ hs.period

theorem HasWindow.pendingFaultless {P : Ledger → Prop} (hP : ∀ s, P s → s.HasWindow)
    {period : Signed} :
    (Outbounds.pendingWithin period).Faultless fun s =>
      P s ∧ Governance.value .signingTransactionPeriod s = .ok period := by
  refine .known (p := 0 ≤ period) (fun s hs => ?_) fun hperiod => ?_
  · exact Governance.value_nonneg (hP s hs.1).period hs.2
  · exact Outbounds.pendingWithin_faultless hperiod fun s hs => (hP s hs.1).height

/-- What paying a node relies on. -/
structure Paying (s : Ledger) : Prop extends HasWindow s where
  slashes : s.SlashesCounted
  providers : s.ProvidersFit

theorem Paying.of_changes (hs : s.Paying) (h : Changes Ts s t) (hslashes : .slashes ∉ Ts)
    (hproviders : .providers ∉ Ts) : t.Paying where
  toHasWindow := hs.toHasWindow.of_changes h
  slashes := hs.slashes.of_changes h hslashes
  providers := hs.providers.of_changes h hproviders

theorem Paying.alike (hs : s.Paying) (h : Alike s t) : t.Paying where
  height := h.height ▸ hs.height
  period := h.settings ▸ hs.period
  slashes := hs.slashes.congr h.records
  providers := fun a ps hps => hs.providers a ps (h.records _ ▸ hps)

end Ledger

/-! ## Rewards -/

namespace Bond

variable {s : Ledger} {n : Node} {ps : Providers} {r : RewardRound}

theorem providersOf_faultless {P : Ledger → Prop} (n : Node) : (providersOf n).Faultless P := by
  refine (Nodes.providersOf_faultless _).past fun ps => .ite (fun _ => .pure _) fun _ => ?_
  exact (Governance.amount_faultless _).past fun _ => .pure _

theorem providersOf_fit (hs : s.ProvidersFit) (h : providersOf n s = .ok ps) :
    ps.bonds < 0x10000000000000000 := by
  obtain ⟨stored, hstored, h⟩ := Query.bind_eq_ok.1 h
  unfold backfilled at h
  split at h
  · cases h
    rcases Nodes.providersOf_eq_ok.1 hstored with ⟨-, rfl⟩ | hget
    · exact Nat.zero_lt_of_lt (by decide : 0 < 0x10000000000000000)
    · exact hs _ _ hget
  · obtain ⟨fee, -, h⟩ := Query.bind_eq_ok.1 h
    cases h
    exact n.bond.isLt

theorem serviceOf_ok {height : Height} {slash : Signed} (hheight : 0 ≤ height)
    (hchurn : 0 ≤ r.lastChurn) (hslash : 0 ≤ slash) : ∃ x, serviceOf r height slash = .ok x := by
  refine except_bind_ok (Signed.sub_ok_of_nonneg hheight hchurn) fun passed _ => ?_
  have hblocks : 0 ≤ passed.positivePart := by
    rw [Signed.le_def, Signed.val_positivePart]
    exact Int.le_max_right _ _
  refine except_bind_ok (Signed.sub_ok_of_nonneg hblocks hslash) fun earned _ => ?_
  exact except_bind_ok (Signed.sub_ok_of_nonneg hslash hblocks) fun left _ => ⟨_, rfl⟩

/-- Both records of a node are stored, or neither is. -/
theorem saveWith_paying (n : Node) (hps : ps.bonds < 0x10000000000000000) :
    (Nodes.saveWith n ps).Sustains Paying := by
  refine .of_faultless (Nodes.saveWith_faultless n ps) fun s r t hs hrun => ?_
  rcases Nodes.saveWith_cases hrun with ⟨e, rfl, rfl⟩ | ⟨rfl, rfl⟩
  · exact hs
  · have hnode : Changes [.nodes] s (s.putRecord (Key.node n.address) (.node n)) :=
      changes_putRecord List.mem_cons_self (Table.ofKey?_node _) rfl
    have hu := hs.of_changes hnode (by decide) (by decide)
    have hproviders : Changes [.providers] (s.putRecord (Key.node n.address) (.node n))
        ((s.putRecord (Key.node n.address) (.node n)).putRecord (Key.providers ps.node)
          (.providers ps)) :=
      changes_putRecord List.mem_cons_self (Table.ofKey?_providers _) rfl
    exact ⟨hu.toHasWindow.of_changes hproviders, hu.slashes.of_changes hproviders (by decide),
      hu.providers.put hps⟩

theorem enterReward_paying {before : Providers} (reward operatorBond : Amount)
    (hlist : before.list ≠ []) (hbefore : before.bonds < 0x10000000000000000) :
    (enterReward n reward before operatorBond).Sustains Paying := by
  obtain ⟨after, hafter, hwhole, hfee⟩ :=
    Providers.aligned_covers hlist hbefore (n.bond.plus reward)
  unfold enterReward
  refine .computeThen (fun _ _ => ⟨after, hafter⟩) fun after' hafter' => ?_
  obtain rfl := Except.ok.inj (hafter.symm.trans hafter')
  refine .computeThen (fun _ _ => Amount.sub_ok (hfee _ _ _)) fun rest _ => ?_
  refine (saveWith_paying _ ?_).bind fun _ => .pure fun _ hs => hs
  have hlimit := (n.bond.plus reward).isLt
  exact Nat.lt_of_le_of_lt (after.withdraw_bonds_le _ _) (hwhole ▸ hlimit)

theorem payFee_faultless (n : Node) (fee : Amount) : (payFee n fee).Faultless :=
  .ite (fun _ => (Bank.transfer_faultless _ _ _).bind fun _ => .emit _) fun _ => .pure ()

theorem payReward_paying (hchurn : 0 ≤ r.lastChurn) (t : Network) (n : Node) :
    (payReward r t n).Sustains Paying := by
  have hpast : ∀ s, Paying s → Paying s := fun _ hs => hs
  refine .ite (fun _ => .pure hpast) fun _ => ?_
  refine .readFact (p := (0 ≤ ·)) (Nodes.slashPoints_faultless _) hpast
    (fun s slash hs h => hs.slashes _ _ h) fun slash hslash => ?_
  refine .readFact (p := (0 ≤ ·)) .currentHeight hpast (fun s height hs h => ?_)
    fun height hheight => ?_
  · obtain rfl := Except.ok.inj h
    exact hs.height
  refine .computeThen (fun _ _ => serviceOf_ok hheight hchurn hslash) fun service _ => ?_
  refine .readFact (p := fun ps => ps.bonds < 0x10000000000000000) (providersOf_faultless n) hpast
    (fun s ps hs h => providersOf_fit hs.providers h) fun ps hps => ?_
  refine .computeThen (fun _ _ => Providers.aligned_ok hps n.bond) fun before hbefore => ?_
  split
  · rename_i operator hoperator
    have hlist : before.list ≠ [] := fun hnil => by
      rw [Providers.find?, hnil] at hoperator
      cases hoperator
    have hfit : before.bonds < 0x10000000000000000 := Providers.aligned_fit hps hbefore
    have hslashed : (Nodes.setSlashPoints n.address service.slashLeft).Sustains Paying := by
      refine .of_faultless (.put _ _) fun s r t hs hrun => ?_
      cases hrun
      have hchanges : Changes [.slashes] s (s.putRecord (Key.slash n.address)
          (.number service.slashLeft.positivePart)) :=
        (Nodes.setSlashPoints_confined n.address service.slashLeft).changes rfl
      exact ⟨hs.toHasWindow.of_changes hchanges, hs.slashes.put _ _,
        hs.providers.of_changes hchanges (by decide)⟩
    refine hslashed.bind fun _ => (enterReward_paying _ _ hlist hfit).bind fun fee => ?_
    have hpaid : Confined [.balances] (do
        emit (.bond (rewardOf r n service) .reward .blank (.ofModule Module.bond) n.operator)
        payFee n fee
        return afterReward t (rewardOf r n service) service.blocks : Action Network) :=
      (Confined.emit _).bind fun _ => (payFee_confined n fee).bind fun _ => .pure _
    refine .of_confined ?_ hpaid fun s t hchanges hs =>
      hs.of_changes hchanges (by decide) (by decide)
    exact (Faultless.emit _).bind fun _ => (payFee_faultless n fee).bind fun _ => .pure _
  · exact .refuse hpast

theorem payNode_paying (hchurn : 0 ≤ r.lastChurn) (n : Node) :
    (payNode r n).Sustains Paying := by
  have hsaved : ∀ t, (NetworkState.save t).Sustains Paying := fun t =>
    .of_confined (.put _ _) (NetworkState.save_confined t) fun _ _ hchanges hs =>
      hs.of_changes hchanges (by decide) (by decide)
  have hcounted : Action.Sustains Paying
      (do let t ← NetworkState.get; NetworkState.save (← payReward r t n) : Action Unit) :=
    .pastRead NetworkState.get_faultless (fun _ hs => hs) fun t =>
      (payReward_paying hchurn t n).bind hsaved
  have hpaid : (transactionally
      (do let t ← NetworkState.get; NetworkState.save (← payReward r t n) : Action Unit)).Sustains
      Paying :=
    .transactionally (countedReward_confined r n) hcounted (fun _ _ h hs => hs.alike h)
      (fun _ hs => hs) fun _ _ _ h hs => hs.alike h
  exact hpaid.attempt.bind fun _ => .pure fun _ hs => hs

end Bond

namespace Ledger

variable {s t : Ledger} {ns : List Node} {Ts : List Table}

/-- What paying all nodes relies on. -/
structure Payable (s : Ledger) : Prop extends Paying s where
  complete : s.NodesComplete
  since : ∀ n, s.Stores n → 0 ≤ n.activeSince
  bonds : s.bonded < 0x8000000000000000

theorem Payable.of_changes (hs : s.Payable) (h : Changes Ts s t) (hnodes : .nodes ∉ Ts)
    (hslashes : .slashes ∉ Ts) (hproviders : .providers ∉ Ts) : t.Payable where
  toPaying := hs.toPaying.of_changes h hslashes hproviders
  complete := (hs.complete.viewed (f := .blind).of_changes h hnodes).toNodesComplete
  since := fun n hn => hs.since n ((h.get?_eq (Table.ofKey?_node _) hnodes).symm.trans hn)
  bonds := by
    rw [bonded_of_changes h hnodes]
    exact hs.bonds

theorem Payable.alike (hs : s.Payable) (h : Alike s t) : t.Payable where
  toPaying := hs.toPaying.alike h
  complete := (hs.complete.viewed (f := .blind).congr h.records).toNodesComplete
  since := fun n hn => hs.since n ((h.records _).symm.trans hn)
  bonds := by
    rw [bonded_congr h.records]
    exact hs.bonds

theorem Payable.of_all (hs : s.Payable) (h : Nodes.all s = .ok ns) :
    (∀ n ∈ ns, 0 ≤ n.activeSince) ∧ Amount.total (ns.map (·.bond)) < 0x8000000000000000 := by
  refine ⟨fun n hn => hs.since n ((Nodes.mem_all hs.complete h).1 hn), ?_⟩
  rw [← bonded_eq h]
  exact hs.bonds

end Ledger

theorem Amount.total_min_le {α : Type} (f : α → Amount) (cap : Amount) (xs : List α) :
    total (xs.map fun x => min (f x) cap) ≤ total (xs.map f) := by
  induction xs with
  | nil => exact Nat.le_refl _
  | cons x xs ih =>
    simp only [List.map_cons, total_cons, val_min]
    omega

theorem Amount.length_le_total {α : Type} (f : α → Amount) (xs : List α)
    (h : ∀ x ∈ xs, f x ≠ 0) : xs.length ≤ total (xs.map f) := by
  induction xs with
  | nil => exact Nat.le_refl _
  | cons x xs ih =>
    have hpos : (f x).val ≠ 0 := fun heq => h x List.mem_cons_self (val_inj.1 heq)
    have htail := ih fun y hy => h y (List.mem_cons_of_mem x hy)
    simp only [List.length_cons, List.map_cons, total_cons]
    omega

namespace Bond

/-- The last churn is when the latest of the active nodes became active. -/
theorem rewardRound_ok {active : List Node} (pool : Amount)
    (hsince : ∀ n ∈ active, 0 ≤ n.activeSince)
    (hbonds : Amount.total (active.map (·.bond)) < 0x8000000000000000) :
    ∃ r, rewardRound active pool = .ok r ∧ 0 ≤ r.lastChurn := by
  have hmin := Amount.total_min_le (·.bond) (cap active) active
  have hfit : Amount.total (active.map fun n => min n.bond (cap active)) < 0x10000000000000000 := by
    omega
  obtain ⟨total, htotal⟩ := Amount.sum_ok hfit
  refine ⟨_, except_bind_eq_ok.2 ⟨total, htotal, rfl⟩, ?_⟩
  cases active with
  | nil => exact Signed.le_def.2 (Int.le_refl _)
  | cons n ns =>
    have hfold : ∀ (xs : List Signed) (x : Signed), 0 ≤ x → 0 ≤ xs.foldl max x := by
      intro xs
      induction xs with
      | nil => exact fun _ hx => hx
      | cons y ys ih =>
        intro x hx
        refine ih _ ?_
        rw [Signed.le_def, Signed.val_max]
        exact Int.le_trans (Signed.le_def.1 hx) (Int.le_max_left _ _)
    exact hfold _ _ (hsince n List.mem_cons_self)

theorem payRewards_safe : payRewards.Safe Payable := by
  refine Completes.readFact (p := fun active => (∀ n ∈ active, 0 ≤ n.activeSince) ∧
    Amount.total (active.map (·.bond)) < 0x8000000000000000) Nodes.active_faultless
    (fun _ _ => trivial) (fun s active hs h => ?_) fun active ⟨hsince, hbonds⟩ => ?_
  · obtain ⟨ns, hns, h⟩ := Query.bind_eq_ok.1 h
    cases h
    obtain ⟨hsince, hbonds⟩ := hs.of_all hns
    have hle := Amount.total_filter_le (·.bond) (fun n => n.status = .active) ns
    exact ⟨fun n hn => hsince n (List.mem_filter.1 hn).1, by omega⟩
  · obtain ⟨r, hround, hchurn⟩ := rewardRound_ok 0 hsince hbonds
    refine .computeThen (fun _ _ => ⟨r, hround⟩) fun r' hround' => ?_
    obtain rfl := Except.ok.inj (hround.symm.trans hround')
    refine .pastRead NetworkState.get_faultless (fun _ _ => trivial) fun totals => ?_
    have hpaid : (active.forM (payNode { r with pool := totals.bondReward })).Sustains Paying :=
      .forM fun n _ => payNode_paying (r := { r with pool := totals.bondReward }) hchurn n
    exact hpaid.mono (fun _ hs => hs.toPaying) (fun _ _ _ => trivial) fun _ _ => trivial

end Bond

end LiquidityNet
