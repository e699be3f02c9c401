import LiquidityNet.Proofs.Bond.Solvency
import LiquidityNet.Proofs.Validators.Roster

/-!
# Rewards and the pool they are paid from

Each node's reward is its share of the pool, rounded to the nearest amount. The bonds grow by the
rewards less the operators' fees, which leave the account of the bonds, and the pool shrinks by the
rewards as far as it reaches. Since every share is rounded on its own, together they may exceed the
pool, by at most half a unit for each active node, and then the excess comes from nowhere.
-/

namespace LiquidityNet

open Ledger

/-! ## Shares, rewards and fees -/

def Event.reward : Event → Amount
  | .bond a .reward _ _ _ => a
  | _ => 0

def Event.returned : Event → Amount
  | .bond a .returned _ _ _ => a
  | _ => 0

namespace Bond

/-- The rewards that events tell of. -/
def rewardsIn (es : List Event) : Nat := Amount.total (es.map Event.reward)

/-- The bond that events tell was returned, as operators' fees are. -/
def feesIn (es : List Event) : Nat := Amount.total (es.map Event.returned)

theorem rewardsIn_append (es fs : List Event) :
    rewardsIn (es ++ fs) = rewardsIn es + rewardsIn fs := by
  rw [rewardsIn, List.map_append, Amount.total_append]
  rfl

theorem feesIn_append (es fs : List Event) : feesIn (es ++ fs) = feesIn es + feesIn fs := by
  rw [feesIn, List.map_append, Amount.total_append]
  rfl

end Bond

namespace Ledger

variable {s t : Ledger} {Ts : List Table}

/-- The RUNE set aside for rewards. -/
def rewardPool (s : Ledger) : Nat :=
  match s.get? Key.network with
  | some (.network n) => n.bondReward.val
  | _ => 0

/-- No slash points are negative. -/
def SlashesCounted (s : Ledger) : Prop :=
  ∀ a points, Nodes.slashPoints a s = .ok points → 0 ≤ points

theorem slashPoints_congr {a : Address} (h : t.get? (Key.slash a) = s.get? (Key.slash a)) :
    Nodes.slashPoints a t = Nodes.slashPoints a s := by
  unfold Nodes.slashPoints
  rw [fetchD_run, fetchD_run, fetch?_congr h]

theorem SlashesCounted.congr (hs : s.SlashesCounted) (h : ∀ k, t.get? k = s.get? k) :
    t.SlashesCounted := fun a points hpoints => hs a points (by rwa [← slashPoints_congr (h _)])

theorem SlashesCounted.of_changes (hs : s.SlashesCounted) (h : Changes Ts s t)
    (hTs : .slashes ∉ Ts) : t.SlashesCounted := by
  intro a points hpoints
  rw [slashPoints_congr (h.get?_eq (Table.ofKey?_slash a) hTs)] at hpoints
  exact hs a points hpoints

theorem SlashesCounted.put (hs : s.SlashesCounted) (a : Address) (points : Signed) :
    (s.putRecord (Key.slash a) (.number points.positivePart)).SlashesCounted := by
  intro b q hq
  unfold Nodes.slashPoints at hq
  rcases fetchD_eq_ok.1 hq with ⟨-, rfl⟩ | ⟨r, hr, hread⟩
  · exact Signed.le_def.2 (Int.le_refl _)
  rw [get?_putRecord] at hr
  split at hr
  · cases hr
    cases hread
    rw [Signed.le_def, Signed.val_positivePart]
    exact Int.le_max_right _ _
  · exact hs b q (fetchD_eq_ok.2 (.inr ⟨r, hr, hread⟩))

theorem NodesFiled.of_changes (hs : s.NodesFiled) (h : Changes Ts s t) : t.NodesFiled := by
  intro k n hn
  rcases h.records k with hk | ⟨-, hfiled⟩
  · exact hs k n (hk ▸ hn)
  · exact hfiled _ hn

end Ledger

namespace Bank

variable {es : List Event}

theorem setBalance_keepsEvents (owner : Address) (a : Asset) (x : Amount) :
    (setBalance owner a x).Keeps fun s => s.store.events = es := by
  intro s r t hs hrun
  unfold setBalance record at hrun
  split at hrun <;> cases hrun <;> exact (LayeredStore.events_assign _ _ _).trans hs

theorem transfer_keepsEvents (source target : Address) (coins : List Coin) :
    (transfer source target coins).Keeps fun s => s.store.events = es := by
  refine .forM fun c _ => ?_
  unfold transferCoin
  simp only [Action.refuse_bind]
  refine .pastRead (fun _ hs => hs) fun _ => .ite (fun _ => .refuse fun _ hs => hs) fun _ => ?_
  refine .bind (setBalance_keepsEvents _ _ _) fun _ => ?_
  exact .pastRead (fun _ hs => hs) fun _ => setBalance_keepsEvents _ _ _

end Bank

namespace Bond

variable {s t : Ledger} {n : Node} {r : RewardRound}

/-! ## One node -/

/-- A node of whose blocks none count for more than they are is paid no more than its share. -/
theorem rewardOf_le {height : Height} {slash : Signed} {service : Service} (hslash : 0 ≤ slash)
    (h : serviceOf r height slash = .ok service) :
    (rewardOf r n service).val ≤
      (Share.of (min n.bond r.bondCap) r.totalBond r.pool).val := by
  unfold rewardOf
  split
  · exact Nat.le_refl _
  · refine Share.of_le ?_
    obtain ⟨blocks, -, h⟩ := except_bind_eq_ok.1 h
    obtain ⟨earned, hearned, h⟩ := except_bind_eq_ok.1 h
    obtain ⟨left, -, h⟩ := except_bind_eq_ok.1 h
    cases h
    have hsub := Signed.sub_eq_ok_iff.1 hearned
    have hsign : 0 ≤ slash.val := hslash
    have hlimit := blocks.positivePart.upper
    have hle : earned.positivePart.val.toNat ≤ blocks.positivePart.val.toNat := by
      rw [Signed.val_positivePart]
      omega
    rw [Amount.le_def]
    simp only
    rw [Amount.val_orZero (by omega), Amount.val_orZero (by omega)]
    exact hle

/-- What paying rewards to some nodes makes of a ledger, with the events that tell of it. -/
structure Distributed (r : RewardRound) (ns : List Node) (es : List Event) (s t : Ledger) :
    Prop where
  events : t.store.events = s.store.events ++ es
  bonds : t.bonded + feesIn es = s.bonded + rewardsIn es
  account : (∀ n ∈ ns, n.operator ≠ bondAccount) →
    t.held bondAccount + feesIn es = s.held bondAccount
  /-- Each reward exceeds its exact share by at most one half. -/
  bounded : 2 * r.totalBond.val * rewardsIn es ≤
    2 * r.pool.val * Amount.total (ns.map fun n => min n.bond r.bondCap) +
      r.totalBond.val * ns.length
  idle : r.totalBond = 0 → rewardsIn es = 0
  others : ∀ a, (∀ n ∈ ns, n.address ≠ a) → t.get? (Key.node a) = s.get? (Key.node a)
  filed : t.NodesFiled
  slashes : t.SlashesCounted

theorem Distributed.none (hs : s.NodesFiled) (hslashes : s.SlashesCounted) :
    Distributed r [] [] s s where
  events := (List.append_nil _).symm
  bonds := rfl
  account := fun _ => rfl
  bounded := Nat.zero_le _
  idle := fun _ => rfl
  others := fun _ _ => rfl
  filed := hs
  slashes := hslashes

/-- A node that is passed over counts as paid nothing. -/
theorem Distributed.skipped (hs : s.NodesFiled) (hslashes : s.SlashesCounted) :
    Distributed r [n] [] s s :=
  { Distributed.none (r := r) hs hslashes with
    account := fun _ => rfl
    bounded := Nat.zero_le _
    others := fun _ _ => rfl }

theorem Distributed.append {u : Ledger} {ns ms : List Node} {es fs : List Event}
    (h : Distributed r ns es s t) (h' : Distributed r ms fs t u) :
    Distributed r (ns ++ ms) (es ++ fs) s u where
  events := by rw [h'.events, h.events, List.append_assoc]
  bonds := by
    have hfirst := h.bonds
    have hsecond := h'.bonds
    rw [feesIn_append, rewardsIn_append]
    omega
  account := by
    intro hne
    have hfirst := h.account fun n hn => hne n (List.mem_append_left ms hn)
    have hsecond := h'.account fun n hn => hne n (List.mem_append_right ns hn)
    rw [feesIn_append]
    omega
  bounded := by
    have hfirst := h.bounded
    have hsecond := h'.bounded
    rw [rewardsIn_append, List.map_append, Amount.total_append, List.length_append,
      Nat.mul_add, Nat.mul_add, Nat.mul_add]
    omega
  idle := fun hidle => by rw [rewardsIn_append, h.idle hidle, h'.idle hidle]
  others := by
    intro a ha
    rw [h'.others a fun n hn => ha n (List.mem_append_right ns hn)]
    exact h.others a fun n hn => ha n (List.mem_append_left ms hn)
  filed := h'.filed
  slashes := h'.slashes

/-- A reward is added to the bond of its node, less the operator's fee. -/
theorem enterReward_ok {reward fee operatorBond : Amount} {before : Providers}
    (hs : s.NodesFiled) (hn : s.get? (Key.node n.address) = some (.node n))
    (hfit : n.bond.val + reward.val < 0x10000000000000000)
    (h : enterReward n reward before operatorBond s = (.ok fee, t)) :
    t.bonded + fee.val = s.bonded + reward.val ∧ t.store.events = s.store.events ∧
      (∀ a, n.address ≠ a → t.get? (Key.node a) = s.get? (Key.node a)) ∧ t.NodesFiled := by
  have hfiled := hs.of_changes ((enterReward_confined n reward before operatorBond).changes h)
  obtain ⟨after, -, h⟩ := Action.compute_bind_eq_ok.1 h
  obtain ⟨rest, hrest, h⟩ := Action.compute_bind_eq_ok.1 h
  obtain ⟨_, u, hsaved, h⟩ := Action.bind_eq_ok.1 h
  cases h
  have hbonded := (Nodes.saveWith_bonded hsaved).1
  have hbond : s.bondAt n.address = n.bond := by rw [bondAt, hn]
  have hsub := Amount.sub_eq_ok_iff.1 hrest
  simp only [hbond, Amount.val_plus] at hbonded hsub
  refine ⟨by omega, ?_, fun a ha => ?_, hfiled⟩
  · rcases Nodes.saveWith_cases hsaved with ⟨e, he, -⟩ | ⟨-, rfl⟩
    · cases he
    · exact (LayeredStore.events_assign _ _ _).trans (LayeredStore.events_assign _ _ _)
  · rcases Nodes.saveWith_cases hsaved with ⟨e, he, -⟩ | ⟨-, rfl⟩
    · cases he
    · rw [get?_putRecord, if_neg (Key.node_ne_providers a _), get?_putRecord,
        if_neg fun hkey => ha (Key.node_inj hkey).symm]

/-- The fee leaves the account of the bonds, unless that is the operator's own. -/
theorem payFee_ok {fee : Amount} (h : payFee n fee s = (.ok (), t)) :
    ∃ es, t.store.events = s.store.events ++ es ∧ rewardsIn es = 0 ∧ feesIn es = fee.val ∧
      (n.operator ≠ bondAccount → t.held bondAccount + fee.val = s.held bondAccount) := by
  unfold payFee at h
  split at h
  · obtain ⟨_, u, hpaid, h⟩ := Action.bind_eq_ok.1 h
    cases h
    have hevents : u.store.events = s.store.events :=
      Bank.transfer_keepsEvents _ _ _ s _ u rfl hpaid
    refine ⟨[.bond fee .returned .blank n.address n.operator], ?_, rfl, ?_, fun hne => ?_⟩
    · exact congrArg (· ++ [_]) hevents
    · simp [feesIn, Event.returned]
    · have hheld := Bank.transfer_held_source hpaid
      rw [if_neg (show n.operator ≠ .ofModule Module.bond from hne)] at hheld
      exact hheld
  · rename_i hzero
    cases h
    rw [Decidable.not_not.1 hzero]
    exact ⟨[], (List.append_nil _).symm, rfl, rfl, fun _ => rfl⟩

/-- What a further step leaves of the nodes, the balances and the events keeps what rewards made of
the ledger. -/
theorem Distributed.then {u : Ledger} {ns : List Node} {es : List Event}
    (h : Distributed r ns es s t) (hchanges : Changes [.network] t u)
    (hevents : u.store.events = t.store.events) : Distributed r ns es s u where
  events := hevents.trans h.events
  bonds := by
    rw [bonded_of_changes hchanges (by decide)]
    exact h.bonds
  account := by
    rw [held_of_changes hchanges (by decide)]
    exact h.account
  bounded := h.bounded
  idle := h.idle
  others := fun a ha => by
    rw [hchanges.get?_eq (Table.ofKey?_node a) (by decide)]
    exact h.others a ha
  filed := h.filed.of_changes hchanges
  slashes := h.slashes.of_changes hchanges (by decide)

/-- A checkpoint around them makes no difference to rewards. -/
theorem Distributed.committed {u : Ledger} {ns : List Node} {es : List Event}
    (h : Distributed r ns es s.checkpointed t) (hcommit : t.CommitsTo u) :
    Distributed r ns es s u where
  events := (LayeredStore.events_commit hcommit.1).trans h.events
  bonds := by
    rw [bonded_congr hcommit.get?, ← bonded_congr (get?_checkpointed s)]
    exact h.bonds
  account := by
    rw [held_congr hcommit.get?, ← held_congr (get?_checkpointed s)]
    exact h.account
  bounded := h.bounded
  idle := h.idle
  others := fun a ha => by
    rw [hcommit.get?, ← get?_checkpointed s]
    exact h.others a ha
  filed := fun k m hm => h.filed k m (by rwa [← hcommit.get?])
  slashes := h.slashes.congr hcommit.get?

/-- A node that a round can pay: its bond is part of the total and has room for the whole pool. -/
structure RewardRound.Covers (r : RewardRound) (n : Node) : Prop where
  part : min n.bond r.bondCap ≤ r.totalBond
  room : n.bond.val + r.pool.val < 0x10000000000000000

/-- A payout that goes through does nothing to a node that was never active or has no bond. Else it
enters the slash points that the service leaves, then the reward, and then pays out the fee. -/
theorem payReward_cases {totals totals' : Network}
    (h : payReward r totals n s = (.ok totals', t)) :
    (n.activeSince = 0 ∨ n.bond = 0) ∧ totals' = totals ∧ t = s ∨
      ¬ (n.activeSince = 0 ∨ n.bond = 0) ∧ ∃ slash service ps before operator u fee v w,
        Nodes.slashPoints n.address s = .ok slash ∧
        serviceOf r s.height slash = .ok service ∧
        providersOf n s = .ok ps ∧ ps.aligned n.bond = .ok before ∧
        before.find? n.operator = some operator ∧
        Nodes.setSlashPoints n.address service.slashLeft s = (.ok (), u) ∧
        enterReward n (rewardOf r n service) before operator.bond u = (.ok fee, v) ∧
        Ledger.emit (.bond (rewardOf r n service) .reward .blank (.ofModule Module.bond)
          n.operator) v = (.ok (), w) ∧
        payFee n fee w = (.ok (), t) ∧
        totals' = afterReward totals (rewardOf r n service) service.blocks := by
  unfold payReward at h
  split at h
  · rename_i hidle
    cases h
    exact .inl ⟨hidle, rfl, rfl⟩
  rename_i hserves
  obtain ⟨slash, hslash, h⟩ := Action.read_bind_eq_ok.1 h
  obtain ⟨height, hheight, h⟩ := Action.read_bind_eq_ok.1 h
  obtain rfl := Except.ok.inj hheight
  obtain ⟨service, hservice, h⟩ := Action.compute_bind_eq_ok.1 h
  obtain ⟨ps, hps, h⟩ := Action.read_bind_eq_ok.1 h
  obtain ⟨before, hbefore, h⟩ := Action.compute_bind_eq_ok.1 h
  rcases hoperator : before.find? n.operator with _ | operator <;> simp only [hoperator] at h
  · cases h
  obtain ⟨_, u, hslashed, h⟩ := Action.bind_eq_ok.1 h
  obtain ⟨fee, v, hentered, h⟩ := Action.bind_eq_ok.1 h
  obtain ⟨_, w, hemitted, h⟩ := Action.bind_eq_ok.1 h
  obtain ⟨_, x, hpaid, h⟩ := Action.bind_eq_ok.1 h
  cases h
  exact .inr ⟨hserves, slash, service, ps, before, operator, u, fee, v, w, hslash, hservice, hps,
    hbefore, hoperator, hslashed, hentered, hemitted, hpaid, rfl⟩

theorem payReward_ok {totals totals' : Network} (hs : s.NodesFiled) (hslashes : s.SlashesCounted)
    (hn : s.get? (Key.node n.address) = some (.node n)) (hcovers : r.Covers n)
    (h : payReward r totals n s = (.ok totals', t)) :
    ∃ es, Distributed r [n] es s t ∧
      totals'.bondReward.val = totals.bondReward.val - rewardsIn es := by
  obtain ⟨-, rfl, rfl⟩ | ⟨-, slash, service, ps, before, operatorBefore, u, fee, v, w, hslash,
    hservice, -, -, -, hslashed, hentered, hemitted, hpaid, rfl⟩ := payReward_cases h
  · exact ⟨[], .skipped hs hslashes, rfl⟩
  have hput : u = s.putRecord (Key.slash n.address) (.number service.slashLeft.positivePart) := by
    cases hslashed
    rfl
  have hslashing := (Nodes.setSlashPoints_confined _ _).changes hslashed
  have hentry := (enterReward_confined _ _ _ _).changes hentered
  have hpayment := (payFee_confined n fee).changes hpaid
  have hreward := rewardOf_le (n := n) (hslashes _ _ hslash) hservice
  generalize rewardOf r n service = reward at *
  have hpool : (Share.of (min n.bond r.bondCap) r.totalBond r.pool).val ≤ r.pool.val :=
    Share.of_le hcovers.part
  have hroom := hcovers.room
  have hnode : u.get? (Key.node n.address) = some (.node n) := by
    rw [hslashing.get?_eq (Table.ofKey?_node _) (by decide), hn]
  obtain ⟨hbonds, hsilent, hothers, hfiled⟩ := enterReward_ok (hs.of_changes hslashing) hnode
    (by omega) hentered
  obtain ⟨told, htold, hreturned, hlog⟩ : ∃ told : Event, told.reward = reward ∧
      told.returned = 0 ∧ w.store.events = v.store.events ++ [told] := by
    cases hemitted
    exact ⟨_, rfl, rfl, rfl⟩
  have hget : ∀ k, w.get? k = v.get? k := by
    cases hemitted
    exact fun _ => rfl
  obtain ⟨fees, hevents, hnone, hfees, haccount⟩ := payFee_ok hpaid
  have hrewards : rewardsIn (told :: fees) = reward.val := by
    rw [rewardsIn, List.map_cons, Amount.total_cons, htold]
    exact congrArg (reward.val + ·) hnone
  have hreturns : feesIn (told :: fees) = fee.val := by
    rw [feesIn, List.map_cons, Amount.total_cons, hreturned, Amount.val_zero, Nat.zero_add]
    exact hfees
  refine ⟨told :: fees, ?_, by rw [hrewards]; rfl⟩
  refine ⟨?_, ?_, fun hne => ?_, ?_, fun hidle => ?_, fun a ha => ?_, ?_, ?_⟩
  · have hstart : u.store.events = s.store.events := by
      rw [hput]
      exact LayeredStore.events_assign _ _ _
    rw [hevents, hlog, hsilent, hstart, List.append_assoc, List.singleton_append]
  · rw [hrewards, hreturns, bonded_of_changes hpayment (by decide), bonded_congr hget, hbonds,
      bonded_of_changes hslashing (by decide)]
  · rw [hreturns, haccount (hne n List.mem_cons_self), held_congr hget,
      held_of_changes hentry (by decide), held_of_changes hslashing (by decide)]
  · rw [hrewards]
    have hhalf := Share.of_within_half (min n.bond r.bondCap) r.totalBond r.pool
    have hscaled := Nat.mul_le_mul_left (2 * r.totalBond.val) hreward
    simp only [List.map_cons, List.map_nil, Amount.total_cons, Amount.total_nil, Nat.add_zero,
      List.length_singleton, Nat.mul_one]
    exact Nat.le_trans hscaled hhalf
  · have hzero : (Share.of (min n.bond r.bondCap) r.totalBond r.pool).val = 0 := by
      rw [Share.of, if_pos (.inr hidle)]
      rfl
    omega
  · rw [hpayment.get?_eq (Table.ofKey?_node a) (by decide), hget,
      hothers a (ha n List.mem_cons_self), hslashing.get?_eq (Table.ofKey?_node a) (by decide)]
  · have hkept : w.NodesFiled := fun k m hm => hfiled k m (by rwa [← hget])
    exact hkept.of_changes hpayment
  · have hcounted := hslashes.put n.address service.slashLeft
    rw [← hput] at hcounted
    exact ((hcounted.of_changes hentry (by decide)).congr hget).of_changes hpayment (by decide)

theorem get_rewardPool {totals : Network} (h : NetworkState.get s = .ok totals) :
    totals.bondReward.val = s.rewardPool := by
  unfold rewardPool
  rcases fetchD_eq_ok.1 h with ⟨hnone, rfl⟩ | ⟨rec, hrec, hread⟩
  · rw [hnone]
    rfl
  · rw [hrec]
    cases rec <;> cases hread
    rfl

/-- A node is paid together with the pool that is left, or not at all. -/
theorem payNode_ok (hs : s.NodesFiled) (hslashes : s.SlashesCounted)
    (hn : s.get? (Key.node n.address) = some (.node n)) (hcovers : r.Covers n)
    (h : payNode r n s = (.ok (), t)) :
    ∃ es, Distributed r [n] es s t ∧ t.rewardPool = s.rewardPool - rewardsIn es := by
  obtain ⟨result, u, hattempt, h⟩ := Action.bind_eq_ok.1 h
  cases h
  rcases Action.attempt_eq_ok.1 hattempt with ⟨_, -, hrun⟩ | ⟨e, -, hrun⟩
  rotate_left
  · -- A refusal leaves the ledger as it was.
    have hrestored := Action.Restores.transactionally (countedReward_confined r n) s e t hrun
    subst hrestored
    exact ⟨[], .skipped hs hslashes, rfl⟩
  obtain ⟨v, hbody, hcommit⟩ := transactionally_ok (countedReward_confined r n) hrun
  obtain ⟨totals, htotals, hbody⟩ := Action.read_bind_eq_ok.1 hbody
  obtain ⟨totals', w, hpaid, hsaved⟩ := Action.bind_eq_ok.1 hbody
  have hopen : s.checkpointed.NodesFiled := fun k m hm => hs k m (by rwa [← get?_checkpointed])
  obtain ⟨es, hdistributed, hleft⟩ := payReward_ok hopen
    (hslashes.congr (get?_checkpointed s)) (by rw [get?_checkpointed, hn]) hcovers hpaid
  have hsaving := (NetworkState.save_confined totals').changes hsaved
  have hsilent : v.store.events = w.store.events := by
    cases hsaved
    exact LayeredStore.events_assign _ _ _
  refine ⟨es, (hdistributed.then hsaving hsilent).committed hcommit, ?_⟩
  have hbefore : totals.bondReward.val = s.rewardPool := by
    rw [get_rewardPool htotals, rewardPool, rewardPool, get?_checkpointed]
  have hafter : v.rewardPool = totals'.bondReward.val := by
    have hget : v.get? Key.network = some (.network totals') := by
      cases hsaved
      exact (get?_putRecord w _ _ _).trans (if_pos rfl)
    rw [rewardPool, hget]
  rw [← hbefore, ← hleft, ← hafter, rewardPool, rewardPool, hcommit.get?]

/-! ## All nodes -/

/-- The nodes still to be paid are as they were when the round began. -/
theorem payNodes_ok {ns : List Node} (hs : s.NodesFiled) (hslashes : s.SlashesCounted)
    (hns : ∀ n ∈ ns, s.get? (Key.node n.address) = some (.node n))
    (hdistinct : ns.Pairwise fun m n => m.address ≠ n.address) (hcovers : ∀ n ∈ ns, r.Covers n)
    (h : ns.forM (payNode r) s = (.ok (), t)) :
    ∃ es, Distributed r ns es s t ∧ t.rewardPool = s.rewardPool - rewardsIn es := by
  induction ns generalizing s with
  | nil =>
    cases h
    exact ⟨[], .none hs hslashes, rfl⟩
  | cons n ns ih =>
    obtain ⟨hnew, hdistinct⟩ := List.pairwise_cons.1 hdistinct
    obtain ⟨_, u, hfirst, hrest⟩ := Action.bind_eq_ok.1 h
    obtain ⟨es, hpaid, hpool⟩ := payNode_ok hs hslashes (hns n List.mem_cons_self)
      (hcovers n List.mem_cons_self) hfirst
    have hstored : ∀ m ∈ ns, u.get? (Key.node m.address) = some (.node m) := by
      intro m hm
      rw [hpaid.others m.address fun k hk => ?_]
      · exact hns m (List.mem_cons_of_mem n hm)
      · obtain rfl := List.mem_singleton.1 hk
        exact hnew m hm
    obtain ⟨fs, hpaid', hpool'⟩ := ih hpaid.filed hpaid.slashes hstored hdistinct
      (fun m hm => hcovers m (List.mem_cons_of_mem n hm)) hrest
    refine ⟨es ++ fs, hpaid.append hpaid', ?_⟩
    rw [hpool', hpool, rewardsIn_append, Nat.sub_sub]

theorem payNode_answers (r : RewardRound) (n : Node) : (payNode r n).Answers :=
  (Action.Answers.attempt _).bind fun _ => .pure ()

/-- A call is refused before anybody is paid. -/
theorem payRewards_refused {e : Error} (h : payRewards s = (.error (.refused e), t)) : t = s := by
  have hyields : payRewards.Yields (fun u => u = s) (fun _ _ => True) fun u => u = s := by
    unfold payRewards
    refine .pastRead (fun _ hu => hu) fun active => ?_
    refine .bind (S := fun _ u => u = s) ?_ fun round => .pastRead (fun _ hu => hu) fun totals => ?_
    · intro u r v hu hrun
      rw [Action.compute_run] at hrun
      cases hround : rewardRound active 0 <;> rw [hround] at hrun <;> cases hrun
      · trivial
      · exact hu
    · have hpaid : (active.forM (payNode { round with pool := totals.bondReward })).Answers :=
        .forM fun n _ => payNode_answers _ n
      exact hpaid.mono (fun _ _ => trivial) (fun _ _ _ => trivial) fun _ hfalse => hfalse.elim
  exact hyields s _ t rfl h

theorem rewardRound_eq_ok {active : List Node} {pool : Amount}
    (h : rewardRound active pool = .ok r) :
    r.totalBond.val = Amount.total (active.map fun n => min n.bond r.bondCap) := by
  obtain ⟨total, htotal, h⟩ := except_bind_eq_ok.1 h
  cases h
  exact Amount.sum_eq_ok htotal

theorem payRewards_run {active : List Node} {totals : Network} (hactive : Nodes.active s = .ok active)
    (hround : rewardRound active 0 = .ok r) (htotals : NetworkState.get s = .ok totals) :
    payRewards s = active.forM (payNode { r with pool := totals.bondReward }) s := by
  unfold payRewards
  rw [Action.read_bind_run, hactive]
  dsimp only
  rw [hround, Action.bind_run, Action.compute_run]
  show (liftM NetworkState.get >>= _ : Action Unit) s = _
  rw [Action.read_bind_run, htotals]

/-- The round of a call is paid out to all active nodes. -/
theorem payRewards_distributes (hs : s.NodesFiled) (hslashes : s.SlashesCounted)
    (hfit : s.bonded + s.rewardPool < 0x10000000000000000) (h : payRewards s = (.ok (), t)) :
    ∃ active r es, Nodes.active s = .ok active ∧ r.pool.val = s.rewardPool ∧
      r.totalBond.val = Amount.total (active.map fun n => min n.bond r.bondCap) ∧
      Distributed r active es s t ∧ t.rewardPool = s.rewardPool - rewardsIn es := by
  obtain ⟨active, hactive, h⟩ := Action.read_bind_eq_ok.1 h
  obtain ⟨round, hround, h⟩ := Action.compute_bind_eq_ok.1 h
  obtain ⟨totals, htotals, h⟩ := Action.read_bind_eq_ok.1 h
  have hpool := get_rewardPool htotals
  have htotal := rewardRound_eq_ok hround
  obtain ⟨ns, hns, hfiltered⟩ := Query.bind_eq_ok.1 hactive
  have hmember : ∀ n ∈ active, n ∈ ns := by
    cases hfiltered
    exact fun n hn => (List.mem_filter.1 hn).1
  have hdistinct : active.Pairwise fun m n => m.address ≠ n.address := by
    cases hfiltered
    refine ((Nodes.all_sorted_of_filed hs hns).filter _).imp fun {m n} hlt heq => ?_
    rw [heq] at hlt
    exact String.lt_irrefl _ hlt
  have hcovers : ∀ n ∈ active, { round with pool := totals.bondReward : RewardRound }.Covers n := by
    intro n hn
    constructor
    · rw [Amount.le_def, htotal]
      exact Amount.le_total (List.mem_map_of_mem hn)
    · have hle : n.bond.val ≤ s.bonded := by
        rw [bonded_eq hns]
        exact Amount.le_total (List.mem_map_of_mem (hmember n hn))
      show n.bond.val + totals.bondReward.val < _
      omega
  obtain ⟨es, hpaid, hleft⟩ := payNodes_ok hs hslashes
    (fun n hn => Nodes.get?_of_mem_all hs hns (hmember n hn)) hdistinct hcovers h
  exact ⟨active, { round with pool := totals.bondReward }, es, hactive, hpool, htotal, hpaid, hleft⟩

/-- The rewards of a round exceed its pool by at most half a unit for each node. -/
theorem Distributed.rewards_le {active : List Node} {es : List Event}
    (h : Distributed r active es s t)
    (htotal : r.totalBond.val = Amount.total (active.map fun n => min n.bond r.bondCap)) :
    2 * rewardsIn es ≤ 2 * r.pool.val + active.length := by
  by_cases hidle : r.totalBond = 0
  · rw [h.idle hidle]
    exact Nat.zero_le _
  have hpos : 0 < r.totalBond.val := Nat.pos_of_ne_zero fun hzero => hidle (Amount.val_inj.1 hzero)
  have hbounded := h.bounded
  rw [← htotal] at hbounded
  refine Nat.le_of_mul_le_mul_left ?_ hpos
  calc r.totalBond.val * (2 * rewardsIn es) = 2 * r.totalBond.val * rewardsIn es := by ac_rfl
    _ ≤ 2 * r.pool.val * r.totalBond.val + r.totalBond.val * active.length := hbounded
    _ = r.totalBond.val * (2 * r.pool.val + active.length) := by
      rw [Nat.mul_add]
      ac_rfl

/-- A call that no fault ends leaves bonds, pool and fees together as they were exactly if the
rewards it credits do not exceed the pool. They exceed it by at most half a unit for each active
node. -/
theorem rewards_conserved_iff (hs : s.NodesFiled) (hslashes : s.SlashesCounted)
    (hfit : s.bonded + s.rewardPool < 0x10000000000000000) {result : Except Failure Unit}
    (hresult : ∀ f, result ≠ .error (.fault f)) (h : payRewards s = (result, t)) :
    ∃ active es, (result = .ok () → Nodes.active s = .ok active) ∧
      t.store.events = s.store.events ++ es ∧
      t.bonded + feesIn es = s.bonded + rewardsIn es ∧
      t.rewardPool = s.rewardPool - rewardsIn es ∧
      ((∀ n ∈ active, n.operator ≠ bondAccount) →
        t.held bondAccount + feesIn es = s.held bondAccount) ∧
      (t.bonded + t.rewardPool + feesIn es = s.bonded + s.rewardPool ↔
        rewardsIn es ≤ s.rewardPool) ∧
      2 * rewardsIn es ≤ 2 * s.rewardPool + active.length := by
  rcases result with (e | f) | _
  · obtain rfl := payRewards_refused h
    refine ⟨[], [], nofun, (List.append_nil _).symm, rfl, rfl, fun _ => rfl, ?_, Nat.zero_le _⟩
    exact ⟨fun _ => Nat.zero_le _, fun _ => rfl⟩
  · exact absurd rfl (hresult f)
  obtain ⟨active, r, es, hactive, hpool, htotal, hpaid, hleft⟩ :=
    payRewards_distributes hs hslashes hfit h
  have hbonds := hpaid.bonds
  have hle := hpaid.rewards_le htotal
  rw [hpool] at hle
  refine ⟨active, es, fun _ => hactive, hpaid.events, hbonds, hleft, hpaid.account, ?_, hle⟩
  omega

/-! ## Three nodes of one bond -/

def trio : List Node :=
  ["alva", "bela", "cleo"].map fun name =>
    Fixture.node name .active oneRune 1

/-- Three nodes share a pool of two units, of which each earns two thirds. -/
def trioLedger : Ledger :=
  (ofNodes (.ofEnvironment .mocknet) (.clamp 11) trio).putRecord Key.network
    (.network { Network.initial with bondReward := .cap 2 })

theorem trioLedger_changes :
    Changes [.nodes, .network] (empty (.ofEnvironment .mocknet) (.clamp 11)) trioLedger :=
  ((ofNodes_changes _ _ _).mono (by decide)).trans
    (changes_putRecord (T := .network) (by decide) Table.ofKey?_network rfl)

def trioRound : RewardRound := ⟨1, .cap 2, .cap 300000000, oneRune⟩

theorem cap_trio : cap trio = oneRune := by
  unfold cap
  rw [List.mergeSort_of_pairwise (by decide)]
  rfl

theorem trio_round : rewardRound trio 0 = .ok { trioRound with pool := 0 } := by
  unfold rewardRound
  rw [cap_trio]
  rfl

theorem trioLedger_rewards :
    payRewards trioLedger = trio.forM (payNode trioRound) trioLedger := by
  have hactive : Nodes.active trioLedger = .ok trio := eq_ok_of_toOption (by decide +kernel)
  have htotals : NetworkState.get trioLedger =
      .ok { Network.initial with bondReward := .cap 2 } :=
    eq_ok_of_toOption (by decide +kernel)
  rw [payRewards_run hactive trio_round htotals]
  exact congrArg (fun r => trio.forM (payNode r) trioLedger) (rfl : _ = trioRound)

/-- One unit more is credited than was in the pool. -/
theorem trio_gains_one :
    trioLedger.NodesFiled ∧ trioLedger.SlashesCounted ∧
      trioLedger.bonded + trioLedger.rewardPool < 0x10000000000000000 ∧
      ∃ t es, payRewards trioLedger = (.ok (), t) ∧
        t.store.events = trioLedger.store.events ++ es ∧ rewardsIn es = 3 ∧
        t.bonded + t.rewardPool + feesIn es = trioLedger.bonded + trioLedger.rewardPool + 1 := by
  have hfiled : trioLedger.NodesFiled := by
    refine NodesFiled.of_changes (fun k n hn => ?_) trioLedger_changes
    cases hn
  have hslashes : trioLedger.SlashesCounted := by
    refine SlashesCounted.of_changes (fun a points hpoints => ?_) trioLedger_changes (by decide)
    cases hpoints
    exact Signed.le_def.2 (Int.le_refl _)
  have hfit : trioLedger.bonded + trioLedger.rewardPool < 0x10000000000000000 := by decide +kernel
  have houtcome : (trio.forM (payNode trioRound) trioLedger).1.toOption = some () ∧
      rewardsIn (trio.forM (payNode trioRound) trioLedger).2.store.events = 3 ∧
      trioLedger.store.events = [] ∧ trioLedger.rewardPool = 2 := by
    decide +kernel
  rw [← trioLedger_rewards] at houtcome
  obtain ⟨hok, hcredited, hsilent, hpool⟩ := houtcome
  have hrun : payRewards trioLedger = (.ok (), (payRewards trioLedger).2) :=
    Prod.ext (eq_ok_of_toOption hok) rfl
  have hfaultless : ∀ f, (.ok () : Except Failure Unit) ≠ .error (.fault f) := fun _ => nofun
  obtain ⟨active, es, -, hevents, hbonds, hleft, -, -, -⟩ :=
    rewards_conserved_iff hfiled hslashes hfit hfaultless hrun
  rw [hevents, hsilent, List.nil_append] at hcredited
  refine ⟨hfiled, hslashes, hfit, _, es, hrun, hevents, hcredited, ?_⟩
  rw [hleft, hcredited, hpool]
  omega

end Bond

end LiquidityNet
