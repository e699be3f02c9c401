import LiquidityNet.Proofs.Bond.Completion

/-!
# Payouts that do not depend on each other

Each node of a round is paid in a checkpoint of its own. What a payout enters depends on the node's
own records, on what the round is about and, where the node has no providers, on the operator's fee
in force, but on no other node. So it makes no difference to a node in which order the nodes are
paid and which of the others could not be paid.
-/

namespace LiquidityNet

open Ledger

/-! ## The records of one node -/

theorem Key.slash_inj {a b : Address} (h : slash a = slash b) : a = b := by
  have htext : a.text = b.text := append_cancel h
  cases a
  cases b
  exact congrArg Address.mk htext

namespace Ledger

variable {a b : Address} {s t u : Ledger} {Ts : List Table}

/-- Two ledgers have the same records of a node, its providers and its slash points. -/
structure SameAt (a : Address) (s t : Ledger) : Prop where
  node : t.get? (Key.node a) = s.get? (Key.node a)
  providers : t.get? (Key.providers a) = s.get? (Key.providers a)
  slash : t.get? (Key.slash a) = s.get? (Key.slash a)

theorem SameAt.refl (a : Address) (s : Ledger) : SameAt a s s := ⟨rfl, rfl, rfl⟩

theorem SameAt.trans (h : SameAt a s t) (h' : SameAt a t u) : SameAt a s u :=
  ⟨h'.node.trans h.node, h'.providers.trans h.providers, h'.slash.trans h.slash⟩

theorem SameAt.of_get? (h : ∀ k, t.get? k = s.get? k) : SameAt a s t := ⟨h _, h _, h _⟩

theorem SameAt.of_changes (h : Changes Ts s t)
    (hTs : ∀ T ∈ [Table.nodes, .providers, .slashes], T ∉ Ts) : SameAt a s t :=
  ⟨h.get?_eq (Table.ofKey?_node a) (hTs _ (by decide)),
    h.get?_eq (Table.ofKey?_providers a) (hTs _ (by decide)),
    h.get?_eq (Table.ofKey?_slash a) (hTs _ (by decide))⟩

/-- A record under a key that is none of a node's own leaves those as they are. -/
theorem sameAt_putRecord {k : String} (r : Record) (hnode : k ≠ Key.node a)
    (hproviders : k ≠ Key.providers a) (hslash : k ≠ Key.slash a) :
    SameAt a s (s.putRecord k r) := by
  constructor <;> rw [get?_putRecord, if_neg (Ne.symm ‹_›)]

end Ledger

theorem Key.apart_of_ofKey? {k q : String} {T U : Table} (hk : Table.ofKey? k = some T)
    (hq : Table.ofKey? q = some U) (h : T ≠ U) : k ≠ q := by
  rintro rfl
  exact h (Option.some.inj (hk.symm.trans hq))

namespace Bond

variable {a : Address} {s t u v : Ledger} {n : Node} {r : RewardRound}

/-! ## What a payout leaves alone -/

/-- The records of a node as a fixed ledger has them. -/
def Spares (a : Address) (s u : Ledger) : Prop := u.Filed ∧ SameAt a s u

theorem Spares.of_confined {α : Type} {Ts : List Table} {body : Action α}
    (hbody : body.Confined Ts) (hTs : ∀ T ∈ [Table.nodes, .providers, .slashes], T ∉ Ts) :
    body.Keeps (Spares a s) :=
  .of_confined hbody fun _ _ hchanges hs =>
    ⟨hchanges.filed hs.1, hs.2.trans (.of_changes hchanges hTs)⟩

theorem setSlashPoints_spares (hne : n.address ≠ a) (points : Signed) :
    (Nodes.setSlashPoints n.address points).Keeps (Spares a s) := by
  rintro u x v ⟨hfiled, hsame⟩ hrun
  have hchanges := (Nodes.setSlashPoints_confined n.address points).changes hrun
  cases hrun
  refine ⟨hchanges.filed hfiled, hsame.trans (sameAt_putRecord (.number _) ?_ ?_ ?_)⟩
  · exact Key.apart_of_ofKey? (Table.ofKey?_slash _) (Table.ofKey?_node a) (by decide)
  · exact Key.apart_of_ofKey? (Table.ofKey?_slash _) (Table.ofKey?_providers a) (by decide)
  · exact fun hkey => hne (Key.slash_inj hkey)

theorem saveWith_spares {ps : Providers} (hne : n.address ≠ a) (hps : ps.node = n.address) :
    (Nodes.saveWith n ps).Keeps (Spares a s) := by
  rintro u x v ⟨hfiled, hsame⟩ hrun
  have hchanges := (Nodes.saveWith_confined n ps).changes hrun
  rcases Nodes.saveWith_cases hrun with ⟨e, rfl, rfl⟩ | ⟨rfl, rfl⟩
  · exact ⟨hfiled, hsame⟩
  refine ⟨hchanges.filed hfiled, hsame.trans ?_⟩
  have hnode : SameAt a u (u.putRecord (Key.node n.address) (.node n)) := by
    refine sameAt_putRecord _ (fun hkey => hne (Key.node_inj hkey)) ?_ ?_
    · exact Key.apart_of_ofKey? (Table.ofKey?_node _) (Table.ofKey?_providers a) (by decide)
    · exact Key.apart_of_ofKey? (Table.ofKey?_node _) (Table.ofKey?_slash a) (by decide)
  refine hnode.trans (sameAt_putRecord _ ?_ (fun hkey => hne ?_) ?_)
  · exact Key.apart_of_ofKey? (Table.ofKey?_providers _) (Table.ofKey?_node a) (by decide)
  · exact hps.symm.trans (Key.providers_inj hkey)
  · exact Key.apart_of_ofKey? (Table.ofKey?_providers _) (Table.ofKey?_slash a) (by decide)

theorem stored_node {ps : Providers} (hs : s.Filed) (h : Nodes.providersOf a s = .ok ps) :
    ps.node = a := by
  rcases Nodes.providersOf_eq_ok.1 h with ⟨-, rfl⟩ | hget
  · rfl
  · exact (Key.providers_inj (hs _ _ hget)).symm

theorem providersOf_node {ps : Providers} (hs : s.Filed) (h : providersOf n s = .ok ps) :
    ps.node = n.address := by
  obtain ⟨stored, hstored, h⟩ := Query.bind_eq_ok.1 h
  have hnode := stored_node hs hstored
  unfold backfilled at h
  split at h
  · cases h
    exact hnode
  · obtain ⟨fee, -, h⟩ := Query.bind_eq_ok.1 h
    cases h
    exact hnode

theorem enterReward_spares {before : Providers} (hne : n.address ≠ a)
    (hnode : before.node = n.address) (reward operatorBond : Amount) :
    (enterReward n reward before operatorBond).Keeps (Spares a s) := by
  have hpast : ∀ u, Spares a s u → Spares a s u := fun _ hs => hs
  refine .computeThen hpast fun after hafter => .computeThen hpast fun rest _ => ?_
  refine .bind (saveWith_spares (n := { n with bond := rest }) hne ?_) fun _ => .pure hpast
  exact (Providers.aligned_spec hafter).1.trans hnode

/-- A payout leaves all other nodes alone. -/
theorem payReward_spares (hne : n.address ≠ a) (r : RewardRound) (totals : Network) :
    (payReward r totals n).Keeps (Spares a s) := by
  have hpast : ∀ u, Spares a s u → Spares a s u := fun _ hs => hs
  refine .ite (fun _ => .pure hpast) fun _ => .pastRead hpast fun _ => .pastRead hpast fun _ => ?_
  refine .computeThen hpast fun service _ => .readFact (p := fun ps => ps.node = n.address) hpast
    (fun u ps hs hps => providersOf_node hs.1 hps) fun ps hps => ?_
  refine .computeThen hpast fun before hbefore => ?_
  have hnode := (Providers.aligned_spec hbefore).1.trans hps
  have hsilent : ∀ T ∈ [Table.nodes, .providers, .slashes], T ∉ ([] : List Table) :=
    fun _ _ => List.not_mem_nil
  split
  · refine (setSlashPoints_spares hne _).bind fun _ =>
      (enterReward_spares hne hnode _ _).bind fun fee => ?_
    refine .bind (Spares.of_confined (Action.Confined.emit _) hsilent) fun _ => ?_
    refine .bind (Spares.of_confined (payFee_confined n fee) (by decide)) fun _ => ?_
    exact .pure hpast
  · exact .refuse hpast

theorem payNode_spares (hne : n.address ≠ a) (r : RewardRound) :
    (payNode r n).Keeps (Spares a s) :=
  payNode_keeps_of (payReward_spares hne r)
    (fun t => Spares.of_confined (NetworkState.save_confined t) (by decide))
    fun _ _ h hs => ⟨fun k r hr => hs.1 k r (h k ▸ hr), hs.2.trans (.of_get? h)⟩

/-! ## What a payout enters -/

/-- The records of a node that a reward is entered into. -/
structure Rewarded where
  node : Node
  providers : Providers
  slash : Signed

/-- The providers of a node, with the operator's fee in force where it has none. -/
def backedBy (operatorFee : Amount) (n : Node) (ps : Providers) : Providers :=
  if ps.list ≠ [] then ps else { ps with operatorFee, list := [⟨n.operator, n.bond⟩] }

/-- What a reward makes of the records of a node that has been active and has some bond; nothing if
its operator is not among its providers. -/
def rewarded (r : RewardRound) (height : Height) (n : Node) (ps : Providers) (slash : Signed) :
    Except Fault (Option Rewarded) := do
  let service ← serviceOf r height slash
  let before ← ps.aligned n.bond
  match before.find? n.operator with
  | none => return none
  | some operatorBefore =>
    let bond := n.bond.plus (rewardOf r n service)
    let after ← before.aligned bond
    let gain := (after.bondOf n.operator).minus operatorBefore.bond
    let fee := min (Share.within after.operatorFee basisPoints (rewardOf r n service)) gain
    let rest ← bond.sub fee
    return some ⟨{ n with bond := rest }, after.withdraw fee n.operator,
      service.slashLeft.positivePart⟩

/-- A ledger has the records of a node as a reward left them. -/
structure Rewarded.ShownBy (x : Rewarded) (a : Address) (t : Ledger) : Prop where
  node : t.get? (Key.node a) = some (.node x.node)
  providers : t.get? (Key.providers a) = some (.providers x.providers)
  slash : t.get? (Key.slash a) = some (.number x.slash)

theorem Rewarded.ShownBy.of_sameAt {x : Rewarded} (h : x.ShownBy a s) (hsame : SameAt a s t) :
    x.ShownBy a t :=
  ⟨hsame.node.trans h.node, hsame.providers.trans h.providers, hsame.slash.trans h.slash⟩

theorem backfilled_run (n : Node) (ps : Providers) (s : Ledger) :
    ∃ fee, Governance.amount .nodeOperatorFee s = .ok fee ∧
      backfilled n ps s = .ok (backedBy fee n ps) := by
  obtain ⟨v, hv⟩ := Governance.valueAtLeast_ok .nodeOperatorFee 0 s
  have hfee : Governance.amount .nodeOperatorFee s = .ok (.orZero v.val.toNat) :=
    Query.bind_eq_ok.2 ⟨v, hv, rfl⟩
  refine ⟨_, hfee, ?_⟩
  unfold backfilled backedBy
  split
  · rfl
  · rw [Query.bind_run, hfee]
    rfl

theorem enterReward_run {reward fee operatorBond : Amount} {before : Providers}
    (hnode : before.node = n.address)
    (h : enterReward n reward before operatorBond s = (.ok fee, t)) :
    ∃ after rest, before.aligned (n.bond.plus reward) = .ok after ∧
      min (Share.within after.operatorFee basisPoints reward)
        ((after.bondOf n.operator).minus operatorBond) = fee ∧
      (n.bond.plus reward).sub fee = .ok rest ∧
      t.get? (Key.node n.address) = some (.node { n with bond := rest }) ∧
      t.get? (Key.providers n.address) = some (.providers (after.withdraw fee n.operator)) := by
  obtain ⟨after, hafter, h⟩ := Action.compute_bind_eq_ok.1 h
  obtain ⟨rest, hrest, h⟩ := Action.compute_bind_eq_ok.1 h
  obtain ⟨_, u, hsaved, h⟩ := Action.bind_eq_ok.1 h
  cases h
  have hkey : after.node = n.address := (Providers.aligned_spec hafter).1.trans hnode
  rcases Nodes.saveWith_cases hsaved with ⟨e, he, -⟩ | ⟨-, rfl⟩
  · cases he
  refine ⟨after, rest, hafter, rfl, hrest, ?_, ?_⟩
  · rw [get?_putRecord, if_neg (Key.node_ne_providers _ _), get?_putRecord, if_pos rfl]
  · exact (get?_putRecord _ _ _ _).trans (if_pos (by rw [← hkey]; rfl))

/-- A payout that goes through leaves its node as it is, where the node has not been active or has
no bond, and else leaves what the reward makes of it. -/
theorem payReward_run {totals totals' : Network} (hs : s.Filed)
    (h : payReward r totals n s = (.ok totals', t)) :
    (n.activeSince = 0 ∨ n.bond = 0) ∧ t = s ∨
      ¬ (n.activeSince = 0 ∨ n.bond = 0) ∧ ∃ stored fee slash x,
        Nodes.providersOf n.address s = .ok stored ∧
        Governance.amount .nodeOperatorFee s = .ok fee ∧
        Nodes.slashPoints n.address s = .ok slash ∧
        rewarded r s.height n (backedBy fee n stored) slash = .ok (some x) ∧
        x.ShownBy n.address t := by
  obtain ⟨hidle, -, rfl⟩ | ⟨hserves, slash, service, ps, before, operatorBefore, u, fee, v, w,
    hslash, hservice, hps, hbefore, hoperator, hslashed, hentered, hemitted, hpay, -⟩ :=
      payReward_cases h
  · exact .inl ⟨hidle, rfl⟩
  refine .inr ⟨hserves, ?_⟩
  have hpaid : Changes [.balances] v t :=
    (Action.Confined.changes (.emit _) hemitted).trans ((payFee_confined n fee).changes hpay)
  have hnode := (Providers.aligned_spec hbefore).1.trans (providersOf_node hs hps)
  obtain ⟨after, rest, hafter, hfee, hrest, hstored, hproviders⟩ := enterReward_run hnode hentered
  have hslashes : v.get? (Key.slash n.address) =
      some (.number service.slashLeft.positivePart) := by
    rw [((enterReward_confined _ _ _ _).changes hentered).get?_eq (Table.ofKey?_slash _)
      (by decide)]
    cases hslashed
    exact (get?_putRecord _ _ _ _).trans (if_pos rfl)
  have hshown : Rewarded.ShownBy ⟨{ n with bond := rest }, after.withdraw fee n.operator,
      service.slashLeft.positivePart⟩ n.address v := ⟨hstored, hproviders, hslashes⟩
  obtain ⟨stored, hread, hbacked⟩ := Query.bind_eq_ok.1 hps
  obtain ⟨operatorFee, hinForce, hrun⟩ := backfilled_run n stored s
  obtain rfl := Except.ok.inj (hbacked.symm.trans hrun)
  refine ⟨stored, operatorFee, slash, _, hread, hinForce, hslash, ?_,
    hshown.of_sameAt (.of_changes hpaid (by decide))⟩
  refine except_bind_eq_ok.2 ⟨service, hservice, except_bind_eq_ok.2 ⟨before, hbefore, ?_⟩⟩
  rw [hoperator]
  refine except_bind_eq_ok.2 ⟨after, hafter, except_bind_eq_ok.2 ⟨rest, ?_, ?_⟩⟩
  · rw [hfee, hrest]
  · rw [hfee]
    rfl

/-! ## No fault -/

/-- What a payout to a node computes with are numbers: what its providers put up, and the blocks
that it served. -/
structure Counts (r : RewardRound) (n : Node) (s : Ledger) : Prop where
  providers : ∀ ps, Nodes.providersOf n.address s = .ok ps → ps.bonds < 0x10000000000000000
  service : n.activeSince ≠ 0 → n.bond ≠ 0 → ∀ slash, Nodes.slashPoints n.address s = .ok slash →
    ∃ x, serviceOf r s.height slash = .ok x

theorem stored_congr {a : Address} (h : SameAt a s t) :
    Nodes.providersOf a t = Nodes.providersOf a s := by
  unfold Nodes.providersOf
  rw [fetchD_run, fetchD_run, fetch?_congr h.providers]

theorem Counts.congr (h : Counts r n s) (hheight : t.height = s.height)
    (hsame : SameAt n.address s t) : Counts r n t where
  providers := fun ps hps => h.providers ps (by rwa [← stored_congr hsame])
  service := by
    rw [hheight, slashPoints_congr hsame.slash]
    exact h.service

theorem enterReward_safe {before : Providers} (n : Node) (reward operatorBond : Amount)
    (hlist : before.list ≠ []) (hbefore : before.bonds < 0x10000000000000000) :
    (enterReward n reward before operatorBond).Safe fun _ => True := by
  obtain ⟨after, hafter, -, hfee⟩ :=
    Providers.aligned_covers hlist hbefore (n.bond.plus reward)
  refine .computeThen (fun _ _ => ⟨after, hafter⟩) fun after' hafter' => ?_
  obtain rfl := Except.ok.inj (hafter.symm.trans hafter')
  refine .computeThen (fun _ _ => Amount.sub_ok (hfee _ _ _)) fun rest _ => ?_
  exact Action.Safe.of_faultless ((Nodes.saveWith_faultless _ _).bind fun _ => .pure _)

theorem payReward_safe (r : RewardRound) (totals : Network) (n : Node) :
    (payReward r totals n).Safe (Counts r n) := by
  refine .ite (fun _ => .pure fun _ _ => trivial) fun hserves => ?_
  obtain ⟨hactive, hbond⟩ := not_or.1 hserves
  refine .readThen (Nodes.slashPoints_faultless _) (fun _ _ => trivial) fun slash => ?_
  refine .readThen .currentHeight (fun _ _ => trivial) fun height => ?_
  refine .computeThen (fun s hs => ?_) fun service _ => ?_
  · obtain rfl := Except.ok.inj hs.2
    exact hs.1.1.service hactive hbond slash hs.1.2
  refine .readFact (p := fun ps => ps.bonds < 0x10000000000000000) (providersOf_faultless n)
    (fun _ _ => trivial) (fun s ps hs hps => ?_) fun ps hps => ?_
  · obtain ⟨stored, hstored, hps⟩ := Query.bind_eq_ok.1 hps
    obtain ⟨fee, -, hrun⟩ := backfilled_run n stored s
    obtain rfl := Except.ok.inj (hps.symm.trans hrun)
    unfold backedBy
    split
    · exact hs.1.1.providers stored hstored
    · exact n.bond.isLt
  refine .computeThen (fun _ _ => Providers.aligned_ok hps n.bond) fun before hbefore => ?_
  split
  · rename_i operator hoperator
    have hlist : before.list ≠ [] := fun hnil => by
      rw [Providers.find?, hnil] at hoperator
      cases hoperator
    refine .bind (S := fun _ _ => True) (Action.Safe.of_faultless (.put _ _)) fun _ => ?_
    refine .bind (S := fun _ _ => True)
      (enterReward_safe n _ _ hlist (Providers.aligned_fit hps hbefore)) fun fee => ?_
    exact Action.Safe.of_faultless
      ((Action.Faultless.emit _).bind fun _ => (payFee_faultless n fee).bind fun _ => .pure _)
  · exact .refuse fun _ _ => trivial

/-- What pays a node, in a checkpoint of its own. -/
def payout (r : RewardRound) (n : Node) : Action Unit := do
  let t ← NetworkState.get
  NetworkState.save (← payReward r t n)

theorem payNode_eq (r : RewardRound) (n : Node) :
    payNode r n = (do let _ ← attempt (transactionally (payout r n))) := rfl

theorem payout_safe (r : RewardRound) (n : Node) : (payout r n).Safe (Counts r n) := by
  refine .pastRead NetworkState.get_faultless (fun _ _ => trivial) fun t => ?_
  exact .bind (S := fun _ _ => True) (payReward_safe r t n) fun _ =>
    Action.Safe.of_faultless (.put _ _)

/-! ## One node's turn -/

/-- What becomes of a node of a round: it is as it was before the round if its payout failed or it
had nothing to earn, and else it is as the reward leaves what it was before the round. -/
inductive Turn (r : RewardRound) (s : Ledger) (n : Node) (t : Ledger) : Except Failure Unit → Prop
  | failed {e : Error} (same : SameAt n.address s t) : Turn r s n t (.error (.refused e))
  | idle (idle : n.activeSince = 0 ∨ n.bond = 0) (same : SameAt n.address s t) :
    Turn r s n t (.ok ())
  | paid {stored : Providers} {fee : Amount} {slash : Signed} {x : Rewarded}
    (serves : ¬ (n.activeSince = 0 ∨ n.bond = 0))
    (providers : Nodes.providersOf n.address s = .ok stored)
    (operatorFee : Governance.amount .nodeOperatorFee s = .ok fee)
    (slashPoints : Nodes.slashPoints n.address s = .ok slash)
    (reward : rewarded r s.height n (backedBy fee n stored) slash = .ok (some x))
    (shown : x.ShownBy n.address t) : Turn r s n t (.ok ())

theorem Turn.then {result : Except Failure Unit} (h : Turn r s n t result)
    (hsame : SameAt n.address t u) : Turn r s n u result := by
  cases h with
  | failed same => exact .failed (same.trans hsame)
  | idle idle same => exact .idle idle (same.trans hsame)
  | paid serves providers operatorFee slashPoints reward shown =>
    exact .paid serves providers operatorFee slashPoints reward (shown.of_sameAt hsame)

/-- What a round may have changed when the turn of a node comes. -/
structure Awaits (s : Ledger) (n : Node) (u : Ledger) : Prop where
  changes : Changes (.network :: rewardTables) s u
  same : SameAt n.address s u

theorem Awaits.amount_eq (h : Awaits s n u) (x : Setting) :
    Governance.amount x u = Governance.amount x s :=
  Governance.amount_congr h.changes.settings
    (h.changes.get?_eq (Table.ofKey?_mimir _) (by decide))

theorem payout_turn (hs : s.Filed) (hcounts : Counts r n s) (h : Awaits s n u)
    {result : Except Failure Unit} (hrun : transactionally (payout r n) u = (result, v)) :
    Turn r s n v result := by
  have hsafe : (transactionally (payout r n)).Safe (Counts r n) :=
    (payout_safe r n).transactionally (countedReward_confined r n) fun s t halike hs =>
      hs.congr halike.height (.of_get? halike.records)
  rcases result with (e | f) | _
  · obtain rfl := Action.Restores.transactionally (countedReward_confined r n) u e v hrun
    exact .failed h.same
  · exact (hsafe u _ v (hcounts.congr h.changes.height h.same) hrun).elim
  obtain ⟨w, hbody, hcommit⟩ := transactionally_ok (countedReward_confined r n) hrun
  obtain ⟨totals, -, hbody⟩ := Action.read_bind_eq_ok.1 hbody
  obtain ⟨totals', x, hpaid, hsaved⟩ := Action.bind_eq_ok.1 hbody
  -- Neither the checkpoint around the payout nor the network's totals concern the node.
  have hend : SameAt n.address x v :=
    (SameAt.of_changes ((NetworkState.save_confined totals').changes hsaved) (by decide)).trans
      (.of_get? hcommit.get?)
  have hopen : SameAt n.address s u.checkpointed :=
    h.same.trans (.of_get? (get?_checkpointed u))
  have hfiled := (h.changes.filed hs).checkpointed
  rcases payReward_run hfiled hpaid with
    ⟨hidle, rfl⟩ | ⟨hserves, stored, fee, slash, y, hstored, hfee, hslash, hreward, hshown⟩
  · exact .idle hidle (hopen.trans hend)
  · rw [stored_congr hopen] at hstored
    rw [slashPoints_congr hopen.slash] at hslash
    have hfee : Governance.amount .nodeOperatorFee s = .ok fee := by
      rw [← h.amount_eq]
      exact hfee
    have hheight : u.checkpointed.height = s.height := h.changes.height
    rw [hheight] at hreward
    exact .paid hserves hstored hfee hslash hreward (hshown.of_sameAt hend)

/-! ## All turns -/

theorem payNode_run (r : RewardRound) (n : Node) (s : Ledger) :
    (∀ f, (transactionally (payout r n) s).1 ≠ .error (.fault f)) →
      payNode r n s = (.ok (), (transactionally (payout r n) s).2) := by
  intro hsafe
  rw [payNode_eq, Action.bind_run]
  unfold attempt
  rcases hrun : transactionally (payout r n) s with ⟨(e | f) | _, t⟩
  · rfl
  · exact absurd (congrArg Prod.fst hrun) (hsafe f)
  · rfl

/-- Nodes of different addresses are paid one after the other, each as it was before. -/
theorem payNodes_turns {ns : List Node} {x : Except Failure Unit} (hs : s.Filed)
    (hcounts : ∀ n ∈ ns, Counts r n s) (hdistinct : ns.Pairwise fun m n => m.address ≠ n.address)
    (hawaits : ∀ n ∈ ns, Awaits s n u) (h : ns.forM (payNode r) u = (x, t)) :
    x = .ok () ∧ ∀ before n after, ns = before ++ n :: after → ∃ w result v,
      before.forM (payNode r) u = (.ok (), w) ∧
        transactionally (payout r n) w = (result, v) ∧ Turn r s n t result := by
  induction ns generalizing u with
  | nil =>
    cases h
    exact ⟨rfl, fun before n after hsplit => by cases before <;> cases hsplit⟩
  | cons m ns ih =>
    obtain ⟨hother, hdistinct⟩ := List.pairwise_cons.1 hdistinct
    have hawait := hawaits m List.mem_cons_self
    rcases hrun : transactionally (payout r m) u with ⟨result, v⟩
    have hturn := payout_turn hs (hcounts m List.mem_cons_self) hawait hrun
    have hfirst : payNode r m u = (.ok (), v) := by
      rw [payNode_run r m u, hrun]
      rw [hrun]
      rintro f rfl
      cases hturn
    have hchanges := (payNode_confined r m).changes hfirst
    have hstart : ∀ ms, (m :: ms).forM (payNode r) u = ms.forM (payNode r) v := by
      intro ms
      show (payNode r m >>= fun _ => ms.forM (payNode r)) u = _
      rw [Action.bind_run, hfirst]
    have hrest : ns.forM (payNode r) v = (x, t) := (hstart ns).symm.trans h
    have hfiled := hawait.changes.filed hs
    have hawaits' : ∀ n ∈ ns, Awaits s n v := fun n hn =>
      ⟨hawait.changes.trans hchanges, (hawaits n (List.mem_cons_of_mem m hn)).same.trans
        (payNode_spares (hother n hn) r u _ v ⟨hfiled, .refl n.address u⟩ hfirst).2⟩
    obtain ⟨hok, hturns⟩ :=
      ih (fun n hn => hcounts n (List.mem_cons_of_mem m hn)) hdistinct hawaits' hrest
    refine ⟨hok, fun before n after hsplit => ?_⟩
    cases before with
    | nil =>
      cases hsplit
      have hspared : (ns.forM (payNode r)).Keeps (Spares m.address v) :=
        .forM fun k hk => payNode_spares (fun heq => hother k hk heq.symm) r
      have hlater := hspared v _ t ⟨hchanges.filed hfiled, .refl _ _⟩ hrest
      rw [hok] at hlater
      exact ⟨u, result, v, rfl, hrun, hturn.then hlater.2⟩
    | cons k before =>
      cases hsplit
      obtain ⟨w, result', y, hbefore, hpaid, hlast⟩ := hturns before n after rfl
      exact ⟨w, result', y, (hstart before).trans hbefore, hpaid, hlast⟩

/-! ## A round -/

/-- The pool is all that the sums of a round are not about. -/
theorem rewardRound_of_pool {active : List Node} {pool : Amount}
    (h : rewardRound active pool = .ok r) (pool' : Amount) :
    rewardRound active pool' = .ok { r with pool := pool' } := by
  obtain ⟨total, htotal, h⟩ := except_bind_eq_ok.1 h
  cases h
  exact except_bind_eq_ok.2 ⟨total, htotal, rfl⟩

/-- The blocks since the last churn are a number, and so is how they compare with slash points. -/
structure BlocksFit (height lastChurn slash : Signed) : Prop where
  lower : -0x8000000000000000 ≤ height.val - lastChurn.val
  upper : height.val - lastChurn.val < 0x8000000000000000
  less : -0x8000000000000000 < max (height.val - lastChurn.val) 0 - slash.val
  more : max (height.val - lastChurn.val) 0 - slash.val < 0x8000000000000000

/-- The sums and differences of a round are numbers: the bonds that count, what the providers of
each node put up, and the blocks since the last churn beside the slash points of each node. -/
structure RoundFits (s : Ledger) : Prop where
  bonds : ∀ active, Nodes.active s = .ok active →
    Amount.total (active.map fun n => min n.bond (cap active)) < 0x10000000000000000
  providers : ∀ active, Nodes.active s = .ok active → ∀ n ∈ active, ∀ ps,
    Nodes.providersOf n.address s = .ok ps → ps.bonds < 0x10000000000000000
  blocks : ∀ active r, Nodes.active s = .ok active → rewardRound active 0 = .ok r →
    ∀ n ∈ active, n.activeSince ≠ 0 → n.bond ≠ 0 → ∀ slash,
      Nodes.slashPoints n.address s = .ok slash → BlocksFit s.height r.lastChurn slash

theorem RoundFits.of_reads {active : List Node} (hactive : Nodes.active s = .ok active)
    (hround : rewardRound active 0 = .ok r)
    (hproviders : ∀ n ∈ active, ((Nodes.providersOf n.address s).toOption.map
      fun ps => decide (ps.bonds < 0x10000000000000000)) = some true)
    (hblocks : ∀ n ∈ active, ∃ slash, Nodes.slashPoints n.address s = .ok slash ∧
      BlocksFit s.height r.lastChurn slash) : RoundFits s where
  bonds := fun active' hactive' => by
    obtain rfl := Except.ok.inj (hactive.symm.trans hactive')
    obtain ⟨total, htotal, -⟩ := except_bind_eq_ok.1 hround
    exact Amount.sum_eq_ok htotal ▸ total.isLt
  providers := fun active' hactive' n hn ps hps => by
    obtain rfl := Except.ok.inj (hactive.symm.trans hactive')
    have hfit := hproviders n hn
    rw [hps] at hfit
    exact of_decide_eq_true (Option.some.inj hfit)
  blocks := fun active' r' hactive' hround' n hn _ _ slash hslash => by
    obtain rfl := Except.ok.inj (hactive.symm.trans hactive')
    obtain rfl := Except.ok.inj (hround.symm.trans hround')
    obtain ⟨slash', hslash', hfits⟩ := hblocks n hn
    obtain rfl := Except.ok.inj (hslash'.symm.trans hslash)
    exact hfits

theorem serviceOf_fits {height : Height} {slash : Signed}
    (h : BlocksFit height r.lastChurn slash) : ∃ x, serviceOf r height slash = .ok x := by
  have hless := h.less
  have hmore := h.more
  refine except_bind_ok (Signed.sub_ok h.lower h.upper) fun passed hpassed => ?_
  have hpassed := Signed.sub_eq_ok_iff.1 hpassed
  rw [hpassed] at hless hmore
  refine except_bind_ok (Signed.sub_ok ?_ ?_) fun earned _ =>
    except_bind_ok (Signed.sub_ok ?_ ?_) fun left _ => ⟨_, rfl⟩
  all_goals
    rw [Signed.val_positivePart]
    omega

theorem active_spec {active : List Node} (hs : s.Filed) (h : Nodes.active s = .ok active) :
    (active.Pairwise fun m n => m.address ≠ n.address) ∧
      ∀ n ∈ active, s.get? (Key.node n.address) = some (.node n) ∧ n.isActive = true := by
  have hfiled : s.NodesFiled := fun k _ hk => hs k _ hk
  obtain ⟨ns, hns, hlisted⟩ := Query.bind_eq_ok.1 h
  cases hlisted
  refine ⟨((Nodes.all_sorted_of_filed hfiled hns).filter _).imp fun {m n} hlt heq => ?_,
    fun n hn => ?_⟩
  · rw [heq] at hlt
    exact String.lt_irrefl _ hlt
  · obtain ⟨hmem, hactive⟩ := List.mem_filter.1 hn
    exact ⟨Nodes.get?_of_mem_all hfiled hns hmem, beq_iff_eq.2 (of_decide_eq_true hactive)⟩

/-- A call is refused before anybody is paid, or pays the nodes of a round one after the other. -/
theorem payRewards_cases (hfits : RoundFits s) {x : Except Failure Unit}
    (h : payRewards s = (x, t)) :
    (∃ e, x = .error (.refused e) ∧ t = s) ∨
      ∃ active totals r, Nodes.active s = .ok active ∧ NetworkState.get s = .ok totals ∧
        rewardRound active totals.bondReward = .ok r ∧ active.forM (payNode r) s = (x, t) := by
  rcases hactive : Nodes.active s with (e | f) | active
  · unfold payRewards at h
    rw [Action.read_bind_run, hactive] at h
    cases h
    exact .inl ⟨e, rfl, rfl⟩
  · exact absurd hactive (Nodes.active_faultless (P := fun _ => True) s f trivial)
  obtain ⟨r, hr⟩ : ∃ r, rewardRound active 0 = .ok r :=
    except_bind_ok (Amount.sum_ok (hfits.bonds active hactive)) fun _ _ => ⟨_, rfl⟩
  rcases htotals : NetworkState.get s with (e | f) | totals
  · unfold payRewards at h
    rw [Action.read_bind_run, hactive] at h
    dsimp only at h
    rw [hr, Action.bind_run, Action.compute_run] at h
    replace h : (liftM NetworkState.get >>= _ : Action Unit) s = (x, t) := h
    rw [Action.read_bind_run, htotals] at h
    cases h
    exact .inl ⟨e, rfl, rfl⟩
  · exact absurd htotals (NetworkState.get_faultless (P := fun _ => True) s f trivial)
  rw [payRewards_run hactive hr htotals] at h
  exact .inr ⟨active, totals, _, rfl, rfl, rewardRound_of_pool hr totals.bondReward, h⟩

/-- Nodes that are paid one after the other each have their turn. -/
def HaveTurns (r : RewardRound) (s t : Ledger) (ns : List Node) : Prop :=
  ∀ before n after, ns = before ++ n :: after → ∃ u result v,
    before.forM (payNode r) s = (.ok (), u) ∧
      transactionally (payout r n) u = (result, v) ∧ Turn r s n t result

theorem RoundFits.counts {active : List Node} {pool : Amount} (h : RoundFits s)
    (hactive : Nodes.active s = .ok active) (hround : rewardRound active pool = .ok r) :
    ∀ n ∈ active, Counts r n s := by
  refine fun n hn => ⟨h.providers active hactive n hn, fun hsince hbond slash hslash => ?_⟩
  have hzero := rewardRound_of_pool hround 0
  exact serviceOf_fits (h.blocks active _ hactive hzero n hn hsince hbond slash hslash)

/-- A round of payouts comes to an end with as many checkpoints open as before, and changes nothing
if it is refused. It leaves the records of all nodes alone that are not active. Each active node has
its turn, in which its payout fails and leaves its records as they were, or goes through and leaves
what the reward makes of what they were before the round. That is so in any order of the nodes. -/
theorem payouts_independent (hs : s.Filed) (hfits : RoundFits s) {x : Except Failure Unit}
    (h : payRewards s = (x, t)) :
    (∀ f, x ≠ .error (.fault f)) ∧ t.store.depth = s.store.depth ∧ (x ≠ .ok () → t = s) ∧
      (∀ a, (∀ n, s.get? (Key.node a) = some (.node n) → n.isActive = false) → SameAt a s t) ∧
      (x = .ok () → ∃ active totals r, Nodes.active s = .ok active ∧
        NetworkState.get s = .ok totals ∧ rewardRound active totals.bondReward = .ok r ∧
        HaveTurns r s t active ∧ ∀ ns, active.Perm ns →
          ∃ u, ns.forM (payNode r) s = (.ok (), u) ∧ HaveTurns r s u ns) := by
  rcases payRewards_cases hfits h with
    ⟨e, rfl, rfl⟩ | ⟨active, totals, r, hactive, htotals, hround, hrun⟩
  · exact ⟨fun _ => nofun, rfl, fun _ => rfl, fun a _ => .refl a t, nofun⟩
  obtain ⟨hdistinct, hstored⟩ := active_spec hs hactive
  have hordered : ∀ ns, active.Perm ns →
      ∃ u, ns.forM (payNode r) s = (.ok (), u) ∧ HaveTurns r s u ns := by
    intro ns hperm
    rcases hpaid : ns.forM (payNode r) s with ⟨y, u⟩
    obtain ⟨rfl, hturns⟩ := payNodes_turns hs
      (fun n hn => hfits.counts hactive hround n (hperm.mem_iff.2 hn))
      ((hperm.pairwise_iff fun hne => Ne.symm hne).1 hdistinct)
      (fun n _ => ⟨.refl _ s, .refl n.address s⟩) hpaid
    exact ⟨u, rfl, hturns⟩
  obtain ⟨u, hlisted, hturns⟩ := hordered active (.refl _)
  obtain ⟨rfl, rfl⟩ := Prod.mk.inj (hlisted.symm.trans hrun)
  have hpaid : (active.forM (payNode r)).Confined (.network :: rewardTables) :=
    .forM fun n _ => payNode_confined r n
  refine ⟨fun _ => nofun, hpaid.depth hrun fun _ => nofun, fun hne => absurd rfl hne,
    fun a ha => ?_, fun _ => ⟨active, totals, r, hactive, htotals, hround, hturns, hordered⟩⟩
  have hspared : (active.forM (payNode r)).Keeps (Spares a s) := by
    refine .forM fun n hn => payNode_spares ?_ r
    rintro rfl
    obtain ⟨hget, hisActive⟩ := hstored n hn
    rw [ha n hget] at hisActive
    cases hisActive
  exact (hspared s _ u ⟨hs, .refl a s⟩ hrun).2

/-! ## A round that two of three nodes are not paid in -/

/-- Some nodes share a pool of 300 units; the operator's fee is in parts of ten thousand. -/
def roundLedger (ns : List Node) (fee : Signed) (funds : Amount) : Ledger :=
  (((ofNodes (.ofEnvironment .mocknet) (.clamp 11) ns).putRecord Key.network
    (.network { Network.initial with bondReward := .cap 300 })).putRecord
      (Key.mimir Setting.nodeOperatorFee.name) (.number fee)).putRecord
        (Key.balance bondAccount .rune) (.amount funds)

theorem roundLedger_filed {ns : List Node} {fee : Signed} {funds : Amount} :
    (roundLedger ns fee funds).Filed := by
  have hnodes : ∀ u : Ledger, u.Filed →
      (ns.foldl (fun s n => s.putRecord (Key.node n.address) (.node n)) u).Filed := by
    induction ns with
    | nil => exact fun _ hu => hu
    | cons n ns ih => exact fun u hu => ih _ (hu.putRecord rfl)
  refine (((hnodes _ (filed_empty _ _)).putRecord ?_).putRecord ?_).putRecord ?_
  · rfl
  · exact ⟨.mimirs, by decide, Table.ofKey?_mimir _⟩
  · exact ⟨.balances, by decide, Table.ofKey?_balance _ _⟩

def alva : Node := Fixture.node "alva" .active oneRune 1

def bela : Node := Fixture.node "bela" .active oneRune 1

def cleo : Node := Fixture.node "cleo" .active oneRune 1

/-- The operator of one node is not among its providers, and the module of bonds can pay the fee
of one operator only. -/
def draughtLedger : Ledger :=
  (roundLedger trio (.clamp 5000) (.cap 50)).putRecord (Key.providers bela.address)
    (.providers ⟨bela.address, 0, [⟨alva.operator, oneRune⟩]⟩)

def draughtRound : RewardRound := { trioRound with pool := .cap 300 }

theorem draught_active : Nodes.active draughtLedger = .ok trio :=
  eq_ok_of_toOption (by decide +kernel)

theorem draught_fits : RoundFits draughtLedger := by
  refine .of_reads draught_active trio_round (fun n hn => ?_) fun n hn => ?_
  · have hfit : ∀ n ∈ trio, ((Nodes.providersOf n.address draughtLedger).toOption.map
        fun ps => decide (ps.bonds < 0x10000000000000000)) = some true := by
      decide +kernel
    exact hfit n hn
  · have hslash : ∀ n ∈ trio, (Nodes.slashPoints n.address draughtLedger).toOption = some 0 := by
      decide +kernel
    exact ⟨0, eq_ok_of_toOption (hslash n hn), by constructor <;> decide⟩

theorem draught_pays_one :
    draughtLedger.Filed ∧ RoundFits draughtLedger ∧ ∃ t, payRewards draughtLedger = (.ok (), t) ∧
      t.store.depth = draughtLedger.store.depth ∧
      t.get? (Key.node alva.address) = some (.node { alva with bond := .cap 100000050 }) ∧
      SameAt bela.address draughtLedger t ∧ SameAt cleo.address draughtLedger t := by
  have hfiled : draughtLedger.Filed := roundLedger_filed.putRecord rfl
  have htotals : NetworkState.get draughtLedger =
      .ok { Network.initial with bondReward := .cap 300 } :=
    eq_ok_of_toOption (by decide +kernel)
  have hround : rewardRound trio (.cap 300) = .ok draughtRound := by
    unfold rewardRound
    rw [cap_trio]
    rfl
  have hruns : (trio.forM (payNode draughtRound) draughtLedger).1.toOption = some () ∧
      (transactionally (payout draughtRound alva) draughtLedger).1.toOption = some () ∧
      (transactionally (payout draughtRound bela)
        ([alva].forM (payNode draughtRound) draughtLedger).2).1.toOption = none ∧
      (transactionally (payout draughtRound cleo)
        ([alva, bela].forM (payNode draughtRound) draughtLedger).2).1.toOption = none := by
    decide +kernel
  obtain ⟨hok, halva, hbela, hcleo⟩ := hruns
  have hrun := payRewards_run draught_active trio_round htotals
  rcases hend : payRewards draughtLedger with ⟨x, t⟩
  obtain ⟨-, hdepth, -, -, hturns⟩ := payouts_independent hfiled draught_fits hend
  obtain rfl : x = .ok () := by
    refine eq_ok_of_toOption ?_
    rw [← hok]
    exact congrArg (fun run => (run.1.toOption : Option Unit)) (hend.symm.trans hrun)
  obtain ⟨active, totals, r, hactive, hget, hr, hturns, -⟩ := hturns rfl
  obtain rfl := Except.ok.inj (draught_active.symm.trans hactive)
  obtain rfl := Except.ok.inj (htotals.symm.trans hget)
  obtain rfl := Except.ok.inj (hround.symm.trans hr)
  refine ⟨hfiled, draught_fits, t, rfl, hdepth, ?_, ?_, ?_⟩
  · obtain ⟨u, result, v, hbefore, hpaid, hturn⟩ := hturns [] alva [bela, cleo] rfl
    cases hbefore
    rw [hpaid] at halva
    obtain rfl : result = .ok () := eq_ok_of_toOption halva
    cases hturn with
    | idle idle same => exact absurd idle (by decide)
    | paid serves providers operatorFee slashPoints reward shown =>
      have hstored : Nodes.providersOf alva.address draughtLedger = .ok (.empty alva.address) :=
        eq_ok_of_toOption (by decide +kernel)
      have hfee : Governance.amount .nodeOperatorFee draughtLedger = .ok (.cap 5000) :=
        eq_ok_of_toOption (by decide +kernel)
      have hslash : Nodes.slashPoints alva.address draughtLedger = .ok 0 :=
        eq_ok_of_toOption (by decide +kernel)
      obtain rfl := Except.ok.inj (hstored.symm.trans providers)
      obtain rfl := Except.ok.inj (hfee.symm.trans operatorFee)
      obtain rfl := Except.ok.inj (hslash.symm.trans slashPoints)
      have hbond : (rewarded draughtRound draughtLedger.height alva
          (backedBy (.cap 5000) alva (.empty alva.address)) 0).toOption.map
            (·.map (·.node)) = some (some { alva with bond := .cap 100000050 }) := by
        decide +kernel
      rw [reward] at hbond
      rw [shown.node]
      exact congrArg (some ∘ Record.node) (Option.some.inj (Option.some.inj hbond))
  · obtain ⟨u, result, v, hbefore, hpaid, hturn⟩ := hturns [alva] bela [cleo] rfl
    obtain rfl : _ = u := congrArg Prod.snd hbefore
    rw [hpaid] at hbela
    cases hturn with
    | failed same => exact same
    | idle idle same => exact same
    | paid => cases hbela
  · obtain ⟨u, result, v, hbefore, hpaid, hturn⟩ := hturns [alva, bela] cleo [] rfl
    obtain rfl : _ = u := congrArg Prod.snd hbefore
    rw [hpaid] at hcleo
    cases hturn with
    | failed same => exact same
    | idle idle same => exact same
    | paid => cases hcleo

/-! ## The operator's fee in force -/

def soloLedger (fee : Signed) : Ledger := roundLedger [alva] fee (.cap 1000)

def soloTotals : Network := { Network.initial with bondReward := .cap 300 }

def soloRound : RewardRound := ⟨1, .cap 300, oneRune, oneRune⟩

theorem solo_round (pool : Amount) :
    rewardRound [alva] pool = .ok { soloRound with pool := pool } := by
  unfold rewardRound cap
  rw [List.mergeSort_of_pairwise (by decide)]
  rfl

theorem soloLedger_reads : ∀ fee ∈ [(0 : Signed), .clamp 5000],
    (Nodes.active (soloLedger fee)).toOption = some [alva] ∧
      (NetworkState.get (soloLedger fee)).toOption = some soloTotals ∧
      (Nodes.providersOf alva.address (soloLedger fee)).toOption = some (.empty alva.address) ∧
      (Nodes.slashPoints alva.address (soloLedger fee)).toOption = some 0 := by
  decide +kernel

theorem soloLedger_fits {fee : Signed} (hfee : fee ∈ [(0 : Signed), .clamp 5000]) :
    RoundFits (soloLedger fee) := by
  obtain ⟨hactive, -, hproviders, hslash⟩ := soloLedger_reads fee hfee
  refine .of_reads (eq_ok_of_toOption hactive) (solo_round 0) (fun n hn => ?_) fun n hn => ?_
  all_goals obtain rfl := List.mem_singleton.1 hn
  · rw [hproviders]
    decide
  · have hblocks : BlocksFit (.clamp 11) soloRound.lastChurn 0 := by constructor <;> decide
    exact ⟨0, eq_ok_of_toOption hslash, hblocks⟩

/-- The whole reward goes to the bond where operators take no fee, and half of it where they take
half. -/
theorem soloLedger_paid : ∀ x ∈ [((0 : Signed), 100000300), (.clamp 5000, 100000150)],
    ([alva].forM (payNode soloRound) (soloLedger x.1)).1.toOption = some () ∧
      ([alva].forM (payNode soloRound) (soloLedger x.1)).2.get? (Key.node alva.address) =
        some (.node { alva with bond := .cap x.2 }) := by
  decide +kernel

/-- What a node has after a payout is not determined by what it had before, by the round and by the
height: without providers of its own, it also depends on the operator's fee in force. -/
theorem payout_depends_on_fee :
    ¬ ∃ bondAfter : Node → Providers → Signed → RewardRound → Height → Amount,
      ∀ s t active totals r n stored slash m, s.Filed → RoundFits s → payRewards s = (.ok (), t) →
        Nodes.active s = .ok active → NetworkState.get s = .ok totals →
        rewardRound active totals.bondReward = .ok r → n ∈ active →
        Nodes.providersOf n.address s = .ok stored → Nodes.slashPoints n.address s = .ok slash →
        t.get? (Key.node n.address) = some (.node m) →
        m = n ∨ m.bond = bondAfter n stored slash r s.height := by
  rintro ⟨bondAfter, hafter⟩
  have hpaid : ∀ x ∈ [((0 : Signed), 100000300), (.clamp 5000, 100000150)],
      Amount.cap x.2 = bondAfter alva (.empty alva.address) 0 soloRound (.clamp 11) := by
    intro x hx
    have hfee : x.1 ∈ [(0 : Signed), .clamp 5000] := List.mem_map_of_mem (f := Prod.fst) hx
    have hgrown : ({ alva with bond := .cap x.2 } : Node) ≠ alva := by
      revert x
      decide
    obtain ⟨hactive, htotals, hproviders, hslash⟩ := soloLedger_reads x.1 hfee
    obtain ⟨hok, hbond⟩ := soloLedger_paid x hx
    have hrun := payRewards_run (eq_ok_of_toOption hactive) (solo_round 0)
      (eq_ok_of_toOption htotals)
    have hround := solo_round soloTotals.bondReward
    refine (hafter (soloLedger x.1) _ _ _ _ _ _ _ _ roundLedger_filed (soloLedger_fits hfee)
      (hrun.trans (Prod.ext (eq_ok_of_toOption hok) rfl)) (eq_ok_of_toOption hactive)
      (eq_ok_of_toOption htotals) hround List.mem_cons_self (eq_ok_of_toOption hproviders)
      (eq_ok_of_toOption hslash) hbond).resolve_left hgrown
  have hwhole := hpaid (0, 100000300) (by decide)
  have hhalf := hpaid (.clamp 5000, 100000150) (by decide)
  exact absurd (hwhole.trans hhalf.symm) (by decide)

end Bond

end LiquidityNet
