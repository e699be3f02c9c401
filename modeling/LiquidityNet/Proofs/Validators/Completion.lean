import LiquidityNet.Proofs.Bond.Completion
import LiquidityNet.Proofs.Validators.Turnover

/-!
# The validators' end of a block, run to its end

The recall of funds looks back over the heights at which outbounds wait, a round of ragnarok counts
its payouts and returns parts of bonds, and a change of the validator set pays rewards first. From
where rewards can be paid and rounds can be counted none of this meets a fault.
-/

namespace LiquidityNet

open LiquidityNet.Action Ledger

/-! ## Recall of funds -/

namespace Recall

variable {P : Ledger → Prop}

theorem requestOn_faultless (ygg target : Vault) (c : Chain) :
    (requestOn ygg target c).Faultless := by
  refine .readThen .currentHeight fun height => (Faultless.check _).bind fun recipient => ?_
  exact Payout.scheduleAsIs_faultless _

theorem requestFrom_safe (ygg : Vault) : (requestFrom ygg).Safe HasWindow := by
  have hpast : ∀ s, HasWindow s → True := fun _ _ => trivial
  refine .pastRead (Vaults.asgards_faultless _) hpast fun active => ?_
  refine .pastRead (Vaults.asgards_faultless _) hpast fun retiring => ?_
  refine .readFact (p := (0 ≤ ·)) (Governance.value_faultless _) hpast
    (fun s period hs h => Governance.value_nonneg hs.period h) fun period hperiod => ?_
  have hread : (Vaults.mostSecure? active period).Faultless HasWindow :=
    Vaults.mostSecure?_faultless hperiod (fun _ hs => hs.height) active
  refine .pastRead hread hpast fun target => ?_
  cases target with
  | none => exact .refuse hpast
  | some target => exact Safe.of_faultless (.forM fun c => requestOn_faultless ygg target c)

theorem request_safe (n : Node) : (request n).Safe HasWindow := by
  have hpast : ∀ s, HasWindow s → True := fun _ _ => trivial
  refine .pastRead (Vaults.yggdrasilOf_faultless _) hpast fun ygg => ?_
  cases ygg with
  | none => exact .pure hpast
  | some ygg => exact .ite (fun _ => requestFrom_safe ygg) fun _ => .pure hpast

theorem requestAll_safe : requestAll.Safe HasWindow := by
  refine .pastRead Vaults.all_faultless (fun _ _ => trivial) fun vaults => ?_
  refine Safe.of_completes (Q := fun _ => HasWindow) (R := fun _ => True) (.forM fun ygg _ => ?_)
  refine .pastRead (Nodes.holding?_faultless _) (fun _ _ => trivial) fun n => ?_
  cases n with
  | none => exact .pure fun _ hs => hs
  | some n =>
    have hasked := (request_safe n).confined (request_confined n) fun _ _ hchanges hs =>
      hs.of_changes hchanges
    exact hasked.mono_refusal fun _ _ => trivial

end Recall

/-! ## Ragnarok -/

namespace Ragnarok

variable {s t : Ledger} {n : Node}

theorem unsigned_faultless : unsigned.Faultless HasWindow := by
  refine (Governance.value_faultless _).bind fun period => .past ?_ fun _ => .pure _
  exact HasWindow.pendingFaultless fun _ hs => hs

/-- The network's totals have room for as many more payouts. -/
def HasTurns (k : Nat) (s : Ledger) : Prop :=
  ∀ t, NetworkState.get s = .ok t → t.ragnarokPending.val + k < 0x8000000000000000

theorem get_congr (h : t.get? Key.network = s.get? Key.network) :
    NetworkState.get t = NetworkState.get s := by
  unfold NetworkState.get
  rw [fetchD_run, fetchD_run, fetch?_congr h]

theorem get_putRecord (s : Ledger) (t : Network) :
    NetworkState.get (s.putRecord Key.network (.network t)) = .ok t :=
  fetchD_eq_ok.2 (.inr ⟨.network t, by rw [get?_putRecord, if_pos rfl], rfl⟩)

/-- What returning the bonds of some nodes relies on. -/
structure Returning (ns : List Node) (s : Ledger) : Prop where
  providers : s.ProvidersFit
  turns : HasTurns ns.length s

theorem Returning.of_changes {Ts : List Table} {ns : List Node} (hs : Returning ns s)
    (h : Changes Ts s t) (hproviders : .providers ∉ Ts) (hnetwork : .network ∉ Ts) :
    Returning ns t where
  providers := hs.providers.of_changes h hproviders
  turns := fun totals htotals =>
    hs.turns totals (by rwa [← get_congr (h.get?_eq Table.ofKey?_network hnetwork)])

/-- A node that is passed over uses up no turn. -/
theorem Returning.skip {ns : List Node} (hs : Returning (n :: ns) s) : Returning ns s where
  providers := hs.providers
  turns := by
    intro totals htotals
    have hturns := hs.turns totals htotals
    rw [List.length_cons] at hturns
    omega

theorem countPayout_returning (ns : List Node) :
    countPayout.Completes (Returning (n :: ns)) (fun _ => Returning ns) fun _ => True := by
  refine .readThen NetworkState.get_faultless (fun _ _ => trivial) fun totals => ?_
  refine .computeThen (fun s hs => ?_) fun pending hpending => ?_
  · have hturns := hs.1.turns totals hs.2
    have hlower := totals.ragnarokPending.lower
    rw [List.length_cons] at hturns
    exact Signed.add_ok (by rw [Signed.val_one]; omega) (by rw [Signed.val_one]; omega)
  · refine .of_faultless (.put _ _) fun s r t hs hrun => ?_
    cases hrun
    have hchanges := (NetworkState.save_confined { totals with ragnarokPending := pending }).changes
      (s := s) rfl
    refine ⟨hs.1.providers.of_changes hchanges (by decide), fun totals' htotals' => ?_⟩
    obtain rfl := Except.ok.inj ((get_putRecord s _).symm.trans htotals')
    have hturns := hs.1.turns totals hs.2
    have hsum := Signed.add_eq_ok_iff.1 hpending
    rw [List.length_cons] at hturns
    rw [Signed.val_one] at hsum
    show pending.val + _ < _
    omega

theorem enterReturn_returning (ns : List Node) {amount : Amount} (hamount : amount ≤ n.bond) :
    (enterReturn n amount).Completes (Returning (n :: ns)) (fun _ => Returning ns)
      fun _ => True := by
  refine (countPayout_returning ns).bind fun _ => ?_
  refine .readFact (p := fun ps => ps.bonds < 0x10000000000000000) (Bond.providersOf_faultless n)
    (fun _ _ => trivial) (fun s ps hs h => Bond.providersOf_fit hs.providers h) fun ps hps => ?_
  refine .computeThen (fun _ _ => Amount.sub_ok hamount) fun bond _ => ?_
  refine .computeThen (fun _ _ => Providers.aligned_ok hps bond) fun qs hqs => ?_
  have hfit : qs.bonds < 0x10000000000000000 := Providers.aligned_fit hps hqs
  refine .bind (S := fun _ => Returning ns) ?_ fun _ => ?_
  · refine .of_faultless (Nodes.saveWith_faultless _ _) fun s r t hs hrun => ?_
    rcases Nodes.saveWith_cases hrun with ⟨e, rfl, rfl⟩ | ⟨rfl, rfl⟩
    · trivial
    · have hchanges := (Nodes.saveWith_confined { n with bond := bond } qs).changes hrun
      have hnode : Changes [.nodes] s (s.putRecord (Key.node n.address)
          (.node { n with bond := bond })) :=
        changes_putRecord List.mem_cons_self (Table.ofKey?_node _) rfl
      exact ⟨(hs.providers.of_changes hnode (by decide)).put hfit,
        fun totals htotals => hs.turns totals (by
          rwa [← get_congr (hchanges.get?_eq Table.ofKey?_network (by decide))])⟩
  · have hemitted : Confined [] (emit (.bond amount .cost .blank n.address n.operator)) := .emit _
    have hkept : (emit (.bond amount .cost .blank n.address n.operator)).Sustains (Returning ns) :=
      .of_confined (.emit _) hemitted fun s t hchanges hs =>
        hs.of_changes hchanges (by decide) (by decide)
    exact hkept.mono_refusal fun _ _ => trivial

/-- At most ten tenths of a bond are returned. -/
theorem truncated_le {bond tenths : Amount} (h : tenths.val ≤ 10) :
    Share.truncated bond tenths ⟨10, by decide⟩ ≤ bond := by
  unfold Share.truncated
  split
  · exact Nat.zero_le _
  · rw [Amount.le_def, Amount.val_cap]
    have hproduct : bond.val * tenths.val ≤ bond.val * 10 := Nat.mul_le_mul_left _ h
    have hlimit := bond.isLt
    show min (bond.val * tenths.val / 10) _ ≤ _
    omega

theorem returnBond_returning (ns : List Node) {tenths : Amount} (htenths : tenths.val ≤ 10) :
    (returnBond tenths n).Completes (Returning (n :: ns)) (fun _ => Returning ns)
      fun _ => True := by
  have hpast : ∀ s, Returning (n :: ns) s → True := fun _ _ => trivial
  have hskip : ∀ s, Returning (n :: ns) s → Returning ns s := fun _ hs => hs.skip
  refine .pastRead (Vaults.yggdrasilOf_faultless n) hpast fun ygg => ?_
  refine .ite (fun _ => .pure hskip) fun _ => .ite (fun _ => .pure hskip) fun _ => ?_
  refine .pastRead .currentHeight hpast fun height => ?_
  have hpaid : ∀ o : Outbound, o.chain = .thor →
      (attempt (Payout.schedule o 0)).Sustains (Returning (n :: ns)) := fun o ho =>
    .of_confined (Payout.schedule_faultless (by rw [ho]; rfl) 0).attempt
      (Payout.schedule_confined o 0).attempt fun s t hchanges hs =>
        hs.of_changes hchanges (by decide) (by decide)
  refine .bind (S := fun _ => Returning (n :: ns)) ?_ fun scheduled => ?_
  · exact (hpaid _ rfl).mono_refusal fun _ _ => trivial
  · split
    · exact enterReturn_returning ns (truncated_le htenths)
    · exact .pure hskip
    · exact enterReturn_returning ns (truncated_le htenths)
    · exact .refuse hpast

theorem tenthsOf_ok {round : Signed} (hround : 0 ≤ round) :
    ∃ tenths, tenthsOf round = .ok tenths ∧ tenths.val ≤ 10 := by
  have hdelay : 0 ≤ delay := by decide
  obtain ⟨n, hn⟩ := Signed.sub_ok_of_nonneg hround hdelay
  refine ⟨_, except_bind_eq_ok.2 ⟨n, hn, rfl⟩, ?_⟩
  rw [Amount.val_orZero (by omega)]
  omega

/-- The totals from which a round is run, with the nodes whose bonds it returns. -/
structure Turning (s : Ledger) : Prop extends Payable s where
  settled : ∀ t, NetworkState.get s = .ok t → t.ragnarokPending ≤ 0

theorem Turning.alike (hs : Turning s) (h : Alike s t) : Turning t where
  toPayable := hs.toPayable.alike h
  settled := fun totals htotals => hs.settled totals (by rwa [← get_congr (h.records _)])

/-- Every node in turn has some bond, so there are no more of them than bonds. -/
theorem Turning.returning {ns : List Node} (hs : Turning s) (h : Nodes.bonded s = .ok ns) :
    Returning ns s where
  providers := hs.providers
  turns := by
    intro totals htotals
    have hsettled := Signed.le_def.1 (hs.settled totals htotals)
    obtain ⟨all, hall, h⟩ := Query.bind_eq_ok.1 h
    cases h
    have hbonds := (hs.of_all hall).2
    have hle := Amount.total_filter_le (·.bond) (fun n => n.bond ≠ 0) all
    have hcount := Amount.length_le_total (·.bond) (all.filter fun n => n.bond ≠ 0)
      fun n hn => by simpa using (List.mem_filter.1 hn).2
    rw [Signed.val_zero] at hsettled
    omega

theorem returnBonds_safe {round : Signed} (hround : 0 ≤ round) :
    (returnBonds round).Safe Turning := by
  obtain ⟨tenths, hok, htenths⟩ := tenthsOf_ok hround
  refine .computeThen (fun _ _ => ⟨tenths, hok⟩) fun tenths' htenths' => ?_
  obtain rfl := Except.ok.inj (hok.symm.trans htenths')
  refine .ite (fun _ => .pure fun _ _ => trivial) fun _ => ?_
  refine .readThen Nodes.bonded_faultless (fun _ _ => trivial) fun ns => ?_
  have hreturned : (ns.forM (returnBond tenths)).Completes (Returning ns) (fun _ => Returning [])
      fun _ => True :=
    .forM_rest fun n _ rest => returnBond_returning rest htenths
  exact hreturned.mono (fun _ hs => hs.1.returning hs.2) (fun _ _ _ => trivial) fun _ hs => hs

theorem stagePools_faultless : stagePools.Faultless := by
  refine .readThen NetworkState.get_faultless fun totals => .ite (fun _ => .pure ()) fun _ => ?_
  refine .readThen .currentHeight fun height => .readThen Pools.all_faultless fun pools => ?_
  refine .bind (.forM fun p => .ite (fun _ => .pure ()) fun _ => ?_) fun _ => .put _ _
  exact (Pools.save_faultless _).bind fun _ => .emit _

/-- A round is counted from zero and has a successor. -/
def Counts (round : Signed) : Prop := 0 ≤ round ∧ round.val + 1 < 0x8000000000000000

theorem nextRound_safe {t : Network} (hround : Counts t.ragnarokRound)
    (hsettled : t.ragnarokPending ≤ 0) : (nextRound t).Safe Payable := by
  have hfirst := Signed.le_def.1 hround.1
  rw [Signed.val_zero] at hfirst
  have hnext : ∃ round, t.ragnarokRound.add 1 = .ok round :=
    Signed.add_ok (by rw [Signed.val_one]; omega) hround.2
  refine .computeThen (fun _ _ => hnext) fun round hadded => ?_
  have hnonneg : 0 ≤ round := by
    have hsum := Signed.add_eq_ok_iff.1 hadded
    rw [Signed.val_one] at hsum
    rw [Signed.le_def, Signed.val_zero]
    omega
  have hsaved : (NetworkState.save { t with ragnarokRound := round }).Completes Payable
      (fun _ => Turning) fun _ => True := by
    refine .of_faultless (.put _ _) fun s r u hs hrun => ?_
    cases hrun
    have hchanges := (NetworkState.save_confined { t with ragnarokRound := round }).changes
      (s := s) rfl
    refine ⟨hs.of_changes hchanges (by decide) (by decide) (by decide), fun totals htotals => ?_⟩
    obtain rfl := Except.ok.inj ((get_putRecord s _).symm.trans htotals)
    exact hsettled
  refine hsaved.bind fun _ => ?_
  have hreturned := (Safe.transactionally (returnBonds_confined round) (returnBonds_safe hnonneg)
    fun _ _ h hs => hs.alike h).attempt
  exact hreturned.bind fun _ => Safe.of_faultless stagePools_faultless

theorem start_safe (t : Network) : (start t).Safe Payable := by
  refine .pastRead .currentHeight (fun _ _ => trivial) fun height => ?_
  have hsaved : (NetworkState.save { t with ragnarokHeight := height }).Sustains Payable :=
    .of_confined (.put _ _) (NetworkState.save_confined _) fun _ _ hchanges hs =>
      hs.of_changes hchanges (by decide) (by decide) (by decide)
  have hasked : Recall.requestAll.Safe Payable :=
    Recall.requestAll_safe.restrict fun _ hs => hs.toHasWindow
  have hrecalled : Recall.requestAll.Sustains Payable :=
    hasked.confined Recall.requestAll_confined fun _ _ hchanges hs =>
      hs.of_changes hchanges (by decide) (by decide) (by decide)
  refine (hsaved.mono_refusal fun _ _ => trivial).bind fun _ => ?_
  exact (hrecalled.mono_refusal fun _ _ => trivial).bind fun _ => Bond.payRewards_safe

/-- A tick runs to its end while the rounds can be counted. -/
theorem tick_safe :
    tick.Safe fun s => Payable s ∧ ∀ t, NetworkState.get s = .ok t → Counts t.ragnarokRound := by
  have hpast : ∀ s, (Payable s ∧ ∀ t, NetworkState.get s = .ok t → Counts t.ragnarokRound) →
      True := fun _ _ => trivial
  refine .readThen NetworkState.get_faultless hpast fun t => ?_
  refine .known (p := Counts t.ragnarokRound) (fun s hs => hs.1.2 t hs.2) fun hround => ?_
  refine .restrict (P := Payable) ?_ fun _ hs => hs.1.1
  refine .ite (fun _ => start_safe t) fun _ => .ite (fun _ => ?_) fun hpending => ?_
  · have hread : unsigned.Faultless Payable :=
      unsigned_faultless.restrict fun _ hs => hs.toHasWindow
    refine .pastRead hread (fun _ _ => trivial) fun _ => ?_
    refine .ite (fun _ => .pure fun _ _ => trivial) fun _ => ?_
    exact nextRound_safe (t := { t with ragnarokPending := 0 }) hround (Int.le_refl _)
  · exact nextRound_safe hround (Int.not_lt.1 hpending)

end Ragnarok

/-! ## Changes of the validator set -/

namespace Rotation

variable {P : Ledger → Prop}

theorem joiner?_faultless (k : PublicKey) : (joiner? k).Faultless P :=
  (Nodes.holding?_faultless k).past fun _ => .pure _

theorem changes_faultless : changes.Faultless P := by
  unfold changes
  simp only [Query.refuse_bind]
  refine (Vaults.asgards_faultless _).past fun vaults => .ite (fun _ => .refuse _) fun _ => ?_
  refine Nodes.active_faultless.past fun active => .past ?_ fun _ => .pure _
  exact .mapM fun k _ => joiner?_faultless k

theorem endsNow_faultless (c : Changes) : (endsNow c).Faultless P := by
  refine (Vaults.asgards_faultless _).past fun retiring => .ite (fun _ => .pure _) fun _ => ?_
  refine (Governance.count_faultless _).past fun least => Nodes.active_faultless.past fun _ => ?_
  refine .ite (fun _ => .pure _) fun _ => (Governance.value_faultless _).past fun planned => ?_
  exact Query.Faultless.currentHeight.past fun _ => .pure _

theorem join_faultless (height : Height) (a : Address) : (join height a).Faultless := by
  refine .readThen (Nodes.find?_faultless a) fun n => ?_
  cases n with
  | none => exact .pure _
  | some n =>
    refine (Faultless.emit _).bind fun _ => (Faultless.erase _).bind fun _ => ?_
    exact (Nodes.save_faultless _).bind fun _ => .pure _

theorem standDown_faultless (height : Height) : (standDown height).Faultless :=
  .readThen (Nodes.withStatus_faultless _) fun _ => .forM fun _ => Nodes.save_faultless _

theorem leave_safe (height : Height) (engineKeys : List String) (a : Address) :
    (leave height engineKeys a).Safe HasWindow := by
  refine .pastRead (Nodes.find?_faultless a) (fun _ _ => trivial) fun n => ?_
  cases n with
  | none => exact .pure fun _ _ => trivial
  | some n =>
    have hemitted : ∀ e : Event, Confined [] (emit e) := fun e => .emit e
    have hwindow : ∀ {Ts : List Table} (s t : Ledger), Ledger.Changes Ts s t → HasWindow s →
        HasWindow t := fun _ _ h hs => hs.of_changes h
    refine .past (.emit _) (hemitted _) hwindow (fun _ _ => trivial) fun _ => ?_
    refine .past (Nodes.save_faultless _) (Nodes.save_confined _) hwindow (fun _ _ => trivial)
      fun _ => ?_
    exact (Recall.request_safe _).attempt.bind fun _ => .pure fun _ _ => trivial

/-- Once rewards are paid, what is left only looks back over the heights that count. -/
theorem apply_safe (engineKeys : List String) (c : Changes) :
    (apply engineKeys c).Safe Payable := by
  have hpaid : (attempt Bond.payRewards).Completes Payable (fun _ => HasWindow) fun _ => True :=
    Bond.payRewards_safe.attempt.leading <|
      (Leads.of_confined (P := HasWindow) Bond.payRewards_confined.attempt
        fun _ _ h hs => hs.of_changes h).mono (fun _ hs => hs.toHasWindow) (fun _ _ hs => hs)
        fun _ _ => trivial
  have hleft : ∀ height (a : Address), (leave height engineKeys a).Sustains HasWindow :=
    fun height a => (leave_safe height engineKeys a).confined (leave_confined height engineKeys a)
      fun _ _ h hs => hs.of_changes h
  refine hpaid.bind fun _ => .pastRead .currentHeight (fun _ _ => trivial) fun height => ?_
  refine .past (.mapM fun n => join_faultless height n.address)
    (.mapM fun n _ => join_confined height n.address) (fun _ _ h hs => hs.of_changes h)
    (fun _ _ => trivial) fun joined => ?_
  have hall : (c.leaving.mapM fun n => leave height engineKeys n.address).Completes HasWindow
      (fun _ => HasWindow) fun _ => True :=
    .mapM fun n _ => (hleft height n.address).mono_refusal fun _ _ => trivial
  refine hall.bind fun left => ?_
  exact Safe.of_faultless ((standDown_faultless height).bind fun _ => .pure _)

/-- The validators' end of a block runs to its end. -/
theorem endBlock_safe (engineKeys : List String) :
    (endBlock engineKeys).Safe fun s =>
      Payable s ∧ ∀ t, NetworkState.get s = .ok t → Ragnarok.Counts t.ragnarokRound := by
  have hticked : Action.Safe (fun s =>
      Payable s ∧ ∀ t, NetworkState.get s = .ok t → Ragnarok.Counts t.ragnarokRound)
      (do Ragnarok.tick; return [] : Action (List PowerUpdate)) :=
    Ragnarok.tick_safe.bind fun _ => .pure fun _ _ => trivial
  refine .pastRead NetworkState.isEnding_faultless (fun _ _ => trivial) fun _ => ?_
  refine .ite (fun _ => hticked) fun _ => ?_
  refine .pastRead changes_faultless (fun _ _ => trivial) fun c => ?_
  refine .pastRead (endsNow_faultless c) (fun _ _ => trivial) fun _ => .ite (fun _ => hticked) ?_
  refine fun _ => .ite (fun _ => .pure fun _ _ => trivial) fun _ => ?_
  exact (apply_safe engineKeys c).restrict fun _ hs => hs.1

end Rotation

end LiquidityNet
