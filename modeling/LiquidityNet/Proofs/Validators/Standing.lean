import LiquidityNet.Proofs.Bond.Admission
import LiquidityNet.Proofs.Dispatch.Atomicity
import LiquidityNet.Proofs.Validators.Views
import LiquidityNet.Proofs.Validators.Writes

/-!
# What leaves views of the nodes as they are

Messages, rewards, the rounds of ragnarok and the churn at the beginning of a block store nodes
anew, but they change only bonds, marks, and statuses of nodes that are not active. A view that
ignores this stays as it is.
-/

namespace LiquidityNet

open LiquidityNet.Action Ledger

variable {γ : Type} {f : NodeView γ} {v : Address → γ} {s : Ledger} {n : Node}

/-! ## Messages -/

namespace Bond

section

variable (hf : f.IgnoresMessages)
include hf

theorem shows_of_nodeFor {m : BondRequest} (hs : Viewed f v s) (h : nodeFor m s = .ok n) :
    f.Shows v n := by
  obtain ⟨found, hfound, h⟩ := Query.bind_eq_ok.1 h
  have hget := Nodes.find?_eq_ok.1 hfound
  cases found with
  | some k =>
    cases h
    exact (Nodes.shows_of_get? hs hget).2
  | none =>
    cases h
    show v m.node = f (some (Node.register m.node _ _ _ _ _))
    rw [hf.newcomers _ rfl rfl, ← hs.views m.node, nodeAt_of_absent hget]

theorem enterDeposit_viewed (m : BondRequest) : (enterDeposit m).Keeps (Viewed f v) := by
  have hpast : ∀ s, Viewed f v s → Viewed f v s := fun _ hs => hs
  refine .readFact hpast (fun s n hs hn => shows_of_nodeFor hf hs hn) fun n hn => ?_
  refine .pastRead hpast fun ps => .computeThen hpast fun qs _ => ?_
  refine (Nodes.saveWith_viewed (hn.withBond hf.bonds _) _).bind fun _ => ?_
  refine Viewed.apart [.balances] (.ite (fun _ => ?_) fun _ => .emit _) (by decide)
  exact (Bank.moveModule_confined _ _ _).bind fun _ => .emit _

theorem deposit_viewed (m : BondRequest) : (deposit m).Keeps (Viewed f v) :=
  .pastRead (fun _ hs => hs) fun _ => (enterDeposit_viewed hf m).transactionally
    (enterDeposit_confined m) fun _ _ h hs => hs.congr h

theorem shows_settled (hn : f.Shows v n) (hidle : n.isActive = false) (height : Height) :
    f.Shows v (settled n height) := by
  unfold settled
  split
  · exact hn.moveTo hf.moves height hidle (by decide)
  · exact hn

theorem enterPayment_viewed (provider : Address) (paid : Amount) (ps : Providers)
    (hn : f.Shows v n) (hidle : n.isActive = false) :
    (enterPayment provider paid ps n).Keeps (Viewed f v) := by
  refine .computeThen (fun _ hs => hs) fun rest _ => .pastRead (fun _ hs => hs) fun height => ?_
  refine .bind (R := fun _ => Viewed f v) ?_ fun _ => .pure fun _ hs => hs
  exact Nodes.saveWith_viewed (shows_settled hf (hn.withBond hf.bonds rest) hidle height) _

theorem payBack_viewed (tx : Transaction) (provider : Address) (amount : Amount)
    (hn : f.Shows v n) : (payBack tx provider amount n).Keeps (Viewed f v) := by
  have hpast : ∀ s, Viewed f v s → Viewed f v s := fun _ hs => hs
  refine .ite (fun _ => .pure hpast) fun hidle => .pastRead hpast fun ps => ?_
  refine .computeThen hpast fun qs _ => ?_
  have hentered : (enterPayment provider (paidOf n.bond amount (qs.bondOf provider)) qs n).Keeps
      (Viewed f v) := enterPayment_viewed hf _ _ qs hn (Bool.eq_false_iff.2 hidle)
  refine .ite (fun _ => .bind (R := fun _ => Viewed f v) ?_ fun _ => hentered) fun _ => hentered
  exact Viewed.apart _ (payProvider_confined _ _ _ _) (by decide)

theorem shows_toppedUp (hn : f.Shows v n) (tx : Transaction) : f.Shows v (toppedUp tx n) := by
  unfold toppedUp
  split
  · exact hn.withBond hf.bonds _
  · exact hn

theorem enterWithdrawal_viewed (m : UnbondRequest) (hn : f.Shows v n) :
    (enterWithdrawal m n).Keeps (Viewed f v) := by
  refine .bind (payBack_viewed hf _ _ _ (shows_toppedUp hf hn m.tx)) fun _ => ?_
  refine .ite (fun _ => ?_) fun _ => .pure fun _ hs => hs
  exact Viewed.apart _ (dismiss_confined _ _) (by decide)

omit hf in
theorem validateWithdrawal_viewed (m : UnbondRequest) :
    (validateWithdrawal m).Leads (Viewed f v) (fun n s => Viewed f v s ∧ f.Shows v n)
      (Viewed f v) := by
  have hpast : ∀ s, Viewed f v s → Viewed f v s := fun _ hs => hs
  refine .readFact hpast (p := f.Shows v) ?_ fun n hn => .pastRead hpast fun _ => ?_
  · intro s n hs hadmitted
    have hget := Nodes.find?_eq_ok.1 (admitWithdrawal_eq_ok hadmitted).1
    exact (Nodes.shows_of_get? hs hget).2
  · refine .ite (fun _ => ?_) fun _ => .pure fun _ hs => ⟨hs, hn⟩
    have hrequest : (Recall.request n).Keeps (Viewed f v) :=
      Viewed.apart _ (Recall.request_confined n) (by decide)
    exact hrequest.bind fun _ => .refuse hpast

theorem withdraw_viewed (m : UnbondRequest) : (withdraw m).Keeps (Viewed f v) := by
  refine (validateWithdrawal_viewed m).bind fun n => ?_
  refine .known (p := f.Shows v n) (fun _ hs => hs.2) fun hn => ?_
  have hentered := (enterWithdrawal_viewed hf m hn).transactionally (enterWithdrawal_confined m n)
    fun _ _ h hs => hs.congr h
  exact hentered.restrict fun _ hs => hs.1

end

end Bond

theorem Dispatch.dispatch_viewed (hf : f.IgnoresMessages) (m : Message) :
    (Dispatch.dispatch m).Keeps (Viewed f v) := by
  refine dispatch_keeps ?_ fun _ _ h hs => hs.congr h
  cases m with
  | swap m =>
    exact .bind (Viewed.apart _ (Swap.handle_confined m) (by decide)) fun _ => .pure fun _ hs => hs
  | unbond m => exact Bond.withdraw_viewed hf m
  | bond m => exact Bond.deposit_viewed hf m

/-! ## Rewards and ragnarok -/

section

variable (hbonds : f.IgnoresBonds)
include hbonds

namespace Bond

theorem enterReward_viewed (reward operatorBond : Amount) (ps : Providers) (hn : f.Shows v n) :
    (enterReward n reward ps operatorBond).Keeps (Viewed f v) := by
  have hpast : ∀ s, Viewed f v s → Viewed f v s := fun _ hs => hs
  refine .computeThen hpast fun after _ => .computeThen hpast fun rest _ => ?_
  exact (Nodes.saveWith_viewed (hn.withBond hbonds _) _).bind fun _ => .pure hpast

theorem payReward_viewed (r : RewardRound) (t : Network) (hn : f.Shows v n) :
    (payReward r t n).Keeps (Viewed f v) := by
  have hpast : ∀ s, Viewed f v s → Viewed f v s := fun _ hs => hs
  refine .ite (fun _ => .pure hpast) fun _ => .pastRead hpast fun _ => .pastRead hpast fun _ => ?_
  refine .computeThen hpast fun service _ => .pastRead hpast fun ps => ?_
  refine .computeThen hpast fun before _ => ?_
  split
  · have hslash := Nodes.setSlashPoints_confined n.address service.slashLeft
    refine .bind (Viewed.apart _ hslash (by decide)) fun _ => ?_
    refine (enterReward_viewed hbonds _ _ _ hn).bind fun fee => ?_
    refine Viewed.apart [.balances] ?_ (by decide)
    exact (Confined.emit _).bind fun _ => (payFee_confined n fee).bind fun _ => .pure _
  · exact .refuse hpast

theorem payNode_viewed (r : RewardRound) (hn : f.Shows v n) : (payNode r n).Keeps (Viewed f v) :=
  payNode_keeps_of (fun t => payReward_viewed hbonds r t hn)
    (fun t => Viewed.apart _ (NetworkState.save_confined t) (by decide)) fun _ _ h hs => hs.congr h

theorem payRewards_viewed : payRewards.Keeps (Viewed f v) := by
  have hpast : ∀ s, Viewed f v s → Viewed f v s := fun _ hs => hs
  refine .readFact hpast (fun s ns hs h => Nodes.shows_of_withStatus hs h) fun active hactive => ?_
  refine .computeThen hpast fun round _ => .pastRead hpast fun _ => ?_
  exact .forM fun n hn => payNode_viewed hbonds _ (hactive n hn).1

end Bond

namespace Ragnarok

theorem enterReturn_viewed (amount : Amount) (hn : f.Shows v n) :
    (enterReturn n amount).Keeps (Viewed f v) := by
  have hpast : ∀ s, Viewed f v s → Viewed f v s := fun _ hs => hs
  refine .bind (Viewed.apart _ countPayout_confined (by decide)) fun _ => ?_
  refine .pastRead hpast fun ps => .computeThen hpast fun rest _ => ?_
  refine .computeThen hpast fun qs _ => ?_
  refine (Nodes.saveWith_viewed (hn.withBond hbonds _) _).bind fun _ => ?_
  exact Viewed.apart [] (.emit _) (by decide)

theorem returnBond_viewed (tenths : Amount) (hn : f.Shows v n) :
    (returnBond tenths n).Keeps (Viewed f v) := by
  have hpast : ∀ s, Viewed f v s → Viewed f v s := fun _ hs => hs
  refine .pastRead hpast fun _ => .ite (fun _ => .pure hpast) fun _ => ?_
  refine .ite (fun _ => .pure hpast) fun _ => .pastRead hpast fun height => ?_
  refine .bind (R := fun _ => Viewed f v) ?_ fun scheduled => ?_
  · exact Viewed.apart _ (Payout.schedule_confined _ _).attempt (by decide)
  · split
    · exact enterReturn_viewed hbonds _ hn
    · exact .pure hpast
    · exact enterReturn_viewed hbonds _ hn
    · exact .refuse hpast

theorem returnBonds_viewed (round : Signed) : (returnBonds round).Keeps (Viewed f v) := by
  have hpast : ∀ s, Viewed f v s → Viewed f v s := fun _ hs => hs
  refine .computeThen hpast fun tenths _ => .ite (fun _ => .pure hpast) fun _ => ?_
  refine .readFact hpast (fun s ns hs h => Nodes.shows_of_filter hs h) fun bonded hbonded => ?_
  exact .forM fun n hn => returnBond_viewed hbonds tenths (hbonded n hn).1

theorem nextRound_viewed (t : Network) : (nextRound t).Keeps (Viewed f v) := by
  refine .computeThen (fun _ hs => hs) fun round _ => ?_
  refine .bind (R := fun _ => Viewed f v) ?_ fun _ => ?_
  · exact Viewed.apart _ (NetworkState.save_confined _) (by decide)
  have hreturned := (returnBonds_viewed (v := v) hbonds round).transactionally
    (returnBonds_confined round) fun _ _ h hs => hs.congr h
  exact hreturned.attempt.bind fun _ => Viewed.apart _ stagePools_confined (by decide)

theorem start_viewed (t : Network) : (start t).Keeps (Viewed f v) := by
  refine .pastRead (fun _ hs => hs) fun height => .bind (R := fun _ => Viewed f v) ?_ fun _ => ?_
  · exact Viewed.apart _ (NetworkState.save_confined _) (by decide)
  · refine .bind (Viewed.apart _ Recall.requestAll_confined (by decide)) fun _ => ?_
    exact Bond.payRewards_viewed hbonds

theorem tick_viewed : tick.Keeps (Viewed f v) := by
  have hpast : ∀ s, Viewed f v s → Viewed f v s := fun _ hs => hs
  refine .pastRead hpast fun t => .ite (fun _ => start_viewed hbonds t) fun _ => ?_
  refine .ite (fun _ => ?_) fun _ => ?_
  · exact .pastRead hpast fun _ => .ite (fun _ => .pure hpast) fun _ => nextRound_viewed hbonds _
  · exact nextRound_viewed hbonds t

end Ragnarok

end

/-! ## Churns -/

namespace Marking

variable {ns : List Node}

theorem offenders_mem {tolerated : Signed} {xs : List (Amount × Node)}
    (h : offenders tolerated ns s = .ok xs) : ∀ x ∈ xs, x.2 ∈ ns := by
  obtain ⟨last, -, h⟩ := Query.bind_eq_ok.1 h
  obtain ⟨height, -, h⟩ := Query.bind_eq_ok.1 h
  obtain ⟨found, hfound, h⟩ := Query.bind_eq_ok.1 h
  cases h
  intro x hx
  obtain ⟨y, hy, hsome⟩ := List.mem_filterMap.1 hx
  obtain ⟨n, hn, hread⟩ := Query.mem_of_mapM hfound hy
  obtain ⟨slash, -, hread⟩ := Query.bind_eq_ok.1 hread
  split at hread
  · cases hread
    cases hsome
  · obtain ⟨score, -, hread⟩ := Query.bind_eq_ok.1 hread
    cases hread
    cases hsome
    exact hn

theorem shows_of_badNodes (hs : Viewed f v s) (h : badNodes s = .ok ns) :
    ∀ n ∈ ns, f.Shows v n := by
  obtain ⟨tolerated, -, h⟩ := Query.bind_eq_ok.1 h
  obtain ⟨redline, -, h⟩ := Query.bind_eq_ok.1 h
  obtain ⟨most, -, h⟩ := Query.bind_eq_ok.1 h
  split at h
  · cases h
    exact fun n hn => absurd hn List.not_mem_nil
  obtain ⟨active, hactive, h⟩ := Query.bind_eq_ok.1 h
  obtain ⟨found, hfound, h⟩ := Query.bind_eq_ok.1 h
  split at h
  · cases h
    exact fun n hn => absurd hn List.not_mem_nil
  obtain ⟨red, -, h⟩ := Query.bind_eq_ok.1 h
  cases h
  intro n hn
  obtain ⟨x, hx, rfl⟩ := List.mem_map.1 hn
  have hsorted : x ∈ found.mergeSort isWorse := by
    split at hx
    · exact List.mem_of_mem_take hx
    · exact (List.mem_filter.1 (List.mem_of_mem_take hx)).1
  have hmem := offenders_mem hfound x (List.mem_mergeSort.1 hsorted)
  exact (Nodes.shows_of_withStatus hs hactive _ hmem).1

theorem shows_of_oldest? {o : Option Node} (hs : Viewed f v s) (h : oldest? s = .ok o) :
    ∀ n ∈ o, f.Shows v n := by
  obtain ⟨height, -, h⟩ := Query.bind_eq_ok.1 h
  obtain ⟨active, hactive, h⟩ := Query.bind_eq_ok.1 h
  cases h
  intro n hn
  have hmem := List.mem_filter.1 (List.mem_mergeSort.1 (List.mem_of_mem_head? hn))
  exact (Nodes.shows_of_withStatus hs hactive n hmem.1).1

theorem shows_of_poorest? {o : Option Node} (hs : Viewed f v s) (h : poorest? s = .ok o) :
    ∀ n ∈ o, f.Shows v n := by
  obtain ⟨active, hactive, h⟩ := Query.bind_eq_ok.1 h
  cases h
  intro n hn
  have hmem := List.mem_mergeSort.1 (List.mem_of_mem_head? hn)
  exact (Nodes.shows_of_withStatus hs hactive n hmem).1

theorem mark_viewed (hmarks : f.IgnoresMarks) (hn : f.Shows v n) : (mark n).Keeps (Viewed f v) := by
  have hpast : ∀ s, Viewed f v s → Viewed f v s := fun _ hs => hs
  refine .ite (fun _ => .pure hpast) fun _ => .pastRead hpast fun score => ?_
  exact Nodes.save_viewed (hn.withMark hmarks _)

theorem markOutdated_viewed (hmarks : f.IgnoresMarks) : markOutdated.Keeps (Viewed f v) := by
  have hpast : ∀ s, Viewed f v s → Viewed f v s := fun _ hs => hs
  refine .pastRead hpast fun most => .pastRead hpast fun grace => .pastRead hpast fun least => ?_
  refine .pastRead hpast fun height => ?_
  refine .readFact hpast (fun s ns hs h => Nodes.shows_of_withStatus hs h) fun active hactive => ?_
  have hfiltered :
      (active.filterM fun n => isOutdated least grace height n : Action (List Node)).Leads
        (Viewed f v) (fun ns s => Viewed f v s ∧ ∀ n ∈ ns, n ∈ active) (Viewed f v) :=
    .filterM fun n => Viewed.apart [] (.compute _) (by decide)
  refine hfiltered.bind fun outdated => .known (fun _ hs => hs.2) fun houtdated => ?_
  refine .mono (P := Viewed f v) ?_ (fun _ hs => hs.1) (fun _ _ hs => hs) hpast
  refine .forM fun n hn => mark_viewed hmarks (hactive n (houtdated n ?_)).1
  exact List.mem_mergeSort.1 (List.mem_of_mem_take hn)

/-- A node that is readjusted is not active, and does not become active. -/
theorem readjust_viewed (hmoves : f.IgnoresMoves) (hn : f.Shows v n) (hidle : n.isActive = false) :
    (readjust n).Keeps (Viewed f v) := by
  have hpast : ∀ s, Viewed f v s → Viewed f v s := fun _ hs => hs
  refine .pastRead hpast fun o => .ite (fun _ => ?_) fun _ => .pure hpast
  refine .pastRead hpast fun height => ?_
  have hfitting : fitting o ≠ .active := by
    unfold fitting Obstacle.status
    grind
  exact Nodes.save_viewed (hn.moveTo hmoves height hidle hfitting)

theorem readjustAll_viewed (hmoves : f.IgnoresMoves) : readjustAll.Keeps (Viewed f v) := by
  have hpast : ∀ s, Viewed f v s → Viewed f v s := fun _ hs => hs
  refine .readFact hpast (fun s ns hs h => Nodes.shows_of_withStatus hs h)
    fun standby hstandby => ?_
  refine .readFact hpast (fun s ns hs h => Nodes.shows_of_withStatus hs h) fun ready hready => ?_
  refine .forM fun n hn => ?_
  rcases List.mem_append.1 hn with hn | hn
  · obtain ⟨hshows, hstatus⟩ := hstandby n hn
    exact readjust_viewed hmoves hshows (by rw [Node.isActive_eq, hstatus]; rfl)
  · obtain ⟨hshows, hstatus⟩ := hready n hn
    exact readjust_viewed hmoves hshows (by rw [Node.isActive_eq, hstatus]; rfl)

end Marking

namespace Rotation

theorem markAll_viewed (hmarks : f.IgnoresMarks) (activeNodes desired : Nat) (retry : Bool) :
    (markAll activeNodes desired retry).Keeps (Viewed f v) := by
  have hpast : ∀ s, Viewed f v s → Viewed f v s := fun _ hs => hs
  unfold markAll
  extract_lets last poorest
  have hlast : ∀ r, (last r).Keeps (Viewed f v) := fun _ => Marking.markOutdated_viewed hmarks
  have hpoorest : ∀ r, (poorest r).Keeps (Viewed f v) := by
    refine fun _ => .ite (fun _ => ?_) fun _ => hlast ()
    refine .readFact hpast (fun s o hs h => Marking.shows_of_poorest? hs h) fun o ho => ?_
    cases o with
    | none => exact hlast ()
    | some n => exact (Marking.mark_viewed hmarks (ho n rfl)).bind hlast
  refine .readFact hpast (fun s ns hs h => Marking.shows_of_badNodes hs h) fun bad hbad => ?_
  refine .bind (.forM fun n hn => Marking.mark_viewed hmarks (hbad n hn)) fun _ => ?_
  refine .ite (fun _ => ?_) fun _ => hlast ()
  refine .readFact hpast (fun s o hs h => Marking.shows_of_oldest? hs h) fun o ho => ?_
  cases o with
  | none => exact hpoorest ()
  | some n => exact (Marking.mark_viewed hmarks (ho n rfl)).bind hpoorest

theorem nextSet_viewed (hmoves : f.IgnoresMoves) (target : Nat) :
    (nextSet target).Keeps (Viewed f v) := by
  refine (Marking.readjustAll_viewed hmoves).bind fun _ => Viewed.apart [] ?_ (by decide)
  refine .readThen fun _ => .readThen fun _ => .readThen fun _ => .readThen fun _ => ?_
  refine (Confined.mapM fun _ _ => .read _).bind fun _ => ?_
  exact .readThen fun _ => .readThen fun _ => .pure _

theorem churn_viewed (hmarks : f.IgnoresMarks) (hmoves : f.IgnoresMoves) (vaults : List Vault)
    (activeNodes : Nat) (retry : Bool) :
    (churn vaults activeNodes retry).Keeps (Viewed f v) := by
  have hpast : ∀ s, Viewed f v s → Viewed f v s := fun _ hs => hs
  refine .pastRead hpast fun _ => .ite (fun _ => .pure hpast) fun _ => .pastRead hpast fun _ => ?_
  refine .ite (fun _ => .pure hpast) fun _ => .pastRead hpast fun _ => ?_
  refine .pastRead hpast fun desired => ?_
  extract_lets rest
  have hrest : ∀ r, (rest r).Keeps (Viewed f v) := by
    refine fun _ => (nextSet_viewed hmoves desired).bind fun next => ?_
    refine .ite (fun _ => ?_) fun _ => .pure hpast
    exact .pastRead hpast fun _ => Viewed.apart _ (requestKeygen_confined _ _) (by decide)
  exact .ite (fun _ => (markAll_viewed hmarks _ _ _).bind hrest) fun _ => hrest ()

/-- Past the first height, where the nodes are seated, the beginning of a block seats nobody. -/
theorem beginBlock_viewed (hmarks : f.IgnoresMarks) (hmoves : f.IgnoresMoves) :
    beginBlock.Leads (fun s => Viewed f v s ∧ s.height ≠ firstHeight) (fun _ => Viewed f v)
      (Viewed f v) := by
  have hpast : ∀ s, Viewed f v s → Viewed f v s := fun _ hs => hs
  refine .readThen (fun _ hs => hs.1) fun height => .known (p := height ≠ firstHeight) ?_ ?_
  · rintro s ⟨⟨-, hs⟩, hheight⟩
    cases hheight
    exact hs
  · intro hheight
    refine .mono (P := Viewed f v) ?_ (fun _ hs => hs.1.1) (fun _ _ hs => hs) hpast
    refine .ite (fun h => absurd h hheight) fun _ => .pastRead hpast fun _ => ?_
    refine .ite (fun _ => .pure hpast) fun _ => .pastRead hpast fun _ => .pastRead hpast fun _ => ?_
    refine .pastRead hpast fun _ => .ite (fun _ => ?_) fun _ => .pure hpast
    exact churn_viewed hmarks hmoves _ _ _

/-- Nodes that are ready are complete and not active, so that standing them down is not refused. -/
theorem standDown_viewed (hmoves : f.IgnoresMoves) (height : Height) :
    (standDown height).Yields (Viewed f v) (fun _ => Viewed f v) fun _ => False := by
  refine .bind (.read fun s hs => Nodes.withStatus_ok hs.filed .ready) fun ready => ?_
  refine .known (p := ∀ n ∈ ready, (f.Shows v n ∧ n.status = .ready) ∧ n.validate = .ok ()) ?_ ?_
  · rintro s ⟨hs, hread⟩ n hn
    exact ⟨Nodes.shows_of_withStatus hs hread n hn,
      Nodes.complete_of_withStatus hs.toNodesComplete hread n hn⟩
  · intro hready
    refine .restrict (P := Viewed f v) (.forM fun n hn => ?_) fun _ hs => hs.1
    obtain ⟨⟨hshows, hstatus⟩, hcomplete⟩ := hready n hn
    have hidle : n.isActive = false := by
      rw [Node.isActive_eq, hstatus]
      rfl
    exact (Nodes.save_viewed (hshows.moveTo hmoves height hidle (by decide))).answered
      (Nodes.save_answers (Node.validate_moveTo hcomplete height (by decide)))

end Rotation

end LiquidityNet
