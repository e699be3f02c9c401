import LiquidityNet.Proofs.Ledger.Room
import LiquidityNet.Proofs.Validators.Shutdown
import LiquidityNet.Proofs.Validators.Standing

/-!
# The beginning of a block, run to its end

Whether a churn is due is told from the height of the last one and the interval that governance set.
Their sum is a height only if governance left room for it: it is the one thing in the beginning of
a block that an interval of any length can put out of range. All else that begins a block compares
heights that count from zero.
-/

namespace LiquidityNet

open LiquidityNet.Action Ledger

/-! ## Times -/

/-- The view that tells whether the height of a node's status counts from zero. -/
def NodeView.dated : NodeView Bool := fun o => o.all fun n => decide (0 ≤ n.statusSince)

theorem NodeView.dated_ignoresMarks : dated.IgnoresMarks := fun _ _ => rfl

/-- In every environment the numbers that governance has not set are in range. -/
theorem Settings.timed (e : Environment) :
    0 ≤ (ofEnvironment e).value .churnInterval ∧
      (ofEnvironment e).value .badValidatorRedline ≠ 0 ∧
      0 ≤ (ofEnvironment e).value .signingTransactionPeriod := by
  cases e <;> decide

theorem Marking.lastChurn_congr {s t : Ledger}
    (h : Vaults.asgards .active t = Vaults.asgards .active s) : lastChurn t = lastChurn s := by
  unfold lastChurn
  rw [Query.bind_run, Query.bind_run, h]
  rcases Vaults.asgards .active s with e | _ | _ <;> rfl

namespace Ledger

variable {s t : Ledger} {Ts : List Table}

/-- What churns are timed by counts from zero, and the redline divides. -/
structure Timed (s : Ledger) : Prop where
  interval : 0 ≤ s.settings.value .churnInterval
  redline : s.settings.value .badValidatorRedline ≠ 0
  churned : ∀ last, Marking.lastChurn s = .ok last → 0 ≤ last

/-- Churns are timed, and the block's height counts from zero as well. -/
structure Ticking (s : Ledger) : Prop extends Timed s where
  height : 0 ≤ s.height

/-- The next churn falls due at a height that there is. -/
def Punctual (s : Ledger) : Prop :=
  ∀ last interval, Marking.lastChurn s = .ok last →
    Governance.value .churnInterval s = .ok interval →
    last.val + interval.val < 0x8000000000000000

/-- Every stored node is complete and has its status since a height that counts from zero. -/
abbrev NodesDated (s : Ledger) : Prop := Viewed .dated (fun _ => true) s

theorem Ticking.of_changes (hs : s.Ticking) (h : Changes Ts s t) (hTs : .vaults ∉ Ts) :
    t.Ticking where
  interval := h.settings ▸ hs.interval
  redline := h.settings ▸ hs.redline
  height := h.height ▸ hs.height
  churned := by
    intro last hlast
    refine hs.churned last ?_
    rwa [← Marking.lastChurn_congr (Vaults.asgards_congr fun k hk => h.get?_eq hk hTs)]

theorem Ticking.nonneg {height : Height} (hs : s.Ticking) (h : currentHeight s = .ok height) :
    0 ≤ height := by
  cases h
  exact hs.height

end Ledger

theorem Amount.wrap_ne_zero {x : Signed} (h : x ≠ 0) : wrap x.val ≠ 0 := by
  have hlower := x.lower
  have hupper := x.upper
  intro hzero
  have hval : (wrap x.val).val = 0 := congrArg Amount.val hzero
  have hmod : (x.val % 0x10000000000000000).toNat = 0 := hval
  exact h (Signed.val_inj.1 (by rw [Signed.val_zero]; omega))

theorem Governance.valueAtLeast_ne_zero {x : Setting} {s : Ledger} {v : Signed}
    (hsettings : s.settings.value x ≠ 0) (h : valueAtLeast x 1 s = .ok v) : v ≠ 0 := by
  unfold valueAtLeast at h
  split at h
  · cases h
    split
    · rename_i hle
      rintro rfl
      exact absurd (Signed.le_def.1 hle) (by decide)
    · exact hsettings
  · cases h
    exact hsettings

theorem Churn.score_ok {height last : Height} (hheight : 0 ≤ height) (hlast : 0 ≤ last)
    (slash : Signed) : ∃ x, score height slash last = .ok x :=
  except_bind_ok (Signed.sub_ok_of_nonneg hheight hlast) fun _ _ => ⟨_, rfl⟩

/-! ## Marks -/

namespace Marking

variable {P : Ledger → Prop} {n : Node}

theorem lastChurn_faultless : lastChurn.Faultless P := by
  refine (Vaults.asgards_faultless _).past fun vaults => ?_
  cases vaults with
  | nil => exact .pure _
  | cons v vs => exact .pure _

theorem markOf_faultless (n : Node) : (markOf n).Faultless Ticking := by
  refine (Nodes.slashPoints_faultless _).past fun slash => ?_
  refine lastChurn_faultless.readFact (fun s last hs => hs.churned last) fun last hlast => ?_
  refine .readFact .currentHeight (fun s _ hs => hs.nonneg) fun height hheight => ?_
  exact .past (.compute fun _ _ => Churn.score_ok hheight hlast slash) fun _ => .pure _

theorem mark_ticking (n : Node) : (mark n).Sustains Ticking := by
  refine Safe.confined (.ite (fun _ => .pure fun _ _ => trivial) fun _ => ?_) (mark_confined n)
    fun _ _ h hs => hs.of_changes h (by decide)
  exact .pastRead (markOf_faultless n) (fun _ _ => trivial) fun _ =>
    Safe.of_faultless (Nodes.save_faultless _)

theorem offenders_faultless (tolerated : Signed) (ns : List Node) :
    (offenders tolerated ns).Faultless Ticking := by
  refine lastChurn_faultless.readFact (fun s last hs => hs.churned last) fun last hlast => ?_
  refine .readFact .currentHeight (fun s _ hs => hs.nonneg) fun height hheight => ?_
  refine .past (.mapM fun n _ => ?_) fun _ => .pure _
  refine (Nodes.slashPoints_faultless _).past fun slash => .ite (fun _ => .pure _) fun _ => ?_
  exact .past (.compute fun _ _ => Churn.score_ok hheight hlast slash) fun _ => .pure _

theorem badNodes_faultless : badNodes.Faultless Ticking := by
  refine (Governance.value_faultless _).past fun tolerated => ?_
  refine (Governance.valueAtLeast_faultless _ _).readFact
    (fun s _ hs h => Governance.valueAtLeast_ne_zero hs.redline h) fun line hline => ?_
  refine (Governance.count_faultless _).past fun most => .ite (fun _ => .pure _) fun _ => ?_
  refine Nodes.active_faultless.past fun active => (offenders_faultless _ _).past fun found => ?_
  refine .ite (fun _ => .pure _) fun _ => .past (.compute fun _ _ => ?_) fun _ => .pure _
  exact ⟨_, if_neg (Amount.wrap_ne_zero hline)⟩

theorem oldest?_faultless : oldest?.Faultless P :=
  Query.Faultless.currentHeight.past fun _ => Nodes.active_faultless.past fun _ => .pure _

theorem poorest?_faultless : poorest?.Faultless P := Nodes.active_faultless.past fun _ => .pure _

theorem isOutdated_ok {height : Height} (hheight : 0 ≤ height) (hsince : 0 ≤ n.statusSince)
    (least : Version) (grace : Signed) : ∃ b, isOutdated least grace height n = .ok b := by
  unfold isOutdated
  split
  · exact except_bind_ok (Signed.sub_ok_of_nonneg hheight hsince) fun _ _ => ⟨_, rfl⟩
  · exact ⟨_, rfl⟩

/-- Only nodes that are active are asked since when they are. -/
theorem markOutdated_safe : markOutdated.Safe fun s => Ticking s ∧ NodesDated s := by
  have hpast : ∀ s, Ticking s ∧ NodesDated s → True := fun _ _ => trivial
  refine .pastRead (Governance.count_faultless _) hpast fun most => ?_
  refine .pastRead (Governance.value_faultless _) hpast fun grace => ?_
  refine .pastRead Nodes.joinVersion_faultless hpast fun least => ?_
  refine .readFact .currentHeight hpast (fun s _ hs => hs.1.nonneg) fun height hheight => ?_
  refine .readFact Nodes.active_faultless hpast
    (fun s active hs h n hn => (Nodes.shows_of_withStatus hs.2 h n hn).1) fun active hactive => ?_
  have hsince : ∀ n ∈ active, 0 ≤ n.statusSince := fun n hn => of_decide_eq_true (hactive n hn).symm
  have hfiltered : (active.filterM fun n => isOutdated least grace height n :
      Action (List Node)).Sustains Ticking :=
    .filterM fun n hn => .compute fun _ _ => isOutdated_ok hheight (hsince n hn) least grace
  refine .bind (S := fun _ => Ticking) ?_ fun outdated => ?_
  · exact hfiltered.mono (fun _ hs => hs.1) (fun _ _ hs => hs) fun _ _ => trivial
  · exact Safe.of_completes (.forM fun n _ => mark_ticking n)

end Marking

/-! ## Readiness -/

namespace Marking

variable {P : Ledger → Prop}

theorem obstacle?_faultless (n : Node) : (obstacle? n).Faultless P := by
  refine .ite (fun _ => .pure _) fun _ => .ite (fun _ => .pure _) fun _ => ?_
  refine .ite (fun _ => .pure _) fun _ => .ite (fun _ => .pure _) fun _ => ?_
  refine (Governance.amount_faultless _).past fun _ => .ite (fun _ => .pure _) fun _ => ?_
  refine Nodes.joinVersion_faultless.past fun _ => .ite (fun _ => .pure _) fun _ => ?_
  refine (Nodes.jailOf_faultless _).past fun _ => Query.Faultless.currentHeight.past fun _ => ?_
  refine .ite (fun _ => .pure _) fun _ => NetworkState.isEnding_faultless.past fun _ => ?_
  exact .ite (fun _ => .pure _) fun _ => .pure _

theorem readjust_faultless (n : Node) : (readjust n).Faultless :=
  .readThen (obstacle?_faultless n) fun _ => .ite
    (fun _ => .readThen .currentHeight fun _ => Nodes.save_faultless _) fun _ => .pure ()

theorem readjustAll_faultless : readjustAll.Faultless :=
  .readThen (Nodes.withStatus_faultless _) fun _ => .readThen (Nodes.withStatus_faultless _)
    fun _ => .forM readjust_faultless

end Marking

/-! ## Churns -/

namespace Rotation

variable {P : Ledger → Prop} {s : Ledger}

theorem seatAll_faultless : seatAll.Faultless :=
  .readThen (Governance.count_faultless _) fun _ => .readThen .currentHeight fun _ =>
    .readThen Nodes.all_faultless fun _ => .forM fun _ => Nodes.save_faultless _

theorem groupSize_faultless : groupSize.Faultless P :=
  (Governance.value_faultless _).past fun _ => .pure _

theorem isHalted_faultless (c : Chain) : (isHalted c).Faultless P := by
  refine Query.Faultless.currentHeight.past fun height => ?_
  refine (Governance.mimir?_faultless _).past fun halt => ?_
  cases halt with
  | none => exact .pure _
  | some halt => exact .pure _

theorem next_ok {last : Height} {interval : Signed} (hlast : 0 ≤ last) (hinterval : 0 ≤ interval)
    (hdue : last.val + interval.val < 0x8000000000000000) : ∃ next, last.add interval = .ok next := by
  have hlast := Signed.le_def.1 hlast
  have hinterval := Signed.le_def.1 hinterval
  rw [Signed.val_zero] at hlast hinterval
  exact Signed.add_ok (by omega) hdue

/-- How long ago the next churn was due is in range if it is due at a height. -/
theorem overtime_ok {height last passed : Height} {interval : Signed} (hheight : 0 ≤ height)
    (hlast : 0 ≤ last) (hinterval : 0 ≤ interval)
    (hdue : last.val + interval.val < 0x8000000000000000) (hpassed : height.sub last = .ok passed) :
    ∃ x, passed.sub interval = .ok x := by
  have hsum := Signed.sub_eq_ok_iff.1 hpassed
  have hheight := Signed.le_def.1 hheight
  have hlast := Signed.le_def.1 hlast
  have hinterval := Signed.le_def.1 hinterval
  have hupper := height.upper
  rw [Signed.val_zero] at hheight hlast hinterval
  exact Signed.sub_ok (by omega) (by omega)

theorem due_faultless (vaults activeNodes : Nat) :
    (due vaults activeNodes).Faultless fun s => Ticking s ∧ Punctual s := by
  refine (Governance.value_faultless _).bind fun interval => ?_
  refine (Governance.value_faultless _).past fun step => groupSize_faultless.past fun size => ?_
  refine Marking.lastChurn_faultless.bind fun last => ?_
  refine .known (p := (0 ≤ last ∧ 0 ≤ interval) ∧ last.val + interval.val < 0x8000000000000000)
    ?_ fun ⟨⟨hlast, hinterval⟩, hdue⟩ => ?_
  · rintro s ⟨⟨⟨hticking, hpunctual⟩, hinterval⟩, hlast⟩
    exact ⟨⟨hticking.churned last hlast, Governance.value_nonneg hticking.interval hinterval⟩,
      hpunctual last interval hlast hinterval⟩
  refine .readFact .currentHeight (fun s _ hs => hs.1.1.1.nonneg) fun height hheight => ?_
  refine .past (.compute fun _ _ => next_ok hlast hinterval hdue) fun next => ?_
  refine .readFact (p := fun passed => height.sub last = .ok passed)
    (.compute fun _ _ => Signed.sub_ok_of_nonneg hheight hlast) (fun s passed _ h => ?_)
    fun passed hpassed => ?_
  · exact Query.compute_eq_ok.1 h
  · extract_lets overdue answer
    have hanswer : ∀ {Q : Ledger → Prop} retry, (answer retry).Faultless Q := fun retry => .pure _
    refine .ite (fun _ => ?_) fun _ => (Query.Faultless.pure _).past fun retry => hanswer retry
    have hovertime := overtime_ok hheight hlast hinterval hdue hpassed
    refine .past (.compute fun _ _ => hovertime) fun _ => ?_
    exact (Query.Faultless.pure _).past fun retry => hanswer retry

theorem markAll_ticking (activeNodes desired : Nat) (retry : Bool) :
    (markAll activeNodes desired retry).Completes (fun s => Ticking s ∧ NodesDated s)
      (fun _ => Ticking) fun _ => True := by
  have hpast : ∀ s, Ticking s ∧ NodesDated s → True := fun _ _ => trivial
  have hmarked : ∀ n, NodeView.dated.Shows (fun _ => true) n →
      (Marking.mark n).Completes (fun s => Ticking s ∧ NodesDated s)
        (fun _ s => Ticking s ∧ NodesDated s) fun _ => True := fun n hn =>
    Completes.mono_refusal ((Marking.mark_ticking n).and
      (Marking.mark_viewed NodeView.dated_ignoresMarks hn)) fun _ _ => trivial
  have houtdated : Marking.markOutdated.Completes (fun s => Ticking s ∧ NodesDated s)
      (fun _ => Ticking) fun _ => True :=
    Marking.markOutdated_safe.leading <|
      (Leads.of_confined (P := Ticking) Marking.markOutdated_confined fun _ _ h hs =>
        hs.of_changes h (by decide)).mono (fun _ hs => hs.1) (fun _ _ hs => hs) fun _ _ => trivial
  unfold markAll
  extract_lets last poorest
  have hlast : ∀ r, (last r).Completes (fun s => Ticking s ∧ NodesDated s)
      (fun _ => Ticking) fun _ => True := fun _ => houtdated
  have hpoorest : ∀ r, (poorest r).Completes (fun s => Ticking s ∧ NodesDated s)
      (fun _ => Ticking) fun _ => True := by
    refine fun _ => .ite (fun _ => ?_) fun _ => hlast ()
    refine .readFact Marking.poorest?_faultless hpast
      (fun s o hs h => Marking.shows_of_poorest? hs.2 h) fun o ho => ?_
    cases o with
    | none => exact hlast ()
    | some n => exact (hmarked n (ho n rfl)).bind hlast
  refine .readFact (Marking.badNodes_faultless.restrict fun _ hs => hs.1) hpast
    (fun s ns hs h => Marking.shows_of_badNodes hs.2 h) fun bad hbad => ?_
  refine .bind (.forM fun n hn => hmarked n (hbad n hn)) fun _ => ?_
  refine .ite (fun _ => ?_) fun _ => hlast ()
  refine .readFact Marking.oldest?_faultless hpast
    (fun s o hs h => Marking.shows_of_oldest? hs.2 h) fun o ho => ?_
  cases o with
  | none => exact hpoorest ()
  | some n => exact (hmarked n (ho n rfl)).bind hpoorest

theorem rescored_faultless {height last : Height} (hheight : 0 ≤ height) (hlast : 0 ≤ last)
    (n : Node) : (rescored height last n).Faultless P := by
  refine .ite (fun _ => .pure _) fun _ => (Nodes.slashPoints_faultless _).past fun slash => ?_
  exact .past (.compute fun _ _ => Churn.score_ok hheight hlast slash) fun _ => .pure _

theorem nextSet_ticking (target : Nat) : (nextSet target).Sustains Ticking := by
  refine Safe.confined ?_ (nextSet_confined target) fun _ _ h hs => hs.of_changes h (by decide)
  have hpast : ∀ s, Ticking s → True := fun _ _ => trivial
  refine .past Marking.readjustAll_faultless Marking.readjustAll_confined
    (fun _ _ h hs => hs.of_changes h (by decide)) hpast fun _ => ?_
  refine .pastRead (Nodes.withStatus_faultless _) hpast fun ready => ?_
  refine .pastRead Nodes.active_faultless hpast fun present => ?_
  refine .readFact .currentHeight hpast (fun s _ hs => hs.nonneg) fun height hheight => ?_
  refine .readFact Marking.lastChurn_faultless hpast (fun s last hs => hs.churned last)
    fun last hlast => ?_
  have hrescored : (present.mapM fun n => rescored height last n : Action (List Node)).Completes
      Ticking (fun _ => Ticking) fun _ => True :=
    .mapM fun n _ => (Completes.read (rescored_faultless hheight hlast n)).mono_refusal hpast
  refine hrescored.bind fun _ => .pastRead (Governance.count_faultless _) hpast fun least => ?_
  exact .pastRead (Governance.value_faultless _) hpast fun _ => .pure hpast

theorem requestKeygen_faultless (next : List Node) (size : Nat) :
    (requestKeygen next size).Faultless := by
  refine .ite (fun _ => ?_) fun _ => .pure ()
  refine .readThen .currentHeight fun _ => .readThen (Query.Faultless.fetchD _ _) fun _ => ?_
  exact .put _ _

theorem churn_safe (vaults : List Vault) (activeNodes : Nat) (retry : Bool) :
    (churn vaults activeNodes retry).Safe fun s => Ticking s ∧ NodesDated s := by
  have hpast : ∀ s, Ticking s ∧ NodesDated s → True := fun _ _ => trivial
  have hhalted : (anyHalted vaults).Faultless fun s => Ticking s ∧ NodesDated s :=
    .anyM isHalted_faultless
  refine .pastRead hhalted hpast fun _ => .ite (fun _ => .pure hpast) fun _ => ?_
  refine .pastRead (Vaults.asgards_faultless _) hpast fun _ => .ite (fun _ => .pure hpast) ?_
  refine fun _ => .pastRead (Governance.count_faultless _) hpast fun least => ?_
  refine .pastRead (Governance.count_faultless _) hpast fun desired => ?_
  extract_lets rest
  have hrest : ∀ r, (rest r).Safe Ticking := by
    refine fun _ => Completes.bind (S := fun _ => Ticking) ?_ fun next => ?_
    · exact (nextSet_ticking desired).mono_refusal fun _ _ => trivial
    refine .ite (fun _ => ?_) fun _ => .pure fun _ _ => trivial
    exact .pastRead groupSize_faultless (fun _ _ => trivial) fun _ =>
      Safe.of_faultless (requestKeygen_faultless _ _)
  refine .ite (fun _ => (markAll_ticking _ _ _).bind hrest) fun _ => ?_
  exact (hrest ()).restrict fun _ hs => hs.1

/-- A block whose churns are punctual begins without a fault. -/
theorem beginBlock_safe :
    beginBlock.Safe fun s => (Ticking s ∧ NodesDated s) ∧ Punctual s := by
  have hpast : ∀ s, (Ticking s ∧ NodesDated s) ∧ Punctual s → True := fun _ _ => trivial
  refine .pastRead .currentHeight hpast fun _ => .ite ?_ fun _ => ?_
  · exact fun _ => Safe.of_faultless seatAll_faultless
  refine .pastRead NetworkState.isEnding_faultless hpast fun _ => .ite (fun _ => .pure hpast) ?_
  refine fun _ => .pastRead (Vaults.asgards_faultless _) hpast fun vaults => ?_
  refine .pastRead Nodes.active_faultless hpast fun active => ?_
  have hdue : (due vaults.length active.length).Faultless
      fun s => (Ticking s ∧ NodesDated s) ∧ Punctual s :=
    (due_faultless vaults.length active.length).restrict fun _ hs => ⟨hs.1.1, hs.2⟩
  refine .pastRead hdue hpast fun _ => .ite (fun _ => ?_) fun _ => .pure hpast
  exact (churn_safe _ _ _).restrict fun _ hs => hs.1

/-! ## Churns that are due past all heights -/

theorem due_overflows {last : Height} {interval : Signed} (vaults activeNodes : Nat)
    (hinterval : Governance.value .churnInterval s = .ok interval)
    (hlast : Marking.lastChurn s = .ok last)
    (hpast : 0x8000000000000000 ≤ last.val + interval.val) :
    due vaults activeNodes s = .error (.fault .addition) := by
  obtain ⟨step, hstep⟩ := Governance.valueAtLeast_ok .churnRetryInterval 0 s
  obtain ⟨size, hsize⟩ := Governance.valueAtLeast_ok .asgardSize 0 s
  have hgroup : groupSize s = .ok (max size 1).val.toNat :=
    Query.bind_eq_ok.2 ⟨size, hsize, rfl⟩
  have hnext : last.add interval = .error .addition := dif_neg fun h => by omega
  refine Query.bind_eq_error.2 (.inr ⟨interval, hinterval, ?_⟩)
  refine Query.bind_eq_error.2 (.inr ⟨step, hstep, ?_⟩)
  refine Query.bind_eq_error.2 (.inr ⟨_, hgroup, ?_⟩)
  refine Query.bind_eq_error.2 (.inr ⟨last, hlast, ?_⟩)
  refine Query.bind_eq_error.2 (.inr ⟨_, rfl, Query.bind_eq_error.2 (.inl ?_)⟩)
  rw [Query.compute_run, hnext]
  rfl

/-- Outside of ragnarok, every block that begins after the first one asks when the next churn is
due. -/
theorem beginBlock_overflows {last : Height} {interval : Signed} (hs : s.Filed)
    (hheight : s.height ≠ firstHeight) (hending : NetworkState.isEnding s = .ok false)
    (hinterval : Governance.value .churnInterval s = .ok interval)
    (hlast : Marking.lastChurn s = .ok last)
    (hpast : 0x8000000000000000 ≤ last.val + interval.val) :
    beginBlock s = (.error (.fault .addition), s) := by
  obtain ⟨vaults, hvaults, -⟩ := Query.bind_eq_ok.1 hlast
  obtain ⟨active, hactive⟩ := Nodes.withStatus_ok hs .active
  unfold beginBlock
  rw [Action.read_bind_run, currentHeight_run]
  dsimp only
  rw [if_neg hheight, Action.read_bind_run, hending]
  show (liftM (Vaults.asgards .active) >>= _ : Action Unit) s = _
  rw [Action.read_bind_run, hvaults]
  show (liftM Nodes.active >>= _ : Action Unit) s = _
  have hread : Nodes.active s = .ok active := hactive
  rw [Action.read_bind_run, hread]
  dsimp only
  rw [Action.read_bind_run, due_overflows _ _ hinterval hlast hpast]

/-- A block that begins meets a fault exactly if it asks for a churn that is due past all
heights. -/
theorem beginBlock_completes_iff (hs : s.Ticking) (hdated : s.NodesDated)
    (hheight : s.height ≠ firstHeight) :
    (∀ f t, beginBlock s ≠ (.error (.fault f), t)) ↔
      NetworkState.isEnding s = .ok true ∨ s.Punctual := by
  constructor
  · intro hcompletes
    rcases hending : NetworkState.isEnding s with e | ending
    · rw [isEnding_run] at hending
      cases hending
    cases ending with
    | true => exact .inl rfl
    | false =>
      refine .inr fun last interval hlast hinterval => Int.not_le.1 fun hpast => ?_
      exact hcompletes _ _
        (beginBlock_overflows hdated.filed hheight hending hinterval hlast hpast)
  · rintro (hending | hpunctual) f t hrun
    · rw [beginBlock_of_ending hheight hending] at hrun
      cases hrun
    · exact beginBlock_safe s _ t ⟨⟨hs, hdated⟩, hpunctual⟩ hrun

end Rotation

end LiquidityNet
