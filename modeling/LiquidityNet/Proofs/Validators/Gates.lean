import LiquidityNet.Fixture
import LiquidityNet.Proofs.Dispatch.Returns
import LiquidityNet.Proofs.Validators.Roster
import LiquidityNet.Proofs.Validators.Standing
import Mathlib.Algebra.Order.Floor.Div

/-!
# The gates of a churn

Ragnarok, the schedule, a halted chain and funds in a retiring vault each keep a churn from being
run. All of them are asked for before anything is written, so behind a closed gate a block begins
without any change. Behind an open one the active nodes may be marked, and nothing else of them
changes.
-/

namespace LiquidityNet

open LiquidityNet.Action Ledger

variable {α β : Type} {p : Prop} {s : Ledger}

/-! ## Actions that change nothing -/

/-- On this ledger, a run changes nothing unless `p` holds. -/
def Action.StillUnless (p : Prop) (s : Ledger) (body : Action α) : Prop := (body s).2 = s ∨ p

namespace Action.StillUnless

theorem pure (a : α) : StillUnless p s (Pure.pure a : Action α) := .inl rfl

theorem of_holds {body : Action α} (hp : p) : StillUnless p s body := .inr hp

/-- What was read is known from then on. -/
theorem readThen {q : Query β} {f : β → Action α}
    (hf : ∀ b, q s = .ok b → StillUnless p s (f b)) :
    StillUnless p s ((liftM q : Action β) >>= f) := by
  unfold StillUnless
  rw [read_bind_run]
  rcases hq : q s with e | b
  · exact .inl rfl
  · exact hf b hq

theorem ite {c : Prop} [Decidable c] {x y : Action α} (hx : c → StillUnless p s x)
    (hy : ¬ c → StillUnless p s y) : StillUnless p s (if c then x else y) := by
  split
  · exact hx ‹_›
  · exact hy ‹_›

end Action.StillUnless

namespace Rotation

/-! ## What the gates are told from -/

/-- Governance has halted a chain at this height or before. -/
def HaltedOn (s : Ledger) (c : Chain) : Prop :=
  ∃ halt, Governance.mimir? (Mimir.haltChain c) s = .ok (some halt) ∧ 0 < halt ∧ halt ≤ s.height

/-- What tells when a churn is due. -/
structure Timetable (s : Ledger) where
  last : Height
  interval : Signed
  step : Signed
  /-- How many nodes a vault should have. -/
  size : Nat
  last_read : Marking.lastChurn s = .ok last
  interval_read : Governance.value .churnInterval s = .ok interval
  step_read : Governance.value .churnRetryInterval s = .ok step
  size_read : groupSize s = .ok size

namespace Timetable

variable (x : Timetable s)

/-- How long ago the next churn was due. -/
def overtime : Int := s.height.val - x.last.val - x.interval.val

def OnSchedule : Prop := x.last.val + x.interval.val = s.height.val

/-- The interval has passed, or the active nodes need another number of vaults. -/
def IsOverdue (vaults nodes : Nat) : Prop :=
  x.interval.val < s.height.val - x.last.val ∨ vaults ≠ nodes ⌈/⌉ x.size

/-- An overdue churn is tried again in steps. -/
def IsRetried (vaults nodes : Nat) : Prop :=
  x.IsOverdue vaults nodes ∧ x.step.val ≠ 0 ∧ x.step.val ∣ x.overtime

def IsDue (vaults nodes : Nat) : Prop := x.OnSchedule ∨ x.IsRetried vaults nodes

end Timetable

/-- What is read before a churn is run. -/
structure Readings (s : Ledger) extends Timetable s where
  vaults : List Vault
  retiring : List Vault
  nodes : List Node
  vaults_read : Vaults.asgards .active s = .ok vaults
  retiring_read : Vaults.asgards .retiring s = .ok retiring
  nodes_read : Nodes.active s = .ok nodes

/-- All gates are open. -/
structure Readings.Opens (x : Readings s) : Prop where
  running : NetworkState.isEnding s = .ok false
  due : x.IsDue x.vaults.length x.nodes.length
  unhalted : ∀ v ∈ x.vaults, ∀ c ∈ v.chains, ¬ HaltedOn s c
  swept : ∀ v ∈ x.retiring, v.hasFunds = false

/-- The ledger lets a churn be run. -/
def ChurnOpens (s : Ledger) : Prop := ∃ x : Readings s, x.Opens

/-! ## Closed gates -/

theorem dvd_of_isMultiple {x step : Signed} (h : isMultiple x step = true) :
    step.val ≠ 0 ∧ step.val ∣ x.val := by
  simp only [isMultiple, Bool.and_eq_true, bne_iff_ne, beq_iff_eq] at h
  exact ⟨h.1.1, Int.dvd_of_tmod_eq_zero h.2⟩

theorem isHalted_eq {c : Chain} (h : isHalted c s = .ok false) : ¬ HaltedOn s c := by
  rintro ⟨halt, hmimir, hpositive, hpast⟩
  obtain ⟨height, hheight, h⟩ := Query.bind_eq_ok.1 h
  obtain rfl := Except.ok.inj hheight
  obtain ⟨o, ho, h⟩ := Query.bind_eq_ok.1 h
  obtain rfl := Except.ok.inj (hmimir.symm.trans ho)
  exact of_decide_eq_false (Except.ok.inj h) ⟨hpositive, hpast⟩

theorem unhalted_of_anyHalted {vaults : List Vault} (h : anyHalted vaults s = .ok false)
    {v : Vault} (hv : v ∈ vaults) {c : Chain} (hc : c ∈ v.chains) : ¬ HaltedOn s c :=
  isHalted_eq (Query.anyM_eq_false h (Recall.mem_chainsOf.2 ⟨v, hv, hc⟩))

theorem due_ok {vaults nodes : Nat} {d : Due} (h : due vaults nodes s = .ok d) :
    ∃ x : Timetable s, (d.onSchedule = true → x.OnSchedule) ∧
      (d.retry = true → x.IsRetried vaults nodes) := by
  obtain ⟨interval, hinterval, h⟩ := Query.bind_eq_ok.1 h
  obtain ⟨step, hstep, h⟩ := Query.bind_eq_ok.1 h
  obtain ⟨size, hsize, h⟩ := Query.bind_eq_ok.1 h
  obtain ⟨last, hlast, h⟩ := Query.bind_eq_ok.1 h
  obtain ⟨height, hheight, h⟩ := Query.bind_eq_ok.1 h
  obtain rfl := Except.ok.inj hheight
  obtain ⟨next, hnext, h⟩ := Query.bind_eq_ok.1 h
  obtain ⟨passed, hpassed, h⟩ := Query.bind_eq_ok.1 h
  rw [Query.compute_eq_ok, Signed.add_eq_ok_iff] at hnext
  rw [Query.compute_eq_ok, Signed.sub_eq_ok_iff] at hpassed
  refine ⟨⟨last, interval, step, size, hlast, hinterval, hstep, hsize⟩, ?_⟩
  have hscheduled : (next == s.height) = true → last.val + interval.val = s.height.val := by
    intro hnow
    rw [hnext, eq_of_beq hnow]
  dsimp only at h
  split at h
  · rename_i hoverdue
    obtain ⟨overtime, hovertime, h⟩ := Query.bind_eq_ok.1 h
    rw [Query.compute_eq_ok, Signed.sub_eq_ok_iff, ← hpassed] at hovertime
    cases h
    refine ⟨hscheduled, fun hretry => ⟨?_, ?_⟩⟩
    · rwa [Bool.or_eq_true_iff, decide_eq_true_iff, Signed.lt_def, bne_iff_ne,
        ← Nat.ceilDiv_eq_add_pred_div, ← hpassed] at hoverdue
    · rw [Timetable.overtime, hovertime]
      exact dvd_of_isMultiple hretry
  · cases h
    exact ⟨hscheduled, nofun⟩

/-- Behind a closed gate nothing changes. -/
theorem churn_still {vaults : List Vault} (activeNodes : Nat) (retry : Bool) :
    (churn vaults activeNodes retry).StillUnless (∃ retiring,
      Vaults.asgards .retiring s = .ok retiring ∧
        (∀ v ∈ vaults, ∀ c ∈ v.chains, ¬ HaltedOn s c) ∧ ∀ v ∈ retiring, v.hasFunds = false) s := by
  refine .readThen fun halted hhalted => .ite (fun _ => .pure ()) fun hpasses => ?_
  refine .readThen fun retiring hretiring => .ite (fun _ => .pure ()) fun hswept => ?_
  obtain rfl := Bool.eq_false_iff.2 hpasses
  refine .of_holds ⟨retiring, hretiring, ?_, ?_⟩
  · exact fun v hv c hc => unhalted_of_anyHalted hhalted hv hc
  · intro v hv
    exact Bool.eq_false_iff.2 fun hfunds => hswept (List.any_eq_true.2 ⟨v, hv, hfunds⟩)

theorem beginBlock_still (hheight : s.height ≠ firstHeight) :
    beginBlock.StillUnless (ChurnOpens s) s := by
  refine .readThen fun height hread => .ite (fun hfirst => ?_) fun _ => ?_
  · exact absurd ((Except.ok.inj hread).trans hfirst) hheight
  refine .readThen fun ending hending => .ite (fun _ => .pure ()) fun hrunning => ?_
  refine .readThen fun vaults hvaults => .readThen fun nodes hnodes => .readThen fun d hd => ?_
  refine .ite (fun hdue => ?_) fun _ => .pure ()
  obtain rfl := Bool.eq_false_iff.2 hrunning
  refine (churn_still _ _).imp_right ?_
  rintro ⟨retiring, hretiring, hunhalted, hswept⟩
  obtain ⟨x, hscheduled, hretry⟩ := due_ok hd
  refine ⟨⟨x, vaults, retiring, nodes, hvaults, hretiring, hnodes⟩, hending, ?_, hunhalted, hswept⟩
  exact (Bool.or_eq_true_iff.1 hdue).imp hscheduled hretry

end Rotation

/-! ## Active nodes -/

/-- The node, if it is active, without its mark. -/
def NodeView.unmarked : NodeView (Option Node) := fun o =>
  (activeNode o).map fun n => { n with leaveScore := 0 }

theorem NodeView.unmarked_ignoresMarks : unmarked.IgnoresMarks := by
  intro n score
  have hactive : ({ n with leaveScore := score } : Node).isActive = n.isActive := rfl
  rw [unmarked, activeNode, Option.filter_some, hactive, unmarked, activeNode, Option.filter_some]
  split <;> rfl

theorem NodeView.unmarked_ignoresMoves : unmarked.IgnoresMoves := fun n status height hidle h =>
  congrArg (Option.map _) (activeNode_ignoresMoves n status height hidle h)

namespace Rotation

/-- Of an active node nothing but the mark changes at the beginning of a block. -/
theorem beginBlock_active {n : Node} (hs : s.NodesComplete) (hheight : s.height ≠ firstHeight)
    (hn : s.Stores n) (hactive : n.status = .active) :
    ∃ score, (beginBlock s).2.Stores { n with leaveScore := score } := by
  rcases hrun : beginBlock s with ⟨r, t⟩
  have ht : Viewed .unmarked (fun a => NodeView.unmarked (s.nodeAt a)) t := by
    have hleads := beginBlock_viewed NodeView.unmarked_ignoresMarks
      NodeView.unmarked_ignoresMoves s r t ⟨hs.viewed, hheight⟩ hrun
    cases r <;> exact hleads
  have hview := ht.views n.address
  have hbefore : NodeView.unmarked (some n) = some { n with leaveScore := 0 } := by
    unfold NodeView.unmarked NodeView.activeNode
    rw [Option.filter_some, if_pos (Node.isActive_iff.2 hactive), Option.map_some]
  rw [hn.nodeAt, hbefore] at hview
  obtain ⟨m, hm, hsame⟩ := Option.map_eq_some_iff.1 hview
  have hafter : m = { n with leaveScore := m.leaveScore } :=
    congrArg (fun k : Node => { k with leaveScore := m.leaveScore }) hsame
  refine ⟨m.leaveScore, ?_⟩
  rw [← hafter]
  exact (ht.nodeAt_eq_some.1 (Option.filter_eq_some_iff.1 hm).1).2

/-- Behind a closed gate a block begins without any change, and in no case does more than the mark
of an active node change. -/
theorem beginBlock_gated (hheight : s.height ≠ firstHeight) :
    (¬ ChurnOpens s → (beginBlock s).2 = s) ∧
      (s.NodesComplete → ∀ n, s.Stores n → n.status = .active →
        ∃ score, (beginBlock s).2.Stores { n with leaveScore := score }) := by
  constructor
  · exact (beginBlock_still hheight).resolve_right
  · exact fun hs n hn hactive => beginBlock_active hs hheight hn hactive

/-! ### A churn on schedule, in front of a halted chain -/

def crew : List Node :=
  ["alva", "bela", "cleo", "dora", "elin", "fred"].map fun name => Fixture.node name .active 1 1

def aboard : List Node := Fixture.node "gwen" .ready .top 1 :: crew

def dock : Vault :=
  { Vault.make (.clamp 40) .active .asgard (Fixture.key "asgard-1") [.btc, .eth] with
    members := crew.filterMap Node.vaultKey }

/-- The interval since the last churn has just passed, and a node is ready to join. One of the
chains is halted from a given height on. -/
def harbour (halt : Height) : Ledger :=
  ((Ledger.ofNodes (.ofEnvironment .mocknet) (.clamp 100) aboard).putRecord (Key.vault dock.key)
    (.vault dock)).putRecord (Key.mimir (Mimir.haltChain .eth)) (.number halt)

theorem harbour_complete (halt : Height) : (harbour halt).NodesComplete := by
  have hnodes : (Ledger.ofNodes (.ofEnvironment .mocknet) (.clamp 100) aboard).NodesComplete :=
    nodesComplete_ofNodes (by decide)
  have hdock : (Record.vault dock).FiledAt (Key.vault dock.key) := rfl
  have hhalt : (Record.number halt).FiledAt (Key.mimir (Mimir.haltChain .eth)) :=
    ⟨.mimirs, by decide, Table.ofKey?_mimir _⟩
  have hchanges : Ledger.Changes [.vaults, .mimirs]
      (.ofNodes (.ofEnvironment .mocknet) (.clamp 100) aboard) (harbour halt) :=
    (changes_putRecord (by decide) (Table.ofKey?_vault dock.key) hdock).trans
      (changes_putRecord (by decide) (Table.ofKey?_mimir _) hhalt)
  exact ((hnodes.viewed (f := .blind)).of_changes hchanges (by decide)).toNodesComplete

theorem harbour_closed : ¬ ChurnOpens (harbour (.clamp 90)) := by
  have h : (Vaults.asgards .active (harbour (.clamp 90))).toOption = some [dock] ∧
      (Governance.mimir? (Mimir.haltChain .eth) (harbour (.clamp 90))).toOption =
        some (some (.clamp 90)) := by
    decide +kernel
  rintro ⟨x, hopens⟩
  have hvaults : [dock] = x.vaults :=
    Except.ok.inj ((eq_ok_of_toOption h.1).symm.trans x.vaults_read)
  have hdock : dock ∈ x.vaults := hvaults ▸ List.mem_singleton_self dock
  exact hopens.unhalted dock hdock .eth (by decide)
    ⟨_, eq_ok_of_toOption h.2, by decide, by decide⟩

/-- While the chain is halted nothing changes; before that the crew stays but for its marks. -/
theorem harbour_gated :
    (¬ ChurnOpens (harbour (.clamp 90)) ∧
      (beginBlock (harbour (.clamp 90))).2 = harbour (.clamp 90)) ∧
    ∀ n ∈ crew, ∃ score, (beginBlock (harbour (.clamp 101))).2.Stores
      { n with leaveScore := score } := by
  refine ⟨⟨harbour_closed, (beginBlock_gated (by decide)).1 harbour_closed⟩, fun n hn => ?_⟩
  have hlisted : Nodes.active (harbour (.clamp 101)) = .ok crew :=
    eq_ok_of_toOption (by decide +kernel)
  obtain ⟨hstored, hactive⟩ :=
    (Nodes.mem_withStatus (harbour_complete (.clamp 101)) hlisted).1 hn
  exact (beginBlock_gated (by decide)).2 (harbour_complete (.clamp 101)) n hstored hactive

/-- But for the halt the churn would be run. -/
example : (due 1 6 (harbour (.clamp 90))).toOption.map (·.onSchedule) = some true := by
  decide +kernel

end Rotation

end LiquidityNet
