import LiquidityNet.Fixture
import LiquidityNet.Proofs.Application.Blocks
import LiquidityNet.Proofs.Application.Completeness
import LiquidityNet.Proofs.Validators.Roster
import LiquidityNet.Proofs.Validators.Shutdown

/-!
# The shutdown is never taken back

Once ragnarok has begun, no call of the engine moves its height, sets it back, changes who is
active, requests a keygen or reports an update of the validators. Messages, swaps and refunds go on
meanwhile.
-/

namespace LiquidityNet

open LiquidityNet.Action Ledger

/-- Whether there is a node that is active. -/
def NodeView.activity : NodeView Bool := fun o => o.any Node.isActive

theorem NodeView.activity_ignoresMessages : activity.IgnoresMessages where
  bonds := fun _ _ => rfl
  moves := by
    intro n status height hidle hstatus
    show (n.moveTo status height).isActive = n.isActive
    rw [hidle, Node.isActive_eq, Node.moveTo_status]
    exact beq_false_of_ne hstatus
  newcomers := fun _ hidle _ => hidle

namespace Ledger

/-- One table is the same in both ledgers. -/
def SameIn (T : Table) (s t : Ledger) : Prop :=
  ∀ k, Table.ofKey? k = some T → t.get? k = s.get? k

/-- The second ledger comes after the first one, in which ragnarok had begun. -/
structure Latched (s t : Ledger) : Prop where
  phase : s.phase.Precedes t.phase
  active : ∀ a, (t.nodeAt a).any Node.isActive = (s.nodeAt a).any Node.isActive
  keygens : ∀ height, t.get? (Key.keygen height) = s.get? (Key.keygen height)
  staged : t.phase.staged = true → t.AllStaged

/-- What the calls of the engine keep of a ledger in which ragnarok has begun. -/
structure Frozen (s t : Ledger) : Prop where
  reached : Ragnarok.Reached s.phase t
  active : Viewed .activity (fun a => NodeView.activity (s.nodeAt a)) t
  keygens : SameIn .keygens s t

variable {s t : Ledger}

theorem Frozen.latched (h : Frozen s t) (hbegun : 0 < s.phase.height) : Latched s t where
  phase := h.reached.reaches hbegun
  active := h.active.views
  keygens height := h.keygens _ (Table.ofKey?_keygen height)
  staged := h.reached.inPhase.staged

theorem Frozen.isEnding (h : Frozen s t) (hbegun : 0 < s.phase.height) :
    NetworkState.isEnding t = .ok true := by
  have hheight := (h.reached.reaches hbegun).height
  rw [isEnding_run, hheight, decide_eq_true hbegun]

theorem Frozen.kept {α : Type} {body : Action α} {Ts : List Table}
    (hphase : ∀ p, body.Keeps (Ragnarok.Reached p)) (hactive : ∀ v, body.Keeps (Viewed .activity v))
    (hchanges : ∀ {s r t}, body s = (r, t) → Changes Ts s t) (hTs : .keygens ∉ Ts) :
    body.Keeps (Frozen s) := by
  intro t r u ht hrun
  have hreached := hphase _ t r u ht.reached hrun
  have hviewed := hactive _ t r u ht.active hrun
  have hkeygens : SameIn .keygens s u := fun k hk =>
    ((hchanges hrun).get?_eq hk hTs).trans (ht.keygens k hk)
  cases r <;> exact ⟨hreached, hviewed, hkeygens⟩

end Ledger

namespace Rotation

variable {s : Ledger} {p : Phase} {engineKeys : List String}

/-- The end of a block only reaches later phases, and has updates only if ragnarok has not begun. -/
theorem endBlock_reached :
    (endBlock engineKeys).Leads (Ragnarok.Reached p)
      (fun updates s => Ragnarok.Reached p s ∧ (0 < s.phase.height → updates = []))
      (Ragnarok.Reached p) := by
  refine Ragnarok.Reached.leads fun q => ?_
  have hpast : ∀ s, InPhase q s → Ragnarok.Reached q s := fun _ hs =>
    Ragnarok.reached_of hs (.refl q)
  have hticked : (do Ragnarok.tick; return [] : Action (List PowerUpdate)).Leads (InPhase q)
      (fun updates s => Ragnarok.Reached q s ∧ (0 < s.phase.height → updates = []))
      (Ragnarok.Reached q) :=
    (Ragnarok.tick_reached.restrict hpast).bind fun _ =>
      .pure fun _ hs => ⟨hs, fun _ => rfl⟩
  have hending : ∀ s ending, InPhase q s → NetworkState.isEnding s = .ok ending →
      ending = decide (0 < q.height) := fun s ending hs h => by
    rw [isEnding_run, hs.phase] at h
    exact (Except.ok.inj h).symm
  refine .readFact hpast hending fun ending hending => .ite (fun _ => hticked) fun hnot => ?_
  refine .pastRead hpast fun c => .pastRead hpast fun _ => .ite (fun _ => hticked) fun _ => ?_
  refine .ite (fun _ => .pure fun _ hs => ⟨hpast _ hs, fun _ => rfl⟩) fun _ => ?_
  -- Nodes join or leave only in a phase before ragnarok, which is then kept.
  refine ((oversees_inPhase q).applyChanges engineKeys c).mono (fun _ hs => hs) (fun _ s hs => ?_) hpast
  refine ⟨hpast s hs, fun hbegun => ?_⟩
  rw [hending, decide_eq_true_iff] at hnot
  exact absurd (hs.phase ▸ hbegun) hnot

theorem endBlock_of_ending (h : NetworkState.isEnding s = .ok true) :
    endBlock engineKeys s = (do Ragnarok.tick; return [] : Action (List PowerUpdate)) s := by
  unfold endBlock
  rw [read_bind_run, h]
  rfl

end Rotation

/-! ## Calls -/

namespace Application

theorem abiding_reached (p : Phase) : Abiding (Ragnarok.Reached p) where
  congr h hs := Ragnarok.reached_of ((oversees_inPhase _).congr h hs.inPhase) hs.reaches
  queue h hs := Ragnarok.reached_of ((oversees_inPhase _).abiding.queue h hs.inPhase) hs.reaches
  dispatch m := Ragnarok.Reached.kept fun q => (oversees_inPhase q).dispatch m
  refund m cause := Ragnarok.Reached.kept fun q => (oversees_inPhase q).refundSwap m cause

theorem abiding_frozen (s : Ledger) : Abiding (Frozen s) where
  congr h ht := ⟨(abiding_reached _).congr h ht.reached, ht.active.congr h,
    fun k hk => (h k).trans (ht.keygens k hk)⟩
  queue h ht := ⟨(abiding_reached _).queue h ht.reached, ht.active.of_changes h (by decide),
    fun k hk => (h.get?_eq hk (by decide)).trans (ht.keygens k hk)⟩
  dispatch m := Frozen.kept (fun p => (abiding_reached p).dispatch m)
    (fun _ => Dispatch.dispatch_viewed NodeView.activity_ignoresMessages m)
    Dispatch.dispatch_changes (by decide)
  refund m cause := Frozen.kept (fun p => (abiding_reached p).refund m cause)
    (fun _ => Viewed.apart _ (Queue.refund_confined m cause) (by decide))
    (Queue.refund_confined m cause).changes (by decide)

theorem lasting_reached (p : Phase) : Lasting (Ragnarok.Reached p) where
  abiding := abiding_reached p
  beginBlock := Ragnarok.Reached.kept fun q =>
    (oversees_inPhase q).apart _ Rotation.beginBlock_confined (by decide) (by decide)
  tick := Ragnarok.tick_reached
  apply engineKeys c := Ragnarok.Reached.kept fun q => (oversees_inPhase q).applyChanges engineKeys c

theorem endAction_reached (p : Phase) (engineKeys : List String) :
    (endAction engineKeys).Leads (Ragnarok.Reached p)
      (fun result s => Ragnarok.Reached p s ∧ (0 < s.phase.height → result.updates = []))
      (Ragnarok.Reached p) :=
  (abiding_reached p).endAction
    (X := fun updates s => 0 < s.phase.height → updates = [])
    (fun _ _ _ h hs => by rwa [phase_congr (h _)]) (fun _ _ _ => rfl) Rotation.endBlock_reached

section

variable {s : Ledger} (hbegun : 0 < s.phase.height)
include hbegun

theorem beginAction_frozen {height : Height} (hheight : height ≠ Rotation.firstHeight) :
    (beginAction height).Keeps (Frozen s) := by
  refine (abiding_frozen s).beginAction ?_
  rintro t r u ⟨ht, rfl⟩ hrun
  rw [Rotation.beginBlock_of_ending hheight (ht.isEnding hbegun)] at hrun
  cases hrun
  exact ht

theorem endBlock_frozen (engineKeys : List String) :
    (Rotation.endBlock engineKeys).Keeps (Frozen s) := by
  have htick : Ragnarok.tick.Keeps (Frozen s) := Frozen.kept (fun _ => Ragnarok.tick_reached)
    (fun _ => Ragnarok.tick_viewed NodeView.activity_ignoresMessages.bonds)
    Ragnarok.tick_confined.changes (by decide)
  have hticked := htick.bind fun _ =>
    (Leads.pure fun _ ht => ht : (pure [] : Action (List Rotation.PowerUpdate)).Keeps (Frozen s))
  intro t r u ht hrun
  rw [Rotation.endBlock_of_ending (ht.isEnding hbegun)] at hrun
  exact hticked t r u ht hrun

end

namespace Call

/-- A block that begins does so past the first height. -/
def IsLater : Call → Prop
  | begin height _ => 2 ≤ height.val
  | _ => True

instance decidableIsLater : (c : Call) → Decidable c.IsLater
  | begin height _ => inferInstanceAs (Decidable (2 ≤ height.val))
  | deliver _ => .isTrue trivial
  | finish => .isTrue trivial

/-- The updates of the validators that a call reports. -/
def updates (app : Application) : Call → List Rotation.PowerUpdate
  | finish => updatesOf app.endBlock.1
  | _ => []

/-- A call that leaves ragnarok begun reports no updates. -/
theorem updates_of_begun {p : Phase} {app : Application} {c : Call}
    (h : Ragnarok.Reached p app.ledger) (hbegun : 0 < (c.next app).ledger.phase.height) :
    c.updates app = [] := by
  cases c with
  | begin height engineKeys => rfl
  | deliver m => rfl
  | finish =>
    rcases hrun : endAction app.engineKeys app.ledger with ⟨r, t⟩
    have hended := endAction_reached p _ _ r t h hrun
    have hresult : app.endBlock.1 = r := congrArg Prod.fst hrun
    have hledger : (finish.next app).ledger = t := congrArg Prod.snd hrun
    rw [hledger] at hbegun
    show updatesOf app.endBlock.1 = []
    rw [hresult]
    cases r with
    | ok result => exact hended.2 hbegun
    | error e => rfl

theorem next_frozen {s : Ledger} {app : Application} {c : Call} (hbegun : 0 < s.phase.height)
    (hlater : c.IsLater) (h : Frozen s app.ledger) : Frozen s (c.next app).ledger := by
  cases c with
  | begin height engineKeys =>
    have hheight : height ≠ Rotation.firstHeight := by
      rintro rfl
      exact absurd (show (2 : Int) ≤ 1 from hlater) (by decide)
    exact (beginAction_frozen hbegun hheight).after h
  | deliver m => exact ((abiding_frozen s).deliverAction m).after h
  | finish =>
    exact ((abiding_frozen s).endAction_keeps (endBlock_frozen hbegun app.engineKeys)).after h

end Call

variable {app : Application}

theorem after_frozen {s : Ledger} {calls : List Call} (hbegun : 0 < s.phase.height)
    (hlater : ∀ c ∈ calls, c.IsLater) (h : Frozen s app.ledger) :
    Frozen s (app.after calls).ledger := by
  induction calls generalizing app with
  | nil => exact h
  | cons c calls ih =>
    refine ih (fun d hd => hlater d (List.mem_cons_of_mem c hd)) ?_
    exact Call.next_frozen hbegun (hlater c List.mem_cons_self) h

/-- From a state in which ragnarok has not begun, let it have begun after some calls. Whatever the
engine calls from then on, the shutdown is not taken back; and no call after which ragnarok has
begun reports updates of the validators. -/
theorem shutdown_latched {before later : List Call} (hcomplete : app.ledger.NodesComplete)
    (hpools : app.ledger.PoolsFiled) (hphase : app.ledger.phase = ⟨0, 0, false⟩)
    (hlater : ∀ c ∈ before ++ later, c.IsLater)
    (hbegun : 0 < (app.after before).ledger.phase.height) :
    Latched (app.after before).ledger (app.after (before ++ later)).ledger ∧
      ∀ calls c, 0 < (app.after (calls ++ [c])).ledger.phase.height →
        c.updates (app.after calls) = [] := by
  have hstart : Ragnarok.Reached app.ledger.phase app.ledger := by
    refine ⟨.refl _, ⟨hcomplete.filed, hpools, rfl, fun hstaged => ?_⟩⟩
    rw [hphase] at hstaged
    cases hstaged
  constructor
  · have hreached := (lasting_reached _).after before hstart
    have hfrozen : Frozen (app.after before).ledger (app.after before).ledger :=
      ⟨⟨.refl _, hreached.inPhase⟩, (lasting_complete.after before hcomplete).viewed, fun _ _ => rfl⟩
    rw [after_append]
    refine (after_frozen hbegun (fun c hc => ?_) hfrozen).latched hbegun
    exact hlater c (List.mem_append_right before hc)
  · intro calls c hbegun
    rw [after_append] at hbegun
    exact Call.updates_of_begun ((lasting_reached _).after calls hstart) hbegun

/-! ### Governance ends a network of one node -/

def keeper : Node := Fixture.node "keeper" .active 1 1

def keeperVault : Vault :=
  { Vault.make 1 .active .asgard (Fixture.key "asgard") [] with members := [Fixture.key "keeper"] }

def lastPool : Pool := Pool.make (.of .btc "BTC") 1 1

def lastSettings : Settings :=
  (Settings.ofEnvironment .mocknet).set .artificialRagnarokBlockHeight (.clamp 2)

def lastLedger : Ledger :=
  (((Ledger.empty lastSettings 1).putRecord (Key.node keeper.address) (.node keeper)).putRecord
    (Key.vault keeperVault.key) (.vault keeperVault)).putRecord
      (Key.pool lastPool.asset) (.pool lastPool)

theorem lastLedger_complete : lastLedger.NodesComplete := by
  have hnode := ((nodesComplete_empty lastSettings 1).put (n := keeper) rfl).viewed (f := .blind)
  have hvault := hnode.of_changes ((Vaults.save_confined keeperVault).changes rfl) (by decide)
  exact (hvault.of_changes ((Pools.save_confined lastPool).changes rfl) (by decide)).toNodesComplete

theorem lastLedger_poolsFiled : lastLedger.PoolsFiled := by
  have hempty := poolsFiled_empty lastSettings 1
  have hnode : Changes [.nodes] (Ledger.empty lastSettings 1) _ :=
    changes_putRecord (r := .node keeper) List.mem_cons_self (Table.ofKey?_node keeper.address) rfl
  have hvault := (hempty.of_changes hnode (by decide)).of_changes
    ((Vaults.save_confined keeperVault).changes rfl) (by decide)
  exact hvault.putRecord (q := lastPool) (by decide +kernel)

/-- Ragnarok begins with the second block; the third one stages the pool. -/
theorem lastLedger_latched :
    let blocks : List Call := [.begin (.clamp 2) [keeper.consensusKey], .finish]
    let later : List Call := [.begin (.clamp 3) [keeper.consensusKey], .finish]
    let app : Application := ⟨lastLedger, []⟩
    (app.after blocks).ledger.phase = ⟨.clamp 2, 0, false⟩ ∧
      (app.after (blocks ++ later)).ledger.phase = ⟨.clamp 2, 1, true⟩ ∧
      Latched (app.after blocks).ledger (app.after (blocks ++ later)).ledger := by
  intro blocks later app
  have hphase : (app.after blocks).ledger.phase = ⟨.clamp 2, 0, false⟩ := by decide +kernel
  have hlater : ∀ c ∈ blocks ++ later, c.IsLater := by decide
  have hidle : app.ledger.phase = ⟨0, 0, false⟩ := by decide +kernel
  have hlatched := shutdown_latched lastLedger_complete lastLedger_poolsFiled hidle hlater
    (by rw [hphase]; decide)
  exact ⟨hphase, by decide +kernel, hlatched.1⟩

end Application

end LiquidityNet
