import LiquidityNet.Fixture
import LiquidityNet.Proofs.Application.Blocks
import LiquidityNet.Proofs.Validators.Engine

/-!
# The engine and the application agree on the validators

Block after block the engine takes the updates that the application gives it, and tells the
application its validators when the next block begins. Vaults change from outside, as new keys are
generated. The engine's validators stay the active nodes throughout.
-/

namespace LiquidityNet

open LiquidityNet.Action Ledger

namespace Ledger

/-- The engine's validators are the active nodes that have a consensus key. -/
def TrackedBy (s : Ledger) (engine : List String) : Prop :=
  ∀ k, k ∈ engine ↔ k ≠ "" ∧ ∃ n, s.Stores n ∧ n.isActive = true ∧ n.consensusKey = k

/-- No two stored nodes share a consensus key. -/
def KeysDistinct (s : Ledger) : Prop :=
  ∀ m n, s.Stores m → s.Stores n → m.consensusKey = n.consensusKey → m.consensusKey ≠ "" →
    m.address = n.address

variable {s : Ledger} {engine : List String}

theorem NodesComplete.trackedBy_iff (hs : s.NodesComplete) :
    s.TrackedBy engine ↔ ∀ k, k ∈ engine ↔ ∃ a, s.seat? a = some ⟨k, true⟩ := by
  refine forall_congr' fun k => iff_congr Iff.rfl ?_
  constructor
  · rintro ⟨hk, n, hn, hactive, rfl⟩
    exact ⟨n.address, hs.seat?_eq_some.2 ⟨n, rfl, hn, Node.seat?_eq_some.2 ⟨hk, rfl, hactive⟩⟩⟩
  · rintro ⟨a, ha⟩
    obtain ⟨n, -, hn, hseat⟩ := hs.seat?_eq_some.1 ha
    obtain ⟨hk, hkey, hactive⟩ := Node.seat?_eq_some.1 hseat
    exact ⟨hk, n, hn, hactive, hkey⟩

theorem KeysDistinct.distinct (h : s.KeysDistinct) (hs : s.NodesComplete) :
    Distinct fun a => (s.seat? a).map Seat.key := by
  intro a b k ha hb
  obtain ⟨x, hx, rfl⟩ := Option.map_eq_some_iff.1 ha
  obtain ⟨y, hy, hxy⟩ := Option.map_eq_some_iff.1 hb
  obtain ⟨m, rfl, hm, hmx⟩ := hs.seat?_eq_some.1 hx
  obtain ⟨n, rfl, hn, hny⟩ := hs.seat?_eq_some.1 hy
  obtain ⟨hkey, hmkey, -⟩ := Node.seat?_eq_some.1 hmx
  obtain ⟨-, hnkey, -⟩ := Node.seat?_eq_some.1 hny
  exact h m n hm hn (hmkey.trans (hxy.symm.trans hnkey.symm)) (hmkey.symm ▸ hkey)

end Ledger

namespace Application

/-- A record of a vault that is stored or erased from outside. -/
inductive VaultChange where
  | store (v : Vault)
  | discard (k : PublicKey)

def VaultChange.perform : VaultChange → Action Unit
  | store v => Vaults.save v
  | discard k => Ledger.erase (Key.vault k)

/-- A block, with the changes of the vaults before it. -/
structure Block where
  vaults : List VaultChange
  height : Height
  messages : List Message

/-- The application and the keys that the engine counts among its validators. -/
structure Consensus where
  app : Application
  engine : List String

def updatesOf : Except Failure BlockResult → List Rotation.PowerUpdate
  | .ok result => result.updates
  | .error _ => []

namespace Consensus

def opened (c : Consensus) (b : Block) : Application :=
  { c.app with ledger := (b.vaults.forM VaultChange.perform c.app.ledger).2 }

/-- The application at the end of a block, before it is told so. -/
def closing (c : Consensus) (b : Block) : Application :=
  (.begin b.height c.engine :: b.messages.map Call.deliver).foldl (fun app call => call.next app)
    (c.opened b)

def step (c : Consensus) (b : Block) : Consensus where
  app := Call.finish.next (c.closing b)
  engine := (updatesOf (c.closing b).endBlock.1).foldl Rotation.PowerUpdate.enact c.engine

def run : List Block → Consensus → Consensus
  | [], c => c
  | b :: bs, c => run bs (c.step b)

/-- No block ends in a fault. -/
def Faultless : List Block → Consensus → Prop
  | [], _ => True
  | b :: bs, c => Call.finish.isFaultless (c.closing b) = true ∧ Faultless bs (c.step b)

instance decidableFaultless : (bs : List Block) → (c : Consensus) → Decidable (Faultless bs c)
  | [], _ => .isTrue trivial
  | b :: bs, c => @instDecidableAnd _ _ _ (decidableFaultless bs (c.step b))

end Consensus

theorem VaultChange.perform_confined (x : VaultChange) : x.perform.Confined [.vaults] := by
  cases x with
  | store v => exact Vaults.save_confined v
  | discard k => exact .erase (T := .vaults) (by decide) (by simp)

/-! ## Blocks -/

namespace Consensus

variable {keys : Address → Option String} {engine : List String}

/-- The parts of a block are those that leave every seat as it is. -/
theorem abiding_seated (v : Seats) : Abiding (Seated v) := abiding_viewed Seat.view_ignoresMessages

theorem endAction_synced (hdistinct : Distinct keys) :
    (endAction engine).Yields (Synced keys engine)
      (fun r => Synced keys (r.updates.foldl Rotation.PowerUpdate.enact engine))
      fun _ => False := by
  have hbatch : (attempt (Queue.runBatch runSwap)).Keeps (Synced keys engine) :=
    Synced.kept fun v => (abiding_seated v).runBatch.attempt
  have hdrain : Ledger.drain.Answers := .drain
  have hdrained : ∀ updates, Yields
      (Synced keys (updates.foldl Rotation.PowerUpdate.enact engine))
      (do return ⟨updates, ← drain⟩ : Action BlockResult)
      (fun r => Synced keys (r.updates.foldl Rotation.PowerUpdate.enact engine))
      fun _ => False := fun updates =>
    .bind ((Synced.kept fun v => (abiding_seated v).drain).answered hdrain) fun _ =>
      .pure fun _ hs => hs
  refine .bind (hbatch.answered (.attempt _)) fun _ => ?_
  refine .bind (Rotation.endBlock_synced hdistinct).attempt fun outcome => ?_
  cases outcome with
  | ok updates => exact hdrained updates
  | error e => exact hdrained []

theorem deliveries_synced (ms : List Message) (app : Application)
    (hs : Synced keys app.engineKeys app.ledger) :
    let last := (ms.map Call.deliver).foldl (fun app call => call.next app) app
    last.engineKeys = app.engineKeys ∧ Synced keys app.engineKeys last.ledger := by
  induction ms generalizing app with
  | nil => exact ⟨rfl, hs⟩
  | cons m ms ih =>
    have hkept : (deliverAction m).Keeps (Synced keys app.engineKeys) :=
      Synced.kept fun v => (abiding_seated v).deliverAction m
    exact ih (app.deliver m).2 (hkept.after hs)

/-- Nothing before the end of the block changes a seat. -/
theorem closing_synced {c : Consensus} {b : Block} (hheight : 2 ≤ b.height.val)
    (hs : Synced keys c.engine c.app.ledger) :
    (c.closing b).engineKeys = c.engine ∧ Synced keys c.engine (c.closing b).ledger := by
  have hvaults : (b.vaults.forM VaultChange.perform).Keeps (Synced keys c.engine) :=
    Synced.kept fun v => Viewed.apart [.vaults] (.forM fun x _ => x.perform_confined) (by decide)
  have hpast : b.height ≠ Rotation.firstHeight := by
    intro h
    rw [h] at hheight
    exact absurd hheight (by decide)
  have hbegun : (beginAction b.height).Keeps (Synced keys c.engine) :=
    Synced.kept fun v => beginAction_viewed Seat.view_ignoresMessages Seat.view_ignoresMarks hpast
  exact deliveries_synced b.messages ((Call.begin b.height c.engine).next (c.opened b))
    (hbegun.after (hvaults.after hs))

theorem step_synced (hdistinct : Distinct keys)
    {c : Consensus} {b : Block} (hheight : 2 ≤ b.height.val)
    (hfaultless : Call.finish.isFaultless (c.closing b) = true)
    (hs : Synced keys c.engine c.app.ledger) :
    Synced keys (c.step b).engine (c.step b).app.ledger := by
  obtain ⟨hengine, hclosing⟩ := closing_synced hheight hs
  rcases hrun : endAction (c.closing b).engineKeys (c.closing b).ledger with ⟨r, t⟩
  have hended := endAction_synced hdistinct _ r t (hengine.symm ▸ hclosing) hrun
  have hresult : (c.closing b).endBlock.1 = r := congrArg Prod.fst hrun
  have hledger : (c.step b).app.ledger = t := congrArg Prod.snd hrun
  have hnext : (c.step b).engine = (updatesOf r).foldl Rotation.PowerUpdate.enact c.engine := by
    show (updatesOf (c.closing b).endBlock.1).foldl _ _ = _
    rw [hresult]
  rw [hledger, hnext]
  rcases r with (e | f) | result
  · exact hended.elim
  · have hfault : Call.finish.isFaultless (c.closing b) = false := by
      show (failureOf (c.closing b).endBlock.1).all _ = false
      rw [hresult]
      rfl
    cases hfault.symm.trans hfaultless
  · rw [hengine] at hended
    exact hended

theorem run_synced (hdistinct : Distinct keys)
    {c : Consensus} {bs : List Block} (hheights : ∀ b ∈ bs, 2 ≤ b.height.val)
    (hfaultless : Faultless bs c) (hs : Synced keys c.engine c.app.ledger) :
    Synced keys (run bs c).engine (run bs c).app.ledger := by
  induction bs generalizing c with
  | nil => exact hs
  | cons b bs ih =>
    refine ih (fun b' hb' => hheights b' (List.mem_cons_of_mem b hb')) hfaultless.2 ?_
    exact step_synced hdistinct (hheights b List.mem_cons_self) hfaultless.1 hs

/-- From a ledger of complete nodes with distinct keys that the engine tracks, the engine still
tracks the active nodes after any run of blocks past the first height. -/
theorem engine_tracks_active {c : Consensus} {bs : List Block}
    (hcomplete : c.app.ledger.NodesComplete) (hdistinct : c.app.ledger.KeysDistinct)
    (htracked : c.app.ledger.TrackedBy c.engine) (hheights : ∀ b ∈ bs, 2 ≤ b.height.val)
    (hfaultless : Faultless bs c) : (run bs c).app.ledger.TrackedBy (run bs c).engine := by
  have hsynced : Synced (fun a => (c.app.ledger.seat? a).map Seat.key) c.engine c.app.ledger :=
    ⟨hcomplete, fun _ => rfl, hcomplete.trackedBy_iff.1 htracked⟩
  have hend := run_synced (hdistinct.distinct hcomplete) hheights hfaultless hsynced
  exact hend.toNodesComplete.trackedBy_iff.2 hend.engine

/-! ### One node takes the seat of another -/

def senior : Node := Fixture.node "senior" .active 1 1

def junior : Node := Fixture.node "junior" .standby 1 1

def changeover : Consensus where
  app := ⟨((Ledger.empty (.ofEnvironment .mocknet) 1).putRecord (Key.node senior.address)
    (.node senior)).putRecord (Key.node junior.address) (.node junior), []⟩
  engine := [senior.consensusKey]

def juniorVault : Vault :=
  { Vault.make 1 .active .asgard (Fixture.key "asgard") [] with members := [Fixture.key "junior"] }

def farewell : UnbondRequest where
  tx := ⟨.blank, some .thor, senior.operator, senior.address, [], [], ""⟩
  node := senior.address
  amount := 0
  bondAddress := senior.operator
  provider := none
  signer := senior.operator

/-- The new vault is held by the other node; then there is no vault, and the bond is withdrawn. -/
def changeoverBlocks : List Block :=
  [⟨[.store juniorVault], .clamp 2, []⟩,
    ⟨[.discard juniorVault.key], .clamp 3, [.unbond farewell]⟩]

theorem changeover_stores {n : Node} (h : changeover.app.ledger.Stores n) :
    n = senior ∨ n = junior := by
  unfold Stores at h
  change Ledger.get? (Ledger.putRecord _ (Key.node junior.address) _) _ = _ at h
  rw [get?_putRecord, get?_putRecord] at h
  split at h
  · cases h
    exact .inr rfl
  · split at h
    · cases h
      exact .inl rfl
    · cases h

theorem changeover_complete : changeover.app.ledger.NodesComplete := by
  have hempty := nodesComplete_empty (.ofEnvironment .mocknet) 1
  have hsenior := hempty.put (n := senior) rfl
  exact hsenior.put (n := junior) rfl

theorem changeover_tracked :
    let c := run changeoverBlocks changeover
    c.engine = [junior.consensusKey] ∧ c.app.ledger.TrackedBy c.engine := by
  have hdistinct : changeover.app.ledger.KeysDistinct := by
    intro m n hm hn hkey _
    rcases changeover_stores hm with rfl | rfl <;> rcases changeover_stores hn with rfl | rfl
    · rfl
    · exact absurd hkey (by decide +kernel)
    · exact absurd hkey (by decide +kernel)
    · rfl
  have htracked : changeover.app.ledger.TrackedBy changeover.engine := by
    intro k
    constructor
    · intro hk
      obtain rfl : k = senior.consensusKey := List.mem_singleton.1 hk
      have hstored : changeover.app.ledger.Stores senior := by
        have hkey : Key.node senior.address ≠ Key.node junior.address := by decide +kernel
        show Ledger.get? (Ledger.putRecord _ (Key.node junior.address) _) _ = _
        rw [get?_putRecord, if_neg hkey, get?_putRecord, if_pos rfl]
      exact ⟨by decide +kernel, senior, hstored, by decide +kernel, rfl⟩
    · rintro ⟨-, n, hn, hactive, rfl⟩
      rcases changeover_stores hn with rfl | rfl
      · exact List.mem_singleton.2 rfl
      · cases hactive
  have hheights : ∀ b ∈ changeoverBlocks, 2 ≤ b.height.val := by decide
  have hend := engine_tracks_active changeover_complete hdistinct htracked hheights
    (by decide +kernel)
  exact ⟨by decide +kernel, hend⟩

end Consensus

end Application

end LiquidityNet
