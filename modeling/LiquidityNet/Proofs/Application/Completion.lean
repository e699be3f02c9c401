import LiquidityNet.Fixture
import LiquidityNet.Proofs.Queue.Completion
import LiquidityNet.Proofs.Queue.Conservation
import LiquidityNet.Proofs.Validators.Completion
import LiquidityNet.Proofs.Validators.Schedule

/-!
# Blocks that run to their end

What is refused at the beginning or end of a block is passed over, but a fault there halts the
chain. The end of a block meets none from a ledger that can be settled: one with room for the coins
of its queue, with bonds that can be rewarded and with a round of ragnarok that can be counted. The
beginning meets none from a ledger whose churns are timed, unless governance put the next of them
past all heights.
-/

namespace LiquidityNet

open LiquidityNet.Action Ledger

/-! ## The end of a block -/

/-- What the end of a block relies on. -/
structure Ledger.Settleable (s : Ledger) : Prop extends Payable s where
  room : HasRoom [] (Queue.coins s.queued) s
  rounds : ∀ t, NetworkState.get s = .ok t → Ragnarok.Counts t.ragnarokRound

namespace Application

theorem runBatch_confined :
    (Queue.runBatch runSwap).Confined (.swaps :: Swap.tables) := by
  have hswap : ∀ m, (runSwap m).Confined Swap.tables := by
    intro m
    have hroute : (Dispatch.route (.swap m)).Confined Swap.tables :=
      (Swap.handle_confined m).bind fun _ => .pure ()
    exact (Dispatch.dispatch_confined hroute).bind fun _ => .pure ()
  have hremoved : ∀ (r : Queue.Rated) (outcome : Option Error),
      Confined (.swaps :: Swap.tables)
        (do Queue.remove r.request.tx.id r.index; return (r.request.tx.id, outcome)) := by
    intro r outcome
    have herased : (Queue.remove r.request.tx.id r.index).Confined (.swaps :: Swap.tables) :=
      .erase (T := .swaps) (by decide) (by simp)
    exact herased.bind fun _ => .pure _
  rw [Queue.runBatch_eq]
  refine .readThen fun rs => .mapM fun r _ => ?_
  refine .bind ((hswap r.request).attempt.mono (by decide)) fun outcome => ?_
  cases outcome with
  | ok _ => exact hremoved r none
  | error e =>
    exact .bind ((Queue.refund_confined r.request e).mono (by decide)) fun _ => hremoved r (some e)

/-- The batch takes up the room, and leaves all that the validators rely on. -/
theorem endAction_safe (engineKeys : List String) : (endAction engineKeys).Safe Settleable := by
  have hbatch : (Queue.runBatch runSwap).Safe Settleable := by
    refine Safe.of_completes ((Queue.runBatch_room []).restrict fun s hs => ?_)
    rw [List.append_nil]
    exact hs.room
  have hleft : (Queue.runBatch runSwap).Keeps fun s =>
      Payable s ∧ ∀ t, NetworkState.get s = .ok t → Ragnarok.Counts t.ragnarokRound := by
    refine .of_confined runBatch_confined fun s t hchanges hs => ?_
    refine ⟨hs.1.of_changes hchanges (by decide) (by decide) (by decide), fun totals htotals => ?_⟩
    refine hs.2 totals ?_
    rwa [← Ragnarok.get_congr (hchanges.get?_eq Table.ofKey?_network (by decide))]
  have hran : (attempt (Queue.runBatch runSwap)).Completes Settleable
      (fun _ s => Payable s ∧ ∀ t, NetworkState.get s = .ok t → Ragnarok.Counts t.ragnarokRound)
      fun _ => True :=
    hbatch.attempt.leading <| hleft.attempt.mono (fun _ hs => ⟨hs.toPayable, hs.rounds⟩)
      (fun _ _ hs => hs) fun _ _ => trivial
  have hdrained : ∀ updates, Action.Faultless
      (do return ⟨updates, ← drain⟩ : Action BlockResult) := by
    intro updates s f t hrun
    cases hrun
  refine hran.bind fun _ => Completes.bind (S := fun _ _ => True) ?_ fun updates => ?_
  · exact (Rotation.endBlock_safe engineKeys).attempt
  · cases updates with
    | ok updates => exact Safe.of_faultless (hdrained updates)
    | error e => exact Safe.of_faultless (hdrained [])

variable {app : Application}

theorem endBlock_completes (hs : app.ledger.Settleable) :
    ∃ result, app.endBlock.1 = .ok result := by
  rcases hrun : endAction app.engineKeys app.ledger with ⟨(e | f) | result, t⟩
  · exact absurd hrun ((Journal.endAction_answers app.engineKeys).not_refused _ e t)
  · exact (endAction_safe app.engineKeys _ _ t hs hrun).elim
  · refine ⟨result, ?_⟩
    show (endAction app.engineKeys app.ledger).1 = _
    rw [hrun]

/-! ## The beginning of a block -/

end Application

namespace Ledger

variable {s : Ledger}

/-- The ledger as it is when a block begins at a height. -/
def atHeight (s : Ledger) (height : Height) : Ledger := { s with height }

/-- Neither the last churn nor the next one depends on the height of the block. -/
theorem lastChurn_atHeight (s : Ledger) (height : Height) :
    Marking.lastChurn (s.atHeight height) = Marking.lastChurn s :=
  Marking.lastChurn_congr (Vaults.asgards_congr fun _ _ => rfl)

theorem value_atHeight (x : Setting) (s : Ledger) (height : Height) :
    Governance.value x (s.atHeight height) = Governance.value x s :=
  Governance.value_congr rfl rfl

theorem Timed.atHeight (hs : s.Timed) {height : Height} (hheight : 0 ≤ height) :
    (s.atHeight height).Ticking where
  interval := hs.interval
  redline := hs.redline
  churned := by
    rw [lastChurn_atHeight]
    exact hs.churned
  height := hheight

theorem punctual_atHeight {height : Height} : (s.atHeight height).Punctual ↔ s.Punctual := by
  unfold Punctual
  rw [lastChurn_atHeight, value_atHeight]

end Ledger

namespace Application

variable {app : Application} {height : Height} {engineKeys : List String}

theorem beginBlock_run (app : Application) (height : Height) (engineKeys : List String) :
    (app.beginBlock height engineKeys).1 =
      ((do let _ ← attempt Rotation.beginBlock) (app.ledger.atHeight height) :
        Id (Except Failure Unit × Ledger)).1 :=
  rfl

/-- A block begins unless the validators' part of it meets a fault. -/
theorem beginBlock_ok_iff : (app.beginBlock height engineKeys).1 = .ok () ↔
    ∀ f t, Rotation.beginBlock (app.ledger.atHeight height) ≠ (.error (.fault f), t) := by
  rw [beginBlock_run, bind_run]
  unfold attempt
  rcases Rotation.beginBlock (app.ledger.atHeight height) with ⟨(e | f) | _, t⟩
  · exact ⟨fun _ _ _ => nofun, fun _ => rfl⟩
  · exact ⟨nofun, fun h => absurd rfl (h f t)⟩
  · exact ⟨fun _ _ _ => nofun, fun _ => rfl⟩

/-- A block after the first one begins exactly if the next churn is due at a height, or none is
asked for. -/
theorem beginBlock_completes_iff (hs : app.ledger.Timed) (hdated : app.ledger.NodesDated)
    (hheight : 2 ≤ height.val) :
    (app.beginBlock height engineKeys).1 = .ok () ↔
      NetworkState.isEnding app.ledger = .ok true ∨ app.ledger.Punctual := by
  have hlater : height ≠ Rotation.firstHeight := by
    rintro rfl
    exact absurd hheight (by decide)
  have hpositive : 0 ≤ height := Int.le_trans (by decide) hheight
  have hnodes : (app.ledger.atHeight height).NodesDated :=
    Viewed.congr (s := app.ledger) (fun _ => rfl) hdated
  have hiff := Rotation.beginBlock_completes_iff (hs.atHeight hpositive) hnodes hlater
  rw [punctual_atHeight] at hiff
  exact beginBlock_ok_iff.trans hiff

/-- A churn that is due past all heights halts every block that asks for it. -/
theorem beginBlock_halts {last : Height} {interval : Signed} (hfiled : app.ledger.Filed)
    (hheight : height ≠ Rotation.firstHeight)
    (hending : NetworkState.isEnding app.ledger = .ok false)
    (hinterval : Governance.value .churnInterval app.ledger = .ok interval)
    (hlast : Marking.lastChurn app.ledger = .ok last)
    (hpast : 0x8000000000000000 ≤ last.val + interval.val) :
    (app.beginBlock height engineKeys).1 = .error (.fault .addition) := by
  have hfault : Rotation.beginBlock (app.ledger.atHeight height) =
      (.error (.fault .addition), app.ledger.atHeight height) := by
    refine Rotation.beginBlock_overflows hfiled hheight hending ?_ ?_ hpast
    · rwa [value_atHeight]
    · rwa [lastChurn_atHeight]
  rw [beginBlock_run, bind_run]
  unfold attempt
  rw [hfault]

/-- A block begins if the next churn is due at a height or none is asked for, and only then; it ends
from every ledger that can be settled. -/
theorem blocks_complete (app : Application) :
    (app.ledger.Timed → app.ledger.NodesDated →
      ∀ (height : Height) (engineKeys : List String), 2 ≤ height.val →
        ((app.beginBlock height engineKeys).1 = .ok () ↔
          NetworkState.isEnding app.ledger = .ok true ∨ app.ledger.Punctual)) ∧
      (app.ledger.Settleable → ∃ result, app.endBlock.1 = .ok result) :=
  ⟨fun hs hdated _ _ hheight => beginBlock_completes_iff hs hdated hheight, endBlock_completes⟩

/-! ## A node, its vault and a swap -/

def sentry : Node := Fixture.node "alva" .active oneRune 1

def btc : Asset := .of .btc "BTC"

def strongroom : Vault :=
  { Vault.make 1 .active .asgard (Fixture.key "asgard-1") Fixture.asgardChains with
    members := [Fixture.key "alva"]
    coins := [⟨btc, .cap 700⟩] }

def order : SwapRequest where
  tx := ⟨⟨"A1"⟩, some .btc, ⟨"bc1sender"⟩, ⟨"bc1vault"⟩, [⟨btc, .cap 90⟩], [], "swap"⟩
  target := .rune
  destination := ⟨"thor1bela"⟩
  limit := 0
  signer := ⟨"thor1bela"⟩
  aggregator := none
  aggregatorAsset := none
  aggregatorLimit := none

/-- The key of the order, the first swap of its transaction. -/
def orderKey : String := Key.swap order.tx.id ⟨0, Nat.zero_lt_succ _⟩

/-- One node holds the only vault, and one swap waits for the end of the block. -/
def outpost : Application where
  ledger :=
    (((empty (.ofEnvironment .mocknet) (.clamp 4)).putRecord (Key.node sentry.address)
      (.node sentry)).putRecord (Key.vault strongroom.key) (.vault strongroom)).putRecord
      orderKey (.swap order)
  engineKeys := []

theorem outpost_filed : outpost.ledger.Filed := by
  have hnode : Ledger.Filed ((empty (.ofEnvironment .mocknet) (.clamp 4)).putRecord
      (Key.node sentry.address) (.node sentry)) := (filed_empty _ _).putRecord rfl
  have hvault := hnode.putRecord (k := Key.vault strongroom.key) (r := .vault strongroom) rfl
  exact hvault.putRecord (Table.ofKey?_swap _ _)

theorem outpost_records {k : String} {r : Record} (h : outpost.ledger.get? k = some r) :
    r = .node sentry ∨ r = .vault strongroom ∨ r = .swap order := by
  change Ledger.get? (Ledger.putRecord _ orderKey _) _ = _ at h
  rw [get?_putRecord, get?_putRecord, get?_putRecord] at h
  split at h
  · cases h
    exact .inr (.inr rfl)
  split at h
  · cases h
    exact .inr (.inl rfl)
  split at h
  · cases h
    exact .inl rfl
  · cases h

theorem outpost_reads :
    Marking.lastChurn outpost.ledger = .ok 1 ∧
      Governance.value .churnInterval outpost.ledger = .ok (.clamp 60) ∧
      NetworkState.get outpost.ledger = .ok .initial ∧
      Governance.value .signingTransactionPeriod outpost.ledger = .ok (.clamp 300) ∧
      Outbounds.pendingWithin (.clamp 300) outpost.ledger = .ok [] ∧
      Vaults.asgards .active outpost.ledger = .ok [strongroom] := by
  have h : (Marking.lastChurn outpost.ledger).toOption = some 1 ∧
      (Governance.value .churnInterval outpost.ledger).toOption = some (.clamp 60) ∧
      (NetworkState.get outpost.ledger).toOption = some .initial ∧
      (Governance.value .signingTransactionPeriod outpost.ledger).toOption = some (.clamp 300) ∧
      (Outbounds.pendingWithin (.clamp 300) outpost.ledger).toOption = some [] ∧
      (Vaults.asgards .active outpost.ledger).toOption = some [strongroom] := by
    decide +kernel
  obtain ⟨hchurn, hinterval, hnetwork, hperiod, hpending, hvaults⟩ := h
  exact ⟨eq_ok_of_toOption hchurn, eq_ok_of_toOption hinterval, eq_ok_of_toOption hnetwork,
    eq_ok_of_toOption hperiod, eq_ok_of_toOption hpending, eq_ok_of_toOption hvaults⟩

theorem outpost_complete : outpost.ledger.NodesComplete where
  filed := outpost_filed
  complete := by
    intro a n hn
    rcases outpost_records hn with h | h | h <;> cases h
    rfl

theorem outpost_dated : outpost.ledger.NodesDated where
  toNodesComplete := outpost_complete
  views := by
    intro a
    unfold nodeAt
    split
    · rename_i n hn
      rcases outpost_records hn with h | h | h <;> cases h
      rfl
    · rfl

theorem outpost_timed : outpost.ledger.Timed where
  interval := (Settings.timed .mocknet).1
  redline := (Settings.timed .mocknet).2.1
  churned := by
    intro last hlast
    cases outpost_reads.1.symm.trans hlast
    decide

theorem outpost_punctual : outpost.ledger.Punctual := by
  intro last interval hlast hinterval
  cases outpost_reads.1.symm.trans hlast
  cases outpost_reads.2.1.symm.trans hinterval
  decide

theorem outpost_room : HasRoom [] (Queue.coins outpost.ledger.queued) outpost.ledger := by
  obtain ⟨-, -, -, hperiod, hpending, hvaults⟩ := outpost_reads
  have hcoins : Queue.coins outpost.ledger.queued = [⟨btc, .cap 90⟩] := by decide +kernel
  refine .of_totals outpost_filed (by decide) (Settings.timed .mocknet).2.2 ?_
  intro period pending vaults hread hsent hactive v hv
  cases hperiod.symm.trans hread
  cases hpending.symm.trans hsent
  cases hvaults.symm.trans hactive
  cases List.mem_singleton.1 hv
  rw [hcoins]
  decide

theorem outpost_settleable : outpost.ledger.Settleable where
  height := by decide
  period := (Settings.timed .mocknet).2.2
  slashes := by
    intro a points hpoints
    rcases fetchD_eq_ok.1 hpoints with ⟨-, rfl⟩ | ⟨r, hr, hread⟩
    · decide
    · rcases outpost_records hr with rfl | rfl | rfl <;> cases hread
  providers := by
    intro a ps hps
    rcases outpost_records hps with h | h | h <;> cases h
  complete := outpost_complete
  since := by
    intro n hn
    rcases outpost_records hn with h | h | h <;> cases h
    decide
  bonds := by decide +kernel
  room := outpost_room
  rounds := by
    intro t ht
    cases outpost_reads.2.2.1.symm.trans ht
    exact ⟨by decide, by decide⟩

/-- The network carries on. -/
theorem outpost_carries_on :
    (outpost.beginBlock (.clamp 5) []).1 = .ok () ∧ ∃ result, outpost.endBlock.1 = .ok result :=
  ⟨((blocks_complete outpost).1 outpost_timed outpost_dated _ _ (by decide)).2
    (.inr outpost_punctual), (blocks_complete outpost).2 outpost_settleable⟩

/-- The same network, for which governance put off churns to the end of all heights. -/
def postponed : Application where
  ledger := outpost.ledger.putRecord (Key.mimir Setting.churnInterval.name)
    (.number (.clamp 0x7fffffffffffffff))
  engineKeys := []

theorem postponed_halts : (postponed.beginBlock (.clamp 5) []).1 = .error (.fault .addition) := by
  have h : (Marking.lastChurn postponed.ledger).toOption = some 1 ∧
      (Governance.value .churnInterval postponed.ledger).toOption =
        some (.clamp 0x7fffffffffffffff) ∧
      (NetworkState.isEnding postponed.ledger).toOption = some false := by
    decide +kernel
  have hfiled : postponed.ledger.Filed :=
    outpost_filed.putRecord ⟨.mimirs, by decide, Table.ofKey?_mimir _⟩
  exact beginBlock_halts hfiled (by decide) (eq_ok_of_toOption h.2.2) (eq_ok_of_toOption h.2.1)
    (eq_ok_of_toOption h.1) (by decide)

end Application

end LiquidityNet
