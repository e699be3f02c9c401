import LiquidityNet.Dispatch
import LiquidityNet.Fixture
import LiquidityNet.Proofs.Action.Invariance
import LiquidityNet.Proofs.Dispatch.Requests
import LiquidityNet.Proofs.Swap.Writes

/-!
# Dispatch is atomic

A message that is carried out adds the events it answers to the log and closes every checkpoint it
opened. A message that is refused, by an error or by a fault in the midst of nested checkpoints,
leaves the ledger exactly as it was, layer by layer. Only the refusal that asks for funds to be
returned keeps something, and that is the requests for their return.
-/

namespace LiquidityNet

open Ledger LiquidityNet.Action

namespace Dispatch

/-- The tables that messages write to. -/
def tables : List Table := .fees :: .slips :: .pools :: Bond.withdrawalTables

theorem route_writes (m : Message) : Confined tables (route m) := by
  cases m with
  | swap m => exact .bind ((Swap.handle_confined m).mono (by decide)) fun _ => .pure ()
  | unbond m => exact (Bond.withdraw_confined m).mono (by decide)
  | bond m => exact (Bond.deposit_confined m).mono (by decide)

theorem answer_confined_of {Ts : List Table} {m : Message} (h : (route m).Confined Ts) :
    (answer m).Confined Ts := by
  refine h.attempt.bind fun outcome => ?_
  rcases outcome with e | _
  · cases e <;> first | exact .refuse _ | exact .pure _
  · exact .pure none

theorem answer_writes (m : Message) : Confined tables (answer m) :=
  answer_confined_of (route_writes m)

theorem answer_confined (m : Message) : Confined Table.all (answer m) :=
  (answer_writes m).mono (by decide)

theorem answer_eq_ok {m : Message} {s t : Ledger} {o : Option Error}
    (h : answer m s = (.ok o, t)) :
    (o = none ∧ route m s = (.ok (), t)) ∨
      (o = some .fundsToReturn ∧ route m s = (.error (.refused .fundsToReturn), t)) := by
  obtain ⟨x, u, hattempt, hx⟩ := bind_eq_ok.1 h
  rcases attempt_eq_ok.1 hattempt with ⟨_, rfl, hrun⟩ | ⟨e, rfl, hrun⟩
  · cases hx
    exact .inl ⟨rfl, hrun⟩
  · cases e <;> cases hx
    exact .inr ⟨rfl, hrun⟩

/-- What a refused withdrawal leaves behind. -/
theorem withdraw_refused {m : UnbondRequest} {s t : Ledger} {e : Error} (hs : s.Filed)
    (h : Bond.withdraw m s = (.error (.refused e), t)) : Recall.Requested s t := by
  have hvalidate : (Bond.validateWithdrawal m).Keeps (Recall.Asked s) := by
    refine .pastRead (fun _ h => h) fun n => .pastRead (fun _ h => h) fun ygg => ?_
    refine .ite (fun _ => ?_) fun _ => .pure fun _ h => h
    exact (Recall.request_keeps hs n).bind fun _ => .refuse fun _ h => h
  rcases bind_eq_error.1 h with hrun | ⟨n, u, hrun, hentered⟩
  · exact (hvalidate s _ t ⟨hs, .inl rfl⟩ hrun).2
  · obtain rfl : t = u :=
      Restores.transactionally (Bond.enterWithdrawal_confined m n) u e t hentered
    exact (hvalidate s _ t ⟨hs, .inl rfl⟩ hrun).2

theorem handle_restores (m : SwapRequest) : (Swap.handle m).Restores :=
  .checkThen fun _ => .readThen fun _ => .readThen fun _ =>
    .transactionally (Swap.execute_confined m _ _)

theorem deposit_restores (m : BondRequest) : (Bond.deposit m).Restores :=
  .readThen fun _ => .transactionally (Bond.enterDeposit_confined m)

theorem route_refused {m : Message} {s t : Ledger} {e : Error} (hs : s.Filed)
    (h : route m s = (.error (.refused e), t)) : Recall.Requested s t := by
  cases m with
  | swap m => exact .inl ((handle_restores m).thenPure (fun _ => ()) s e t h)
  | unbond m => exact withdraw_refused hs h
  | bond m => exact .inl (deposit_restores m s e t h)

/-- Rolling a fault back undoes what was written since the checkpoint before it. -/
theorem rolledBack {Ts : List Table} {s t : Ledger} (h : Changes Ts s.checkpointed t) :
    { t with store := t.store.rollbackTo s.store.depth } = s := by
  have hstore : t.store.rollbackTo s.store.depth = s.store := h.growth.rollbackTo
  rw [hstore, h.settings, h.height]
  rfl

/-- Dispatching a message is confined to the tables that carrying it out is confined to. -/
theorem dispatch_confined {Ts : List Table} {m : Message} (hroute : (route m).Confined Ts) :
    (dispatch m).Confined Ts := by
  have hanswer := answer_confined_of hroute
  have hcases : ∀ {s r t}, dispatch m s = (r, t) →
      Changes Ts s t ∧ t.store.depth = s.store.depth := by
    intro s r t hrun
    unfold dispatch at hrun
    rcases hguarded : guarded m s with ⟨x, u⟩
    have hchanges := hanswer.transactionally.changes hguarded
    have hdepth := hanswer.transactionally.depth hguarded
    rw [hguarded] at hrun
    rcases transactionally_cases hanswer hguarded with ⟨o, -, rfl, -, -⟩ | ⟨e, -, rfl, -, -⟩ |
      ⟨f, rfl, hfault⟩
    · cases o <;> cases hrun <;> exact ⟨hchanges, hdepth nofun⟩
    · cases hrun
      exact ⟨hchanges, hdepth nofun⟩
    · cases hrun
      rw [rolledBack (hanswer.changes hfault)]
      exact ⟨.refl Ts s, rfl⟩
  exact ⟨fun hrun => (hcases hrun).1, fun hrun _ => (hcases hrun).2⟩

theorem dispatch_changes {m : Message} {s t : Ledger} {r : Except Failure (List Event)}
    (h : dispatch m s = (r, t)) : Changes tables s t :=
  (dispatch_confined (route_writes m)).changes h

/-- What carrying a message out keeps, dispatching it keeps; a fault is rolled back. -/
theorem dispatch_keeps_of {P : Ledger → Prop} {m : Message} (hroute : (route m).Keeps P)
    (hopen : ∀ s, P s → P s.checkpointed) (hcommit : ∀ s t : Ledger, s.CommitsTo t → P s → P t) :
    (dispatch m).Keeps P := by
  have hanswer : (answer m).Keeps P := by
    refine hroute.attempt.bind fun outcome => ?_
    rcases outcome with e | _
    · cases e <;> first | exact .refuse fun _ hs => hs | exact .pure fun _ hs => hs
    · exact .pure fun _ hs => hs
  have hguarding : (guarded m).Keeps P :=
    .committed (answer_writes m) hanswer hopen (fun _ hs => hs) fun _ => hcommit
  intro s r t hs hrun
  unfold dispatch at hrun
  rcases hguarded : guarded m s with ⟨x, u⟩
  have hu := hguarding s x u hs hguarded
  rw [hguarded] at hrun
  rcases transactionally_cases (answer_writes m) hguarded with ⟨o, -, rfl, -, -⟩ |
    ⟨e, -, rfl, -, -⟩ | ⟨f, rfl, hfault⟩
  · cases o <;> cases hrun <;> exact hu
  · cases hrun
    exact hu
  · cases hrun
    rw [rolledBack ((answer_writes m).changes hfault)]
    exact hs

theorem dispatch_keeps {P : Ledger → Prop} {m : Message} (hroute : (route m).Keeps P)
    (hP : ∀ s t : Ledger, (∀ k, t.get? k = s.get? k) → P s → P t) : (dispatch m).Keeps P :=
  dispatch_keeps_of hroute (fun s => hP s _ s.get?_checkpointed)
    fun s t hcommit => hP s t hcommit.get?

/-- A message is carried out as a whole or refused as a whole, and the answer tells which. It is
carried out with the answered events added to the log, and refused with the ledger as it was, unless
funds are to be returned first: then only the requests for their return are kept. No fault comes
through. -/
theorem dispatch_atomic (m : Message) (s : Ledger) :
    match dispatch m s with
    | (.ok events, t) =>
      t.settings = s.settings ∧ t.height = s.height ∧ t.store.depth = s.store.depth ∧
        t.store.events = s.store.events ++ events
    | (.error (.refused .fundsToReturn), t) => s.Filed → t.Filed ∧ Recall.Requested s t
    | (.error (.refused _), t) => t = s
    | (.error (.fault _), _) => False := by
  have hguarded : Confined Table.all (guarded m) := (answer_confined m).transactionally
  unfold dispatch
  rcases hrun : guarded m s with ⟨r, t⟩
  have hchanges := hguarded.changes hrun
  rcases transactionally_cases (answer_confined m) hrun with ⟨o, u, rfl, hanswer, hcommit⟩ |
    ⟨e, u, rfl, -, rfl⟩ | ⟨f, rfl, hfault⟩
  · rcases answer_eq_ok hanswer with ⟨rfl, -⟩ | ⟨rfl, hroute⟩
    · refine ⟨hchanges.settings, hchanges.height, hguarded.depth hrun nofun, ?_⟩
      obtain ⟨events, hevents⟩ := hchanges.growth.events
      rw [← hevents, List.drop_left]
    · intro hs
      have hopen : s.checkpointed.Filed := fun k r h => hs k r (get?_checkpointed s k ▸ h)
      exact ⟨hchanges.filed hs, (route_refused hopen hroute).commit hcommit⟩
  · cases e <;> first | rfl | exact fun hs => ⟨hs, .inl rfl⟩
  · -- The fault left open what it was reached in; all of that lies above the depth of before.
    exact rolledBack ((answer_confined m).changes hfault)

/-! ## A node that is asked for its funds -/

def leaver : Node := Fixture.node "leaver" .standby 1 1

def leaverVault : Vault :=
  { Vault.make 1 .active .yggdrasil (Fixture.key "leaver") [.bnb] with
    coins := [⟨.of .bnb "BNB", 1⟩] }

def receivingVault : Vault := Vault.make 1 .active .asgard (Fixture.key "asgard") [.bnb]

def leaverLedger : Ledger :=
  (((Ledger.empty (.ofEnvironment .mocknet) 1).putRecord (Key.node leaver.address)
    (.node leaver)).putRecord (Key.vault leaverVault.key) (.vault leaverVault)).putRecord
    (Key.vault receivingVault.key) (.vault receivingVault)

def leaving : UnbondRequest where
  tx := ⟨.blank, some .thor, leaver.operator, leaver.address, [], [], ""⟩
  node := leaver.address
  amount := 1
  bondAddress := leaver.operator
  provider := none
  signer := leaver.operator

def asksReturn : Except Failure (List Event) → Bool
  | .error (.refused .fundsToReturn) => true
  | _ => false

theorem eq_of_asksReturn {r : Except Failure (List Event)} (h : asksReturn r = true) :
    r = .error (.refused .fundsToReturn) := by
  unfold asksReturn at h
  split at h
  · rfl
  · cases h

theorem leaver_is_asked :
    leaverLedger.Filed ∧
      ∃ t, dispatch (.unbond leaving) leaverLedger = (.error (.refused .fundsToReturn), t) ∧
        Recall.Requested leaverLedger t := by
  have hnode := (filed_empty (.ofEnvironment .mocknet) 1).putRecord (k := Key.node leaver.address)
    (r := .node leaver) rfl
  have hvault := hnode.putRecord (k := Key.vault leaverVault.key) (r := .vault leaverVault) rfl
  have hs : leaverLedger.Filed :=
    hvault.putRecord (k := Key.vault receivingVault.key) (r := .vault receivingVault) rfl
  have hrequested : ∀ m s, s.Filed → asksReturn (dispatch m s).1 = true →
      ∃ t, dispatch m s = (.error (.refused .fundsToReturn), t) ∧ Recall.Requested s t := by
    intro m s hs hasked
    have hatomic := dispatch_atomic m s
    rcases hrun : dispatch m s with ⟨r, t⟩
    rw [hrun] at hasked hatomic
    obtain rfl := eq_of_asksReturn hasked
    exact ⟨t, rfl, (hatomic hs).2⟩
  exact ⟨hs, hrequested (.unbond leaving) leaverLedger hs (by decide +kernel)⟩

end Dispatch

end LiquidityNet
