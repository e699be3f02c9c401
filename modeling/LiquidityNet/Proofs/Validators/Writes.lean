import LiquidityNet.Proofs.Bond.Writes
import LiquidityNet.Validators.Rotation

/-!
# What a change of the validator set writes

A churn marks nodes and requests keygens. The end of a block pays rewards, moves nodes between
statuses and recalls their funds; ragnarok returns bonds and stages pools.
-/

namespace LiquidityNet

open LiquidityNet.Action LiquidityNet.Action.Confined

namespace Bond

theorem payRewards_confined : Confined (.network :: rewardTables) payRewards :=
  .readThen fun _ => (compute _).bind fun _ => .readThen fun _ =>
    .forM fun n _ => payNode_confined _ n

end Bond

namespace Ragnarok

/-- Ragnarok pays rewards and returns bonds, recalls funds and stages pools. -/
def tables : List Table := .pools :: .slashes :: returnTables

theorem start_confined (t : Network) : Confined tables (start t) := by
  refine .readThen fun _ => .bind ((NetworkState.save_confined _).mono (by decide)) fun _ => ?_
  refine .bind (Recall.requestAll_confined.mono (by decide)) fun _ => ?_
  exact Bond.payRewards_confined.mono (by decide)

theorem nextRound_confined (t : Network) : Confined tables (nextRound t) := by
  refine (compute _).bind fun round => ?_
  refine .bind ((NetworkState.save_confined _).mono (by decide)) fun _ => .bind ?_ fun _ => ?_
  · exact (returnBonds_confined round).transactionally.attempt.mono (by decide)
  · exact stagePools_confined.mono (by decide)

theorem tick_confined : Confined tables tick := by
  refine .readThen fun t => .ite (fun _ => start_confined t) fun _ => .ite (fun _ => ?_) fun _ => ?_
  · exact .readThen fun _ => .ite (fun _ => .pure ()) fun _ => nextRound_confined _
  · exact nextRound_confined t

end Ragnarok

namespace Marking

theorem mark_confined (n : Node) : Confined [.nodes] (mark n) :=
  .ite (fun _ => .pure ()) fun _ => .readThen fun _ => Nodes.save_confined _

theorem markOutdated_confined : Confined [.nodes] markOutdated := by
  refine .readThen fun _ => .readThen fun _ => .readThen fun _ => .readThen fun _ => ?_
  refine .readThen fun _ => .bind (.filterM fun _ => compute _) fun _ => ?_
  exact .forM fun n _ => mark_confined n

theorem readjust_confined (n : Node) : Confined [.nodes] (readjust n) := by
  refine .readThen fun _ => .ite (fun _ => ?_) fun _ => .pure ()
  exact .readThen fun _ => Nodes.save_confined _

theorem readjustAll_confined : Confined [.nodes] readjustAll :=
  .readThen fun _ => .readThen fun _ => .forM fun n _ => readjust_confined n

end Marking

namespace Rotation

theorem seatAll_confined : Confined [.nodes] seatAll :=
  .readThen fun _ => .readThen fun _ => .readThen fun _ => .forM fun _ _ => Nodes.save_confined _

theorem markAll_confined (activeNodes desired : Nat) (retry : Bool) :
    Confined [.nodes] (markAll activeNodes desired retry) := by
  unfold markAll
  extract_lets last poorest
  have hlast : ∀ r, Confined [.nodes] (last r) := fun _ => Marking.markOutdated_confined
  have hpoorest : ∀ r, Confined [.nodes] (poorest r) := by
    refine fun _ => .ite (fun _ => .readThen fun n => ?_) fun _ => hlast ()
    cases n with
    | none => exact hlast ()
    | some n => exact (Marking.mark_confined n).bind hlast
  refine .readThen fun _ => .bind (.forM fun n _ => Marking.mark_confined n) fun _ => ?_
  refine .ite (fun _ => .readThen fun n => ?_) fun _ => hlast ()
  cases n with
  | none => exact hpoorest ()
  | some n => exact (Marking.mark_confined n).bind hpoorest

theorem nextSet_confined (target : Nat) : Confined [.nodes] (nextSet target) := by
  refine Marking.readjustAll_confined.bind fun _ => .readThen fun _ => .readThen fun _ => ?_
  refine .readThen fun _ => .readThen fun _ => .bind (.mapM fun _ _ => .read _) fun _ => ?_
  exact .readThen fun _ => .readThen fun _ => .pure _

theorem requestKeygen_confined (next : List Node) (size : Nat) :
    Confined [.keygens] (requestKeygen next size) := by
  refine .ite (fun _ => ?_) fun _ => .pure ()
  exact .readThen fun _ => .readThen fun _ => Keygens.save_confined _

theorem churn_confined (vaults : List Vault) (activeNodes : Nat) (retry : Bool) :
    Confined [.nodes, .keygens] (churn vaults activeNodes retry) := by
  refine .readThen fun _ => .ite (fun _ => .pure ()) fun _ => .readThen fun _ => ?_
  refine .ite (fun _ => .pure ()) fun _ => .readThen fun _ => .readThen fun desired => ?_
  extract_lets rest
  have hrest : ∀ r, Confined [.nodes, .keygens] (rest r) := by
    refine fun _ => .bind ((nextSet_confined desired).mono (by decide)) fun next => ?_
    refine .ite (fun _ => ?_) fun _ => .pure ()
    exact .readThen fun _ => (requestKeygen_confined _ _).mono (by decide)
  refine .ite (fun _ => ?_) fun _ => hrest ()
  exact .bind ((markAll_confined _ _ _).mono (by decide)) hrest

theorem beginBlock_confined : Confined [.nodes, .keygens] beginBlock := by
  refine .readThen fun _ => .ite (fun _ => seatAll_confined.mono (by decide)) fun _ => ?_
  refine .readThen fun _ => .ite (fun _ => .pure ()) fun _ => ?_
  refine .readThen fun _ => .readThen fun _ => ?_
  exact .readThen fun _ => .ite (fun _ => churn_confined _ _ _) fun _ => .pure ()

theorem join_confined (height : Height) (a : Address) :
    Confined [.slashes, .nodes] (join height a) := by
  refine .readThen fun n => ?_
  cases n with
  | none => exact .pure []
  | some n =>
    refine (Action.Confined.emit _).bind fun _ => ?_
    refine .bind ((Nodes.clearSlashPoints_confined _).mono (by decide)) fun _ => ?_
    exact .bind ((Nodes.save_confined _).mono (by decide)) fun _ => .pure _

theorem leave_confined (height : Height) (engineKeys : List String) (a : Address) :
    Confined (.nodes :: Payout.tables) (leave height engineKeys a) := by
  refine .readThen fun n => ?_
  cases n with
  | none => exact .pure []
  | some n =>
    refine (Action.Confined.emit _).bind fun _ => ?_
    refine .bind ((Nodes.save_confined _).mono (by decide)) fun _ => .bind ?_ fun _ => .pure _
    exact (Recall.request_confined _).attempt.mono (by decide)

theorem standDown_confined (height : Height) : Confined [.nodes] (standDown height) :=
  .readThen fun _ => .forM fun _ _ => Nodes.save_confined _

theorem apply_confined (engineKeys : List String) (c : Changes) :
    Confined Ragnarok.tables (apply engineKeys c) := by
  refine .bind (Bond.payRewards_confined.attempt.mono (by decide)) fun _ => .readThen fun _ => ?_
  refine .bind (.mapM fun n _ => (join_confined _ n.address).mono (by decide)) fun _ => ?_
  refine .bind (.mapM fun n _ => (leave_confined _ _ n.address).mono (by decide)) fun _ => ?_
  exact .bind ((standDown_confined _).mono (by decide)) fun _ => .pure _

/-- The end of a block writes to no more tables than ragnarok does. -/
theorem endBlock_confined (engineKeys : List String) :
    Confined Ragnarok.tables (endBlock engineKeys) := by
  have htick : Confined Ragnarok.tables (do Ragnarok.tick; return [] : Action (List PowerUpdate)) :=
    Ragnarok.tick_confined.bind fun _ => .pure _
  refine .readThen fun _ => .ite (fun _ => htick) fun _ => .readThen fun c => .readThen fun _ => ?_
  exact .ite (fun _ => htick) fun _ => .ite (fun _ => .pure _) fun _ => apply_confined _ c

end Rotation

end LiquidityNet
