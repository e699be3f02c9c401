import LiquidityNet.Proofs.Application.Consensus

/-!
# Stored nodes are complete

A node is stored under its own address, and only once it has passed its check. So the nodes are
complete in the ledger that a genesis leaves, and stay so whatever the engine calls and whatever
comes of a call.
-/

namespace LiquidityNet

open LiquidityNet.Action Ledger NodeView

/-! ## Rotation -/

namespace Rotation

theorem seatAll_complete : seatAll.Keeps NodesComplete := by
  have hpast : ∀ s, NodesComplete s → NodesComplete s := fun _ hs => hs
  refine .pastRead hpast fun seats => .pastRead hpast fun height => .pastRead hpast fun ns => ?_
  exact .forM fun n _ => Nodes.save_complete _

/-- At the first height the nodes are seated; past it all seats stay as they are. -/
theorem beginBlock_complete : beginBlock.Keeps NodesComplete := by
  intro s r t hs hrun
  by_cases hfirst : s.height = firstHeight
  · have hseats : beginBlock s = seatAll s := by
      unfold beginBlock
      rw [read_bind_run, currentHeight_run]
      exact congrFun (if_pos hfirst) s
    exact seatAll_complete s r t hs (hseats ▸ hrun)
  · have ht := beginBlock_viewed blind_ignoresMarks blind_ignoresMessages.moves s r t
      ⟨hs.viewed, hfirst⟩ hrun
    cases r <;> exact ht.toNodesComplete

theorem join_complete (height : Height) (a : Address) : (join height a).Keeps NodesComplete := by
  have hpast : ∀ s, NodesComplete s → NodesComplete s := fun _ hs => hs
  refine .pastRead hpast fun found => ?_
  cases found with
  | none => exact .pure hpast
  | some n =>
    refine .bind (NodesComplete.apart [] (.emit _) (by decide)) fun _ => ?_
    refine .bind (NodesComplete.apart _ (Nodes.clearSlashPoints_confined _) (by decide)) fun _ => ?_
    exact (Nodes.save_complete _).bind fun _ => .pure hpast

theorem leave_complete (height : Height) (engineKeys : List String) (a : Address) :
    (leave height engineKeys a).Keeps NodesComplete := by
  have hpast : ∀ s, NodesComplete s → NodesComplete s := fun _ hs => hs
  refine .pastRead hpast fun found => ?_
  cases found with
  | none => exact .pure hpast
  | some n =>
    refine .bind (NodesComplete.apart [] (.emit _) (by decide)) fun _ => ?_
    refine (Nodes.save_complete _).bind fun _ => .bind ?_ fun _ => .pure hpast
    exact NodesComplete.apart _ (Recall.request_confined _).attempt (by decide)

theorem standDown_complete (height : Height) : (standDown height).Keeps NodesComplete :=
  .pastRead (fun _ hs => hs) fun _ => .forM fun _ _ => Nodes.save_complete _

theorem apply_complete (engineKeys : List String) (c : Changes) :
    (apply engineKeys c).Keeps NodesComplete := by
  have hpast : ∀ s, NodesComplete s → NodesComplete s := fun _ hs => hs
  have hpaid : (attempt Bond.payRewards).Keeps NodesComplete :=
    NodesComplete.kept fun v => (Bond.payRewards_viewed blind_ignoresMessages.bonds).attempt
  refine hpaid.bind fun _ => ?_
  refine .pastRead hpast fun height => ?_
  refine .bind (.mapM fun n _ => join_complete height n.address) fun joined => ?_
  refine .bind (.mapM fun n _ => leave_complete height engineKeys n.address) fun left => ?_
  exact (standDown_complete height).bind fun _ => .pure hpast

end Rotation

/-! ## The application -/

theorem Genesis.apply_complete (g : Genesis) : g.apply.Keeps NodesComplete := by
  refine make_keeps fun e he => ?_
  rcases entry_cases he with ⟨p, -, hentry⟩ | ⟨n, -, hentry⟩ | ⟨Ts, hentry, -, hnodes⟩
  · rw [hentry]
    exact NodesComplete.apart _ (Pools.save_confined p) (by decide)
  · rw [hentry]
    exact Nodes.save_complete n
  · exact NodesComplete.apart Ts hentry hnodes

namespace Application

theorem lasting_complete : Lasting NodesComplete where
  abiding := abiding_complete
  beginBlock := Rotation.beginBlock_complete
  tick := NodesComplete.kept fun _ => Ragnarok.tick_viewed blind_ignoresMessages.bonds
  apply := Rotation.apply_complete

/-- Whatever the engine calls on a network from its genesis on, the stored nodes are complete. -/
theorem complete_from_genesis (g : Genesis) (settings : Settings) (height : Height)
    (engineKeys : List String) (calls : List Call) :
    let app : Application := ⟨(g.apply (Ledger.empty settings height)).2, engineKeys⟩
    (app.after calls).ledger.NodesComplete :=
  lasting_complete.after calls (g.apply_complete.after (nodesComplete_empty settings height))

end Application

end LiquidityNet
