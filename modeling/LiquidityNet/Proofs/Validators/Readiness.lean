import LiquidityNet.Fixture
import LiquidityNet.Proofs.Ledger.Room
import LiquidityNet.Proofs.Validators.Roster
import LiquidityNet.Proofs.Validators.Shutdown
import LiquidityNet.Proofs.Validators.Standing

/-!
# Nodes that wait

All waiting nodes are moved to the status that fits them, one after the other. What stands against
a node is told from its own record, its jail, the network and the active nodes. None of this
changes while others are moved, so the order does not matter, and nothing is left to move after
that.
-/

namespace LiquidityNet

open LiquidityNet.Action Ledger

namespace Node

variable {n : Node}

/-- The node waits outside of the validator set. -/
def Waits (n : Node) : Prop := n.status = .standby ∨ n.status = .ready

instance (n : Node) : Decidable n.Waits :=
  inferInstanceAs (Decidable (n.status = .standby ∨ n.status = .ready))

theorem Waits.isActive (h : n.Waits) : n.isActive = false := by
  rw [isActive_eq]
  rcases h with h | h <;> rw [h] <;> rfl

theorem moveTo_eq (n : Node) (status : NodeStatus) (height : Height) :
    ∃ since activeSince, n.moveTo status height =
      { n with status := status, statusSince := since, activeSince := activeSince } := by
  unfold moveTo
  split
  · rename_i hsame
    rw [← hsame]
    exact ⟨_, _, rfl⟩
  · exact ⟨_, _, rfl⟩

end Node

/-! ## What stands against a node -/

theorem Nodes.jailOf_ok {s : Ledger} (hs : s.Filed) (a : Address) : ∃ j, jailOf a s = .ok j := by
  rcases hget : s.get? (Key.jail a) with _ | r
  · exact ⟨_, fetchD_eq_ok.2 (.inl ⟨hget, rfl⟩)⟩
  · obtain ⟨j, rfl⟩ := (hs _ r hget).jail (Table.ofKey?_jail a)
    exact ⟨j, fetchD_eq_ok.2 (.inr ⟨_, hget, rfl⟩)⟩

theorem Nodes.jailOf_congr {s t : Ledger} {a : Address}
    (h : t.get? (Key.jail a) = s.get? (Key.jail a)) : jailOf a t = jailOf a s :=
  Query.bind_congr (fetch?_congr h) fun _ => rfl

namespace Marking

variable {s t : Ledger} {n : Node} {ns done : List Node}

theorem obstacle?_ok (hs : s.Filed) (n : Node) : ∃ o, obstacle? n s = .ok o := by
  refine Query.ite_ok ⟨_, rfl⟩ (Query.ite_ok ⟨_, rfl⟩ ?_)
  refine Query.ite_ok ⟨_, rfl⟩ (Query.ite_ok ⟨_, rfl⟩ ?_)
  refine Query.bind_ok ?_ fun leastBond => Query.ite_ok ⟨_, rfl⟩ ?_
  · exact Query.bind_ok (Governance.valueAtLeast_ok _ _ s) fun _ => ⟨_, rfl⟩
  refine Query.bind_ok ?_ fun least => Query.ite_ok ⟨_, rfl⟩ ?_
  · exact Query.bind_ok (Nodes.withStatus_ok hs .active) fun _ => ⟨_, rfl⟩
  refine Query.bind_ok (Nodes.jailOf_ok hs n.address) fun j => ?_
  refine Query.bind_ok ⟨s.height, rfl⟩ fun height => Query.ite_ok ⟨_, rfl⟩ ?_
  exact Query.bind_ok ⟨_, isEnding_run s⟩ fun ending => Query.ite_ok ⟨_, rfl⟩ ⟨none, rfl⟩

/-- What stands against a node depends on no other node that is not active. -/
theorem obstacle?_congr (h : Changes [.nodes] s t) (hactive : Nodes.active t = Nodes.active s)
    (n : Node) : obstacle? n t = obstacle? n s := by
  refine Query.ite_congr rfl (Query.ite_congr rfl (Query.ite_congr rfl (Query.ite_congr rfl ?_)))
  refine Query.bind_congr ?_ fun leastBond => Query.ite_congr rfl ?_
  · exact Governance.amount_congr h.settings (h.get?_eq (Table.ofKey?_mimir _) (by decide))
  refine Query.bind_congr ?_ fun least => Query.ite_congr rfl ?_
  · exact Query.bind_congr hactive fun _ => rfl
  refine Query.bind_congr (Nodes.jailOf_congr (h.get?_eq (Table.ofKey?_jail _) (by decide))) ?_
  refine fun j => Query.bind_congr ?_ fun height => Query.ite_congr rfl ?_
  · exact congrArg Except.ok h.height
  refine Query.bind_congr ?_ fun ending => Query.ite_congr rfl rfl
  rw [isEnding_run, isEnding_run, phase_congr (h.get?_eq Table.ofKey?_network (by decide))]

/-- Nothing that a move changes stands against a node. -/
theorem obstacle?_moveTo (n : Node) (status : NodeStatus) (height : Height) :
    obstacle? (n.moveTo status height) = obstacle? n := by
  obtain ⟨since, activeSince, hmoved⟩ := n.moveTo_eq status height
  rw [hmoved]
  rfl

theorem fitting_known (o : Option Obstacle) : fitting o ≠ .unknown := by
  unfold fitting Obstacle.status
  grind

/-! ## One node after the other -/

theorem readjust_of_fits {o : Option Obstacle} (ho : obstacle? n t = .ok o)
    (hfits : fitting o = n.status) : readjust n t = (.ok (), t) := by
  unfold readjust
  rw [Action.read_bind_run, ho]
  exact congrFun (if_neg (not_not_intro hfits)) t

theorem readjust_of_misfits {o : Option Obstacle} (hn : n.validate = .ok ())
    (ho : obstacle? n t = .ok o) (hmisfits : fitting o ≠ n.status) :
    readjust n t = (.ok (), t.putRecord (Key.node (n.moveTo (fitting o) t.height).address)
      (.node (n.moveTo (fitting o) t.height))) := by
  unfold readjust
  rw [Action.read_bind_run, ho]
  refine (congrFun (if_pos hmisfits) t).trans ?_
  rw [Action.read_bind_run]
  exact Nodes.save_run (Node.validate_moveTo hn t.height (fitting_known o))

/-- The node in the status that fits it. -/
def readjusted (s : Ledger) (n : Node) : Node :=
  match obstacle? n s with
  | .ok o => n.moveTo (fitting o) s.height
  | .error _ => n

theorem readjusted_eq {o : Option Obstacle} (h : obstacle? n s = .ok o) :
    readjusted s n = n.moveTo (fitting o) s.height := by
  unfold readjusted
  rw [h]

/-- Of the nodes that waited, some have been readjusted so far. -/
structure Readjusting (s : Ledger) (done : List Node) (t : Ledger) : Prop where
  changes : Changes [.nodes] s t
  viewed : Viewed .activeNode (fun a => NodeView.activeNode (s.nodeAt a)) t
  nodes : ∀ a, t.nodeAt a =
    if a ∈ done.map (·.address) then (s.nodeAt a).map (readjusted s) else s.nodeAt a

namespace Readjusting

theorem start (hs : s.NodesComplete) : Readjusting s [] s where
  changes := .refl _ s
  viewed := hs.viewed
  nodes _ := (if_neg List.not_mem_nil).symm

theorem obstacle?_eq (hs : s.NodesComplete) (ht : Readjusting s done t) (n : Node) :
    obstacle? n t = obstacle? n s :=
  obstacle?_congr ht.changes (Nodes.active_congr hs ht.viewed) n

/-- The node under an address has been readjusted once the address is among those done. -/
theorem nodes_snoc {u : Ledger} (ht : Readjusting s done t)
    (hown : u.nodeAt n.address = (s.nodeAt n.address).map (readjusted s))
    (hother : ∀ a, a ≠ n.address → u.nodeAt a = t.nodeAt a) (a : Address) :
    u.nodeAt a = if a ∈ (done ++ [n]).map (·.address) then (s.nodeAt a).map (readjusted s)
      else s.nodeAt a := by
  by_cases ha : a = n.address
  · rw [ha, hown, if_pos]
    rw [List.map_append]
    exact List.mem_append_right _ List.mem_cons_self
  · rw [hother a ha, ht.nodes]
    simp [ha]

/-- A node that was listed may have been readjusted before: it comes to the same. -/
theorem step (hs : s.NodesComplete) (ht : Readjusting s done t) (hn : s.Stores n)
    (hwaits : n.Waits) : ∃ u, readjust n t = (.ok (), u) ∧ Readjusting s (done ++ [n]) u := by
  obtain ⟨o, ho⟩ := obstacle?_ok hs.filed n
  have hread := readjusted_eq ho
  rw [← ht.obstacle?_eq hs] at ho
  by_cases hfits : fitting o = n.status
  · refine ⟨t, readjust_of_fits ho hfits, ht.changes, ht.viewed, ht.nodes_snoc ?_ fun _ _ => rfl⟩
    have hsame : n.moveTo (fitting o) s.height = n := if_pos hfits.symm
    rw [ht.nodes, hn.nodeAt, Option.map_some, hread, hsame, ite_self]
  · have hrun := readjust_of_misfits (hs.complete _ n hn) ho hfits
    refine ⟨_, hrun, ht.changes.trans ((readjust_confined n).changes hrun), ?_,
      ht.nodes_snoc ?_ ?_⟩
    · have hshows : NodeView.activeNode.Shows (fun a => NodeView.activeNode (s.nodeAt a)) n :=
        congrArg NodeView.activeNode hn.nodeAt
      exact readjust_viewed NodeView.activeNode_ignoresMoves hshows hwaits.isActive t _ _
        ht.viewed hrun
    · rw [nodeAt_putRecord, if_pos (n.moveTo_address _ _).symm, hn.nodeAt, Option.map_some, hread,
        ht.changes.height]
    · intro a ha
      rw [nodeAt_putRecord, Node.moveTo_address, if_neg ha]

theorem run (hs : s.NodesComplete) (ht : Readjusting s done t)
    (hns : ∀ n ∈ ns, s.Stores n ∧ n.Waits) :
    ∃ u, ns.forM readjust t = (.ok (), u) ∧ Readjusting s (done ++ ns) u := by
  induction ns generalizing done t with
  | nil =>
    rw [List.append_nil]
    exact ⟨t, rfl, ht⟩
  | cons n ns ih =>
    obtain ⟨hn, hwaits⟩ := hns n List.mem_cons_self
    obtain ⟨u, hrun, hu⟩ := ht.step hs hn hwaits
    obtain ⟨v, hrest, hv⟩ := ih hu fun m hm => hns m (List.mem_cons_of_mem n hm)
    rw [List.append_assoc] at hv
    refine ⟨v, ?_, hv⟩
    show (readjust n >>= fun _ => ns.forM readjust) t = _
    rw [Action.bind_run, hrun]
    exact hrest

end Readjusting

/-! ## All nodes that wait -/

theorem readjustAll_eq (hs : s.NodesComplete) : ∃ waiting : List Node,
    (∀ n, n ∈ waiting ↔ s.Stores n ∧ n.Waits) ∧
      readjustAll s = waiting.forM readjust s := by
  obtain ⟨standby, hstandby⟩ := Nodes.withStatus_ok hs.filed .standby
  obtain ⟨ready, hready⟩ := Nodes.withStatus_ok hs.filed .ready
  refine ⟨standby ++ ready, fun n => ?_, ?_⟩
  · rw [List.mem_append, Nodes.mem_withStatus hs hstandby, Nodes.mem_withStatus hs hready,
      ← and_or_left]
    rfl
  · unfold readjustAll
    rw [Action.read_bind_run, hstandby]
    dsimp only
    rw [Action.read_bind_run, hready]

/-- Where everyone has the status that fits, nothing is written. -/
theorem readjustAll_of_fits (hs : s.NodesComplete)
    (hfits : ∀ n, s.Stores n → n.Waits → ∃ o, obstacle? n s = .ok o ∧ n.status = fitting o) :
    readjustAll s = (.ok (), s) := by
  obtain ⟨waiting, hwaiting, hrun⟩ := readjustAll_eq hs
  rw [hrun]
  apply Action.forM_still
  intro n hn
  obtain ⟨hstored, hwaits⟩ := (hwaiting n).1 hn
  obtain ⟨o, ho, hstatus⟩ := hfits n hstored hwaits
  exact readjust_of_fits ho hstatus.symm

/-- What becomes of the nodes when all that wait are readjusted. -/
structure Readjusted (s t : Ledger) : Prop where
  /-- Whoever waits then has the status that fits. -/
  fits : ∀ n, t.Stores n → n.Waits → ∃ o, obstacle? n t = .ok o ∧ n.status = fitting o
  /-- Whoever waited has moved to the status that fitted, at this height. -/
  moved : ∀ n, s.Stores n → n.Waits →
    ∃ o, obstacle? n s = .ok o ∧ t.Stores (n.moveTo (fitting o) s.height)
  /-- Nobody else has changed at all. -/
  kept : ∀ n, s.Stores n → ¬ n.Waits → t.Stores n
  /-- Of nobody has anything else changed. -/
  fields : ∀ n, s.Stores n → ∃ status since activeSince,
    t.Stores { n with status := status, statusSince := since, activeSince := activeSince }
  /-- There are no other nodes than before. -/
  origin : ∀ n, t.Stores n → ∃ m, s.Stores m ∧ m.address = n.address
  /-- There are no other changes in the store. -/
  others : ∀ k, Table.ofKey? k ≠ some .nodes → t.get? k = s.get? k

/-- The node as it is once all that wait are readjusted. -/
def settled (s : Ledger) (n : Node) : Node := if n.Waits then readjusted s n else n

theorem settled_of_not_waits (hwaits : ¬ n.Waits) : settled s n = n := if_neg hwaits

theorem settled_of_waits {o : Option Obstacle} (hwaits : n.Waits) (ho : obstacle? n s = .ok o) :
    settled s n = n.moveTo (fitting o) s.height :=
  (if_pos hwaits).trans (readjusted_eq ho)

theorem settled_address (s : Ledger) (n : Node) : (settled s n).address = n.address := by
  unfold settled readjusted
  split
  · split
    · exact n.moveTo_address _ _
    · rfl
  · rfl

namespace Readjusting

variable {waiting : List Node} (hs : s.NodesComplete)
  (hwaiting : ∀ n, n ∈ waiting ↔ s.Stores n ∧ n.Waits) (ht : Readjusting s waiting t)
include hs hwaiting ht

theorem nodeAt_eq (a : Address) : t.nodeAt a = (s.nodeAt a).map (settled s) := by
  rw [ht.nodes]
  rcases hnode : s.nodeAt a with _ | n
  · simp
  obtain ⟨rfl, hn⟩ := hs.nodeAt_eq_some.1 hnode
  unfold settled
  by_cases hwaits : n.Waits
  · rw [if_pos (List.mem_map_of_mem ((hwaiting n).2 ⟨hn, hwaits⟩)), Option.map_some,
      Option.map_some, if_pos hwaits]
  · rw [if_neg, Option.map_some, if_neg hwaits]
    intro hlisted
    obtain ⟨m, hm, hsame⟩ := List.mem_map.1 hlisted
    obtain ⟨hstored, hmwaits⟩ := (hwaiting m).1 hm
    have hmn := hstored.nodeAt
    rw [hsame, hnode] at hmn
    cases hmn
    exact hwaits hmwaits

theorem stores_iff {m : Node} : t.Stores m ↔ ∃ n, s.Stores n ∧ settled s n = m := by
  have hstored : t.Stores m ↔ t.nodeAt m.address = some m := by
    rw [ht.viewed.nodeAt_eq_some, and_iff_right rfl]
  rw [hstored, ht.nodeAt_eq hs hwaiting, Option.map_eq_some_iff]
  constructor
  · rintro ⟨n, hn, hsettled⟩
    exact ⟨n, (hs.nodeAt_eq_some.1 hn).2, hsettled⟩
  · rintro ⟨n, hn, rfl⟩
    rw [settled_address]
    exact ⟨n, hn.nodeAt, rfl⟩

theorem finish : Readjusted s t where
  fits := by
    intro m hm hwaits
    obtain ⟨n, -, rfl⟩ := (ht.stores_iff hs hwaiting).1 hm
    by_cases hwaited : n.Waits
    · obtain ⟨o, ho⟩ := obstacle?_ok hs.filed n
      rw [settled_of_waits hwaited ho, obstacle?_moveTo, ht.obstacle?_eq hs, Node.moveTo_status]
      exact ⟨o, ho, rfl⟩
    · rw [settled_of_not_waits hwaited] at hwaits
      exact absurd hwaits hwaited
  moved := by
    intro n hn hwaits
    obtain ⟨o, ho⟩ := obstacle?_ok hs.filed n
    exact ⟨o, ho, (ht.stores_iff hs hwaiting).2 ⟨n, hn, settled_of_waits hwaits ho⟩⟩
  kept := by
    intro n hn hwaits
    exact (ht.stores_iff hs hwaiting).2 ⟨n, hn, settled_of_not_waits hwaits⟩
  fields := by
    intro n hn
    have hsettled := (ht.stores_iff hs hwaiting).2 ⟨n, hn, rfl⟩
    by_cases hwaits : n.Waits
    · obtain ⟨o, ho⟩ := obstacle?_ok hs.filed n
      obtain ⟨since, activeSince, hmoved⟩ := n.moveTo_eq (fitting o) s.height
      rw [settled_of_waits hwaits ho, hmoved] at hsettled
      exact ⟨_, since, activeSince, hsettled⟩
    · rw [settled_of_not_waits hwaits] at hsettled
      exact ⟨n.status, n.statusSince, n.activeSince, hsettled⟩
  origin := by
    intro m hm
    obtain ⟨n, hn, rfl⟩ := (ht.stores_iff hs hwaiting).1 hm
    exact ⟨n, hn, (settled_address s n).symm⟩
  others := by
    intro k hk
    rcases ht.changes.records k with hsame | ⟨⟨T, hT, htable⟩, -⟩
    · exact hsame
    · cases List.mem_singleton.1 hT
      exact absurd htable hk

end Readjusting

/-- Readjusting all nodes that wait settles them: to do it again changes nothing. -/
theorem readjustAll_settles (hs : s.NodesComplete) :
    ∃ t, readjustAll s = (.ok (), t) ∧ readjustAll t = (.ok (), t) ∧ Readjusted s t := by
  obtain ⟨waiting, hwaiting, hrun⟩ := readjustAll_eq hs
  obtain ⟨t, ht, hend⟩ := (Readjusting.start hs).run hs fun n => (hwaiting n).1
  rw [List.nil_append] at hend
  have hreadjusted := hend.finish hs hwaiting
  exact ⟨t, hrun.trans ht, readjustAll_of_fits hend.viewed.toNodesComplete hreadjusted.fits,
    hreadjusted⟩

/-! ### Two waiting nodes change places, and a third one is sent away -/

def visitors : List Node :=
  [Fixture.node "alva" .active .top 1, Fixture.node "bela" .standby .top 1,
    Fixture.node "cleo" .ready 1 1, { Fixture.node "dora" .ready .top 1 with forcedToLeave := true }]

def lobby : Ledger := .ofNodes (.ofEnvironment .mocknet) (.clamp 100) visitors

theorem lobby_complete : lobby.NodesComplete := nodesComplete_ofNodes (by decide)

theorem lobby_settles : ∃ t, readjustAll lobby = (.ok (), t) ∧ readjustAll t = (.ok (), t) ∧
    Readjusted lobby t ∧
    (Nodes.all t).toOption.map (fun ns => ns.map (·.status)) =
      some [.active, .ready, .standby, .disabled] := by
  obtain ⟨t, hrun, hagain, hreadjusted⟩ := readjustAll_settles lobby_complete
  refine ⟨t, hrun, hagain, hreadjusted, ?_⟩
  have hstatuses : (Nodes.all (readjustAll lobby).2).toOption.map
      (fun ns => ns.map (·.status)) = some [.active, .ready, .standby, .disabled] := by
    decide +kernel
  rwa [hrun] at hstatuses

end Marking

end LiquidityNet
