import LiquidityNet.Proofs.Action.Invariance
import LiquidityNet.Proofs.Ledger.Nodes

/-!
# Views of the nodes

A view tells one thing of the node under an address, or of there being none. Nodes are stored anew
all the time, but most operations change only what a given view ignores: bonds, marks, and the
statuses of nodes that are not active. Such an operation leaves the view of every address as it is.
-/

namespace LiquidityNet

open Ledger

/-! ## Nodes -/

namespace Node

variable {m n : Node}

/-! Moving a node to a status changes little else. -/

@[simp] theorem moveTo_address (n : Node) (status : NodeStatus) (height : Height) :
    (n.moveTo status height).address = n.address := by
  unfold moveTo
  split <;> rfl

@[simp] theorem moveTo_consensusKey (n : Node) (status : NodeStatus) (height : Height) :
    (n.moveTo status height).consensusKey = n.consensusKey := by
  unfold moveTo
  split <;> rfl

@[simp] theorem moveTo_operator (n : Node) (status : NodeStatus) (height : Height) :
    (n.moveTo status height).operator = n.operator := by
  unfold moveTo
  split <;> rfl

@[simp] theorem moveTo_keys (n : Node) (status : NodeStatus) (height : Height) :
    (n.moveTo status height).keys = n.keys := by
  unfold moveTo
  split <;> rfl

@[simp] theorem moveTo_forcedToLeave (n : Node) (status : NodeStatus) (height : Height) :
    (n.moveTo status height).forcedToLeave = n.forcedToLeave := by
  unfold moveTo
  split <;> rfl

@[simp] theorem moveTo_status (n : Node) (status : NodeStatus) (height : Height) :
    (n.moveTo status height).status = status := by
  unfold moveTo
  split
  · assumption
  · rfl

theorem isActive_eq (n : Node) : n.isActive = (n.status == .active) := rfl

@[simp] theorem isActive_iff : n.isActive = true ↔ n.status = .active := beq_iff_eq

/-- A complete node stays complete in any known status. -/
theorem validate_congr (h : n.validate = .ok ()) (haddress : m.address = n.address)
    (hoperator : m.operator = n.operator) (hstatus : m.status ≠ .unknown) :
    m.validate = .ok () := by
  unfold validate at h ⊢
  rw [haddress, hoperator]
  cases hunnamed : n.address.isEmpty <;> rw [hunnamed] at h
  · cases hunowned : n.operator.isEmpty <;> rw [hunowned] at h
    · exact if_neg hstatus
    · cases h
  · cases h

theorem validate_moveTo (h : n.validate = .ok ()) {status : NodeStatus} (height : Height)
    (hstatus : status ≠ .unknown) : (n.moveTo status height).validate = .ok () :=
  validate_congr h (n.moveTo_address status height) (n.moveTo_operator status height)
    (by rwa [moveTo_status])

end Node

/-- What is told of the node under an address, or of there being none. -/
abbrev NodeView (γ : Type) := Option Node → γ

namespace NodeView

variable {γ : Type} (f : NodeView γ)

def IgnoresBonds : Prop :=
  ∀ (n : Node) (bond : Amount), f (some { n with bond := bond }) = f (some n)

def IgnoresMarks : Prop :=
  ∀ (n : Node) (score : Amount), f (some { n with leaveScore := score }) = f (some n)

/-- Moves between statuses other than the active one are ignored. -/
def IgnoresMoves : Prop :=
  ∀ (n : Node) (status : NodeStatus) (height : Height), n.isActive = false → status ≠ .active →
    f (some (n.moveTo status height)) = f (some n)

/-- A node that is neither active nor has a key counts as none. -/
def IgnoresNewcomers : Prop :=
  ∀ n : Node, n.isActive = false → n.consensusKey = "" → f (some n) = f none

/-- What messages change is ignored. -/
structure IgnoresMessages : Prop where
  bonds : f.IgnoresBonds
  moves : f.IgnoresMoves
  newcomers : f.IgnoresNewcomers

/-- The view that tells nothing. -/
def blind : NodeView Unit := fun _ => ()

theorem blind_ignoresMarks : blind.IgnoresMarks := fun _ _ => rfl

theorem blind_ignoresMessages : blind.IgnoresMessages where
  bonds := fun _ _ => rfl
  moves := fun _ _ _ _ _ => rfl
  newcomers := fun _ _ _ => rfl

/-- The view of a node is the one of its address. -/
def Shows (v : Address → γ) (n : Node) : Prop := v n.address = f (some n)

variable {f} {v : Address → γ} {n : Node}

theorem Shows.withBond (h : f.Shows v n) (hbonds : f.IgnoresBonds) (bond : Amount) :
    f.Shows v { n with bond := bond } :=
  h.trans (hbonds n bond).symm

theorem Shows.withMark (h : f.Shows v n) (hmarks : f.IgnoresMarks) (score : Amount) :
    f.Shows v { n with leaveScore := score } :=
  h.trans (hmarks n score).symm

/-- A node that is not active may move to any status but that one. -/
theorem Shows.moveTo (h : f.Shows v n) (hmoves : f.IgnoresMoves) {status : NodeStatus}
    (height : Height) (hidle : n.isActive = false) (hstatus : status ≠ .active) :
    f.Shows v (n.moveTo status height) := by
  unfold Shows
  rw [Node.moveTo_address, hmoves n status height hidle hstatus]
  exact h

end NodeView

namespace Ledger

/-- The node is stored, under its address. -/
def Stores (s : Ledger) (n : Node) : Prop := s.get? (Key.node n.address) = some (.node n)

def nodeAt (s : Ledger) (a : Address) : Option Node :=
  match s.get? (Key.node a) with
  | some (.node n) => some n
  | _ => none

/-- Complete nodes that stand where they belong; no others are ever stored. -/
structure NodesComplete (s : Ledger) : Prop where
  filed : s.Filed
  complete : ∀ a n, s.get? (Key.node a) = some (.node n) → n.validate = .ok ()

/-- Complete nodes with a given view of every address. -/
structure Viewed {γ : Type} (f : NodeView γ) (v : Address → γ) (s : Ledger) : Prop
    extends NodesComplete s where
  views : ∀ a, f (s.nodeAt a) = v a

variable {γ : Type} {f : NodeView γ} {v : Address → γ} {s t : Ledger} {m n : Node}
  {Ts : List Table}

theorem nodeAt_congr {a : Address} (h : t.get? (Key.node a) = s.get? (Key.node a)) :
    t.nodeAt a = s.nodeAt a := by
  unfold nodeAt
  rw [h]

theorem nodeAt_of_get? {a : Address} (h : s.get? (Key.node a) = some (.node n)) :
    s.nodeAt a = some n := by
  unfold nodeAt
  rw [h]

theorem nodeAt_of_absent {a : Address} (h : s.get? (Key.node a) = none) : s.nodeAt a = none := by
  unfold nodeAt
  rw [h]

theorem Stores.nodeAt (h : s.Stores n) : s.nodeAt n.address = some n := nodeAt_of_get? h

theorem get?_of_nodeAt {a : Address} (h : s.nodeAt a = some n) :
    s.get? (Key.node a) = some (.node n) := by
  unfold Ledger.nodeAt at h
  split at h
  · rename_i hget
    cases h
    exact hget
  · cases h

theorem nodeAt_putRecord (s : Ledger) (n : Node) (a : Address) :
    (s.putRecord (Key.node n.address) (.node n)).nodeAt a =
      if a = n.address then some n else s.nodeAt a := by
  split
  · rename_i ha
    refine nodeAt_of_get? ?_
    rw [get?_putRecord, if_pos (congrArg Key.node ha)]
  · rename_i ha
    refine nodeAt_congr ?_
    rw [get?_putRecord, if_neg fun h => ha (Key.node_inj h)]

namespace NodesComplete

theorem viewed (hs : s.NodesComplete) : Viewed f (fun a => f (s.nodeAt a)) s := ⟨hs, fun _ => rfl⟩

theorem node (hs : s.NodesComplete) {a : Address} {r : Record}
    (h : s.get? (Key.node a) = some r) :
    ∃ n, r = .node n ∧ n.address = a ∧ n.validate = .ok () := by
  obtain ⟨n, rfl, hkey⟩ := (hs.filed _ r h).node (Table.ofKey?_node a)
  exact ⟨n, rfl, (Key.node_inj hkey).symm, hs.complete a n h⟩

theorem nodeAt_eq_some (hs : s.NodesComplete) {a : Address} :
    s.nodeAt a = some n ↔ n.address = a ∧ s.Stores n := by
  constructor
  · intro h
    have hget := get?_of_nodeAt h
    obtain ⟨m, hm, rfl, -⟩ := hs.node hget
    cases hm
    exact ⟨rfl, hget⟩
  · rintro ⟨rfl, hn⟩
    exact hn.nodeAt

theorem kept {α : Type} {body : Action α} (h : ∀ v, body.Keeps (Viewed .blind v)) :
    body.Keeps NodesComplete := by
  intro s r t hs hrun
  have ht := h _ s r t hs.viewed hrun
  cases r <;> exact ht.toNodesComplete

theorem put (hs : s.NodesComplete) (hn : n.validate = .ok ()) :
    (s.putRecord (Key.node n.address) (.node n)).NodesComplete where
  filed := hs.filed.putRecord rfl
  complete := by
    intro a m hm
    rw [get?_putRecord] at hm
    split at hm
    · cases hm
      exact hn
    · exact hs.complete a m hm

end NodesComplete

theorem nodesComplete_empty (settings : Settings) (height : Height) :
    (empty settings height).NodesComplete where
  filed := filed_empty settings height
  complete := fun _ _ h => nomatch h

namespace Viewed

/-- Views only depend on what stands in the table of the nodes. -/
theorem of_nodes (hs : Viewed f v s) (hfiled : t.Filed)
    (h : ∀ a, t.get? (Key.node a) = s.get? (Key.node a)) : Viewed f v t where
  filed := hfiled
  complete := by simpa only [h] using hs.complete
  views a := by rw [nodeAt_congr (h a), hs.views a]

theorem congr (h : ∀ k, t.get? k = s.get? k) (hs : Viewed f v s) : Viewed f v t :=
  hs.of_nodes (fun k r hr => hs.filed k r (h k ▸ hr)) fun a => h (Key.node a)

theorem of_changes (h : Changes Ts s t) (hnodes : .nodes ∉ Ts) (hs : Viewed f v s) :
    Viewed f v t :=
  hs.of_nodes (h.filed hs.filed) fun a => h.get?_eq (Table.ofKey?_node a) hnodes

theorem apart {α : Type} {body : Action α} (Ts : List Table) (h : body.Confined Ts)
    (hnodes : .nodes ∉ Ts) : body.Keeps (Viewed f v) :=
  .of_confined h fun _ _ hchanges => of_changes hchanges hnodes

/-- Storing a node gives its address the view of the node. -/
theorem put (hs : Viewed f v s) (hn : n.validate = .ok ()) {w : Address → γ}
    (hown : w n.address = f (some n)) (hother : ∀ a, a ≠ n.address → w a = v a) :
    Viewed f w (s.putRecord (Key.node n.address) (.node n)) where
  toNodesComplete := hs.toNodesComplete.put hn
  views a := by
    rw [nodeAt_putRecord]
    split
    · rename_i ha
      rw [ha, hown]
    · rename_i ha
      rw [hother a ha, hs.views a]

theorem stored (hs : Viewed f v s) (hn : n.validate = .ok ()) :
    Viewed f (fun a => if a = n.address then f (some n) else v a)
      (s.putRecord (Key.node n.address) (.node n)) :=
  hs.put hn (if_pos rfl) fun _ ha => if_neg ha

end Viewed

theorem NodesComplete.apart {α : Type} {body : Action α} (Ts : List Table) (h : body.Confined Ts)
    (hnodes : .nodes ∉ Ts) : body.Keeps NodesComplete :=
  NodesComplete.kept fun _ => Viewed.apart Ts h hnodes

end Ledger

/-! ## Reading -/

theorem mapM_eq_some {α β : Type} {f : α → Option β} {xs : List α}
    (h : ∀ x ∈ xs, ∃ y, f x = some y) : ∃ ys, xs.mapM f = some ys := by
  induction xs with
  | nil => exact ⟨[], rfl⟩
  | cons x xs ih =>
    obtain ⟨y, hy⟩ := h x List.mem_cons_self
    obtain ⟨ys, hys⟩ := ih fun z hz => h z (List.mem_cons_of_mem x hz)
    refine ⟨y :: ys, ?_⟩
    rw [List.mapM_cons, hy, hys]
    rfl

namespace Nodes

variable {γ : Type} {f : NodeView γ} {v : Address → γ} {s t : Ledger} {n : Node}
  {ns : List Node}

theorem shows_of_get? (hs : Viewed f v s) {a : Address}
    (h : s.get? (Key.node a) = some (.node n)) : n.address = a ∧ f.Shows v n := by
  obtain ⟨m, hm, rfl, -⟩ := hs.toNodesComplete.node h
  cases hm
  exact ⟨rfl, (hs.views _).symm.trans (congrArg f (nodeAt_of_get? h))⟩

theorem shows_of_all (hs : Viewed f v s) (h : all s = .ok ns) : ∀ n ∈ ns, f.Shows v n := by
  intro n hn
  have hfiled : s.NodesFiled := fun k n hk => hs.filed k _ hk
  exact (shows_of_get? hs (get?_of_mem_all hfiled h hn)).2

theorem shows_of_filter {p : Node → Bool} (hs : Viewed f v s)
    (h : (do return (← all).filter p : Query (List Node)) s = .ok ns) :
    ∀ n ∈ ns, f.Shows v n ∧ p n = true := by
  obtain ⟨listed, hlisted, h⟩ := Query.bind_eq_ok.1 h
  cases h
  intro n hn
  obtain ⟨hmem, hp⟩ := List.mem_filter.1 hn
  exact ⟨shows_of_all hs hlisted n hmem, hp⟩

theorem shows_of_withStatus {status : NodeStatus} (hs : Viewed f v s)
    (h : withStatus status s = .ok ns) : ∀ n ∈ ns, f.Shows v n ∧ n.status = status := by
  intro n hn
  obtain ⟨hshows, hstatus⟩ := shows_of_filter hs h n hn
  exact ⟨hshows, of_decide_eq_true hstatus⟩

/-- Nodes that stand where they belong can be read. -/
theorem find?_ok (hs : s.Filed) (a : Address) : ∃ o, find? a s = .ok o := by
  rcases hget : s.get? (Key.node a) with _ | r
  · exact ⟨none, find?_eq_ok.2 hget⟩
  · obtain ⟨n, rfl, -⟩ := (hs _ r hget).node (Table.ofKey?_node a)
    exact ⟨some n, find?_eq_ok.2 hget⟩

theorem all_ok (hs : s.Filed) : ∃ ns, all s = .ok ns := by
  have hread : ∀ e ∈ s.store.under Key.nodeStart, ∃ n, (ofRecord? e.2 : Option Node) = some n := by
    rintro ⟨k, r⟩ hmem
    obtain ⟨hget, hbegin⟩ := LayeredStore.mem_under.1 hmem
    obtain ⟨n, rfl, -⟩ := (hs k r hget).node (Table.ofKey?_of_beginsWith (T := .nodes) hbegin)
    exact ⟨n, rfl⟩
  obtain ⟨ns, hns⟩ := mapM_eq_some hread
  refine ⟨ns, ?_⟩
  unfold all fetchAll
  rw [hns]

theorem withStatus_ok (hs : s.Filed) (status : NodeStatus) :
    ∃ ns, withStatus status s = .ok ns := by
  obtain ⟨ns, hns⟩ := all_ok hs
  exact ⟨_, Query.bind_eq_ok.2 ⟨ns, hns, rfl⟩⟩

theorem complete_of_withStatus {status : NodeStatus} (hs : s.NodesComplete)
    (h : withStatus status s = .ok ns) : ∀ n ∈ ns, n.validate = .ok () := by
  obtain ⟨listed, hlisted, h⟩ := Query.bind_eq_ok.1 h
  cases h
  intro n hn
  have hfiled : s.NodesFiled := fun k n hk => hs.filed k _ hk
  exact hs.complete _ n (get?_of_mem_all hfiled hlisted (List.mem_filter.1 hn).1)

/-! ## Writing -/

/-- An incomplete node is not stored at all. -/
theorem save_keeps {P : Ledger → Prop} (hP : ∀ s, n.validate = .ok () → P s →
    P (s.putRecord (Key.node n.address) (.node n))) : (save n).Keeps P := by
  intro s r t hs hrun
  unfold save at hrun
  rw [Action.bind_run, Action.check_run] at hrun
  rcases hvalid : n.validate with e | _ <;> rw [hvalid] at hrun <;> cases hrun
  · exact hs
  · exact hP s hvalid hs

theorem save_run (hn : n.validate = .ok ()) :
    save n s = (.ok (), s.putRecord (Key.node n.address) (.node n)) := by
  unfold save
  rw [Action.bind_run, Action.check_run, hn]
  rfl

theorem save_answers (hn : n.validate = .ok ()) : (save n).Answers := by
  intro s r t _ hrun
  rw [save_run hn] at hrun
  cases hrun
  trivial

theorem save_viewed (hn : f.Shows v n) : (save n).Keeps (Viewed f v) :=
  save_keeps fun _ hvalid hs => hs.put hvalid hn fun _ _ => rfl

theorem save_complete (n : Node) : (save n).Keeps NodesComplete :=
  save_keeps fun _ hvalid hs => hs.put hvalid

theorem saveWith_viewed (hn : f.Shows v n) (ps : Providers) : (saveWith n ps).Keeps (Viewed f v) :=
  (save_viewed hn).bind fun _ => Viewed.apart _ (saveProviders_confined ps) (by decide)

end Nodes

end LiquidityNet
