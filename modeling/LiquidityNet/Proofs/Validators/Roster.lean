import LiquidityNet.Proofs.Validators.Views

/-!
# Rosters

The stored nodes are listed in the order of their keys, each once. What is listed, and in which
order, depends only on views of the nodes.
-/

namespace LiquidityNet

open Ledger

/-- An order of what is read is an order of the values. -/
theorem pairwise_of_mapM {α β : Type} {f : α → Option β} {R : α → α → Prop} {Q : β → β → Prop}
    {xs : List α} {ys : List β} (h : xs.mapM f = some ys) (hxs : xs.Pairwise R)
    (hQ : ∀ x ∈ xs, ∀ x' ∈ xs, ∀ y y', f x = some y → f x' = some y' → R x x' → Q y y') :
    ys.Pairwise Q := by
  induction xs generalizing ys with
  | nil =>
    cases h
    exact .nil
  | cons x xs ih =>
    rw [List.mapM_cons] at h
    obtain ⟨z, hz, h⟩ := Option.bind_eq_some_iff.1 h
    obtain ⟨zs, hzs, h⟩ := Option.bind_eq_some_iff.1 h
    cases h
    obtain ⟨hx, hxs⟩ := List.pairwise_cons.1 hxs
    refine .cons (fun y hy => ?_) (ih hzs hxs fun x₁ h₁ x₂ h₂ =>
      hQ x₁ (List.mem_cons_of_mem x h₁) x₂ (List.mem_cons_of_mem x h₂))
    obtain ⟨x', hx', hy⟩ := mem_of_mapM hzs hy
    exact hQ x List.mem_cons_self x' (List.mem_cons_of_mem x hx') z y hz hy (hx x' hx')

/-- Lists of the same things in the same strict order are the same. -/
theorem eq_of_sorted {α : Type} {key : α → String} {xs ys : List α}
    (hxs : xs.Pairwise fun x y => key x < key y) (hys : ys.Pairwise fun x y => key x < key y)
    (h : ∀ x, x ∈ xs ↔ x ∈ ys) : xs = ys := by
  have hne : ∀ {zs : List α}, zs.Pairwise (fun x y => key x < key y) → zs.Nodup := by
    intro zs hzs
    refine hzs.imp ?_
    rintro x _ hlt rfl
    exact String.lt_irrefl _ hlt
  refine List.Perm.eq_of_pairwise ?_ hxs hys ((List.perm_ext_iff_of_nodup (hne hxs) (hne hys)).2 h)
  intro x y _ _ hxy hyx
  exact absurd (String.lt_trans hxy hyx) (String.lt_irrefl _)

/-- The node, if it is active. -/
def NodeView.activeNode : NodeView (Option Node) := fun o => o.filter Node.isActive

theorem NodeView.activeNode_ignoresMoves : activeNode.IgnoresMoves := by
  intro n status height hidle hstatus
  have hmoved : (n.moveTo status height).isActive = false := by
    rw [Node.isActive_eq, Node.moveTo_status]
    exact beq_false_of_ne hstatus
  simp only [activeNode, Option.filter_some, hidle, hmoved, Bool.false_eq_true, if_false]

namespace Ledger

/-- The ledger in which some nodes are stored, and nothing else is. -/
def ofNodes (settings : Settings) (height : Height) (ns : List Node) : Ledger :=
  ns.foldl (fun s n => s.putRecord (Key.node n.address) (.node n)) (empty settings height)

theorem ofNodes_changes (settings : Settings) (height : Height) (ns : List Node) :
    Changes [.nodes] (empty settings height) (ofNodes settings height ns) := by
  have hput : ∀ s : Ledger, Changes [.nodes] s
      (ns.foldl (fun s n => s.putRecord (Key.node n.address) (.node n)) s) := by
    induction ns with
    | nil => exact Changes.refl _
    | cons n ns ih =>
      intro s
      refine .trans (changes_putRecord (r := .node n) ?_ (Table.ofKey?_node n.address) rfl) (ih _)
      exact List.mem_cons_self
  exact hput _

theorem NodesComplete.putAll {s : Ledger} {ns : List Node} (hs : s.NodesComplete)
    (hns : ∀ n ∈ ns, n.validate = .ok ()) :
    (ns.foldl (fun s n => s.putRecord (Key.node n.address) (.node n)) s).NodesComplete := by
  induction ns generalizing s with
  | nil => exact hs
  | cons n ns ih =>
    exact ih (hs.put (hns n List.mem_cons_self)) fun m hm => hns m (List.mem_cons_of_mem n hm)

theorem nodesComplete_ofNodes {settings : Settings} {height : Height} {ns : List Node}
    (h : ns.all (·.validate.isOk) = true) : (ofNodes settings height ns).NodesComplete := by
  refine (nodesComplete_empty settings height).putAll fun n hn => ?_
  have hok := List.all_eq_true.1 h n hn
  rcases hvalid : n.validate with e | _
  · rw [hvalid] at hok
    cases hok
  · rfl

end Ledger

namespace Nodes

variable {s t : Ledger} {n : Node} {ns ms : List Node}

theorem mem_all (hs : s.NodesComplete) (h : all s = .ok ns) : n ∈ ns ↔ s.Stores n := by
  have hfiled : s.NodesFiled := fun k n hk => hs.filed k _ hk
  refine ⟨fun hn => get?_of_mem_all hfiled h hn, fun hn => ?_⟩
  obtain ⟨m, hm, hread⟩ := mem_of_fetchAll h (Key.beginsWith_node n.address) hn
  cases hread
  exact hm

theorem all_sorted_of_filed (hs : s.NodesFiled) (h : all s = .ok ns) :
    ns.Pairwise fun m n => Key.node m.address < Key.node n.address := by
  unfold all fetchAll at h
  split at h
  · rename_i listed hlisted
    cases h
    refine pairwise_of_mapM hlisted (s.store.under_sorted Key.nodeStart) ?_
    rintro ⟨k, r⟩ hk ⟨k', r'⟩ hk' m n hm hn hlt
    cases r <;> cases hm
    cases r' <;> cases hn
    have hkey : k = Key.node m.address := hs k _ (LayeredStore.mem_under.1 hk).1
    have hkey' : k' = Key.node n.address := hs k' _ (LayeredStore.mem_under.1 hk').1
    rwa [← hkey, ← hkey']
  · cases h

theorem all_sorted (hs : s.NodesComplete) (h : all s = .ok ns) :
    ns.Pairwise fun m n => Key.node m.address < Key.node n.address :=
  all_sorted_of_filed (fun k _ hk => hs.filed k _ hk) h

theorem mem_withStatus {status : NodeStatus} (hs : s.NodesComplete)
    (h : withStatus status s = .ok ns) : n ∈ ns ↔ s.Stores n ∧ n.status = status := by
  obtain ⟨listed, hlisted, h⟩ := Query.bind_eq_ok.1 h
  cases h
  rw [List.mem_filter, mem_all hs hlisted, decide_eq_true_iff]

theorem withStatus_sorted {status : NodeStatus} (hs : s.NodesComplete)
    (h : withStatus status s = .ok ns) :
    ns.Pairwise fun m n => Key.node m.address < Key.node n.address := by
  obtain ⟨listed, hlisted, h⟩ := Query.bind_eq_ok.1 h
  cases h
  exact (all_sorted hs hlisted).filter _

/-- No address is listed twice. -/
theorem nodup_of_sorted (h : ns.Pairwise fun m n => Key.node m.address < Key.node n.address) :
    (ns.map (·.address)).Nodup := by
  rw [List.Nodup, List.pairwise_map]
  refine h.imp ?_
  intro m n hlt heq
  rw [heq] at hlt
  exact String.lt_irrefl _ hlt

theorem mem_active (hs : s.NodesComplete) (h : active s = .ok ns) :
    n ∈ ns ↔ s.nodeAt n.address = some n ∧ n.isActive = true := by
  rw [mem_withStatus hs h, hs.nodeAt_eq_some, Node.isActive_iff]
  simp only [true_and]

/-- The active nodes are listed alike wherever they are the same. -/
theorem active_congr (hs : s.NodesComplete)
    (ht : Viewed .activeNode (fun a => NodeView.activeNode (s.nodeAt a)) t) :
    active t = active s := by
  obtain ⟨ms, hms⟩ := withStatus_ok hs.filed .active
  obtain ⟨ns, hns⟩ := withStatus_ok ht.filed .active
  have hmem : ∀ n, n ∈ ns ↔ n ∈ ms := by
    intro n
    rw [mem_active hs hms, mem_active ht.toNodesComplete hns, ← Option.filter_eq_some_iff,
      ← Option.filter_eq_some_iff]
    exact iff_of_eq (congrArg (· = some n) (ht.views n.address))
  have hsame := eq_of_sorted (withStatus_sorted ht.toNodesComplete hns)
    (withStatus_sorted hs hms) hmem
  rw [active, hms, hns, hsame]

/-! ## What is told of each -/

section

variable {γ : Type} {f : Node → γ}

theorem mem_told (hs : s.NodesComplete) (h : all s = .ok ns) {a : Address} {y : γ} :
    (a, y) ∈ ns.map (fun n => (n.address, f n)) ↔ (s.nodeAt a).map f = some y := by
  rw [List.mem_map, Option.map_eq_some_iff]
  constructor
  · rintro ⟨n, hn, heq⟩
    cases heq
    exact ⟨n, ((mem_all hs h).1 hn).nodeAt, rfl⟩
  · rintro ⟨n, hn, rfl⟩
    obtain ⟨rfl, hstored⟩ := hs.nodeAt_eq_some.1 hn
    exact ⟨n, (mem_all hs h).2 hstored, rfl⟩

/-- Where the same is told of the node under each address, the same is told of the lists. -/
theorem told_congr (hs : s.NodesComplete) (ht : t.NodesComplete)
    (hsame : ∀ a, (t.nodeAt a).map f = (s.nodeAt a).map f) (hns : all s = .ok ns)
    (hms : all t = .ok ms) :
    ms.map (fun n => (n.address, f n)) = ns.map fun n => (n.address, f n) := by
  have hsorted : ∀ {u : Ledger} {ks : List Node}, u.NodesComplete → all u = .ok ks →
      (ks.map fun n => (n.address, f n)).Pairwise fun x y => Key.node x.1 < Key.node y.1 := by
    intro u ks hu hks
    rw [List.pairwise_map]
    exact all_sorted hu hks
  refine eq_of_sorted (hsorted ht hms) (hsorted hs hns) fun ⟨a, y⟩ => ?_
  rw [mem_told ht hms, mem_told hs hns, hsame]

end

theorem holding?_ok (hs : s.Filed) (k : PublicKey) : ∃ o, holding? k s = .ok o := by
  obtain ⟨ns, hns⟩ := all_ok hs
  exact ⟨_, Query.bind_eq_ok.2 ⟨ns, hns, rfl⟩⟩

theorem holding?_eq_some {k : PublicKey} (hs : s.NodesComplete) (h : holding? k s = .ok (some n)) :
    s.nodeAt n.address = some n ∧ n.vaultKey = some k := by
  obtain ⟨ns, hns, h⟩ := Query.bind_eq_ok.1 h
  have hfound : ns.find? (fun n => n.vaultKey == some k) = some n := Except.ok.inj h
  refine ⟨((mem_all hs hns).1 (List.mem_of_find?_eq_some hfound)).nodeAt, ?_⟩
  have hholds := List.find?_some hfound
  exact eq_of_beq hholds

/-- While no node's keys change, a key is held under the same address. -/
theorem holding?_congr {k : PublicKey} {o p : Option Node} (hs : s.NodesComplete)
    (ht : t.NodesComplete) (hkeys : ∀ a, (t.nodeAt a).map Node.keys = (s.nodeAt a).map Node.keys)
    (ho : holding? k s = .ok o) (hp : holding? k t = .ok p) :
    p.map (·.address) = o.map (·.address) := by
  obtain ⟨ns, hns, ho⟩ := Query.bind_eq_ok.1 ho
  obtain ⟨ms, hms, hp⟩ := Query.bind_eq_ok.1 hp
  cases ho
  cases hp
  -- Whether a node holds the key can be told from its keys.
  have htold : ∀ l : List Node, (l.find? fun n => n.vaultKey == some k).map (·.address) =
      ((l.map fun n => (n.address, n.keys)).find? fun x => x.2.secp256k1 == some k).map (·.1) := by
    intro l
    rw [List.find?_map, Option.map_map]
    rfl
  rw [htold, htold, told_congr hs ht hkeys hns hms]

end Nodes

end LiquidityNet
