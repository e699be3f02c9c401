import LiquidityNet.Fixture
import LiquidityNet.Proofs.Action.Invariance
import LiquidityNet.Proofs.Bond.Admission
import LiquidityNet.Proofs.Bond.Shares
import LiquidityNet.Proofs.Bond.Writes
import LiquidityNet.Proofs.Ledger.Nodes

/-!
# Every bond is backed

The bonds of a node's providers add up to the node's bond, the operator stands first, and no
provider stands twice. The node and its providers are stored together or not at all, so this holds
as soon as the two that are stored fit each other.
-/

namespace LiquidityNet

open LiquidityNet.Action

namespace Ledger

/-- Nodes and providers stand where they belong, and every list of providers that is not empty puts
up the bond of a stored node. -/
structure Backed (s : Ledger) : Prop where
  nodes : s.NodesFiled
  providers : ∀ k ps, s.get? k = some (.providers ps) → k = Key.providers ps.node
  bonds : ∀ a ps, s.get? (Key.providers a) = some (.providers ps) →
    ∃ n, s.get? (Key.node a) = some (.node n) ∧ (ps.list = [] ∨ ps.Backs n)

/-- A node with the operator of the one stored under its address. -/
def Operated (s : Ledger) (n : Node) : Prop :=
  ∃ m, s.get? (Key.node n.address) = some (.node m) ∧ m.operator = n.operator

/-- A backed ledger and some of its nodes, whose operators are known. -/
structure Roster (ns : List Node) (s : Ledger) : Prop where
  backed : s.Backed
  operated : ∀ n ∈ ns, s.Operated n

variable {s t : Ledger} {m n : Node} {ns : List Node} {ps : Providers} {Ts : List Table}

theorem backed_empty (settings : Settings) (height : Height) : (empty settings height).Backed where
  nodes := fun _ _ h => nomatch h
  providers := fun _ _ h => nomatch h
  bonds := fun _ _ h => nomatch h

theorem Backed.roster (hs : s.Backed) : Roster [] s :=
  ⟨hs, fun _ hn => absurd hn List.not_mem_nil⟩

theorem Backed.congr (h : ∀ k, t.get? k = s.get? k) (hs : s.Backed) : t.Backed where
  nodes := by simpa only [NodesFiled, h] using hs.nodes
  providers := by simpa only [h] using hs.providers
  bonds := by simpa only [h] using hs.bonds

theorem Roster.congr (h : ∀ k, t.get? k = s.get? k) (hs : Roster ns s) : Roster ns t where
  backed := hs.backed.congr h
  operated := by simpa only [Operated, h] using hs.operated

theorem Roster.of_changes (h : Changes Ts s t) (hnodes : .nodes ∉ Ts) (hproviders : .providers ∉ Ts)
    (hs : Roster ns s) : Roster ns t := by
  have hnode : ∀ a, t.get? (Key.node a) = s.get? (Key.node a) :=
    fun a => h.get?_eq (Table.ofKey?_node a) hnodes
  have hprovider : ∀ a, t.get? (Key.providers a) = s.get? (Key.providers a) :=
    fun a => h.get?_eq (Table.ofKey?_providers a) hproviders
  refine ⟨⟨?_, ?_, ?_⟩, ?_⟩
  · intro k n hn
    rcases h.records k with hk | hk
    · exact hs.backed.nodes k n (hk ▸ hn)
    · exact hk.2 _ hn
  · intro k ps hps
    rcases h.records k with hk | hk
    · exact hs.backed.providers k ps (hk ▸ hps)
    · exact hk.2 _ hps
  · simpa only [hnode, hprovider] using hs.backed.bonds
  · simpa only [Operated, hnode] using hs.operated

/-- A node and its providers may be replaced by others that fit together. -/
theorem Backed.replaced (hs : s.Backed) (hnode : t.get? (Key.node n.address) = some (.node n))
    (hproviders : t.get? (Key.providers n.address) = some (.providers ps))
    (hrest : ∀ k, k ≠ Key.node n.address → k ≠ Key.providers n.address → t.get? k = s.get? k)
    (hps : ps.node = n.address) (hbacks : ps.list = [] ∨ ps.Backs n) : t.Backed where
  nodes := by
    intro k n' hk
    by_cases hkn : k = Key.node n.address
    · subst hkn
      rw [hnode] at hk
      cases hk
      rfl
    by_cases hkp : k = Key.providers n.address
    · subst hkp
      rw [hproviders] at hk
      cases hk
    · exact hs.nodes k n' (hrest k hkn hkp ▸ hk)
  providers := by
    intro k ps' hk
    by_cases hkn : k = Key.node n.address
    · subst hkn
      rw [hnode] at hk
      cases hk
    by_cases hkp : k = Key.providers n.address
    · subst hkp
      rw [hproviders] at hk
      cases hk
      rw [hps]
    · exact hs.providers k ps' (hrest k hkn hkp ▸ hk)
  bonds := by
    intro a ps' ha
    by_cases han : a = n.address
    · subst han
      rw [hproviders] at ha
      cases ha
      exact ⟨n, hnode, hbacks⟩
    · have hkn : Key.node a ≠ Key.node n.address := fun heq => han (Key.node_inj heq)
      have hkp : Key.providers a ≠ Key.providers n.address :=
        fun heq => han (Key.providers_inj heq)
      rw [hrest _ (Key.node_ne_providers _ _).symm hkp] at ha
      rw [hrest _ hkn (Key.node_ne_providers _ _)]
      exact hs.bonds a ps' ha

theorem Roster.agree (hs : Roster ns s) (hm : m ∈ ns) (hn : n ∈ ns) (h : m.address = n.address) :
    m.operator = n.operator := by
  obtain ⟨m', hm', hmop⟩ := hs.operated m hm
  obtain ⟨n', hn', hnop⟩ := hs.operated n hn
  rw [h, hn'] at hm'
  cases hm'
  rw [← hmop, hnop]

theorem Roster.of_same (hs : Roster ns s) (hn : n ∈ ns) (haddress : m.address = n.address)
    (hoperator : m.operator = n.operator) : Roster [m] s := by
  refine ⟨hs.backed, fun k hk => ?_⟩
  obtain ⟨n', hn', hop⟩ := hs.operated n hn
  rw [List.mem_singleton.1 hk]
  exact ⟨n', haddress ▸ hn', hop.trans hoperator.symm⟩

theorem Roster.apart {α : Type} {body : Action α} (Ts : List Table) (h : body.Confined Ts)
    (hnodes : .nodes ∉ Ts) (hproviders : .providers ∉ Ts) : body.Keeps (Roster ns) :=
  .of_confined h fun _ _ hchanges => Roster.of_changes hchanges hnodes hproviders

/-- After a loop its nodes may be forgotten. -/
theorem Roster.forget {body : Action Unit} {P : Ledger → Prop} (h : body.Keeps (Roster ns))
    (hP : ∀ s, P s → Roster ns s) : body.Leads P (fun _ => Roster []) (Roster []) :=
  h.mono hP (fun _ _ hs => hs.backed.roster) fun _ hs => hs.backed.roster

end Ledger

open Ledger

variable {ns : List Node} {s : Ledger} {n : Node} {ps : Providers}

/-! ## Reading -/

namespace Nodes

theorem roster_of_all (hs : s.Backed) (h : all s = .ok ns) : Roster ns s :=
  ⟨hs, fun n hn => ⟨n, get?_of_mem_all hs.nodes h hn, rfl⟩⟩

theorem roster_of_filter {p : Node → Bool} (hs : s.Backed)
    (h : (do return (← all).filter p : Query (List Node)) s = .ok ns) : Roster ns s := by
  obtain ⟨listed, hlisted, h⟩ := Query.bind_eq_ok.1 h
  cases h
  exact ⟨hs, fun n hn => (roster_of_all hs hlisted).operated n (List.mem_filter.1 hn).1⟩

theorem roster_of_find? {a : Address} (hs : s.Backed) (h : find? a s = .ok (some n)) :
    Roster [n] s := by
  have hn := find?_eq_ok.1 h
  have ha : Key.node a = Key.node n.address := hs.nodes _ n hn
  refine ⟨hs, fun k hk => ?_⟩
  rw [List.mem_singleton.1 hk]
  exact ⟨n, ha ▸ hn, rfl⟩

end Nodes

namespace Bond

/-- Providers that are led by the operator, or none at all, are led by the operator as they
stand. -/
theorem ledBy_of_stored
    (hstored : ∀ ps, s.get? (Key.providers n.address) = some (.providers ps) →
      ps.node = n.address ∧ (ps.list = [] ∨ ps.LedBy n.operator))
    (h : providersOf n s = .ok ps) : ps.LedBy n.operator ∧ ps.node = n.address := by
  obtain ⟨stored, hread, hnode, hlist⟩ := providersOf_eq_ok h
  have halone : stored.list = [] → ps.LedBy n.operator := by
    intro hnil
    rw [if_pos hnil] at hlist
    constructor
    · simp [Providers.addresses, hlist]
    · simp [Providers.addresses, hlist]
  rcases Nodes.providersOf_eq_ok.1 hread with ⟨-, rfl⟩ | hget
  · exact ⟨halone rfl, hnode⟩
  · obtain ⟨haddress, hnil | hled⟩ := hstored stored hget
    · exact ⟨halone hnil, hnode.trans haddress⟩
    · refine ⟨?_, hnode.trans haddress⟩
      by_cases hnil : stored.list = []
      · exact halone hnil
      · rw [if_neg hnil] at hlist
        exact hled.of_addresses (congrArg (·.map (·.address)) hlist)

theorem ledBy_of_providersOf (hs : s.Backed)
    (hoperator : ∀ m, s.get? (Key.node n.address) = some (.node m) → m.operator = n.operator)
    (h : providersOf n s = .ok ps) : ps.LedBy n.operator ∧ ps.node = n.address := by
  refine ledBy_of_stored (fun stored hget => ?_) h
  have haddress : Key.providers n.address = Key.providers stored.node := hs.providers _ _ hget
  refine ⟨(Key.providers_inj haddress).symm, ?_⟩
  obtain ⟨m, hm, hbacks⟩ := hs.bonds _ _ hget
  rw [← hoperator m hm]
  exact hbacks.imp_right fun h => h.toLedBy

theorem ledBy_of_roster (hs : Roster ns s) (hn : n ∈ ns) (h : providersOf n s = .ok ps) :
    ps.LedBy n.operator ∧ ps.node = n.address := by
  refine ledBy_of_providersOf hs.backed (fun m hm => ?_) h
  obtain ⟨m', hm', hop⟩ := hs.operated n hn
  rw [hm'] at hm
  cases hm
  exact hop

end Bond

/-! ## Writing -/

theorem Ledger.Roster.stored (hs : Roster ns s) (hps : ps.node = n.address) (hbacks : ps.Backs n)
    (hagree : ∀ m ∈ ns, m.address = n.address → m.operator = n.operator) :
    Roster ns ((s.putRecord (Key.node n.address) (.node n)).putRecord
      (Key.providers ps.node) (.providers ps)) := by
  rw [hps]
  have hne := Key.node_ne_providers n.address n.address
  have hnode : ((s.putRecord (Key.node n.address) (.node n)).putRecord
      (Key.providers n.address) (.providers ps)).get? (Key.node n.address) = some (.node n) := by
    rw [get?_putRecord, if_neg hne, get?_putRecord, if_pos rfl]
  have hrest : ∀ k, k ≠ Key.node n.address → k ≠ Key.providers n.address →
      ((s.putRecord (Key.node n.address) (.node n)).putRecord
        (Key.providers n.address) (.providers ps)).get? k = s.get? k := by
    intro k hkn hkp
    rw [get?_putRecord, if_neg hkp, get?_putRecord, if_neg hkn]
  constructor
  · refine hs.backed.replaced hnode ?_ hrest hps (.inr hbacks)
    rw [get?_putRecord, if_pos rfl]
  · intro m hm
    by_cases heq : m.address = n.address
    · exact ⟨n, heq ▸ hnode, (hagree m hm heq).symm⟩
    · obtain ⟨m', hm', hop⟩ := hs.operated m hm
      have hkey : Key.node m.address ≠ Key.node n.address := fun h => heq (Key.node_inj h)
      exact ⟨m', (hrest _ hkey (Key.node_ne_providers _ _)).trans hm', hop⟩

theorem Nodes.saveWith_keeps (hps : ps.node = n.address) (hbacks : ps.Backs n)
    (hagree : ∀ m ∈ ns, m.address = n.address → m.operator = n.operator) :
    (Nodes.saveWith n ps).Keeps (Roster ns) := by
  intro s r t hs hrun
  rcases saveWith_cases hrun with ⟨e, rfl, rfl⟩ | ⟨rfl, rfl⟩
  · exact hs
  · exact hs.stored hps hbacks hagree

/-! ## A node whose operator put up the whole bond -/

namespace Bond

def keeper : Node := Fixture.node "keeper" .standby ⟨0x200000000, by decide⟩ 1

def keeperProviders : Providers :=
  ⟨keeper.address, ⟨1000, by decide⟩, [⟨keeper.operator, keeper.bond⟩]⟩

def keeperTx : Transaction := ⟨.blank, some .thor, keeper.operator, keeper.address, [], [], ""⟩

def fundedLedger : Ledger :=
  ((Ledger.empty (.ofEnvironment .mocknet) 1).putRecord
    (Key.balance (.ofModule Module.asgard) .rune) (.amount ⟨0x200000000, by decide⟩)).putRecord
    (Key.balance (.ofModule Module.bond) .rune) (.amount keeper.bond)

def keeperLedger : Ledger :=
  (fundedLedger.putRecord (Key.node keeper.address) (.node keeper)).putRecord
    (Key.providers keeperProviders.node) (.providers keeperProviders)

theorem keeperLedger_backed : keeperLedger.Backed := by
  have hbalance : ∀ (owner : Address) (a : Amount) (u : Ledger), u.Backed →
      (u.putRecord (Key.balance owner .rune) (.amount a)).Backed := by
    intro owner a u hu
    have hchanges : Changes [.balances] u (u.putRecord (Key.balance owner .rune) (.amount a)) := by
      refine changes_assign (T := .balances) (by decide) (by simp) fun r hr => ?_
      cases hr
      exact ⟨.balances, by decide, by simp⟩
    exact (hu.roster.of_changes hchanges (by decide) (by decide)).backed
  have hfunded : fundedLedger.Backed := hbalance _ _ _ (hbalance _ _ _ (backed_empty _ _))
  refine (hfunded.roster.stored rfl ?_ fun _ hm => absurd hm List.not_mem_nil).backed
  exact ⟨⟨rfl, List.pairwise_singleton _ _⟩, rfl⟩

end Bond

end LiquidityNet
