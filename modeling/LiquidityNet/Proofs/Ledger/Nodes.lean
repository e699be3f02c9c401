import LiquidityNet.Proofs.Ledger.Writes

/-!
# Stored nodes

A node and its providers are read as they were stored, each under a key of its own. Both are stored
together or not at all.
-/

namespace LiquidityNet

open Ledger

theorem mem_of_mapM {α β : Type} {f : α → Option β} {xs : List α} {ys : List β}
    (h : xs.mapM f = some ys) {y : β} (hy : y ∈ ys) : ∃ x ∈ xs, f x = some y := by
  induction xs generalizing ys with
  | nil =>
    cases h
    cases hy
  | cons x xs ih =>
    rw [List.mapM_cons] at h
    obtain ⟨z, hz, h⟩ := Option.bind_eq_some_iff.1 h
    obtain ⟨zs, hzs, h⟩ := Option.bind_eq_some_iff.1 h
    cases h
    rcases List.mem_cons.1 hy with rfl | hy
    · exact ⟨x, List.mem_cons_self, hz⟩
    · obtain ⟨x', hx', hf⟩ := ih hzs hy
      exact ⟨x', List.mem_cons_of_mem x hx', hf⟩

theorem exists_of_mapM {α β : Type} {f : α → Option β} {xs : List α} {ys : List β}
    (h : xs.mapM f = some ys) {x : α} (hx : x ∈ xs) : ∃ y ∈ ys, f x = some y := by
  induction xs generalizing ys with
  | nil => cases hx
  | cons x' xs ih =>
    rw [List.mapM_cons] at h
    obtain ⟨z, hz, h⟩ := Option.bind_eq_some_iff.1 h
    obtain ⟨zs, hzs, h⟩ := Option.bind_eq_some_iff.1 h
    cases h
    rcases List.mem_cons.1 hx with rfl | hx
    · exact ⟨z, List.mem_cons_self, hz⟩
    · obtain ⟨y, hy, hf⟩ := ih hzs hx
      exact ⟨y, List.mem_cons_of_mem z hy, hf⟩

namespace Ledger

/-- Every node stands under its own address. -/
def NodesFiled (s : Ledger) : Prop :=
  ∀ k n, s.get? k = some (.node n) → k = Key.node n.address

/-- The bond of the node under an address, zero where there is none. -/
def bondAt (s : Ledger) (a : Address) : Amount :=
  match s.get? (Key.node a) with
  | some (.node n) => n.bond
  | _ => 0

end Ledger

theorem Ledger.exists_of_fetchAll {α : Type} [Recordable α] {start : String} {s : Ledger}
    {as : List α} (h : fetchAll start s = .ok as) {a : α} (ha : a ∈ as) :
    ∃ k r, s.get? k = some r ∧ ofRecord? r = some a := by
  unfold fetchAll at h
  split at h
  · rename_i bs hbs
    cases h
    obtain ⟨⟨k, r⟩, hmem, hr⟩ := mem_of_mapM hbs ha
    exact ⟨k, r, (LayeredStore.mem_under.1 hmem).1, hr⟩
  · cases h

/-- What stands under a key that begins so is read. -/
theorem Ledger.mem_of_fetchAll {α : Type} [Recordable α] {start k : String} {s : Ledger}
    {as : List α} {r : Record} (h : fetchAll start s = .ok as)
    (hk : Text.beginsWith start k = true) (hr : s.get? k = some r) :
    ∃ a ∈ as, ofRecord? r = some a := by
  unfold fetchAll at h
  split at h
  · rename_i bs hbs
    cases h
    exact exists_of_mapM hbs (LayeredStore.mem_under.2 ⟨hr, hk⟩)
  · cases h

namespace Key

theorem append_cancel {a b c : String} (h : a ++ b = a ++ c) : b = c := by
  have hlist := congrArg String.toList h
  rw [String.toList_append, String.toList_append] at hlist
  exact String.toList_injective (List.append_cancel_left hlist)

theorem node_inj {a b : Address} (h : node a = node b) : a = b := by
  have htext : a.text = b.text := append_cancel h
  cases a
  cases b
  exact congrArg Address.mk htext

theorem beginsWith_node (a : Address) : Text.beginsWith nodeStart (node a) = true :=
  Text.beginsWith_iff.2 ⟨a.text.toList, String.toList_append.symm⟩

theorem providers_inj {a b : Address} (h : providers a = providers b) : a = b := by
  have htext : a.text = b.text := append_cancel h
  cases a
  cases b
  exact congrArg Address.mk htext

theorem node_ne_providers (a b : Address) : node a ≠ providers b := by
  intro h
  have htable := congrArg Table.ofKey? h
  simp at htable

end Key

namespace Nodes

variable {a : Address} {s t : Ledger} {n : Node} {ps : Providers}

theorem find?_eq_ok {o : Option Node} :
    find? a s = .ok o ↔ s.get? (Key.node a) = o.map .node := by
  unfold find?
  rw [fetch?_eq_ok]
  constructor
  · rintro (⟨hnone, rfl⟩ | ⟨r, m, hr, hm, rfl⟩)
    · exact hnone
    · cases r <;> cases hm
      exact hr
  · intro h
    cases o with
    | none => exact .inl ⟨h, rfl⟩
    | some n => exact .inr ⟨_, n, h, rfl, rfl⟩

theorem providersOf_eq_ok :
    providersOf a s = .ok ps ↔
      (s.get? (Key.providers a) = none ∧ ps = .empty a) ∨
        s.get? (Key.providers a) = some (.providers ps) := by
  unfold providersOf
  rw [fetchD_eq_ok]
  refine or_congr Iff.rfl ⟨?_, ?_⟩
  · rintro ⟨r, hr, hps⟩
    cases r <;> cases hps
    exact hr
  · intro h
    exact ⟨_, h, rfl⟩

theorem get?_of_mem_all {ns : List Node} (hs : s.NodesFiled) (h : all s = .ok ns) (hn : n ∈ ns) :
    s.get? (Key.node n.address) = some (.node n) := by
  obtain ⟨k, r, hr, hread⟩ := exists_of_fetchAll h hn
  cases r <;> cases hread
  rwa [← hs k n hr]

theorem saveWith_cases {r : Except Failure Unit} (h : saveWith n ps s = (r, t)) :
    (∃ e, r = .error e ∧ t = s) ∨
      r = .ok () ∧ t = (s.putRecord (Key.node n.address) (.node n)).putRecord
        (Key.providers ps.node) (.providers ps) := by
  unfold saveWith save at h
  rw [Action.bind_run, Action.bind_run, Action.check_run] at h
  rcases hvalid : n.validate with e | _ <;> rw [hvalid] at h <;> cases h
  · exact .inl ⟨_, rfl, rfl⟩
  · exact .inr ⟨rfl, rfl⟩

end Nodes

end LiquidityNet
