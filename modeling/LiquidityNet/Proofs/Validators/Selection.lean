import LiquidityNet.Fixture
import LiquidityNet.Proofs.Validators.Roster
import LiquidityNet.Proofs.Validators.Standing

/-!
# The next validator set

Of the active nodes at most a third leave in one churn, and only marked ones. They leave in the
order of their classes: forced nodes first, then those that asked to leave, then those with a
score. Ready nodes join, and the set grows to no more than its target.
-/

namespace LiquidityNet

open LiquidityNet.Action Ledger

theorem forall_mem_take {α : Type} {p : α → Bool} {xs : List α} {k : Nat}
    (hmono : xs.Pairwise fun x y => p y = true → p x = true) (hk : k ≤ xs.countP p) :
    ∀ x ∈ xs.take k, p x = true := by
  induction xs generalizing k with
  | nil => exact fun x hx => absurd (List.mem_of_mem_take hx) List.not_mem_nil
  | cons x xs ih =>
    obtain ⟨hx, hxs⟩ := List.pairwise_cons.1 hmono
    cases k with
    | zero => exact fun y hy => absurd hy List.not_mem_nil
    | succ k =>
      -- If the first one failed, all others would, and none would be counted.
      have hfirst : p x = true := by
        obtain ⟨y, hy, hpy⟩ := List.countP_pos_iff.1 (Nat.lt_of_lt_of_le k.succ_pos hk)
        rcases List.mem_cons.1 hy with rfl | hy
        · exact hpy
        · exact hx y hy hpy
      rw [List.countP_cons_of_pos hfirst] at hk
      intro y hy
      rcases List.mem_cons.1 hy with rfl | hy
      · exact hfirst
      · exact ih hxs (Nat.le_of_succ_le_succ hk) y hy

/-! ## The order of leaving -/

namespace Churn

variable {m n k : Node} {ns : List Node}

/-- Whether a churn may take a node out at all. -/
def mayLeave (n : Node) : Bool := wantsOut n || n.leaveScore != 0

theorem class_forced : (leaveRank n).1 = 0 ↔ n.forcedToLeave = true := by
  unfold leaveRank
  grind

theorem class_wantsOut : (leaveRank n).1 ≤ 1 ↔ wantsOut n = true := by
  unfold leaveRank wantsOut
  grind

theorem class_mayLeave : (leaveRank n).1 ≤ 2 ↔ mayLeave n = true := by
  unfold leaveRank mayLeave wantsOut
  grind

theorem leavesBefore_iff :
    leavesBefore m n = true ↔
      (leaveRank m).1 < (leaveRank n).1 ∨ (leaveRank m).1 = (leaveRank n).1 ∧
        ((leaveRank m).2 < (leaveRank n).2 ∨
          (leaveRank m).2 = (leaveRank n).2 ∧ m.address.text ≤ n.address.text) := by
  unfold leavesBefore
  grind

theorem leavesBefore_trans (hmn : leavesBefore m n = true) (hnk : leavesBefore n k = true) :
    leavesBefore m k = true := by
  rw [leavesBefore_iff] at *
  have htext : m.address.text ≤ n.address.text → n.address.text ≤ k.address.text →
      m.address.text ≤ k.address.text := String.le_trans
  grind

theorem leavesBefore_total (m n : Node) : (leavesBefore m n || leavesBefore n m) = true := by
  rw [Bool.or_eq_true, leavesBefore_iff, leavesBefore_iff]
  have htext := String.le_total m.address.text n.address.text
  grind

theorem class_le_of_leavesBefore (h : leavesBefore m n = true) :
    (leaveRank m).1 ≤ (leaveRank n).1 := by
  rcases leavesBefore_iff.1 h with hlt | ⟨heq, -⟩
  · exact Nat.le_of_lt hlt
  · exact Nat.le_of_eq heq

theorem sorted_by_class (ns : List Node) :
    (ns.mergeSort leavesBefore).Pairwise fun m n => (leaveRank m).1 ≤ (leaveRank n).1 := by
  have htrans : ∀ m n o, leavesBefore m n → leavesBefore n o → leavesBefore m o :=
    fun _ _ _ => leavesBefore_trans
  exact (List.pairwise_mergeSort htrans leavesBefore_total ns).imp class_le_of_leavesBefore

theorem countToRemove_le_third (ns : List Node) : countToRemove ns ≤ ns.length / 3 := by
  simp only [countToRemove, mostToLeave]
  omega

theorem countP_mayLeave (ns : List Node) :
    ns.countP mayLeave =
      ns.countP wantsOut + ns.countP fun n => !wantsOut n && n.leaveScore != 0 := by
  induction ns with
  | nil => rfl
  | cons n ns ih =>
    simp only [List.countP_cons, ih, mayLeave]
    grind

theorem countToRemove_le_countP (ns : List Node) : countToRemove ns ≤ ns.countP mayLeave := by
  rw [countP_mayLeave]
  simp only [countToRemove]
  omega

variable (hsorted : ns.Pairwise fun m n => (leaveRank m).1 ≤ (leaveRank n).1)
include hsorted

/-- As many as are removed may all leave. -/
theorem mayLeave_of_removed (hn : n ∈ ns.take (countToRemove ns)) : mayLeave n = true := by
  refine forall_mem_take (hsorted.imp fun {x y} hle hy => ?_) (countToRemove_le_countP ns) n hn
  exact class_mayLeave.1 (Nat.le_trans hle (class_mayLeave.2 hy))

/-- Who leaves is of no later class than who stays. -/
theorem class_removed_le {count : Nat} (hm : m ∈ ns.take count) (hn : n ∈ ns.drop count) :
    (leaveRank m).1 ≤ (leaveRank n).1 := by
  rw [← List.take_append_drop count ns, List.pairwise_append] at hsorted
  exact hsorted.2.2 m hm n hn

end Churn

/-! ## Who is missing -/

namespace Rotation

/-- The nodes of a list whose addresses another one lacks. -/
def missing (present next : List Node) : List Node :=
  present.filter fun n => n.address ∉ next.map (·.address)

section

variable {present active joining : List Node} {n : Node} {count : Nat}
  (hperm : (active.map (·.address)).Perm (present.map (·.address)))
  (hnodup : (present.map (·.address)).Nodup)
  (hapart : ∀ j ∈ joining, j.address ∉ present.map (·.address))
include hperm hnodup hapart

/-- Where the others stay, and those that join are new, the first ones are missing. -/
theorem mem_missing :
    n ∈ missing present (active.drop count ++ joining) ↔
      n ∈ present ∧ n.address ∈ (active.take count).map (·.address) := by
  have hsplit : (active.take count).map (·.address) ++ (active.drop count).map (·.address) =
      active.map (·.address) := by
    rw [← List.map_append, List.take_append_drop]
  have hdisjoint := (List.nodup_append.1 (hsplit ▸ hperm.nodup_iff.2 hnodup)).2.2
  rw [missing, List.mem_filter, decide_eq_true_iff, List.map_append, List.mem_append, not_or]
  refine and_congr_right fun hn => ?_
  have haddress : n.address ∈ present.map (·.address) := List.mem_map_of_mem hn
  constructor
  · rintro ⟨hstays, -⟩
    have hlisted := hperm.mem_iff.2 haddress
    rw [← hsplit, List.mem_append] at hlisted
    exact hlisted.resolve_right hstays
  · intro hleaves
    refine ⟨fun hstays => hdisjoint _ hleaves _ hstays rfl, fun hjoins => ?_⟩
    obtain ⟨j, hj, hsame⟩ := List.mem_map.1 hjoins
    exact hapart j hj (hsame ▸ haddress)

theorem length_missing :
    (missing present (active.drop count ++ joining)).length = (active.take count).length := by
  have hmissing : ((missing present (active.drop count ++ joining)).map (·.address)).Nodup :=
    hnodup.sublist (List.filter_sublist.map _)
  have htaken : ((active.take count).map (·.address)).Nodup :=
    (hperm.nodup_iff.2 hnodup).sublist ((List.take_sublist count active).map _)
  have hsame := (List.perm_ext_iff_of_nodup hmissing htaken).2 fun a => ?_
  · simpa only [List.length_map] using hsame.length_eq
  · constructor
    · intro ha
      obtain ⟨n, hn, rfl⟩ := List.mem_map.1 ha
      exact ((mem_missing hperm hnodup hapart).1 hn).2
    · intro ha
      have hlisted : a ∈ active.map (·.address) := (List.take_sublist count active).map _ |>.mem ha
      obtain ⟨n, hn, rfl⟩ := List.mem_map.1 (hperm.mem_iff.1 hlisted)
      exact List.mem_map_of_mem ((mem_missing hperm hnodup hapart).2 ⟨hn, ha⟩)

end

/-! ## Selections -/

/-- What is certain of the next set, whatever the flags and scores of the nodes that are active at
present. -/
structure Selection (target : Nat) (present next : List Node) (rotates : Bool) (t : Ledger) :
    Prop where
  few : (missing present next).length ≤ present.length / 3
  marked : ∀ n ∈ missing present next,
    n.forcedToLeave = true ∨ n.requestedToLeave = true ∨ n.leaveScore ≠ 0
  /-- While a forced node stays, only forced ones leave. -/
  forcedFirst : ∀ m ∈ missing present next, ∀ n ∈ present, n ∉ missing present next →
    n.forcedToLeave = true → m.forcedToLeave = true
  /-- While one that wants out stays, no other ones leave. -/
  wantingFirst : ∀ m ∈ missing present next, ∀ n ∈ present, n ∉ missing present next →
    n.forcedToLeave = true ∨ n.requestedToLeave = true →
      m.forcedToLeave = true ∨ m.requestedToLeave = true
  joinersReady : ∀ n ∈ next, n.address ∉ present.map (·.address) → t.Stores n ∧ n.status = .ready
  nodup : (next.map (·.address)).Nodup
  size : next.length ≤ max target (present.length - (missing present next).length)
  rotates_iff : rotates = true ↔
    ¬ ∀ a, a ∈ next.map (·.address) ↔ a ∈ present.map (·.address)

variable {s t : Ledger} {m n : Node} {target : Nat}

theorem nextSet_ok {x : List Node × Bool} (h : nextSet target s = (.ok x, t)) :
    ∃ ready present height last scored limit, Marking.readjustAll s = (.ok (), t) ∧
      Nodes.withStatus .ready t = .ok ready ∧ Nodes.active t = .ok present ∧
      present.mapM (rescored height last) t = .ok scored ∧
      let active := scored.mergeSort Churn.leavesBefore
      let count := Churn.countToRemove active
      let joining := (ready.mergeSort Churn.joinsBefore).take
        (min limit (target - (active.drop count).length))
      x = (active.drop count ++ joining, count != 0 || !joining.isEmpty) := by
  obtain ⟨_, u, hreadjusted, h⟩ := bind_eq_ok.1 h
  obtain ⟨ready, hready, h⟩ := read_bind_eq_ok.1 h
  obtain ⟨present, hpresent, h⟩ := read_bind_eq_ok.1 h
  obtain ⟨height, -, h⟩ := read_bind_eq_ok.1 h
  obtain ⟨last, -, h⟩ := read_bind_eq_ok.1 h
  obtain ⟨scored, u', hscored, hchosen⟩ := bind_eq_ok.1 h
  obtain ⟨hscored, rfl⟩ := mapM_read_ok hscored
  obtain ⟨least, -, hchosen⟩ := read_bind_eq_ok.1 hchosen
  obtain ⟨newPerChurn, -, hend⟩ := read_bind_eq_ok.1 hchosen
  obtain ⟨hx, rfl⟩ := outcome_eq.1 hend
  cases hx
  exact ⟨ready, present, height, last, scored, _, hreadjusted, hready, hpresent, hscored, rfl⟩

/-- Rescoring changes no class: a score stays positive, and none stays none. -/
theorem rescored_ok {height last : Height} (h : rescored height last n s = .ok m) :
    m.address = n.address ∧ (Churn.leaveRank m).1 = (Churn.leaveRank n).1 := by
  unfold rescored at h
  split at h
  · cases h
    exact ⟨rfl, rfl⟩
  · rename_i hmarked
    obtain ⟨slash, -, h⟩ := Query.bind_eq_ok.1 h
    obtain ⟨score, -, h⟩ := Query.bind_eq_ok.1 h
    cases h
    have hpositive : max score 1 ≠ 0 := by
      intro hzero
      have hval : max score.val 1 = 0 :=
        (Amount.val_max score 1).symm.trans (congrArg Amount.val hzero)
      omega
    refine ⟨rfl, ?_⟩
    unfold Churn.leaveRank
    grind

/-- The present nodes with their scores renewed, in the order of leaving. -/
structure Ranked (present active : List Node) : Prop where
  perm : (active.map (·.address)).Perm (present.map (·.address))
  nodup : (present.map (·.address)).Nodup
  sorted : active.Pairwise fun m n => (Churn.leaveRank m).1 ≤ (Churn.leaveRank n).1
  sameClass : ∀ m ∈ active, ∀ n ∈ present, m.address = n.address →
    (Churn.leaveRank m).1 = (Churn.leaveRank n).1

theorem ranked_of_rescored {present scored : List Node} {height last : Height}
    (hs : s.NodesComplete) (hactive : Nodes.active s = .ok present)
    (h : present.mapM (rescored height last) s = .ok scored) :
    Ranked present (scored.mergeSort Churn.leavesBefore) where
  perm := by
    rw [← Query.map_of_mapM (fun _ _ hread => (rescored_ok hread).1) h]
    exact (List.mergeSort_perm scored Churn.leavesBefore).map _
  nodup := Nodes.nodup_of_sorted (Nodes.withStatus_sorted hs hactive)
  sorted := Churn.sorted_by_class scored
  sameClass := by
    intro m hm n hn hsame
    obtain ⟨k, hk, hread⟩ := Query.mem_of_mapM h (List.mem_mergeSort.1 hm)
    obtain ⟨haddress, hclass⟩ := rescored_ok hread
    have hkstored := ((Nodes.mem_active hs hactive).1 hk).1
    rw [← haddress, hsame, ((Nodes.mem_active hs hactive).1 hn).1] at hkstored
    rw [hclass, Option.some.inj hkstored]

section

variable {present active joining : List Node} (hranked : Ranked present active)
  (hapart : ∀ j ∈ joining, j.address ∉ present.map (·.address))
include hranked hapart

/-- Who is missing is one of the first in the order of leaving. -/
theorem removed_of_missing {count : Nat}
    (hm : m ∈ missing present (active.drop count ++ joining)) :
    ∃ k ∈ active.take count, (Churn.leaveRank k).1 = (Churn.leaveRank m).1 := by
  obtain ⟨hpresent, haddress⟩ := (mem_missing hranked.perm hranked.nodup hapart).1 hm
  obtain ⟨k, hk, hsame⟩ := List.mem_map.1 haddress
  exact ⟨k, hk, hranked.sameClass k (List.mem_of_mem_take hk) m hpresent hsame⟩

/-- Who is present and not missing is one of the others. -/
theorem staying_of_present {count : Nat} (hpresent : n ∈ present)
    (hn : n ∉ missing present (active.drop count ++ joining)) :
    ∃ k ∈ active.drop count, (Churn.leaveRank k).1 = (Churn.leaveRank n).1 := by
  rw [mem_missing hranked.perm hranked.nodup hapart, not_and] at hn
  obtain ⟨k, hk, hsame⟩ := List.mem_map.1 (hranked.perm.mem_iff.2 (List.mem_map_of_mem hpresent))
  have hclass := hranked.sameClass k hk n hpresent hsame
  rw [← List.take_append_drop count active, List.mem_append] at hk
  refine ⟨k, hk.resolve_left fun htaken => ?_, hclass⟩
  exact hn hpresent (hsame ▸ List.mem_map_of_mem htaken)

theorem class_missing_le {count : Nat}
    (hm : m ∈ missing present (active.drop count ++ joining)) (hpresent : n ∈ present)
    (hn : n ∉ missing present (active.drop count ++ joining)) :
    (Churn.leaveRank m).1 ≤ (Churn.leaveRank n).1 := by
  obtain ⟨k, hk, hclass⟩ := removed_of_missing hranked hapart hm
  obtain ⟨l, hl, hclass'⟩ := staying_of_present hranked hapart hpresent hn
  rw [← hclass, ← hclass']
  exact Churn.class_removed_le hranked.sorted hk hl

theorem mayLeave_of_missing
    (hm : m ∈ missing present (active.drop (Churn.countToRemove active) ++ joining)) :
    Churn.mayLeave m = true := by
  obtain ⟨k, hk, hclass⟩ := removed_of_missing hranked hapart hm
  have hmay := Churn.mayLeave_of_removed hranked.sorted hk
  rw [← Churn.class_mayLeave] at hmay ⊢
  rwa [← hclass]

/-- The next set differs from the present one exactly if somebody leaves or joins. -/
theorem same_iff :
    (∀ a, a ∈ (active.drop (Churn.countToRemove active) ++ joining).map (·.address) ↔
      a ∈ present.map (·.address)) ↔ Churn.countToRemove active = 0 ∧ joining = [] := by
  constructor
  · intro hsame
    have hnone : missing present (active.drop (Churn.countToRemove active) ++ joining) = [] := by
      refine List.filter_eq_nil_iff.2 fun n hn hmissing => ?_
      exact of_decide_eq_true hmissing ((hsame n.address).2 (List.mem_map_of_mem hn))
    have hlength : (missing present _).length = (active.take (Churn.countToRemove active)).length :=
      length_missing hranked.perm hranked.nodup hapart
    rw [hnone, List.length_nil, List.length_take] at hlength
    have hthird := Churn.countToRemove_le_third active
    refine ⟨by omega, List.eq_nil_iff_forall_not_mem.2 fun j hj => hapart j hj ?_⟩
    exact (hsame j.address).1 (List.mem_map_of_mem (List.mem_append_right _ hj))
  · rintro ⟨hnone, rfl⟩ a
    rw [hnone, List.drop_zero, List.append_nil]
    exact hranked.perm.mem_iff

theorem selection_of_ranked (hready : ∀ j ∈ joining, t.Stores j ∧ j.status = .ready)
    (hdistinct : (joining.map (·.address)).Nodup)
    (hroom : joining.length ≤ target - (active.drop (Churn.countToRemove active)).length) :
    Selection target present (active.drop (Churn.countToRemove active) ++ joining)
      (Churn.countToRemove active != 0 || !joining.isEmpty) t := by
  have hmissing : (missing present _).length = (active.take (Churn.countToRemove active)).length :=
    length_missing hranked.perm hranked.nodup hapart
  have hlength : active.length = present.length := by
    simpa only [List.length_map] using hranked.perm.length_eq
  have hthird := Churn.countToRemove_le_third active
  rw [List.length_take] at hmissing
  constructor
  case few => omega
  case marked =>
    intro n hn
    have hmay := mayLeave_of_missing hranked hapart hn
    simpa [Churn.mayLeave, Churn.wantsOut, or_assoc] using hmay
  case forcedFirst =>
    intro m hm n hpresent hn hforced
    have hclass := class_missing_le hranked hapart hm hpresent hn
    rw [Churn.class_forced.2 hforced] at hclass
    exact Churn.class_forced.1 (Nat.le_zero.1 hclass)
  case wantingFirst =>
    intro m hm n hpresent hn hwants
    have hclass := class_missing_le hranked hapart hm hpresent hn
    have hfirst : (Churn.leaveRank n).1 ≤ 1 := by
      rw [Churn.class_wantsOut]
      simpa [Churn.wantsOut] using hwants
    simpa [Churn.wantsOut] using Churn.class_wantsOut.1 (Nat.le_trans hclass hfirst)
  case joinersReady =>
    intro n hn hnew
    rcases List.mem_append.1 hn with hstays | hjoins
    · refine absurd (hranked.perm.mem_iff.1 ?_) hnew
      exact List.mem_map_of_mem (List.mem_of_mem_drop hstays)
    · exact hready n hjoins
  case nodup =>
    have hstaying := (hranked.perm.nodup_iff.2 hranked.nodup).sublist
      ((List.drop_sublist (Churn.countToRemove active) active).map (·.address))
    rw [List.map_append]
    refine List.nodup_append.2 ⟨hstaying, hdistinct, ?_⟩
    rintro a ha _ hb rfl
    obtain ⟨j, hj, rfl⟩ := List.mem_map.1 hb
    refine hapart j hj (hranked.perm.mem_iff.1 ?_)
    exact ((List.drop_sublist _ active).map (·.address)).mem ha
  case size =>
    rw [List.length_append]
    rw [List.length_drop] at hroom ⊢
    omega
  case rotates_iff =>
    rw [same_iff hranked hapart]
    grind

end

/-- The next set is chosen so that at most a third of the present one leaves, in the order of the
classes, and only ready nodes join. -/
theorem nextSet_selection {present next : List Node} {rotates : Bool} (hs : s.NodesComplete)
    (hpresent : Nodes.active s = .ok present)
    (h : nextSet target s = (.ok (next, rotates), t)) :
    Selection target present next rotates t := by
  obtain ⟨ready, present', height, last, scored, limit, hreadjusted, hready, hactive, hscored,
    hx⟩ := nextSet_ok h
  have ht : Viewed .activeNode (fun a => NodeView.activeNode (s.nodeAt a)) t :=
    Marking.readjustAll_viewed NodeView.activeNode_ignoresMoves s _ t hs.viewed hreadjusted
  obtain rfl : present = present' :=
    Except.ok.inj (hpresent.symm.trans ((Nodes.active_congr hs ht).symm.trans hactive))
  have hcomplete : t.NodesComplete := ht.toNodesComplete
  have hranked := ranked_of_rescored hcomplete hactive hscored
  have hmem : ∀ {k : Nat}, ∀ j ∈ (ready.mergeSort Churn.joinsBefore).take k,
      t.Stores j ∧ j.status = .ready := fun j hj =>
    (Nodes.mem_withStatus hcomplete hready).1 (List.mem_mergeSort.1 (List.mem_of_mem_take hj))
  have hnodup : ((ready.mergeSort Churn.joinsBefore).map (·.address)).Nodup :=
    ((List.mergeSort_perm ready Churn.joinsBefore).map _).nodup_iff.2
      (Nodes.nodup_of_sorted (Nodes.withStatus_sorted hcomplete hready))
  cases hx
  refine selection_of_ranked hranked ?_ hmem (hnodup.sublist ((List.take_sublist _ _).map _)) ?_
  · intro j hj hactivated
    obtain ⟨hstored, hstatus⟩ := hmem j hj
    obtain ⟨n, hn, hsame⟩ := List.mem_map.1 hactivated
    obtain ⟨hnode, hnactive⟩ := (Nodes.mem_active hcomplete hactive).1 hn
    rw [hsame, hstored.nodeAt] at hnode
    cases hnode
    rw [Node.isActive_iff, hstatus] at hnactive
    cases hnactive
  · rw [List.length_take]
    omega

/-! ### Two of six nodes leave, and one joins -/

def councillors : List Node :=
  [{ Fixture.node "alva" .active 1 1 with forcedToLeave := true },
    { Fixture.node "bela" .active 1 1 with requestedToLeave := true },
    Fixture.node "cleo" .active 1 1, Fixture.node "dora" .active 1 1,
    Fixture.node "elin" .active 1 1, Fixture.node "fred" .active 1 1]

def candidate : Node := Fixture.node "gwen" .ready (.cap 0x10000000000) 1

def council : Ledger :=
  Ledger.ofNodes (.ofEnvironment .mocknet) (.clamp 100) (candidate :: councillors)

theorem council_complete : council.NodesComplete := nodesComplete_ofNodes (by decide)

theorem council_active : Nodes.active council = .ok councillors :=
  eq_ok_of_toOption (by decide +kernel)

/-- The forced node and the one that asked to leave are taken out. -/
theorem council_selection :
    ∃ joining t, nextSet 6 council = (.ok (councillors.drop 2 ++ joining, true), t) ∧
      Selection 6 councillors (councillors.drop 2 ++ joining) true t := by
  have hok : (nextSet 6 council).1.isOk = true := by decide +kernel
  rcases h : nextSet 6 council with ⟨e | ⟨next, rotates⟩, t⟩
  · rw [h] at hok
    cases hok
  have hselection := nextSet_selection council_complete council_active h
  obtain ⟨ready, present, height, last, scored, limit, hreadjusted, -, hactive, hscored, hx⟩ :=
    nextSet_ok h
  obtain rfl : present = councillors := by
    have hlisted : (Nodes.active (Marking.readjustAll council).2).toOption = some councillors := by
      decide +kernel
    rw [hreadjusted, hactive] at hlisted
    exact Option.some.inj hlisted
  -- None of them has a score to renew, and they are listed in the order of leaving.
  obtain rfl : councillors = scored := by
    cases hscored
    rfl
  have hsorted : councillors.mergeSort Churn.leavesBefore = councillors :=
    List.mergeSort_of_pairwise (by decide +kernel)
  have hcount : Churn.countToRemove councillors = 2 := by decide
  simp only [hsorted, hcount] at hx
  cases hx
  exact ⟨_, t, rfl, hselection⟩

end Rotation

end LiquidityNet
