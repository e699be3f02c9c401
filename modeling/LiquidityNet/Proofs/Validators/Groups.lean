import LiquidityNet.Fixture
import LiquidityNet.Validators.Churn
import Mathlib.Algebra.Order.Floor.Div

/-!
# The groups of a split

The nodes of the next set are dealt to the groups in turn, the largest bonds first. Group `i` of
`count` thus gets the nodes at the positions `i`, `count + i`, `2 * count + i` and so on, and all
about the sizes of the groups and their order can be told from these positions.
-/

namespace LiquidityNet.Churn

variable {nodes : List Node} {groups : List (List Node)} {size count i j k : Nat}

/-! ## Dealing in turn -/

/-- The next node goes to the group whose turn it is. -/
theorem group_append_singleton (nodes : List Node) (n : Node) (count i : Nat) :
    group (nodes ++ [n]) count i =
      if nodes.length % count = i then group nodes count i ++ [n] else group nodes count i := by
  unfold group
  rw [List.zipIdx_append, List.filter_append, List.map_append]
  by_cases hturn : nodes.length % count = i <;> simp [hturn]

/-- A list whose entries stand at some positions of another one is as long as there are such
positions. -/
theorem lt_length_iff {xs ys : List Node} {p : Nat → Nat} (h : ∀ j, xs[j]? = ys[p j]?) :
    j < xs.length ↔ p j < ys.length := by
  rw [← not_le, ← List.getElem?_eq_none_iff, h, List.getElem?_eq_none_iff, not_le]

/-- A group has every `count`-th node. -/
theorem getElem?_group (hi : i < count) (nodes : List Node) (j : Nat) :
    (group nodes count i)[j]? = nodes[j * count + i]? := by
  have hcount : 0 < count := Nat.zero_lt_of_lt hi
  induction nodes using List.reverseRecOn generalizing j with
  | nil => simp [group]
  | append_singleton nodes n ih =>
    rw [group_append_singleton]
    by_cases hturn : nodes.length % count = i
    · -- The group got one node in each of the full rounds before.
      obtain ⟨rounds, hrounds⟩ : ∃ rounds, nodes.length = rounds * count + i :=
        ⟨nodes.length / count, by rw [← hturn, Nat.div_add_mod']⟩
      have hlength : (group nodes count i).length = rounds := by
        apply eq_of_forall_lt_iff
        intro j
        rw [lt_length_iff ih, hrounds, Nat.add_lt_add_iff_right, Nat.mul_lt_mul_right hcount]
      rw [if_pos hturn]
      rcases Nat.lt_trichotomy j rounds with hlt | rfl | hgt
      · have hpos : j * count < rounds * count := Nat.mul_lt_mul_of_pos_right hlt hcount
        rw [List.getElem?_append_left (by omega), ih, List.getElem?_append_left (by omega)]
      · rw [← hlength, List.getElem?_concat_length, hlength, ← hrounds,
          List.getElem?_concat_length]
      · have hpos : rounds * count < j * count := Nat.mul_lt_mul_of_pos_right hgt hcount
        rw [List.getElem?_eq_none, List.getElem?_eq_none] <;>
          rw [List.length_append, List.length_singleton] <;> omega
    · have hother : j * count + i ≠ nodes.length := by
        intro h
        apply hturn
        rw [← h, Nat.mul_add_mod', Nat.mod_eq_of_lt hi]
      rw [if_neg hturn, ih]
      rcases Nat.lt_or_gt_of_ne hother with hlt | hgt
      · rw [List.getElem?_append_left hlt]
      · rw [List.getElem?_eq_none (Nat.le_of_lt hgt), List.getElem?_eq_none]
        rw [List.length_append, List.length_singleton]
        omega

theorem lt_length_group (hi : i < count) (nodes : List Node) (j : Nat) :
    j < (group nodes count i).length ↔ j * count + i < nodes.length :=
  lt_length_iff (getElem?_group hi nodes)

/-! ## Sizes -/

section

variable (hi : i < count) (hj : j < count)
include hi

theorem rounds_le_length_group : nodes.length / count ≤ (group nodes count i).length := by
  by_contra hless
  have hmissing := (lt_length_group hi nodes _).not.1 (Nat.lt_irrefl _)
  have hround := Nat.mul_le_mul_right count (Nat.succ_le_of_lt (Nat.lt_of_not_le hless))
  have hdiv := Nat.div_mul_le_self nodes.length count
  rw [Nat.succ_mul] at hround
  omega

/-- No group has more than `size` nodes if there are enough groups. -/
theorem length_group_le (hsize : nodes.length ≤ size * count) :
    (group nodes count i).length ≤ size := by
  by_contra hmore
  have hpresent := (lt_length_group hi nodes _).1 (Nat.lt_of_not_le hmore)
  omega

include hj in
/-- Any two groups differ in size by one at most. -/
theorem length_group_le_succ :
    (group nodes count i).length ≤ (group nodes count j).length + 1 := by
  by_contra hmore
  have hpresent := (lt_length_group hi nodes _).1 (Nat.lt_of_not_le hmore)
  have hmissing := (lt_length_group hj nodes _).not.1 (Nat.lt_irrefl _)
  rw [Nat.succ_mul] at hpresent
  omega

end

/-- The last group goes short. -/
theorem length_last_group (hcount : 0 < count) :
    (group nodes count (count - 1)).length = nodes.length / count := by
  apply Nat.le_antisymm
  · by_contra hmore
    have hpresent := (lt_length_group (Nat.sub_one_lt_of_lt hcount) nodes _).1
      (Nat.lt_of_not_le hmore)
    have hdiv : nodes.length < nodes.length / count * count + count := Nat.lt_div_mul_add hcount
    omega
  · exact rounds_le_length_group (Nat.sub_one_lt_of_lt hcount)

/-! ## Contents -/

/-- The classes of a list by a number, one after the other, have what the list has. -/
theorem classes_perm {α : Type} (key : α → Nat) (xs : List α) (count : Nat) :
    ((List.range count).map fun i => xs.filter fun x => key x = i).flatten.Perm
      (xs.filter fun x => key x < count) := by
  induction count with
  | zero => simp
  | succ count ih =>
    rw [List.range_succ, List.map_append, List.flatten_append]
    have hlower : (xs.filter fun x => key x < count + 1).filter (fun x => key x < count) =
        xs.filter fun x => key x < count := by
      rw [List.filter_filter]
      apply List.filter_congr
      grind
    have hclass : (xs.filter fun x => key x < count + 1).filter (fun x => !key x < count) =
        xs.filter fun x => key x = count := by
      rw [List.filter_filter]
      apply List.filter_congr
      grind
    have hparts := List.filter_append_perm (fun x => decide (key x < count))
      (xs.filter fun x => key x < count + 1)
    rw [hlower, hclass] at hparts
    simpa using (ih.append_right _).trans hparts

/-- Every node is dealt once. -/
theorem flatten_deal_perm (hcount : 0 < count) (nodes : List Node) :
    (deal nodes count).flatten.Perm nodes := by
  have hclasses := (classes_perm (fun x => x.2 % count) nodes.zipIdx count).map Prod.fst
  have hall : nodes.zipIdx.filter (fun x => x.2 % count < count) = nodes.zipIdx := by
    apply List.filter_eq_self.2
    simp [Nat.mod_lt _ hcount]
  rw [hall, List.zipIdx_map_fst, List.map_flatten, List.map_map] at hclasses
  exact hclasses

theorem mem_deal {g : List Node} : g ∈ deal nodes count ↔ ∃ i < count, group nodes count i = g := by
  simp [deal]

/-- With enough rounds for pairs and enough groups for all, every group has a fit size. -/
theorem length_of_mem_deal {g : List Node} (hg : g ∈ deal nodes count)
    (hroom : nodes.length ≤ size * count) (hpairs : 2 ≤ nodes.length / count) :
    g.length ≤ size ∧ 2 ≤ g.length := by
  obtain ⟨i, hi, rfl⟩ := mem_deal.1 hg
  exact ⟨length_group_le hi hroom, Nat.le_trans hpairs (rounds_le_length_group hi)⟩

theorem length_le_succ_of_mem_deal {g h : List Node} (hg : g ∈ deal nodes count)
    (hh : h ∈ deal nodes count) : g.length ≤ h.length + 1 := by
  obtain ⟨i, hi, rfl⟩ := mem_deal.1 hg
  obtain ⟨j, hj, rfl⟩ := mem_deal.1 hh
  exact length_group_le_succ hi hj

/-! ## Order -/

/-- The `i`-th member of the `j`-th group. -/
def memberAt (groups : List (List Node)) (j i : Nat) : Option Node :=
  groups[j]?.bind fun g => g[i]?

theorem memberAt_deal (hj : j < count) : memberAt (deal nodes count) j i = nodes[i * count + j]? := by
  simp [memberAt, deal, hj, getElem?_group]

theorem lt_of_memberAt_deal {n : Node} (h : memberAt (deal nodes count) j i = some n) :
    j < count := by
  by_contra hj
  simp [memberAt, deal, hj] at h

/-- In which order nodes are dealt is the order of their places: by members first, then by
groups. -/
theorem bond_le_of_dealt {m n : Node} {i' : Nat}
    (hsorted : nodes.Pairwise fun m n => n.bond ≤ m.bond)
    (hm : memberAt (deal nodes count) j i = some m)
    (hn : memberAt (deal nodes count) k i' = some n)
    (hlater : i < i' ∨ i = i' ∧ j < k) : n.bond ≤ m.bond := by
  have hj := lt_of_memberAt_deal hm
  have hk := lt_of_memberAt_deal hn
  rw [memberAt_deal hj] at hm
  rw [memberAt_deal hk] at hn
  have hpositions : i * count + j < i' * count + k := by
    rcases hlater with hlt | ⟨rfl, hlt⟩
    · have hround := Nat.mul_le_mul_right count (Nat.succ_le_of_lt hlt)
      rw [Nat.succ_mul] at hround
      omega
    · omega
  obtain ⟨hi, rfl⟩ := List.getElem?_eq_some_iff.1 hm
  obtain ⟨hi', rfl⟩ := List.getElem?_eq_some_iff.1 hn
  exact List.pairwise_iff_getElem.1 hsorted _ _ hi hi' hpositions

theorem bonds_descend (nodes : List Node) :
    (nodes.mergeSort fun m n => decide (n.bond ≤ m.bond)).Pairwise fun m n => n.bond ≤ m.bond := by
  refine (List.pairwise_mergeSort ?_ ?_ nodes).imp of_decide_eq_true
  · intro k m n hkm hmn
    simp only [decide_eq_true_iff, Amount.le_def] at *
    exact Nat.le_trans hmn hkm
  · intro m n
    simp only [Bool.or_eq_true, decide_eq_true_iff, Amount.le_def]
    exact Nat.le_total n.bond.val m.bond.val

/-! ## Splits -/

theorem areEven_of_even (heven : ∀ g ∈ groups, ∀ h ∈ groups, g.length ≤ h.length + 1) :
    areEven groups = true := by
  fun_induction areEven groups with
  | case1 g h rest ih =>
    simp only [Bool.and_eq_true, decide_eq_true_iff]
    refine ⟨⟨heven g (by simp) h (by simp), heven h (by simp) g (by simp)⟩, ?_⟩
    apply ih
    intro x hx y hy
    exact heven x (List.mem_cons_of_mem g hx) y (List.mem_cons_of_mem g hy)
  | case2 => rfl

/-- The groups have all nodes, near-equal sizes, and the larger bonds in the earlier places. -/
structure Partition (nodes : List Node) (size count : Nat) (groups : List (List Node)) : Prop where
  length : groups.length = count
  perm : groups.flatten.Perm nodes
  bounds : ∀ g ∈ groups, 2 ≤ g.length ∧ g.length ≤ size
  even : ∀ g ∈ groups, ∀ h ∈ groups, g.length ≤ h.length + 1
  /-- Among the `i`-th members of all groups, those of earlier groups have the larger bonds. -/
  acrossGroups : ∀ i j k m n, j < k → memberAt groups j i = some m → memberAt groups k i = some n →
    n.bond ≤ m.bond
  /-- No group's next member has a larger bond than the `i`-th member of any group. -/
  downMembers : ∀ i j k m n, memberAt groups j i = some m → memberAt groups k (i + 1) = some n →
    n.bond ≤ m.bond

theorem partition_deal {sorted : List Node} (hperm : sorted.Perm nodes)
    (hsorted : sorted.Pairwise fun m n => n.bond ≤ m.bond)
    (hroom : nodes.length ≤ size * count) (hpairs : 2 ≤ nodes.length / count) :
    Partition nodes size count (deal sorted count) where
  length := by simp [deal]
  perm := by
    refine (flatten_deal_perm ?_ sorted).trans hperm
    rcases Nat.eq_zero_or_pos count with rfl | hcount
    · simp at hpairs
    · exact hcount
  bounds := by
    intro g hg
    rw [← hperm.length_eq] at hroom hpairs
    exact (length_of_mem_deal hg hroom hpairs).symm
  even := fun g hg h hh => length_le_succ_of_mem_deal hg hh
  acrossGroups := by
    intro i j k m n hjk hm hn
    exact bond_le_of_dealt hsorted hm hn (.inr ⟨rfl, hjk⟩)
  downMembers := by
    intro i j k m n hm hn
    exact bond_le_of_dealt hsorted hm hn (.inl (Nat.lt_succ_self i))

/-- Of the three things that groups are checked for, only a lack of members can occur. -/
theorem fits_iff (hroom : nodes.length ≤ size * count) (hcount : 0 < count) :
    ((deal nodes count).all (fun g => g.length ≤ size && 2 ≤ g.length) &&
      areEven (deal nodes count)) = true ↔ 2 ≤ nodes.length / count := by
  simp only [Bool.and_eq_true, List.all_eq_true, decide_eq_true_iff]
  constructor
  · rintro ⟨hall, -⟩
    have hlast := hall _ (mem_deal.2 ⟨count - 1, Nat.sub_one_lt_of_lt hcount, rfl⟩)
    rw [length_last_group hcount] at hlast
    exact hlast.2
  · intro hpairs
    constructor
    · exact fun g hg => length_of_mem_deal hg hroom hpairs
    · exact areEven_of_even fun g hg h hh => length_le_succ_of_mem_deal hg hh

theorem length_le_mul_ceilDiv (nodes : List Node) (size : Nat) :
    nodes.length ≤ max size 1 * (nodes.length ⌈/⌉ max size 1) :=
  le_smul_ceilDiv (Nat.lt_of_lt_of_le Nat.one_pos (Nat.le_max_right size 1))

theorem split_eq (nodes : List Node) (size : Nat) :
    split nodes size =
      if 2 ≤ nodes.length / (nodes.length ⌈/⌉ max size 1) then
        deal (nodes.mergeSort fun a b => decide (b.bond ≤ a.bond)) (nodes.length ⌈/⌉ max size 1)
      else [] := by
  have hroom := length_le_mul_ceilDiv nodes size
  simp only [split, ← Nat.ceilDiv_eq_add_pred_div]
  rcases Nat.eq_zero_or_pos (nodes.length ⌈/⌉ max size 1) with hnone | hcount
  · simp [hnone, deal]
  · have hlength := (List.mergeSort_perm nodes fun a b => decide (b.bond ≤ a.bond)).length_eq
    rw [← hlength] at hroom hcount ⊢
    simp only [fits_iff hroom hcount]

/-- The next set is split into as many groups as it takes, or not at all if one of them would have
a single node. -/
theorem split_partitions (nodes : List Node) (size : Nat) :
    (split nodes size = [] ↔
      nodes.length = 0 ∨ nodes.length / (nodes.length ⌈/⌉ max size 1) < 2) ∧
    (split nodes size ≠ [] →
      Partition nodes (max size 1) (nodes.length ⌈/⌉ max size 1) (split nodes size)) := by
  have hperm := List.mergeSort_perm nodes fun a b => decide (b.bond ≤ a.bond)
  rw [split_eq]
  split
  · rename_i hpairs
    have hpartition := partition_deal hperm (bonds_descend nodes)
      (length_le_mul_ceilDiv nodes size) hpairs
    refine ⟨⟨fun hnone => ?_, fun hsmall => ?_⟩, fun _ => hpartition⟩
    · have hcount := hpartition.length
      rw [hnone, List.length_nil] at hcount
      simp [← hcount] at hpairs
    · rcases hsmall with hempty | hsmall
      · simp [hempty] at hpairs
      · exact absurd hpairs (Nat.not_le_of_lt hsmall)
  · rename_i hsmall
    simp [Nat.lt_of_not_le hsmall]

/-- Thirteen nodes make three groups, with the larger bonds in front. -/
example : (split ((List.range 13).map fun i => Fixture.node "" .ready (.cap i) 1) 6).map
    (·.map (·.bond.val)) = [[12, 9, 6, 3, 0], [11, 8, 5, 2], [10, 7, 4, 1]] := by
  cbv

end LiquidityNet.Churn
