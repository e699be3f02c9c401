import LiquidityNet.Bond.Withdrawal
import LiquidityNet.Proofs.Share.Rounding

/-!
# The bonds of providers

What the operations on a node's providers do to their addresses and to the sum of their bonds. A
list that was brought in line with the node's bond sums up to it exactly: what rounding takes from
the shares goes to the operator.
-/

namespace LiquidityNet

theorem except_bind_eq_ok {ε α β : Type} {x : Except ε α} {f : α → Except ε β} {b : β} :
    x >>= f = .ok b ↔ ∃ a, x = .ok a ∧ f a = .ok b := by
  rcases x with e | a <;> simp [bind, Except.bind]

namespace Amount

theorem foldlM_add {xs : List Amount} {a b : Amount} (h : xs.foldlM add a = .ok b) :
    b.val = a.val + total xs := by
  induction xs generalizing a with
  | nil =>
    cases h
    rfl
  | cons x xs ih =>
    obtain ⟨c, hc, h⟩ := except_bind_eq_ok.1 h
    have hsum := add_eq_ok_iff.1 hc
    rw [ih h, total_cons]
    omega

theorem sum_eq_ok {xs : List Amount} {b : Amount} (h : sum xs = .ok b) : b.val = total xs := by
  have hsum := foldlM_add h
  rwa [val_zero, Nat.zero_add] at hsum

theorem total_append (xs ys : List Amount) : total (xs ++ ys) = total xs + total ys := by
  induction xs with
  | nil => exact (Nat.zero_add (total ys)).symm
  | cons x xs ih => rw [List.cons_append, total_cons, total_cons, ih, Nat.add_assoc]

theorem le_total {x : Amount} {xs : List Amount} (h : x ∈ xs) : x.val ≤ total xs := by
  induction xs with
  | nil => cases h
  | cons y ys ih =>
    rw [total_cons]
    rcases List.mem_cons.1 h with rfl | h
    · exact Nat.le_add_right _ _
    · exact Nat.le_trans (ih h) (Nat.le_add_left _ _)

theorem total_filter_le {α : Type} (f : α → Amount) (p : α → Bool) (xs : List α) :
    total ((xs.filter p).map f) ≤ total (xs.map f) := by
  induction xs with
  | nil => exact Nat.le_refl _
  | cons x xs ih =>
    rw [List.filter_cons]
    split <;> simp only [List.map_cons, total_cons] <;> omega

theorem total_perm {xs ys : List Amount} (h : xs.Perm ys) : total xs = total ys := by
  induction h with
  | nil => rfl
  | cons x _ ih => rw [total_cons, total_cons, ih]
  | swap x y xs =>
    simp only [total_cons]
    omega
  | trans _ _ hxs hys => exact hxs.trans hys

theorem foldlM_add_ok {xs : List Amount} {a : Amount}
    (h : a.val + total xs < 0x10000000000000000) : ∃ b, xs.foldlM add a = .ok b := by
  induction xs generalizing a with
  | nil => exact ⟨a, rfl⟩
  | cons x xs ih =>
    rw [total_cons] at h
    have hsum : a.add x = .ok ⟨a.val + x.val, by omega⟩ := add_eq_ok_iff.2 rfl
    obtain ⟨b, hb⟩ := ih (a := ⟨a.val + x.val, by omega⟩) (by rwa [Nat.add_assoc])
    exact ⟨b, except_bind_eq_ok.2 ⟨_, hsum, hb⟩⟩

/-- A sum that is an amount meets no fault. -/
theorem sum_ok {xs : List Amount} (h : total xs < 0x10000000000000000) : ∃ b, sum xs = .ok b :=
  foldlM_add_ok (by rwa [val_zero, Nat.zero_add])

end Amount

namespace Providers

def addresses (ps : Providers) : List Address := ps.list.map (·.address)

def bonds (ps : Providers) : Nat := Amount.total (ps.list.map (·.bond))

/-- The operator stands first, and no address stands twice. -/
structure LedBy (ps : Providers) (operator : Address) : Prop where
  first : ps.addresses.head? = some operator
  distinct : ps.addresses.Nodup

/-- The providers put up the bond of a node. -/
structure Backs (ps : Providers) (n : Node) : Prop extends ps.LedBy n.operator where
  whole : ps.bonds = n.bond.val

variable {ps qs : Providers} {operator : Address}

theorem LedBy.of_addresses (h : ps.LedBy operator) (hqs : qs.addresses = ps.addresses) :
    qs.LedBy operator :=
  ⟨hqs ▸ h.first, hqs ▸ h.distinct⟩

/-! ## Alignment -/

theorem dealt_cons {total whole left rest : Amount} {p : Provider} {ps qs : List Provider}
    (h : dealt total whole left (p :: ps) = .ok (qs, rest)) :
    ∃ share left' ps', share = min (Share.within p.bond total whole) left ∧
      share.val + left'.val = left.val ∧ dealt total whole left' ps = .ok (ps', rest) ∧
        qs = { p with bond := share } :: ps' := by
  obtain ⟨left', hleft, h⟩ := except_bind_eq_ok.1 h
  obtain ⟨⟨ps', rest'⟩, hps, h⟩ := except_bind_eq_ok.1 h
  cases h
  exact ⟨_, left', ps', rfl, Amount.sub_eq_ok_iff.1 hleft, hps, rfl⟩

/-- What is handed out and what remains is what there was. -/
theorem dealt_spec {total whole left rest : Amount} {ps qs : List Provider}
    (h : dealt total whole left ps = .ok (qs, rest)) :
    qs.map (·.address) = ps.map (·.address) ∧
      Amount.total (qs.map (·.bond)) + rest.val = left.val := by
  induction ps generalizing left qs with
  | nil =>
    cases h
    exact ⟨rfl, Nat.zero_add _⟩
  | cons p ps ih =>
    obtain ⟨share, left', ps', -, hshare, hps, rfl⟩ := dealt_cons h
    obtain ⟨haddresses, htotal⟩ := ih hps
    refine ⟨congrArg (p.address :: ·) haddresses, ?_⟩
    simp only [List.map_cons, Amount.total_cons]
    omega

/-- The fee is taken from what the bond gained. -/
theorem feeOnGain_le {total nodeBond fee : Amount} (h : ps.feeOnGain total nodeBond = .ok fee) :
    fee.val ≤ nodeBond.val - total.val := by
  unfold feeOnGain at h
  split at h
  · obtain ⟨gain, hgain, h⟩ := except_bind_eq_ok.1 h
    cases h
    have hfee : _ ≤ gain.val := Share.within_le ps.operatorFee basisPoints gain
    have hsum := Amount.sub_eq_ok_iff.1 hgain
    omega
  · cases h
    exact Nat.zero_le _

/-- An alignment finds the bonds in line already, or hands out anew what the fee leaves. -/
theorem aligned_cons {p : Provider} {others : List Provider} {nodeBond : Amount}
    (hlist : ps.list = p :: others) (h : ps.aligned nodeBond = .ok qs) :
    ∃ total, ps.total = .ok total ∧ (total = nodeBond ∧ qs = ps ∨
      ∃ fee others' left bond, ps.feeOnGain total nodeBond = .ok fee ∧
        dealt total (nodeBond.minus fee) (nodeBond.minus fee) others = .ok (others', left) ∧
          left.add fee = .ok bond ∧
            qs = { ps with list := { p with bond := bond } :: others' }) := by
  obtain ⟨node, operatorFee, list⟩ := ps
  obtain rfl : list = p :: others := hlist
  obtain ⟨total, htotal, h⟩ := except_bind_eq_ok.1 h
  refine ⟨total, htotal, ?_⟩
  split at h
  · rename_i heq
    cases h
    exact .inl ⟨heq, rfl⟩
  · obtain ⟨fee, hfee, h⟩ := except_bind_eq_ok.1 h
    obtain ⟨⟨others', left⟩, hdealt, h⟩ := except_bind_eq_ok.1 h
    obtain ⟨bond, hbond, h⟩ := except_bind_eq_ok.1 h
    cases h
    exact .inr ⟨fee, others', left, bond, hfee, hdealt, hbond, rfl⟩

/-- Alignment changes no address, and makes the bonds of a list that is not empty sum up to the
node's bond. -/
theorem aligned_spec {nodeBond : Amount} (h : ps.aligned nodeBond = .ok qs) :
    qs.node = ps.node ∧ qs.addresses = ps.addresses ∧
      (ps.list ≠ [] → qs.bonds = nodeBond.val) := by
  cases hlist : ps.list with
  | nil =>
    rw [aligned, hlist] at h
    cases h
    exact ⟨rfl, rfl, fun hne => absurd rfl hne⟩
  | cons p others =>
    obtain ⟨total, htotal, ⟨rfl, rfl⟩ | ⟨fee, others', left, bond, hfee, hdealt, hbond, rfl⟩⟩ :=
      aligned_cons hlist h
    · exact ⟨rfl, rfl, fun _ => (Amount.sum_eq_ok htotal).symm⟩
    · obtain ⟨haddresses, hleft⟩ := dealt_spec hdealt
      refine ⟨rfl, ?_, fun _ => ?_⟩
      · rw [addresses, addresses, hlist, List.map_cons, List.map_cons, haddresses]
      · have hsum := Amount.add_eq_ok_iff.1 hbond
        have hle := feeOnGain_le hfee
        simp only [bonds, List.map_cons, Amount.total_cons, Amount.val_minus] at hleft ⊢
        omega

theorem LedBy.aligned {n : Node} (h : ps.LedBy n.operator) (hqs : ps.aligned n.bond = .ok qs) :
    qs.Backs n := by
  obtain ⟨-, haddresses, hwhole⟩ := aligned_spec hqs
  refine ⟨h.of_addresses haddresses, hwhole fun hnil => ?_⟩
  have hfirst := h.first
  rw [addresses, hnil] at hfirst
  cases hfirst

/-! ## Single bonds -/

theorem updateFirst_addresses (a : Address) (f : Amount → Amount) (ps : List Provider) :
    (updateFirst a f ps).map (·.address) = ps.map (·.address) := by
  induction ps with
  | nil => rfl
  | cons p ps ih =>
    unfold updateFirst
    split
    · rfl
    · exact congrArg (p.address :: ·) ih

theorem updateFirst_total {a : Address} {f : Amount → Amount} {ps : List Provider} {p : Provider}
    (h : ps.find? (·.address == a) = some p) :
    Amount.total ((updateFirst a f ps).map (·.bond)) + p.bond.val =
      Amount.total (ps.map (·.bond)) + (f p.bond).val := by
  induction ps with
  | nil => cases h
  | cons q ps ih =>
    unfold updateFirst
    by_cases hq : q.address = a
    · rw [List.find?_cons_of_pos (by simpa using hq)] at h
      cases h
      rw [if_pos hq]
      simp only [List.map_cons, Amount.total_cons]
      omega
    · rw [List.find?_cons_of_neg (by simpa using hq)] at h
      rw [if_neg hq]
      simp only [List.map_cons, Amount.total_cons]
      have htail := ih h
      omega

theorem updateFirst_of_none {a : Address} {f : Amount → Amount} {ps : List Provider}
    (h : ps.find? (·.address == a) = none) : updateFirst a f ps = ps := by
  induction ps with
  | nil => rfl
  | cons q ps ih =>
    by_cases hq : q.address = a
    · rw [List.find?_cons_of_pos (by simpa using hq)] at h
      cases h
    · rw [List.find?_cons_of_neg (by simpa using hq)] at h
      rw [updateFirst, if_neg hq, ih h]

theorem deposit_addresses (amount : Amount) (a : Address) :
    (ps.deposit amount a).addresses = ps.addresses :=
  updateFirst_addresses a _ ps.list

theorem withdraw_addresses (amount : Amount) (a : Address) :
    (ps.withdraw amount a).addresses = ps.addresses :=
  updateFirst_addresses a _ ps.list

theorem bond_le_total {p : Provider} {ps : List Provider} (h : p ∈ ps) :
    p.bond.val ≤ Amount.total (ps.map (·.bond)) :=
  Amount.le_total (List.mem_map_of_mem h)

theorem bondOf_le (ps : Providers) (a : Address) : (ps.bondOf a).val ≤ ps.bonds := by
  unfold bondOf
  split
  · rename_i p hp
    exact bond_le_total (List.mem_of_find?_eq_some hp)
  · exact Nat.zero_le _

/-- A deposit for a provider in the list adds to the sum, as long as the sum is an amount. -/
theorem deposit_bonds {amount : Amount} {a : Address} (h : ps.has a = true)
    (hfit : ps.bonds + amount.val < 0x10000000000000000) :
    (ps.deposit amount a).bonds = ps.bonds + amount.val := by
  obtain ⟨p, hp⟩ := Option.isSome_iff_exists.1 h
  have hsum := updateFirst_total (f := (·.plus amount)) hp
  have hle : p.bond.val ≤ ps.bonds := bond_le_total (List.mem_of_find?_eq_some hp)
  simp only [Amount.val_plus] at hsum
  unfold bonds deposit at *
  simp only at *
  omega

theorem withdraw_bonds {amount : Amount} {a : Address} (h : amount ≤ ps.bondOf a) :
    (ps.withdraw amount a).bonds + amount.val = ps.bonds := by
  have hle : amount.val ≤ (ps.bondOf a).val := h
  unfold bondOf at hle
  unfold bonds withdraw
  split at hle
  · rename_i p hp
    have hsum := updateFirst_total (f := (·.minus amount)) hp
    simp only [Amount.val_minus] at hsum ⊢
    omega
  · rename_i hnone
    rw [updateFirst_of_none hnone]
    have hzero : amount.val ≤ 0 := hle
    simp only
    omega

/-! ## Admission and removal -/

theorem has_iff {a : Address} : ps.has a = true ↔ a ∈ ps.addresses := by
  simp [has, find?, addresses]

theorem admitted_bonds (a : Address) : (ps.admitted a).bonds = ps.bonds := by
  unfold admitted
  split
  · rfl
  · simp [bonds, Amount.total_append]

theorem LedBy.admitted (h : ps.LedBy operator) (a : Address) : (ps.admitted a).LedBy operator := by
  unfold Providers.admitted
  split
  · exact h
  · rename_i hnew
    have haddresses : addresses { ps with list := ps.list ++ [⟨a, 0⟩] } = ps.addresses ++ [a] :=
      List.map_append
    constructor
    · rw [haddresses, List.head?_append, h.first]
      rfl
    · rw [haddresses]
      refine List.nodup_append.2 ⟨h.distinct, List.pairwise_singleton _ a, ?_⟩
      intro b hb c hc hbc
      rw [List.mem_singleton.1 hc] at hbc
      exact hnew (has_iff.2 (hbc ▸ hb))

theorem has_of_addresses {a : Address} (h : qs.addresses = ps.addresses) : qs.has a = ps.has a := by
  rw [Bool.eq_iff_iff, has_iff, has_iff, h]

theorem has_admitted {a : Address} (b : Address) (h : ps.has a = true) :
    (ps.admitted b).has a = true := by
  unfold admitted
  split
  · exact h
  · rw [has_iff, addresses, List.map_append]
    exact List.mem_append_left _ (has_iff.1 h)

theorem LedBy.has_operator (h : ps.LedBy operator) : ps.has operator = true :=
  has_iff.2 (List.mem_of_head? h.first)

/-- Removal takes one entry without bond out of the list, behind the operator. -/
theorem remove?_split {a : Address} (h : ps.remove? a = some qs) :
    ∃ first before p after, ps.list = first :: before ++ p :: after ∧
      qs.list = first :: before ++ after ∧ qs.node = ps.node ∧ p.address = a ∧ p.bond = 0 := by
  obtain ⟨node, operatorFee, list⟩ := ps
  cases list with
  | nil => cases h
  | cons first others =>
    unfold remove? at h
    simp only at h
    split at h
    · rename_i hany
      cases h
      obtain ⟨p, hp, hremovable⟩ := List.any_eq_true.1 hany
      obtain ⟨q, before, after, -, hq, hsplit, herased⟩ := List.exists_of_eraseP hp hremovable
      obtain ⟨haddress, hbond⟩ := Bool.and_eq_true_iff.1 hq
      exact ⟨first, before, q, after, congrArg (first :: ·) hsplit, congrArg (first :: ·) herased,
        rfl, beq_iff_eq.1 haddress, beq_iff_eq.1 hbond⟩
    · cases h

theorem remove?_spec {a : Address} (h : ps.remove? a = some qs) :
    qs.node = ps.node ∧ qs.bonds = ps.bonds ∧ qs.addresses.head? = ps.addresses.head? ∧
      qs.addresses.Sublist ps.addresses := by
  obtain ⟨first, before, p, after, hps, hqs, hnode, -, hbond⟩ := remove?_split h
  unfold bonds addresses
  rw [hps, hqs]
  refine ⟨hnode, ?_, rfl, ?_⟩
  · simp [Amount.total_append, hbond]
  · exact ((List.sublist_cons_self p after).append_left _).map _

theorem Backs.removed {n : Node} {a : Address} (h : ps.Backs n) (hqs : ps.remove? a = some qs) :
    qs.Backs n := by
  obtain ⟨-, hbonds, hhead, hsublist⟩ := remove?_spec hqs
  exact ⟨⟨hhead.trans h.first, h.distinct.sublist hsublist⟩, hbonds.trans h.whole⟩

/-! ## Deposits and withdrawals -/

theorem Backs.withdrawn {n : Node} {amount rest : Amount} {a : Address} (h : ps.Backs n)
    (hamount : amount ≤ ps.bondOf a) (hrest : n.bond.sub amount = .ok rest) :
    (ps.withdraw amount a).Backs { n with bond := rest } := by
  have hbonds := withdraw_bonds hamount
  have hsub := Amount.sub_eq_ok_iff.1 hrest
  have hwhole := h.whole
  refine ⟨h.of_addresses (withdraw_addresses amount a), ?_⟩
  show _ = rest.val
  omega

theorem Backs.deposited {n : Node} {amount : Amount} {a : Address} (h : ps.Backs n)
    (ha : ps.has a = true) (hfit : n.bond.val + amount.val < 0x10000000000000000) :
    (ps.deposit amount a).Backs { n with bond := n.bond.plus amount } := by
  have hwhole := h.whole
  refine ⟨h.of_addresses (deposit_addresses amount a), ?_⟩
  show _ = (n.bond.plus amount).val
  rw [deposit_bonds ha (by omega), Amount.val_plus]
  omega

theorem Backs.admitted {n : Node} (h : ps.Backs n) (a : Address) : (ps.admitted a).Backs n :=
  ⟨h.toLedBy.admitted a, (admitted_bonds a).trans h.whole⟩

end Providers

namespace Bond

variable {ps : Providers} {n : Node}

theorem afterAdmission_node (m : BondRequest) (operator : Address) (ps : Providers) :
    (afterAdmission m operator ps).node = ps.node := by
  unfold afterAdmission Providers.admitted
  grind

theorem afterAdmission_backs {m : BondRequest} (h : ps.Backs n) (ha : ps.has m.bondAddress = true) :
    (afterAdmission m n.operator ps).Backs n ∧
      (afterAdmission m n.operator ps).has m.bondAddress = true := by
  unfold afterAdmission
  split
  · split
    · exact ⟨h.admitted _, Providers.has_admitted _ ha⟩
    · exact ⟨h, ha⟩
  · exact ⟨h, ha⟩

theorem afterDeposit_node (m : BondRequest) (operator : Address) (ps : Providers) :
    (afterDeposit m operator ps).node = ps.node := by
  unfold afterDeposit Providers.deposit
  rw [← afterAdmission_node m operator ps]
  grind

theorem afterDeposit_backs {m : BondRequest} (h : ps.Backs n) (ha : ps.has m.bondAddress = true)
    (hfit : n.bond.val + m.bond.val < 0x10000000000000000) :
    (afterDeposit m n.operator ps).Backs { n with bond := n.bond.plus m.bond } := by
  obtain ⟨hadmission, hhas⟩ := afterAdmission_backs h ha
  have hpaid := hadmission.deposited hhas hfit
  simp only [afterDeposit, if_pos hhas]
  exact ⟨⟨hpaid.first, hpaid.distinct⟩, hpaid.whole⟩

theorem settled_address (n : Node) (height : Height) : (settled n height).address = n.address := by
  unfold settled Node.moveTo
  grind

theorem settled_operator (n : Node) (height : Height) :
    (settled n height).operator = n.operator := by
  unfold settled Node.moveTo
  grind

theorem settled_bond (n : Node) (height : Height) : (settled n height).bond = n.bond := by
  unfold settled Node.moveTo
  grind

theorem settled_backs (h : ps.Backs n) (height : Height) : ps.Backs (settled n height) where
  first := (settled_operator n height).symm ▸ h.first
  distinct := h.distinct
  whole := (settled_bond n height).symm ▸ h.whole

theorem toppedUp_same (tx : Transaction) (n : Node) :
    (toppedUp tx n).address = n.address ∧ (toppedUp tx n).operator = n.operator ∧
      (toppedUp tx n).isActive = n.isActive := by
  unfold toppedUp Node.isActive
  grind

theorem paidOf_le (bond amount share : Amount) : paidOf bond amount share ≤ share := by
  unfold paidOf
  split
  · exact Nat.zero_le share.val
  · rw [Amount.le_def, Amount.val_min]
    exact Nat.min_le_right _ share.val

end Bond

end LiquidityNet
