import Mathlib.Data.List.Forall2
import LiquidityNet.Proofs.Action.Completion
import LiquidityNet.Proofs.Bond.Shares

/-!
# Bonds brought in line

An alignment always ends, and the bonds then sum up to the node's bond, in the order of the providers
there were. Where the node lost bond, nobody behind the operator has more than before. Where it gained
bond, each share is no less than the bond it stands for, but the shares are rounded one by one and
handed out until nothing is left: the operator takes what rounding leaves, while what rounding adds may
be missing at the end of the list.
-/

namespace LiquidityNet

namespace Providers

variable {ps qs : Providers} {operator p : Provider} {others before after rs ts : List Provider}
  {total whole left rest fee nodeBond : Amount}

/-! ## The end of an alignment -/

theorem dealt_ok (total whole left : Amount) (ps : List Provider) :
    ∃ x, dealt total whole left ps = .ok x := by
  induction ps generalizing left with
  | nil => exact ⟨_, rfl⟩
  | cons p ps ih =>
    refine except_bind_ok (Amount.sub_ok ?_) fun rest _ => ?_
    · rw [Amount.val_min]
      exact Nat.min_le_right _ _
    · exact except_bind_ok (ih rest) fun _ _ => ⟨_, rfl⟩

theorem feeOnGain_ok (ps : Providers) (total nodeBond : Amount) :
    ∃ fee, ps.feeOnGain total nodeBond = .ok fee := by
  unfold feeOnGain
  split
  · rename_i hless
    exact except_bind_ok (Amount.sub_ok (Nat.le_of_lt hless)) fun _ _ => ⟨_, rfl⟩
  · exact ⟨0, rfl⟩

/-- Alignment only adds up the bonds there are; it hands out no more than the node's bond. -/
theorem aligned_ok (h : ps.bonds < 0x10000000000000000) (nodeBond : Amount) :
    ∃ qs, ps.aligned nodeBond = .ok qs := by
  obtain ⟨node, operatorFee, list⟩ := ps
  cases list with
  | nil => exact ⟨_, rfl⟩
  | cons operator others =>
    refine except_bind_ok (Amount.sum_ok h) fun total _ => ?_
    split
    · exact ⟨_, rfl⟩
    refine except_bind_ok (feeOnGain_ok _ total nodeBond) fun fee hfee => ?_
    refine except_bind_ok (dealt_ok _ _ _ others) fun x hdealt => ?_
    refine except_bind_ok (Amount.add_ok ?_) fun bond _ => ⟨_, rfl⟩
    have hgain := feeOnGain_le hfee
    have hleft := (dealt_spec hdealt).2
    have hlimit := nodeBond.isLt
    rw [Amount.val_minus] at hleft
    omega

theorem aligned_fit {qs : Providers} {nodeBond : Amount} (h : ps.bonds < 0x10000000000000000)
    (hqs : ps.aligned nodeBond = .ok qs) : qs.bonds < 0x10000000000000000 := by
  by_cases hlist : ps.list = []
  · obtain ⟨node, operatorFee, list⟩ := ps
    obtain rfl : list = [] := hlist
    cases hqs
    exact h
  · rw [(aligned_spec hqs).2.2 hlist]
    exact nodeBond.isLt

theorem total_eq_ok (h : ps.bonds = total.val) : ps.total = .ok total := by
  have hfit : ps.bonds < 0x10000000000000000 := h ▸ total.isLt
  obtain ⟨sum, hsum⟩ := Amount.sum_ok hfit
  obtain rfl : sum = total := Amount.ext ((Amount.sum_eq_ok hsum).trans h)
  exact hsum

theorem bonds_eq_of_total (h : ps.total = .ok total) : ps.bonds = total.val :=
  (Amount.sum_eq_ok h).symm

theorem bond_le_of_total (h : ps.total = .ok total) (hp : p ∈ ps.list) : p.bond ≤ total := by
  rw [Amount.le_def, ← bonds_eq_of_total h]
  exact bond_le_total hp

/-- The bonds of the operator, of those before a provider, of the provider and of those after it. -/
theorem bonds_split (htotal : ps.total = .ok total)
    (hlist : ps.list = operator :: (before ++ p :: after)) :
    operator.bond.val + (Amount.total (before.map (·.bond)) +
      (p.bond.val + Amount.total (after.map (·.bond)))) = total.val := by
  rw [← bonds_eq_of_total htotal, bonds, hlist]
  simp only [List.map_cons, List.map_append, Amount.total_cons, Amount.total_append]

/-! ## A node that lost bond -/

/-- Of a whole that is no more than the total, nobody is dealt more than they had. -/
theorem dealt_le (hwhole : whole ≤ total) (hfit : ∀ p ∈ rs, p.bond ≤ total)
    (h : dealt total whole left rs = .ok (ts, rest)) :
    List.Forall₂ (fun p q : Provider => q.bond ≤ p.bond) rs ts := by
  induction rs generalizing left ts with
  | nil =>
    cases h
    exact .nil
  | cons p rs ih =>
    obtain ⟨share, left', ts', hshare, -, hrs, rfl⟩ := dealt_cons h
    refine .cons ?_ (ih (fun q hq => hfit q (List.mem_cons_of_mem p hq)) hrs)
    have hpart : Share.within p.bond total whole ≤ p.bond := by
      rw [Share.within_of_le (hfit p List.mem_cons_self)]
      exact Share.of_le_part hwhole
    rw [hshare, Amount.le_def, Amount.val_min]
    exact Nat.le_trans (Nat.min_le_left _ _) hpart

/-- A list of providers whose bonds sum up to an amount is brought in line with any bond of the node:
the bonds sum up to it, nothing else changes, and where the node lost bond nobody behind the operator
has more bond than before. -/
theorem aligned_exact (hlist : ps.list ≠ []) (hfit : ps.bonds < 0x10000000000000000)
    (nodeBond : Amount) :
    ∃ qs, ps.aligned nodeBond = .ok qs ∧ qs.total = .ok nodeBond ∧
      qs.addresses = ps.addresses ∧ qs.node = ps.node ∧ qs.operatorFee = ps.operatorFee ∧
        (nodeBond.val < ps.bonds →
          List.Forall₂ (fun p q : Provider => q.bond ≤ p.bond) ps.list.tail qs.list.tail) := by
  obtain ⟨qs, hqs⟩ := aligned_ok hfit nodeBond
  obtain ⟨hnode, haddresses, hbonds⟩ := aligned_spec hqs
  obtain ⟨operator, others, hcons⟩ := List.exists_cons_of_ne_nil hlist
  obtain ⟨total, htotal, hcases⟩ := aligned_cons hcons hqs
  refine ⟨qs, hqs, total_eq_ok (hbonds hlist), haddresses, hnode, ?_, fun hless => ?_⟩
  · obtain ⟨-, rfl⟩ | ⟨fee, others', left, bond, -, -, -, rfl⟩ := hcases
    · rfl
    · rfl
  · have hlost : nodeBond.val < total.val := by rwa [← bonds_eq_of_total htotal]
    obtain ⟨rfl, -⟩ | ⟨fee, others', left, bond, hfee, hdealt, -, rfl⟩ := hcases
    · exact absurd hlost (Nat.lt_irrefl _)
    · rw [hcons]
      refine dealt_le ?_ (fun p hp => ?_) hdealt
      · rw [Amount.le_def, Amount.val_minus]
        omega
      · exact bond_le_of_total htotal (hcons ▸ List.mem_cons_of_mem operator hp)

/-! Five backers of the same bond behind an operator without any lose half of it. -/

def backers : Providers where
  node := ⟨"thor1node"⟩
  operatorFee := 0
  list := [⟨⟨"thor1op"⟩, 0⟩, ⟨⟨"thor1a"⟩, oneRune⟩, ⟨⟨"thor1b"⟩, oneRune⟩, ⟨⟨"thor1c"⟩, oneRune⟩,
    ⟨⟨"thor1d"⟩, oneRune⟩, ⟨⟨"thor1e"⟩, oneRune⟩]

/-- What the backers put up together. -/
def backed : Amount := .cap 500000000

def halved : Amount := .cap 250000003

theorem backers_halved :
    backers.list ≠ [] ∧ backers.bonds < 0x10000000000000000 ∧ halved.val < backers.bonds ∧
      ∃ qs, backers.aligned halved = .ok qs ∧ qs.total = .ok halved ∧
        qs.addresses = backers.addresses ∧
          List.Forall₂ (fun p q : Provider => q.bond ≤ p.bond) backers.list.tail qs.list.tail := by
  have hlist : backers.list ≠ [] := List.cons_ne_nil _ _
  have hfit : backers.bonds < 0x10000000000000000 := by decide
  have hless : halved.val < backers.bonds := by decide
  obtain ⟨qs, hqs, htotal, haddresses, -, -, hlost⟩ := aligned_exact hlist hfit halved
  exact ⟨hlist, hfit, hless, qs, hqs, htotal, haddresses, hlost hless⟩

/-! ## A node that gained bond -/

/-- What the shares of providers come to, each of them rounded on its own. -/
def sharesOf (total whole : Amount) (rs : List Provider) : Nat :=
  Amount.total (rs.map fun p => Share.within p.bond total whole)

@[simp] theorem sharesOf_nil (total whole : Amount) : sharesOf total whole [] = 0 := rfl

@[simp] theorem sharesOf_cons (total whole : Amount) (p : Provider) (rs : List Provider) :
    sharesOf total whole (p :: rs) =
      (Share.within p.bond total whole).val + sharesOf total whole rs := rfl

/-- Each provider is dealt their share, or what the shares before it leave. -/
theorem dealt_append (h : dealt total whole left (before ++ p :: after) = .ok (ts, rest)) :
    ∃ q, ts[before.length]? = some q ∧ q.address = p.address ∧
      q.bond.val =
        min (Share.within p.bond total whole).val (left.val - sharesOf total whole before) := by
  induction before generalizing left ts with
  | nil =>
    obtain ⟨share, left', ts', hshare, -, -, rfl⟩ := dealt_cons h
    exact ⟨{ p with bond := share }, rfl, rfl, by simp [hshare]⟩
  | cons r before ih =>
    obtain ⟨share, left', ts', hshare, hleft, hrs, rfl⟩ := dealt_cons h
    obtain ⟨q, hq, haddress, hbond⟩ := ih hrs
    refine ⟨q, hq, haddress, ?_⟩
    rw [hshare, Amount.val_min] at hleft
    rw [hbond, sharesOf_cons]
    omega

/-- Rounding adds at most half a unit to each share. -/
theorem sharesOf_within_half (whole : Amount) (hfit : ∀ p ∈ rs, p.bond ≤ total) :
    2 * (total.val * sharesOf total whole rs) ≤
      2 * (whole.val * Amount.total (rs.map (·.bond))) + rs.length * total.val := by
  induction rs with
  | nil => simp
  | cons p rs ih =>
    have hrest := ih fun q hq => hfit q (List.mem_cons_of_mem p hq)
    have hhalf := Share.of_within_half p.bond total whole
    rw [Nat.mul_assoc, Nat.mul_assoc] at hhalf
    simp only [sharesOf_cons, Share.within_of_le (hfit p List.mem_cons_self), List.map_cons,
      Amount.total_cons, List.length_cons, Nat.mul_add, Nat.add_mul, Nat.one_mul]
    omega

/-- Shares of a whole that is the total are the bonds. -/
theorem sharesOf_self (hfit : ∀ p ∈ rs, p.bond ≤ total) :
    sharesOf total total rs = Amount.total (rs.map (·.bond)) := by
  induction rs with
  | nil => rfl
  | cons p rs ih =>
    have hp : p.bond ≤ total := hfit p List.mem_cons_self
    have hself : (Share.of p.bond total total).val = p.bond.val :=
      Nat.le_antisymm (Share.of_le_part (Nat.le_refl _)) (Share.le_of hp (Nat.le_refl _))
    rw [sharesOf_cons, Share.within_of_le hp, hself, List.map_cons, Amount.total_cons,
      ih fun q hq => hfit q (List.mem_cons_of_mem p hq)]

theorem sharesOf_zero_total (whole : Amount) (rs : List Provider) : sharesOf 0 whole rs = 0 := by
  induction rs with
  | nil => rfl
  | cons p rs ih => rw [sharesOf_cons, ih, Share.within, Share.of_zero_total, Amount.val_zero]

/-- The shares before a provider leave its bond, and the bonds of the operator and of those behind it,
but for half a unit for each of them. -/
theorem sharesOf_add_le (htotal : ps.total = .ok total) (hwhole : total ≤ whole)
    (hlist : ps.list = operator :: (before ++ p :: after)) :
    2 * (sharesOf total whole before + p.bond.val +
        (operator.bond.val + Amount.total (after.map (·.bond)))) ≤
      2 * whole.val + before.length := by
  have hsum := bonds_split htotal hlist
  have hfit : ∀ q ∈ before, q.bond ≤ total := fun q hq =>
    bond_le_of_total htotal
      (hlist ▸ List.mem_cons_of_mem operator (List.mem_append_left (p :: after) hq))
  have hhalf := sharesOf_within_half whole hfit
  have hzero := sharesOf_zero_total whole before
  obtain ⟨kept, hkept⟩ : ∃ kept, kept = p.bond.val +
      (operator.bond.val + Amount.total (after.map (·.bond))) := ⟨_, rfl⟩
  rw [Nat.add_assoc, ← hkept]
  have hparts : Amount.total (before.map (·.bond)) + kept = total.val := by omega
  rcases Nat.eq_zero_or_pos total.val with hnone | hpos
  · obtain rfl : total = 0 := Amount.ext hnone
    omega
  · have hscaled : total.val * kept ≤ whole.val * kept := Nat.mul_le_mul_right kept hwhole
    have hwhole : whole.val * Amount.total (before.map (·.bond)) + whole.val * kept =
        total.val * whole.val := by
      rw [← Nat.mul_add, hparts, Nat.mul_comm]
    refine Nat.le_of_mul_le_mul_left ?_ hpos
    calc total.val * (2 * (sharesOf total whole before + kept))
        = 2 * (total.val * sharesOf total whole before) + 2 * (total.val * kept) := by
          rw [Nat.mul_left_comm, Nat.mul_add, Nat.mul_add]
      _ ≤ 2 * (total.val * whole.val) + before.length * total.val := by omega
      _ = total.val * (2 * whole.val + before.length) := by
          rw [Nat.mul_add, Nat.mul_left_comm, Nat.mul_comm before.length]

/-- Where a node gained bond, a provider behind the operator keeps its bond exactly if it has none or
the rounded shares before it leave that much. It loses at most half a unit for each provider between
the operator and itself, and nothing where the operator and those behind it have that much bond. -/
theorem growth_kept_iff (hlist : ps.list = operator :: others) (htotal : ps.total = .ok total)
    (hgrown : total ≤ nodeBond) :
    ∃ qs fee, ps.aligned nodeBond = .ok qs ∧ ps.feeOnGain total nodeBond = .ok fee ∧
      ∀ before p after, others = before ++ p :: after →
        ∃ q, qs.list[before.length + 1]? = some q ∧ q.address = p.address ∧
          (p.bond ≤ q.bond ↔ p.bond = 0 ∨
            sharesOf total (nodeBond.minus fee) before + p.bond.val ≤ (nodeBond.minus fee).val) ∧
          2 * p.bond.val ≤ 2 * q.bond.val + before.length ∧
          (before.length ≤ 2 * (operator.bond.val + Amount.total (after.map (·.bond))) →
            p.bond ≤ q.bond) := by
  have hfit : ps.bonds < 0x10000000000000000 := bonds_eq_of_total htotal ▸ total.isLt
  obtain ⟨qs, hqs⟩ := aligned_ok hfit nodeBond
  obtain ⟨fee, hfee⟩ := feeOnGain_ok ps total nodeBond
  refine ⟨qs, fee, hqs, hfee, ?_⟩
  rintro before p after rfl
  have hgain := feeOnGain_le hfee
  have hwhole : total ≤ nodeBond.minus fee := by
    rw [Amount.le_def] at hgrown ⊢
    rw [Amount.val_minus]
    omega
  have hfits : ∀ q ∈ before ++ p :: after, q.bond ≤ total := fun q hq =>
    bond_le_of_total htotal (hlist ▸ List.mem_cons_of_mem operator hq)
  have hp : p.bond ≤ total := hfits p (List.mem_append_right _ List.mem_cons_self)
  have hshares := sharesOf_add_le htotal hwhole hlist
  have hzero : p.bond = 0 ↔ p.bond.val = 0 := Amount.val_inj.symm
  obtain ⟨total', htotal', hcases⟩ := aligned_cons hlist hqs
  obtain rfl : total = total' := Except.ok.inj (htotal.symm.trans htotal')
  obtain ⟨rfl, rfl⟩ | ⟨fee', others', left, bond, hfee', hdealt, -, rfl⟩ := hcases
  · -- Nothing was gained, so that the shares are the bonds.
    refine ⟨p, by simp [hlist], rfl, ?_, Nat.le_add_right _ _, fun _ => Nat.le_refl _⟩
    have hnone : total.minus fee = total := by
      apply Amount.ext
      rw [Amount.val_minus]
      omega
    have hsum := bonds_split htotal hlist
    rw [hnone, sharesOf_self fun q hq => hfits q (List.mem_append_left _ hq)]
    exact iff_of_true (Nat.le_refl _) (.inr (by omega))
  · obtain rfl : fee = fee' := Except.ok.inj (hfee.symm.trans hfee')
    obtain ⟨q, hq, haddress, hbond⟩ := dealt_append hdealt
    refine ⟨q, hq, haddress, ?_⟩
    have hshare : p.bond ≤ Share.within p.bond total (nodeBond.minus fee) := by
      rw [Share.within_of_le hp]
      exact Share.le_of hp hwhole
    rw [hzero]
    simp only [Amount.le_def] at *
    refine ⟨?_, ?_, ?_⟩ <;> omega

/-! A gain of three units is rounded up for four backers, and the fifth pays for it. -/

def raised : Amount := .cap 500000003

theorem lastBacker_loses :
    ∃ qs p q r, backers.total = .ok backed ∧ backed ≤ raised ∧ backers.aligned raised = .ok qs ∧
      backers.list[5]? = some p ∧ qs.list[5]? = some q ∧ q.address = p.address ∧
        q.bond < p.bond ∧ qs.list[1]? = some r ∧ oneRune ≤ r.bond := by
  have htotal : backers.total = .ok backed := total_eq_ok (by decide)
  have hgrown : backed ≤ raised := by decide
  have hnofee : backers.feeOnGain backed raised = .ok 0 := rfl
  obtain ⟨qs, fee, hqs, hfee, hkept⟩ := growth_kept_iff rfl htotal hgrown
  obtain rfl : fee = 0 := Except.ok.inj (hfee.symm.trans hnofee)
  obtain ⟨q, hq, haddress, hiff, -⟩ := hkept _ ⟨⟨"thor1e"⟩, oneRune⟩ []
    (show _ = [⟨⟨"thor1a"⟩, oneRune⟩, ⟨⟨"thor1b"⟩, oneRune⟩, ⟨⟨"thor1c"⟩, oneRune⟩,
      ⟨⟨"thor1d"⟩, oneRune⟩] ++ _ from rfl)
  obtain ⟨r, hr, -, -, -, hfirst⟩ := hkept [] _ _ rfl
  refine ⟨qs, _, q, r, htotal, hgrown, hqs, rfl, hq, haddress, Nat.not_le.1 fun hle => ?_, hr,
    hfirst (Nat.zero_le _)⟩
  exact absurd (hiff.1 hle) (by decide +kernel)

end Providers

end LiquidityNet
