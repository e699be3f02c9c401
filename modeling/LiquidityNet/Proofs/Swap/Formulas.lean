import Mathlib.Algebra.Order.Ring.Nat
import Mathlib.Data.Nat.Basic
import Mathlib.Tactic.Ring
import LiquidityNet.Proofs.Share.Rounding
import LiquidityNet.Swap.Formula

/-!
# The swap formulas over the whole range

Both quotients of a swap are at most the depth they are taken from, so neither is ever narrowed. Each
is truncated on its own, and together they fall short of what the constant product gives out by one at
most. What is given out is at most a quarter of the depth and never shrinks the product; the slip
reaches from nothing to the whole and grows with the amount.
-/

namespace LiquidityNet.Swap

/-! ## Emission and fee -/

/-- Of the square of a sum, the product of its two parts is a quarter at most. -/
theorem four_mul_quotient_le (x y z : Nat) :
    4 * (x * y * z / ((x + y) * (x + y))) ≤ z := by
  rcases Nat.eq_zero_or_pos (x + y) with hzero | hpos
  · rw [hzero, Nat.mul_zero, Nat.div_zero]
    exact Nat.zero_le z
  have hsquare := Nat.mul_pos hpos hpos
  have hmean : 4 * (x * y) ≤ (x + y) * (x + y) := by
    rw [← Nat.mul_assoc, ← Nat.pow_two]
    exact four_mul_le_sq_add x y
  refine Nat.le_of_mul_le_mul_right ?_ hsquare
  calc 4 * (x * y * z / ((x + y) * (x + y))) * ((x + y) * (x + y))
      = 4 * (x * y * z / ((x + y) * (x + y)) * ((x + y) * (x + y))) := Nat.mul_assoc _ _ _
    _ ≤ 4 * (x * y * z) := Nat.mul_le_mul_left 4 (Nat.div_mul_le_self _ _)
    _ = 4 * (x * y) * z := (Nat.mul_assoc _ _ _).symm
    _ ≤ (x + y) * (x + y) * z := Nat.mul_le_mul_right z hmean
    _ = z * ((x + y) * (x + y)) := Nat.mul_comm _ _

theorem emission_val (depthIn amount depthOut : Amount) :
    (emission depthIn amount depthOut).val =
      amount.val * depthIn.val * depthOut.val /
        ((amount.val + depthIn.val) * (amount.val + depthIn.val)) := by
  have hquarter := four_mul_quotient_le amount.val depthIn.val depthOut.val
  have hlimit := depthOut.isLt
  exact Amount.val_orZero (by omega)

theorem liquidityFee_val (depthIn amount depthOut : Amount) :
    (liquidityFee depthIn amount depthOut).val =
      amount.val * amount.val * depthOut.val /
        ((amount.val + depthIn.val) * (amount.val + depthIn.val)) := by
  have hpart : amount.val * amount.val ≤
      (amount.val + depthIn.val) * (amount.val + depthIn.val) :=
    Nat.mul_le_mul (Nat.le_add_right _ _) (Nat.le_add_right _ _)
  have hle : amount.val * amount.val * depthOut.val /
      ((amount.val + depthIn.val) * (amount.val + depthIn.val)) ≤ depthOut.val :=
    Nat.div_le_of_le_mul (Nat.mul_le_mul_right depthOut.val hpart)
  exact Amount.val_orZero (Nat.lt_of_le_of_lt hle depthOut.isLt)

/-- A swap gives out at most a quarter of the depth it reckons with, which it comes closest to where
as much comes in as there is. -/
theorem four_mul_emission_le (depthIn amount depthOut : Amount) :
    4 * (emission depthIn amount depthOut).val ≤ depthOut.val := by
  rw [emission_val]
  exact four_mul_quotient_le _ _ _

/-- The constant product gives out `amount * depthOut / (amount + depthIn)`, of which emission and fee
are the two parts, each of them truncated. -/
theorem emission_add_liquidityFee (depthIn amount depthOut : Amount) :
    (emission depthIn amount depthOut).val + (liquidityFee depthIn amount depthOut).val ≤
        amount.val * depthOut.val / (amount.val + depthIn.val) ∧
      amount.val * depthOut.val / (amount.val + depthIn.val) ≤
        (emission depthIn amount depthOut).val + (liquidityFee depthIn amount depthOut).val + 1 := by
  rcases Nat.eq_zero_or_pos (amount.val + depthIn.val) with hzero | hpos
  · rw [emission_val, liquidityFee_val, hzero]
    simp
  have hsquare := Nat.mul_pos hpos hpos
  have hparts : amount.val * depthIn.val * depthOut.val + amount.val * amount.val * depthOut.val =
      amount.val * depthOut.val * (amount.val + depthIn.val) := by
    ring
  have hgross : amount.val * depthOut.val / (amount.val + depthIn.val) =
      (amount.val * depthIn.val * depthOut.val + amount.val * amount.val * depthOut.val) /
        ((amount.val + depthIn.val) * (amount.val + depthIn.val)) := by
    rw [hparts, Nat.mul_div_mul_right _ _ hpos]
  rw [hgross, emission_val, liquidityFee_val, Nat.add_div hsquare]
  split <;> omega

/-- The constant product allows `amount * depthOut / (depthIn + amount)` to leave, and the emission
stays below that. -/
theorem emission_mul_le (depthIn amount depthOut : Amount) :
    (emission depthIn amount depthOut).val * (depthIn.val + amount.val) ≤
      amount.val * depthOut.val := by
  have hgross := (emission_add_liquidityFee depthIn amount depthOut).1
  calc (emission depthIn amount depthOut).val * (depthIn.val + amount.val)
      ≤ amount.val * depthOut.val / (amount.val + depthIn.val) * (amount.val + depthIn.val) := by
        rw [Nat.add_comm depthIn.val]
        exact Nat.mul_le_mul_right _ (by omega)
    _ ≤ amount.val * depthOut.val := Nat.div_mul_le_self _ _

/-- What the emission leaves of the depths has no smaller product. -/
theorem product_le_of_emission (depthIn amount depthOut : Amount) :
    depthIn.val * depthOut.val ≤
      (depthIn.val + amount.val) * (depthOut.val - (emission depthIn amount depthOut).val) := by
  have hallowed := emission_mul_le depthIn amount depthOut
  rw [Nat.mul_sub, Nat.add_mul, Nat.mul_comm _ (emission depthIn amount depthOut).val]
  omega

/-! ## Slip -/

theorem isNearest_slip {depthIn amount : Amount} (h : 0 < amount.val + depthIn.val) :
    ∃ r, IsNearest r (amount.val * basisPoints.val) (amount.val + depthIn.val) ∧
      slip depthIn amount = .cap r := by
  refine ⟨_, isNearest_nearestEven _ h, ?_⟩
  unfold slip
  exact if_neg (Nat.ne_of_gt h)

theorem slip_le (depthIn amount : Amount) : slip depthIn amount ≤ basisPoints := by
  rcases Nat.eq_zero_or_pos (amount.val + depthIn.val) with hzero | hpos
  · unfold slip
    rw [if_pos hzero]
    exact Nat.zero_le _
  · obtain ⟨r, hr, heq⟩ := isNearest_slip hpos
    rw [heq]
    refine Nat.le_trans (Amount.cap_le r) (hr.le hpos ?_)
    rw [Nat.mul_comm]
    exact Nat.mul_le_mul_left _ (Nat.le_add_right _ _)

theorem slip_mono (depthIn : Amount) {amount more : Amount} (h : amount ≤ more) :
    slip depthIn amount ≤ slip depthIn more := by
  have h : amount.val ≤ more.val := h
  rcases Nat.eq_zero_or_pos (amount.val + depthIn.val) with hzero | hpos
  · unfold slip
    rw [if_pos hzero]
    exact Nat.zero_le _
  · have hpos' : 0 < more.val + depthIn.val := by omega
    obtain ⟨r, hr, heq⟩ := isNearest_slip hpos
    obtain ⟨s, hs, heq'⟩ := isNearest_slip hpos'
    have hle : r ≤ s := by
      refine hr.mono hs hpos hpos' ?_
      have hscaled := Nat.mul_le_mul_right (basisPoints.val * depthIn.val) h
      calc amount.val * basisPoints.val * (more.val + depthIn.val)
          = amount.val * (basisPoints.val * depthIn.val) +
              amount.val * basisPoints.val * more.val := by ring
        _ ≤ more.val * (basisPoints.val * depthIn.val) +
              amount.val * basisPoints.val * more.val := Nat.add_le_add_right hscaled _
        _ = more.val * basisPoints.val * (amount.val + depthIn.val) := by ring
    rw [heq, heq']
    exact Amount.cap_mono hle

/-! ## All formulas -/

/-- For any depths and any amount, emission and fee are the truncated quotients; together they are
what the constant product gives out, or one less. The emission takes at most a quarter of the depth
and leaves the product of the depths no smaller. The slip is at most the whole and grows with the
amount. Where there is neither depth nor amount, both quotients are zero. -/
theorem formulas_exact (depthIn amount depthOut : Amount) :
    (emission depthIn amount depthOut).val =
        amount.val * depthIn.val * depthOut.val / (amount.val + depthIn.val) ^ 2 ∧
      (liquidityFee depthIn amount depthOut).val =
        amount.val ^ 2 * depthOut.val / (amount.val + depthIn.val) ^ 2 ∧
      (emission depthIn amount depthOut).val ≤ depthOut.val / 4 ∧
      (emission depthIn amount depthOut).val + (liquidityFee depthIn amount depthOut).val ≤
        amount.val * depthOut.val / (amount.val + depthIn.val) ∧
      amount.val * depthOut.val / (amount.val + depthIn.val) ≤
        (emission depthIn amount depthOut).val + (liquidityFee depthIn amount depthOut).val + 1 ∧
      depthIn.val * depthOut.val ≤
        (depthIn.val + amount.val) * (depthOut.val - (emission depthIn amount depthOut).val) ∧
      slip depthIn amount ≤ basisPoints ∧
      ∀ more, amount ≤ more → slip depthIn amount ≤ slip depthIn more := by
  have hquarter := four_mul_emission_le depthIn amount depthOut
  obtain ⟨hgross, hshort⟩ := emission_add_liquidityFee depthIn amount depthOut
  refine ⟨?_, ?_, by omega, hgross, hshort, product_le_of_emission depthIn amount depthOut,
    slip_le depthIn amount, fun more h => slip_mono depthIn h⟩
  · rw [emission_val, Nat.pow_two]
  · rw [liquidityFee_val, Nat.pow_two, Nat.pow_two]

/-- Between equal sides a quarter of the depth is given out and a quarter stays as a fee, and both
quarters are truncated. -/
theorem equal_sides_quartered :
    oneRune ≤ Amount.top ∧ (emission oneRune oneRune .top).val = Amount.top.val / 4 ∧
      (liquidityFee oneRune oneRune .top).val = Amount.top.val / 4 ∧
      (emission oneRune oneRune .top).val + (liquidityFee oneRune oneRune .top).val + 1 =
        oneRune.val * Amount.top.val / (oneRune.val + oneRune.val) ∧
      oneRune.val * Amount.top.val ≤
        (oneRune.val + oneRune.val) * (Amount.top.val - (emission oneRune oneRune .top).val) ∧
      slip oneRune oneRune ≤ slip oneRune .top := by
  obtain ⟨hemission, hfee, -, -, -, hproduct, -, hslip⟩ := formulas_exact oneRune oneRune .top
  have hgrown : oneRune ≤ Amount.top := by decide
  refine ⟨hgrown, hemission.trans (by decide +kernel), hfee.trans (by decide +kernel), ?_, hproduct,
    hslip .top hgrown⟩
  rw [hemission, hfee]
  decide +kernel

end LiquidityNet.Swap
