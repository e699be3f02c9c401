import LiquidityNet.Share

/-!
# Rounding to the nearest amount

The nearest integer to a quotient misses it by one half at most, and by one half only if it is even.
This determines it: it grows with the quotient, and no integer that bounds the quotient is exceeded. A
share is such an integer, capped at the largest amount, so it grows with the part and with the whole;
the other bounds follow, as all of a total takes the whole.
-/

namespace LiquidityNet

/-- An integer nearest to `n / d`, of two equally near the even one. All is multiplied by twice the
divisor, so that nothing is divided. -/
structure IsNearest (r n d : Nat) : Prop where
  upper : 2 * (r * d) ≤ 2 * n + d
  lower : 2 * n ≤ 2 * (r * d) + d
  even_of_upper : 2 * (r * d) = 2 * n + d → r % 2 = 0
  even_of_lower : 2 * n = 2 * (r * d) + d → r % 2 = 0

namespace IsNearest

variable {r s n m d e k : Nat}

/-- A larger quotient is not rounded to less. -/
theorem mono (hr : IsNearest r n d) (hs : IsNearest s m e) (hd : 0 < d) (he : 0 < e)
    (h : n * e ≤ m * d) : r ≤ s := by
  refine Nat.le_of_not_lt fun hlt => ?_
  have hgap : (s + 1) * (d * e) ≤ r * (d * e) := Nat.mul_le_mul_right (d * e) hlt
  have hupper : 2 * (r * (d * e)) ≤ 2 * (n * e) + d * e := by
    have hscaled := Nat.mul_le_mul_right e hr.upper
    rwa [Nat.add_mul, Nat.mul_assoc, Nat.mul_assoc, Nat.mul_assoc] at hscaled
  have hlower : 2 * (m * d) ≤ 2 * (s * (d * e)) + d * e := by
    have hscaled := Nat.mul_le_mul_right d hs.lower
    rwa [Nat.add_mul, Nat.mul_assoc, Nat.mul_assoc, Nat.mul_assoc, Nat.mul_comm e d] at hscaled
  rw [Nat.add_mul, Nat.one_mul] at hgap
  -- Both quotients then lie half way between two neighbours, of which only one is even.
  have hr_even : r % 2 = 0 := by
    refine hr.even_of_upper (Nat.eq_of_mul_eq_mul_right he ?_)
    rw [Nat.add_mul, Nat.mul_assoc, Nat.mul_assoc, Nat.mul_assoc]
    omega
  have hs_even : s % 2 = 0 := by
    refine hs.even_of_lower (Nat.eq_of_mul_eq_mul_right hd ?_)
    rw [Nat.add_mul, Nat.mul_assoc, Nat.mul_assoc, Nat.mul_assoc, Nat.mul_comm e d]
    omega
  have hnext : r = s + 1 := by
    refine Nat.eq_of_mul_eq_mul_right (Nat.mul_pos hd he) ?_
    rw [Nat.add_mul, Nat.one_mul]
    omega
  omega

theorem of_mul (k : Nat) (h : 0 < d) : IsNearest k (k * d) d :=
  ⟨Nat.le_add_right _ _, Nat.le_add_right _ _, by omega, by omega⟩

theorem le (hr : IsNearest r n d) (hd : 0 < d) (h : n ≤ k * d) : r ≤ k :=
  hr.mono (of_mul k hd) hd hd (Nat.mul_le_mul_right d h)

/-- The nearest multiple of the divisor is at most twice the number. -/
theorem mul_le_double (hr : IsNearest r n d) : r * d ≤ 2 * n := by
  rcases Nat.eq_zero_or_pos r with rfl | hpos
  · rw [Nat.zero_mul]
    exact Nat.zero_le _
  · have hdivisor := Nat.le_mul_of_pos_left d hpos
    have hupper := hr.upper
    omega

theorem unique (hr : IsNearest r n d) (hs : IsNearest s n d) (hd : 0 < d) : r = s :=
  Nat.le_antisymm (hr.mono hs hd hd (Nat.le_refl _)) (hs.mono hr hd hd (Nat.le_refl _))

end IsNearest

theorem isNearest_nearestEven (n : Nat) {d : Nat} (h : 0 < d) :
    IsNearest (nearestEven (n / d) (n % d) d) n d := by
  have hsplit : n / d * d + n % d = n := Nat.div_add_mod' n d
  have hrem := Nat.mod_lt n h
  unfold nearestEven
  split
  · constructor <;> rw [Nat.add_mul, Nat.one_mul] <;> omega
  · constructor <;> omega

namespace Amount

theorem val_orZero {n : Nat} (h : n < 0x10000000000000000) : (orZero n).val = n := by
  rw [orZero, dif_pos h]

theorem cap_le (n : Nat) : (cap n).val ≤ n := Nat.min_le_left _ _

theorem cap_mono {m n : Nat} (h : m ≤ n) : cap m ≤ cap n :=
  Nat.le_min.2 ⟨Nat.le_trans (Nat.min_le_left _ _) h, Nat.min_le_right _ _⟩

end Amount

namespace Share

variable {part total whole : Amount}

theorem of_zero_total (part whole : Amount) : of part 0 whole = 0 := by
  simp [of]

theorem of_zero_part (total whole : Amount) : of 0 total whole = 0 := by
  simp [of]

theorem isNearest_of (part whole : Amount) (h : 0 < total.val) :
    ∃ r, IsNearest r (whole.val * part.val) total.val ∧ of part total whole = .cap r := by
  unfold of
  split
  · rename_i hzero
    have htotal : total ≠ 0 := by
      rintro rfl
      exact Nat.lt_irrefl 0 h
    obtain rfl : part = 0 := hzero.resolve_right htotal
    exact ⟨0, by simpa using IsNearest.of_mul 0 h, rfl⟩
  · exact ⟨_, isNearest_nearestEven (whole.val * part.val) h, rfl⟩

/-- Of what is applied to what makes no difference. -/
theorem of_comm (part total whole : Amount) : of part total whole = of whole total part := by
  rcases Nat.eq_zero_or_pos total.val with hzero | hpos
  · obtain rfl : total = 0 := Amount.ext hzero
    rw [of_zero_total, of_zero_total]
  · obtain ⟨r, hr, hpart⟩ := isNearest_of part whole hpos
    obtain ⟨s, hs, hwhole⟩ := isNearest_of whole part hpos
    rw [hpart, hwhole, hr.unique (Nat.mul_comm part.val whole.val ▸ hs) hpos]

theorem of_self (whole : Amount) (h : 0 < total.val) : of total total whole = whole := by
  obtain ⟨r, hr, heq⟩ := isNearest_of total whole h
  rw [heq, hr.unique (.of_mul whole.val h) h]
  exact Amount.cap_val whole

/-- A share grows with the part and with the whole. -/
theorem of_mono {morePart moreWhole : Amount} (hpart : part ≤ morePart)
    (hwhole : whole ≤ moreWhole) : of part total whole ≤ of morePart total moreWhole := by
  rcases Nat.eq_zero_or_pos total.val with hzero | hpos
  · obtain rfl : total = 0 := Amount.ext hzero
    rw [of_zero_total]
    exact Nat.zero_le _
  · obtain ⟨r, hr, heq⟩ := isNearest_of part whole hpos
    obtain ⟨s, hs, heq'⟩ := isNearest_of morePart moreWhole hpos
    rw [heq, heq']
    refine Amount.cap_mono (hr.mono hs hpos hpos ?_)
    exact Nat.mul_le_mul_right total.val (Nat.mul_le_mul hwhole hpart)

/-- A part that is no more than the total takes no more than the whole. -/
theorem of_le (h : part ≤ total) : of part total whole ≤ whole := by
  rcases Nat.eq_zero_or_pos total.val with hzero | hpos
  · obtain rfl : total = 0 := Amount.ext hzero
    rw [of_zero_total]
    exact Nat.zero_le _
  · have hmono : of part total whole ≤ of total total whole := of_mono h (Nat.le_refl whole.val)
    rwa [of_self whole hpos] at hmono

/-- A whole that is no more than the total leaves no part more than it was. -/
theorem of_le_part (h : whole ≤ total) : of part total whole ≤ part := by
  rw [of_comm]
  exact of_le h

/-- A whole that is no less than the total leaves no part less than it was. -/
theorem le_of (hpart : part ≤ total) (h : total ≤ whole) : part ≤ of part total whole := by
  rcases Nat.eq_zero_or_pos total.val with hzero | hpos
  · exact Nat.le_trans (m := total.val) hpart (hzero ▸ Nat.zero_le _)
  · have hmono : of part total total ≤ of part total whole := of_mono (Nat.le_refl part.val) h
    rwa [of_comm, of_self part hpos] at hmono

/-- A share exceeds its exact value by at most one half. -/
theorem of_within_half (part total whole : Amount) :
    2 * total.val * (of part total whole).val ≤ 2 * whole.val * part.val + total.val := by
  rcases Nat.eq_zero_or_pos total.val with hzero | hpos
  · rw [hzero]
    omega
  · obtain ⟨r, hr, heq⟩ := isNearest_of part whole hpos
    have hcap := Nat.mul_le_mul_left total.val (Amount.cap_le r)
    have hupper := hr.upper
    rw [Nat.mul_comm r] at hupper
    rw [heq, Nat.mul_assoc, Nat.mul_assoc]
    omega

theorem within_of_le (h : part ≤ total) : within part total whole = of part total whole := by
  have hmin : min part total = part := by
    apply Amount.ext
    rw [Amount.val_min, Nat.min_eq_left h]
  rw [within, hmin]

/-- A part that reaches the total takes the whole. -/
theorem within_of_ge (htotal : 0 < total.val) (h : total ≤ part) : within part total whole = whole := by
  have hmin : min part total = total := by
    apply Amount.ext
    rw [Amount.val_min, Nat.min_eq_right h]
  rw [within, hmin, of_self whole htotal]

theorem within_le (part total whole : Amount) : within part total whole ≤ whole := by
  refine of_le ?_
  rw [Amount.le_def, Amount.val_min]
  exact Nat.min_le_right part.val total.val

end Share

end LiquidityNet
