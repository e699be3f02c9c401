import Mathlib.Algebra.Order.Field.Basic
import Mathlib.Algebra.Order.Group.Unbundled.Int
import Mathlib.Algebra.Order.Ring.Rat
import Mathlib.Algebra.Ring.Int.Parity
import Mathlib.Data.Rat.Cast.CharZero
import Mathlib.Tactic.Linarith
import LiquidityNet.Proofs.Share.Rounding

/-!
# Shares as rounded quotients

No integer is nearer to a rational than its rounding, and of two that are equally near the rounding is
the even one. There is one such integer only. A share is the rounding of the exact quotient, or the
largest amount where the rounding is larger still.
-/

namespace LiquidityNet

/-- The integer nearest to a rational; of two equally near the even one. -/
structure IsRounding (r : ℤ) (q : ℚ) : Prop where
  nearest (k : ℤ) : |q - r| ≤ |q - k|
  even_of_tie (k : ℤ) : k ≠ r → |q - k| = |q - r| → Even r

/-- The distances of a rational from two integers add up to one at least. -/
theorem one_le_abs_sub_add {j k : ℤ} (h : j ≠ k) (q : ℚ) : 1 ≤ |q - j| + |q - k| :=
  calc (1 : ℚ) ≤ |(j : ℚ) - k| := by exact_mod_cast Int.one_le_abs (sub_ne_zero.2 h)
    _ ≤ |(j : ℚ) - q| + |q - k| := abs_sub_le _ _ _
    _ = |q - j| + |q - k| := by rw [abs_sub_comm (j : ℚ)]

namespace IsRounding

variable {r s : ℤ} {q : ℚ}

/-- An integer that misses a rational by less than one half is its rounding, and one that misses it by
one half is if it is even. -/
theorem of_half (hhalf : |q - r| ≤ 1 / 2) (heven : |q - r| = 1 / 2 → Even r) : IsRounding r q := by
  refine ⟨fun k => ?_, fun k hk htie => heven ?_⟩
  · by_cases hk : k = r
    · rw [hk]
    · have hapart := one_le_abs_sub_add hk q
      linarith
  · have hapart := one_le_abs_sub_add hk q
    linarith

/-- Two roundings could only lie on both sides of the rational. Both would be even, and the integer
half way between them would be the rational itself. -/
theorem unique (hr : IsRounding r q) (hs : IsRounding s q) : r = s := by
  by_contra hne
  have htie : |q - r| = |q - s| := le_antisymm (hr.nearest s) (hs.nearest r)
  obtain ⟨a, rfl⟩ := hr.even_of_tie s (Ne.symm hne) htie.symm
  obtain ⟨b, rfl⟩ := hs.even_of_tie (a + a) hne htie
  have hmiddle : q = ((a + b : ℤ) : ℚ) := by
    rcases abs_eq_abs.1 htie with heq | hopposite
    · exact absurd (by exact_mod_cast sub_right_injective heq) hne
    · push_cast at hopposite ⊢
      linarith
  have hreached : q = ((a + a : ℤ) : ℚ) := by
    have hnearest := hr.nearest (a + b)
    rw [hmiddle, sub_self, abs_zero, ← hmiddle] at hnearest
    exact sub_eq_zero.1 (abs_nonpos_iff.1 hnearest)
  have hsame : a + b = a + a := by exact_mod_cast hmiddle.symm.trans hreached
  omega

end IsRounding

theorem IsNearest.isRounding {r n d : ℕ} (h : IsNearest r n d) (hd : 0 < d) :
    IsRounding r ((n : ℚ) / d) := by
  have hpos : (0 : ℚ) < d := by exact_mod_cast hd
  have hupper : 2 * ((r : ℚ) * d) ≤ 2 * n + d := by exact_mod_cast h.upper
  have hlower : 2 * (n : ℚ) ≤ 2 * (r * d) + d := by exact_mod_cast h.lower
  refine .of_half ?_ fun htie => ?_
  · rw [Int.cast_natCast, abs_le, le_sub_iff_add_le, le_div_iff₀ hpos, sub_le_iff_le_add,
      div_le_iff₀ hpos]
    constructor <;> linarith
  · have heven : r % 2 = 0 := by
      rw [Int.cast_natCast, abs_eq (by norm_num), sub_eq_iff_eq_add, sub_eq_iff_eq_add,
        div_eq_iff hpos.ne', div_eq_iff hpos.ne'] at htie
      rcases htie with habove | hbelow
      · have hscaled : 2 * (n : ℚ) = 2 * (r * d) + d := by linarith
        exact h.even_of_lower (by exact_mod_cast hscaled)
      · have hscaled : 2 * ((r : ℚ) * d) = 2 * n + d := by linarith
        exact h.even_of_upper (by exact_mod_cast hscaled)
    exact_mod_cast Nat.even_iff.2 heven

namespace Share

/-- A share is the one rounding of the exact quotient, capped at the largest amount. -/
theorem val_of_isRounding (part whole : Amount) {total : Amount} (h : 0 < total.val) :
    ∃ r : ℕ, (∀ k : ℤ, IsRounding k ((whole.val : ℚ) * part.val / total.val) ↔ k = r) ∧
      (of part total whole).val = min r Amount.top.val := by
  obtain ⟨r, hnearest, hval⟩ := isNearest_of part whole h
  have hround := hnearest.isRounding h
  rw [Nat.cast_mul] at hround
  refine ⟨r, fun k => ⟨fun hk => hk.unique hround, fun hk => hk ▸ hround⟩, ?_⟩
  rw [hval, Amount.val_cap, Amount.val_top]

/-- Where there is a total, a share is the rounding of the exact quotient, capped at the largest amount,
and grows with the part and with the whole. If a part beyond the total counts as the total, the share
is no more than the whole, and all of it once the part reaches the total. -/
theorem rounded_mono_bounded (part whole : Amount) {total : Amount} (h : 0 < total) :
    (∃ r : ℕ, (∀ k : ℤ, IsRounding k ((whole.val : ℚ) * part.val / total.val) ↔ k = r) ∧
        (of part total whole).val = min r Amount.top.val) ∧
      (∀ more, part ≤ more → of part total whole ≤ of more total whole) ∧
      (∀ more, whole ≤ more → of part total whole ≤ of part total more) ∧
      within part total whole ≤ whole ∧
      (total ≤ part → within part total whole = whole) := by
  refine ⟨val_of_isRounding part whole h, fun more hmore => ?_, fun more hmore => ?_,
    within_le part total whole, within_of_ge h⟩
  · exact of_mono hmore (Nat.le_refl whole.val)
  · exact of_mono (Nat.le_refl part.val) hmore

/-- Five halves lie as near to three as to two, which is even; of the largest amount they are capped. -/
theorem five_halves_rounded :
    0 < Amount.cap 2 ∧ Amount.cap 2 ≤ .cap 5 ∧ Amount.cap 5 ≤ .cap 7 ∧ 1 ≤ Amount.top ∧
      of (.cap 5) (.cap 2) 1 = .cap 2 ∧ IsRounding 2 (5 / 2) ∧
      of (.cap 5) (.cap 2) .top = .top ∧
      of (.cap 5) (.cap 2) 1 ≤ of (.cap 5) (.cap 2) .top ∧
      of (.cap 5) (.cap 2) 1 ≤ of (.cap 7) (.cap 2) 1 ∧
      within (.cap 5) (.cap 2) 1 ≤ 1 ∧ within (.cap 5) (.cap 2) 1 = 1 := by
  have htotal : 0 < Amount.cap 2 := by decide
  have hreached : Amount.cap 2 ≤ .cap 5 := by decide
  have hpart : Amount.cap 5 ≤ .cap 7 := by decide
  have hwhole : 1 ≤ Amount.top := by decide
  have htie : of (.cap 5) (.cap 2) 1 = .cap 2 := by decide
  have hcapped : of (.cap 5) (.cap 2) .top = .top := by decide
  obtain ⟨⟨r, hround, hval⟩, hparts, hwholes, hwithin, hfull⟩ :=
    rounded_mono_bounded (.cap 5) 1 htotal
  have hr : r = 2 := by
    rw [htie, Amount.val_cap, Amount.val_top] at hval
    omega
  have hfive : IsRounding 2 (5 / 2) := by
    have hquotient := (hround 2).2 (by rw [hr]; rfl)
    norm_num at hquotient
    exact hquotient
  exact ⟨htotal, hreached, hpart, hwhole, htie, hfive, hcapped, hwholes .top hwhole,
    hparts (.cap 7) hpart, hwithin, hfull hreached⟩

end Share

end LiquidityNet
