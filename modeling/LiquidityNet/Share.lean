import LiquidityNet.Amount

/-!
# Proportional shares

Products are formed exactly and narrowed once, at the end. A share is rounded to the nearest
amount, a half going to the even neighbour; a plain ratio is truncated.
-/

namespace LiquidityNet

/-- The integer nearest to `quo + rem / divisor`; of two equally near the even one. -/
def nearestEven (quo rem divisor : Nat) : Nat :=
  if divisor < 2 * rem ∨ (2 * rem = divisor ∧ quo % 2 = 1) then quo + 1 else quo

def Amount.nearest (quo rem divisor : Nat) : Amount := .cap (nearestEven quo rem divisor)

namespace Share

/-- The `part` of `total` applied to `whole`: `whole * part / total` to the nearest amount, and
zero where there is no part or no total. -/
def of (part total whole : Amount) : Amount :=
  if part = 0 ∨ total = 0 then 0
  else .nearest (whole.val * part.val / total.val) (whole.val * part.val % total.val) total.val

/-- The share of a part that counts as the whole once it exceeds the total. -/
def within (part total whole : Amount) : Amount := of (min part total) total whole

/-- Truncates `a * b / c`; zero where `c` is zero. -/
def truncated (a b c : Amount) : Amount :=
  if c = 0 then 0 else .cap (a.val * b.val / c.val)

end Share

/-- Whether `n` of `total` is at least two thirds of a set that is not empty. -/
def isSuperMajority (n total : Nat) : Bool := decide (total ≠ 0 ∧ total * 2 ≤ n * 3)

def basisPoints : Amount := ⟨10000, by decide⟩

def oneRune : Amount := ⟨100000000, by decide⟩

end LiquidityNet
