import LiquidityNet.Proofs.Swap.Formulas
import LiquidityNet.Proofs.Swap.Hops

/-!
# The product of a pool

A swap at the truncated emission never shrinks the product of the two sides of a pool, since the
fee stays behind. What a pool gives out is rounded to the decimals of its asset, though, and may be
rounded up. The product then shrinks exactly if more leaves than the constant product allows, and
by at most half a unit of the rounding for each unit of the side that grew.
-/

namespace LiquidityNet

def Pool.product (p : Pool) : Nat := p.rune.val * p.depth.val

namespace Swap

variable {p : Pool} {a : Asset} {amount emitted depthIn depthOut : Amount}

theorem product_eq_depths (p : Pool) (a : Asset) :
    p.product = (depths p a).1.val * (depths p a).2.val := by
  unfold depths
  split
  · rfl
  · exact Nat.mul_comm _ _

theorem product_traded (p : Pool) (a : Asset) (amount emitted : Amount) :
    (traded p a amount emitted).product =
      ((depths p a).1.plus amount).val * ((depths p a).2.minus emitted).val := by
  unfold depths traded
  split
  · rfl
  · exact Nat.mul_comm _ _

/-! ## Rounding -/

/-- What an output is rounded to a multiple of: one where it is not rounded. -/
def roundingUnit (decimals : Signed) : Nat :=
  if decimals.val ≤ 0 ∨ 8 ≤ decimals.val then 1 else Nat.pow 10 (8 - decimals.val).toNat

theorem toDecimals_of_unit {decimals : Signed} (h : roundingUnit decimals = 1) :
    toDecimals amount decimals = amount := by
  unfold toDecimals
  split
  · rfl
  · rename_i hrounded
    rw [roundingUnit, if_neg hrounded, Nat.pow_eq, Nat.pow_eq_one] at h
    omega

/-- An output is rounded to the nearest multiple of the unit, capped at the largest amount. -/
theorem isNearest_toDecimals (amount : Amount) (decimals : Signed) :
    ∃ r, IsNearest r amount.val (roundingUnit decimals) ∧
      toDecimals amount decimals = .cap (r * roundingUnit decimals) := by
  unfold toDecimals roundingUnit
  split
  · refine ⟨amount.val, ?_, ?_⟩
    · have hnearest := IsNearest.of_mul amount.val Nat.one_pos
      rwa [Nat.mul_one] at hnearest
    · rw [Nat.mul_one, Amount.cap_val]
  · have hpos : 0 < Nat.pow 10 (8 - decimals.val).toNat := Nat.pow_pos (by decide)
    have hnearest := isNearest_nearestEven amount.val hpos
    refine ⟨_, hnearest, ?_⟩
    -- The quotient is no more than the amount, so it is not capped before it is multiplied.
    have hfit := hnearest.le hpos (Nat.le_mul_of_pos_right amount.val hpos)
    have hlimit := amount.isLt
    simp only [Amount.nearest, Amount.val_cap]
    rw [Nat.min_eq_left (by omega)]

/-- Rounding adds half a unit at most. -/
theorem toDecimals_le (amount : Amount) (decimals : Signed) :
    2 * (toDecimals amount decimals).val ≤ 2 * amount.val + roundingUnit decimals := by
  obtain ⟨r, hr, heq⟩ := isNearest_toDecimals amount decimals
  have hcap := Amount.cap_le (r * roundingUnit decimals)
  have hupper := hr.upper
  rw [heq]
  omega

/-! ## Hops -/

/-- A trade adds to the product what comes in, times the depth it meets, and takes from it what
leaves, times the depth that is left. -/
theorem product_traded_add (hfit : (depths p a).1.val + amount.val < 0x10000000000000000)
    (hless : emitted < (depths p a).2) :
    (traded p a amount emitted).product + emitted.val * ((depths p a).1.val + amount.val) =
      p.product + amount.val * (depths p a).2.val := by
  have hrest : (depths p a).2.val - emitted.val + emitted.val = (depths p a).2.val :=
    Nat.sub_add_cancel (Nat.le_of_lt hless)
  rw [product_traded, product_eq_depths p a, Amount.val_plus, Amount.val_minus,
    Nat.min_eq_left (by omega), Nat.mul_comm emitted.val, ← Nat.mul_add, hrest, Nat.add_mul]

/-- A trade shrinks the product exactly if more leaves than the constant product allows. -/
theorem product_le_traded (hfit : (depths p a).1.val + amount.val < 0x10000000000000000)
    (hless : emitted < (depths p a).2) :
    p.product ≤ (traded p a amount emitted).product ↔
      emitted.val * ((depths p a).1.val + amount.val) ≤ amount.val * (depths p a).2.val := by
  have hbalance := product_traded_add hfit hless
  omega

/-- What leaves beyond the truncated emission shrinks the product by the depth it leaves behind. -/
theorem product_le_traded_add (hfit : (depths p a).1.val + amount.val < 0x10000000000000000)
    (hless : emitted < (depths p a).2) {unit : Nat}
    (h : 2 * emitted.val ≤ 2 * (emission (depths p a).1 amount (depths p a).2).val + unit) :
    2 * p.product ≤
      2 * (traded p a amount emitted).product + unit * ((depths p a).1.val + amount.val) := by
  have hbalance := product_traded_add hfit hless
  have hallowed := emission_mul_le (depths p a).1 amount (depths p a).2
  have hscaled := Nat.mul_le_mul_right ((depths p a).1.val + amount.val) h
  rw [Nat.add_mul, Nat.mul_assoc, Nat.mul_assoc] at hscaled
  omega

/-- A swap between RUNE and an asset that is no synth stores its pool as traded, and what it gives
out is the emission, rounded to the decimals of the pool. -/
theorem handle_hop_ok {m : SwapRequest} {source : Coin} {o : Outcome} {s t : Ledger}
    (h : handle m s = (.ok o, t)) (hcoin : m.tx.coins.head? = some source)
    (hrune : (source.asset.isRune || m.target.isRune) = true)
    (hsource : source.asset.synth = false) (htarget : m.target.synth = false) :
    ∃ p, Pools.find? (poolAsset source.asset m.target) s = .ok (some p) ∧
      t.get? (Key.pool p.asset) = some (.pool (traded p source.asset source.amount o.emitted)) ∧
      o.emitted = toDecimals
        (emission (depths p source.asset).1 source.amount (depths p source.asset).2) p.decimals ∧
      o.emitted < (depths p source.asset).2 := by
  obtain ⟨fee, multiplier, u, -, hrun, hcommit⟩ := handle_ok h
  obtain ⟨coin, before, last, v, w, x, hhead, -, hhops, -, hpublish, hdeliver, hburn, hemitted⟩ :=
    execute_ok hrun
  obtain rfl : source = coin := Option.some.inj (hcoin.symm.trans hhead)
  rcases hops_ok hhops with ⟨-, rfl, hhop⟩ | ⟨hnot, -⟩
  · obtain ⟨p, q, hpool, hquote, hout, -, -, rfl⟩ := hop_ok hhop hsource htarget
    obtain ⟨hterms, hless⟩ := quote_eq_ok hquote hsource htarget
    have heq : o.emitted = q.emitted := by rw [hemitted, hout]
    rw [heq]
    refine ⟨p, ?_, ?_, hterms, hless⟩
    · rw [← hpool]
      exact (Query.Steady.fetch? _ s).symm
    · have hchanges := settled_changes hpublish hdeliver hburn
      rw [hcommit.get?, hchanges.get?_eq (Table.ofKey?_pool p.asset) (by decide),
        Ledger.get?_putRecord, if_pos rfl]
  · rw [hrune] at hnot
    cases hnot

/-- A swap between RUNE and an asset that is no synth shrinks the product of its pool exactly if it
gives out more than the constant product allows. It never does where nothing is rounded, and else it
shrinks the product by at most half a unit of the rounding for each unit of the side that grew. -/
theorem product_after_hop {m : SwapRequest} {source : Coin} {o : Outcome} {s t : Ledger}
    (h : handle m s = (.ok o, t)) (hcoin : m.tx.coins.head? = some source)
    (hrune : (source.asset.isRune || m.target.isRune) = true)
    (hsource : source.asset.synth = false) (htarget : m.target.synth = false) :
    ∃ p q, Pools.find? (poolAsset source.asset m.target) s = .ok (some p) ∧
      t.get? (Key.pool p.asset) = some (.pool q) ∧
      q = traded p source.asset source.amount o.emitted ∧
      ((depths p source.asset).1.val + source.amount.val < 0x10000000000000000 →
        (p.product ≤ q.product ↔
          o.emitted.val * ((depths p source.asset).1.val + source.amount.val) ≤
            source.amount.val * (depths p source.asset).2.val) ∧
        (roundingUnit p.decimals = 1 → p.product ≤ q.product) ∧
        2 * p.product ≤ 2 * q.product +
          roundingUnit p.decimals * ((depths p source.asset).1.val + source.amount.val)) := by
  obtain ⟨p, hpool, hstored, hterms, hless⟩ := handle_hop_ok h hcoin hrune hsource htarget
  refine ⟨p, _, hpool, hstored, rfl, fun hfit => ⟨product_le_traded hfit hless, ?_, ?_⟩⟩
  · intro hunit
    rw [product_le_traded hfit hless, hterms, toDecimals_of_unit hunit]
    exact emission_mul_le _ _ _
  · refine product_le_traded_add hfit hless ?_
    rw [hterms]
    exact toDecimals_le _ _

/-! A deep pool whose asset has six decimals gives out more than its product allows. -/

/-- A single pool, with its RUNE in the account of the pools. -/
def poolLedger (p : Pool) : Ledger :=
  ((Ledger.empty (.ofEnvironment .mocknet) 1).putRecord (Key.pool p.asset) (.pool p)).putRecord
    (Key.balance (.ofModule Module.asgard) .rune) (.amount p.rune)

def usdc : Asset := .of .eth "USDC"

def usdcPool : Pool :=
  { Pool.make usdc ⟨1000000000000000, by decide⟩ ⟨1000000000000000, by decide⟩ with
    decimals := .clamp 6 }

def usdcCoin : Coin := ⟨usdc, ⟨100000090, by decide⟩⟩

def usdcSwap : SwapRequest where
  tx := ⟨.blank, some .eth, ⟨"0xsender"⟩, ⟨"0xvault"⟩, [usdcCoin], [], ""⟩
  target := .rune
  destination := ⟨"thor1dest"⟩
  limit := 0
  signer := ⟨"thor1sender"⟩
  aggregator := none
  aggregatorAsset := none
  aggregatorLimit := none

theorem usdcSwap_shrinks :
    ∃ o t q, handle usdcSwap (poolLedger usdcPool) = (.ok o, t) ∧
      t.get? (Key.pool usdc) = some (.pool q) ∧ q.product < usdcPool.product := by
  have hemitted : ((handle usdcSwap (poolLedger usdcPool)).1.map (·.emitted.val)).toOption =
      some 100000100 := by decide +kernel
  rcases hrun : handle usdcSwap (poolLedger usdcPool) with ⟨r, t⟩
  rw [hrun] at hemitted
  cases r with
  | error e => cases hemitted
  | ok o =>
    have hvalue : o.emitted.val = 100000100 := Option.some.inj hemitted
    obtain ⟨p, q, hpool, hstored, -, hproduct⟩ :=
      product_after_hop hrun rfl (by decide +kernel) rfl rfl
    have hfound : (Pools.find? (poolAsset usdcCoin.asset usdcSwap.target) (poolLedger usdcPool)).toOption =
        some (some usdcPool) := by decide +kernel
    rw [hpool] at hfound
    obtain rfl : p = usdcPool := Option.some.inj (Option.some.inj hfound)
    refine ⟨o, t, q, rfl, hstored, Nat.not_le.1 fun hle => ?_⟩
    have hallowed := (hproduct (by decide +kernel)).1.1 hle
    rw [hvalue] at hallowed
    exact absurd hallowed (by decide +kernel)

end Swap

end LiquidityNet
