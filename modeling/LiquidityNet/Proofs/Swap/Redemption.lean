import Mathlib.Algebra.Order.Ring.Nat
import LiquidityNet.Proofs.Swap.Delivery

/-!
# Redemptions

A synth is redeemed at virtual depths, and only those bound what is given out. A swap formula gives
at most a quarter of the depth it reckons with, and rounding at most doubles that. So a pool covers
every redemption while depths are no more than doubled, and beyond that there are pools that do not:
there the RUNE of the pool stops at zero, although more was given out.
-/

namespace LiquidityNet

open Ledger

theorem Asset.isRune_of_synth {a : Asset} (h : a.synth = true) : a.isRune = false := by
  rw [isRune, h]
  rfl

namespace Swap

variable {m : SwapRequest} {source : Coin} {target : Asset} {limit fee multiplier : Amount}
  {s t u : Ledger} {p : Pool}

/-! ## The formula -/

/-- Virtual depths are the depths times the multiplier, to the nearest amount. -/
theorem virtualDepth_le (depth multiplier : Amount) :
    20000 * (virtualDepth depth multiplier).val ≤ 2 * (depth.val * multiplier.val) + 10000 := by
  have hhalf := Share.of_within_half multiplier basisPoints depth
  rwa [Nat.mul_assoc 2 depth.val] at hhalf

theorem virtualDepth_le_mul (depth : Amount) (times : Nat)
    (h : multiplier.val ≤ 10000 * times) :
    (virtualDepth depth multiplier).val ≤ times * depth.val := by
  have hle := virtualDepth_le depth multiplier
  have hscaled := Nat.mul_le_mul_left depth.val h
  rw [Nat.mul_left_comm, Nat.mul_comm depth.val times] at hscaled
  omega

/-- Less than half a unit is rounded to nothing, so rounding at most doubles an amount. -/
theorem toDecimals_le_double (amount : Amount) (decimals : Signed) :
    (toDecimals amount decimals).val ≤ 2 * amount.val := by
  obtain ⟨r, hr, heq⟩ := isNearest_toDecimals amount decimals
  rw [heq]
  exact Nat.le_trans (Amount.cap_le _) hr.mul_le_double

/-- The RUNE that a pool gives out for an amount of its synth. -/
def redeemed (p : Pool) (multiplier amount : Amount) : Amount :=
  toDecimals (emission (virtualDepth p.depth multiplier) amount (virtualDepth p.rune multiplier))
    p.decimals

theorem redeemed_le_of_doubled (p : Pool) (amount : Amount) (h : multiplier.val ≤ 20000) :
    redeemed p multiplier amount ≤ p.rune := by
  have hrounded : (redeemed p multiplier amount).val ≤ _ := toDecimals_le_double _ _
  have hquarter := four_mul_emission_le (virtualDepth p.depth multiplier) amount
    (virtualDepth p.rune multiplier)
  have hdepth := virtualDepth_le_mul p.rune 2 h
  rw [Amount.le_def]
  omega

/-- Where nothing is rounded, depths may be four times as deep. -/
theorem redeemed_le_of_unit (amount : Amount) (hunit : roundingUnit p.decimals = 1)
    (h : multiplier.val ≤ 40000) : redeemed p multiplier amount ≤ p.rune := by
  have hquarter := four_mul_emission_le (virtualDepth p.depth multiplier) amount
    (virtualDepth p.rune multiplier)
  have hdepth := virtualDepth_le_mul p.rune 4 h
  rw [redeemed, toDecimals_of_unit hunit, Amount.le_def]
  omega

theorem emission_self_val (depth : Amount) : (emission depth depth depth).val = depth.val / 4 := by
  rw [emission_val]
  rcases Nat.eq_zero_or_pos depth.val with hzero | hpos
  · rw [hzero]
  · rw [show (depth.val + depth.val) * (depth.val + depth.val) = depth.val * depth.val * 4 by
      rw [← Nat.two_mul]
      ac_rfl]
    exact Nat.mul_div_mul_left _ _ (Nat.mul_pos hpos hpos)

/-- A pool of less than one unit of its rounding on either side. -/
def dustPool : Pool :=
  { Pool.make (.of .btc "BTC") ⟨9999999, by decide⟩ ⟨9999999, by decide⟩ with decimals := 1 }

theorem dustPool_depth (h : 20000 < multiplier.val) :
    20000997 ≤ (virtualDepth dustPool.depth multiplier).val := by
  have hleast : 20000997 ≤ (virtualDepth dustPool.depth (.cap 20001)).val := by decide
  have hmore : Amount.cap 20001 ≤ multiplier := by
    rw [Amount.le_def, Amount.val_cap]
    omega
  have hgrown : virtualDepth dustPool.depth (.cap 20001) ≤ virtualDepth dustPool.depth multiplier :=
    Share.of_mono hmore (Nat.le_refl dustPool.depth.val)
  exact Nat.le_trans hleast hgrown

/-- Where depths are more than doubled, the formula gives more than half a unit out of the pool,
which is rounded up to one. -/
theorem dustPool_overdrawn (h : 20000 < multiplier.val) :
    dustPool.rune < redeemed dustPool multiplier (virtualDepth dustPool.depth multiplier) := by
  have hdepth := dustPool_depth h
  have hself := emission_self_val (virtualDepth dustPool.depth multiplier)
  have hunit : roundingUnit dustPool.decimals = 10000000 := rfl
  unfold redeemed
  rw [show dustPool.rune = dustPool.depth from rfl]
  generalize virtualDepth dustPool.depth multiplier = depth at *
  obtain ⟨r, hr, heq⟩ := isNearest_toDecimals (emission depth depth depth) dustPool.decimals
  have hlower := hr.lower
  rw [hself, hunit] at hlower
  rw [heq, hunit, Amount.lt_def, Amount.val_cap, show dustPool.depth.val = 9999999 from rfl]
  omega

/-- Pools cover all that is redeemed exactly if depths are at most doubled. -/
theorem redeemed_le_rune_iff :
    (∀ p amount, redeemed p multiplier amount ≤ p.rune) ↔ multiplier.val ≤ 20000 := by
  constructor
  · intro hall
    refine Nat.not_lt.1 fun h => ?_
    exact absurd (hall _ _) (Nat.not_le.2 (dustPool_overdrawn h))
  · exact fun h p amount => redeemed_le_of_doubled p amount h

/-! ## Hops -/

theorem quote_redeems {asset a : Asset} {amount : Amount} {q : Quote}
    (h : quote p asset a target amount multiplier = .ok q) (hsynth : a.synth = true) :
    q.emitted = redeemed p multiplier amount := by
  have hpriced : pricedDepths p a target multiplier =
      (virtualDepth p.depth multiplier, virtualDepth p.rune multiplier) := by
    simp only [pricedDepths, depths, hsynth, Asset.isRune_of_synth hsynth, Bool.true_or, if_true,
      Bool.false_eq_true, if_false]
  have hterms := (quote_terms h).2.1
  rwa [hpriced] at hterms

/-- A hop from a synth gives out what the formula says, and takes it from the pool as far as that
holds enough. -/
theorem hop_redeems {tx : Transaction} {r : HopResult}
    (h : hop tx source target limit fee multiplier s = (.ok r, t))
    (hsynth : source.asset.synth = true) :
    ∃ p q, Pools.find? source.asset.backing s = .ok (some p) ∧
      r.event.emitted = ⟨target, redeemed p multiplier source.amount⟩ ∧
      t.get? (Key.pool p.asset) = some (.pool q) ∧
      q.rune = p.rune.minus (redeemed p multiplier source.amount) := by
  have hbacking : poolAsset source.asset target = source.asset.backing := by
    simp only [poolAsset, Asset.isRune_of_synth hsynth, Bool.false_eq_true, if_false, hsynth,
      if_true]
  obtain ⟨p, q, hpool, -, -, hquote, -, hemitted, -, ⟨-, -, supply, -, rfl⟩ | ⟨hplain, -⟩⟩ :=
    hop_run h
  · have hterms := quote_redeems hquote hsynth
    rw [hbacking] at hpool
    rw [hterms] at hemitted
    refine ⟨p, _, hpool, hemitted, by rw [get?_putRecord, if_pos rfl], ?_⟩
    rw [tradedSynth, if_pos hsynth, hterms]
    rfl
  · rw [hsynth] at hplain
    cases hplain

/-- The first hop of a swap of anything but RUNE is to RUNE, or to the target that counts as
RUNE. -/
theorem hops_first {before : List HopResult} {last : HopResult}
    (h : hops m source fee multiplier s = (.ok (before, last), t))
    (hforeign : source.asset.isRune = false) :
    ∃ limit r u e rest, hop m.tx source (if m.target.isRune then m.target else .rune) limit fee
        multiplier s = (.ok r, u) ∧
      (before ++ [last]).map (·.event) = e :: rest ∧ e.emitted = r.event.emitted := by
  rcases hops_ok h with ⟨hrune, rfl, hhop⟩ | ⟨hnot, first, onward, u, rfl, hfirst, -⟩
  · rw [hforeign, Bool.false_or] at hrune
    rw [hrune]
    exact ⟨m.limit, last, t, last.event, [], hhop, rfl, rfl⟩
  · obtain ⟨r, hhop, hemitted, -⟩ := firstHop_ok hfirst
    rw [(Bool.or_eq_false_iff.1 hnot).2]
    exact ⟨0, r, u, first.event, [last.event], hhop, rfl, hemitted⟩

/-- A swap of a synth redeems it in its first hop. The pool loses the RUNE that this hop gives out
if it holds as much, and else all it has. It holds as much while depths are at most doubled, or
quadrupled where nothing is rounded. -/
theorem redemption_covered {o : Outcome} (h : handle m s = (.ok o, t))
    (hcoin : m.tx.coins.head? = some source) (hsynth : source.asset.synth = true) :
    ∃ multiplier p q e rest fee limit r u, depthMultiplier s = .ok multiplier ∧
      Pools.find? source.asset.backing s = .ok (some p) ∧
      o.events = e :: rest ∧ e.emitted.amount = redeemed p multiplier source.amount ∧
      hop m.tx source (if m.target.isRune then m.target else .rune) limit fee multiplier
        s.checkpointed = (.ok r, u) ∧ r.event.emitted = e.emitted ∧
      u.get? (Key.pool p.asset) = some (.pool q) ∧
      (e.emitted.amount ≤ p.rune → q.rune.val + e.emitted.amount.val = p.rune.val) ∧
      (p.rune < e.emitted.amount → q.rune = 0 ∧ 20000 < multiplier.val ∧
        (roundingUnit p.decimals = 1 → 40000 < multiplier.val)) := by
  have hforeign := Asset.isRune_of_synth hsynth
  obtain ⟨fee, multiplier, before, last, v, w, hmultiplier, hhops, hevents, -⟩ :=
    handle_hops h hcoin
  obtain ⟨limit, r, u, e, rest, hhop, hfirst, hemitted⟩ := hops_first hhops hforeign
  obtain ⟨p, q, hpool, hterms, hstored, hleft⟩ := hop_redeems hhop hsynth
  have hamount : e.emitted.amount = redeemed p multiplier source.amount := by
    rw [hemitted, hterms]
  rw [← hamount] at hleft
  refine ⟨multiplier, p, q, e, rest, fee, limit, r, u, hmultiplier, ?_, hevents.trans hfirst,
    hamount, hhop, hemitted.symm, hstored, fun hcovered => ?_, fun hover => ⟨?_, ?_, ?_⟩⟩
  · rw [← hpool]
    exact (Query.Steady.fetch? _ s).symm
  · rw [hleft, Amount.val_minus]
    exact Nat.sub_add_cancel hcovered
  · rw [hleft, ← Amount.val_inj, Amount.val_minus]
    exact Nat.sub_eq_zero_of_le (Nat.le_of_lt hover)
  · rw [hamount] at hover
    exact Nat.not_le.1 fun hle => absurd (redeemed_le_of_doubled p _ hle) (Nat.not_le.2 hover)
  · intro hunit
    rw [hamount] at hover
    exact Nat.not_le.1 fun hle => absurd (redeemed_le_of_unit _ hunit hle) (Nat.not_le.2 hover)

/-! At ten times the depth a quarter of the virtual depth is more than the pool has. -/

def deepCoin : Coin := ⟨bitcoinPool.asset.asSynth, .cap 100000000000⟩

def deepLedger : Ledger :=
  (((((poolLedger bitcoinPool).putRecord
    (Key.mimir Setting.virtualMultSynthsBasisPoints.name) (.number (.clamp 100000))).putRecord
      (Key.balance poolAccount .rune) (.amount deepCoin.amount))).putRecord
        (Key.balance poolAccount deepCoin.asset) (.amount deepCoin.amount)).putRecord
          (Key.supply deepCoin.asset) (.amount deepCoin.amount)

def deepSwap : SwapRequest :=
  { usdcSwap with
    tx := ⟨⟨"A1"⟩, some .thor, ⟨"thor1sender"⟩, ⟨"thor1vault"⟩, [deepCoin], [], ""⟩
    destination := ⟨"thor1dest"⟩ }

/-- The redemption gives out more RUNE than the pool held, which is left with none. -/
theorem deepSwap_overdraws :
    ∃ o t p q e rest fee limit r u, handle deepSwap deepLedger = (.ok o, t) ∧
      Pools.find? deepCoin.asset.backing deepLedger = .ok (some p) ∧ o.events = e :: rest ∧
      hop deepSwap.tx deepCoin .rune limit fee ⟨100000, by decide⟩ deepLedger.checkpointed =
        (.ok r, u) ∧ r.event.emitted = e.emitted ∧
      u.get? (Key.pool p.asset) = some (.pool q) ∧ p.rune < e.emitted.amount ∧ q.rune = 0 := by
  have hok : (handle deepSwap deepLedger).1.isOk = true := by decide +kernel
  have hdepths : (depthMultiplier deepLedger).toOption = some ⟨100000, by decide⟩ := by
    decide +kernel
  have hfound : (Pools.find? deepCoin.asset.backing deepLedger).toOption =
      some (some bitcoinPool) := by decide +kernel
  have hover : bitcoinPool.rune < redeemed bitcoinPool ⟨100000, by decide⟩ deepCoin.amount := by
    decide +kernel
  rcases hrun : handle deepSwap deepLedger with ⟨e | o, t⟩ <;> rw [hrun] at hok
  · cases hok
  · obtain ⟨multiplier, p, q, e, rest, fee, limit, r, u, hmultiplier, hpool, hevents, hterms, hhop,
      hemitted, hstored, -, hempty⟩ := redemption_covered hrun rfl rfl
    obtain rfl := Except.ok.inj (hmultiplier.symm.trans (eq_ok_of_toOption hdepths))
    obtain rfl := Option.some.inj (Except.ok.inj (hpool.symm.trans (eq_ok_of_toOption hfound)))
    rw [← hterms] at hover
    exact ⟨o, t, _, q, e, rest, fee, limit, r, u, rfl, hpool, hevents, hhop, hemitted, hstored,
      hover, (hempty hover).1⟩

end Swap

end LiquidityNet
