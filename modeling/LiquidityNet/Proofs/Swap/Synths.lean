import LiquidityNet.Proofs.Swap.Delivery

/-!
# Units for synths

A hop to a synth sets the synth units of its pool by the supply as it would stand once the whole
output is minted. A payout mints its output less a fee, though, so the units are those of a supply
that is greater by the fee. They are never fewer than the supply calls for, and as many where no
fee is taken.
-/

namespace LiquidityNet

open Ledger

variable {s t u v : Ledger}

/-- The synth units that a pool is to have for a supply of its synth. -/
def Pool.unitsAt (p : Pool) (supply : Nat) : Nat :=
  min (p.lpUnits.val * supply / max 1 (2 * p.depth.val - supply)) 0xffffffffffffffff

namespace Pool

variable {p : Pool}

theorem unitsAt_mono {m n : Nat} (h : m ≤ n) : p.unitsAt m ≤ p.unitsAt n := by
  have hdivisor : max 1 (2 * p.depth.val - n) ≤ max 1 (2 * p.depth.val - m) := by omega
  have hquotient : p.lpUnits.val * m / max 1 (2 * p.depth.val - m) ≤
      p.lpUnits.val * n / max 1 (2 * p.depth.val - n) :=
    Nat.div_le_div (Nat.mul_le_mul_left _ h) hdivisor (by omega)
  unfold unitsAt
  omega

theorem synthUnits_withSynthSupply (hdepth : p.depth ≠ 0) (hasset : p.asset.synth = false)
    (supply : Amount) : (p.withSynthSupply supply).synthUnits.val = p.unitsAt supply.val := by
  unfold withSynthSupply synthUnitsFor
  rw [if_neg]
  · rfl
  · rintro (hzero | hsynth)
    · exact hdepth hzero
    · rw [hasset] at hsynth
      cases hsynth

end Pool

namespace Swap

variable {m : SwapRequest} {source : Coin} {target : Asset} {limit fee multiplier : Amount}

theorem virtualDepth_zero (multiplier : Amount) : virtualDepth 0 multiplier = 0 :=
  (Share.of_comm multiplier basisPoints 0).trans (Share.of_zero_part basisPoints multiplier)

/-- A pool without the asset has no price from RUNE. -/
theorem depth_ne_zero_of_priced {p : Pool} {a : Asset} (hrune : a.isRune = true)
    (h : (pricedDepths p a target multiplier).2 ≠ 0) : p.depth ≠ 0 := by
  intro hzero
  refine h ?_
  have hdepths : (depths p a).2 = 0 := by rw [depths, if_pos hrune, hzero]
  unfold pricedDepths
  dsimp only
  split
  · exact (congrArg (virtualDepth · multiplier) hdepths).trans (virtualDepth_zero multiplier)
  · exact hdepths

/-- A hop from RUNE to a synth sets the units of the pool behind it by the supply together with what
the hop emits. -/
theorem hop_synthUnits {tx : Transaction} {r : HopResult} (hs : s.Filed)
    (hread : target.reread? = some target) (hsynth : target.synth = true)
    (hrune : source.asset.isRune = true)
    (h : hop tx source target limit fee multiplier s = (.ok r, t)) :
    ∃ p, t.get? (Key.pool target.backing) = some (.pool p) ∧ p.reread? = some p ∧
      p.synthUnits.val = p.unitsAt
        (min (s.supplyOf target + r.event.emitted.amount.val) 0xffffffffffffffff) := by
  obtain ⟨p, q, hpool, hlayer, -, hquote, -, hemitted, -, hcases⟩ := hop_run h
  have hplain : source.asset.synth = false := by
    unfold Asset.isRune at hrune
    simp only [Bool.and_eq_true, Bool.not_eq_true'] at hrune
    exact hrune.1
  have hbacking : poolAsset source.asset target = target.backing := by
    unfold poolAsset
    rw [if_pos hrune, if_pos hsynth]
  have hupper : Text.upper target.symbol = target.symbol := by
    obtain ⟨-, hsame⟩ := Asset.reread?_eq_some.1 hread
    exact (congrArg Asset.symbol hsame).symm
  have hown : target.backing = ⟨target.chain, target.symbol, false⟩ := by
    rw [Asset.backing, if_pos hsynth, Asset.of, hupper]
  rw [hbacking] at hpool
  have hasset : p.asset = target.backing := by
    rw [(Pools.isReadable_of_find? hs hpool).2, hown, hupper]
  have htarget : p.asset.asSynth = target := by
    rw [hasset, hown, Asset.asSynth, Asset.synthOf, hupper, ← hsynth]
  rcases hcases with ⟨-, -, supply, hsupply, rfl⟩ | ⟨hnone, -⟩
  · rw [htarget, hs.readsAmounts.supply] at hsupply
    obtain rfl := Except.ok.inj hsupply
    let grown : Pool := { p with rune := p.rune.plus source.amount }
    let supply := s.amountAt (Key.supply target)
    have htraded : tradedSynth p source.asset source.amount q.emitted supply =
        grown.withSynthSupply (supply.plus q.emitted) := by
      rw [tradedSynth, if_neg (Bool.eq_false_iff.1 hplain)]
    have hdepth : p.depth ≠ 0 := depth_ne_zero_of_priced hrune (quote_sides hquote).2
    rw [htraded]
    refine ⟨grown.withSynthSupply (supply.plus q.emitted), ?_, ?_, ?_⟩
    · rw [← hasset, get?_putRecord, if_pos rfl]
    · have hself := Pools.reread?_of_find? hpool
      exact Option.map_eq_some_iff.2 ⟨p.asset, hself, rfl⟩
    · rw [Pool.synthUnits_withSynthSupply (p := grown) hdepth hlayer, hemitted]
      rfl
  · rw [hsynth, Bool.or_true] at hnone
    cases hnone

/-- After the hops of a swap to a synth the units of its pool are those of the supply together with
all that the swap emits. -/
theorem hops_synthUnits {before : List HopResult} {last : HopResult} (hs : s.Filed)
    (hread : m.target.reread? = some m.target) (hsynth : m.target.synth = true)
    (h : hops m source fee multiplier s = (.ok (before, last), t)) :
    ∃ p, t.get? (Key.pool m.target.backing) = some (.pool p) ∧ p.reread? = some p ∧
      p.synthUnits.val = p.unitsAt
        (min (s.supplyOf m.target + last.event.emitted.amount.val) 0xffffffffffffffff) := by
  have hforeign : m.target.isRune = false := by
    rw [Asset.isRune, hsynth]
    rfl
  rcases hops_ok h with ⟨hrune, -, hhop⟩ | ⟨-, first, onward, u, -, hfirst, hlast⟩
  · rw [hforeign, Bool.or_false] at hrune
    exact hop_synthUnits hs hread hsynth hrune hhop
  · obtain ⟨r, hhop, hemitted, -⟩ := firstHop_ok hfirst
    have hchanges := (hop_confined _ _ _ _ _ _).changes hhop
    have hrune : first.event.emitted.asset.isRune = true := by
      rw [hemitted, hop_emitted hhop]
      rfl
    obtain ⟨p, hp, hself, hunits⟩ :=
      hop_synthUnits (hchanges.filed hs) hread hsynth hrune hlast
    refine ⟨p, hp, hself, ?_⟩
    have hsame : u.supplyOf m.target = s.supplyOf m.target :=
      congrArg Amount.val
        (amountAt_congr (hchanges.get?_eq (Table.ofKey?_supply m.target) (by decide)))
    rw [hunits, hsame]

/-- The supply of a synth grows by what was emitted less a fee, and none is taken of what stays. -/
theorem Delivers.synth_minted {burned : List Coin} {emitted : Amount}
    (h : Delivers m source emitted burned s u v t) (hsynth : m.target.synth = true) :
    ∃ fee : Amount, (fee = 0 ∨ fee < emitted) ∧ (m.destination.isNoop = true → fee = 0) ∧
      t.supplyOf m.target =
        min (s.supplyOf m.target + (emitted.minus fee).val) 0xffffffffffffffff := by
  have hrune : m.target ≠ .rune := Asset.ne_rune_of_synth hsynth
  have hbefore := h.supplies m.target hrune
  have hafter := (h.ended_target poolAccount).2
  cases hnoop : m.destination.isNoop with
  | true =>
    obtain ⟨x, y, hmint, hmoved, htold⟩ := h.minted hnoop hsynth
    refine ⟨0, .inl rfl, fun _ => rfl, ?_⟩
    have hgrown : x.supplyOf m.target =
        min (u.supplyOf m.target + emitted.val) 0xffffffffffffffff :=
      (Bank.mint_credits h.filed.readsAmounts hmint).2
    have hkept := (Bank.transferCoin_spares (Key.balance_ne_supply _ _ _).symm
      (Key.balance_ne_supply _ _ _).symm).amountAt_eq hmoved (k := Key.supply m.target)
    have hend := (Action.Spares.emit _).amountAt_eq htold (k := Key.supply m.target)
    have hsame : v.supplyOf m.target = x.supplyOf m.target :=
      congrArg Amount.val (hend.trans hkept)
    rw [hafter, ← hbefore, hsame, hgrown]
    rfl
  | false =>
    obtain ⟨fee, hfee, -, hplaced⟩ := deliver_placed h.delivered hnoop
    refine ⟨fee, hfee, nofun, ?_⟩
    have hhome : m.target.isNative = true := by
      rw [Asset.isNative, Asset.homeChain, if_pos hsynth]
      rfl
    have hpayer : (answer m (emitted.minus fee)).payer = some Module.thorchain := by
      have hminted :
          (m.target.homeChain.isHome && (m.target.synth || m.target.isDerived)) = true := by
        rw [hsynth, Bool.true_or, Bool.and_true]
        exact hhome
      exact if_pos hminted
    obtain ⟨hsettled, -⟩ := Payout.place_home_ok (o := answer m (emitted.minus fee)) hhome hplaced
    have hgrown := Payout.settle_mints h.filed hsettled hpayer
    rw [hafter, ← hbefore]
    exact hgrown

/-- After a swap to a synth the units of its pool are those of the supply before it together with
all that it emitted, while the supply grows by what it emitted less a fee. So the units are at least
those of the supply, and just those where no fee was taken. -/
theorem synthUnits_after {o : Outcome} (hs : s.Filed) (hm : m.reread? = some m)
    (h : handle m s = (.ok o, t)) (hsynth : m.target.synth = true) :
    ∃ (p : Pool) (fee : Amount), Pools.find? m.target.backing t = .ok (some p) ∧
      (fee = 0 ∨ fee < o.emitted) ∧ (m.destination.isNoop = true → fee = 0) ∧
      t.supplyOf m.target =
        min (s.supplyOf m.target + (o.emitted.minus fee).val) 0xffffffffffffffff ∧
      p.synthUnits.val =
        p.unitsAt (min (s.supplyOf m.target + o.emitted.val) 0xffffffffffffffff) ∧
      p.unitsAt (t.supplyOf m.target) ≤ p.synthUnits.val ∧
      (fee = 0 → p.synthUnits.val = p.unitsAt (t.supplyOf m.target)) := by
  obtain ⟨source, hcoin⟩ := handle_head h
  obtain ⟨burned, u, v, d⟩ := handle_delivers hs hm h hcoin
  obtain ⟨fee, hfee, hnoop, hsupply⟩ := d.synth_minted hsynth
  obtain ⟨outboundFee, multiplier, x, -, hrun, hcommit⟩ := handle_ok h
  obtain ⟨coin, before, last, r, w, y, -, -, hhops, -, hpublish, hdeliver, hburn, hemitted⟩ :=
    execute_ok hrun
  obtain ⟨p, hp, hself, hunits⟩ :=
    hops_synthUnits hs.checkpointed (SwapRequest.assets_of_reread? hm).2 hsynth hhops
  have hstored : t.get? (Key.pool m.target.backing) = some (.pool p) := by
    have hsettled := settled_changes hpublish hdeliver hburn
    rw [hcommit.get?, hsettled.get?_eq (Table.ofKey?_pool _) (by decide), hp]
  have hsame : s.checkpointed.supplyOf m.target = s.supplyOf m.target :=
    congrArg Amount.val (amountAt_congr (s.get?_checkpointed _))
  rw [hsame, ← hemitted] at hunits
  refine ⟨p, fee, Pools.find?_eq_some.2 ⟨p, hstored, hself⟩, hfee, hnoop, hsupply, hunits, ?_, ?_⟩
  · rw [hunits, hsupply]
    refine Pool.unitsAt_mono ?_
    rw [Amount.val_minus]
    omega
  · rintro rfl
    rw [hunits, hsupply]
    rfl

/-! Synthetic bitcoin is minted for someone, net of a fee. -/

def mintingSwap : SwapRequest :=
  { stayingSwap with
    target := bitcoinPool.asset.asSynth
    destination := ⟨"thor1dest"⟩ }

/-- The pool has the units of all that was emitted, although less was minted. -/
theorem mintingSwap_overstates :
    ∃ o t p, handle mintingSwap (poolLedger bitcoinPool) = (.ok o, t) ∧
      Pools.find? mintingSwap.target.backing t = .ok (some p) ∧
      p.unitsAt (t.supplyOf mintingSwap.target) < p.synthUnits.val := by
  have hok : ((handle mintingSwap (poolLedger bitcoinPool)).1.map (·.emitted.val)).toOption =
      some 4444444444 := by decide +kernel
  have hless : ((Pools.find? mintingSwap.target.backing
      (handle mintingSwap (poolLedger bitcoinPool)).2).toOption.map fun found => found.map fun p =>
        decide (p.unitsAt ((handle mintingSwap (poolLedger bitcoinPool)).2.supplyOf
          mintingSwap.target) < p.unitsAt 4444444444)) = some (some true) := by decide +kernel
  have hnone : (poolLedger bitcoinPool).supplyOf mintingSwap.target = 0 := by decide +kernel
  rcases hrun : handle mintingSwap (poolLedger bitcoinPool) with ⟨e | o, t⟩ <;>
    rw [hrun] at hok hless
  · cases hok
  · obtain ⟨p, fee, hp, -, -, -, hunits, -, -⟩ :=
      synthUnits_after (filed_poolLedger bitcoinPool) (by decide +kernel) hrun rfl
    have hemitted : o.emitted.val = 4444444444 := Option.some.inj hok
    rw [hp] at hless
    refine ⟨o, t, p, rfl, hp, ?_⟩
    rw [hunits, hnone, hemitted]
    exact of_decide_eq_true (Option.some.inj (Option.some.inj hless))

end Swap

end LiquidityNet
