import LiquidityNet.Proofs.Swap.Redemption

/-!
# RUNE that enters the pools

A hop from RUNE adds to the RUNE of its pool, and one to RUNE takes from it. RUNE is told by its
symbol here, so RUNE of any chain enters the pools as native RUNE does. What goes through two pools
leaves one for the other, and is added to the second in full even if the first held less.
-/

namespace LiquidityNet.Swap

open Ledger

variable {m : SwapRequest} {source : Coin} {target a : Asset} {limit fee multiplier : Amount}
  {s t u : Ledger} {p : Pool}

theorem upper_poolAsset (hsource : a.reread? = some a) (htarget : target.reread? = some target) :
    Text.upper (poolAsset a target).symbol = (poolAsset a target).symbol := by
  have hupper : ∀ b : Asset, b.reread? = some b → Text.upper b.symbol = b.symbol := fun b hb =>
    (congrArg Asset.symbol (Asset.reread?_eq_some.1 hb).2).symm
  have hpool : ∀ b : Asset, b.reread? = some b →
      Text.upper (if b.synth then b.backing else b).symbol =
        (if b.synth then b.backing else b).symbol := by
    intro b hb
    split
    · rename_i hsynth
      rw [Asset.backing, if_pos hsynth]
      exact Text.upper_upper _
    · exact hupper b hb
  unfold poolAsset
  split
  · exact hpool target htarget
  · exact hpool a hsource

/-- The RUNE of a pool after a hop. -/
def runeAfter (p : Pool) (source : Coin) (emitted : Amount) : Amount :=
  if source.asset.isRune then p.rune.plus source.amount else p.rune.minus emitted

/-- A hop changes the RUNE of its pool in the same way whether a synth is involved or not. -/
theorem tradedSynth_rune {source : Coin}
    (hrune : (source.asset.isRune || target.isRune) = true)
    (hsynth : (source.asset.synth || target.synth) = true) (emitted supply : Amount) :
    (tradedSynth p source.asset source.amount emitted supply).rune =
      runeAfter p source emitted := by
  unfold tradedSynth runeAfter
  cases hplain : source.asset.synth with
  | true =>
    rw [Asset.isRune_of_synth hplain]
    rfl
  | false =>
    rw [hplain, Bool.false_or] at hsynth
    rw [Asset.isRune_of_synth hsynth, Bool.or_false] at hrune
    rw [hrune]
    rfl

/-- A hop from or to RUNE changes the RUNE of all pools as it changes that of its own. Where it
starts from an asset of layer 1, or depths are at most doubled, it takes no more from the pool than
that holds. -/
theorem hop_pooled_add {tx : Transaction} {r : HopResult} (hs : s.Filed)
    (hsource : source.asset.reread? = some source.asset) (htarget : target.reread? = some target)
    (hrune : (source.asset.isRune || target.isRune) = true)
    (h : hop tx source target limit fee multiplier s = (.ok r, t)) :
    ∃ p, Pools.find? r.event.pool s = .ok (some p) ∧ source.amount ≠ 0 ∧
      p.rune.val ≤ s.pooled ∧
      t.pooled + p.rune.val =
        s.pooled + (runeAfter p source r.event.emitted.amount).val ∧
      (source.asset.isRune = false → source.asset.synth = false ∨ multiplier.val ≤ 20000 →
        r.event.emitted.amount ≤ p.rune) := by
  obtain ⟨p, q, hpool, -, -, hquote, -, hemitted, hevent, hcases⟩ := hop_run h
  have hown : p.asset = poolAsset source.asset target := by
    rw [(Pools.isReadable_of_find? hs hpool).2, upper_poolAsset hsource htarget]
  have hout : r.event.emitted.amount = q.emitted := by rw [hemitted]
  have hstored := pooled_putRecord (hown ▸ hpool)
  rw [hout, hevent]
  refine ⟨p, hpool, (quote_terms hquote).1, ?_, ?_, fun hforeign hcovered => ?_⟩
  · have hdrained := hstored { p with rune := 0 }
    simp only [Amount.val_zero] at hdrained
    omega
  · rcases hcases with ⟨hsynth, -, supply, -, rfl⟩ | ⟨-, -, rfl⟩
    · rw [hstored, tradedSynth_rune hrune hsynth]
    · rw [hstored, traded_rune]
      rfl
  · cases hsynth : source.asset.synth with
    | true =>
      rw [quote_redeems hquote hsynth]
      rcases hcovered with hplain | hdoubled
      · rw [hsynth] at hplain
        cases hplain
      · exact redeemed_le_of_doubled p _ hdoubled
    | false =>
      have hlayer : target.synth = false := by
        refine Bool.eq_false_iff.2 fun htrue => ?_
        rw [hforeign, Asset.isRune_of_synth htrue] at hrune
        cases hrune
      have hless := (quote_eq_ok hquote hsynth hlayer).2
      rw [depths, if_neg (Bool.eq_false_iff.1 hforeign)] at hless
      exact Nat.le_of_lt hless

/-- Whether a swap adds nothing to the RUNE of the pools, if its first hop gives `emitted` out of
`p`: no RUNE may come in, and what goes on to a second pool has to leave the first. -/
def AddsNothing (m : SwapRequest) (source : Coin) (p : Pool) (emitted : Amount) : Prop :=
  source.asset.isRune = false ∧ (m.target.isRune = true ∨ emitted ≤ p.rune)

/-- The hops of a swap add nothing to the RUNE of the pools exactly under that condition, as long as
no pool reaches the largest amount. -/
theorem hops_pooled_le {before : List HopResult} {last : HopResult} (hs : s.Filed)
    (hsource : source.asset.reread? = some source.asset)
    (htarget : m.target.reread? = some m.target)
    (h : hops m source fee multiplier s = (.ok (before, last), t)) :
    ∃ p e rest, (before ++ [last]).map (·.event) = e :: rest ∧
      Pools.find? e.pool s = .ok (some p) ∧
      (source.asset.isRune = false → source.asset.synth = false ∨ multiplier.val ≤ 20000 →
        e.emitted.amount ≤ p.rune) ∧
      (AddsNothing m source p e.emitted.amount → t.pooled ≤ s.pooled) ∧
      (s.pooled + source.amount.val + e.emitted.amount.val < 0x10000000000000000 →
        t.pooled ≤ s.pooled → AddsNothing m source p e.emitted.amount) := by
  rcases hops_ok h with ⟨hrune, rfl, hhop⟩ | ⟨hnot, first, onward, u, rfl, hfirst, hlast⟩
  · obtain ⟨p, hpool, hamount, hle, hsum, hcovered⟩ :=
      hop_pooled_add hs hsource htarget hrune hhop
    have hpos : 0 < source.amount.val := Nat.pos_of_ne_zero fun h => hamount (Amount.val_inj.1 h)
    refine ⟨p, last.event, [], rfl, hpool, hcovered, fun hnothing => ?_, fun hroom hgrown => ?_⟩
    · rw [runeAfter, if_neg (Bool.eq_false_iff.1 hnothing.1), Amount.val_minus] at hsum
      omega
    · cases hforeign : source.asset.isRune with
      | false =>
        rw [hforeign, Bool.false_or] at hrune
        exact ⟨hforeign, .inl hrune⟩
      | true =>
        rw [runeAfter, if_pos hforeign, Amount.val_plus] at hsum
        omega
  · obtain ⟨r, hhop, hemitted, hevent, -, -⟩ := firstHop_ok hfirst
    obtain ⟨hforeign, honward⟩ := Bool.or_eq_false_iff.1 hnot
    obtain ⟨p, hpool, -, hle, hsum, hcovered⟩ :=
      hop_pooled_add hs hsource Asset.reread?_rune (Bool.or_true _) hhop
    have hasset : first.event.emitted.asset = .rune := by
      rw [hemitted, hop_emitted hhop]
    have hu : u.Filed := ((hop_confined _ _ _ _ _ _).changes hhop).filed hs
    obtain ⟨q, -, -, hle', hsum', -⟩ :=
      hop_pooled_add hu (by rw [hasset]; exact Asset.reread?_rune) htarget
        (by rw [hasset]; rfl) hlast
    rw [runeAfter, if_neg (Bool.eq_false_iff.1 hforeign), Amount.val_minus] at hsum
    rw [runeAfter, if_pos (by rw [hasset]; rfl), Amount.val_plus, hemitted] at hsum'
    refine ⟨p, first.event, [last.event], rfl, hevent ▸ hpool, fun hnone hlayer => ?_,
      fun hnothing => ?_, fun hroom hgrown => ⟨hforeign, .inr ?_⟩⟩
    · rw [hemitted]
      exact hcovered hnone hlayer
    · rcases hnothing.2 with hrune | hless
      · rw [hrune] at honward
        cases honward
      · rw [hemitted, Amount.le_def] at hless
        omega
    · rw [hemitted] at hroom ⊢
      rw [Amount.le_def]
      omega

/-- A swap adds nothing to the RUNE of the pools if no RUNE of any chain comes in and what goes on
to a second pool leaves the first, and, as long as no pool reaches the largest amount, only then.
What goes on always leaves the first pool if it came in as an asset of layer 1, and if depths are
at most doubled. -/
theorem pooled_after {o : Outcome} (hs : s.Filed) (hm : m.reread? = some m)
    (h : handle m s = (.ok o, t)) (hcoin : m.tx.coins.head? = some source) :
    ∃ multiplier p e rest, depthMultiplier s = .ok multiplier ∧ o.events = e :: rest ∧
      Pools.find? e.pool s = .ok (some p) ∧
      (source.asset.isRune = false → source.asset.synth = false ∨ multiplier.val ≤ 20000 →
        AddsNothing m source p e.emitted.amount) ∧
      (AddsNothing m source p e.emitted.amount → t.pooled ≤ s.pooled) ∧
      (s.pooled + source.amount.val + e.emitted.amount.val < 0x10000000000000000 →
        t.pooled ≤ s.pooled → AddsNothing m source p e.emitted.amount) := by
  obtain ⟨fee, multiplier, before, last, u, v, hmultiplier, hhops, hevents, hchanges, hcommit⟩ :=
    handle_hops h hcoin
  have hsource := SwapRequest.coin_reread? hm (List.mem_of_head? hcoin)
  obtain ⟨p, e, rest, hfirst, hpool, hcovered, hkept, hnothing⟩ :=
    hops_pooled_le hs.checkpointed hsource (SwapRequest.assets_of_reread? hm).2 hhops
  have hend : t.pooled = u.pooled := by
    rw [pooled_congr hcommit.get?, pooled_of_changes hchanges (by decide)]
  rw [← hend, pooled_congr s.get?_checkpointed] at hkept hnothing
  refine ⟨multiplier, p, e, rest, hmultiplier, hevents.trans hfirst, ?_,
    fun hforeign hlayer => ⟨hforeign, .inr (hcovered hforeign hlayer)⟩, hkept, hnothing⟩
  rw [← hpool]
  exact (Query.Steady.fetch? _ s).symm

/-! RUNE of another chain is swapped for bitcoin. -/

def foreignBridgeSwap : SwapRequest :=
  { bridgeSwap with
    tx := ⟨⟨"A1"⟩, some .bnb, ⟨"bnb1sender"⟩, ⟨"bnb1vault"⟩, [foreignRune], [], ""⟩
    limit := 0 }

/-- The pools count it as theirs, although no native RUNE came in. -/
theorem foreignBridgeSwap_flows_in :
    foreignRune.asset ≠ .rune ∧
      ∃ o t, handle foreignBridgeSwap bridgeLedger = (.ok o, t) ∧
        bridgeLedger.pooled < t.pooled := by
  have hok : ((handle foreignBridgeSwap bridgeLedger).1.map
      (·.events.map (·.emitted.amount.val))).toOption = some [2500000000] := by decide +kernel
  have hpooled : bridgeLedger.pooled = 20000000000 := by decide +kernel
  refine ⟨by decide, ?_⟩
  rcases hrun : handle foreignBridgeSwap bridgeLedger with ⟨e | o, t⟩ <;> rw [hrun] at hok
  · cases hok
  · obtain ⟨multiplier, p, e, rest, -, hevents, -, -, -, honly⟩ :=
      pooled_after filed_bridgeLedger (by decide +kernel) hrun rfl
    have hemitted : o.events.map (·.emitted.amount.val) = [2500000000] := Option.some.inj hok
    rw [hevents] at hemitted
    have hvalue : e.emitted.amount.val = 2500000000 := (List.cons.inj hemitted).1
    refine ⟨o, t, rfl, Nat.not_le.1 fun hle => ?_⟩
    have hnothing := honly (by rw [hpooled, hvalue]; decide) hle
    exact absurd hnothing.1 (by decide +kernel)

end LiquidityNet.Swap
