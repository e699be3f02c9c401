import LiquidityNet.Proofs.Ledger.Settlement
import LiquidityNet.Proofs.Swap.Reserves

/-!
# The accounts a swap touches

The hops of a swap move no coins. The fee of a derived pool is minted and goes to the reserve, the
delivery touches accounts of the target alone, and what is burned at last is the inbound, which has
a whole name since a pool was found for it, or RUNE between two hops.
-/

namespace LiquidityNet

open Ledger

variable {k : String} {s t u v w : Ledger} {a : Asset} {p : Pool} {c : Coin}

namespace Pools

/-- A pool that is found stands for an asset that reads back. -/
theorem isReadable_of_find? (hs : s.Filed) (h : find? a s = .ok (some p)) :
    a.IsReadable ∧ p.asset = { a with symbol := Text.upper a.symbol } := by
  obtain ⟨r, hr, hread⟩ := find?_eq_some.1 h
  have hkey : Key.pool a = Key.pool r.asset := hs _ _ hr
  obtain rfl := Asset.text_inj (Key.append_cancel hkey)
  obtain ⟨b, hb, rfl⟩ := Option.map_eq_some_iff.1 hread
  exact Asset.reread?_eq_some.1 hb

end Pools

namespace Swap

variable {m : SwapRequest} {source : Coin} {target : Asset} {limit fee multiplier : Amount}

/-! ## The inbound -/

/-- The inbound of a hop is whole: a symbol with a slash has no pool. -/
theorem hop_isWhole {tx : Transaction} {r : HopResult} (hs : s.Filed)
    (hread : source.asset.reread? = some source.asset)
    (h : hop tx source target limit fee multiplier s = (.ok r, t)) : source.asset.IsWhole := by
  obtain ⟨p, q, hpool, -⟩ := hop_run h
  obtain ⟨⟨-, hother⟩, -⟩ := Asset.reread?_eq_some.1 hread
  cases hsynth : source.asset.synth with
  | false =>
    rw [Asset.otherSeparator, hsynth] at hother
    exact Asset.isWhole_of_symbol (fun h => absurd (hsynth.symm.trans h) Bool.false_ne_true) hother
  | true =>
    rw [Asset.otherSeparator, hsynth] at hother
    have hbacking : poolAsset source.asset target = source.asset.backing := by
      simp [poolAsset, Asset.isRune, hsynth]
    rw [hbacking, Asset.backing, if_pos hsynth] at hpool
    obtain ⟨⟨-, hslash⟩, -⟩ := Pools.isReadable_of_find? hs hpool
    refine Asset.isWhole_of_symbol (fun _ => hother) fun hmem => hslash ?_
    show '/' ∈ (Text.upper source.asset.symbol).toList
    rw [Text.toList_upper]
    exact List.mem_map.2 ⟨'/', hmem, by decide⟩

theorem hops_isWhole {before : List HopResult} {last : HopResult} (hs : s.Filed)
    (hread : source.asset.reread? = some source.asset)
    (h : hops m source fee multiplier s = (.ok (before, last), t)) : source.asset.IsWhole := by
  rcases hops_ok h with ⟨-, rfl, hhop⟩ | ⟨-, first, onward, u, rfl, hfirst, -⟩
  · exact hop_isWhole hs hread hhop
  · obtain ⟨r, hhop, -⟩ := firstHop_ok hfirst
    exact hop_isWhole hs hread hhop

theorem hop_emitted {tx : Transaction} {r : HopResult}
    (h : hop tx source target limit fee multiplier s = (.ok r, t)) :
    r.event.emitted.asset = target := by
  obtain ⟨p, q, -, -, -, -, -, hemitted, -⟩ := hop_run h
  rw [hemitted]

/-- A hop burns nothing but what comes in, and a synth that comes in for certain. -/
theorem hop_burned {tx : Transaction} {r : HopResult}
    (h : hop tx source target limit fee multiplier s = (.ok r, t)) :
    (r.burned = [] ∨ r.burned = tx.coins) ∧ (source.asset.synth = true → r.burned = tx.coins) := by
  obtain ⟨p, q, -, -, -, -, -, -, -, ⟨-, hburned, -⟩ | ⟨hplain, hburned, -⟩⟩ := hop_run h
  · rw [hburned]
    split
    · exact ⟨.inr rfl, fun _ => rfl⟩
    · rename_i hsynth
      exact ⟨.inl rfl, fun h => absurd h hsynth⟩
  · rw [hburned]
    refine ⟨?_, fun h => ?_⟩
    · split
      · exact .inr rfl
      · exact .inl rfl
    · rw [h] at hplain
      cases hplain

/-- What a swap burns is its inbound, and RUNE between two hops. -/
structure Burns (m : SwapRequest) (source : Coin) (burned : List Coin) : Prop where
  assets : ∀ c ∈ burned, c.asset = source.asset ∨ (c.asset = .rune ∧ m.target ≠ .rune)
  synth : source.asset.synth = true →
    ∃ rest, burned = source :: rest ∧ ∀ c ∈ rest, c.asset = .rune

theorem hops_burned {before : List HopResult} {last : HopResult} (hcoins : m.tx.coins = [source])
    (h : hops m source fee multiplier s = (.ok (before, last), t)) :
    Burns m source ((before ++ [last]).flatMap (·.burned)) := by
  rcases hops_ok h with ⟨-, rfl, hhop⟩ | ⟨hnot, first, onward, u, rfl, hfirst, hlast⟩
  · obtain ⟨hburned, hsynth⟩ := hop_burned hhop
    rw [hcoins] at hburned hsynth
    simp only [List.nil_append, List.flatMap_cons, List.flatMap_nil, List.append_nil]
    constructor
    · intro c hc
      rcases hburned with hnone | hsource
      · rw [hnone] at hc
        cases hc
      · rw [hsource] at hc
        exact .inl (by rw [List.mem_singleton.1 hc])
    · intro h
      exact ⟨[], hsynth h, fun _ hc => nomatch hc⟩
  · obtain ⟨r, hhop, -, -, hsame, honward⟩ := firstHop_ok hfirst
    obtain ⟨hburned, hsynth⟩ := hop_burned hhop
    have hlater : ∀ c ∈ last.burned, c.asset = .rune := by
      intro c hc
      rcases (hop_burned hlast).1 with hnone | hrune
      · rw [hnone] at hc
        cases hc
      · rw [hrune, honward] at hc
        rw [List.mem_singleton.1 hc]
        exact hop_emitted hhop
    have htarget : m.target ≠ .rune := by
      intro heq
      rw [heq] at hnot
      exact absurd (Bool.or_eq_false_iff.1 hnot).2 (by decide)
    rw [hcoins, ← hsame] at hburned hsynth
    simp only [List.cons_append, List.nil_append, List.flatMap_cons, List.flatMap_nil,
      List.append_nil]
    constructor
    · intro c hc
      rcases List.mem_append.1 hc with hc | hc
      · rcases hburned with hnone | hsource
        · rw [hnone] at hc
          cases hc
        · rw [hsource] at hc
          exact .inl (by rw [List.mem_singleton.1 hc])
      · exact .inr ⟨hlater c hc, htarget⟩
    · intro h
      exact ⟨last.burned, by rw [hsynth h]; rfl, hlater⟩

/-! ## Before and after the delivery -/

/-- The fee of a derived pool is minted and goes to the reserve. -/
theorem publish_spares {T : Table} (hk : Table.ofKey? k = some T) (hT : T ∉ [Table.fees, .slips])
    (hminter : k ≠ Key.balance (.ofModule Module.thorchain) .rune)
    (hreserve : k ≠ Key.balance (.ofModule Module.reserve) .rune) (hsupply : k ≠ Key.supply .rune)
    (e : SwapEvent) : (publish e).Spares k := by
  unfold publish
  extract_lets coin counted
  have hcounted : ∀ r, (counted r).Spares k := by
    intro r
    refine .ite (fun _ => ?_) fun _ => ?_
    · refine .bind (Bank.mint_spares hminter hsupply) fun _ => .bind (.emit _) fun _ => ?_
      refine Bank.transfer_spares (fun c hc => ?_) fun c hc => ?_
      · rwa [List.mem_singleton.1 hc]
      · rwa [List.mem_singleton.1 hc]
    · have hcounters : Action.Confined [.fees, .slips] (do
          Pools.addFees e.pool e.feeInRune
          Pools.addSlip e.pool e.slip) :=
        .bind ((Pools.addFees_confined _ _).mono (by decide)) fun _ =>
          (Pools.addSlip_confined _ _).mono (by decide)
      exact .of_confined hcounters hk hT
  refine .bind (.emit _) fun _ => ?_
  split
  · exact .bind (.emit _) hcounted
  · exact hcounted ()

theorem burnCoin_spares (hbalance : k ≠ Key.balance (.ofModule Module.thorchain) c.asset)
    (hsupply : k ≠ Key.supply c.asset) : (burnCoin c).Spares k := by
  refine .bind (.attempt (Bank.burn_spares hbalance hsupply)) fun burned => ?_
  rcases burned with e | _
  · exact .pure ()
  · exact .emit _

theorem burnCoins_spares {coins : List Coin} (h : ∀ c ∈ coins, Key.Apart k c.asset) :
    (burnCoins coins).Spares k := by
  refine .ite (fun _ => ?_) fun _ => .pure ()
  refine .bind (Bank.moveModule_spares (by decide) (by decide) h) fun _ => ?_
  exact .forM fun c hc => burnCoin_spares ((h c hc).accounts _ (by decide)) (h c hc).supply

theorem burnCoin_covered (hs : s.Filed)
    (hle : c.amount.val ≤ s.balancesOf c.asset (.ofModule Module.thorchain))
    (h : burnCoin c s = (.ok (), t)) : t.supplyOf c.asset = s.supplyOf c.asset - c.amount.val := by
  obtain ⟨u, hburn, hsupply⟩ := Bank.burn_covered hs.readsAmounts hle
  obtain ⟨burned, v, hattempt, h⟩ := Action.bind_eq_ok.1 h
  unfold attempt at hattempt
  rw [hburn] at hattempt
  cases hattempt
  have hend := (Action.Spares.emit (k := Key.supply c.asset) _).amountAt_eq h
  unfold supplyOf at *
  rw [hend, hsupply]

/-- What comes first of all that is burned leaves the pools' account and the supply. -/
theorem burnCoins_burns {coins : List Coin} (hs : s.Filed)
    (hrest : ∀ d ∈ coins, d.asset = .rune) (hne : c.asset ≠ .rune)
    (h : burnCoins (c :: coins) s = (.ok (), t)) :
    t.balancesOf c.asset poolAccount + c.amount.val = s.balancesOf c.asset poolAccount ∧
      t.supplyOf c.asset = s.supplyOf c.asset - c.amount.val := by
  unfold burnCoins at h
  rw [if_pos (List.cons_ne_nil c coins)] at h
  obtain ⟨_, u, hmoves, h⟩ := Action.bind_eq_ok.1 h
  obtain ⟨_, v, hfirst, hothers⟩ := Action.bind_eq_ok.1 hmoves
  obtain ⟨_, w, hburned, hlater⟩ := Action.bind_eq_ok.1 h
  -- The RUNE behind the first coin is apart from its accounts and its supply.
  have hmoved : ∀ k, Key.Apart k .rune → u.amountAt k = v.amountAt k := by
    intro k hk
    refine (Bank.transfer_spares (fun d hd => ?_) fun d hd => ?_).amountAt_eq hothers
    · exact hrest d hd ▸ hk.accounts _ (by decide)
    · exact hrest d hd ▸ hk.accounts _ (by decide)
  have hended : ∀ k, Key.Apart k .rune → t.amountAt k = w.amountAt k := by
    intro k hk
    refine (Action.Spares.forM fun d hd => burnCoin_spares ?_ ?_).amountAt_eq hlater
    · exact hrest d hd ▸ hk.accounts _ (by decide)
    · exact hrest d hd ▸ hk.supply
  have hbalance : ∀ owner, Key.Apart (Key.balance owner c.asset) .rune :=
    fun owner => .of_isWhole Asset.rune_isWhole fun _ => hne.symm
  have hsupply : Key.Apart (Key.supply c.asset) .rune := .of_supply hne
  have hnames : Address.ofModule Module.asgard ≠ .ofModule Module.thorchain := by decide
  obtain ⟨htaken, hgiven⟩ := Bank.transferCoin_credits hs.readsAmounts hnames hfirst
  have hfiled : u.Filed := ((Bank.moveModule_confined _ _ _).changes hmoves).filed hs
  have hcovered : c.amount.val ≤ u.balancesOf c.asset (.ofModule Module.thorchain) := by
    have hlimit := c.amount.isLt
    unfold balancesOf at hgiven ⊢
    rw [hmoved _ (hbalance _), hgiven]
    omega
  have hless := burnCoin_covered hfiled hcovered hburned
  have hown : w.amountAt (Key.balance poolAccount c.asset) =
      u.amountAt (Key.balance poolAccount c.asset) := by
    refine (burnCoin_spares (fun hkey => hnames ?_) ?_).amountAt_eq hburned
    · exact Key.balance_inj hkey
    · exact Key.balance_ne_supply _ _ _
  have hkept : v.amountAt (Key.supply c.asset) = s.amountAt (Key.supply c.asset) :=
    (Bank.transferCoin_spares (Key.balance_ne_supply _ _ _).symm
      (Key.balance_ne_supply _ _ _).symm).amountAt_eq hfirst
  unfold balancesOf supplyOf at *
  rw [hended _ (hbalance _), hended _ hsupply, hown, hless, hmoved _ (hbalance _), hmoved _ hsupply,
    hkept]
  exact ⟨htaken, rfl⟩

theorem outboundOf_payer_mem (m : SwapRequest) (emitted : Amount) :
    .ofModule ((outboundOf m emitted).payer.getD Module.asgard) ∈ Module.accounts := by
  unfold outboundOf
  dsimp only
  split
  · decide
  · decide

theorem deliver_spares {T : Table} (hk : Table.ofKey? k = some T)
    (hT : T ∉ [Table.attestations, .outbounds]) (h : Key.Apart k m.target)
    (hrecipient : k ≠ Key.balance m.destination m.target) (emitted : Amount) :
    (deliver m emitted).Spares k := by
  unfold deliver
  refine .ite (fun _ => .ite (fun _ => ?_) fun _ => .pure ()) fun _ => ?_
  · refine .bind (Bank.mint_spares (h.accounts _ (by decide)) h.supply) fun _ => ?_
    refine .bind (Bank.moveModule_spares (by decide) (by decide) fun c hc => ?_) fun _ => .emit _
    rwa [List.mem_singleton.1 hc]
  · have hpayer := outboundOf_payer_mem m emitted
    refine .bind (Payout.schedule_spares hk hT hpayer h hrecipient _).attempt fun scheduled => ?_
    rcases scheduled with e | _ | _
    · exact .refuse _
    · exact .refuse _
    · exact .pure ()

end Swap

end LiquidityNet
