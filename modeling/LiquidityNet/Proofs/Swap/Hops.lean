import LiquidityNet.Proofs.Ledger.Funds
import LiquidityNet.Proofs.Swap.Writes

/-!
# The stages of a swap

A swap that went through is taken apart into its hops, the publication of their events, the
delivery of the output and the burning of what is left over. Each hop between two assets that are
no synths read one pool, quoted a price for it and stored it anew.
-/

namespace LiquidityNet.Swap

open Ledger

variable {m : SwapRequest} {source : Coin} {target : Asset} {limit fee multiplier : Amount}
  {s t : Ledger}

/-! ## Hops -/

/-- The terms of a hop: an amount comes in, and less leaves than the depth that was reckoned with. -/
theorem quote_terms {p : Pool} {asset a : Asset} {amount : Amount} {q : Quote}
    (h : quote p asset a target amount multiplier = .ok q) :
    amount ≠ 0 ∧
      q.emitted = toDecimals (emission (pricedDepths p a target multiplier).1 amount
        (pricedDepths p a target multiplier).2) p.decimals ∧
      q.emitted < (pricedDepths p a target multiplier).2 := by
  unfold quote at h
  simp only [throw, throwThe, MonadExceptOf.throw, bind, Except.bind, pure, Except.pure] at h
  split at h
  · cases h
  rename_i hamount
  split at h
  · cases h
  split at h
  · cases h
  rename_i hless
  cases h
  exact ⟨hamount, rfl, Nat.not_le.1 hless⟩

/-- The terms of a hop between layer-1 assets: both sides of the pool hold something, and less
leaves it than it holds. -/
theorem quote_eq_ok {p : Pool} {asset a : Asset} {amount : Amount} {q : Quote}
    (h : quote p asset a target amount multiplier = .ok q) (ha : a.synth = false)
    (htarget : target.synth = false) :
    q.emitted = toDecimals (emission (depths p a).1 amount (depths p a).2) p.decimals ∧
      q.emitted < (depths p a).2 := by
  have hpriced : pricedDepths p a target multiplier = depths p a := by
    unfold pricedDepths
    rw [ha, htarget]
    rfl
  have hterms := (quote_terms h).2
  rwa [hpriced] at hterms

/-- Where a price was quoted, both sides reckoned with hold something. -/
theorem quote_sides {p : Pool} {asset a : Asset} {amount : Amount} {q : Quote}
    (h : quote p asset a target amount multiplier = .ok q) :
    (pricedDepths p a target multiplier).1 ≠ 0 ∧ (pricedDepths p a target multiplier).2 ≠ 0 := by
  unfold quote at h
  simp only [throw, throwThe, MonadExceptOf.throw, bind, Except.bind, pure, Except.pure] at h
  split at h
  · cases h
  split at h
  · cases h
  rename_i hsides
  exact not_or.1 hsides

/-- A hop that went through was quoted a price by a pool that is open to it, which its event tells.
One that involves a synth reckons with its supply, and burns the synth that comes in; any other
burns what comes in where the asset of the pool is derived. -/
theorem hop_run {tx : Transaction} {r : HopResult}
    (h : hop tx source target limit fee multiplier s = (.ok r, t)) :
    ∃ p q, Pools.find? (poolAsset source.asset target) s = .ok (some p) ∧ p.asset.synth = false ∧
      (!source.asset.synth && !p.isAvailable) = false ∧
      quote p (poolAsset source.asset target) source.asset target source.amount multiplier =
        .ok q ∧
      (r.event.feeInRune = q.feeInRune ∧ r.event.slip = q.slip) ∧
      r.event.emitted = ⟨target, q.emitted⟩ ∧ r.event.pool = poolAsset source.asset target ∧
      ((source.asset.synth || target.synth) = true ∧
          r.burned = (if source.asset.synth then tx.coins else []) ∧
          (∃ supply, Bank.supply p.asset.asSynth s = .ok supply ∧
            t = s.putRecord (Key.pool p.asset)
              (.pool (tradedSynth p source.asset source.amount q.emitted supply))) ∨
        (source.asset.synth || target.synth) = false ∧
          r.burned = (if p.asset.isDerived then tx.coins else []) ∧
          t = s.putRecord (Key.pool p.asset)
            (.pool (traded p source.asset source.amount q.emitted))) := by
  unfold hop at h
  simp only [Action.refuse_bind] at h
  split at h
  · cases h
  obtain ⟨pool, hpool, h⟩ := Action.read_bind_eq_ok.1 h
  cases pool with
  | none => cases h
  | some p =>
    simp only at h
    split at h
    · cases h
    rename_i hlayer
    split at h
    · cases h
    rename_i hopen
    obtain ⟨q, hq, h⟩ := Action.check_bind_eq_ok.1 h
    refine ⟨p, q, hpool, Bool.eq_false_iff.2 hlayer, Bool.eq_false_iff.2 hopen, hq, ?_⟩
    split at h
    · rename_i hsynth
      obtain ⟨supply, hsupply, h⟩ := Action.read_bind_eq_ok.1 h
      obtain ⟨_, u, hsaved, h⟩ := Action.bind_eq_ok.1 h
      have hasset : (tradedSynth p source.asset source.amount q.emitted supply).asset =
          p.asset := by
        unfold tradedSynth
        split <;> rfl
      unfold Pools.save at hsaved
      rw [put_run, hasset] at hsaved
      cases hsaved
      cases h
      exact ⟨⟨rfl, rfl⟩, rfl, rfl, .inl ⟨hsynth, rfl, supply, hsupply, rfl⟩⟩
    · rename_i hplain
      obtain ⟨_, u, hsaved, h⟩ := Action.bind_eq_ok.1 h
      have hasset : (traded p source.asset source.amount q.emitted).asset = p.asset := by
        unfold traded
        split <;> rfl
      unfold Pools.save at hsaved
      rw [put_run, hasset] at hsaved
      cases hsaved
      cases h
      exact ⟨⟨rfl, rfl⟩, rfl, rfl, .inr ⟨Bool.eq_false_iff.2 hplain, rfl, rfl⟩⟩

theorem hop_ok {tx : Transaction} {r : HopResult}
    (h : hop tx source target limit fee multiplier s = (.ok r, t))
    (hsource : source.asset.synth = false) (htarget : target.synth = false) :
    ∃ p q, Pools.find? (poolAsset source.asset target) s = .ok (some p) ∧
      quote p (poolAsset source.asset target) source.asset target source.amount multiplier =
        .ok q ∧
      r.event.emitted = ⟨target, q.emitted⟩ ∧ r.event.pool = poolAsset source.asset target ∧
      r.burned = (if p.asset.isDerived then tx.coins else []) ∧
      t = s.putRecord (Key.pool p.asset)
        (.pool (traded p source.asset source.amount q.emitted)) := by
  obtain ⟨p, q, hpool, -, -, hquote, -, hemitted, hevent, hcases⟩ := hop_run h
  refine ⟨p, q, hpool, hquote, hemitted, hevent, ?_⟩
  rcases hcases with ⟨hsynth, -⟩ | ⟨-, hend⟩
  · rw [hsource, htarget] at hsynth
    cases hsynth
  · exact hend

theorem firstHop_ok {tx onward : Transaction} {r : HopResult}
    (h : firstHop tx source fee multiplier s = (.ok (r, onward), t)) :
    ∃ r', hop tx source .rune 0 fee multiplier s = (.ok r', t) ∧
      r.event.emitted = r'.event.emitted ∧ r.event.pool = r'.event.pool ∧ r.burned = r'.burned ∧
      onward.coins = [r'.event.emitted] := by
  obtain ⟨r', u, hhop, h⟩ := Action.bind_eq_ok.1 h
  cases h
  exact ⟨r', hhop, rfl, rfl, rfl, rfl⟩

/-- A swap has one hop where RUNE is on either side, and else a hop to RUNE and one from it. -/
theorem hops_ok {before : List HopResult} {last : HopResult}
    (h : hops m source fee multiplier s = (.ok (before, last), t)) :
    ((source.asset.isRune || m.target.isRune) = true ∧ before = [] ∧
      hop m.tx source m.target m.limit fee multiplier s = (.ok last, t)) ∨
    (source.asset.isRune || m.target.isRune) = false ∧ ∃ first onward u,
      before = [first] ∧ firstHop m.tx source fee multiplier s = (.ok (first, onward), u) ∧
      hop onward first.event.emitted m.target m.limit fee multiplier u = (.ok last, t) := by
  unfold hops at h
  split at h
  · rename_i hrune
    obtain ⟨r, u, hhop, h⟩ := Action.bind_eq_ok.1 h
    cases h
    exact .inl ⟨hrune, rfl, hhop⟩
  · rename_i hrune
    obtain ⟨⟨first, onward⟩, u, hfirst, h⟩ := Action.bind_eq_ok.1 h
    obtain ⟨r, v, hlast, h⟩ := Action.bind_eq_ok.1 h
    cases h
    exact .inr ⟨Bool.eq_false_iff.2 hrune, first, onward, u, rfl, hfirst, hlast⟩

/-! ## Swaps -/

theorem execute_run {o : Outcome}
    (h : execute m fee multiplier s = (.ok o, t)) :
    ∃ source before last u v w, m.tx.coins.head? = some source ∧
      permit m source.asset s = .ok () ∧
      hops m source fee multiplier s = (.ok (before, last), u) ∧
      accept m last.event.emitted.amount fee = .ok () ∧
      ((before ++ [last]).map (·.event)).forM publish u = (.ok (), v) ∧
      deliver m last.event.emitted.amount v = (.ok (), w) ∧
      burnCoins ((before ++ [last]).flatMap (·.burned)) w = (.ok (), t) ∧
      o = ⟨last.event.emitted.amount, (before ++ [last]).map (·.event)⟩ := by
  obtain ⟨_, -, h⟩ := Action.check_bind_eq_ok.1 h
  cases hsource : m.tx.coins.head? with
  | none =>
    rw [hsource] at h
    cases h
  | some source =>
    rw [hsource] at h
    obtain ⟨_, hpermit, h⟩ := Action.read_bind_eq_ok.1 h
    obtain ⟨⟨before, last⟩, u, hhops, h⟩ := Action.bind_eq_ok.1 h
    obtain ⟨_, haccept, h⟩ := Action.check_bind_eq_ok.1 h
    obtain ⟨_, v, hpublish, h⟩ := Action.bind_eq_ok.1 h
    obtain ⟨_, w, hdeliver, h⟩ := Action.bind_eq_ok.1 h
    obtain ⟨_, x, hburn, h⟩ := Action.bind_eq_ok.1 h
    cases h
    exact ⟨source, before, last, u, v, w, rfl, hpermit, hhops, haccept, hpublish, hdeliver, hburn,
      rfl⟩

theorem execute_ok {o : Outcome}
    (h : execute m fee multiplier s = (.ok o, t)) :
    ∃ source before last u v w, m.tx.coins.head? = some source ∧
      permit m source.asset s = .ok () ∧
      hops m source fee multiplier s = (.ok (before, last), u) ∧
      accept m last.event.emitted.amount fee = .ok () ∧
      ((before ++ [last]).map (·.event)).forM publish u = (.ok (), v) ∧
      deliver m last.event.emitted.amount v = (.ok (), w) ∧
      burnCoins ((before ++ [last]).flatMap (·.burned)) w = (.ok (), t) ∧
      o.emitted = last.event.emitted.amount := by
  obtain ⟨source, before, last, u, v, w, hhead, hpermit, hhops, haccept, hpublish, hdeliver, hburn,
    rfl⟩ := execute_run h
  exact ⟨source, before, last, u, v, w, hhead, hpermit, hhops, haccept, hpublish, hdeliver, hburn,
    rfl⟩

theorem handle_run {o : Outcome} (h : handle m s = (.ok o, t)) :
    ∃ fee multiplier u, Governance.amount .outboundTransactionFee s = .ok fee ∧
      depthMultiplier s = .ok multiplier ∧
      execute m fee multiplier s.checkpointed = (.ok o, u) ∧ u.CommitsTo t := by
  obtain ⟨_, -, h⟩ := Action.check_bind_eq_ok.1 h
  obtain ⟨fee, hfee, h⟩ := Action.read_bind_eq_ok.1 h
  obtain ⟨multiplier, hmultiplier, h⟩ := Action.read_bind_eq_ok.1 h
  obtain ⟨u, hrun, hcommit⟩ := transactionally_ok (execute_confined m fee multiplier) h
  exact ⟨fee, multiplier, u, hfee, hmultiplier, hrun, hcommit⟩

theorem handle_ok {o : Outcome} (h : handle m s = (.ok o, t)) :
    ∃ fee multiplier u, Governance.amount .outboundTransactionFee s = .ok fee ∧
      execute m fee multiplier s.checkpointed = (.ok o, u) ∧ u.CommitsTo t := by
  obtain ⟨fee, multiplier, u, hfee, -, hrun, hcommit⟩ := handle_run h
  exact ⟨fee, multiplier, u, hfee, hrun, hcommit⟩

theorem handle_head {o : Outcome} (h : handle m s = (.ok o, t)) :
    ∃ source, m.tx.coins.head? = some source := by
  obtain ⟨fee, multiplier, u, -, hrun, -⟩ := handle_ok h
  obtain ⟨source, before, last, u, v, w, hhead, -⟩ := execute_ok hrun
  exact ⟨source, hhead⟩

theorem handle_coins {o : Outcome} (h : handle m s = (.ok o, t))
    (hcoin : m.tx.coins.head? = some source) : m.tx.coins = [source] := by
  obtain ⟨_, hvalid, -⟩ := Action.check_bind_eq_ok.1 h
  have hone : m.tx.coins.length = 1 := by
    refine Decidable.byContradiction fun hne => ?_
    unfold SwapRequest.validate at hvalid
    rcases htx : m.tx.validate with e | _ <;> rw [htx] at hvalid
    · cases hvalid
    · rw [if_pos hne] at hvalid
      cases hvalid
  obtain ⟨c, hc⟩ := List.length_eq_one_iff.1 hone
  rw [hc] at hcoin ⊢
  rw [Option.some.inj hcoin]

/-- An output that is to stay becomes a balance of the pools where it is a synth, and nothing where
it is not. Any other is scheduled. -/
theorem deliver_cases {emitted : Amount} (h : deliver m emitted s = (.ok (), t)) :
    (m.destination.isNoop = true ∧ m.target.synth = true ∧ ∃ u v,
        Bank.mint Module.thorchain ⟨m.target, emitted⟩ s = (.ok (), u) ∧
        Bank.transferCoin (.ofModule Module.thorchain) (.ofModule Module.asgard)
          ⟨m.target, emitted⟩ u = (.ok (), v) ∧
        Ledger.emit (.supply .mint m.target emitted "swap") v = (.ok (), t)) ∨
      (m.destination.isNoop = true ∧ m.target.synth = false ∧ t = s) ∨
      (m.destination.isNoop = false ∧
        Payout.schedule (outboundOf m emitted) m.limit s = (.ok true, t)) := by
  unfold deliver at h
  split at h
  · rename_i hnoop
    split at h
    · rename_i hsynth
      obtain ⟨_, u, hmint, h⟩ := Action.bind_eq_ok.1 h
      obtain ⟨_, v, hmoved, h⟩ := Action.bind_eq_ok.1 h
      exact .inl ⟨hnoop, hsynth, u, v, hmint, Bank.transfer_singleton_ok hmoved, h⟩
    · rename_i hsynth
      cases h
      exact .inr (.inl ⟨hnoop, Bool.eq_false_iff.2 hsynth, rfl⟩)
  · rename_i hnoop
    obtain ⟨scheduled, u, hattempt, h⟩ := Action.bind_eq_ok.1 h
    rcases Action.attempt_eq_ok.1 hattempt with ⟨b, rfl, hrun⟩ | ⟨e, rfl, -⟩
    · cases b <;> cases h
      exact .inr (.inr ⟨Bool.eq_false_iff.2 hnoop, hrun⟩)
    · cases h

/-- What follows the hops writes to no pool. -/
theorem settled_changes {events : List SwapEvent} {emitted : Amount} {burned : List Coin}
    {u v w : Ledger} (hpublish : events.forM publish u = (.ok (), v))
    (hdeliver : deliver m emitted v = (.ok (), w)) (hburn : burnCoins burned w = (.ok (), t)) :
    Changes [.fees, .slips, .balances, .supplies, .attestations, .outbounds] u t := by
  have hpublished := (Action.Confined.forM fun e _ => publish_confined e).changes hpublish
  have hdelivered := (deliver_confined m emitted).changes hdeliver
  have hburned := (burnCoins_confined burned).changes hburn
  exact ((hpublished.mono (by decide)).trans (hdelivered.mono (by decide))).trans
    (hburned.mono (by decide))

/-- A swap that went through made its hops first, and wrote to no pool after them. -/
theorem handle_hops {o : Outcome} (h : handle m s = (.ok o, t))
    (hcoin : m.tx.coins.head? = some source) :
    ∃ fee multiplier before last u v, depthMultiplier s = .ok multiplier ∧
      hops m source fee multiplier s.checkpointed = (.ok (before, last), u) ∧
      o.events = (before ++ [last]).map (·.event) ∧
      Changes [.fees, .slips, .balances, .supplies, .attestations, .outbounds] u v ∧
      v.CommitsTo t := by
  obtain ⟨fee, multiplier, v, -, hmultiplier, hrun, hcommit⟩ := handle_run h
  obtain ⟨coin, before, last, u, w, x, hhead, -, hhops, -, hpublish, hdeliver, hburn, rfl⟩ :=
    execute_run hrun
  obtain rfl : source = coin := Option.some.inj (hcoin.symm.trans hhead)
  exact ⟨fee, multiplier, before, last, u, v, hmultiplier, hhops, rfl,
    settled_changes hpublish hdeliver hburn, hcommit⟩

end LiquidityNet.Swap
