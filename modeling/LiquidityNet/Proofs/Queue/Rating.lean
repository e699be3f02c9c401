import LiquidityNet.Proofs.Queue.Batches
import LiquidityNet.Proofs.Swap.Synths

/-!
# Ratings and executions

Rating a queued swap looks its pool up by the layer-1 asset behind the side that is not RUNE, and
executing it by that side itself unless it is a synth. So a swap of one hop is rated by the fee and
the slip that its event will tell wherever the two are one asset, as they are for every layer-1
asset and every synth. A derived asset is traded in a pool of its own, but rated by that of the
asset that backs it.
-/

namespace LiquidityNet

open Ledger

variable {s t : Ledger}

theorem Asset.synth_of_isRune {a : Asset} (h : a.isRune = true) : a.synth = false := by
  unfold isRune at h
  simp only [Bool.and_eq_true, Bool.not_eq_true'] at h
  exact h.1

namespace Swap

variable {m : SwapRequest} {source : Coin} {target : Asset} {limit fee multiplier : Amount}

/-! ## What a hop charges -/

/-- The side of a hop that is not RUNE, or the target where both are. -/
def tradedSide (source target : Asset) : Asset := if source.isRune then target else source

theorem virtualDepth_basisPoints (depth : Amount) : virtualDepth depth basisPoints = depth :=
  Share.of_self depth (by decide)

/-- A hop from or to RUNE reckons with virtual depths where its other side is a synth. -/
theorem pricedDepths_eq (p : Pool) (hhop : (source.asset.isRune || target.isRune) = true) :
    pricedDepths p source.asset target multiplier =
      (virtualDepth (depths p source.asset).1
          (Queue.multiplierFor (tradedSide source.asset target) multiplier),
        virtualDepth (depths p source.asset).2
          (Queue.multiplierFor (tradedSide source.asset target) multiplier)) := by
  have hside : (source.asset.synth || target.synth) = (tradedSide source.asset target).synth := by
    unfold tradedSide
    cases hrune : source.asset.isRune with
    | true => rw [Asset.synth_of_isRune hrune, Bool.false_or, if_pos rfl]
    | false =>
      rw [hrune, Bool.false_or] at hhop
      rw [Asset.synth_of_isRune hhop, Bool.or_false, if_neg Bool.false_ne_true]
  unfold pricedDepths Queue.multiplierFor
  rw [hside]
  cases (tradedSide source.asset target).synth with
  | true => rfl
  | false => simp only [Bool.false_eq_true, if_false, virtualDepth_basisPoints]

theorem quote_charges {p : Pool} {asset a : Asset} {amount : Amount} {q : Quote}
    (h : quote p asset a target amount multiplier = .ok q) :
    let d := pricedDepths p a target multiplier
    q.slip = slip d.1 amount ∧ q.feeInRune =
      if a.isRune then p.inRune (liquidityFee d.1 amount d.2) else liquidityFee d.1 amount d.2 := by
  unfold quote at h
  simp only [throw, throwThe, MonadExceptOf.throw, bind, Except.bind, pure, Except.pure] at h
  split at h
  · cases h
  split at h
  · cases h
  split at h
  · cases h
  cases h
  exact ⟨rfl, rfl⟩

/-- An empty side stays empty however deep it is taken to be. -/
theorem isEmpty_of_quote {p : Pool} {asset a : Asset} {amount : Amount} {q : Quote}
    (h : quote p asset a target amount multiplier = .ok q) : p.isEmpty = false := by
  obtain ⟨hin, hout⟩ := quote_sides h
  have hpriced : ∀ d : Amount, (if (a.synth || target.synth) = true then
      virtualDepth d multiplier else d) ≠ 0 → d ≠ 0 := by
    rintro d hd rfl
    rw [virtualDepth_zero, ite_self] at hd
    exact hd rfl
  have hsides : (depths p a).1 ≠ 0 ∧ (depths p a).2 ≠ 0 := by
    constructor
    · refine hpriced _ fun hzero => hin ?_
      rw [← hzero, pricedDepths]
      split <;> rfl
    · refine hpriced _ fun hzero => hout ?_
      rw [← hzero, pricedDepths]
      split <;> rfl
  have hboth : p.rune ≠ 0 ∧ p.depth ≠ 0 := by
    unfold depths at hsides
    split at hsides
    · exact hsides
    · exact hsides.symm
  unfold Pool.isEmpty
  simp only [hboth, Bool.or_eq_false_iff, beq_eq_false_iff_ne, ne_eq, not_false_eq_true,
    and_self]

end Swap

namespace Queue

open Swap

variable {m : SwapRequest} {source : Coin} {multiplier : Amount}

/-! ## Ratings -/

/-- A swap of one hop is rated by the pool of what backs its side that is not RUNE. -/
theorem rate_of_priced {r : Rated} {p : Pool} (hcoin : r.request.tx.coins.head? = some source)
    (hhop : (source.asset.isRune || r.request.target.isRune) = true)
    (hpool : Pools.find? (tradedSide source.asset r.request.target).backing s = .ok (some p))
    (hempty : p.isEmpty = false) (hopen : (!source.asset.synth && !p.isAvailable) = false) :
    (rate s multiplier r).1 =
      r.charge p source (multiplierFor (tradedSide source.asset r.request.target) multiplier) := by
  have hpriced : (p.isEmpty || (!p.isAvailable && !source.asset.synth)) = false := by
    rw [hempty, Bool.false_or, Bool.and_comm]
    exact hopen
  unfold tradedSide at hpool
  unfold rate
  rw [hcoin]
  simp only [hpool, hpriced, hhop, if_true, Bool.false_eq_true, if_false]
  rfl

/-- Items are rated one by one, up to the first whose pools cannot be read. -/
theorem rateAll_getElem? (before after : List Rated) (r : Rated) :
    (rateAll s multiplier (before ++ r :: after)).1[before.length]? =
      some (if (rateAll s multiplier before).2.isNone then (rate s multiplier r).1 else r) := by
  induction before with
  | nil =>
    unfold rateAll
    rcases hr : rate s multiplier r with ⟨r', _ | e⟩ <;> simp [hr]
  | cons b before ih =>
    rw [List.cons_append, rateAll, rateAll]
    rcases rate s multiplier b with ⟨b', _ | e⟩
    · exact ih
    · simp

/-- What a hop charged is what its pool is rated by. -/
theorem charge_eq_of_quote {p : Pool} {asset : Asset} {q : Quote} {index : Word}
    (hhop : (source.asset.isRune || m.target.isRune) = true)
    (h : quote p asset source.asset m.target source.amount multiplier = .ok q) :
    (Rated.ofQueued ⟨m, index⟩).charge p source
        (multiplierFor (tradedSide source.asset m.target) multiplier) =
      ⟨m, index, q.feeInRune, q.slip⟩ := by
  obtain ⟨hslip, hfee⟩ := quote_charges h
  rw [pricedDepths_eq p hhop] at hslip hfee
  have hzero : ∀ a : Amount, (0 : Amount).plus a = a := fun a => by
    rw [Amount.plus, Amount.val_zero, Nat.zero_add, Amount.cap_val]
  simp only [Rated.charge, Rated.ofQueued, hzero, hslip, hfee]

/-- The pool that a hop reads is the one that its side is rated by, unless that is derived from
another asset. -/
theorem poolAsset_eq_backing {source target : Asset}
    (h : (tradedSide source target).isDerived = false ∨
      (tradedSide source target).backing = tradedSide source target) :
    poolAsset source target = (tradedSide source target).backing := by
  have hside : poolAsset source target = if (tradedSide source target).synth then
      (tradedSide source target).backing else tradedSide source target := rfl
  rw [hside]
  split
  · rfl
  · rename_i hplain
    rcases h with hown | hback
    · rw [Asset.backing, if_neg hplain, hown, if_neg Bool.false_ne_true]
    · exact hback.symm

/-- A swap of one hop that can be carried out is rated by the fee and the slip that its event tells,
unless its side that is not RUNE is derived from another asset. Then the pool of that other asset is
what it is rated by. What else is in the queue makes no difference, as long as all that is rated
before it can be. -/
theorem one_hop_rated {o : Outcome} (h : handle m s = (.ok o, t))
    (hcoin : m.tx.coins.head? = some source)
    (hhop : (source.asset.isRune || m.target.isRune) = true)
    (hmultiplier : depthMultiplier s = .ok multiplier) (index : Word) (before after : List Rated) :
    ∃ e r, o.events = [e] ∧
      (rateAll s multiplier (before ++ .ofQueued ⟨m, index⟩ :: after)).1[before.length]? =
        some r ∧
      ((rateAll s multiplier before).2 ≠ none → r = .ofQueued ⟨m, index⟩) ∧
      ((rateAll s multiplier before).2 = none →
        ((tradedSide source.asset m.target).isDerived = false ∨
            (tradedSide source.asset m.target).backing = tradedSide source.asset m.target →
          r = ⟨m, index, e.feeInRune, e.slip⟩) ∧
        ∀ p, Pools.find? (tradedSide source.asset m.target).backing s = .ok (some p) →
          p.isEmpty = false → p.isAvailable = true →
          r = (Rated.ofQueued ⟨m, index⟩).charge p source
            (multiplierFor (tradedSide source.asset m.target) multiplier)) := by
  obtain ⟨fee, multiplier', before', last, u, v, hmultiplier', hhops, hevents, -⟩ :=
    handle_hops h hcoin
  obtain rfl : multiplier = multiplier' := Except.ok.inj (hmultiplier.symm.trans hmultiplier')
  rcases hops_ok hhops with ⟨-, rfl, hone⟩ | ⟨hnone, -⟩
  swap
  · rw [hhop] at hnone
    cases hnone
  obtain ⟨p, q, hpool, -, hopen, hquote, ⟨hfee, hslip⟩, -⟩ := hop_run hone
  -- a pool is found in a checkpoint as it is found without it
  have hfound : Pools.find? (poolAsset source.asset m.target) s = .ok (some p) :=
    (Query.Steady.fetch? (Key.pool _) s).symm.trans hpool
  have hrate : ∀ x, Pools.find? (tradedSide source.asset m.target).backing s = .ok (some x) →
      x.isEmpty = false → (!source.asset.synth && !x.isAvailable) = false →
      (rate s multiplier (.ofQueued ⟨m, index⟩)).1 = (Rated.ofQueued ⟨m, index⟩).charge x source
        (multiplierFor (tradedSide source.asset m.target) multiplier) :=
    fun x => rate_of_priced (r := .ofQueued ⟨m, index⟩) hcoin hhop
  refine ⟨last.event, _, hevents, rateAll_getElem? before after _, fun hfailed => ?_, fun hrated =>
    ⟨fun hown => ?_, fun x hx hempty havailable => ?_⟩⟩
  · exact if_neg (by simpa using hfailed)
  · rw [poolAsset_eq_backing hown] at hfound
    rw [hrated, Option.isNone_none, if_pos rfl,
      hrate p hfound (isEmpty_of_quote hquote) hopen, hfee, hslip]
    exact charge_eq_of_quote hhop hquote
  · rw [hrated, Option.isNone_none, if_pos rfl]
    exact hrate x hx hempty (by rw [havailable]; exact Bool.and_false _)

/-! A swap for derived bitcoin is rated by the pool of bitcoin, behind a swap for a synth. -/

def derivedPool : Pool := Pool.make (.of .thor "BTC") (.cap 100000000000) (.cap 50000000000)

def derivedSwap : SwapRequest := { mintingSwap with target := derivedPool.asset }

def derivedLedger : Ledger :=
  (poolLedger bitcoinPool).putRecord (Key.pool derivedPool.asset) (.pool derivedPool)

def derivedQueue (index : Word) : List Rated :=
  [.ofQueued ⟨mintingSwap, index⟩, .ofQueued ⟨derivedSwap, index⟩]

/-- What the events of a swap tell of its fees in RUNE and its slips. -/
def chargesOf (m : SwapRequest) (s : Ledger) : Option (List (Nat × Nat)) :=
  ((handle m s).1.map fun o => o.events.map fun e => (e.feeInRune.val, e.slip.val)).toOption

theorem exists_of_chargesOf {charges : List (Nat × Nat)} (h : chargesOf m s = some charges) :
    ∃ o t, handle m s = (.ok o, t) ∧
      (o.events.map fun e => (e.feeInRune.val, e.slip.val)) = charges := by
  rcases hrun : handle m s with ⟨e | o, t⟩ <;> rw [chargesOf, hrun] at h
  · cases h
  · exact ⟨o, t, rfl, Option.some.inj h⟩

/-- Both swaps can be carried out, and only the one for the synth is rated as it will be charged. -/
theorem derivedSwap_misrated :
    ∃ o t e x u f r, handle mintingSwap derivedLedger = (.ok o, t) ∧ o.events = [e] ∧
      handle derivedSwap derivedLedger = (.ok x, u) ∧ x.events = [f] ∧
      (rateAll derivedLedger (.cap 20000) (derivedQueue 0)).1[0]? =
        some ⟨mintingSwap, 0, e.feeInRune, e.slip⟩ ∧
      (rateAll derivedLedger (.cap 20000) (derivedQueue 0)).1[1]? = some r ∧
      r.fee ≠ f.feeInRune ∧ r.slip ≠ f.slip := by
  have hmultiplier : depthMultiplier derivedLedger = .ok (.cap 20000) :=
    eq_ok_of_toOption (by decide +kernel)
  have hnone : (rateAll derivedLedger (.cap 20000) [.ofQueued ⟨mintingSwap, 0⟩]).2 = none :=
    Option.isNone_iff_eq_none.1 (by decide +kernel)
  have hminted : chargesOf mintingSwap derivedLedger = some [(2222222222, 3333)] := by
    decide +kernel
  have hcharged : chargesOf derivedSwap derivedLedger = some [(826446280, 909)] := by
    decide +kernel
  obtain ⟨o, t, hminting, -⟩ := exists_of_chargesOf hminted
  obtain ⟨x, u, hderived, hcharges⟩ := exists_of_chargesOf hcharged
  obtain ⟨e, r, hevents, hr, -, hrated⟩ := one_hop_rated hminting rfl (by decide +kernel)
    hmultiplier 0 [] [.ofQueued ⟨derivedSwap, 0⟩]
  obtain ⟨f, q, hevents', hq, -, hrated'⟩ := one_hop_rated hderived rfl (by decide +kernel)
    hmultiplier 0 [.ofQueued ⟨mintingSwap, 0⟩] []
  obtain rfl := (hrated rfl).1 (.inl (by decide +kernel))
  have hbitcoin := (hrated' hnone).2 bitcoinPool (eq_ok_of_toOption (by decide +kernel))
    (by decide +kernel) (by decide +kernel)
  have hother : q.fee.val = 2500000000 ∧ q.slip.val = 5000 := by
    rw [hbitcoin]
    decide +kernel
  rw [hevents'] at hcharges
  obtain ⟨hfee, hslip⟩ := Prod.mk.inj (List.singleton_inj.1 hcharges)
  refine ⟨o, t, e, x, u, f, q, hminting, hevents, hderived, hevents', hr, hq, fun hsame => ?_,
    fun hsame => ?_⟩
  · rw [hsame, hfee] at hother
    exact absurd hother.1 (by decide)
  · rw [hsame, hslip] at hother
    exact absurd hother.2 (by decide)

end Queue

end LiquidityNet
