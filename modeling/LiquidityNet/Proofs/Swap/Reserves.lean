import LiquidityNet.Proofs.Asset.Reading
import LiquidityNet.Proofs.Ledger.Funds
import LiquidityNet.Proofs.Swap.Product

/-!
# The RUNE behind the pools

The account of the pools is to hold the RUNE that the pools count as theirs. A pool grows by the
RUNE that comes in before any account does, and shrinks by the RUNE that goes out, which the account
pays. Where RUNE comes in and native RUNE goes out, the pool of the native RUNE grows although the
account pays.
-/

namespace LiquidityNet

open Ledger

variable {s t : Ledger} {a : Asset} {p q : Pool}

def Record.rune : Record → Amount
  | .pool p => p.rune
  | _ => 0

def poolAccount : Address := .ofModule Module.asgard

namespace Ledger

/-- The RUNE of all pools together, which no bound holds back. -/
def pooled (s : Ledger) : Nat := s.sumOver .pools Record.rune

/-- By how much the account of the pools exceeds the RUNE of all pools. -/
def backing (s : Ledger) : Int := s.held poolAccount - s.pooled

/-- A pool is found under its own asset. -/
def PoolsFiled (s : Ledger) : Prop := ∀ a p, Pools.find? a s = .ok (some p) → p.asset = a

end Ledger

/-- Neither a synth nor derived from another chain's asset. -/
def Asset.IsPlain (a : Asset) : Prop := a.synth = false ∧ a.isDerived = false

theorem Asset.eq_rune (h : a.isNativeRune = true) : a = .rune := by
  obtain ⟨chain, symbol, synth⟩ := a
  simp only [isNativeRune, isRune, Chain.isHome, Bool.and_eq_true, Bool.not_eq_true',
    beq_iff_eq] at h
  obtain ⟨⟨rfl, rfl⟩, rfl⟩ := h
  rfl

theorem Asset.IsPlain.isHome (h : a.IsPlain) (hrune : a.isNativeRune = false) :
    a.homeChain.isHome = false := by
  obtain ⟨hsynth, hderived⟩ := h
  simp only [isDerived, isNativeRune, hsynth, homeChain, Bool.false_eq_true, if_false] at *
  grind

namespace Pools

theorem find?_eq_some :
    find? a s = .ok (some p) ↔
      ∃ r, s.get? (Key.pool a) = some (.pool r) ∧ r.reread? = some p := by
  unfold find?
  rw [fetch?_eq_ok]
  constructor
  · rintro (⟨-, h⟩ | ⟨r, x, hr, hx, h⟩)
    · cases h
    · cases h
      cases r <;> first | exact ⟨_, hr, hx⟩ | cases hx
  · rintro ⟨r, hr, hp⟩
    exact .inr ⟨_, p, hr, hp, rfl⟩

/-- What was found reads back under its own asset. -/
theorem reread?_of_find? (h : find? a s = .ok (some p)) : p.asset.reread? = some p.asset := by
  obtain ⟨r, -, hr⟩ := find?_eq_some.1 h
  obtain ⟨b, hb, rfl⟩ := Option.map_eq_some_iff.1 hr
  exact Asset.reread?_reread? hb

end Pools

namespace Ledger

theorem pooled_of_changes {Ts : List Table} (h : Changes Ts s t) (hTs : .pools ∉ Ts) :
    t.pooled = s.pooled :=
  sumOver_of_changes h hTs

theorem pooled_congr (h : ∀ k, t.get? k = s.get? k) : t.pooled = s.pooled := sumOver_congr h

theorem poolsFiled_empty (settings : Settings) (height : Height) :
    (Ledger.empty settings height).PoolsFiled :=
  fun _ _ h => nomatch h

theorem PoolsFiled.of_pools (hs : s.PoolsFiled)
    (h : ∀ k, Table.ofKey? k = some .pools → t.get? k = s.get? k) : t.PoolsFiled := by
  intro a p hp
  refine hs a p ?_
  rw [← hp]
  exact (fetch?_congr (h _ (Table.ofKey?_pool a))).symm

theorem PoolsFiled.congr (hs : s.PoolsFiled) (h : ∀ k, t.get? k = s.get? k) : t.PoolsFiled :=
  hs.of_pools fun k _ => h k

theorem PoolsFiled.putRecord (hs : s.PoolsFiled) (hq : q.asset.reread? = some q.asset) :
    (s.putRecord (Key.pool q.asset) (.pool q)).PoolsFiled := by
  intro a p hp
  obtain ⟨r, hr, hread⟩ := Pools.find?_eq_some.1 hp
  rw [get?_putRecord] at hr
  split at hr
  · rename_i hkey
    cases hr
    obtain ⟨b, hb, rfl⟩ := Option.map_eq_some_iff.1 hread
    rw [hq] at hb
    cases hb
    exact (Asset.text_inj (Key.append_cancel hkey)).symm
  · exact hs a p (Pools.find?_eq_some.2 ⟨r, hr, hread⟩)

theorem PoolsFiled.of_changes {Ts : List Table} (hs : s.PoolsFiled) (h : Changes Ts s t)
    (hTs : .pools ∉ Ts) : t.PoolsFiled :=
  hs.of_pools fun _ hk => h.get?_eq hk hTs

/-- A pool that is stored anew changes the sum by as much as its own RUNE changes. -/
theorem pooled_putRecord (hp : Pools.find? p.asset s = .ok (some p)) (q : Pool) :
    (s.putRecord (Key.pool p.asset) (.pool q)).pooled + p.rune.val = s.pooled + q.rune.val := by
  obtain ⟨r, hr, hread⟩ := Pools.find?_eq_some.1 hp
  obtain ⟨b, -, rfl⟩ := Option.map_eq_some_iff.1 hread
  have hbegin : Text.beginsWith Table.pools.start (Key.pool b) = true :=
    Text.beginsWith_iff.2 ⟨b.text.toList, String.toList_append.symm⟩
  have hsum := sumOver_putRecord (T := .pools) (f := Record.rune) hbegin s (.pool q)
  rw [hr] at hsum
  exact hsum

end Ledger

namespace Swap

variable {m : SwapRequest} {source : Coin} {target : Asset} {limit fee multiplier : Amount}

theorem poolAsset_isPlain (hsource : a.IsPlain) (htarget : target.IsPlain) :
    (poolAsset a target).IsPlain := by
  unfold poolAsset
  split
  · rw [if_neg (Bool.eq_false_iff.1 htarget.1)]
    exact htarget
  · rw [if_neg (Bool.eq_false_iff.1 hsource.1)]
    exact hsource

theorem traded_rune (p : Pool) (a : Asset) (amount emitted : Amount) :
    (traded p a amount emitted).rune =
      if a.isRune then p.rune.plus amount else p.rune.minus emitted := by
  unfold traded
  split <;> rfl

/-- A hop between plain assets adds the RUNE that comes in to its pool, or takes out the RUNE that
it emits; it moves no coins. -/
theorem hop_pooled {tx : Transaction} {r : HopResult} (hs : s.PoolsFiled)
    (h : hop tx source target limit fee multiplier s = (.ok r, t))
    (hsource : source.asset.IsPlain) (htarget : target.IsPlain) :
    t.PoolsFiled ∧ r.burned = [] ∧ r.event.pool.isDerived = false ∧
      r.event.emitted.asset = target ∧
      (source.asset.isRune = true → t.pooled ≤ s.pooled + source.amount.val) ∧
      (source.asset.isRune = false → t.pooled + r.event.emitted.amount.val = s.pooled) := by
  obtain ⟨p, q, hpool, hquote, hemitted, hevent, hburned, rfl⟩ := hop_ok h hsource.1 htarget.1
  obtain ⟨-, hless⟩ := quote_eq_ok hquote hsource.1 htarget.1
  have hasset := hs _ p hpool
  have hplain := poolAsset_isPlain hsource htarget
  have hsum := pooled_putRecord (hasset ▸ hpool) (traded p source.asset source.amount q.emitted)
  have htraded : (traded p source.asset source.amount q.emitted).asset = p.asset := by
    unfold traded
    split <;> rfl
  rw [traded_rune] at hsum
  refine ⟨?_, ?_, ?_, by rw [hemitted], ?_, ?_⟩
  · rw [← htraded]
    refine hs.putRecord ?_
    rw [htraded]
    exact Pools.reread?_of_find? hpool
  · rw [hburned, hasset, hplain.2]
    rfl
  · rw [hevent, hplain.2]
  · intro hrune
    rw [if_pos hrune, Amount.val_plus] at hsum
    omega
  · intro hrune
    rw [if_neg (Bool.eq_false_iff.1 hrune), Amount.val_minus] at hsum
    have hcovered : q.emitted.val < p.rune.val := by
      rwa [depths, if_neg (Bool.eq_false_iff.1 hrune)] at hless
    have hout : r.event.emitted.amount = q.emitted := by rw [hemitted]
    rw [hout]
    omega

theorem rune_isPlain : Asset.IsPlain .rune := ⟨rfl, by decide⟩

/-- The pools grow by no more than the RUNE that comes in, and shrink by the RUNE that goes out if
none comes in. The RUNE between two hops leaves one pool for the other. -/
theorem hops_pooled {before : List HopResult} {last : HopResult} (hs : s.PoolsFiled)
    (h : hops m source fee multiplier s = (.ok (before, last), t))
    (hsource : source.asset.IsPlain) (htarget : m.target.IsPlain) :
    (∀ r ∈ before ++ [last], r.burned = [] ∧ r.event.pool.isDerived = false) ∧
      t.pooled ≤ s.pooled + (if source.asset.isRune then source.amount.val else 0) ∧
      (source.asset.isRune = false → m.target.isRune = true →
        t.pooled + last.event.emitted.amount.val = s.pooled) := by
  rcases hops_ok h with ⟨-, rfl, hhop⟩ | ⟨hnot, first, onward, u, rfl, hfirst, hlast⟩
  · obtain ⟨-, hburned, hpool, -, hin, hout⟩ := hop_pooled hs hhop hsource htarget
    refine ⟨fun r hr => ?_, ?_, fun hrune _ => hout hrune⟩
    · obtain rfl := List.mem_singleton.1 hr
      exact ⟨hburned, hpool⟩
    · cases hrune : source.asset.isRune with
      | true => exact hin hrune
      | false =>
        have hless := hout hrune
        simp only [Bool.false_eq_true, if_false]
        omega
  · obtain ⟨r, hhop, hemitted, hevent, hsame, -⟩ := firstHop_ok hfirst
    obtain ⟨hsourceRune, htargetRune⟩ := Bool.or_eq_false_iff.1 hnot
    obtain ⟨hu, hburned, hpool, hasset, -, hout⟩ := hop_pooled hs hhop hsource rune_isPlain
    rw [hemitted] at hlast
    have hrune : r.event.emitted.asset.IsPlain := hasset ▸ rune_isPlain
    obtain ⟨-, hburned', hpool', -, hin, -⟩ := hop_pooled hu hlast hrune htarget
    have hfirstOut := hout hsourceRune
    have hsecondIn := hin (hasset ▸ by decide)
    refine ⟨fun x hx => ?_, ?_, ?_⟩
    · rcases List.mem_cons.1 hx with rfl | hx
      · exact ⟨hsame ▸ hburned, hevent ▸ hpool⟩
      · obtain rfl := List.mem_singleton.1 hx
        exact ⟨hburned', hpool'⟩
    · omega
    · intro _ h
      rw [htargetRune] at h
      cases h

/-- Only a payout in native RUNE takes RUNE from the account of the pools, and no more than was
emitted. -/
theorem deliver_held {emitted : Amount} (h : deliver m emitted s = (.ok (), t))
    (htarget : m.target.IsPlain) (hnoop : m.destination.isNoop = false) :
    s.held poolAccount ≤
      t.held poolAccount + if m.target.isNativeRune then emitted.val else 0 := by
  have hscheduled : Payout.schedule (outboundOf m emitted) m.limit s = (.ok true, t) := by
    rcases deliver_cases h with ⟨hstays, -⟩ | ⟨hstays, -⟩ | ⟨-, hrun⟩
    · rw [hnoop] at hstays
      cases hstays
    · rw [hnoop] at hstays
      cases hstays
    · exact hrun
  cases hnative : m.target.isNativeRune with
  | false =>
    have haway : (outboundOf m emitted).chain.isHome = false := htarget.isHome hnative
    have hchanges := (Payout.schedule_away_confined haway m.limit).changes hscheduled
    rw [held_of_changes hchanges (by decide)]
    exact Nat.le_add_right _ _
  | true =>
    have hrune := Asset.eq_rune hnative
    have hhome : (outboundOf m emitted).chain.isHome = true := by
      rw [outboundOf, hrune]
      rfl
    obtain ⟨fee, -, hless, hsettled⟩ := Payout.schedule_home_ok hscheduled hhome
    have hpayer : (Payout.withMemo (outboundOf m emitted)).payer.getD Module.asgard =
        Module.asgard := by
      rw [Payout.withMemo_payer, outboundOf, hrune]
      rfl
    have hpaid := Payout.settle_held hsettled hpayer (by decide) (by decide) hrune
    have hnet : ((outboundOf m emitted).coin.amount.minus fee).val = emitted.val - fee.val := rfl
    have hfeeLe : fee.val ≤ emitted.val := by
      by_cases hzero : fee = 0
      · rw [hzero]
        exact Nat.zero_le _
      · exact Nat.le_of_lt (hless hzero)
    rw [hnet, Payout.withMemo_recipient] at hpaid
    rw [if_pos rfl, poolAccount]
    split at hpaid <;> omega

theorem burnCoins_nil (h : burnCoins [] s = (.ok (), t)) : t = s := by
  cases h
  rfl

/-- A swap between plain assets takes from the backing of the pools no more than the RUNE that comes
in and, where RUNE comes in and native RUNE goes out, what it emits. -/
theorem backing_after {o : Outcome} (hs : s.PoolsFiled) (h : handle m s = (.ok o, t))
    (hcoin : m.tx.coins.head? = some source) (hsource : source.asset.IsPlain)
    (htarget : m.target.IsPlain) (hnoop : m.destination.isNoop = false) :
    s.backing - (if source.asset.isRune then source.amount.val else 0 : Nat) -
        (if source.asset.isRune && m.target.isNativeRune then o.emitted.val else 0 : Nat) ≤
      t.backing := by
  obtain ⟨fee, multiplier, u, -, hrun, hcommit⟩ := handle_ok h
  obtain ⟨coin, before, last, v, w, x, hhead, -, hhops, -, hpublish, hdeliver, hburn, hemitted⟩ :=
    execute_ok hrun
  obtain rfl : source = coin := Option.some.inj (hcoin.symm.trans hhead)
  obtain ⟨hresults, hpooled, hout⟩ :=
    hops_pooled (hs.congr s.get?_checkpointed) hhops hsource htarget
  have hburned : (before ++ [last]).flatMap (·.burned) = [] :=
    List.flatMap_eq_nil_iff.2 fun r hr => (hresults r hr).1
  rw [hburned] at hburn
  obtain rfl := burnCoins_nil hburn
  have hpublished : Changes [.fees, .slips] v w := by
    refine (Action.Confined.forM fun e he => ?_).changes hpublish
    obtain ⟨r, hr, rfl⟩ := List.mem_map.1 he
    exact publish_counted (hresults r hr).2
  have hheld : s.held poolAccount = w.held poolAccount := by
    rw [held_of_changes hpublished (by decide),
      held_of_changes ((hops_confined _ _ _ _).changes hhops) (by decide),
      held_congr s.get?_checkpointed]
  have hpaid := deliver_held hdeliver htarget hnoop
  have hsame : u.pooled = v.pooled := by
    rw [pooled_of_changes ((deliver_confined _ _).changes hdeliver) (by decide),
      pooled_of_changes hpublished (by decide)]
  rw [pooled_congr s.get?_checkpointed] at hpooled hout
  rw [backing, backing, held_congr hcommit.get?, pooled_congr hcommit.get?, hheld, hsame, hemitted]
  cases hnative : m.target.isNativeRune with
  | false =>
    simp only [hnative, Bool.and_false, Bool.false_eq_true, if_false] at hpaid ⊢
    omega
  | true =>
    have htargetRune : m.target.isRune = true := (Bool.and_eq_true_iff.1 hnative).1
    cases hrune : source.asset.isRune with
    | false =>
      have hequal := hout hrune htargetRune
      simp only [hnative, if_true, Bool.false_and, Bool.false_eq_true, if_false] at hpaid ⊢
      omega
    | true =>
      simp only [hnative, hrune, if_true, Bool.true_and] at hpaid hpooled ⊢
      omega

theorem poolLedger_filed (hp : p.asset.reread? = some p.asset) : (poolLedger p).PoolsFiled := by
  have hempty := poolsFiled_empty (.ofEnvironment .mocknet) 1
  have hkey := Table.ofKey?_balance poolAccount .rune
  have hfunded : ∀ u : Ledger, Changes [.balances] u
      (u.putRecord (Key.balance poolAccount .rune) (.amount p.rune)) := fun u =>
    changes_putRecord List.mem_cons_self hkey ⟨.balances, by decide, hkey⟩
  exact (hempty.putRecord hp).of_changes (hfunded _) (by decide)

/-! RUNE of another chain is swapped for native RUNE through a pool of native RUNE, which grows while
the account of the pools pays. -/

def runePool : Pool := Pool.make .rune ⟨100000000000, by decide⟩ ⟨100000000000, by decide⟩

def foreignRune : Coin := ⟨.of .bnb Asset.runeSymbol, ⟨10000000000, by decide⟩⟩

def foreignRuneSwap : SwapRequest :=
  { usdcSwap with
    tx := ⟨.blank, some .bnb, ⟨"bnb1sender"⟩, ⟨"bnb1vault"⟩, [foreignRune], [], ""⟩ }

/-- Coins of USDC take nothing from the backing. RUNE of another chain takes more than comes in, and
no more than comes in and is emitted. -/
theorem foreignRune_overdraws :
    (∃ o t, handle usdcSwap (poolLedger usdcPool) = (.ok o, t) ∧
      (poolLedger usdcPool).backing ≤ t.backing) ∧
    ((poolLedger runePool).PoolsFiled ∧ foreignRuneSwap.tx.coins = [foreignRune] ∧
      foreignRune.asset.IsPlain ∧ foreignRuneSwap.target.IsPlain ∧
      foreignRuneSwap.destination.isNoop = false ∧ foreignRune.asset.isRune = true ∧
      ∃ o t, handle foreignRuneSwap (poolLedger runePool) = (.ok o, t) ∧
        t.backing < (poolLedger runePool).backing - foreignRune.amount.val ∧
        (poolLedger runePool).backing - foreignRune.amount.val - o.emitted.val ≤ t.backing) := by
  constructor
  · have hok : (handle usdcSwap (poolLedger usdcPool)).1.isOk = true := by decide +kernel
    have hfiled : (poolLedger usdcPool).PoolsFiled := poolLedger_filed (by decide +kernel)
    have hforeign : usdcCoin.asset.isRune = false := by decide +kernel
    rcases hrun : handle usdcSwap (poolLedger usdcPool) with ⟨e | o, t⟩
    · rw [hrun] at hok
      cases hok
    · have hkept := backing_after hfiled hrun rfl ⟨rfl, by decide +kernel⟩ rune_isPlain
        (by decide +kernel)
      rw [hforeign] at hkept
      exact ⟨o, t, rfl, by simpa using hkept⟩
  · have hok : (handle foreignRuneSwap (poolLedger runePool)).1.isOk = true := by decide +kernel
    have hfiled : (poolLedger runePool).PoolsFiled := poolLedger_filed (by decide +kernel)
    have hplain : foreignRune.asset.IsPlain := ⟨rfl, by decide +kernel⟩
    have hreal : foreignRuneSwap.destination.isNoop = false := by decide +kernel
    have hrune : foreignRune.asset.isRune = true := by decide +kernel
    have hnative : foreignRuneSwap.target.isNativeRune = true := by decide +kernel
    have hless : (handle foreignRuneSwap (poolLedger runePool)).2.backing <
        (poolLedger runePool).backing - foreignRune.amount.val := by decide +kernel
    refine ⟨hfiled, rfl, hplain, rune_isPlain, hreal, hrune, ?_⟩
    rcases hrun : handle foreignRuneSwap (poolLedger runePool) with ⟨e | o, t⟩
    · rw [hrun] at hok
      cases hok
    · rw [hrun] at hless
      have hbound := backing_after hfiled hrun rfl hplain rune_isPlain hreal
      rw [hrune, hnative] at hbound
      exact ⟨o, t, rfl, hless, hbound⟩

end Swap

end LiquidityNet
