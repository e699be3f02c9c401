import LiquidityNet.Proofs.Swap.Accounts

/-!
# What a swap hands over

The delivery comes between the hops and the burning, and both leave the accounts of the target as
they are. So the output of a swap is what its delivery makes of it: an outbound, a credit, a coin
of the pools, or nothing where the output is to stay and is no synth.
-/

namespace LiquidityNet

open Ledger

variable {k : String} {s t u v : Ledger} {a : Asset}

/-- The coins of a request that reads back as it is do so too. -/
theorem SwapRequest.coin_reread? {m : SwapRequest} {c : Coin} (h : m.reread? = some m)
    (hc : c ∈ m.tx.coins) : c.asset.reread? = some c.asset := by
  obtain ⟨d, -, hd⟩ := mem_of_mapM (assets_of_reread? h).1 hc
  obtain ⟨a, ha, rfl⟩ := Option.map_eq_some_iff.1 hd
  exact Asset.reread?_reread? ha

namespace Swap

variable {m : SwapRequest} {source : Coin} {fee multiplier : Amount}

/-! ## A swap around its delivery -/

theorem permit_distinct (h : permit m a s = .ok ()) : a ≠ m.target := by
  rintro rfl
  unfold permit at h
  simp only [Query.refuse_bind, if_true] at h
  cases hsynth : m.target.synth with
  | false =>
    simp only [hsynth, Bool.false_eq_true, if_false] at h
    split at h <;> cases h
  | true =>
    simp only [hsynth, if_true] at h
    obtain ⟨_, -, h⟩ := Query.bind_eq_ok.1 h
    split at h
    · cases h
    obtain ⟨_, -, h⟩ := Query.bind_eq_ok.1 h
    split at h
    · cases h
    split at h <;> cases h

theorem accept_ne_zero {emitted : Amount} (h : accept m emitted fee = .ok ()) : emitted ≠ 0 := by
  rintro rfl
  unfold accept at h
  simp only [throw, throwThe, MonadExceptOf.throw, bind, Except.bind, pure, Except.pure] at h
  split at h
  · cases h
  split at h
  · cases h
  cases h

/-- A swap from `s` to `t` delivered its output between `u` and `v`. Until then no account but two
of RUNE was touched, and after it nothing but what is burned. -/
structure Delivers (m : SwapRequest) (source : Coin) (emitted : Amount) (burned : List Coin)
    (s u v t : Ledger) : Prop where
  distinct : source.asset ≠ m.target
  nonzero : emitted ≠ 0
  whole : source.asset.IsWhole
  burns : Burns m source burned
  filed : u.Filed
  height : u.height = s.height
  others : ∀ k T, Table.ofKey? k = some T →
    T ∉ [Table.pools, .fees, .slips, .balances, .supplies] → u.get? k = s.get? k
  balances : ∀ owner a, owner ≠ .ofModule Module.thorchain → owner ≠ .ofModule Module.reserve →
    u.balancesOf a owner = s.balancesOf a owner
  supplies : ∀ a, a ≠ .rune → u.supplyOf a = s.supplyOf a
  delivered : deliver m emitted u = (.ok (), v)
  ended : ∃ x, burnCoins burned v = (.ok (), x) ∧ ∀ k, t.get? k = x.get? k

theorem handle_delivers {o : Outcome} (hs : s.Filed) (hm : m.reread? = some m)
    (h : handle m s = (.ok o, t)) (hcoin : m.tx.coins.head? = some source) :
    ∃ burned u v, Delivers m source o.emitted burned s u v t := by
  have hcoins := handle_coins h hcoin
  have hread : source.asset.reread? = some source.asset :=
    SwapRequest.coin_reread? hm (hcoins ▸ List.mem_cons_self)
  obtain ⟨fee, multiplier, x, -, hrun, hcommit⟩ := handle_ok h
  obtain ⟨coin, before, last, r, u, v, hhead, hpermit, hhops, haccept, hpublish, hdeliver, hburn,
    hemitted⟩ := execute_ok hrun
  obtain rfl : source = coin := Option.some.inj (hcoin.symm.trans hhead)
  have hhopped := (hops_confined _ _ _ _).changes hhops
  have hpublished : Changes [.fees, .slips, .balances, .supplies] r u :=
    (Action.Confined.forM fun e _ => publish_confined e).changes hpublish
  have hmoved : ∀ k T, Table.ofKey? k = some T → T ∉ [Table.fees, .slips] → T ≠ .pools →
      k ≠ Key.balance (.ofModule Module.thorchain) .rune →
      k ≠ Key.balance (.ofModule Module.reserve) .rune → k ≠ Key.supply .rune →
      u.amountAt k = s.amountAt k := by
    intro k T hk hT hpools hminter hreserve hsupply
    have hspared : (((before ++ [last]).map (·.event)).forM publish).Spares k :=
      .forM fun e _ => publish_spares hk hT hminter hreserve hsupply e
    refine amountAt_congr ?_
    rw [hspared.get?_eq hpublish, hhopped.get?_eq hk (mt List.mem_singleton.1 hpools),
      get?_checkpointed]
  refine ⟨_, u, v, permit_distinct hpermit, ?_, hops_isWhole hs.checkpointed hread hhops,
    hops_burned hcoins hhops, ?_, ?_, ?_, ?_, ?_, hemitted ▸ hdeliver, x, hburn, hcommit.get?⟩
  · rw [hemitted]
    exact accept_ne_zero haccept
  · exact hpublished.filed (hhopped.filed hs.checkpointed)
  · exact hpublished.height.trans hhopped.height
  · intro k T hk hT
    rw [hpublished.get?_eq hk fun hmem => hT (List.mem_cons_of_mem _ hmem),
      hhopped.get?_eq hk fun hmem => hT ?_, get?_checkpointed]
    rw [List.mem_singleton.1 hmem]
    exact List.mem_cons_self
  · intro owner a hminter hreserve
    refine congrArg Amount.val (hmoved _ _ (Table.ofKey?_balance owner a) (by decide) (by decide)
      (fun hkey => hminter ?_) (fun hkey => hreserve ?_) (Key.balance_ne_supply _ _ _))
    · exact (Key.balance_inj_of_isWhole (by decide) Asset.rune_isWhole hkey.symm).1.symm
    · exact (Key.balance_inj_of_isWhole (by decide) Asset.rune_isWhole hkey.symm).1.symm
  · intro a hne
    exact congrArg Amount.val (hmoved _ _ (Table.ofKey?_supply a) (by decide) (by decide)
      (Key.balance_ne_supply _ _ _).symm (Key.balance_ne_supply _ _ _).symm
      fun hkey => hne (Key.supply_inj hkey))

namespace Delivers

variable {burned : List Coin} {emitted : Amount}

/-- What is burned at last is not of the target. -/
theorem ended_target (h : Delivers m source emitted burned s u v t) (owner : Address) :
    t.balancesOf m.target owner = v.balancesOf m.target owner ∧
      t.supplyOf m.target = v.supplyOf m.target := by
  obtain ⟨x, hburn, hend⟩ := h.ended
  have hapart : ∀ k, (∀ a : Asset, a.IsWhole → a ≠ m.target → Key.Apart k a) →
      t.amountAt k = v.amountAt k := by
    intro k hk
    have hspared : (burnCoins burned).Spares k := burnCoins_spares fun c hc => by
      rcases h.burns.assets c hc with hsource | ⟨hrune, htarget⟩
      · exact hsource ▸ hk _ h.whole h.distinct
      · exact hrune ▸ hk _ Asset.rune_isWhole htarget.symm
    exact (amountAt_congr (hend k)).trans (hspared.amountAt_eq hburn)
  constructor
  · exact congrArg Amount.val (hapart _ fun a ha hne => .of_isWhole ha fun _ => hne)
  · exact congrArg Amount.val (hapart _ fun a _ hne => .of_supply hne.symm)

theorem ended_others (h : Delivers m source emitted burned s u v t) {T : Table}
    (hk : Table.ofKey? k = some T) (hT : T ∉ [Table.balances, .supplies]) :
    t.get? k = v.get? k := by
  obtain ⟨x, hburn, hend⟩ := h.ended
  rw [hend, ((burnCoins_confined _).changes hburn).get?_eq hk hT]

theorem balances_of_person (h : Delivers m source emitted burned s u v t) {owner : Address}
    (a : Asset) (hperson : owner ∉ Module.accounts) :
    u.balancesOf a owner = s.balancesOf a owner := by
  refine h.balances owner a (fun heq => hperson ?_) fun heq => hperson ?_
  · rw [heq]
    decide
  · rw [heq]
    decide

/-- Batches of outbounds are the same before the delivery as at the start, and after it as at the
end. -/
theorem atHeight_eq (h : Delivers m source emitted burned s u v t) (height : Height) :
    Outbounds.atHeight height u = Outbounds.atHeight height s ∧
      Outbounds.atHeight height t = Outbounds.atHeight height v :=
  ⟨Outbounds.atHeight_congr (h.others _ .outbounds (Table.ofKey?_outbounds height) (by decide)),
    Outbounds.atHeight_congr (h.ended_others (Table.ofKey?_outbounds height) (by decide))⟩

theorem queues {o : Outbound} (h : Delivers m source emitted burned s u v t)
    (hqueued : u.Queues v o) :
    s.Queues t o := by
  obtain ⟨b, hbefore, hafter⟩ := hqueued
  obtain ⟨hu, ht⟩ := h.atHeight_eq s.height
  rw [h.height, hu] at hbefore
  rw [h.height] at hafter
  exact ⟨b, hbefore, ht.trans hafter⟩

/-- A synth that comes in leaves the pools' account and its supply. -/
theorem synth_burned (h : Delivers m source emitted burned s u v t)
    (hsynth : source.asset.synth = true) :
    t.balancesOf source.asset poolAccount + source.amount.val =
        s.balancesOf source.asset poolAccount ∧
      t.supplyOf source.asset = s.supplyOf source.asset - source.amount.val := by
  have hrune : source.asset ≠ .rune := Asset.ne_rune_of_synth hsynth
  have hpools : poolAccount ∈ Module.accounts := by decide
  have hdelivered := h.delivered
  have hbalance :
      v.balancesOf source.asset poolAccount = s.balancesOf source.asset poolAccount := by
    rw [← h.balances poolAccount source.asset (by decide) (by decide)]
    refine congrArg Amount.val ((deliver_spares (Table.ofKey?_balance _ _) (by decide)
      (.of_account h.whole hpools h.distinct) (fun hkey => h.distinct ?_) _).amountAt_eq hdelivered)
    exact (Key.balance_inj_of_isWhole (Module.slash_not_mem_text hpools) h.whole hkey).2
  have hsupply : v.supplyOf source.asset = s.supplyOf source.asset := by
    rw [← h.supplies source.asset hrune]
    exact congrArg Amount.val ((deliver_spares (Table.ofKey?_supply _) (by decide)
      (.of_supply h.distinct) (Key.balance_ne_supply _ _ _).symm _).amountAt_eq hdelivered)
  obtain ⟨x, hburn, hend⟩ := h.ended
  obtain ⟨rest, rfl, hrest⟩ := h.burns.synth hsynth
  have hfiled : v.Filed := ((deliver_confined _ _).changes hdelivered).filed h.filed
  obtain ⟨hleft, hless⟩ := burnCoins_burns hfiled hrest hrune hburn
  rw [hbalance] at hleft
  rw [hsupply] at hless
  have hsame : ∀ k, t.amountAt k = x.amountAt k := fun k => amountAt_congr (hend k)
  unfold balancesOf supplyOf at *
  rw [hsame, hsame]
  exact ⟨hleft, hless⟩

end Delivers

/-- The outbound that answers the inbound of a swap. -/
def answer (m : SwapRequest) (net : Amount) : Outbound :=
  { outboundOf m net with memo := Memo.out m.tx.id }

theorem withMemo_outboundOf (m : SwapRequest) (emitted : Amount) :
    Payout.withMemo (outboundOf m emitted) = answer m emitted :=
  if_pos rfl

/-- Under a vault on the chain of the target the answer is all that the request says of it. -/
theorem answer_away (haway : m.target.isNative = false) (net : Amount) (key : PublicKey) :
    { answer m net with vault := some key } =
      ({ chain := m.target.chain
         recipient := m.destination
         vault := some key
         coin := ⟨m.target, net⟩
         memo := "OUT:" ++ m.tx.id.text
         inbound := m.tx.id
         sent := none
         payer := none
         aggregator := m.aggregator
         aggregatorAsset := m.aggregatorAsset
         aggregatorLimit := m.aggregatorLimit } : Outbound) := by
  have hexternal : m.target.homeChain.isHome = false := haway
  have hchain : m.target.homeChain = m.target.chain := by
    unfold Asset.homeChain at hexternal ⊢
    split at hexternal
    · cases hexternal
    · rename_i hplain
      exact if_neg hplain
  unfold answer outboundOf Outbound.make Memo.out
  rw [hexternal, hchain]
  rfl

/-- An output that is not to stay is placed net of a fee, and no less than the limit. -/
theorem deliver_placed {emitted : Amount} (h : deliver m emitted s = (.ok (), t))
    (hreal : m.destination.isNoop = false) :
    ∃ fee, (fee = 0 ∨ fee < emitted) ∧ m.limit ≤ emitted.minus fee ∧
      Payout.place (answer m (emitted.minus fee)) fee s = (.ok true, t) := by
  have hscheduled : Payout.schedule (outboundOf m emitted) m.limit s = (.ok true, t) := by
    rcases deliver_cases h with ⟨hstays, -⟩ | ⟨hstays, -⟩ | ⟨-, hrun⟩
    · exact absurd (hstays.symm.trans hreal) nofun
    · exact absurd (hstays.symm.trans hreal) nofun
    · exact hrun
  obtain ⟨fee, -, hfee, hleast, hplaced⟩ := Payout.schedule_ok hscheduled
  rw [withMemo_outboundOf] at hplaced
  exact ⟨fee, hfee, hleast, hplaced⟩

namespace Delivers

variable {burned : List Coin} {emitted net : Amount}

/-- On another chain the answer joins the current batch, under a vault that is active. -/
theorem away (h : Delivers m source emitted burned s u v t)
    (hread : m.target.reread? = some m.target) (haway : m.target.isNative = false)
    (hplaced : Payout.place (answer m net) fee u = (.ok true, v)) :
    ∃ vaults w, Vaults.asgards .active s = .ok vaults ∧ w ∈ vaults ∧
      s.Queues t { answer m net with vault := some w.key } := by
  obtain ⟨vaults, w, hvaults, hw, hqueued⟩ :=
    Payout.place_away_ok (o := answer m net) h.filed hread haway rfl hplaced
  refine ⟨vaults, w, ?_, hw, h.queues hqueued⟩
  rwa [← Vaults.asgards_congr fun k hk => h.others k .vaults hk (by decide)]

/-- On the home chain the destination is credited, and no batch changes. -/
theorem home (h : Delivers m source emitted burned s u v t)
    (hperson : m.destination ∉ Module.accounts) (hhome : m.target.isNative = true)
    (hplaced : Payout.place (answer m net) fee u = (.ok true, v)) :
    (∀ height, Outbounds.atHeight height t = Outbounds.atHeight height s) ∧
      t.balancesOf m.target m.destination =
        min (s.balancesOf m.target m.destination + net.val) 0xffffffffffffffff := by
  obtain ⟨hsettled, -⟩ := Payout.place_home_ok (o := answer m net) hhome hplaced
  have hcredit := Payout.settle_credits h.filed hsettled (outboundOf_payer_mem m net) hperson
  have hbefore := h.balances_of_person m.target hperson
  constructor
  · intro height
    obtain ⟨hu, ht⟩ := h.atHeight_eq height
    rw [ht, ← hu]
    refine Outbounds.atHeight_congr ?_
    exact ((Payout.settle_confined _ _).changes hsettled).get?_eq (Table.ofKey?_outbounds height)
      (by decide)
  · rw [(h.ended_target _).1, ← hbefore]
    exact hcredit

end Delivers

/-- A swap delivers what it emitted less a fee, and no less than its limit: on another chain as one
outbound at the end of the current batch, under a vault that is active, and on the home chain as a
credit to the destination, up to the largest amount, while no batch changes. A synth that comes in
is burned. -/
theorem output_delivered {o : Outcome} (hs : s.Filed) (hm : m.reread? = some m)
    (h : handle m s = (.ok o, t)) (hcoin : m.tx.coins.head? = some source)
    (hreal : m.destination.isNoop = false) (hperson : m.destination ∉ Module.accounts) :
    ∃ fee : Amount, (fee = 0 ∨ fee < o.emitted) ∧ m.limit ≤ o.emitted.minus fee ∧
      (m.target.isNative = false → ∃ vaults v, Vaults.asgards .active s = .ok vaults ∧
        v ∈ vaults ∧ s.Queues t
          { chain := m.target.chain
            recipient := m.destination
            vault := some v.key
            coin := ⟨m.target, o.emitted.minus fee⟩
            memo := "OUT:" ++ m.tx.id.text
            inbound := m.tx.id
            sent := none
            payer := none
            aggregator := m.aggregator
            aggregatorAsset := m.aggregatorAsset
            aggregatorLimit := m.aggregatorLimit }) ∧
      (m.target.isNative = true →
        (∀ height, Outbounds.atHeight height t = Outbounds.atHeight height s) ∧
        t.balancesOf m.target m.destination =
          min (s.balancesOf m.target m.destination + (o.emitted.minus fee).val)
            0xffffffffffffffff) ∧
      (source.asset.synth = true →
        t.balancesOf source.asset poolAccount + source.amount.val =
            s.balancesOf source.asset poolAccount ∧
          t.supplyOf source.asset = s.supplyOf source.asset - source.amount.val) := by
  obtain ⟨burned, u, v, d⟩ := handle_delivers hs hm h hcoin
  obtain ⟨fee, hfee, hleast, hplaced⟩ := deliver_placed d.delivered hreal
  have htarget := (SwapRequest.assets_of_reread? hm).2
  refine ⟨fee, hfee, hleast, fun haway => ?_, fun hhome => d.home hperson hhome hplaced,
    d.synth_burned⟩
  obtain ⟨vaults, w, hvaults, hw, hqueued⟩ := d.away htarget haway hplaced
  rw [answer_away haway] at hqueued
  exact ⟨vaults, w, hvaults, hw, hqueued⟩

/-! Synthetic ether is swapped for bitcoin, through RUNE and under a vault that holds some. -/

def oneHundred : Amount := .cap 10000000000

def etherPool : Pool := Pool.make (.of .eth "ETH") oneHundred oneHundred

def bitcoinPool : Pool :=
  { Pool.make (.of .btc "BTC") oneHundred oneHundred with lpUnits := oneHundred }

def etherSynth : Coin := ⟨.synthOf .eth "ETH", ⟨500000000, by decide⟩⟩

def bitcoinVault : Vault :=
  { Vault.make 1 .active .asgard ⟨"vault"⟩ [.btc] with coins := [⟨bitcoinPool.asset, oneHundred⟩] }

def bridgeLedger : Ledger :=
  ((((poolLedger etherPool).putRecord (Key.pool bitcoinPool.asset) (.pool bitcoinPool)).putRecord
    (Key.vault bitcoinVault.key) (.vault bitcoinVault)).putRecord
      (Key.balance poolAccount etherSynth.asset) (.amount etherSynth.amount)).putRecord
        (Key.supply etherSynth.asset) (.amount etherSynth.amount)

def bridgeSwap : SwapRequest :=
  { usdcSwap with
    tx := ⟨⟨"A1"⟩, some .thor, ⟨"thor1sender"⟩, ⟨"thor1vault"⟩, [etherSynth], [], ""⟩
    target := bitcoinPool.asset
    destination := ⟨"bc1dest"⟩
    limit := ⟨430000000, by decide⟩ }

theorem filed_poolLedger (p : Pool) : (poolLedger p).Filed := by
  have hpool := (filed_empty (.ofEnvironment .mocknet) 1).putRecord
    (k := Key.pool p.asset) (r := .pool p) rfl
  exact hpool.putRecord (r := .amount p.rune) ⟨.balances, by decide, by simp⟩

theorem filed_bridgeLedger : bridgeLedger.Filed := by
  have hpools := (filed_poolLedger etherPool).putRecord
    (k := Key.pool bitcoinPool.asset) (r := .pool bitcoinPool) rfl
  have hvault := hpools.putRecord (k := Key.vault bitcoinVault.key) (r := .vault bitcoinVault) rfl
  have hheld := hvault.putRecord (k := Key.balance poolAccount etherSynth.asset)
    (r := .amount etherSynth.amount) ⟨.balances, by decide, by simp⟩
  exact hheld.putRecord (r := .amount etherSynth.amount) ⟨.supplies, by decide, by simp⟩

/-- The bitcoin waits for the vault to send it, no less of it than the limit, and no synthetic ether
is left. -/
theorem bridgeSwap_delivered :
    ∃ o t b, handle bridgeSwap bridgeLedger = (.ok o, t) ∧
      Outbounds.atHeight 1 bridgeLedger = .ok b ∧
      Outbounds.atHeight 1 t = .ok { b with items := b.items ++ [
        { chain := .btc
          recipient := ⟨"bc1dest"⟩
          vault := some ⟨"vault"⟩
          coin := ⟨.of .btc "BTC", .cap 431823286⟩
          memo := "OUT:A1"
          inbound := ⟨"A1"⟩
          sent := none
          payer := none
          aggregator := none
          aggregatorAsset := none
          aggregatorLimit := none }] } ∧
      bridgeSwap.limit.val ≤ 431823286 ∧
      t.balancesOf etherSynth.asset poolAccount = 0 ∧ t.supplyOf etherSynth.asset = 0 := by
  have hok : (handle bridgeSwap bridgeLedger).1.isOk = true := by decide +kernel
  have hactive : (Vaults.asgards .active bridgeLedger).toOption = some [bitcoinVault] := by
    decide +kernel
  have hheld : bridgeLedger.balancesOf etherSynth.asset poolAccount = 500000000 := by
    decide +kernel
  have hissued : bridgeLedger.supplyOf etherSynth.asset = 500000000 := by decide +kernel
  have hsent : (Outbounds.atHeight 1 (handle bridgeSwap bridgeLedger).2).toOption.map
      (fun b => b.items.getLast?.map (·.coin.amount)) = some (some (.cap 431823286)) := by
    decide +kernel
  rcases hrun : handle bridgeSwap bridgeLedger with ⟨e | o, t⟩
  · rw [hrun] at hok
    cases hok
  · obtain ⟨fee, -, -, haway, -, hburned⟩ := output_delivered filed_bridgeLedger
      (by decide +kernel) hrun rfl (by decide +kernel) (by decide +kernel)
    obtain ⟨vaults, v, hvaults, hv, b, hbefore, hafter⟩ := haway (by decide +kernel)
    obtain rfl := Except.ok.inj (hvaults.symm.trans (eq_ok_of_toOption hactive))
    rw [List.mem_singleton.1 hv] at hafter
    have hafter : Outbounds.atHeight 1 t = _ := hafter
    have hnet : o.emitted.minus fee = .cap 431823286 := by
      rw [hrun, hafter] at hsent
      simpa [Except.toOption] using hsent
    rw [hnet] at hafter
    obtain ⟨hleft, hsupply⟩ := hburned rfl
    rw [hheld] at hleft
    rw [hissued] at hsupply
    exact ⟨o, t, b, rfl, hbefore, hafter, by decide, Nat.add_right_cancel hleft, hsupply⟩

/-! ## Where the output is -/

/-- An outbound of the target joined the current batch. -/
def IsQueued (m : SwapRequest) (s t : Ledger) : Prop :=
  ∃ o : Outbound, o.coin.asset = m.target ∧ s.Queues t o

/-- The destination holds more of the target. -/
def IsCredited (m : SwapRequest) (s t : Ledger) : Prop :=
  s.balancesOf m.target m.destination < t.balancesOf m.target m.destination

/-- The account of the pools holds all of the output in addition. -/
def IsKept (m : SwapRequest) (emitted : Amount) (s t : Ledger) : Prop :=
  t.balancesOf m.target poolAccount = s.balancesOf m.target poolAccount + emitted.val

/-- A synth that is to stay is minted for the pools. -/
theorem Delivers.minted {burned : List Coin} {emitted : Amount}
    (h : Delivers m source emitted burned s u v t) (hnoop : m.destination.isNoop = true)
    (hsynth : m.target.synth = true) :
    ∃ x y, Bank.mint Module.thorchain ⟨m.target, emitted⟩ u = (.ok (), x) ∧
      Bank.transferCoin (.ofModule Module.thorchain) (.ofModule Module.asgard)
        ⟨m.target, emitted⟩ x = (.ok (), y) ∧
      Ledger.emit (.supply .mint m.target emitted "swap") y = (.ok (), v) := by
  rcases deliver_cases h.delivered with ⟨-, -, hrun⟩ | ⟨-, hplain, -⟩ | ⟨hreal, -⟩
  · exact hrun
  · exact absurd (hsynth.symm.trans hplain) nofun
  · exact absurd (hnoop.symm.trans hreal) nofun

theorem Delivers.kept {burned : List Coin} {emitted : Amount}
    (h : Delivers m source emitted burned s u v t) (hnoop : m.destination.isNoop = true)
    (hsynth : m.target.synth = true)
    (hlimit : t.balancesOf m.target poolAccount < 0xffffffffffffffff) : IsKept m emitted s t := by
  obtain ⟨x, y, hmint, hmoved, htold⟩ := h.minted hnoop hsynth
  have hnames : Address.ofModule Module.thorchain ≠ .ofModule Module.asgard := by decide
  have hfiled : x.Filed := ((Bank.mint_confined _ _).changes hmint).filed h.filed
  have hmove : y.balancesOf m.target poolAccount =
      min (x.balancesOf m.target poolAccount + emitted.val) 0xffffffffffffffff :=
    (Bank.transferCoin_credits hfiled.readsAmounts hnames hmoved).2
  have hminted : x.balancesOf m.target poolAccount = u.balancesOf m.target poolAccount := by
    refine congrArg Amount.val ((Bank.mint_spares (fun hkey => hnames ?_) ?_).amountAt_eq hmint)
    · exact (Key.balance_inj hkey).symm
    · exact Key.balance_ne_supply _ _ _
  have hend : v.balancesOf m.target poolAccount = y.balancesOf m.target poolAccount :=
    congrArg Amount.val ((Action.Spares.emit _).amountAt_eq htold)
  have hbefore := h.balances poolAccount m.target (by decide) (by decide)
  unfold IsKept
  rw [(h.ended_target poolAccount).1, hend, hmove, hminted, hbefore] at hlimit ⊢
  omega

/-- Where the output is neither scheduled nor minted, nothing of the target changes hands. -/
theorem Delivers.dropped {burned : List Coin} {emitted : Amount}
    (h : Delivers m source emitted burned s u v t) (hnoop : m.destination.isNoop = true)
    (hplain : m.target.synth = false) (hperson : m.destination ∉ Module.accounts) :
    ¬ IsQueued m s t ∧ ¬ IsCredited m s t ∧ ¬ IsKept m emitted s t := by
  obtain rfl : v = u := by
    rcases deliver_cases h.delivered with ⟨-, hsynth, -⟩ | ⟨-, -, hnone⟩ | ⟨hreal, -⟩
    · exact absurd (hplain.symm.trans hsynth) nofun
    · exact hnone
    · exact absurd (hnoop.symm.trans hreal) nofun
  refine ⟨?_, ?_, ?_⟩
  · rintro ⟨o, -, b, hbefore, hafter⟩
    obtain ⟨hu, ht⟩ := h.atHeight_eq s.height
    rw [ht, hu, hbefore] at hafter
    have hitems : b.items = b.items ++ [o] := congrArg OutboundBatch.items (Except.ok.inj hafter)
    exact absurd (congrArg List.length hitems) (by simp)
  · unfold IsCredited
    rw [(h.ended_target _).1, h.balances_of_person m.target hperson]
    exact Nat.lt_irrefl _
  · have hbefore := h.balances poolAccount m.target (by decide) (by decide)
    have hpos : emitted.val ≠ 0 := fun hzero => h.nonzero (Amount.val_inj.1 hzero)
    unfold IsKept
    rw [(h.ended_target poolAccount).1, hbefore]
    omega

/-- The output of a swap is queued, credited to the destination or kept by the pools, unless it is
to stay and is no synth: then it is dropped. -/
theorem output_somewhere_iff {o : Outcome} (hs : s.Filed) (hm : m.reread? = some m)
    (h : handle m s = (.ok o, t)) (hperson : m.destination ∉ Module.accounts)
    (hcredit : t.balancesOf m.target m.destination < 0xffffffffffffffff)
    (hpools : t.balancesOf m.target poolAccount < 0xffffffffffffffff) :
    IsQueued m s t ∨ IsCredited m s t ∨ IsKept m o.emitted s t ↔
      ¬ (m.destination.isNoop = true ∧ m.target.synth = false) := by
  obtain ⟨source, hcoin⟩ := handle_head h
  obtain ⟨burned, u, v, d⟩ := handle_delivers hs hm h hcoin
  constructor
  · rintro hsomewhere ⟨hnoop, hplain⟩
    obtain ⟨hqueued, hcredited, hkept⟩ := d.dropped hnoop hplain hperson
    exact hsomewhere.elim hqueued fun hrest => hrest.elim hcredited hkept
  · intro hdelivered
    cases hnoop : m.destination.isNoop with
    | true =>
      have hsynth : m.target.synth = true := by
        cases hplain : m.target.synth with
        | true => rfl
        | false => exact absurd ⟨hnoop, hplain⟩ hdelivered
      exact .inr (.inr (d.kept hnoop hsynth hpools))
    | false =>
      obtain ⟨fee, hfee, -, hplaced⟩ := deliver_placed d.delivered hnoop
      cases hnative : m.target.isNative with
      | false =>
        obtain ⟨vaults, w, -, -, hqueued⟩ :=
          d.away (SwapRequest.assets_of_reread? hm).2 hnative hplaced
        exact .inl ⟨_, rfl, hqueued⟩
      | true =>
        have hgiven := (d.home hperson hnative hplaced).2
        have hpos : 0 < o.emitted.val - fee.val := by
          have hnonzero : o.emitted.val ≠ 0 := fun hzero => d.nonzero (Amount.val_inj.1 hzero)
          rcases hfee with rfl | hless
          · exact Nat.pos_of_ne_zero hnonzero
          · exact Nat.sub_pos_of_lt hless
        rw [Amount.val_minus] at hgiven
        right
        left
        unfold IsCredited
        omega

/-! Bitcoin that is to stay is dropped. -/

def stayingSwap : SwapRequest :=
  { usdcSwap with
    tx := ⟨⟨"A1"⟩, some .thor, ⟨"thor1sender"⟩, ⟨"thor1vault"⟩, [⟨.rune, oneHundred⟩], [], ""⟩
    target := bitcoinPool.asset
    destination := .noop }

theorem stayingSwap_dropped :
    ∃ o t, handle stayingSwap (poolLedger bitcoinPool) = (.ok o, t) ∧ 0 < o.emitted.val ∧
      ¬ (IsQueued stayingSwap (poolLedger bitcoinPool) t ∨
        IsCredited stayingSwap (poolLedger bitcoinPool) t ∨
        IsKept stayingSwap o.emitted (poolLedger bitcoinPool) t) := by
  have hok : ((handle stayingSwap (poolLedger bitcoinPool)).1.map
      (decide <| 0 < ·.emitted.val)).toOption = some true := by decide +kernel
  have hlimits : (handle stayingSwap (poolLedger bitcoinPool)).2.balancesOf stayingSwap.target
        stayingSwap.destination < 0xffffffffffffffff ∧
      (handle stayingSwap (poolLedger bitcoinPool)).2.balancesOf stayingSwap.target poolAccount <
        0xffffffffffffffff := by decide +kernel
  rcases hrun : handle stayingSwap (poolLedger bitcoinPool) with ⟨e | o, t⟩ <;>
    rw [hrun] at hok hlimits
  · cases hok
  · have hpos : 0 < o.emitted.val := of_decide_eq_true (Option.some.inj hok)
    refine ⟨o, t, rfl, hpos, fun hsomewhere => ?_⟩
    exact (output_somewhere_iff (filed_poolLedger bitcoinPool) (by decide +kernel) hrun
      (by decide +kernel) hlimits.1 hlimits.2).1 hsomewhere ⟨by decide +kernel, rfl⟩

end Swap

end LiquidityNet
