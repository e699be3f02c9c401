import LiquidityNet.Proofs.Asset.Reading
import LiquidityNet.Record

/-!
# Records read back

A record of texts is changed by being read once at most: what was read and is stored again reads
back as it is.
-/

namespace LiquidityNet

variable {α : Type}

theorem mapM_of_mapM {f : α → Option α} (hf : ∀ x y, f x = some y → f y = some y)
    {xs ys : List α} (h : xs.mapM f = some ys) : ys.mapM f = some ys := by
  induction xs generalizing ys with
  | nil =>
    obtain rfl := Option.some.inj h
    rfl
  | cons x xs ih =>
    rw [List.mapM_cons] at h
    obtain ⟨y, hy, h⟩ := Option.bind_eq_some_iff.1 h
    obtain ⟨zs, hzs, h⟩ := Option.bind_eq_some_iff.1 h
    obtain rfl := Option.some.inj h
    rw [List.mapM_cons, hf x y hy, ih hzs]
    rfl

theorem mapM_append {f : α → Option α} {xs ys : List α} (hxs : xs.mapM f = some xs)
    (hys : ys.mapM f = some ys) : (xs ++ ys).mapM f = some (xs ++ ys) := by
  rw [List.mapM_append, hxs, hys]
  rfl

theorem Coin.reread?_reread? (c d : Coin) (h : c.reread? = some d) : d.reread? = some d := by
  obtain ⟨a, ha, rfl⟩ := Option.map_eq_some_iff.1 h
  exact Option.map_eq_some_iff.2 ⟨a, Asset.reread?_reread? ha, rfl⟩

theorem Transaction.reread?_reread? (x y : Transaction) (h : x.reread? = some y) :
    y.reread? = some y := by
  obtain ⟨coins, hcoins, h⟩ := Option.bind_eq_some_iff.1 h
  obtain ⟨gas, hgas, h⟩ := Option.bind_eq_some_iff.1 h
  obtain rfl := Option.some.inj h
  unfold reread?
  rw [mapM_of_mapM Coin.reread?_reread? hcoins, mapM_of_mapM Coin.reread?_reread? hgas]
  rfl

theorem Outbound.reread?_reread? (x y : Outbound) (h : x.reread? = some y) :
    y.reread? = some y := by
  obtain ⟨coin, hcoin, rfl⟩ := Option.map_eq_some_iff.1 h
  exact Option.map_eq_some_iff.2 ⟨coin, Coin.reread?_reread? _ _ hcoin, rfl⟩

/-- The assets of a request that reads back as it is do so too. -/
theorem SwapRequest.assets_of_reread? {m : SwapRequest} (h : m.reread? = some m) :
    m.tx.coins.mapM Coin.reread? = some m.tx.coins ∧ m.target.reread? = some m.target := by
  obtain ⟨tx, htx, h⟩ := Option.bind_eq_some_iff.1 h
  obtain ⟨target, htarget, h⟩ := Option.bind_eq_some_iff.1 h
  have hself := Option.some.inj h
  obtain rfl : tx = m.tx := congrArg SwapRequest.tx hself
  obtain rfl : target = m.target := congrArg SwapRequest.target hself
  obtain ⟨coins, hcoins, htx⟩ := Option.bind_eq_some_iff.1 htx
  obtain ⟨gas, -, htx⟩ := Option.bind_eq_some_iff.1 htx
  obtain rfl : coins = m.tx.coins := congrArg Transaction.coins (Option.some.inj htx)
  exact ⟨hcoins, htarget⟩

/-- The asset of its coin is all of an outbound that could be changed. -/
theorem Outbound.reread?_of_asset {o : Outbound} (h : o.coin.asset.reread? = some o.coin.asset) :
    o.reread? = some o :=
  Option.map_eq_some_iff.2 ⟨o.coin, Option.map_eq_some_iff.2 ⟨_, h, rfl⟩, rfl⟩

namespace OutboundBatch

theorem reread?_reread? {b c : OutboundBatch} (h : b.reread? = some c) : c.reread? = some c := by
  obtain ⟨items, hitems, rfl⟩ := Option.map_eq_some_iff.1 h
  exact Option.map_eq_some_iff.2 ⟨items, mapM_of_mapM Outbound.reread?_reread? hitems, rfl⟩

theorem reread?_height {b c : OutboundBatch} (h : b.reread? = some c) : c.height = b.height := by
  obtain ⟨items, -, rfl⟩ := Option.map_eq_some_iff.1 h
  rfl

theorem reread?_append {b : OutboundBatch} {items : List Outbound} (hb : b.reread? = some b)
    (hitems : items.mapM Outbound.reread? = some items) :
    OutboundBatch.reread? { b with items := b.items ++ items } =
      some { b with items := b.items ++ items } := by
  obtain ⟨own, hown, hb⟩ := Option.map_eq_some_iff.1 hb
  obtain rfl : own = b.items := congrArg OutboundBatch.items hb
  exact Option.map_eq_some_iff.2 ⟨_, mapM_append hown hitems, rfl⟩

end OutboundBatch

namespace Attestation

theorem reread?_eq_some {v w : Attestation} (h : v.reread? = some w) :
    ∃ tx outbounds, v.inbound.tx.reread? = some tx ∧
      v.outbounds.mapM Transaction.reread? = some outbounds ∧
      w = { v with inbound := { v.inbound with tx }, outbounds } := by
  obtain ⟨tx, htx, h⟩ := Option.bind_eq_some_iff.1 h
  obtain ⟨outbounds, houtbounds, h⟩ := Option.bind_eq_some_iff.1 h
  exact ⟨tx, outbounds, htx, houtbounds, (Option.some.inj h).symm⟩

theorem reread?_txId {v w : Attestation} (h : v.reread? = some w) : w.txId = v.txId := by
  obtain ⟨tx, outbounds, -, -, rfl⟩ := reread?_eq_some h
  rfl

/-- What was read reads back as it is, also after it noted a height. -/
theorem reread?_reread? {v w : Attestation} (h : v.reread? = some w) (height : Height) :
    Attestation.reread? { w with outboundHeight := height } =
      some { w with outboundHeight := height } := by
  obtain ⟨tx, outbounds, htx, houtbounds, rfl⟩ := reread?_eq_some h
  unfold reread?
  simp only [Transaction.reread?_reread? _ _ htx,
    mapM_of_mapM Transaction.reread?_reread? houtbounds]
  rfl

end Attestation

end LiquidityNet
