import LiquidityNet.Proofs.Application.Blocks

/-!
# Pools are filed under their assets

A pool is stored under its own asset. A genesis is read from texts, so that its pools are found
again by the assets they were stored under; what is stored later was found before. So pools stay
filed whatever the engine calls and whatever comes of a call.
-/

namespace LiquidityNet

open LiquidityNet.Action Ledger

namespace Ragnarok

theorem stagePool_poolsFiled (height : Height) {x : Pool} (hx : x.asset.reread? = some x.asset) :
    (stagePool height x).Keeps PoolsFiled := by
  refine .ite (fun _ => .pure fun _ hs => hs) fun _ => ?_
  refine .bind (oversees_poolsFiled.savePool hx) fun _ => ?_
  exact oversees_poolsFiled.apart [] (.emit _) (by decide) (by decide)

theorem stagePools_poolsFiled : stagePools.Keeps PoolsFiled := by
  have hpast : ∀ s, PoolsFiled s → PoolsFiled s := fun _ hs => hs
  refine .pastRead hpast fun t => .ite (fun _ => .pure hpast) fun _ => .pastRead hpast fun _ => ?_
  refine .readFact hpast (fun _ _ _ hall => Pools.reread?_of_all hall) fun xs hxs => ?_
  refine .bind (.forM fun x hx => stagePool_poolsFiled _ (hxs x hx)) fun _ => ?_
  exact oversees_poolsFiled.saveNetwork trivial

theorem nextRound_poolsFiled (t : Network) : (nextRound t).Keeps PoolsFiled := by
  refine .computeThen (fun _ hs => hs) fun round _ => ?_
  refine .bind (oversees_poolsFiled.saveNetwork trivial) fun _ => ?_
  exact (oversees_poolsFiled.returnBonds round).attempt.bind fun _ => stagePools_poolsFiled

theorem start_poolsFiled (n : Network) : (start n).Keeps PoolsFiled := by
  intro s r t hs hrun
  have ht := oversees_poolsFiled.start s.height
    (fun _ hs => oversees_poolsFiled.putNetwork trivial hs) s r t ⟨hs, rfl⟩ hrun
  cases r with
  | ok _ => exact ht
  | error _ => exact ht.elim id id

theorem tick_poolsFiled : tick.Keeps PoolsFiled := by
  have hpast : ∀ s, PoolsFiled s → PoolsFiled s := fun _ hs => hs
  refine .pastRead hpast fun t => .ite (fun _ => start_poolsFiled t) fun _ => ?_
  refine .ite (fun _ => .pastRead hpast fun _ => ?_) fun _ => nextRound_poolsFiled t
  exact .ite (fun _ => .pure hpast) fun _ => nextRound_poolsFiled _

end Ragnarok

/-- The pools of a genesis are read from texts, as all of it is. -/
theorem Genesis.apply_poolsFiled {g : Genesis} (hparsed : ∀ p ∈ g.pools, p.asset.IsParsed) :
    g.apply.Keeps PoolsFiled := by
  refine make_keeps fun e he => ?_
  rcases entry_cases he with ⟨p, hp, hentry⟩ | ⟨n, -, hentry⟩ | ⟨Ts, hentry, hpools, -⟩
  · rw [hentry]
    exact oversees_poolsFiled.savePool (hparsed p hp).reread?
  · rw [hentry]
    exact .of_confined (Nodes.save_confined n) fun _ _ h hs => hs.of_changes h (by decide)
  · exact .of_confined hentry fun _ _ h hs => hs.of_changes h hpools

namespace Application

theorem lasting_poolsFiled : Lasting PoolsFiled where
  abiding := oversees_poolsFiled.abiding
  beginBlock :=
    oversees_poolsFiled.apart _ Rotation.beginBlock_confined (by decide) (by decide)
  tick := Ragnarok.tick_poolsFiled
  apply := oversees_poolsFiled.applyChanges

/-- Whatever the engine calls on a network from its genesis on, each pool is found by its asset. -/
theorem poolsFiled_from_genesis {g : Genesis} (hparsed : ∀ p ∈ g.pools, p.asset.IsParsed)
    (settings : Settings) (height : Height) (engineKeys : List String) (calls : List Call) :
    let app : Application := ⟨(g.apply (Ledger.empty settings height)).2, engineKeys⟩
    (app.after calls).ledger.PoolsFiled :=
  lasting_poolsFiled.after calls ((Genesis.apply_poolsFiled hparsed).after
    (poolsFiled_empty settings height))

end Application

end LiquidityNet
