import LiquidityNet.Application
import LiquidityNet.Proofs.Dispatch.Atomicity
import LiquidityNet.Proofs.Ledger.Room
import LiquidityNet.Proofs.Queue.Batches

/-!
# Batches that run to their end

A swap is carried out behind a boundary that no fault passes, but its refund is not. The refund of a
failed swap names the vault that the coins came in by, so a batch needs room for the coins of the
swaps in it. With that room every swap of the batch is carried out or refunded, and no refund stops
the swaps after it.
-/

namespace LiquidityNet

open LiquidityNet.Action Ledger

variable {cs : List Coin}

namespace Refund

theorem burn_faultless (module : String) (c : Coin) : (burn module c).Faultless := by
  unfold burn
  extract_lets burned
  have hburned : ∀ moved, (burned moved).Faultless := by
    intro moved
    cases moved with
    | error e => exact .pure ()
    | ok _ =>
      refine (Bank.burn_faultless _ c).attempt.bind fun outcome => ?_
      rcases outcome with e | _
      · exact .pure ()
      · exact .emit _
  refine .ite (fun _ => .bind (.pure _) hburned) fun _ => ?_
  exact (Bank.transfer_faultless _ _ _).attempt.bind hburned

theorem reserve_faultless (inbound : Inbound) (module : String) (c : Coin) :
    (reserve inbound module c).Faultless := by
  refine (Bank.transfer_faultless _ _ _).attempt.bind fun moved => ?_
  rcases moved with e | _
  · exact .pure ()
  · exact .emit _

theorem settle_faultless (inbound : Inbound) (payer : Option String) (pool : Option Pool)
    (c : Coin) : (settle inbound payer pool c).Faultless := by
  refine .ite (fun _ => ?_) fun _ => .ite (fun _ => burn_faultless _ c) fun _ => ?_
  · cases pool with
    | none => exact .pure ()
    | some p => exact (Pools.save_faultless _).bind fun _ => .emit _
  · exact .ite (fun _ => reserve_faultless inbound _ c) fun _ => .pure ()

/-- A coin that is sent back takes up its own room, and one that is settled otherwise none. -/
theorem coin_room (cs : List Coin) (inbound : Inbound) (payer : Option String) (done : Progress)
    {c : Coin} (hread : c.reread? = some c) :
    (coin inbound payer done c).Completes (HasRoom [] (c :: cs)) (fun _ => HasRoom [] cs)
      (HasRoom [] cs) := by
  have hdrop : ∀ s, HasRoom [] (c :: cs) s → HasRoom [] cs s := fun _ hs => hs.drop [c]
  have hsettled : ∀ (pool : Option Pool) (failure : String), Action.Sustains (HasRoom [] cs) (do
      settle inbound payer pool c
      return { done with
        reason := done.reason ++ "; fail to refund (" ++ c.text ++ "): " ++ failure } :
        Action Progress) := fun pool failure =>
    .of_confined ((settle_faultless inbound payer pool c).bind fun _ => .pure _)
      ((settle_confined inbound payer pool c).bind fun _ => .pure _)
      fun s t hchanges hs => hs.of_changes hchanges (by decide)
  refine .pastRead (Pools.find?_faultless _) hdrop fun pool => ?_
  refine .ite (fun _ => .pure hdrop) fun _ => ?_
  have hscheduled := (Payout.schedule_room cs (o := outboundOf inbound payer c) rfl hread
    0).restrict fun _ hs => HasRoom.unclaimed (o := outboundOf inbound payer c) hs
  refine hscheduled.attempt.bind fun scheduled => ?_
  rcases scheduled with e | _ | _
  · exact hsettled pool _
  · exact hsettled pool _
  · exact .pure fun _ hs => hs

theorem refund_room (cs : List Coin) (inbound : Inbound) (code : Word) (reason : String)
    (payer : Option String) (hread : ∀ c ∈ inbound.tx.coins, c.reread? = some c) :
    (refund inbound code reason payer).Completes (HasRoom [] (inbound.tx.coins ++ cs))
      (fun _ => HasRoom [] cs) (HasRoom [] cs) := by
  have hcoins := Completes.foldlM_rest (I := fun rest => HasRoom [] (rest ++ cs))
    (R := HasRoom [] cs) (f := coin inbound payer) (fun done c hc rest =>
      (coin_room (rest ++ cs) inbound payer done (hread c hc)).mono (fun _ hs => hs)
        (fun _ _ hs => hs) fun _ hs => hs.drop rest) ⟨reason, []⟩
  refine hcoins.bind fun done => ?_
  have hemitted : Confined [] (Ledger.emit (.refund code done.reason inbound.tx done.returned)) :=
    .emit _
  exact .of_confined (.emit _) hemitted fun s t hchanges hs => hs.of_changes hchanges (by decide)

end Refund

namespace Swap

/-- A synth or a coin that is handed over either needs no vault or is covered by the one chosen. -/
theorem deliver_room {m : SwapRequest} (hread : m.target.reread? = some m.target)
    (emitted : Amount) : (deliver m emitted).Keeps (HasRoom [] cs) := by
  unfold deliver
  refine .ite (fun _ => ?_) fun _ => ?_
  · have hminted : Confined [.balances, .supplies] (do
        Bank.mint Module.thorchain ⟨m.target, emitted⟩
        Bank.moveModule Module.thorchain Module.asgard [⟨m.target, emitted⟩]
        Ledger.emit (.supply .mint m.target emitted "swap")) := by
      refine .bind ((Bank.mint_confined _ _).mono (by decide)) fun _ => ?_
      refine .bind ((Bank.moveModule_confined _ _ _).mono (by decide)) fun _ => ?_
      exact Confined.emit _
    refine .ite (fun _ => ?_) fun _ => .pure fun _ hs => hs
    exact .of_confined hminted fun s t hchanges hs => hs.of_changes hchanges (by decide)
  · have hcoin : (outboundOf m emitted).coin.reread? = some (outboundOf m emitted).coin :=
      Option.map_eq_some_iff.2 ⟨m.target, hread, rfl⟩
    have hscheduled := (Payout.schedule_room cs (o := outboundOf m emitted) rfl hcoin m.limit).leads
    refine (Keeps.attempt hscheduled).bind fun scheduled => ?_
    rcases scheduled with e | _ | _
    · exact .refuse fun _ hs => hs
    · exact .refuse fun _ hs => hs
    · exact .pure fun _ hs => hs

theorem execute_room {m : SwapRequest} (hread : m.target.reread? = some m.target)
    (fee multiplier : Amount) : (execute m fee multiplier).Keeps (HasRoom [] cs) := by
  have hapart : ∀ {α : Type} {body : Action α},
      Confined [.pools, .fees, .slips, .balances, .supplies] body → body.Keeps (HasRoom [] cs) :=
    fun hbody => .of_confined hbody fun s t hchanges hs => hs.of_changes hchanges (by decide)
  unfold execute
  refine .bind (hapart (.check _)) fun _ => ?_
  split
  · refine .pastRead (fun _ hs => hs) fun _ => ?_
    refine .bind (hapart ((hops_confined _ _ _ _).mono (by decide))) fun hop => ?_
    refine .bind (hapart (.check _)) fun _ => ?_
    refine .bind (.forM fun e _ => hapart ((publish_confined e).mono (by decide))) fun _ => ?_
    refine (deliver_room hread _).bind fun _ => ?_
    refine .bind (hapart ((burnCoins_confined _).mono (by decide))) fun _ => ?_
    exact .pure fun _ hs => hs
  · exact .refuse fun _ hs => hs

theorem handle_room {m : SwapRequest} (hread : m.target.reread? = some m.target) :
    (handle m).Keeps (HasRoom [] cs) := by
  refine .checkThen (fun _ hs => hs) fun _ _ => .pastRead (fun _ hs => hs) fun fee => ?_
  refine .pastRead (fun _ hs => hs) fun multiplier => ?_
  exact .committed (execute_confined m fee multiplier) (execute_room hread fee multiplier)
    (fun s hs => hs.alike s.alike_checkpointed) (fun _ hs => hs)
    fun _ _ _ hcommit hs => hs.alike hcommit.alike

end Swap

/-! ## Batches -/

theorem Application.runSwap_room (cs : List Coin) {m : SwapRequest}
    (hread : m.target.reread? = some m.target) :
    (runSwap m).Sustains (HasRoom [] cs) := by
  have hroute : (Dispatch.route (.swap m)).Keeps (HasRoom [] cs) :=
    (Swap.handle_room hread).bind fun _ => .pure fun _ hs => hs
  have hkeeps : (Dispatch.dispatch (.swap m)).Keeps (HasRoom [] cs) :=
    Dispatch.dispatch_keeps_of hroute (fun s hs => hs.alike s.alike_checkpointed)
      fun _ _ hcommit hs => hs.alike hcommit.alike
  have hfaultless : (Dispatch.dispatch (.swap m)).Faultless := by
    intro s f t hrun
    have hatomic := Dispatch.dispatch_atomic (.swap m) s
    rw [hrun] at hatomic
    exact hatomic
  exact (Completes.of_faultless hfaultless hkeeps).bind fun _ => .pure fun _ hs => hs

namespace SwapRequest

/-- What was read of a request reads back as it is. -/
theorem reread?_reread? {m k : SwapRequest} (h : m.reread? = some k) :
    k.target.reread? = some k.target ∧ ∀ c ∈ k.tx.coins, c.reread? = some c := by
  obtain ⟨tx, htx, h⟩ := Option.bind_eq_some_iff.1 h
  obtain ⟨target, htarget, h⟩ := Option.bind_eq_some_iff.1 h
  obtain rfl := Option.some.inj h
  refine ⟨Asset.reread?_reread? htarget, fun c hc => ?_⟩
  obtain ⟨coins, hcoins, h⟩ := Option.bind_eq_some_iff.1 htx
  obtain ⟨gas, hgas, h⟩ := Option.bind_eq_some_iff.1 h
  obtain rfl := Option.some.inj h
  obtain ⟨d, -, hd⟩ := mem_of_mapM hcoins hc
  exact Coin.reread?_reread? d c hd

end SwapRequest

namespace Queue

/-- The coins of the swaps in the queue. -/
def coins (qs : List QueuedSwap) : List Coin := qs.flatMap (·.request.tx.coins)

variable {s : Ledger}

/-- A queued request that was read can be handed over and sent back as it is. -/
theorem reads_of_queued {q : QueuedSwap} (hq : q ∈ s.queued) :
    q.request.target.reread? = some q.request.target ∧
      ∀ c ∈ q.request.tx.coins, c.reread? = some c := by
  obtain ⟨⟨k, r⟩, -, hread⟩ := List.mem_filterMap.1 hq
  obtain ⟨request, hrequest, hread⟩ := Option.bind_eq_some_iff.1 hread
  obtain ⟨index, -, hread⟩ := Option.bind_eq_some_iff.1 hread
  obtain rfl := Option.some.inj hread
  cases r with
  | swap m => exact SwapRequest.reread?_reread? hrequest
  | _ => cases hrequest

/-- The requests of a batch can be handed over and sent back as they are. -/
theorem batch_reads {rs : List Rated} (hbatch : batch s = .ok rs) :
    ∀ r ∈ rs, r.request.target.reread? = some r.request.target ∧
      ∀ c ∈ r.request.tx.coins, c.reread? = some c := by
  intro r hr
  obtain ⟨rest, hperm⟩ := batch_perm hbatch
  exact reads_of_queued (q := r.queued)
    (hperm.mem_iff.2 (List.mem_append_left _ (List.mem_map_of_mem hr)))

theorem coins_perm {qs ps rest : List QueuedSwap} (h : qs.Perm (ps ++ rest)) :
    (coins qs).Perm (coins ps ++ coins rest) := by
  unfold coins
  rw [← List.flatMap_append]
  exact h.flatMap_right _

theorem refund_room (cs : List Coin) {m : SwapRequest} (cause : Error)
    (hread : ∀ c ∈ m.tx.coins, c.reread? = some c) :
    (refund m cause).Completes (HasRoom [] (m.tx.coins ++ cs)) (fun _ => HasRoom [] cs)
      (HasRoom [] cs) := by
  have hdrop : ∀ s, HasRoom [] (m.tx.coins ++ cs) s → HasRoom [] cs s := fun _ hs => hs.drop _
  have hvault : (receivingVault m.tx.id).Faultless (HasRoom [] (m.tx.coins ++ cs)) := by
    intro s f _ h
    unfold receivingVault at h
    split at h <;> cases h
  refine .pastRead hvault hdrop fun vault => .pastRead .currentHeight hdrop fun height => ?_
  have hsent := Refund.refund_room cs ⟨m.tx, vault, height, height⟩ failureCode cause.message none
    hread
  exact hsent.attempt.bind fun outcome => .pure fun _ hs => by cases outcome <;> exact hs

/-- A swap uses up no more room than its coins take, whatever comes of it. -/
theorem runOne_room (cs : List Coin) {r : Rated}
    (htarget : r.request.target.reread? = some r.request.target)
    (hcoins : ∀ c ∈ r.request.tx.coins, c.reread? = some c) :
    (runOne Application.runSwap r).Completes (HasRoom [] (r.request.tx.coins ++ cs))
      (fun _ => HasRoom [] cs) (HasRoom [] cs) := by
  have hremoved : ∀ outcome : Option Error, Action.Sustains (HasRoom [] cs)
      (do remove r.request.tx.id r.index; return (r.request.tx.id, outcome)) := by
    intro outcome
    exact .of_confined (.bind (.erase _) fun _ => .pure _)
      ((remove_confined r.request.tx.id r.index).bind fun _ => .pure _)
      fun s t hchanges hs => hs.of_changes hchanges (by decide)
  have hdrop : ∀ s, HasRoom [] (r.request.tx.coins ++ cs) s → HasRoom [] cs s :=
    fun _ hs => hs.drop _
  have hran := (Application.runSwap_room (r.request.tx.coins ++ cs) htarget).attempt
  refine (hran.mono_refusal hdrop).bind fun outcome => ?_
  cases outcome with
  | ok _ => exact (hremoved none).restrict hdrop
  | error e => exact (refund_room cs e hcoins).bind fun _ => hremoved (some e)

/-- A batch runs to its end if there is room for its coins. -/
theorem mapM_runOne_room (cs : List Coin) {rs : List Rated}
    (hreads : ∀ r ∈ rs, r.request.target.reread? = some r.request.target ∧
      ∀ c ∈ r.request.tx.coins, c.reread? = some c) :
    (rs.mapM (runOne Application.runSwap)).Completes
      (HasRoom [] (coins (rs.map Rated.queued) ++ cs)) (fun _ => HasRoom [] cs)
      (HasRoom [] cs) := by
  refine Completes.mapM_rest (I := fun rest => HasRoom [] (coins (rest.map Rated.queued) ++ cs))
    fun r hr rest => ?_
  have hone := runOne_room (coins (rest.map Rated.queued) ++ cs) (hreads r hr).1 (hreads r hr).2
  rw [← List.append_assoc] at hone
  exact hone.mono_refusal fun _ hs => hs.drop _

/-- What comes of a queue with room for all its coins leaves as much room as there was beside. -/
theorem runBatch_room (cs : List Coin) :
    (runBatch Application.runSwap).Completes (fun s => HasRoom [] (coins s.queued ++ cs) s)
      (fun _ => HasRoom [] cs) (HasRoom [] cs) := by
  have hbatch : batch.Faultless fun s => HasRoom [] (coins s.queued ++ cs) s := by
    intro s f _ h
    obtain ⟨_, _, _, _, -, -, -, -, -, hok⟩ := batch_ok s
    rw [hok] at h
    cases h
  rw [runBatch_eq]
  refine .readThen hbatch (fun _ hs => hs.drop _) fun rs => ?_
  refine .known (p := ∀ r ∈ rs, r.request.target.reread? = some r.request.target ∧
    ∀ c ∈ r.request.tx.coins, c.reread? = some c) ?_ fun hreads =>
      (mapM_runOne_room cs hreads).restrict ?_
  · exact fun s hs => batch_reads hs.2
  · intro s hs
    obtain ⟨rest, hperm⟩ := batch_perm hs.2
    have hcoins : (coins s.queued ++ cs).Perm
        (coins rest ++ (coins (rs.map Rated.queued) ++ cs)) := by
      rw [← List.append_assoc]
      exact ((coins_perm hperm).trans List.perm_append_comm).append_right cs
    exact (hs.1.perm hcoins).drop _

end Queue

end LiquidityNet
