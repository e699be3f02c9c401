import LiquidityNet.Proofs.Application.Calls
import LiquidityNet.Proofs.Ledger.Reading
import LiquidityNet.Proofs.Queue.Batches
import LiquidityNet.Proofs.Swap.Product
import LiquidityNet.Proofs.Validators.Writes

/-!
# No queued swap is lost or run twice

A journal accompanies the application and notes the swaps that it accepts and those that it hands
over to be carried out. At every point what was accepted is what was handed over and what is still
queued, each swap as often as it was accepted. The end of a block hands over a batch and takes
exactly that out of the queue.
-/

namespace LiquidityNet

open Ledger

/-- A request whose assets were read from texts. -/
def SwapRequest.IsDecoded (m : SwapRequest) : Prop :=
  (∀ c ∈ m.tx.coins ++ m.tx.gas, c.asset.IsParsed) ∧ m.target.IsParsed

theorem mapM_reread? {cs : List Coin} (h : ∀ c ∈ cs, c.asset.IsParsed) :
    cs.mapM Coin.reread? = some cs := by
  induction cs with
  | nil => rfl
  | cons c cs ih =>
    have hcoin : c.reread? = some c :=
      Option.map_eq_some_iff.2 ⟨_, (h c List.mem_cons_self).reread?, rfl⟩
    rw [List.mapM_cons, hcoin, ih fun d hd => h d (List.mem_cons_of_mem c hd)]
    rfl

theorem SwapRequest.IsDecoded.reread? {m : SwapRequest} (h : m.IsDecoded) :
    m.reread? = some m := by
  have htx : m.tx.reread? = some m.tx := by
    unfold Transaction.reread?
    rw [mapM_reread? fun c hc => h.1 c (List.mem_append_left _ hc),
      mapM_reread? fun c hc => h.1 c (List.mem_append_right _ hc)]
    rfl
  unfold SwapRequest.reread?
  rw [htx, h.2.reread?]
  rfl

namespace Application

namespace Call

/-- The swaps that a call accepts into the queue. -/
def accepted (app : Application) : Call → List SwapRequest
  | deliver (.swap m) => if (app.deliver (.swap m)).1.isOk then [m] else []
  | _ => []

/-- The swaps that a call hands over to be carried out, in this order. -/
def handed (app : Application) : Call → List SwapRequest
  | finish =>
    match Queue.batch app.ledger with
    | .ok rs => (Queue.handovers runSwap rs app.ledger).map (·.request)
    | .error _ => []
  | _ => []

end Call

/-- An application with the swaps that it has accepted and those that it has handed over, each in
order. -/
structure Journal where
  app : Application
  accepted : List SwapRequest
  handed : List SwapRequest

namespace Journal

def start (app : Application) : Journal := ⟨app, [], []⟩

def note (j : Journal) (c : Call) : Journal :=
  ⟨c.next j.app, j.accepted ++ c.accepted j.app, j.handed ++ c.handed j.app⟩

def run : List Call → Journal → Journal
  | [], j => j
  | c :: cs, j => run cs (j.note c)

/-- What was accepted is what was handed over and what is queued. The queued swaps bear indices
below the number of deliveries so far. -/
structure Balanced (j : Journal) (deliveries : Nat) : Prop where
  filed : j.app.ledger.QueueFiled
  balanced : j.accepted.Perm (j.handed ++ j.app.ledger.queued.map (·.request))
  indexed : ∀ q ∈ j.app.ledger.queued, q.index.val < deliveries

variable {j : Journal} {n : Nat}

theorem runSwap_keeps (qs : List QueuedSwap) (m : SwapRequest) :
    (runSwap m).Keeps (Queue.Holds qs) := by
  have hdispatch : (Dispatch.dispatch (.swap m)).Keeps (Queue.Holds qs) := by
    intro s r t hs hrun
    have ht := Queue.holds_of_changes (by decide) s t (Dispatch.dispatch_changes hrun) hs
    cases r <;> exact ht
  exact hdispatch.bind fun _ => .pure fun _ h => h

/-- What only the sight of the records depends on is kept by a change of anything else. -/
theorem holds_congr {qs : List QueuedSwap} {s t : Ledger} (hs : Queue.Holds qs s)
    (h : ∀ k, t.get? k = s.get? k) : Queue.Holds qs t := by
  obtain ⟨hfiled, hqueued⟩ := hs.1.congr fun k _ => h k
  exact ⟨hfiled, hqueued.trans hs.2⟩

theorem drain_keeps (qs : List QueuedSwap) : Ledger.drain.Keeps (Queue.Holds qs) := by
  intro s r t hs hrun
  cases hrun
  exact holds_congr hs (LayeredStore.get?_drain s.store)

theorem beginAction_keeps (qs : List QueuedSwap) (height : Height) :
    (beginAction height).Keeps (Queue.Holds qs) := by
  have hheight : (setHeight height).Keeps (Queue.Holds qs) := by
    intro s r t hs hrun
    cases hrun
    exact holds_congr hs fun _ => rfl
  have hbegin : Rotation.beginBlock.Keeps (Queue.Holds qs) :=
    .of_confined Rotation.beginBlock_confined (Queue.holds_of_changes (by decide))
  exact hheight.bind fun _ => (Action.Keeps.attempt hbegin).bind fun _ => .pure fun _ h => h

/-- A valid swap is accepted under a free index as long as the indices suffice. -/
theorem enqueue_ok {s : Ledger} {m : SwapRequest} (hs : s.QueueFiled) (hread : m.reread? = some m)
    (hn : n < 0x100000000) (hindexed : ∀ q ∈ s.queued, q.index.val < n)
    (hvalid : m.validate = .ok ()) :
    ∃ t index, enqueue m s = (.ok (), t) ∧ t.QueueFiled ∧ index.val ≤ n ∧
      t.queued.Perm (⟨m, index⟩ :: s.queued) := by
  obtain ⟨index, hindex, hle, hfree⟩ := Queue.nextIndex_ok hn hindexed m.tx.id
  have hput : s.QueueFiled → _ := fun hs =>
    hs.put (q := ⟨m, index⟩) hread (Queue.free_of_index hs hfree)
  refine ⟨_, index, ?_, (hput hs).1, hle, (hput hs).2⟩
  refine Action.check_bind_eq_ok.2 ⟨(), hvalid, Action.read_bind_eq_ok.2 ⟨index, hindex, rfl⟩⟩

theorem endAction_answers (engineKeys : List String) : (endAction engineKeys).Answers := by
  refine (Action.Answers.attempt _).bind fun _ => (Action.Answers.attempt _).bind fun updates => ?_
  have hdrain : ∀ updates, Action.Answers (do return ⟨updates, ← drain⟩ : Action BlockResult) :=
    fun updates => Action.Answers.drain.bind fun _ => .pure _
  cases updates with
  | ok updates => exact hdrain updates
  | error e => exact hdrain []

/-- The end of a block hands over its batch and takes it out of the queue. -/
theorem endAction_ok {engineKeys : List String} {s t : Ledger} {result : BlockResult}
    {rs : List Queue.Rated} (hs : s.QueueFiled) (hbatch : Queue.batch s = .ok rs)
    (h : endAction engineKeys s = (.ok result, t)) :
    t.QueueFiled ∧ s.queued.Perm (rs.map Queue.Rated.queued ++ t.queued) ∧
      ∃ xs u, Queue.runBatch runSwap s = (.ok xs, u) ∧
        Queue.Turns runSwap rs s (Queue.handovers runSwap rs s) u := by
  obtain ⟨x, u, hattempt, h⟩ := Action.bind_eq_ok.1 h
  rcases Action.attempt_eq_ok.1 hattempt with ⟨xs, rfl, hrun⟩ | ⟨e, rfl, hrun⟩
  · obtain ⟨hfiled, hperm, hturns⟩ := Queue.runBatch_ok runSwap_keeps hs hbatch hrun
    have hdrain : ∀ updates, Action.Keeps (Queue.Holds u.queued)
        (do return ⟨updates, ← drain⟩ : Action BlockResult) := fun updates =>
      (drain_keeps u.queued).bind fun _ => .pure fun _ h => h
    have hvalidators : (Rotation.endBlock engineKeys).Keeps (Queue.Holds u.queued) :=
      .of_confined (Rotation.endBlock_confined engineKeys) (Queue.holds_of_changes (by decide))
    obtain ⟨updates, v, hended, h⟩ := Action.bind_eq_ok.1 h
    have hv : Queue.Holds u.queued v :=
      Action.Keeps.attempt hvalidators u _ v ⟨hfiled, rfl⟩ hended
    have ht : Queue.Holds u.queued t := by
      cases updates with
      | ok updates => exact hdrain updates v _ t hv h
      | error e => exact hdrain [] v _ t hv h
    exact ⟨ht.1, ht.2 ▸ hperm, xs, u, hrun, hturns⟩
  · exact absurd hrun ((Queue.runBatch_answers runSwap).not_refused s e u)

/-! ## Steps and runs -/

theorem Balanced.of_holds {k : Journal} (h : Balanced j n) (haccepted : k.accepted = j.accepted)
    (hhanded : k.handed = j.handed)
    (hledger : Queue.Holds j.app.ledger.queued k.app.ledger) : Balanced k n := by
  refine ⟨hledger.1, ?_, ?_⟩
  · rw [haccepted, hhanded, hledger.2]
    exact h.balanced
  · rw [hledger.2]
    exact h.indexed

/-- The end of a block hands over the first swaps of the queue as it is ordered, as many as the
settings allow, each of them once and in this order, and takes exactly those out of the queue. -/
def EndsInBatch (j : Journal) : Prop :=
  ∃ least most multiplier waiting ordered rest handovers outcomes ended,
    Governance.value .minSwapsPerBlock j.app.ledger = .ok least ∧
      Governance.value .maxSwapsPerBlock j.app.ledger = .ok most ∧
      Swap.depthMultiplier j.app.ledger = .ok multiplier ∧
      Queue.items j.app.ledger = .ok waiting ∧
      Queue.ordered multiplier j.app.ledger = .ok ordered ∧
      (ordered.map Queue.Rated.queued).Perm waiting ∧
      Queue.items (j.note .finish).app.ledger = .ok rest ∧
      Queue.runBatch runSwap j.app.ledger = (.ok outcomes, ended) ∧
      Queue.Turns runSwap (ordered.take
        (Queue.batchSize waiting.length least.val most.val).toNat) j.app.ledger handovers ended ∧
      (j.note .finish).handed = j.handed ++ handovers.map (·.request) ∧
      (j.note .finish).handed = j.handed ++ (ordered.take
        (Queue.batchSize waiting.length least.val most.val).toNat).map (·.request) ∧
      waiting.Perm ((ordered.take
        (Queue.batchSize waiting.length least.val most.val).toNat).map Queue.Rated.queued ++ rest)

theorem Balanced.finish (h : Balanced j n)
    (hfaultless : Call.finish.isFaultless j.app = true) :
    Balanced (j.note .finish) n ∧ EndsInBatch j := by
  obtain ⟨least, most, multiplier, ordered, hleast, hmost, hmultiplier, hordered, hperm, hbatch⟩ :=
    Queue.batch_ok j.app.ledger
  rcases hrun : endAction j.app.engineKeys j.app.ledger with ⟨r, t⟩
  have hledger : (j.note .finish).app.ledger = t := congrArg Prod.snd hrun
  have hfailure : Call.finish.failure? j.app = failureOf r := by
    show failureOf (endAction j.app.engineKeys j.app.ledger).1 = _
    rw [hrun]
  have hlength : ordered.length = j.app.ledger.queued.length := by
    rw [← hperm.length_eq, List.length_map]
  rw [hlength] at hbatch
  generalize hrs : ordered.take _ = rs at hbatch
  cases r with
  | error e =>
    cases e with
    | refused e => exact absurd hrun ((endAction_answers _).not_refused _ e t)
    | fault f =>
      rw [Call.isFaultless, hfailure] at hfaultless
      cases hfaultless
  | ok result =>
    obtain ⟨ht, hleft, xs, u, hrun, hturns⟩ := endAction_ok h.filed hbatch hrun
    have hnoted : (j.note .finish).handed =
        j.handed ++ (Queue.handovers runSwap rs j.app.ledger).map (·.request) := by
      show j.handed ++ Call.finish.handed j.app = _
      unfold Call.handed
      rw [hbatch]
    have hhanded : (j.note .finish).handed = j.handed ++ rs.map (·.request) := by
      rw [hnoted, hturns.requests]
    constructor
    · refine ⟨hledger ▸ ht, ?_, fun q hq => ?_⟩
      · have hrequests : (j.app.ledger.queued.map (·.request)).Perm
            (rs.map (·.request) ++ t.queued.map (·.request)) := by
          have hmapped := hleft.map (·.request)
          rwa [List.map_append, List.map_map] at hmapped
        have haccepted : (j.note .finish).accepted = j.accepted := List.append_nil j.accepted
        rw [haccepted, hledger, hhanded, List.append_assoc]
        exact h.balanced.trans (hrequests.append_left j.handed)
      · rw [hledger] at hq
        exact h.indexed q (hleft.mem_iff.2 (List.mem_append_right _ hq))
    · refine ⟨least, most, multiplier, j.app.ledger.queued, ordered, t.queued, _, xs, u, hleast,
        hmost, hmultiplier, Queue.items_run _, hordered, hperm, ?_, hrun, ?_, hnoted, ?_, ?_⟩
      · rw [hledger]
        exact Queue.items_run t
      · rw [hrs]
        exact hturns
      · rw [hrs]
        exact hhanded
      · rw [hrs]
        exact hleft

theorem Balanced.begin (h : Balanced j n) (height : Height) (engineKeys : List String) :
    Balanced (j.note (.begin height engineKeys)) n := by
  refine h.of_holds (List.append_nil _) (List.append_nil _) ?_
  rcases hrun : beginAction height j.app.ledger with ⟨r, t⟩
  have ht := beginAction_keeps j.app.ledger.queued height _ r t ⟨h.filed, rfl⟩ hrun
  have hledger : (j.note (.begin height engineKeys)).app.ledger = t := congrArg Prod.snd hrun
  rw [hledger]
  cases r <;> exact ht

/-- A message other than a swap leaves the queue alone. -/
theorem Balanced.dispatched (h : Balanced j n) {m : Message}
    (hm : deliverAction m = Dispatch.dispatch m)
    (haccepted : (Call.deliver m).accepted j.app = []) :
    Balanced (j.note (.deliver m)) n := by
  refine h.of_holds ?_ (List.append_nil _) ?_
  · show j.accepted ++ _ = _
    rw [haccepted, List.append_nil]
  · rcases hrun : Dispatch.dispatch m j.app.ledger with ⟨r, t⟩
    have hledger : (j.note (.deliver m)).app.ledger = t :=
      congrArg Prod.snd ((congrFun hm j.app.ledger).trans hrun)
    rw [hledger]
    exact Queue.holds_of_changes (by decide) _ t (Dispatch.dispatch_changes hrun) ⟨h.filed, rfl⟩

theorem Balanced.mono {k : Nat} (h : Balanced j n) (hle : n ≤ k) : Balanced j k :=
  ⟨h.filed, h.balanced, fun q hq => Nat.lt_of_lt_of_le (h.indexed q hq) hle⟩

/-- A valid swap joins the queue, an invalid one leaves no trace. -/
theorem Balanced.enqueued (h : Balanced j n) {m : SwapRequest} (hdecoded : m.IsDecoded)
    (hn : n < 0x100000000) : Balanced (j.note (.deliver (.swap m))) (n + 1) := by
  rcases hvalid : m.validate with e | _
  · have hrun : deliverAction (.swap m) j.app.ledger = (.error (.refused e), j.app.ledger) := by
      show ((do enqueue m; return []) : Action (List Event)) j.app.ledger = _
      rw [enqueue, hvalid]
      rfl
    have haccepted : (Call.deliver (.swap m)).accepted j.app = [] := by
      show (if (deliverAction (.swap m) j.app.ledger).1.isOk then [m] else []) = []
      rw [hrun]
      rfl
    have hledger : (j.note (.deliver (.swap m))).app.ledger = j.app.ledger :=
      congrArg Prod.snd hrun
    refine Balanced.mono (h.of_holds ?_ (List.append_nil _) ?_) (Nat.le_succ n)
    · show j.accepted ++ _ = _
      rw [haccepted, List.append_nil]
    · rw [hledger]
      exact ⟨h.filed, rfl⟩
  · obtain ⟨t, index, henqueue, ht, hindex, hperm⟩ :=
      enqueue_ok h.filed hdecoded.reread? hn h.indexed hvalid
    have hrun : deliverAction (.swap m) j.app.ledger = (.ok [], t) :=
      Action.bind_eq_ok.2 ⟨(), t, henqueue, rfl⟩
    have haccepted : (Call.deliver (.swap m)).accepted j.app = [m] := by
      show (if (deliverAction (.swap m) j.app.ledger).1.isOk then [m] else []) = [m]
      rw [hrun]
      rfl
    have hledger : (j.note (.deliver (.swap m))).app.ledger = t := congrArg Prod.snd hrun
    refine ⟨hledger ▸ ht, ?_, fun q hq => ?_⟩
    · show (j.accepted ++ (Call.deliver (.swap m)).accepted j.app).Perm ((j.handed ++ []) ++ _)
      rw [haccepted, hledger, List.append_nil]
      have hrequests : (t.queued.map (·.request)).Perm (m :: j.app.ledger.queued.map (·.request)) :=
        hperm.map (·.request)
      calc (j.accepted ++ [m]).Perm (m :: j.accepted) := List.perm_append_singleton m _
        _ |>.Perm (m :: (j.handed ++ j.app.ledger.queued.map (·.request))) := h.balanced.cons m
        _ |>.Perm (j.handed ++ m :: j.app.ledger.queued.map (·.request)) := List.perm_middle.symm
        _ |>.Perm (j.handed ++ t.queued.map (·.request)) := hrequests.symm.append_left j.handed
    · rw [hledger] at hq
      rcases List.mem_cons.1 (hperm.mem_iff.1 hq) with rfl | hq
      · exact Nat.lt_succ_of_le hindex
      · exact Nat.lt_succ_of_lt (h.indexed q hq)

theorem Balanced.deliver (h : Balanced j n) {m : Message}
    (hdecoded : ∀ r, m = .swap r → r.IsDecoded) (hn : n < 0x100000000) :
    Balanced (j.note (.deliver m)) (n + 1) := by
  cases m with
  | swap m => exact h.enqueued (hdecoded m rfl) hn
  | unbond m => exact (h.dispatched rfl rfl).mono (Nat.le_succ n)
  | bond m => exact (h.dispatched rfl rfl).mono (Nat.le_succ n)

/-- The deliveries of a run bound the indices at its end. -/
theorem Balanced.run {calls : List Call} (h : Balanced j n) (hfaultless : Faultless calls j.app)
    (hdecoded : ∀ m, .deliver (.swap m) ∈ calls → m.IsDecoded)
    (hfew : n + calls.countP Call.isDelivery < 0x100000000) :
    Balanced (run calls j) (n + calls.countP Call.isDelivery) := by
  induction calls generalizing j n with
  | nil => exact h
  | cons c calls ih =>
    obtain ⟨hcall, hcalls⟩ := hfaultless
    have hrest : ∀ m, .deliver (.swap m) ∈ calls → m.IsDecoded :=
      fun m hm => hdecoded m (List.mem_cons_of_mem c hm)
    cases c with
    | begin height engineKeys =>
      have hcount : (Call.begin height engineKeys :: calls).countP Call.isDelivery =
          calls.countP Call.isDelivery := List.countP_cons_of_neg nofun
      rw [hcount] at hfew ⊢
      exact ih (h.begin height engineKeys) hcalls hrest hfew
    | finish =>
      have hcount : (Call.finish :: calls).countP Call.isDelivery =
          calls.countP Call.isDelivery := List.countP_cons_of_neg nofun
      rw [hcount] at hfew ⊢
      rcases hcall with hdelivery | hfinish
      · cases hdelivery
      · exact ih (h.finish hfinish).1 hcalls hrest hfew
    | deliver m =>
      have hcount : (Call.deliver m :: calls).countP Call.isDelivery =
          calls.countP Call.isDelivery + 1 := List.countP_cons_of_pos rfl
      have hindices : n + (calls.countP Call.isDelivery + 1) =
          n + 1 + calls.countP Call.isDelivery := by omega
      rw [hcount, hindices] at hfew ⊢
      refine ih (h.deliver (fun r hr => hdecoded r ?_) (by omega)) hcalls hrest hfew
      rw [← hr]
      exact List.mem_cons_self

theorem start_balanced {app : Application}
    (hempty : ∀ k, Text.beginsWith Key.swapStart k = true → app.ledger.get? k = none) :
    Balanced (start app) 0 := by
  have hfiled : app.ledger.QueueFiled := by
    intro k r hbegin hget
    rw [hempty k hbegin] at hget
    cases hget
  have hqueued : app.ledger.queued = [] := by
    refine List.eq_nil_iff_forall_not_mem.2 fun q hq => ?_
    have hget := (mem_queued hfiled).1 hq
    have hnone : app.ledger.get? (keyOf q) = none := hempty _ (Key.beginsWith_swap _ _)
    cases hnone.symm.trans hget
  refine ⟨hfiled, ?_, ?_⟩
  · show List.Perm [] ([] ++ app.ledger.queued.map (·.request))
    rw [hqueued]
    exact .refl []
  · intro q hq
    rw [show (start app).app.ledger.queued = [] from hqueued] at hq
    cases hq

/-- A run from an empty queue loses no swap that it accepted and hands over none twice, and the end
of a block hands over the batch that is due and takes just that out of the queue. -/
theorem swaps_conserved {app : Application} {calls : List Call}
    (hempty : ∀ k, Text.beginsWith Key.swapStart k = true → app.ledger.get? k = none)
    (hdecoded : ∀ m, .deliver (.swap m) ∈ calls → m.IsDecoded)
    (hfew : calls.countP Call.isDelivery < 0x100000000) (hfaultless : Faultless calls app) :
    let j := run calls (start app)
    (∃ waiting, Queue.items j.app.ledger = .ok waiting ∧
      j.accepted.Perm (j.handed ++ waiting.map (·.request))) ∧
    (Call.finish.isFaultless j.app = true → EndsInBatch j) := by
  have hbalanced := (start_balanced hempty).run hfaultless hdecoded (by omega)
  exact ⟨⟨_, Queue.items_run _, hbalanced.balanced⟩, fun hfinish => (hbalanced.finish hfinish).2⟩

/-- Swaps with one transaction's id: the second one waits under the index of the first one, which
has left the queue. -/
def usdcCalls : List Call :=
  [.begin (.clamp 2) [], .deliver (.swap Swap.usdcSwap), .finish, .deliver (.swap Swap.usdcSwap)]

def usdcApplication : Application := ⟨Swap.poolLedger Swap.usdcPool, []⟩

theorem usdcApplication_queueless {k : String} (hk : Text.beginsWith Key.swapStart k = true) :
    usdcApplication.ledger.get? k = none := by
  have hswaps : Table.ofKey? k = some .swaps := Table.ofKey?_of_beginsWith hk
  have hpool : k ≠ Key.pool Swap.usdcPool.asset := by
    rintro rfl
    cases hswaps.symm.trans (Table.ofKey?_pool _)
  have hbalance : k ≠ Key.balance (.ofModule Module.asgard) .rune := by
    rintro rfl
    cases hswaps.symm.trans (Table.ofKey?_balance _ _)
  show (Swap.poolLedger Swap.usdcPool).get? k = none
  unfold Swap.poolLedger
  rw [get?_putRecord, if_neg hbalance, get?_putRecord, if_neg hpool]
  rfl

theorem usdcSwap_isDecoded : Swap.usdcSwap.IsDecoded := by
  have husdc : Swap.usdc.IsParsed := .of_reread? (by decide +kernel)
  have hrune : Asset.rune.IsParsed := .of_reread? (by decide +kernel)
  refine ⟨fun c hc => ?_, hrune⟩
  obtain rfl : c = Swap.usdcCoin := List.mem_singleton.1 hc
  exact husdc

theorem usdcCalls_conserved :
    let j := run usdcCalls (start usdcApplication)
    j.accepted = [Swap.usdcSwap, Swap.usdcSwap] ∧ j.handed = [Swap.usdcSwap] ∧
      (∃ waiting, Queue.items j.app.ledger = .ok waiting ∧
        j.accepted.Perm (j.handed ++ waiting.map (·.request))) ∧ EndsInBatch j := by
  have hdecoded : ∀ m, .deliver (.swap m) ∈ usdcCalls → m.IsDecoded := by
    intro m hm
    obtain rfl : m = Swap.usdcSwap := by simpa [usdcCalls] using hm
    exact usdcSwap_isDecoded
  have hfaultless : Faultless (usdcCalls ++ [.finish]) usdcApplication := by decide +kernel
  obtain ⟨hbegin, hfirst, hend, hsecond, hfinish, -⟩ := hfaultless
  have hconserved := swaps_conserved (fun _ hk => usdcApplication_queueless hk) hdecoded
    (by decide) ⟨hbegin, hfirst, hend, hsecond, trivial⟩
  have hnoted : (run usdcCalls (start usdcApplication)).accepted = [Swap.usdcSwap, Swap.usdcSwap] ∧
      (run usdcCalls (start usdcApplication)).handed = [Swap.usdcSwap] := by decide +kernel
  exact ⟨hnoted.1, hnoted.2, hconserved.1, hconserved.2 (hfinish.resolve_left nofun)⟩

end Journal

end Application

end LiquidityNet
