import LiquidityNet.Proofs.Dispatch.Atomicity
import LiquidityNet.Proofs.Queue.Batches
import LiquidityNet.Proofs.Swap.Reserves
import LiquidityNet.Proofs.Validators.Writes

/-!
# What rests on the network's record and on the pools

Rewards and returned bonds store the network's record anew without moving the phase of ragnarok.
Swaps and refunds store pools anew, with the asset and the status that they had. So one walk through
these operations serves every property that rests on no more of the two than that.
-/

namespace LiquidityNet

open LiquidityNet.Action Ledger

/-- How far ragnarok has come: its height and round, and whether the pools are staged. -/
structure Phase where
  height : Height
  round : Signed
  staged : Bool
  deriving DecidableEq

def Network.phase (t : Network) : Phase :=
  ⟨t.ragnarokHeight, t.ragnarokRound, t.ragnarokPoolsStaged⟩

theorem Key.pool_ne_network (a : Asset) : Key.pool a ≠ Key.network := by
  intro h
  have htable := congrArg Table.ofKey? h
  simp at htable

theorem Pools.asset_of_record {r : Record} {x : Pool} (h : (ofRecord? r : Option Pool) = some x) :
    x.asset.reread? = some x.asset := by
  cases r with
  | pool y =>
    have hread : y.reread? = some x := h
    obtain ⟨a, ha, rfl⟩ := Option.map_eq_some_iff.1 hread
    exact Asset.reread?_reread? ha
  | _ => cases h

/-- What was read reads back under its own asset. -/
theorem Pools.reread?_of_all {s : Ledger} {xs : List Pool} (h : all s = .ok xs) :
    ∀ x ∈ xs, x.asset.reread? = some x.asset := by
  intro x hx
  obtain ⟨k, r, -, hread⟩ := exists_of_fetchAll h hx
  exact asset_of_record hread

namespace Ledger

/-- A property of ledgers that rests on the network's record and on the pools alone, and on how
records are filed. `N` is what it knows of a record that is read and asks of one that is stored, and
`F` is the same for a pool. -/
structure Oversees (P : Ledger → Prop) (N : Network → Prop) (F : Pool → Prop) : Prop where
  elsewhere : ∀ {s t : Ledger}, (s.Filed → t.Filed) →
    t.get? Key.network = s.get? Key.network →
    (∀ k, Table.ofKey? k = some .pools → t.get? k = s.get? k) → P s → P t
  network : ∀ {s : Ledger} {n : Network}, P s → NetworkState.get s = .ok n → N n
  putNetwork : ∀ {s : Ledger} {n : Network}, N n → P s → P (s.putRecord Key.network (.network n))
  samePhase : ∀ {n m : Network}, N n → m.phase = n.phase → N m
  pool : ∀ {s : Ledger} {a : Asset} {x : Pool}, P s → Pools.find? a s = .ok (some x) → F x
  putPool : ∀ {s : Ledger} {x : Pool}, F x → P s → P (s.putRecord (Key.pool x.asset) (.pool x))
  samePool : ∀ {x y : Pool}, F x → y.asset = x.asset → y.status = x.status → F y

theorem oversees_poolsFiled :
    Oversees PoolsFiled (fun _ => True) fun x => x.asset.reread? = some x.asset where
  elsewhere _ _ hpools hs := hs.of_pools hpools
  network _ _ := trivial
  putNetwork _ hs := hs.of_changes
    (changes_putRecord (List.mem_singleton_self Table.network) Table.ofKey?_network rfl) (by decide)
  samePhase _ _ := trivial
  pool _ hfound := Pools.reread?_of_find? hfound
  putPool hx hs := hs.putRecord hx
  samePool hx hasset _ := hasset ▸ hx

namespace Oversees

variable {α : Type} {P : Ledger → Prop} {N : Network → Prop} {F : Pool → Prop}
  (h : Oversees P N F)
include h

theorem congr {s t : Ledger} (hsame : ∀ k, t.get? k = s.get? k) (hs : P s) : P t :=
  h.elsewhere (fun hfiled k r hr => hfiled k r (hsame k ▸ hr)) (hsame _) (fun k _ => hsame k) hs

theorem apart {body : Action α} (Ts : List Table) (hbody : body.Confined Ts)
    (hnetwork : .network ∉ Ts) (hpools : .pools ∉ Ts) : body.Keeps P :=
  .of_confined hbody fun _ _ hchanges hs => h.elsewhere hchanges.filed
    (hchanges.get?_eq Table.ofKey?_network hnetwork)
    (fun _ hk => hchanges.get?_eq hk hpools) hs

theorem saveNetwork {n : Network} (hn : N n) : (NetworkState.save n).Keeps P := by
  intro s r t hs hrun
  cases hrun
  exact h.putNetwork hn hs

theorem savePool {x : Pool} (hx : F x) : (Pools.save x).Keeps P := by
  intro s r t hs hrun
  cases hrun
  exact h.putPool hx hs

theorem found {s : Ledger} {a : Asset} {o : Option Pool} (hs : P s)
    (hfound : Pools.find? a s = .ok o) : ∀ x ∈ o, F x := by
  rintro x rfl
  exact h.pool hs hfound

/-! ### Swaps -/

theorem hop (tx : Transaction) (source : Coin) (target : Asset)
    (limit fee multiplier : Amount) :
    (Swap.hop tx source target limit fee multiplier).Keeps P := by
  have hpast : ∀ s, P s → P s := fun _ hs => hs
  unfold Swap.hop
  simp only [refuse_bind]
  refine .ite (fun _ => .refuse hpast) fun _ => ?_
  refine .readFact hpast (fun s o hs hfound => h.found hs hfound) fun o ho => ?_
  cases o with
  | none => exact .refuse hpast
  | some x =>
    have hx : F x := ho x rfl
    refine .ite (fun _ => .refuse hpast) fun _ => .ite (fun _ => .refuse hpast) fun _ => ?_
    refine .checkThen hpast fun q _ => .ite (fun _ => ?_) fun _ => ?_
    · refine .pastRead hpast fun supply => ?_
      refine .bind (h.savePool ?_) fun _ => .pure hpast
      unfold Swap.tradedSynth
      split <;> exact h.samePool hx rfl rfl
    · refine .bind (h.savePool ?_) fun _ => .pure hpast
      unfold Swap.traded
      split <;> exact h.samePool hx rfl rfl

theorem hops (m : SwapRequest) (source : Coin) (fee multiplier : Amount) :
    (Swap.hops m source fee multiplier).Keeps P := by
  have hpast : ∀ s, P s → P s := fun _ hs => hs
  unfold Swap.hops Swap.firstHop
  refine .ite (fun _ => ?_) fun _ => ?_
  · exact (h.hop _ _ _ _ _ _).bind fun _ => .pure hpast
  · refine .bind (R := fun _ => P) ?_ fun _ => ?_
    · exact (h.hop _ _ _ _ _ _).bind fun _ => .pure hpast
    · exact (h.hop _ _ _ _ _ _).bind fun _ => .pure hpast

theorem executeSwap (m : SwapRequest) (fee multiplier : Amount) :
    (Swap.execute m fee multiplier).Keeps P := by
  have hpast : ∀ s, P s → P s := fun _ hs => hs
  unfold Swap.execute
  refine .checkThen hpast fun _ _ => ?_
  split
  · refine .pastRead hpast fun _ => (h.hops _ _ _ _).bind fun hop => ?_
    refine .checkThen hpast fun _ _ => .bind (R := fun _ => P) ?_ fun _ => ?_
    · exact .forM fun e _ => h.apart _ (Swap.publish_confined e) (by decide) (by decide)
    refine .bind (h.apart _ (Swap.deliver_confined _ _) (by decide) (by decide)) fun _ => ?_
    refine .bind (h.apart _ (Swap.burnCoins_confined _) (by decide) (by decide)) fun _ => ?_
    exact .pure hpast
  · exact .refuse hpast

theorem handleSwap (m : SwapRequest) : (Swap.handle m).Keeps P := by
  have hpast : ∀ s, P s → P s := fun _ hs => hs
  refine .checkThen hpast fun _ _ => .pastRead hpast fun fee => .pastRead hpast fun multiplier => ?_
  exact (h.executeSwap m fee multiplier).transactionally (Swap.execute_confined _ _ _)
    fun _ _ hsame hs => h.congr hsame hs

/-! ### Refunds and messages -/

theorem settleRefund (inbound : Inbound) (payer : Option String) (c : Coin) {o : Option Pool}
    (ho : ∀ x ∈ o, F x) : (Refund.settle inbound payer o c).Keeps P := by
  have hpast : ∀ s, P s → P s := fun _ hs => hs
  refine .ite (fun _ => ?_) fun _ => .ite (fun _ => ?_) fun _ => .ite (fun _ => ?_) fun _ => ?_
  · cases o with
    | none => exact .pure hpast
    | some x =>
      refine .bind (h.savePool (h.samePool (ho x rfl) rfl rfl)) fun _ => ?_
      exact h.apart [] (.emit _) (by decide) (by decide)
  · exact h.apart _ (Refund.burn_confined _ c) (by decide) (by decide)
  · exact h.apart _ (Refund.reserve_confined inbound _ c) (by decide) (by decide)
  · exact .pure hpast

/-- The pool is read before the coin is sent back and stored after; no payout touches it. -/
theorem refundCoin (inbound : Inbound) (payer : Option String) (done : Refund.Progress) (c : Coin) :
    (Refund.coin inbound payer done c).Keeps P := by
  have hpast : ∀ s, P s → P s := fun _ hs => hs
  refine .readFact hpast (fun s o hs hfound => h.found hs hfound) fun o ho => ?_
  have hsettled : ∀ failure : String, Action.Keeps P (do
      Refund.settle inbound payer o c
      return { done with
        reason := done.reason ++ "; fail to refund (" ++ c.text ++ "): " ++ failure } :
        Action Refund.Progress) := fun _ =>
    (h.settleRefund inbound payer c ho).bind fun _ => .pure hpast
  refine .ite (fun _ => .pure hpast) fun _ => .bind (R := fun _ => P) ?_ fun scheduled => ?_
  · exact h.apart _ (Payout.schedule_confined _ _).attempt (by decide) (by decide)
  · rcases scheduled with e | _ | _
    · exact hsettled _
    · exact hsettled _
    · exact .pure hpast

theorem refund (inbound : Inbound) (code : Word) (reason : String) (payer : Option String) :
    (Refund.refund inbound code reason payer).Keeps P := by
  refine .bind (R := fun _ => P) ?_ fun _ => ?_
  · exact .foldlM (fun done c _ => h.refundCoin inbound payer done c) _
  · exact h.apart [] (.emit _) (by decide) (by decide)

theorem refundSwap (m : SwapRequest) (cause : Error) : (Queue.refund m cause).Keeps P := by
  have hpast : ∀ s, P s → P s := fun _ hs => hs
  refine .pastRead hpast fun _ => .pastRead hpast fun _ => ?_
  exact (h.refund _ _ _ _).attempt.bind fun _ => .pure hpast

theorem dispatch (m : Message) : (Dispatch.dispatch m).Keeps P := by
  refine Dispatch.dispatch_keeps ?_ fun _ _ hsame hs => h.congr hsame hs
  cases m with
  | swap m => exact (h.handleSwap m).bind fun _ => .pure fun _ hs => hs
  | unbond m => exact h.apart _ (Bond.withdraw_confined m) (by decide) (by decide)
  | bond m => exact h.apart _ (Bond.deposit_confined m) (by decide) (by decide)

/-! ### Rewards and returned bonds -/

theorem payReward (r : Bond.RewardRound) (t : Network) (n : Node) :
    (Bond.payReward r t n).Leads P (fun u s => P s ∧ u.phase = t.phase) P := by
  have hpast : ∀ s, P s → P s := fun _ hs => hs
  refine .ite (fun _ => .pure fun _ hs => ⟨hs, rfl⟩) fun _ => .pastRead hpast fun _ => ?_
  refine .pastRead hpast fun _ => .computeThen hpast fun service _ => .pastRead hpast fun _ => ?_
  refine .computeThen hpast fun before _ => ?_
  split
  · have hslash := Nodes.setSlashPoints_confined n.address service.slashLeft
    refine .bind (h.apart _ hslash (by decide) (by decide)) fun _ => ?_
    refine .bind (h.apart _ (Bond.enterReward_confined _ _ _ _) (by decide) (by decide))
      fun _ => ?_
    refine .bind (h.apart [] (.emit _) (by decide) (by decide)) fun _ => ?_
    refine .bind (h.apart _ (Bond.payFee_confined n _) (by decide) (by decide)) fun _ => ?_
    exact .pure fun _ hs => ⟨hs, rfl⟩
  · exact .refuse hpast

theorem payNode (r : Bond.RewardRound) (n : Node) : (Bond.payNode r n).Keeps P := by
  have hcounted : Action.Keeps P
      (do let t ← NetworkState.get; NetworkState.save (← Bond.payReward r t n) : Action Unit) := by
    refine .readFact (fun _ hs => hs) (fun _ _ => h.network) fun t ht => ?_
    refine (h.payReward r t n).bind fun u => ?_
    refine .known (p := u.phase = t.phase) (fun _ hs => hs.2) fun hu => ?_
    exact (h.saveNetwork (h.samePhase ht hu)).restrict fun _ hs => hs.1
  have hpaid := hcounted.transactionally (Bond.countedReward_confined r n)
    fun _ _ hsame hs => h.congr hsame hs
  exact hpaid.attempt.bind fun _ => .pure fun _ hs => hs

theorem payRewards : Bond.payRewards.Keeps P := by
  have hpast : ∀ s, P s → P s := fun _ hs => hs
  refine .pastRead hpast fun active => .computeThen hpast fun round _ => .pastRead hpast fun _ => ?_
  exact .forM fun n _ => h.payNode _ n

theorem countPayout : Ragnarok.countPayout.Keeps P := by
  have hpast : ∀ s, P s → P s := fun _ hs => hs
  refine .readFact hpast (fun _ _ => h.network) fun t ht => .computeThen hpast fun _ _ => ?_
  exact h.saveNetwork (h.samePhase ht rfl)

theorem enterReturn (n : Node) (amount : Amount) : (Ragnarok.enterReturn n amount).Keeps P := by
  have hpast : ∀ s, P s → P s := fun _ hs => hs
  refine h.countPayout.bind fun _ => .pastRead hpast fun _ => ?_
  refine .computeThen hpast fun _ _ => .computeThen hpast fun _ _ => ?_
  refine .bind (h.apart _ (Nodes.saveWith_confined _ _) (by decide) (by decide)) fun _ => ?_
  exact h.apart [] (.emit _) (by decide) (by decide)

theorem returnBond (tenths : Amount) (n : Node) : (Ragnarok.returnBond tenths n).Keeps P := by
  have hpast : ∀ s, P s → P s := fun _ hs => hs
  refine .pastRead hpast fun _ => .ite (fun _ => .pure hpast) fun _ => ?_
  refine .ite (fun _ => .pure hpast) fun _ => .pastRead hpast fun _ => ?_
  refine .bind (R := fun _ => P) ?_ fun scheduled => ?_
  · exact h.apart _ (Payout.schedule_confined _ _).attempt (by decide) (by decide)
  · split
    · exact h.enterReturn n _
    · exact .pure hpast
    · exact h.enterReturn n _
    · exact .refuse hpast

theorem returnBonds (round : Signed) :
    (transactionally (Ragnarok.returnBonds round)).Keeps P := by
  have hpast : ∀ s, P s → P s := fun _ hs => hs
  refine Keeps.transactionally (Ragnarok.returnBonds_confined round) ?_
    fun _ _ hsame hs => h.congr hsame hs
  refine .computeThen hpast fun tenths _ => .ite (fun _ => .pure hpast) fun _ => ?_
  exact .pastRead hpast fun ns => .forM fun n _ => h.returnBond tenths n

/-- The first tick notes the height before anything else. -/
theorem start {P' : Ledger → Prop} {n : Network} (height : Height)
    (hput : ∀ s, P' s →
      P (s.putRecord Key.network (.network { n with ragnarokHeight := height }))) :
    (Ragnarok.start n).Leads (fun s => P' s ∧ s.height = height) (fun _ => P)
      (fun s => P' s ∨ P s) := by
  refine .readThen (fun _ hs => .inl hs.1) fun _ => ?_
  refine .bind (R := fun _ => P) ?_ fun _ => ?_
  · rintro s r t ⟨⟨hs, rfl⟩, hheight⟩ hrun
    cases hheight
    cases hrun
    exact hput s hs
  · have hrecalled := h.apart _ Recall.requestAll_confined (by decide) (by decide)
    exact (hrecalled.bind fun _ => h.payRewards).mono (fun _ hs => hs) (fun _ _ hs => hs)
      fun _ hs => .inr hs

/-! ### Changes of the validator set -/

/-- Who joins or leaves makes no difference. -/
theorem applyChanges (engineKeys : List String) (c : Rotation.Changes) :
    (Rotation.apply engineKeys c).Keeps P := by
  refine h.payRewards.attempt.bind fun _ => .pastRead (fun _ hs => hs) fun height => ?_
  refine .bind (.mapM fun n _ =>
    h.apart _ (Rotation.join_confined height n.address) (by decide) (by decide)) fun _ => ?_
  refine .bind (.mapM fun n _ =>
    h.apart _ (Rotation.leave_confined height engineKeys n.address) (by decide) (by decide))
      fun _ => ?_
  refine .bind (R := fun _ => P) ?_ fun _ => .pure fun _ hs => hs
  exact h.apart _ (Rotation.standDown_confined height) (by decide) (by decide)

end Oversees

end Ledger

end LiquidityNet
