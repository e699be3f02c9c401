import LiquidityNet.Genesis
import LiquidityNet.Proofs.Application.Calls
import LiquidityNet.Proofs.Validators.Oversight
import LiquidityNet.Proofs.Validators.Standing

/-!
# The parts of a block

Apart from the validators' own work, a block dispatches messages and swaps, refunds the swaps that
fail, and keeps the queue of swaps. A property of the ledger that outlives these outlives the parts
of a block that are made of them.
-/

namespace LiquidityNet

open LiquidityNet.Action Ledger

variable {P Q : Ledger → Prop}

namespace Application

/-- A property that no dispatch, no refund and nothing in the queue of swaps affects. -/
structure Abiding (P : Ledger → Prop) : Prop where
  congr : ∀ {s t : Ledger}, (∀ k, t.get? k = s.get? k) → P s → P t
  queue : ∀ {s t : Ledger}, Changes [.swaps] s t → P s → P t
  dispatch : ∀ m, (Dispatch.dispatch m).Keeps P
  refund : ∀ m cause, (Queue.refund m cause).Keeps P

theorem enqueue_confined (m : SwapRequest) : (enqueue m).Confined [.swaps] := by
  refine (Confined.check _).bind fun _ => .readThen fun index => ?_
  exact .put (T := .swaps) (by decide) (by simp) (Table.ofKey?_swap m.tx.id index)

namespace Abiding

variable (h : Abiding P)
include h

theorem deliverAction (m : Message) : (Application.deliverAction m).Keeps P := by
  cases m with
  | swap m =>
    have hqueued : (enqueue m).Keeps P := .of_confined (enqueue_confined m) fun _ _ => h.queue
    exact hqueued.bind fun _ => .pure fun _ hs => hs
  | unbond m => exact h.dispatch _
  | bond m => exact h.dispatch _

theorem setHeight (height : Height) :
    (Ledger.setHeight height).Leads P (fun _ s => P s ∧ s.height = height) P := by
  intro s r t hs hrun
  cases hrun
  exact ⟨h.congr (s := s) (fun _ => rfl) hs, rfl⟩

theorem beginAction {height : Height}
    (hbegin : Rotation.beginBlock.Leads (fun s => P s ∧ s.height = height) (fun _ => P) P) :
    (Application.beginAction height).Keeps P := by
  refine (h.setHeight height).bind fun _ => hbegin.attempt.bind fun outcome => ?_
  exact .pure fun s hs => by cases outcome <;> exact hs

theorem runSwap (m : SwapRequest) : (Application.runSwap m).Keeps P :=
  (h.dispatch (.swap m)).bind fun _ => .pure fun _ hs => hs

theorem runOne (r : Queue.Rated) : (Queue.runOne Application.runSwap r).Keeps P := by
  have hremoved : ∀ outcome : Option Error, Action.Keeps P
      (do Queue.remove r.request.tx.id r.index; return (r.request.tx.id, outcome)) := by
    refine fun outcome => .bind (R := fun _ => P) ?_ fun _ => .pure fun _ hs => hs
    have herased : (Queue.remove r.request.tx.id r.index).Confined [.swaps] :=
      .erase (T := .swaps) (by decide) (by simp)
    exact .of_confined herased fun _ _ => h.queue
  refine (h.runSwap r.request).attempt.bind fun outcome => ?_
  cases outcome with
  | ok _ => exact hremoved none
  | error e => exact (h.refund r.request e).bind fun _ => hremoved (some e)

theorem runBatch : (Queue.runBatch Application.runSwap).Keeps P := by
  rw [Queue.runBatch_eq]
  exact .pastRead (fun _ hs => hs) fun rs => .mapM fun r _ => h.runOne r

theorem drain : Ledger.drain.Keeps P := by
  intro s r t hs hrun
  cases hrun
  exact h.congr (LayeredStore.get?_drain s.store) hs

/-- What the validators' part leads to of its updates, the end of a block leads to of its result. A
refused end gives no updates. -/
theorem endAction {engineKeys : List String} {X : List Rotation.PowerUpdate → Ledger → Prop}
    (hX : ∀ updates {s t : Ledger}, (∀ k, t.get? k = s.get? k) → X updates s → X updates t)
    (hnone : ∀ s, P s → X [] s)
    (hend : (Rotation.endBlock engineKeys).Leads P (fun updates s => P s ∧ X updates s) P) :
    (Application.endAction engineKeys).Leads P (fun result s => P s ∧ X result.updates s) P := by
  refine h.runBatch.attempt.bind fun _ => ?_
  have hdrained : ∀ updates, Action.Leads (fun s => P s ∧ X updates s)
      (do return ⟨updates, ← Ledger.drain⟩ : Action BlockResult)
      (fun result s => P s ∧ X result.updates s) P := by
    refine fun updates => .bind (R := fun _ s => P s ∧ X updates s) ?_ fun _ => .pure fun _ hs => hs
    intro s r t hs hrun
    cases hrun
    have hget := LayeredStore.get?_drain s.store
    exact ⟨h.congr hget hs.1, hX updates hget hs.2⟩
  refine hend.attempt.bind fun outcome => ?_
  cases outcome with
  | ok updates => exact hdrained updates
  | error e =>
    exact (hdrained []).restrict fun s hs => ⟨hs, hnone s hs⟩

theorem endAction_keeps {engineKeys : List String} (hend : (Rotation.endBlock engineKeys).Keeps P) :
    (Application.endAction engineKeys).Keeps P := by
  have hended := h.endAction (X := fun _ _ => True) (fun _ _ _ _ _ => trivial) (fun _ _ => trivial)
    (hend.mono (fun _ hs => hs) (fun _ _ hs => ⟨hs, trivial⟩) fun _ hs => hs)
  exact hended.mono (fun _ hs => hs) (fun _ _ hs => hs.1) fun _ hs => hs

end Abiding

theorem abiding_viewed {γ : Type} {f : NodeView γ} {v : Address → γ} (hf : f.IgnoresMessages) :
    Abiding (Viewed f v) where
  congr := Viewed.congr
  queue h hs := hs.of_changes h (by decide)
  dispatch m := Dispatch.dispatch_viewed hf m
  refund m cause := Viewed.apart _ (Queue.refund_confined m cause) (by decide)

/-- Past the first height a block begins without a change to what ignores marks as well. -/
theorem beginAction_viewed {γ : Type} {f : NodeView γ} {v : Address → γ} (hf : f.IgnoresMessages)
    (hmarks : f.IgnoresMarks) {height : Height} (hheight : height ≠ Rotation.firstHeight) :
    (beginAction height).Keeps (Viewed f v) := by
  refine (abiding_viewed hf).beginAction ?_
  refine (Rotation.beginBlock_viewed hmarks hf.moves).restrict ?_
  rintro s ⟨hs, rfl⟩
  exact ⟨hs, hheight⟩

theorem abiding_complete : Abiding NodesComplete where
  congr h hs := (Viewed.congr h hs.viewed (f := .blind)).toNodesComplete
  queue h hs := (hs.viewed (f := .blind).of_changes h (by decide)).toNodesComplete
  dispatch m :=
    NodesComplete.kept fun _ => Dispatch.dispatch_viewed NodeView.blind_ignoresMessages m
  refund m cause := NodesComplete.apart _ (Queue.refund_confined m cause) (by decide)

end Application

theorem Ledger.Oversees.abiding {N : Network → Prop} {F : Pool → Prop} (h : Oversees P N F) :
    Application.Abiding P where
  congr := h.congr
  queue hchanges hs := h.elsewhere hchanges.filed
    (hchanges.get?_eq Table.ofKey?_network (by decide))
    (fun _ hk => hchanges.get?_eq hk (by decide)) hs
  dispatch := h.dispatch
  refund := h.refundSwap

/-! ## What lasts -/

namespace Application

/-- An abiding property that the validators' own work does not affect either. -/
structure Lasting (P : Ledger → Prop) : Prop where
  abiding : Abiding P
  beginBlock : Rotation.beginBlock.Keeps P
  tick : Ragnarok.tick.Keeps P
  apply : ∀ engineKeys c, (Rotation.apply engineKeys c).Keeps P

namespace Lasting

variable {app : Application} (h : Lasting P)
include h

theorem beginAction (height : Height) : (Application.beginAction height).Keeps P :=
  h.abiding.beginAction <| h.beginBlock.restrict fun _ hs => hs.1

theorem endBlock (engineKeys : List String) : (Rotation.endBlock engineKeys).Keeps P := by
  have hpast : ∀ s, P s → P s := fun _ hs => hs
  have hticked : (do Ragnarok.tick; return [] : Action (List Rotation.PowerUpdate)).Keeps P :=
    h.tick.bind fun _ => .pure hpast
  refine .pastRead hpast fun _ => .ite (fun _ => hticked) fun _ => .pastRead hpast fun c => ?_
  refine .pastRead hpast fun _ => .ite (fun _ => hticked) fun _ => ?_
  exact .ite (fun _ => .pure hpast) fun _ => h.apply engineKeys c

theorem next (c : Call) (hs : P app.ledger) : P (c.next app).ledger := by
  cases c with
  | begin height engineKeys => exact (h.beginAction height).after hs
  | deliver m => exact (h.abiding.deliverAction m).after hs
  | finish => exact (h.abiding.endAction_keeps (h.endBlock app.engineKeys)).after hs

/-- Whatever the engine calls and whatever comes of a call. -/
theorem after (calls : List Call) (hs : P app.ledger) : P (app.after calls).ledger := by
  induction calls generalizing app with
  | nil => exact hs
  | cons c calls ih => exact ih (h.next c hs)

end Lasting

end Application

/-! ## Genesis -/

namespace Genesis

variable {g : Genesis} {e : Entry}

theorem funding_confined {subject : Subject} {owner : Address} {coins : List Coin}
    (he : e ∈ funding subject owner coins) :
    ∃ Ts, e.action.Confined Ts ∧ .pools ∉ Ts ∧ .nodes ∉ Ts := by
  obtain ⟨c, -, he⟩ := List.mem_flatMap.1 he
  rcases List.mem_cons.1 he with rfl | he
  · exact ⟨_, Bank.mint_confined _ c, by decide, by decide⟩
  · obtain rfl := List.mem_singleton.1 he
    exact ⟨_, Bank.payOut_confined _ owner [c], by decide, by decide⟩

/-- An entry stores a pool or a node, or is about neither. -/
theorem entry_cases (he : e ∈ g.entries) :
    (∃ p ∈ g.pools, e.action = Pools.save p) ∨ (∃ n ∈ g.nodes, e.action = Nodes.save n) ∨
      ∃ Ts, e.action.Confined Ts ∧ .pools ∉ Ts ∧ .nodes ∉ Ts := by
  simp only [entries, List.mem_append, List.mem_map, List.mem_flatMap] at he
  rcases he with ((((((⟨p, hp, rfl⟩ | ⟨n, hn, rfl⟩) | ⟨ps, -, rfl⟩) | ⟨v, -, rfl⟩) | ⟨m, -, rfl⟩) |
    ⟨n, -, rfl⟩) | ⟨m, -, he⟩) | ⟨m, -, he⟩
  · exact .inl ⟨p, hp, rfl⟩
  · exact .inr (.inl ⟨n, hn, rfl⟩)
  · exact .inr (.inr ⟨_, Nodes.saveProviders_confined ps, by decide, by decide⟩)
  · exact .inr (.inr ⟨_, Vaults.save_confined v, by decide, by decide⟩)
  · exact .inr (.inr ⟨_, Governance.setMimir_confined _ _, by decide, by decide⟩)
  · exact .inr (.inr ⟨_, NetworkState.save_confined n, by decide, by decide⟩)
  · exact .inr (.inr (funding_confined he))
  · exact .inr (.inr (funding_confined he))

theorem make_keeps {es : List Entry} (h : ∀ e ∈ es, e.action.Keeps P) : (make es).Keeps P := by
  induction es with
  | nil => exact .pure fun _ hs => hs
  | cons e es ih =>
    refine (h e List.mem_cons_self).attempt.bind fun outcome => ?_
    cases outcome with
    | ok _ => exact ih fun e he => h e (List.mem_cons_of_mem _ he)
    | error cause => exact .pure fun _ hs => hs

end Genesis

end LiquidityNet
