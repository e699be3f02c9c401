import LiquidityNet.Proofs.Ledger.Completion
import LiquidityNet.Proofs.Queue.Contents
import LiquidityNet.Proofs.Swap.Writes

/-!
# Batches of the swap queue

Rating and sorting lose no queued swap and repeat none, so a batch is a part of the queue. Each of
its swaps leaves the queue once it was handed over, whatever came of it, and nothing else does.
-/

namespace LiquidityNet

namespace Queue

open Ledger

variable {s t : Ledger}

/-- The queued swap that was rated. -/
def Rated.queued (r : Rated) : QueuedSwap := ⟨r.request, r.index⟩

theorem places_length (order : Rated → Rated → Bool) (items : List Rated) :
    (places order items).length = items.length := by
  rw [places, List.length_map, List.length_range]

theorem sort_perm (items : List Rated) : (sort items).Perm items := by
  unfold sort
  extract_lets ranks
  have hlength : items.length = ranks.length := by
    rw [List.length_zipWith, places_length, places_length, Nat.min_self]
  have hzip : (items.zip ranks).map (·.1) = items := List.map_fst_zip (Nat.le_of_eq hlength)
  have hsorted := (List.mergeSort_perm (items.zip ranks) fun a b =>
    if a.2 = b.2 then Rated.tiePrecedes a.1 b.1 else decide (a.2 ≤ b.2)).map (·.1)
  rwa [hzip] at hsorted

theorem rate_queued (l : Ledger) (multiplier : Amount) (r : Rated) :
    (rate l multiplier r).1.queued = r.queued := by
  unfold rate
  split
  · rfl
  extract_lets target first
  split
  · rfl
  · rfl
  split
  · rfl
  extract_lets charged
  have hcharged : charged.queued = r.queued := rfl
  split
  · exact hcharged
  split
  · exact hcharged
  · exact hcharged
  split
  · exact hcharged
  · exact hcharged

theorem rateAll_queued (l : Ledger) (multiplier : Amount) (rs : List Rated) :
    (rateAll l multiplier rs).1.map Rated.queued = rs.map Rated.queued := by
  induction rs with
  | nil => rfl
  | cons r rs ih =>
    have hrate := rate_queued l multiplier r
    unfold rateAll
    rcases hr : rate l multiplier r with ⟨r', _ | e⟩
    all_goals rw [hr] at hrate
    · simp only [List.map_cons, hrate, ih]
    · simp only [List.map_cons, hrate]

/-- The order in which the queue runs is an order of the queue. -/
theorem ordered_ok (multiplier : Amount) (s : Ledger) :
    ∃ rs, ordered multiplier s = .ok rs ∧ (rs.map Rated.queued).Perm s.queued := by
  refine ⟨sort (rateAll s multiplier (s.queued.map Rated.ofQueued)).1, rfl, ?_⟩
  have hsame : (s.queued.map Rated.ofQueued).map Rated.queued = s.queued := by
    rw [List.map_map]
    exact List.map_id'' (fun _ => rfl) _
  have hrated := rateAll_queued s multiplier (s.queued.map Rated.ofQueued)
  rw [hsame] at hrated
  have hsorted :=
    (sort_perm (rateAll s multiplier (s.queued.map Rated.ofQueued)).1).map Rated.queued
  rwa [hrated] at hsorted

/-! ## Batches -/

/-- The swaps whose turn it is in this block: the first ones of the queue as it is ordered. -/
def batch : Query (List Rated) := do
  let least ← Governance.value .minSwapsPerBlock
  let most ← Governance.value .maxSwapsPerBlock
  let waiting ← ordered (← Swap.depthMultiplier)
  return waiting.take (batchSize waiting.length least.val most.val).toNat

theorem runBatch_eq (run : SwapRequest → Action Unit) :
    runBatch run = (do let b ← batch; b.mapM (runOne run)) := by
  funext s
  simp only [runBatch, batch, Action.read_bind_run, Query.bind_run]
  cases Governance.value .minSwapsPerBlock s with
  | error e => rfl
  | ok least =>
    cases Governance.value .maxSwapsPerBlock s with
    | error e => rfl
    | ok most =>
      cases Swap.depthMultiplier s with
      | error e => rfl
      | ok multiplier =>
        simp only
        cases ordered multiplier s <;> rfl

/-- There always is a batch: the first swaps of the queue in the order in which it is to run, as
many as the settings allow. -/
theorem batch_ok (s : Ledger) :
    ∃ least most multiplier waiting, Governance.value .minSwapsPerBlock s = .ok least ∧
      Governance.value .maxSwapsPerBlock s = .ok most ∧
      Swap.depthMultiplier s = .ok multiplier ∧ ordered multiplier s = .ok waiting ∧
      (waiting.map Rated.queued).Perm s.queued ∧
      batch s = .ok (waiting.take (batchSize waiting.length least.val most.val).toNat) := by
  obtain ⟨least, hleast⟩ := Governance.valueAtLeast_ok .minSwapsPerBlock 0 s
  obtain ⟨most, hmost⟩ := Governance.valueAtLeast_ok .maxSwapsPerBlock 0 s
  obtain ⟨v, hv⟩ := Governance.valueAtLeast_ok .virtualMultSynthsBasisPoints 1 s
  have hmultiplier : Swap.depthMultiplier s = .ok (.wrap v.val) := by
    rw [Swap.depthMultiplier, Query.bind_run, hv]
    rfl
  obtain ⟨waiting, hwaiting, hperm⟩ := ordered_ok (.wrap v.val) s
  refine ⟨least, most, _, waiting, hleast, hmost, hmultiplier, hwaiting, hperm, ?_⟩
  refine Query.bind_eq_ok.2 ⟨least, hleast, Query.bind_eq_ok.2 ⟨most, hmost, ?_⟩⟩
  exact Query.bind_eq_ok.2 ⟨_, hmultiplier, Query.bind_eq_ok.2 ⟨waiting, hwaiting, rfl⟩⟩

/-- A batch is a part of the queue. -/
theorem batch_perm {rs : List Rated} (h : batch s = .ok rs) :
    ∃ rest, s.queued.Perm (rs.map Rated.queued ++ rest) := by
  obtain ⟨least, most, multiplier, waiting, -, -, -, -, hperm, hfirst⟩ := batch_ok s
  rw [h] at hfirst
  obtain rfl := Except.ok.inj hfirst
  have hsplit := hperm.symm
  rw [← List.take_append_drop (batchSize waiting.length least.val most.val).toNat waiting,
    List.map_append] at hsplit
  exact ⟨_, hsplit⟩

/-! ## Runs of a batch -/

/-- What follows once a swap was carried out or refused: the refund of one that was refused, and its
removal from the queue. -/
def conclude (r : Rated) (outcome : Except Error Unit) : Action (TxId × Option Error) := do
  let failure ←
    match outcome with
    | .ok () => pure none
    | .error e => do
      refund r.request e
      pure (some e)
  remove r.request.tx.id r.index
  return (r.request.tx.id, failure)

/-- A queued swap is handed over once, as it was queued, and what follows hands over nothing. -/
theorem runOne_eq (run : SwapRequest → Action Unit) (r : Rated) :
    runOne run r = (do conclude r (← attempt (run r.request))) := rfl

/-- A swap that is handed over: the ledger it is carried out on, what comes of it, and the ledger
that it leaves. -/
structure Handover where
  request : SwapRequest
  before : Ledger
  outcome : Except Error Unit
  after : Ledger

/-- Some swaps take their turns from one ledger to another. Each is carried out once, on the ledger of
its turn, and concluded before the next one. -/
inductive Turns (run : SwapRequest → Action Unit) :
    List Rated → Ledger → List Handover → Ledger → Prop
  | done (s : Ledger) : Turns run [] s [] s
  | next {r : Rated} {rs : List Rated} {s u v t : Ledger} {outcome : Except Error Unit}
      {x : TxId × Option Error} {calls : List Handover}
      (hran : attempt (run r.request) s = (.ok outcome, u))
      (hconcluded : conclude r outcome u = (.ok x, v)) (hrest : Turns run rs v calls t) :
      Turns run (r :: rs) s (⟨r.request, s, outcome, u⟩ :: calls) t

/-- The swaps that a batch hands over, in this order. A fault ends it. -/
def handovers (run : SwapRequest → Action Unit) : List Rated → Ledger → List Handover
  | [], _ => []
  | r :: rs, s =>
    match attempt (run r.request) s with
    | (.ok outcome, u) =>
      ⟨r.request, s, outcome, u⟩ ::
        match conclude r outcome u with
        | (.ok _, v) => handovers run rs v
        | (.error _, _) => []
    | (.error _, _) => []

theorem Turns.requests {run : SwapRequest → Action Unit} {rs : List Rated}
    {calls : List Handover} (h : Turns run rs s calls t) :
    calls.map (·.request) = rs.map (·.request) := by
  induction h with
  | done s => rfl
  | next hran hconcluded hrest ih => rw [List.map_cons, List.map_cons, ih]

/-- Swaps that are run one after the other take their turns. -/
theorem turns_of_mapM {run : SwapRequest → Action Unit} {rs : List Rated}
    {xs : List (TxId × Option Error)} (h : rs.mapM (runOne run) s = (.ok xs, t)) :
    Turns run rs s (handovers run rs s) t := by
  induction rs generalizing s xs with
  | nil =>
    cases h
    exact .done _
  | cons r rs ih =>
    rw [List.mapM_cons] at h
    obtain ⟨x, v, hone, h⟩ := Action.bind_eq_ok.1 h
    obtain ⟨ys, w, hall, h⟩ := Action.bind_eq_ok.1 h
    cases h
    obtain ⟨outcome, u, hran, hconcluded⟩ := Action.bind_eq_ok.1 (runOne_eq run r ▸ hone)
    unfold handovers
    simp only [hran, hconcluded]
    exact .next hran hconcluded (ih hall)

/-- What is queued at the moment. -/
def Holds (qs : List QueuedSwap) (s : Ledger) : Prop := s.QueueFiled ∧ s.queued = qs

theorem holds_of_changes {Ts : List Table} (hTs : .swaps ∉ Ts) {qs : List QueuedSwap}
    (s t : Ledger) (h : Changes Ts s t) (hs : Holds qs s) : Holds qs t :=
  ⟨(hs.1.of_changes h hTs).1, (hs.1.of_changes h hTs).2.trans hs.2⟩

theorem refund_confined (m : SwapRequest) (cause : Error) :
    (refund m cause).Confined Refund.tables := by
  refine .readThen fun _ => .readThen fun _ => ?_
  exact (Refund.refund_confined _ _ _ _).attempt.bind fun _ => .pure ()

theorem remove_confined (i : TxId) (index : Word) : (remove i index).Confined [.swaps] :=
  .erase (T := .swaps) (by decide) (by simp)

theorem refund_keeps (qs : List QueuedSwap) (m : SwapRequest) (cause : Error) :
    (refund m cause).Keeps (Holds qs) :=
  .of_confined (refund_confined m cause) (holds_of_changes (by decide))

/-- The queue without a swap. -/
def Lacks (q : QueuedSwap) (qs : List QueuedSwap) (t : Ledger) : Prop :=
  t.QueueFiled ∧ qs.Perm (q :: t.queued)

theorem remove_leads {r : Rated} {qs : List QueuedSwap} (hr : r.queued ∈ qs) :
    (remove r.request.tx.id r.index).Leads (Holds qs) (fun _ => Lacks r.queued qs)
      (fun _ => True) := by
  intro s x t hs hrun
  cases hrun
  obtain ⟨hfiled, rfl⟩ := hs
  exact hfiled.erase hr rfl

theorem conclude_leads {r : Rated} {qs : List QueuedSwap} (hr : r.queued ∈ qs)
    (outcome : Except Error Unit) :
    (conclude r outcome).Leads (Holds qs) (fun _ => Lacks r.queued qs) (fun _ => True) := by
  have hremoved : ∀ failure : Option Error, Action.Leads (Holds qs)
      (do remove r.request.tx.id r.index; return (r.request.tx.id, failure))
      (fun _ => Lacks r.queued qs) (fun _ => True) := fun failure =>
    (remove_leads hr).bind fun _ => .pure fun _ h => h
  cases outcome with
  | ok _ => exact hremoved none
  | error e =>
    exact ((refund_keeps qs r.request e).mono (fun _ h => h) (fun _ _ h => h)
      (fun _ _ => trivial)).bind fun _ => hremoved (some e)

/-- A swap that was handed over has left the queue, whatever came of it and of its refund; the rest
of the queue is as it was. -/
theorem runOne_leads {run : SwapRequest → Action Unit} (hrun : ∀ qs m, (run m).Keeps (Holds qs))
    {r : Rated} {qs : List QueuedSwap} (hr : r.queued ∈ qs) :
    (runOne run r).Leads (Holds qs) (fun _ => Lacks r.queued qs) (fun _ => True) :=
  ((hrun qs r.request).attempt.mono (fun _ h => h) (fun _ _ h => h) (fun _ _ => trivial)).bind
    (conclude_leads hr)

theorem refund_answers (m : SwapRequest) (cause : Error) : (refund m cause).Answers := by
  have hvault : ∀ s, ∃ v, receivingVault m.tx.id s = .ok v := by
    intro s
    unfold receivingVault
    split
    · exact ⟨_, rfl⟩
    · exact ⟨_, rfl⟩
  refine (Action.Answers.read hvault).bind fun _ => ?_
  exact (Action.Answers.read fun s => ⟨s.height, rfl⟩).bind fun _ =>
    (Action.Answers.attempt _).bind fun _ => .pure ()

theorem conclude_answers (r : Rated) (outcome : Except Error Unit) :
    (conclude r outcome).Answers := by
  have hremoved : ∀ failure : Option Error, Action.Answers
      (do remove r.request.tx.id r.index; return (r.request.tx.id, failure)) := fun failure =>
    (Action.Answers.erase _).bind fun _ => .pure _
  cases outcome with
  | ok _ => exact hremoved none
  | error e => exact (refund_answers _ e).bind fun _ => hremoved (some e)

theorem runOne_answers (run : SwapRequest → Action Unit) (r : Rated) : (runOne run r).Answers :=
  (Action.Answers.attempt _).bind (conclude_answers r)

theorem runBatch_answers (run : SwapRequest → Action Unit) : (runBatch run).Answers := by
  rw [runBatch_eq]
  refine (Action.Answers.read fun s => ?_).bind fun rs => .mapM (runOne_answers run) rs
  obtain ⟨_, _, _, _, -, -, -, -, -, h⟩ := batch_ok s
  exact ⟨_, h⟩

/-- The swaps of a batch leave the queue, and no other swap does. -/
theorem mapM_runOne_ok {run : SwapRequest → Action Unit} (hrun : ∀ qs m, (run m).Keeps (Holds qs))
    {rs : List Rated} {rest : List QueuedSwap} {xs : List (TxId × Option Error)}
    (hs : s.QueueFiled) (hperm : s.queued.Perm (rs.map Rated.queued ++ rest))
    (h : rs.mapM (runOne run) s = (.ok xs, t)) : t.QueueFiled ∧ t.queued.Perm rest := by
  induction rs generalizing s xs with
  | nil =>
    cases h
    exact ⟨hs, hperm⟩
  | cons r rs ih =>
    rw [List.mapM_cons] at h
    obtain ⟨x, u, hone, h⟩ := Action.bind_eq_ok.1 h
    obtain ⟨ys, v, hall, h⟩ := Action.bind_eq_ok.1 h
    cases h
    have hr : r.queued ∈ s.queued := hperm.mem_iff.2 List.mem_cons_self
    obtain ⟨hu, hless⟩ := runOne_leads hrun hr s _ _ ⟨hs, rfl⟩ hone
    exact ih hu ((List.perm_cons r.queued).1 (hless.symm.trans hperm)) hall

/-- A block hands over its batch, swap by swap, and that is what leaves the queue. -/
theorem runBatch_ok {run : SwapRequest → Action Unit} (hrun : ∀ qs m, (run m).Keeps (Holds qs))
    {rs : List Rated} {xs : List (TxId × Option Error)} (hs : s.QueueFiled)
    (hbatch : batch s = .ok rs) (h : runBatch run s = (.ok xs, t)) :
    t.QueueFiled ∧ s.queued.Perm (rs.map Rated.queued ++ t.queued) ∧
      Turns run rs s (handovers run rs s) t := by
  obtain ⟨rest, hsplit⟩ := batch_perm hbatch
  rw [runBatch_eq, Action.read_bind_run, hbatch] at h
  obtain ⟨ht, hleft⟩ := mapM_runOne_ok hrun hs hsplit h
  exact ⟨ht, hsplit.trans (hleft.symm.append_left _), turns_of_mapM h⟩

end Queue

end LiquidityNet
