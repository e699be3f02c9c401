import LiquidityNet.Proofs.Application.Completion
import Mathlib.Algebra.Order.Floor.Div
import Mathlib.Data.Nat.Log

/-!
# How long a queue lasts

A batch is half of the queue, so the queue shrinks by the largest size of a batch as long as it is
twice as long as that, and then by halves until the least size covers what is left. Hence the number
of batches that empty a queue is a quotient and a logarithm. A quotient alone, of the length of the
queue by half of it, does not bound it: ten swaps may take five batches.
-/

namespace LiquidityNet.Queue

open LiquidityNet.Action Ledger

/-! ## The sizes of batches -/

section

variable {least most n : Nat}

/-- What a batch leaves of a queue, in numbers. -/
def left (least most n : Nat) : Nat := n - (batchSize n least most).toNat

/-- The number of batches that a queue takes: those that the largest size makes of it, and another
for each time that what such a batch holds has to be halved to come down to the least size. -/
def batchesFor (least most n : Nat) : Nat := n ⌈/⌉ most + Nat.clog 2 (min n most ⌈/⌉ least)

theorem left_of_le (h : n ≤ least) : left least most n = n - most := by
  unfold left batchSize
  rw [if_pos (Int.ofNat_le.2 h)]
  omega

theorem left_of_lt (h : least < n) : left least most n = n - min (n / 2) most := by
  unfold left batchSize
  rw [if_neg (by omega), Int.tdiv_eq_ediv_of_nonneg (by omega)]
  omega

theorem left_le (least most n : Nat) : left least most n ≤ n := Nat.sub_le _ _

theorem ceilDiv_of_le (hn : 0 < n) (h : n ≤ most) : n ⌈/⌉ most = 1 := by
  rw [Nat.ceilDiv_eq_add_pred_div]
  exact Nat.div_eq_of_lt_le (by omega) (by omega)

theorem ceilDiv_of_ge (hmost : 0 < most) (h : most ≤ n) :
    n ⌈/⌉ most = (n - most) ⌈/⌉ most + 1 := by
  rw [Nat.ceilDiv_eq_add_pred_div, Nat.ceilDiv_eq_add_pred_div, ← Nat.add_div_right _ hmost]
  congr 1
  omega

theorem ceilDiv_half (hleast : 0 < least) (n : Nat) :
    (n - n / 2) ⌈/⌉ least = (n ⌈/⌉ least + 1) / 2 := by
  rw [Nat.ceilDiv_eq_add_pred_div, Nat.ceilDiv_eq_add_pred_div, ← Nat.add_div_right _ hleast,
    Nat.div_div_eq_div_mul, Nat.mul_comm, ← Nat.div_div_eq_div_mul]
  congr 1
  omega

theorem ceilDiv_le_ceilDiv {k : Nat} (h : n ≤ k) : n ⌈/⌉ least ≤ k ⌈/⌉ least := by
  rw [Nat.ceilDiv_eq_add_pred_div, Nat.ceilDiv_eq_add_pred_div]
  exact Nat.div_le_div_right (by omega)

/-- A queue that is longer than the least size takes one batch more than half of it does. -/
theorem clog_half (hleast : 0 < least) (h : least < n) :
    Nat.clog 2 (n ⌈/⌉ least) = Nat.clog 2 ((n - n / 2) ⌈/⌉ least) + 1 := by
  have htwo : 2 ≤ n ⌈/⌉ least := by
    rw [Nat.ceilDiv_eq_add_pred_div, Nat.le_div_iff_mul_le hleast]
    omega
  rw [Nat.clog_of_two_le (by decide) htwo, ceilDiv_half hleast]
  rfl

theorem batchesFor_zero (least most : Nat) : batchesFor least most 0 = 0 := by
  simp [batchesFor]

theorem batchesFor_of_le (hn : 0 < n) (h : n ≤ most) (hcovered : n ≤ least) :
    batchesFor least most n = 1 := by
  rw [batchesFor, Nat.min_eq_left h, ceilDiv_of_le hn h, ceilDiv_of_le hn hcovered]
  rfl

/-- A batch of the largest size. -/
theorem batchesFor_sub (hmost : 0 < most) (h : most ≤ n) :
    batchesFor least most (n - most) + 1 ≤ batchesFor least most n := by
  have hlog : Nat.clog 2 (min (n - most) most ⌈/⌉ least) ≤
      Nat.clog 2 (min n most ⌈/⌉ least) :=
    Nat.clog_mono_right 2 (ceilDiv_le_ceilDiv (by omega))
  have hceil := ceilDiv_of_ge hmost h
  unfold batchesFor
  omega

/-- Half of the queue. -/
theorem batchesFor_half (hleast : 0 < least) (hn : least < n) (h : n ≤ most) :
    batchesFor least most n = batchesFor least most (n - n / 2) + 1 := by
  have hone : n ⌈/⌉ most = 1 := ceilDiv_of_le (by omega) h
  have hrest : (n - n / 2) ⌈/⌉ most = 1 := ceilDiv_of_le (by omega) (by omega)
  unfold batchesFor
  rw [Nat.min_eq_left h, Nat.min_eq_left (by omega), hone, hrest, clog_half hleast hn]
  rfl

/-- Each batch brings the end of the queue nearer. -/
theorem batchesFor_left (hleast : 0 < least) (hmost : 0 < most) (hn : 0 < n) :
    batchesFor least most (left least most n) + 1 ≤ batchesFor least most n := by
  by_cases hcovered : n ≤ least
  · rw [left_of_le hcovered]
    rcases Nat.le_total n most with h | h
    · rw [Nat.sub_eq_zero_of_le h, batchesFor_zero, batchesFor_of_le hn h hcovered]
    · exact batchesFor_sub hmost h
  have hlonger : least < n := Nat.lt_of_not_le hcovered
  rw [left_of_lt hlonger]
  by_cases hfull : most ≤ n / 2
  · rw [Nat.min_eq_right hfull]
    exact batchesFor_sub hmost (by omega)
  rw [Nat.min_eq_left (by omega)]
  by_cases h : n ≤ most
  · rw [batchesFor_half hleast hlonger h]
  -- what is left fits into a batch, though the queue did not
  have hlog : Nat.clog 2 (min (n - n / 2) most ⌈/⌉ least) ≤ Nat.clog 2 (min n most ⌈/⌉ least) :=
    Nat.clog_mono_right 2 (ceilDiv_le_ceilDiv (by omega))
  have hrest : (n - n / 2) ⌈/⌉ most = 1 := ceilDiv_of_le (by omega) (by omega)
  have hlast : (n - most) ⌈/⌉ most = 1 := ceilDiv_of_le (by omega) (by omega)
  have htwo := ceilDiv_of_ge hmost (Nat.le_of_not_le h)
  unfold batchesFor
  omega

/-- A queue that the largest size covers or divides comes nearer to its end by just one batch. -/
theorem batchesFor_left_eq (hleast : 0 < least) (hmost : 0 < most) (hn : 0 < n)
    (h : n ≤ most ∨ most ∣ n) :
    batchesFor least most (left least most n) + 1 = batchesFor least most n ∧
      (left least most n ≤ most ∨ most ∣ left least most n) := by
  by_cases hfits : n ≤ most
  · refine ⟨?_, .inl ((left_le _ _ _).trans hfits)⟩
    by_cases hcovered : n ≤ least
    · rw [left_of_le hcovered, Nat.sub_eq_zero_of_le hfits, batchesFor_zero,
        batchesFor_of_le hn hfits hcovered]
    · have hlonger : least < n := Nat.lt_of_not_le hcovered
      rw [left_of_lt hlonger, Nat.min_eq_left (by omega), batchesFor_half hleast hlonger hfits]
  · have hdvd : most ∣ n - most := Nat.dvd_sub (h.resolve_left hfits) (Nat.dvd_refl most)
    have hrest : most ≤ n - most := Nat.le_of_dvd (by omega) hdvd
    have hleft : left least most n = n - most := by
      rcases Nat.lt_or_ge least n with hlonger | hcovered
      · rw [left_of_lt hlonger, Nat.min_eq_right (by omega)]
      · exact left_of_le hcovered
    rw [hleft]
    refine ⟨?_, .inr hdvd⟩
    unfold batchesFor
    rw [ceilDiv_of_ge hmost (Nat.le_of_not_le hfits), Nat.min_eq_right hrest,
      Nat.min_eq_right (Nat.le_of_not_le hfits)]
    exact Nat.add_right_comm _ _ _

/-! ## Numbers of batches -/

/-- A number of batches bring the end of the queue that much nearer. -/
theorem batchesFor_iterate (hleast : 0 < least) (hmost : 0 < most) (k n : Nat) :
    batchesFor least most ((left least most)^[k] n) ≤ batchesFor least most n - k := by
  induction k with
  | zero => exact Nat.le_refl _
  | succ k ih =>
    rw [Function.iterate_succ_apply']
    rcases Nat.eq_zero_or_pos ((left least most)^[k] n) with hzero | hpos
    · rw [hzero, Nat.eq_zero_of_le_zero (left_le least most 0), batchesFor_zero]
      exact Nat.zero_le _
    · have hnearer := batchesFor_left hleast hmost hpos
      omega

theorem batchesFor_iterate_eq (hleast : 0 < least) (hmost : 0 < most)
    (h : n ≤ most ∨ most ∣ n) (k : Nat) :
    batchesFor least most ((left least most)^[k] n) = batchesFor least most n - k ∧
      ((left least most)^[k] n ≤ most ∨ most ∣ (left least most)^[k] n) := by
  induction k with
  | zero => exact ⟨rfl, h⟩
  | succ k ih =>
    obtain ⟨heq, hfits⟩ := ih
    rw [Function.iterate_succ_apply']
    rcases Nat.eq_zero_or_pos ((left least most)^[k] n) with hzero | hpos
    · rw [hzero, batchesFor_zero] at heq
      rw [hzero, Nat.eq_zero_of_le_zero (left_le least most 0), batchesFor_zero]
      exact ⟨by omega, .inl (Nat.zero_le _)⟩
    · obtain ⟨hnearer, hfits⟩ := batchesFor_left_eq hleast hmost hpos hfits
      exact ⟨by omega, hfits⟩

theorem batchesFor_eq_zero (hleast : 0 < least) (hmost : 0 < most) :
    batchesFor least most n = 0 ↔ n = 0 := by
  refine ⟨fun h => ?_, fun h => h ▸ batchesFor_zero least most⟩
  rcases Nat.eq_zero_or_pos n with hzero | hpos
  · exact hzero
  · have hnearer := batchesFor_left hleast hmost hpos
    omega

/-- Where the least size is a quarter of what the largest batch could hold, the halving takes no
more than two batches. -/
theorem batchesFor_le (hmost : 0 < most) (hn : 2 ≤ n) (h : min n most ≤ 4 * least) :
    batchesFor least most n ≤ 2 + n ⌈/⌉ min most (n / 2) := by
  have hlog : Nat.clog 2 (min n most ⌈/⌉ least) ≤ Nat.clog 2 4 := by
    refine Nat.clog_mono_right 2 ?_
    rw [Nat.ceilDiv_eq_add_pred_div]
    exact Nat.le_of_lt_succ (Nat.div_lt_of_lt_mul (by omega))
  have hceil : n ⌈/⌉ most ≤ n ⌈/⌉ min most (n / 2) := by
    have hpos : 0 < min most (n / 2) := by omega
    refine (ceilDiv_le_iff_le_mul hmost).2 ?_
    calc n ≤ min most (n / 2) * (n ⌈/⌉ min most (n / 2)) := (ceilDiv_le_iff_le_mul hpos).1 le_rfl
      _ ≤ most * (n ⌈/⌉ min most (n / 2)) := Nat.mul_le_mul_right _ (Nat.min_le_left _ _)
  have hfour : Nat.clog 2 4 = 2 := Nat.clog_pow 2 2 (by decide)
  unfold batchesFor
  omega

end

/-! ## Batch after batch -/

variable {run : SwapRequest → Action Unit} {least most k : Nat} {s t u : Ledger}

/-- The settings that size a batch. -/
structure Sized (least most : Nat) (s : Ledger) : Prop where
  least : ∃ v, Governance.value .minSwapsPerBlock s = .ok v ∧ v.val = least
  most : ∃ v, Governance.value .maxSwapsPerBlock s = .ok v ∧ v.val = most

/-- What a number of batches make of a ledger, with their sizes set alike. Whatever happens between
two batches leaves the queue alone. -/
inductive Batches (run : SwapRequest → Action Unit) (least most : Nat) :
    Nat → Ledger → Ledger → Prop
  | none (s : Ledger) : Batches run least most 0 s s
  | next {k : Nat} {s t u v : Ledger} {outcomes : List (TxId × Option Error)}
      (before : Batches run least most k s t) (idle : Holds t.queued u)
      (sized : Sized least most u) (ran : runBatch run u = (.ok outcomes, v)) :
      Batches run least most (k + 1) s v

theorem runBatch_left (hrun : ∀ qs m, (run m).Keeps (Holds qs)) (hs : s.QueueFiled)
    (hsized : Sized least most s) {outcomes : List (TxId × Option Error)}
    (h : runBatch run s = (.ok outcomes, t)) :
    t.QueueFiled ∧ t.queued.length = left least most s.queued.length := by
  obtain ⟨v, w, _, waiting, hv, hw, -, -, hwaiting, hbatch⟩ := batch_ok s
  obtain ⟨v', hv', hleast⟩ := hsized.least
  obtain ⟨w', hw', hmost⟩ := hsized.most
  obtain rfl := Except.ok.inj (hv.symm.trans hv')
  obtain rfl := Except.ok.inj (hw.symm.trans hw')
  obtain ⟨ht, hperm, -⟩ := runBatch_ok hrun hs hbatch h
  have hlength := hwaiting.length_eq
  have hsplit := hperm.length_eq
  rw [List.length_map] at hlength
  rw [List.length_append, List.length_map, List.length_take, hlength, hleast, hmost] at hsplit
  refine ⟨ht, ?_⟩
  unfold left
  omega

theorem Batches.left (h : Batches run least most k s t)
    (hrun : ∀ qs m, (run m).Keeps (Holds qs)) (hs : s.QueueFiled) :
    t.QueueFiled ∧ t.queued.length = (Queue.left least most)^[k] s.queued.length := by
  induction h with
  | none s => exact ⟨hs, rfl⟩
  | next before idle sized ran ih =>
    obtain ⟨-, hlength⟩ := ih hs
    obtain ⟨hfiled, hsame⟩ := idle
    obtain ⟨ht, hleft⟩ := runBatch_left hrun hfiled sized ran
    refine ⟨ht, ?_⟩
    rw [Function.iterate_succ_apply', ← hlength, ← hsame, hleft]

/-! ## Batches that can be run -/

theorem Sized.of_changes {Ts : List Table} (hs : Sized least most s) (h : Changes Ts s t)
    (hTs : .mimirs ∉ Ts) : Sized least most t := by
  have hsame : ∀ x, Governance.value x t = Governance.value x s := fun x =>
    Governance.value_congr h.settings (h.get?_eq (Table.ofKey?_mimir _) hTs)
  exact ⟨by rw [hsame]; exact hs.least, by rw [hsame]; exact hs.most⟩

/-- A batch that has room is carried out, and the swaps that it leaves have room, too. -/
theorem runBatch_returns (hs : s.QueueFiled) (hroom : HasRoom [] (coins s.queued) s) :
    ∃ outcomes t, runBatch Application.runSwap s = (.ok outcomes, t) ∧ t.QueueFiled ∧
      HasRoom [] (coins t.queued) t := by
  obtain ⟨_, _, _, _, -, -, -, -, -, hbatch⟩ := batch_ok s
  obtain ⟨rest, hperm⟩ := batch_perm hbatch
  have hcompletes := fun r t => mapM_runOne_room (coins rest) (batch_reads hbatch) s r t
    (hroom.perm (coins_perm hperm))
  have hrunBatch := runBatch_eq Application.runSwap
  rcases hrun : runBatch Application.runSwap s with ⟨(e | f) | outcomes, t⟩
  · exact absurd hrun ((runBatch_answers _).not_refused s e t)
  · rw [hrunBatch, Action.read_bind_run, hbatch] at hrun
    exact (hcompletes _ _ hrun).elim
  · rw [hrunBatch, Action.read_bind_run, hbatch] at hrun
    obtain ⟨ht, hleft⟩ := mapM_runOne_ok Application.Journal.runSwap_keeps hs hperm hrun
    have hleft' : (coins t.queued).Perm (coins rest) := hleft.flatMap_right _
    exact ⟨outcomes, t, rfl, ht, (hcompletes _ _ hrun).perm hleft'.symm⟩

theorem batches_return (hs : s.QueueFiled) (hroom : HasRoom [] (coins s.queued) s)
    (hsized : Sized least most s) (k : Nat) :
    ∃ t, Batches Application.runSwap least most k s t ∧ t.QueueFiled ∧
      HasRoom [] (coins t.queued) t ∧ Sized least most t := by
  induction k with
  | zero => exact ⟨s, .none s, hs, hroom, hsized⟩
  | succ k ih =>
    obtain ⟨t, hbefore, ht, hroom, hsized⟩ := ih
    obtain ⟨outcomes, u, hrun, hu, hroom⟩ := runBatch_returns ht hroom
    have hchanges := Application.runBatch_confined.changes hrun
    exact ⟨u, .next hbefore ⟨ht, rfl⟩ hsized hrun, hu, hroom,
      hsized.of_changes hchanges (by decide)⟩

/-! ## The end of the queue -/

/-- The queue is empty after its number of batches, and not before where the largest size covers or
divides it. That is no more than two batches beyond those of half its length or the largest size as
long as the halving stops within two steps. Where there is room for the coins of the queue, any
number of batches can be run. -/
theorem queue_exhausted (least most : Nat) (hleast : 1 ≤ least) (hmost : 1 ≤ most)
    (hs : s.QueueFiled) :
    (∀ run : SwapRequest → Action Unit, (∀ qs m, (run m).Keeps (Holds qs)) →
      ∀ k t, Batches run least most k s t →
        (batchesFor least most s.queued.length ≤ k → t.queued = []) ∧
        (s.queued.length ≤ most ∨ most ∣ s.queued.length →
          k < batchesFor least most s.queued.length → t.queued ≠ []) ∧
        (2 ≤ s.queued.length → min s.queued.length most ≤ 4 * least →
          2 + s.queued.length ⌈/⌉ min most (s.queued.length / 2) ≤ k → t.queued = [])) ∧
      (HasRoom [] (coins s.queued) s → Sized least most s →
        ∀ k, ∃ t, Batches Application.runSwap least most k s t) := by
  refine ⟨fun run hrun k t hbatches => ?_, fun hroom hsized k => ?_⟩
  · obtain ⟨-, hlength⟩ := hbatches.left hrun hs
    have hempty : t.queued = [] ↔
        batchesFor least most ((left least most)^[k] s.queued.length) = 0 := by
      rw [batchesFor_eq_zero hleast hmost, ← hlength, List.length_eq_zero_iff]
    have hbound := batchesFor_iterate hleast hmost k s.queued.length
    refine ⟨fun hk => hempty.2 (by omega), fun hfits hk => ?_, fun htwo hquarter hk => ?_⟩
    · rw [Ne, hempty, (batchesFor_iterate_eq hleast hmost hfits k).1]
      omega
    · have hfew := batchesFor_le hmost htwo hquarter
      exact hempty.2 (by omega)
  · obtain ⟨t, hbatches, -⟩ := batches_return hs hroom hsized k
    exact ⟨t, hbatches⟩

/-! Ten orders wait, and governance lets a batch be as small as a single swap. Half of them run in
the first block and two in each of the next ones; then one and one more are left. -/

/-- A number of orders of the same transaction. -/
def crowd : Nat → Ledger
  | 0 => (empty (.ofEnvironment .mocknet) 1).putRecord (Key.mimir Setting.minSwapsPerBlock.name)
      (.number 1)
  | n + 1 => (crowd n).putRecord (Key.swap Application.order.tx.id (Fin.ofNat _ n))
      (.swap Application.order)

theorem crowd_filed (n : Nat) : (crowd n).Filed ∧ (crowd n).QueueFiled := by
  have hread : Application.order.reread? = some Application.order := by decide +kernel
  induction n with
  | zero =>
    have hmimir := Table.ofKey?_mimir Setting.minSwapsPerBlock.name
    refine ⟨(filed_empty _ _).putRecord ⟨.mimirs, by decide, hmimir⟩, fun k r hbegin hget => ?_⟩
    change Ledger.get? (Ledger.putRecord _ _ _) _ = _ at hget
    rw [get?_putRecord] at hget
    split at hget
    · rename_i hk
      rw [hk] at hbegin
      exact absurd hbegin (by decide +kernel)
    · cases hget
  | succ n ih =>
    refine ⟨ih.1.putRecord (Table.ofKey?_swap _ _), fun k r hbegin hget => ?_⟩
    change Ledger.get? (Ledger.putRecord _ _ _) _ = _ at hget
    rw [get?_putRecord] at hget
    split at hget
    · rename_i hk
      cases hget
      exact ⟨⟨Application.order, Fin.ofNat _ n⟩, rfl, hk, hread⟩
    · exact ih.2 k r hbegin hget

theorem crowd_reads :
    (crowd 10).queued.length = 10 ∧ Sized 1 100 (crowd 10) ∧
      Vaults.asgards .active (crowd 10) = .ok [] := by
  have h : (crowd 10).queued.length = 10 ∧
      (Governance.value .minSwapsPerBlock (crowd 10)).toOption = some 1 ∧
      (Governance.value .maxSwapsPerBlock (crowd 10)).toOption = some (.clamp 100) ∧
      (Vaults.asgards .active (crowd 10)).toOption = some [] := by decide +kernel
  obtain ⟨hlength, hleast, hmost, hvaults⟩ := h
  exact ⟨hlength, ⟨⟨_, eq_ok_of_toOption hleast, by decide⟩, _, eq_ok_of_toOption hmost, by decide⟩,
    eq_ok_of_toOption hvaults⟩

/-- There is no vault to send the coins of the orders back from. -/
theorem crowd_room : HasRoom [] (coins (crowd 10).queued) (crowd 10) where
  filed := (crowd_filed 10).1
  height := by decide
  period := by decide
  room := by
    intro period pending vaults _ _ hvaults v hv
    cases crowd_reads.2.2.symm.trans hvaults
    cases hv

/-- After four batches, two and as many as there are of five orders, one order still waits. -/
theorem crowd_outlasts :
    (crowd 10).QueueFiled ∧ (crowd 10).queued.length = 10 ∧ 2 + 10 ⌈/⌉ min 100 (10 / 2) = 4 ∧
      ∃ t, Batches Application.runSwap 1 100 4 (crowd 10) t ∧ t.queued.length = 1 := by
  obtain ⟨hlength, hsized, -⟩ := crowd_reads
  obtain ⟨t, hbatches, -⟩ := batches_return (crowd_filed 10).2 crowd_room hsized 4
  have hleft := (hbatches.left Application.Journal.runSwap_keeps (crowd_filed 10).2).2
  rw [hlength] at hleft
  exact ⟨(crowd_filed 10).2, hlength, by decide +kernel, t, hbatches, hleft.trans (by decide)⟩

/-- The fifth batch is the last. -/
theorem crowd_exhausted :
    batchesFor 1 100 10 = 5 ∧
      ∃ t, Batches Application.runSwap 1 100 5 (crowd 10) t ∧ t.queued = [] := by
  have hfive : batchesFor 1 100 10 = 5 := by decide +kernel
  obtain ⟨hlength, hsized, -⟩ := crowd_reads
  obtain ⟨hends, hruns⟩ := queue_exhausted 1 100 (by decide) (by decide) (crowd_filed 10).2
  obtain ⟨t, hbatches⟩ := hruns crowd_room hsized 5
  obtain ⟨hempty, -⟩ := hends _ Application.Journal.runSwap_keeps 5 t hbatches
  refine ⟨hfive, t, hbatches, hempty ?_⟩
  rw [hlength, hfive]

end LiquidityNet.Queue
