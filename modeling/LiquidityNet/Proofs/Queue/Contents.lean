import LiquidityNet.Proofs.Action.Confinement
import LiquidityNet.Proofs.Ledger.Nodes
import LiquidityNet.Swap.Queue

/-!
# The contents of the swap queue

A queued swap stands under a key made of its transaction's id and its index, and both can be told
from the key. So the queue is a set of swaps and indices: storing a swap under a free key adds it,
erasing a key takes away the one swap under it, and the next index of a transaction is free.
-/

namespace LiquidityNet

namespace Text

theorem digit?_of_isDigit {c : Char} (h : c.isDigit = true) :
    digit? c = some (c.toNat - '0'.toNat) := by
  unfold Char.isDigit at h
  rw [Bool.and_eq_true, decide_eq_true_eq, decide_eq_true_eq] at h
  exact if_pos h

theorem digits?_of_isDigit {cs : List Char} (h : ∀ c ∈ cs, c.isDigit = true) (acc : Nat) :
    digits? acc cs = some (Nat.ofDigitChars 10 cs acc) := by
  induction cs generalizing acc with
  | nil => rfl
  | cons c cs ih =>
    rw [digits?, digit?_of_isDigit (h c List.mem_cons_self), Option.bind_some,
      ih (fun d hd => h d (List.mem_cons_of_mem c hd)), Nat.ofDigitChars_cons]

/-- A number comes back from its digits. -/
theorem signedNat?_toDigits (n : Nat) : signedNat? (Nat.toDigits 10 n) = some n := by
  have hdigit : ∀ c ∈ Nat.toDigits 10 n, c.isDigit = true := fun c hc =>
    Nat.isDigit_of_mem_toDigits (by decide) (by decide) hc
  have hvalue : digits? 0 (Nat.toDigits 10 n) = some n := by
    rw [digits?_of_isDigit hdigit, Nat.ofDigitChars_ten_toDigits]
  cases hcs : Nat.toDigits 10 n with
  | nil => exact absurd hcs Nat.toDigits_ne_nil
  | cons c cs =>
    rw [hcs] at hdigit hvalue
    have hsign : c ≠ '+' := fun h => absurd (hdigit c List.mem_cons_self) (by rw [h]; decide)
    unfold signedNat?
    split
    · rename_i heq
      cases heq
      exact absurd rfl hsign
    · exact hvalue

end Text

namespace Key

theorem toList_swap (i : TxId) (n : Word) :
    (swap i n).toList = (swapStart ++ i.text).toList ++ '-' :: Nat.toDigits 10 n.val := by
  rw [swap, String.toList_append, String.toList_append, Nat.toString_eq_repr, Nat.toList_repr,
    List.append_assoc]
  rfl

/-- The index is what follows the last hyphen. -/
theorem swapIndex?_swap (i : TxId) (n : Word) : swapIndex? (swap i n) = some n := by
  have hdigit : ∀ c ∈ (Nat.toDigits 10 n.val).reverse, (c != '-') = true := by
    intro c hc
    have hc := Nat.isDigit_of_mem_toDigits (by decide) (by decide) (List.mem_reverse.1 hc)
    exact bne_iff_ne.2 fun h => absurd hc (by rw [h]; decide)
  have htail : ((swap i n).toList.reverse.takeWhile (· != '-')).reverse =
      Nat.toDigits 10 n.val := by
    rw [toList_swap, List.reverse_append, List.reverse_cons, List.append_assoc,
      List.takeWhile_append_of_pos hdigit, List.singleton_append,
      List.takeWhile_cons_of_neg (by decide), List.append_nil, List.reverse_reverse]
  unfold swapIndex?
  simp only [htail, Text.signedNat?_toDigits, Option.bind_some]
  exact dif_pos n.isLt

theorem swap_inj {i j : TxId} {n k : Word} (h : swap i n = swap j k) : i = j ∧ n = k := by
  have hindex := congrArg swapIndex? h
  rw [swapIndex?_swap, swapIndex?_swap, Option.some.injEq] at hindex
  subst hindex
  have hlist := congrArg String.toList h
  rw [toList_swap, toList_swap] at hlist
  have htext := append_cancel (String.toList_injective (List.append_cancel_right hlist))
  cases i
  cases j
  exact ⟨congrArg TxId.mk htext, rfl⟩

theorem beginsWith_swap (i : TxId) (n : Word) : Text.beginsWith swapStart (swap i n) = true := by
  refine Text.beginsWith_iff.2 ⟨i.text.toList ++ '-' :: Nat.toDigits 10 n.val, ?_⟩
  rw [toList_swap, String.toList_append, List.append_assoc]

end Key

namespace Ledger

variable {s t : Ledger} {q : QueuedSwap}

/-- The queued swaps, in the order of their keys. -/
def queued (s : Ledger) : List QueuedSwap :=
  (s.store.under Key.swapStart).filterMap Queue.ofEntry?

def keyOf (q : QueuedSwap) : String := Key.swap q.request.tx.id q.index

/-- Every key of the queue belongs to the swap under it, which reads back as it is. -/
def QueueFiled (s : Ledger) : Prop :=
  ∀ k r, Text.beginsWith Key.swapStart k = true → s.get? k = some r →
    ∃ q : QueuedSwap, r = .swap q.request ∧ k = keyOf q ∧ q.request.reread? = some q.request

theorem ofEntry?_keyOf (h : q.request.reread? = some q.request) :
    Queue.ofEntry? (keyOf q, .swap q.request) = some q := by
  unfold Queue.ofEntry? keyOf
  rw [Key.swapIndex?_swap]
  show q.request.reread?.bind _ = _
  rw [h]
  rfl

theorem mem_queued (hs : s.QueueFiled) :
    q ∈ s.queued ↔ s.get? (keyOf q) = some (.swap q.request) := by
  unfold queued
  rw [List.mem_filterMap]
  constructor
  · rintro ⟨⟨k, r⟩, hmem, hq⟩
    obtain ⟨hget, hbegin⟩ := LayeredStore.mem_under.1 hmem
    obtain ⟨p, rfl, rfl, hread⟩ := hs k r hbegin hget
    rw [ofEntry?_keyOf hread] at hq
    cases hq
    exact hget
  · intro hget
    have hbegin : Text.beginsWith Key.swapStart (keyOf q) = true := Key.beginsWith_swap _ _
    obtain ⟨p, hp, -, hread⟩ := hs _ _ hbegin hget
    rw [← Record.swap.inj hp] at hread
    exact ⟨_, LayeredStore.mem_under.2 ⟨hget, hbegin⟩, ofEntry?_keyOf hread⟩

theorem nodup_queued (hs : s.QueueFiled) : s.queued.Nodup := by
  unfold queued List.Nodup
  rw [List.pairwise_filterMap]
  refine (s.store.under_sorted Key.swapStart).imp_of_mem ?_
  rintro ⟨k, r⟩ ⟨k', r'⟩ hmem hmem' hless q hq q' hq' rfl
  have hkey : ∀ e ∈ s.store.under Key.swapStart, Queue.ofEntry? e = some q → e.1 = keyOf q := by
    rintro ⟨k, r⟩ hmem hq
    obtain ⟨hget, hbegin⟩ := LayeredStore.mem_under.1 hmem
    obtain ⟨p, rfl, rfl, hread⟩ := hs k r hbegin hget
    rw [ofEntry?_keyOf hread] at hq
    cases hq
    rfl
  have hk : k = keyOf q := hkey _ hmem hq
  have hk' : k' = keyOf q := hkey _ hmem' hq'
  rw [hk, hk'] at hless
  exact String.lt_irrefl _ hless

/-! ## Storing and erasing -/

theorem keyOf_inj {p q : QueuedSwap} (h : keyOf p = keyOf q) (hrequest : p.request = q.request) :
    p = q := by
  obtain ⟨-, hindex⟩ := Key.swap_inj h
  cases p
  cases q
  rw [QueuedSwap.mk.injEq]
  exact ⟨hrequest, hindex⟩

/-- The queue depends on nothing but its own keys. -/
theorem QueueFiled.congr (hs : s.QueueFiled)
    (h : ∀ k, Text.beginsWith Key.swapStart k = true → t.get? k = s.get? k) :
    t.QueueFiled ∧ t.queued = s.queued := by
  refine ⟨fun k r hbegin hget => hs k r hbegin (h k hbegin ▸ hget), ?_⟩
  unfold queued
  rw [LayeredStore.under_congr h]

theorem QueueFiled.of_changes {Ts : List Table} (hs : s.QueueFiled) (h : Changes Ts s t)
    (hTs : .swaps ∉ Ts) : t.QueueFiled ∧ t.queued = s.queued :=
  hs.congr fun _ hbegin => h.get?_eq (Table.ofKey?_of_beginsWith (T := .swaps) hbegin) hTs

/-- Of two queues that differ under one key, the one with a swap there has that swap in addition. -/
theorem queued_perm_cons (hs : s.QueueFiled) (ht : t.QueueFiled) (hfree : t.get? (keyOf q) = none)
    (h : ∀ k, s.get? k = if k = keyOf q then some (.swap q.request) else t.get? k) :
    s.queued.Perm (q :: t.queued) := by
  have hnew : q ∉ t.queued := by
    rw [mem_queued ht, hfree]
    exact nofun
  refine (List.perm_ext_iff_of_nodup (nodup_queued hs)
    (List.nodup_cons.2 ⟨hnew, nodup_queued ht⟩)).2 fun p => ?_
  rw [List.mem_cons, mem_queued hs, mem_queued ht, h]
  by_cases hkey : keyOf p = keyOf q
  · rw [if_pos hkey, hkey, hfree]
    constructor
    · intro heq
      exact .inl (keyOf_inj hkey (Record.swap.inj (Option.some.inj heq)).symm)
    · rintro (rfl | heq)
      · rfl
      · cases heq
  · rw [if_neg hkey]
    constructor
    · exact .inr
    · rintro (rfl | heq)
      · exact absurd rfl hkey
      · exact heq

/-- A swap that is stored under a free key is added to the queue. -/
theorem QueueFiled.put (hs : s.QueueFiled) (hread : q.request.reread? = some q.request)
    (hfree : s.get? (keyOf q) = none) :
    (s.putRecord (keyOf q) (.swap q.request)).QueueFiled ∧
      (s.putRecord (keyOf q) (.swap q.request)).queued.Perm (q :: s.queued) := by
  have hfiled : (s.putRecord (keyOf q) (.swap q.request)).QueueFiled := by
    intro k r hbegin hget
    rw [get?_putRecord] at hget
    split at hget
    · rename_i hk
      exact ⟨q, (Option.some.inj hget).symm, hk, hread⟩
    · exact hs k r hbegin hget
  exact ⟨hfiled, queued_perm_cons hfiled hs hfree (get?_putRecord s _ _)⟩

/-- Erasing the key of a queued swap takes that swap out of the queue. -/
theorem QueueFiled.erase (hs : s.QueueFiled) (hq : q ∈ s.queued)
    (ht : t = { s with store := s.store.erase (keyOf q) }) :
    t.QueueFiled ∧ s.queued.Perm (q :: t.queued) := by
  have hget : ∀ k, t.get? k = if k = keyOf q then none else s.get? k := by
    intro k
    rw [ht]
    exact get?_assign s (keyOf q) none k
  have hfiled : t.QueueFiled := by
    intro k r hbegin hr
    rw [hget] at hr
    split at hr
    · cases hr
    · exact hs k r hbegin hr
  refine ⟨hfiled, queued_perm_cons hs hfiled ?_ fun k => ?_⟩
  · rw [hget, if_pos rfl]
  · rw [hget]
    split
    · rename_i hk
      rw [hk]
      exact (mem_queued hs).1 hq
    · rfl

end Ledger

namespace Queue

open Ledger

variable {s : Ledger} {i : TxId}

theorem items_run (s : Ledger) : items s = .ok s.queued := rfl

/-- The next index of a transaction exceeds all that are in use for it, and is no larger than it
has to be. -/
theorem nextIndex_ok {b : Nat} (hb : b < 0x100000000) (h : ∀ q ∈ s.queued, q.index.val < b)
    (i : TxId) :
    ∃ n, nextIndex i s = .ok n ∧ n.val ≤ b ∧
      ∀ q ∈ s.queued, q.request.tx.id = i → q.index.val < n.val := by
  have hmax : ∀ {ns : List Nat} {x : Nat}, ns.foldl max 0 ≤ x ↔ ∀ n ∈ 0 :: ns, n ≤ x :=
    fun {ns _} => List.max?_le_iff (show (0 :: ns).max? = some (ns.foldl max 0) from rfl)
  have hused : ∀ n ∈ (s.queued.filter fun q => q.request.tx.id = i).map fun q => q.index.val + 1,
      n ≤ b := by
    intro n hn
    obtain ⟨q, hq, rfl⟩ := List.mem_map.1 hn
    exact h q (List.mem_filter.1 hq).1
  have hbound := hmax.2 (List.forall_mem_cons.2 ⟨Nat.zero_le b, hused⟩)
  refine ⟨⟨_, Nat.lt_of_le_of_lt hbound hb⟩, ?_, hbound, fun q hq hi => ?_⟩
  · unfold nextIndex
    rw [Query.bind_run, items_run]
    simp only [dif_pos (Nat.lt_of_le_of_lt hbound hb)]
    rfl
  · have hmem : q ∈ s.queued.filter fun q => q.request.tx.id = i :=
      List.mem_filter.2 ⟨hq, decide_eq_true hi⟩
    exact hmax.1 (Nat.le_refl _) _ (List.mem_cons_of_mem 0 (List.mem_map.2 ⟨q, hmem, rfl⟩))

/-- The next index makes a key that is free. -/
theorem free_of_index {m : SwapRequest} {n : Word} (hs : s.QueueFiled)
    (h : ∀ q ∈ s.queued, q.request.tx.id = m.tx.id → q.index.val < n.val) :
    s.get? (keyOf ⟨m, n⟩) = none := by
  cases hget : s.get? (keyOf ⟨m, n⟩) with
  | none => rfl
  | some r =>
    obtain ⟨p, rfl, hkey, -⟩ := hs (keyOf ⟨m, n⟩) r (Key.beginsWith_swap _ _) hget
    obtain ⟨hid, hindex⟩ := Key.swap_inj hkey
    have hless := h p ((mem_queued hs).2 (hkey ▸ hget)) hid.symm
    rw [← hindex] at hless
    exact absurd hless (Nat.lt_irrefl _)

end Queue

end LiquidityNet
