import LiquidityNet.Proofs.Queue.Batches

/-!
# The order in which the queue runs

An item's place in the order of a measure is the number of items ahead of it there. So what decides
between two items of the queue does not depend on where they stood in it: the sum of their places,
and between equal sums the ids and the indices. As long as no two items share both of these, the
order is one of the items and not of the list.
-/

namespace LiquidityNet.Queue

namespace Rated

variable {a b c : Rated} {key : Rated → Int}

/-- What no two items of a queue have in common. -/
def label (r : Rated) : TxId × Word := (r.request.tx.id, r.index)

/-- Comes first among equals: by the id of the transaction, then by the index. -/
def Precedes (a b : Rated) : Prop :=
  a.request.tx.id.text < b.request.tx.id.text ∨
    a.request.tx.id = b.request.tx.id ∧ a.index < b.index

/-- Stands ahead in the descending order of a measure. -/
def Exceeds (measure : Rated → Amount) (a b : Rated) : Prop :=
  measure b < measure a ∨ measure a = measure b ∧ a.Precedes b

/-- Comes first by a key, the smallest one first. -/
def Leads (key : Rated → Int) (a b : Rated) : Prop :=
  key a < key b ∨ key a = key b ∧ a.Precedes b

instance (a b : Rated) : Decidable (a.Precedes b) := inferInstanceAs (Decidable (_ ∨ _))

instance (measure : Rated → Amount) (a b : Rated) : Decidable (a.Exceeds measure b) :=
  inferInstanceAs (Decidable (_ ∨ _))

instance (key : Rated → Int) (a b : Rated) : Decidable (a.Leads key b) :=
  inferInstanceAs (Decidable (_ ∨ _))

theorem Precedes.trans (hab : a.Precedes b) (hbc : b.Precedes c) : a.Precedes c := by
  have htext : ∀ {x y z : String}, x < y → y < z → x < z := String.lt_trans
  unfold Precedes at *
  grind

theorem Precedes.irrefl (a : Rated) : ¬ a.Precedes a := by
  have htext := String.lt_irrefl a.request.tx.id.text
  unfold Precedes
  grind

theorem precedes_or (h : a.label ≠ b.label) : a.Precedes b ∨ b.Precedes a := by
  have htext : ∀ {x y : String}, ¬ x < y → ¬ y < x → x = y := fun hxy hyx =>
    String.le_antisymm (String.not_lt.1 hyx) (String.not_lt.1 hxy)
  have hid : ∀ {i j : TxId}, i.text = j.text → i = j := by
    rintro ⟨_⟩ ⟨_⟩ rfl
    rfl
  unfold label at h
  unfold Precedes
  grind

theorem tiePrecedes_eq_false : tiePrecedes a b = false ↔ b.Precedes a := by
  have htext : ∀ {x y : String}, x < y → x ≠ y := fun hxy => String.ne_of_lt hxy
  unfold tiePrecedes Precedes
  split
  · rename_i hid
    rw [decide_eq_false_iff_not, hid]
    simp
  · rename_i hid
    rw [decide_eq_false_iff_not, String.not_le]
    grind

theorem Precedes.cotrans (hac : a.Precedes c) (b : Rated) : a.Precedes b ∨ b.Precedes c := by
  by_cases h : a.label = b.label
  · obtain ⟨hid, hindex⟩ := Prod.mk.inj h
    unfold Precedes at *
    rw [← hid, ← hindex]
    exact .inr hac
  · exact (precedes_or h).imp_right fun hba => hba.trans hac

/-! ## Orders by a key -/

theorem exceeds_iff_leads {measure : Rated → Amount} :
    a.Exceeds measure b ↔ a.Leads (fun r => -(measure r).val) b := by
  unfold Exceeds Leads
  simp only [← Amount.val_inj, Amount.lt_def, Int.neg_lt_neg_iff, Int.ofNat_lt, Int.neg_inj,
    Int.natCast_inj]

theorem Leads.trans (hab : a.Leads key b) (hbc : b.Leads key c) : a.Leads key c := by
  have htie : a.Precedes b → b.Precedes c → a.Precedes c := Precedes.trans
  unfold Leads at *
  grind

theorem Leads.irrefl (key : Rated → Int) (a : Rated) : ¬ a.Leads key a := by
  have htie := Precedes.irrefl a
  unfold Leads
  grind

theorem Leads.asymm (hab : a.Leads key b) : ¬ b.Leads key a := fun hba =>
  Leads.irrefl key a (hab.trans hba)

/-- Any third item is behind the one that leads or ahead of the one that is led. -/
theorem Leads.cotrans (hac : a.Leads key c) (b : Rated) : a.Leads key b ∨ b.Leads key c := by
  have htie : a.Precedes c → a.Precedes b ∨ b.Precedes c := fun h => h.cotrans b
  unfold Leads at *
  grind

theorem leads_or (h : a.label ≠ b.label) : a.Leads key b ∨ b.Leads key a := by
  have htie := precedes_or h
  unfold Leads
  grind

/-- The comparison that a sort by a key goes by. -/
def byKey (key : Rated → Int) (a b : Rated) : Bool :=
  if key a = key b then tiePrecedes a b else decide (key a ≤ key b)

theorem descending_eq_byKey (measure : Rated → Amount) :
    descending measure = byKey fun r => -(measure r).val := by
  funext a b
  unfold descending byKey
  simp only [← Amount.val_inj, Int.neg_inj, Int.natCast_inj, Int.neg_le_neg_iff, Int.ofNat_le,
    Amount.le_def]

theorem byKey_eq_false : byKey key a b = false ↔ b.Leads key a := by
  unfold byKey Leads
  split
  · rw [tiePrecedes_eq_false]
    grind
  · rw [decide_eq_false_iff_not]
    grind

theorem byKey_of_leads (h : a.Leads key b) : byKey key a b = true := by
  rw [← Bool.not_eq_false, byKey_eq_false]
  exact h.asymm

theorem leads_of_byKey (h : byKey key a b = true) (hab : a.label ≠ b.label) : a.Leads key b := by
  refine (leads_or hab).resolve_right fun hba => ?_
  rw [byKey_eq_false.2 hba] at h
  cases h

theorem byKey_total (key : Rated → Int) (a b : Rated) :
    (byKey key a b || byKey key b a) = true := by
  rcases hab : byKey key a b with _ | _
  · rw [byKey_of_leads (byKey_eq_false.1 hab), Bool.or_true]
  · rfl

theorem byKey_trans (key : Rated → Int) (a b c : Rated) (hab : byKey key a b = true)
    (hbc : byKey key b c = true) : byKey key a c = true := by
  rw [← Bool.not_eq_false, byKey_eq_false] at *
  exact fun hca => (hca.cotrans b).elim hbc hab

end Rated

/-! ## Places -/

open Rated

variable {key : Rated → Int} {items others : List Rated} {a b : Rated}

/-- The number of items that lead an item. -/
def leaders (key : Rated → Int) (items : List Rated) (r : Rated) : Nat :=
  items.countP fun o => decide (o.Leads key r)

theorem leaders_congr (h : items.Perm others) : leaders key items = leaders key others := by
  funext r
  exact h.countP_eq _

/-- The leader of an item has fewer leaders itself. -/
theorem leaders_lt (ha : a ∈ items) (hab : a.Leads key b) :
    leaders key items a < leaders key items b := by
  obtain ⟨before, after, rfl⟩ := List.append_of_mem ha
  have hmono : ∀ l : List Rated, leaders key l a ≤ leaders key l b := fun l =>
    List.countP_mono_left fun o _ ho => by
      rw [decide_eq_true_eq] at *
      exact ho.trans hab
  have hbefore := hmono before
  have hafter := hmono after
  have hself := Leads.irrefl key a
  unfold leaders at *
  simp only [List.countP_append, List.countP_cons, hself, hab, decide_false, decide_true]
  simp only [Bool.false_eq_true, if_false, if_true]
  omega

/-- In a list that is in order, an item has as many leaders as there are items before it. -/
theorem leaders_of_ordered {before after : List Rated} {r : Rated}
    (h : (before ++ r :: after).Pairwise (Leads key)) :
    leaders key (before ++ r :: after) r = before.length := by
  obtain ⟨-, hafter, hbefore⟩ := List.pairwise_append.1 h
  obtain ⟨hafter, -⟩ := List.pairwise_cons.1 hafter
  have hfirst : before.countP (fun o => decide (o.Leads key r)) = before.length :=
    List.countP_eq_length.2 fun o ho => decide_eq_true (hbefore o ho r List.mem_cons_self)
  have hlast : after.countP (fun o => decide (o.Leads key r)) = 0 :=
    List.countP_eq_zero.2 fun o ho hor => (hafter o ho).asymm (of_decide_eq_true hor)
  have hself := Leads.irrefl key r
  unfold leaders
  simp only [List.countP_append, List.countP_cons, hfirst, hlast, hself, decide_false]
  rfl

theorem pairwise_leads (hlabels : (items.map label).Nodup)
    (h : items.Pairwise fun a b => byKey key a b = true) : items.Pairwise (Leads key) :=
  List.Pairwise.imp₂ (fun _ _ hab hne => leads_of_byKey hab hne) h (List.pairwise_map.1 hlabels)

theorem pairwise_mergeSort_byKey (hlabels : (items.map label).Nodup) :
    (items.mergeSort (byKey key)).Pairwise (Leads key) :=
  pairwise_leads (((List.mergeSort_perm _ _).map label).nodup_iff.2 hlabels)
    (List.pairwise_mergeSort (byKey_trans key) (byKey_total key) items)

/-- Once the items were numbered and put in order, the number of an item stands as far back as the
item has leaders. -/
theorem idxOf_number {sorted : List (Rated × Nat)} (hlabels : (items.map label).Nodup)
    (hperm : sorted.Perm items.zipIdx)
    (hsorted : sorted.Pairwise fun a b => byKey key a.1 b.1 = true) {i : Nat}
    (hi : i < items.length) : (sorted.map (·.2)).idxOf i = leaders key items items[i] := by
  have hitems : (sorted.map (·.1)).Perm items := by
    have hfst := hperm.map (·.1)
    rwa [show items.zipIdx.map (·.1) = items from List.zipIdx_map_fst 0 items] at hfst
  have hnumbers : (sorted.map (·.2)).Nodup := by
    rw [(hperm.map (·.2)).nodup_iff, List.zipIdx_map_snd]
    exact List.nodup_range'
  have hordered : (sorted.map (·.1)).Pairwise (Leads key) :=
    pairwise_leads ((hitems.map label).nodup_iff.2 hlabels) (List.pairwise_map.2 hsorted)
  have hmem : (items[i], i) ∈ sorted :=
    hperm.mem_iff.2 (List.mem_zipIdx_iff_getElem?.2 (List.getElem?_eq_getElem hi))
  rw [← leaders_congr hitems]
  obtain ⟨before, after, rfl⟩ := List.append_of_mem hmem
  rw [List.map_append, List.map_cons] at hordered hnumbers ⊢
  have hfresh : i ∉ before.map (·.2) := fun hin =>
    (List.nodup_append.1 hnumbers).2.2 i hin i List.mem_cons_self rfl
  rw [List.idxOf_append, if_neg hfresh, List.idxOf_cons_self, Nat.zero_add, List.length_map,
    List.map_append, List.map_cons, leaders_of_ordered hordered, List.length_map]

/-- The place of an item is the number of its leaders. -/
theorem places_eq (key : Rated → Int) (hlabels : (items.map label).Nodup) :
    places (byKey key) items = items.map (leaders key items) := by
  refine List.ext_getElem (by rw [places_length, List.length_map]) fun i _ hi => ?_
  rw [List.length_map] at hi
  have hsorted : (items.zipIdx.mergeSort fun a b => byKey key a.1 b.1).Pairwise fun a b =>
      byKey key a.1 b.1 = true :=
    List.pairwise_mergeSort (fun a b c => byKey_trans key a.1 b.1 c.1)
      (fun a b => byKey_total key a.1 b.1) _
  have hidx := idxOf_number hlabels (List.mergeSort_perm _ _) hsorted hi
  refine (List.getElem_map _).trans ?_
  rw [List.getElem_range, List.getElem_map]
  exact hidx

/-! ## The order of the queue -/

/-- The number of items ahead in the descending order of a measure, ties broken. -/
def ahead (measure : Rated → Amount) (items : List Rated) (r : Rated) : Nat :=
  items.countP fun o => decide (o.Exceeds measure r)

/-- What the queue goes by: how many items are ahead by the fee, and how many by the slip. -/
def rank (items : List Rated) (r : Rated) : Nat :=
  ahead (·.fee) items r + ahead (·.slip) items r

/-- Runs before, among some items: by the rank, ties broken. -/
def RunsBefore (items : List Rated) (a b : Rated) : Prop :=
  rank items a < rank items b ∨ rank items a = rank items b ∧ a.Precedes b

theorem ahead_eq_leaders (measure : Rated → Amount) (items : List Rated) :
    ahead measure items = leaders (fun r => -(measure r).val) items := by
  funext r
  unfold ahead leaders
  simp only [exceeds_iff_leads]

theorem ahead_lt {measure : Rated → Amount} (ha : a ∈ items) (hab : a.Exceeds measure b) :
    ahead measure items a < ahead measure items b := by
  rw [ahead_eq_leaders]
  exact leaders_lt ha (exceeds_iff_leads.1 hab)

theorem places_descending (measure : Rated → Amount) (hlabels : (items.map label).Nodup) :
    places (descending measure) items = items.map (ahead measure items) := by
  rw [descending_eq_byKey, places_eq _ hlabels, ahead_eq_leaders]

theorem rank_congr (h : items.Perm others) : rank items = rank others := by
  funext r
  unfold rank ahead
  rw [h.countP_eq, h.countP_eq]

theorem runsBefore_iff_leads :
    RunsBefore items a b ↔ a.Leads (fun r => rank items r) b := by
  unfold RunsBefore Leads
  simp only [Int.ofNat_lt, Int.natCast_inj]

/-- Adding up places and sorting the pairs is a sort by the rank. -/
theorem sort_eq_mergeSort (hlabels : (items.map label).Nodup) :
    sort items = items.mergeSort (byKey fun r => rank items r) := by
  have hranks : List.zipWith (· + ·) (places (descending (·.fee)) items)
      (places (descending (·.slip)) items) = items.map (rank items) := by
    rw [places_descending _ hlabels, places_descending _ hlabels, List.zipWith_map,
      List.zipWith_self]
    rfl
  have hzip : items.zip (items.map (rank items)) = items.map fun r => (r, rank items r) := by
    rw [← List.zip_map', List.map_id']
  have hsame : ∀ a ∈ items, ∀ b ∈ items, byKey (fun r => (rank items r : Int)) a b =
      if rank items a = rank items b then tiePrecedes a b
      else decide (rank items a ≤ rank items b) := by
    intro a _ b _
    unfold byKey
    simp only [Int.natCast_inj, Int.ofNat_le]
  unfold sort
  simp only [hranks, hzip]
  rw [← List.map_mergeSort hsame, List.map_map]
  exact List.map_id _

theorem sort_pairwise (hlabels : (items.map label).Nodup) :
    (sort items).Pairwise (RunsBefore items) := by
  rw [sort_eq_mergeSort hlabels]
  exact (pairwise_mergeSort_byKey hlabels).imp runsBefore_iff_leads.2

/-- The items are in no other order but this one. -/
theorem eq_sort_of_pairwise (hlabels : (items.map label).Nodup) (h : others.Perm items)
    (hothers : others.Pairwise (RunsBefore items)) : others = sort items := by
  refine (h.trans (sort_perm items).symm).eq_of_pairwise (fun a b _ _ hab hba => ?_) hothers
    (sort_pairwise hlabels)
  exact absurd (runsBefore_iff_leads.1 hab) (runsBefore_iff_leads.1 hba).asymm

theorem sort_congr (hlabels : (items.map label).Nodup) (h : others.Perm items) :
    sort others = sort items := by
  refine eq_sort_of_pairwise hlabels ((sort_perm others).trans h) ?_
  have hothers := sort_pairwise ((h.map label).nodup_iff.2 hlabels)
  unfold RunsBefore at *
  rwa [rank_congr h] at hothers

/-- An item that is ahead both by the fee and by the slip runs first. -/
theorem sublist_sort (hlabels : (items.map label).Nodup) (ha : a ∈ items) (hb : b ∈ items)
    (hfee : a.Exceeds (·.fee) b) (hslip : a.Exceeds (·.slip) b) : [a, b].Sublist (sort items) := by
  have hrank : rank items a < rank items b :=
    Nat.add_lt_add (ahead_lt ha hfee) (ahead_lt ha hslip)
  have hsorted := sort_pairwise hlabels
  have hb' : b ∈ sort items := (sort_perm items).mem_iff.2 hb
  obtain ⟨before, after, hsplit⟩ := List.append_of_mem ((sort_perm items).mem_iff.2 ha)
  rw [hsplit] at hsorted hb' ⊢
  obtain ⟨-, -, hbefore⟩ := List.pairwise_append.1 hsorted
  have hnotBefore : b ∉ before := by
    intro hin
    have hba : RunsBefore items b a := hbefore b hin a List.mem_cons_self
    unfold RunsBefore at hba
    omega
  have hafter : b ∈ after := by
    rcases List.mem_append.1 hb' with hin | hin
    · exact absurd hin hnotBefore
    · refine (List.mem_cons.1 hin).resolve_left fun hba => ?_
      rw [hba] at hrank
      exact Nat.lt_irrefl _ hrank
  exact ((List.singleton_sublist.2 hafter).cons_cons a).trans (List.sublist_append_right _ _)

/-- The order of the queue is one of its items, whichever way they are listed: by how many items are
ahead by the fee and by the slip together, then by the id, then by the index. So an item runs before
another if it brings both a higher fee and a higher slip, or the same of both and comes first by the
id and the index. -/
theorem sort_by_rank (items : List Rated) (hlabels : (items.map label).Nodup) :
    (sort items).Perm items ∧
      (∀ others : List Rated, others.Perm items → sort others = sort items) ∧
      (sort items).Pairwise (RunsBefore items) ∧
      ∀ a ∈ items, ∀ b ∈ items,
        b.fee < a.fee ∧ b.slip < a.slip ∨ a.fee = b.fee ∧ a.slip = b.slip ∧ a.Precedes b →
          [a, b].Sublist (sort items) := by
  refine ⟨sort_perm items, fun _ => sort_congr hlabels, sort_pairwise hlabels, ?_⟩
  rintro a ha b hb (⟨hfee, hslip⟩ | ⟨hfee, hslip, htie⟩)
  · exact sublist_sort hlabels ha hb (.inl hfee) (.inl hslip)
  · exact sublist_sort hlabels ha hb (.inr ⟨hfee, htie⟩) (.inr ⟨hslip, htie⟩)

/-! Four swaps of RUNE: the fees of the first three fall as their slips rise, so that the first and
the third have the same rank; the last is second both by the fee and by the slip. -/

def runeSwap (id : String) : SwapRequest where
  tx := ⟨⟨id⟩, some .thor, ⟨"thor1sender"⟩, ⟨"thor1vault"⟩, [⟨.rune, .cap 100000000⟩], [], ""⟩
  target := .of .btc "BTC"
  destination := ⟨"bc1dest"⟩
  limit := 0
  signer := ⟨"thor1signer"⟩
  aggregator := none
  aggregatorAsset := none
  aggregatorLimit := none

def ratedSwap (id : String) (fee slip : Nat) : Rated :=
  ⟨runeSwap id, Fin.last _, .cap fee, .cap slip⟩

def crossing : List Rated :=
  [ratedSwap "01" 300 10, ratedSwap "02" 200 20, ratedSwap "03" 100 30, ratedSwap "04" 250 25]

instance (a b : Rated) : Decidable (RunsBefore items a b) := inferInstanceAs (Decidable (_ ∨ _))

def crossed : List Rated :=
  [ratedSwap "04" 250 25, ratedSwap "01" 300 10, ratedSwap "03" 100 30, ratedSwap "02" 200 20]

theorem crossed_perm : crossed.Perm crossing :=
  (((List.Perm.swap _ _ []).cons _).cons _).trans
    (List.perm_append_comm : ([ratedSwap "04" 250 25] ++ _).Perm _)

/-- The last one goes first, and the second one, whose rank is the worst, goes last. -/
theorem crossing_sorted :
    (sort crossing).map (·.request.tx.id.text) = ["04", "01", "03", "02"] ∧
      sort crossing.reverse = sort crossing ∧ (sort crossing).Pairwise (RunsBefore crossing) ∧
      [ratedSwap "04" 250 25, ratedSwap "02" 200 20].Sublist (sort crossing) := by
  have hlabels : (crossing.map label).Nodup := by decide +kernel
  obtain ⟨-, hsame, hsorted, hfirst⟩ := sort_by_rank crossing hlabels
  have horder : crossed = sort crossing :=
    eq_sort_of_pairwise hlabels crossed_perm (by decide +kernel)
  refine ⟨?_, hsame _ (List.reverse_perm _), hsorted, hfirst _ ?_ _ ?_ ?_⟩
  · rw [← horder]
    rfl
  · simp [crossing]
  · simp [crossing]
  · exact .inl (by decide)

end LiquidityNet.Queue
