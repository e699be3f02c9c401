import LiquidityNet.Store.SortedMap

/-!
# Lookups in sorted maps

What a list of writes and the restriction to a beginning make of a lookup. Keys that begin alike
stand together in the order of texts, so that a restriction is an interval of the entries.
-/

namespace LiquidityNet

namespace Text

theorem not_lt_of_prefix {p l : List Char} (h : p <+: l) : ¬ l < p := by
  induction p generalizing l with
  | nil => exact List.not_lt_nil l
  | cons a p ih =>
    obtain ⟨r, rfl⟩ := h
    intro hlt
    rcases List.cons_lt_cons_iff.1 hlt with hlt | ⟨_, hlt⟩
    · exact Char.lt_irrefl a hlt
    · exact ih (List.prefix_append p r) hlt

theorem prefix_of_lt_of_not_lt {p l m : List Char} (hm : p <+: m) (hl : ¬ l < p) (hlm : l < m) :
    p <+: l := by
  induction p generalizing l m with
  | nil => exact List.nil_prefix
  | cons a p ih =>
    obtain ⟨r, rfl⟩ := hm
    cases l with
    | nil => exact absurd (List.nil_lt_cons a p) hl
    | cons b l =>
      rw [List.cons_lt_cons_iff, not_or, not_and] at hl
      rcases List.cons_lt_cons_iff.1 hlm with hba | ⟨rfl, hlr⟩
      · exact absurd hba hl.1
      · exact List.cons_prefix_cons.2 ⟨rfl, ih (List.prefix_append p r) (hl.2 rfl) hlr⟩

theorem not_lt_of_beginsWith {start k : String} (h : beginsWith start k = true) : ¬ k < start :=
  not_lt_of_prefix (beginsWith_iff.1 h)

/-- A key between a beginning and a key that has it begins so as well. -/
theorem beginsWith_of_lt {start k q : String} (hq : beginsWith start q = true)
    (hk : ¬ k < start) (hkq : k < q) : beginsWith start k = true :=
  beginsWith_iff.2 (prefix_of_lt_of_not_lt (beginsWith_iff.1 hq) hk hkq)

end Text

namespace SortedMap

variable {α : Type}

theorem lookup_eq_none {es : List (String × α)} {k : String} (h : ∀ e ∈ es, k < e.1) :
    lookup k es = none := by
  induction es with
  | nil => rfl
  | cons e es ih =>
    have hk : k ≠ e.1 := fun hk => String.lt_irrefl k (by simpa [← hk] using h e)
    rw [lookup, if_neg hk]
    exact ih fun x hx => h x (List.mem_cons_of_mem e hx)

theorem get?_assignAll (m : SortedMap α) (w : SortedMap (Option α)) (k : String) :
    (m.assignAll w.entries).get? k = (w.get? k).getD (m.get? k) := by
  obtain ⟨es, hes⟩ := w
  simp only [get?]
  induction es generalizing m with
  | nil => rfl
  | cons e es ih =>
    obtain ⟨he, hes⟩ := List.pairwise_cons.1 hes
    change lookup k ((m.assign e.1 e.2).assignAll es).entries = _
    rw [ih _ hes, lookup, show lookup k (m.assign e.1 e.2).entries = _ from get?_assign m e.1 e.2 k]
    by_cases hk : k = e.1
    · have hnone : lookup k es = none := lookup_eq_none fun x hx => hk ▸ he x hx
      rw [if_pos hk, if_pos hk, hnone]
      rfl
    · rw [if_neg hk, if_neg hk]
      rfl

theorem get?_insertAll (m w : SortedMap α) (k : String) :
    (m.insertAll w.entries).get? k = (w.get? k).or (m.get? k) := by
  obtain ⟨es, hes⟩ := w
  simp only [get?]
  induction es generalizing m with
  | nil => rfl
  | cons e es ih =>
    obtain ⟨he, hes⟩ := List.pairwise_cons.1 hes
    change lookup k ((m.insert e.1 e.2).insertAll es).entries = _
    rw [ih _ hes, lookup, show lookup k (m.insert e.1 e.2).entries = _ from get?_insert m e.1 e.2 k]
    by_cases hk : k = e.1
    · have hnone : lookup k es = none := lookup_eq_none fun x hx => hk ▸ he x hx
      rw [if_pos hk, if_pos hk, hnone]
      rfl
    · rw [if_neg hk, if_neg hk]
      rfl

/-! ## Restriction to a beginning -/

theorem takeWhile_beginsWith {es : List (String × α)} {start : String}
    (hes : es.Pairwise fun a b => a.1 < b.1) (hlow : ∀ e ∈ es, ¬ e.1 < start) :
    (es.takeWhile fun e => Text.beginsWith start e.1)
      = es.filter fun e => Text.beginsWith start e.1 := by
  induction es with
  | nil => rfl
  | cons e es ih =>
    obtain ⟨he, hes⟩ := List.pairwise_cons.1 hes
    have hrest := ih hes fun x hx => hlow x (List.mem_cons_of_mem e hx)
    by_cases hb : Text.beginsWith start e.1 = true
    · simp [hb, hrest]
    · rw [List.takeWhile_cons_of_neg (by simpa using hb), List.filter_cons_of_neg (by simpa using hb)]
      refine (List.filter_eq_nil_iff.2 fun x hx hxb => hb ?_).symm
      exact Text.beginsWith_of_lt hxb (hlow e List.mem_cons_self) (he x hx)

theorem startingWith_entries (m : SortedMap α) (start : String) :
    (m.startingWith start).entries = m.entries.filter fun e => Text.beginsWith start e.1 := by
  obtain ⟨es, hes⟩ := m
  change ((es.dropWhile _).takeWhile _) = es.filter _
  induction es with
  | nil => rfl
  | cons e es ih =>
    obtain ⟨he, hes'⟩ := List.pairwise_cons.1 hes
    by_cases hlt : e.1 < start
    · have hb : ¬ Text.beginsWith start e.1 = true := fun hb => Text.not_lt_of_beginsWith hb hlt
      rw [List.dropWhile_cons_of_pos (by simpa using hlt),
        List.filter_cons_of_neg (by simpa using hb), ih hes']
    · rw [List.dropWhile_cons_of_neg (by simpa using hlt)]
      refine takeWhile_beginsWith hes fun x hx => ?_
      rcases List.mem_cons.1 hx with rfl | hx
      · exact hlt
      · exact fun hlt' => hlt (String.lt_trans (he x hx) hlt')

theorem get?_startingWith (m : SortedMap α) (start k : String) :
    (m.startingWith start).get? k = if Text.beginsWith start k = true then m.get? k else none := by
  refine Option.ext fun v => ?_
  rw [← mem_entries_iff, startingWith_entries, List.mem_filter, mem_entries_iff]
  by_cases hb : Text.beginsWith start k = true <;> simp [hb]

end SortedMap

end LiquidityNet
