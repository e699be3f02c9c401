import LiquidityNet.Text.Basic

/-!
# Sorted maps

Maps from texts to values, kept as a list of entries whose keys ascend strictly. Two maps that
answer every lookup alike are equal, so a map is determined by what `get?` says of it.
-/

namespace LiquidityNet

structure SortedMap (α : Type) where
  entries : List (String × α)
  sorted : entries.Pairwise fun a b => a.1 < b.1

namespace SortedMap

variable {α : Type}

def empty : SortedMap α := ⟨[], .nil⟩

instance : Inhabited (SortedMap α) := ⟨empty⟩

def lookup (k : String) : List (String × α) → Option α
  | [] => none
  | e :: es => if k = e.1 then some e.2 else lookup k es

def get? (m : SortedMap α) (k : String) : Option α := lookup k m.entries

def insertEntry (k : String) (v : α) : List (String × α) → List (String × α)
  | [] => [(k, v)]
  | e :: es =>
    if k < e.1 then (k, v) :: e :: es
    else if e.1 < k then e :: insertEntry k v es
    else (k, v) :: es

theorem mem_insertEntry {k : String} {v : α} {es : List (String × α)} {x : String × α}
    (h : x ∈ insertEntry k v es) : x = (k, v) ∨ x ∈ es := by
  induction es with
  | nil => simpa [insertEntry] using h
  | cons e es ih =>
    unfold insertEntry at h
    split at h
    · simpa using h
    · split at h
      · rcases List.mem_cons.1 h with h | h
        · exact .inr (List.mem_cons.2 (.inl h))
        · rcases ih h with h | h
          · exact .inl h
          · exact .inr (List.mem_cons_of_mem _ h)
      · rcases List.mem_cons.1 h with h | h
        · exact .inl h
        · exact .inr (List.mem_cons_of_mem _ h)

theorem insertEntry_sorted {k : String} {v : α} {es : List (String × α)}
    (h : es.Pairwise fun a b => a.1 < b.1) :
    (insertEntry k v es).Pairwise fun a b => a.1 < b.1 := by
  induction es with
  | nil => simp [insertEntry]
  | cons e es ih =>
    obtain ⟨he, hes⟩ := List.pairwise_cons.1 h
    unfold insertEntry
    split
    · rename_i hk
      refine List.pairwise_cons.2 ⟨fun x hx => ?_, h⟩
      rcases List.mem_cons.1 hx with rfl | hx
      · exact hk
      · exact String.lt_trans hk (he x hx)
    · split
      · rename_i hk
        refine List.pairwise_cons.2 ⟨fun x hx => ?_, ih hes⟩
        rcases mem_insertEntry hx with rfl | hx
        · exact hk
        · exact he x hx
      · rename_i hk hk'
        have hek : e.1 = k :=
          String.le_antisymm (String.not_lt.1 hk) (String.not_lt.1 hk')
        exact List.pairwise_cons.2 ⟨fun x hx => hek ▸ he x hx, hes⟩

def insert (m : SortedMap α) (k : String) (v : α) : SortedMap α :=
  ⟨insertEntry k v m.entries, insertEntry_sorted m.sorted⟩

def erase (m : SortedMap α) (k : String) : SortedMap α :=
  ⟨m.entries.filter fun e => e.1 != k, m.sorted.filter _⟩

def assign (m : SortedMap α) (k : String) : Option α → SortedMap α
  | some v => m.insert k v
  | none => m.erase k

def assignAll (m : SortedMap α) (writes : List (String × Option α)) : SortedMap α :=
  writes.foldl (fun m w => m.assign w.1 w.2) m

/-- The entries whose keys begin alike: from the first key that is not less than the beginning on,
as far as keys have it. -/
def startingWith (m : SortedMap α) (start : String) : SortedMap α where
  entries :=
    (m.entries.dropWhile fun e => decide (e.1 < start)).takeWhile
      fun e => Text.beginsWith start e.1
  sorted := m.sorted.sublist ((List.takeWhile_sublist _).trans (List.dropWhile_sublist _))

def insertAll (m : SortedMap α) (writes : List (String × α)) : SortedMap α :=
  writes.foldl (fun m w => m.insert w.1 w.2) m

def ofList (entries : List (String × α)) : SortedMap α := empty.insertAll entries

@[simp] theorem get?_empty (k : String) : (empty : SortedMap α).get? k = none := rfl

theorem lookup_insertEntry {k : String} {v : α} {es : List (String × α)} (q : String) :
    lookup q (insertEntry k v es) = if q = k then some v else lookup q es := by
  induction es with
  | nil => rfl
  | cons e es ih =>
    unfold insertEntry
    split
    · rfl
    · split
      · rename_i hk
        rw [lookup, lookup, ih]
        by_cases hq : q = e.1
        · have : e.1 ≠ k := fun h => String.lt_irrefl k (h ▸ hk)
          simp [hq, this]
        · simp [hq]
      · rename_i hk hk'
        have hek : e.1 = k :=
          String.le_antisymm (String.not_lt.1 hk) (String.not_lt.1 hk')
        by_cases h : q = k <;> simp [lookup, hek, h]

theorem get?_insert (m : SortedMap α) (k : String) (v : α) (q : String) :
    (m.insert k v).get? q = if q = k then some v else m.get? q :=
  lookup_insertEntry q

theorem lookup_filter_ne {es : List (String × α)} (k q : String) :
    lookup q (es.filter fun e => e.1 != k) = if q = k then none else lookup q es := by
  induction es with
  | nil => simp [lookup]
  | cons e es ih =>
    by_cases he : e.1 = k
    · rw [List.filter_cons_of_neg (by simp [he]), ih]
      by_cases hq : q = k <;> simp [lookup, he, hq]
    · rw [List.filter_cons_of_pos (by simp [he]), lookup, lookup, ih]
      by_cases hq : q = e.1
      · simp [hq, he]
      · simp [hq]

theorem get?_erase (m : SortedMap α) (k q : String) :
    (m.erase k).get? q = if q = k then none else m.get? q :=
  lookup_filter_ne k q

theorem get?_assign (m : SortedMap α) (k : String) (v : Option α) (q : String) :
    (m.assign k v).get? q = if q = k then v else m.get? q := by
  cases v with
  | none => exact get?_erase m k q
  | some v => exact get?_insert m k v q

theorem mem_entries_iff (m : SortedMap α) (k : String) (v : α) :
    (k, v) ∈ m.entries ↔ m.get? k = some v := by
  obtain ⟨es, hs⟩ := m
  simp only [get?]
  induction es with
  | nil => simp [lookup]
  | cons e es ih =>
    obtain ⟨he, hes⟩ := List.pairwise_cons.1 hs
    rw [List.mem_cons, lookup, ih hes]
    by_cases hk : k = e.1
    · have hno : lookup k es ≠ some v := fun h => by
        have hlt : e.1 < k := he _ ((ih hes).2 h)
        exact String.lt_irrefl k (hk ▸ hlt)
      rw [if_pos hk]
      constructor
      · rintro (h | h)
        · simp [← h]
        · exact absurd h hno
      · intro h
        exact .inl (Prod.ext hk (Option.some.inj h).symm)
    · have : (k, v) ≠ e := fun h => hk (by rw [← h])
      simp [this, hk]

theorem ext {m n : SortedMap α} (h : ∀ k, m.get? k = n.get? k) : m = n := by
  have hmem : ∀ x, x ∈ m.entries ↔ x ∈ n.entries := fun ⟨k, v⟩ => by
    rw [mem_entries_iff, mem_entries_iff, h]
  obtain ⟨es, hs⟩ := m
  obtain ⟨fs, ht⟩ := n
  congr
  simp only at hmem
  clear h
  induction es generalizing fs with
  | nil =>
    cases fs with
    | nil => rfl
    | cons f fs => simpa using (hmem f).2
  | cons e es ih =>
    cases fs with
    | nil => simpa using (hmem e).1
    | cons f fs =>
      obtain ⟨he, hes⟩ := List.pairwise_cons.1 hs
      obtain ⟨hf, hfs⟩ := List.pairwise_cons.1 ht
      have hef : e = f := by
        rcases List.mem_cons.1 ((hmem e).1 List.mem_cons_self) with h | h
        · exact h
        rcases List.mem_cons.1 ((hmem f).2 List.mem_cons_self) with h' | h'
        · exact h'.symm
        exact absurd (String.lt_trans (he f h') (hf e h)) (String.lt_irrefl _)
      subst hef
      congr 1
      refine ih hes fs hfs fun x => ?_
      have hx := hmem x
      rw [List.mem_cons, List.mem_cons] at hx
      constructor
      · intro h
        exact (hx.1 (.inr h)).resolve_left fun hxe =>
          String.lt_irrefl x.1 (by have := he x h; rwa [← hxe] at this)
      · intro h
        exact (hx.2 (.inr h)).resolve_left fun hxe =>
          String.lt_irrefl x.1 (by have := hf x h; rwa [← hxe] at this)

end SortedMap

end LiquidityNet
