import LiquidityNet.Proofs.Store.Maps
import LiquidityNet.Store.Layered

/-!
# Views of a layered store

Whatever its layers, a store is seen as one map. Each operation is described by what it does to
the lookups in that map, and lists of entries are read off it.
-/

namespace LiquidityNet.LayeredStore

variable {V E : Type}

theorem get?_overlay (base : SortedMap V) (ls : List (Layer V)) (k : String) :
    (overlay base ls).get? k = lookThrough k base ls := by
  induction ls with
  | nil => rfl
  | cons l ls ih =>
    rw [overlay, SortedMap.get?_assignAll, ih, lookThrough]
    cases l.writes.get? k <;> rfl

@[simp] theorem get?_visible (s : LayeredStore V E) (k : String) : s.visible.get? k = s.get? k :=
  get?_overlay s.base s.layers k

/-! ## Single operations -/

theorem get?_assign (s : LayeredStore V E) (k : String) (v : Option V) (q : String) :
    (s.assign k v).get? q = if q = k then v else s.get? q := by
  obtain ⟨base, layers, events⟩ := s
  cases layers with
  | nil => exact SortedMap.get?_assign base k v q
  | cons l ls =>
    simp only [get?, assign, lookThrough, SortedMap.get?_insert]
    by_cases hq : q = k <;> simp [hq]

theorem get?_set (s : LayeredStore V E) (k : String) (v : V) (q : String) :
    (s.set k v).get? q = if q = k then some v else s.get? q :=
  get?_assign s k (some v) q

@[simp] theorem events_assign (s : LayeredStore V E) (k : String) (v : Option V) :
    (s.assign k v).events = s.events := by
  obtain ⟨base, layers, events⟩ := s
  cases layers <;> rfl

@[simp] theorem get?_emit (s : LayeredStore V E) (e : E) (k : String) :
    (s.emit e).get? k = s.get? k := rfl

@[simp] theorem get?_checkpoint (s : LayeredStore V E) (k : String) :
    s.checkpoint.get? k = s.get? k := rfl

theorem lookThrough_map_eventCount (base : SortedMap V) (ls : List (Layer V)) (n : Nat)
    (k : String) :
    lookThrough k base (ls.map fun l => { l with eventCount := n }) = lookThrough k base ls := by
  induction ls with
  | nil => rfl
  | cons l ls ih => simp only [List.map_cons, lookThrough, ih]

@[simp] theorem get?_drain (s : LayeredStore V E) (k : String) : s.drain.2.get? k = s.get? k :=
  lookThrough_map_eventCount s.base s.layers 0 k

theorem lookThrough_fold (base : SortedMap V) (l below : Layer V) (ls : List (Layer V))
    (k : String) :
    lookThrough k base ({ below with writes := below.writes.insertAll l.writes.entries } :: ls)
      = lookThrough k base (l :: below :: ls) := by
  simp only [lookThrough, SortedMap.get?_insertAll]
  cases l.writes.get? k <;> rfl

theorem get?_commit {s t : LayeredStore V E} (h : s.commit? = some t) (k : String) :
    t.get? k = s.get? k := by
  obtain ⟨base, layers, events⟩ := s
  match layers, h with
  | [l], h =>
    obtain rfl := Option.some.inj h
    simp only [get?, lookThrough, SortedMap.get?_assignAll]
    cases l.writes.get? k <;> rfl
  | l :: below :: ls, h =>
    obtain rfl := Option.some.inj h
    exact lookThrough_fold base l below ls k

theorem events_commit {s t : LayeredStore V E} (h : s.commit? = some t) : t.events = s.events := by
  obtain ⟨base, layers, events⟩ := s
  match layers, h with
  | [l], h =>
    obtain rfl := Option.some.inj h
    rfl
  | l :: below :: ls, h =>
    obtain rfl := Option.some.inj h
    rfl

/-! ## Repeated assignments -/

theorem assign_assign (s : LayeredStore V E) (k : String) (v w : Option V) :
    (s.assign k v).assign k w = s.assign k w := by
  obtain ⟨base, layers, events⟩ := s
  cases layers with
  | nil =>
    simp only [assign]
    congr 1
    refine SortedMap.ext fun q => ?_
    rw [SortedMap.get?_assign, SortedMap.get?_assign, SortedMap.get?_assign]
    split <;> rfl
  | cons l ls =>
    simp only [assign]
    congr 3
    refine SortedMap.ext fun q => ?_
    rw [SortedMap.get?_insert, SortedMap.get?_insert, SortedMap.get?_insert]
    split <;> rfl

theorem assign_comm (s : LayeredStore V E) {k q : String} (hkq : k ≠ q) (v w : Option V) :
    (s.assign k v).assign q w = (s.assign q w).assign k v := by
  obtain ⟨base, layers, events⟩ := s
  cases layers with
  | nil =>
    simp only [assign]
    congr 1
    refine SortedMap.ext fun x => ?_
    simp only [SortedMap.get?_assign]
    by_cases hk : x = k
    · subst hk
      rw [if_neg hkq, if_pos rfl, if_pos rfl]
    · rw [if_neg hk, if_neg hk]
  | cons l ls =>
    simp only [assign]
    congr 3
    refine SortedMap.ext fun x => ?_
    simp only [SortedMap.get?_insert]
    by_cases hk : x = k
    · subst hk
      rw [if_neg hkq, if_pos rfl, if_pos rfl]
    · rw [if_neg hk, if_neg hk]

/-! ## Lists of entries -/

theorem get?_overlayUnder (start : String) (base : SortedMap V) (ls : List (Layer V))
    (k : String) :
    (overlayUnder start base ls).get? k
      = if Text.beginsWith start k = true then lookThrough k base ls else none := by
  induction ls with
  | nil => exact SortedMap.get?_startingWith base start k
  | cons l ls ih =>
    rw [overlayUnder, SortedMap.get?_assignAll, SortedMap.get?_startingWith, ih, lookThrough]
    by_cases hk : Text.beginsWith start k = true
    · cases l.writes.get? k <;> simp [hk]
    · simp [hk]

theorem mem_under {s : LayeredStore V E} {start k : String} {v : V} :
    (k, v) ∈ s.under start ↔ s.get? k = some v ∧ Text.beginsWith start k = true := by
  rw [under, SortedMap.mem_entries_iff, get?_overlayUnder]
  by_cases hk : Text.beginsWith start k = true <;> simp [hk, get?]

theorem under_sorted (s : LayeredStore V E) (start : String) :
    (s.under start).Pairwise fun a b => a.1 < b.1 :=
  (overlayUnder start s.base s.layers).sorted

theorem overlayUnder_eq (start : String) (base : SortedMap V) (ls : List (Layer V)) :
    overlayUnder start base ls = (overlay base ls).startingWith start := by
  refine SortedMap.ext fun k => ?_
  rw [get?_overlayUnder, SortedMap.get?_startingWith, get?_overlay]

/-- A list of entries depends on nothing but the map in sight. -/
theorem under_eq (s : LayeredStore V E) (start : String) :
    s.under start = (s.visible.startingWith start).entries := by
  rw [under, overlayUnder_eq]
  rfl

theorem visible_congr {s t : LayeredStore V E} (h : ∀ k, s.get? k = t.get? k) :
    s.visible = t.visible :=
  SortedMap.ext fun k => by rw [get?_visible, get?_visible, h]

theorem under_congr {s t : LayeredStore V E} {start : String}
    (h : ∀ k, Text.beginsWith start k = true → t.get? k = s.get? k) :
    t.under start = s.under start := by
  rw [under_eq, under_eq]
  congr 1
  refine SortedMap.ext fun k => ?_
  rw [SortedMap.get?_startingWith, SortedMap.get?_startingWith, get?_visible, get?_visible]
  by_cases hk : Text.beginsWith start k = true
  · rw [if_pos hk, if_pos hk, h k hk]
  · rw [if_neg hk, if_neg hk]

theorem under_set {s : LayeredStore V E} {start k : String} (hk : Text.beginsWith start k = true)
    (v : V) : (s.set k v).under start = SortedMap.insertEntry k v (s.under start) := by
  have hmaps : (s.set k v).visible.startingWith start =
      (s.visible.startingWith start).insert k v := by
    refine SortedMap.ext fun q => ?_
    rw [SortedMap.get?_startingWith, SortedMap.get?_insert, SortedMap.get?_startingWith,
      get?_visible, get?_visible, get?_set]
    by_cases hq : q = k
    · rw [if_pos hq, if_pos hq, if_pos (hq ▸ hk)]
    · rw [if_neg hq, if_neg hq]
  rw [under_eq, under_eq, hmaps]
  rfl

theorem lookup_under {s : LayeredStore V E} {start k : String}
    (hk : Text.beginsWith start k = true) : SortedMap.lookup k (s.under start) = s.get? k := by
  rw [under_eq]
  show (s.visible.startingWith start).get? k = _
  rw [SortedMap.get?_startingWith, if_pos hk, get?_visible]

end LiquidityNet.LayeredStore
