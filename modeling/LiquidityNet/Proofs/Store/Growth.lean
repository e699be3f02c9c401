import LiquidityNet.Proofs.Store.Views

/-!
# Growth under open checkpoints

Between two checkpoints a store only grows: the innermost layer takes writes, further layers may be
opened over it, and events are added. This is all that a rollback needs in order to restore what
was there.
-/

namespace LiquidityNet.LayeredStore

variable {V E : Type} {s t u : LayeredStore V E}

/-- The second store comes out of the first without closing any of its checkpoints. -/
structure GrowsTo (s t : LayeredStore V E) : Prop where
  events : s.events <+: t.events
  layers : ∀ l ls, s.layers = l :: ls → t.base = s.base ∧
    ∃ opened writes, t.layers = opened ++ { l with writes := writes } :: ls ∧
      ∀ o ∈ opened, s.events.length ≤ o.eventCount

theorem GrowsTo.refl (s : LayeredStore V E) : s.GrowsTo s where
  events := List.prefix_refl s.events
  layers := fun l _ h => ⟨rfl, [], l.writes, h, fun _ ho => nomatch ho⟩

theorem GrowsTo.trans (hst : s.GrowsTo t) (htu : t.GrowsTo u) : s.GrowsTo u where
  events := hst.events.trans htu.events
  layers := by
    intro l ls hs
    obtain ⟨hbase, opened, writes, ht, hopened⟩ := hst.layers l ls hs
    have hlength : s.events.length ≤ t.events.length := hst.events.length_le
    cases opened with
    | nil =>
      obtain ⟨hbase', opened', writes', hu, hopened'⟩ := htu.layers _ _ ht
      exact ⟨hbase'.trans hbase, opened', writes', hu,
        fun o ho => Nat.le_trans hlength (hopened' o ho)⟩
    | cons o os =>
      obtain ⟨hbase', opened', writes', hu, hopened'⟩ := htu.layers _ _ ht
      refine ⟨hbase'.trans hbase, opened' ++ { o with writes := writes' } :: os, writes, ?_, ?_⟩
      · rw [hu, List.append_assoc]
        rfl
      · intro x hx
        rcases List.mem_append.1 hx with hx | hx
        · exact Nat.le_trans hlength (hopened' x hx)
        · rcases List.mem_cons.1 hx with rfl | hx
          · exact hopened o List.mem_cons_self
          · exact hopened x (List.mem_cons_of_mem o hx)

theorem growsTo_assign (s : LayeredStore V E) (k : String) (v : Option V) :
    s.GrowsTo (s.assign k v) := by
  obtain ⟨base, layers, events⟩ := s
  refine ⟨?_, ?_⟩
  · cases layers <;> exact List.prefix_refl events
  · rintro l ls rfl
    exact ⟨rfl, [], _, rfl, fun _ ho => nomatch ho⟩

theorem growsTo_emit (s : LayeredStore V E) (e : E) : s.GrowsTo (s.emit e) where
  events := List.prefix_append s.events [e]
  layers := fun l _ h => ⟨rfl, [], l.writes, h, fun _ ho => nomatch ho⟩

@[simp] theorem depth_assign (s : LayeredStore V E) (k : String) (v : Option V) :
    (s.assign k v).depth = s.depth := by
  obtain ⟨base, layers, events⟩ := s
  cases layers <;> rfl

@[simp] theorem depth_emit (s : LayeredStore V E) (e : E) : (s.emit e).depth = s.depth := rfl

@[simp] theorem depth_checkpoint (s : LayeredStore V E) : s.checkpoint.depth = s.depth + 1 := rfl

/-! ## Closing a checkpoint -/

/-- A store grown out of a fresh checkpoint has that checkpoint's layer under those opened later. -/
theorem GrowsTo.layers_of_checkpoint (h : s.checkpoint.GrowsTo t) :
    t.base = s.base ∧ ∃ opened writes,
      t.layers = opened ++ ⟨writes, s.events.length⟩ :: s.layers ∧
        ∀ o ∈ opened, s.events.length ≤ o.eventCount :=
  h.layers _ _ rfl

theorem GrowsTo.layers_of_depth (h : s.checkpoint.GrowsTo t) (hdepth : t.depth = s.depth + 1) :
    t.base = s.base ∧ ∃ writes, t.layers = ⟨writes, s.events.length⟩ :: s.layers := by
  obtain ⟨hbase, opened, writes, ht, _⟩ := h.layers_of_checkpoint
  have hopened : opened = [] := by
    rw [depth, depth, ht, List.length_append, List.length_cons] at hdepth
    exact List.eq_nil_of_length_eq_zero (by omega)
  subst hopened
  exact ⟨hbase, writes, ht⟩

theorem take_of_prefix {es fs : List E} (h : es <+: fs) : fs.take es.length = es := by
  obtain ⟨gs, rfl⟩ := h
  exact List.take_left' rfl

theorem GrowsTo.rollback (h : s.checkpoint.GrowsTo t) (hdepth : t.depth = s.depth + 1) :
    t.rollback? = some s := by
  obtain ⟨hbase, writes, ht⟩ := h.layers_of_depth hdepth
  have hevents : t.events.take s.events.length = s.events := take_of_prefix h.events
  obtain ⟨base, layers, events⟩ := t
  obtain rfl : base = s.base := hbase
  obtain rfl : layers = ⟨writes, s.events.length⟩ :: s.layers := ht
  simp only [rollback?] at hevents ⊢
  rw [hevents]

theorem unwind_append {depth : Nat} {opened ls : List (Layer V)} {es fs : List E} {l : Layer V}
    (hdepth : ls.length = depth) (hl : l.eventCount = es.length) (hes : es <+: fs)
    (hopened : ∀ o ∈ opened, es.length ≤ o.eventCount) :
    unwind depth (opened ++ l :: ls) fs = (ls, es) := by
  induction opened generalizing fs with
  | nil =>
    rw [List.nil_append, unwind, if_pos (by omega), hl, take_of_prefix hes]
    cases ls with
    | nil => rfl
    | cons l' ls => rw [unwind, if_neg (by simp at hdepth; omega)]
  | cons o opened ih =>
    rw [List.cons_append, unwind, if_pos (by rw [List.length_append, List.length_cons]; omega)]
    refine ih ?_ fun x hx => hopened x (List.mem_cons_of_mem o hx)
    exact List.prefix_take_iff.2 ⟨hes, hopened o List.mem_cons_self⟩

/-- However many checkpoints were left open, rolling back to the depth before the first of them
restores the store. -/
theorem GrowsTo.rollbackTo (h : s.checkpoint.GrowsTo t) : t.rollbackTo s.depth = s := by
  obtain ⟨hbase, opened, writes, ht, hopened⟩ := h.layers_of_checkpoint
  have hunwind : unwind s.depth t.layers t.events = (s.layers, s.events) := by
    rw [ht]
    exact unwind_append rfl rfl h.events hopened
  obtain ⟨base, layers, events⟩ := t
  obtain rfl : base = s.base := hbase
  simp only [LayeredStore.rollbackTo] at hunwind ⊢
  rw [hunwind]

theorem GrowsTo.of_checkpoint (h : s.checkpoint.GrowsTo t) : s.GrowsTo t where
  events := h.events
  layers := by
    intro l ls hs
    obtain ⟨hbase, opened, writes, ht, hopened⟩ := h.layers_of_checkpoint
    refine ⟨hbase, opened ++ [⟨writes, s.events.length⟩], l.writes, ?_, ?_⟩
    · rw [ht, hs, List.append_assoc]
      rfl
    · intro o ho
      rcases List.mem_append.1 ho with ho | ho
      · exact hopened o ho
      · obtain rfl := List.mem_singleton.1 ho
        exact Nat.le_refl s.events.length

theorem GrowsTo.commit (h : s.checkpoint.GrowsTo t) (hdepth : t.depth = s.depth + 1) :
    ∃ u, t.commit? = some u ∧ s.GrowsTo u ∧ u.depth = s.depth ∧ u.events = t.events := by
  obtain ⟨hbase, writes, ht⟩ := h.layers_of_depth hdepth
  have hevents : s.events <+: t.events := h.events
  obtain ⟨tbase, tlayers, tevents⟩ := t
  obtain ⟨base, layers, events⟩ := s
  obtain rfl : tbase = base := hbase
  obtain rfl : tlayers = ⟨writes, events.length⟩ :: layers := ht
  cases layers with
  | nil => exact ⟨_, rfl, ⟨hevents, fun l ls hs => nomatch hs⟩, rfl, rfl⟩
  | cons l ls =>
    refine ⟨_, rfl, ⟨hevents, ?_⟩, rfl, rfl⟩
    rintro l' ls' hs
    obtain ⟨rfl, rfl⟩ := List.cons.inj hs
    exact ⟨rfl, [], _, rfl, fun _ ho => nomatch ho⟩

/-- Writes committed at once are the writes made without a checkpoint. -/
theorem commit_assign {k : String} {v : Option V} (h : t.commit? = some u) :
    (t.assign k v).commit? = some (u.assign k v) := by
  obtain ⟨base, layers, events⟩ := t
  match layers, h with
  | [l], h =>
    obtain rfl := Option.some.inj h
    refine congrArg some ?_
    simp only [assign]
    congr 1
    refine SortedMap.ext fun q => ?_
    rw [SortedMap.get?_assignAll, SortedMap.get?_insert, SortedMap.get?_assign,
      SortedMap.get?_assignAll]
    by_cases hq : q = k <;> simp [hq]
  | l :: below :: ls, h =>
    obtain rfl := Option.some.inj h
    refine congrArg some ?_
    simp only [assign]
    congr 3
    refine SortedMap.ext fun q => ?_
    rw [SortedMap.get?_insertAll, SortedMap.get?_insert, SortedMap.get?_insert,
      SortedMap.get?_insertAll]
    by_cases hq : q = k <;> simp [hq]

theorem commit_checkpoint (s : LayeredStore V E) : s.checkpoint.commit? = some s := by
  obtain ⟨base, layers, events⟩ := s
  cases layers <;> rfl

end LiquidityNet.LayeredStore
