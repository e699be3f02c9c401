import LiquidityNet.Proofs.Store.Views

/-!
# Layers against whole snapshots

The reference store has no layers: it keeps one map and one list of events, and a checkpoint
copies both. A layered store stands for the reference store whose map is the one in sight and whose
copies are what its layers, without the innermost ones, make of the base. Every operation carries
this correspondence along, so that no run tells the two apart.
-/

namespace LiquidityNet

structure Snapshot (V E : Type) where
  map : SortedMap V
  events : List E

/-- A store that copies its whole state at each checkpoint. -/
structure SnapshotStore (V E : Type) where
  current : Snapshot V E
  /-- The copies made at the open checkpoints, the latest first. -/
  copies : List (Snapshot V E)

inductive StoreOperation (V E : Type) where
  | set (key : String) (value : V)
  | erase (key : String)
  | emit (event : E)
  | drain
  | checkpoint
  | commit
  | rollback
  | rollbackTo (depth : Nat)

inductive StoreAnswer (E : Type) where
  | done
  | drained (events : List E)
  | failed

/-- The answers to a list of operations, and the store after them. -/
def runOperations {V E S : Type} (perform : S → StoreOperation V E → StoreAnswer E × S) :
    S → List (StoreOperation V E) → List (StoreAnswer E) × S
  | s, [] => ([], s)
  | s, op :: ops =>
    let rest := runOperations perform (perform s op).2 ops
    ((perform s op).1 :: rest.1, rest.2)

variable {V E : Type}

namespace SnapshotStore

def empty : SnapshotStore V E := ⟨⟨.empty, []⟩, []⟩

def get? (r : SnapshotStore V E) (k : String) : Option V := r.current.map.get? k

def has (r : SnapshotStore V E) (k : String) : Bool := (r.get? k).isSome

def under (r : SnapshotStore V E) (start : String) : List (String × V) :=
  r.current.map.entries.filter fun e => Text.beginsWith start e.1

def events (r : SnapshotStore V E) : List E := r.current.events

def depth (r : SnapshotStore V E) : Nat := r.copies.length

def rollback? (r : SnapshotStore V E) : Option (SnapshotStore V E) :=
  match r.copies with
  | [] => none
  | c :: cs => some ⟨c, cs⟩

def commit? (r : SnapshotStore V E) : Option (SnapshotStore V E) :=
  match r.copies with
  | [] => none
  | _ :: cs => some { r with copies := cs }

def rollbackTimes : Nat → SnapshotStore V E → SnapshotStore V E
  | 0, r => r
  | n + 1, r => rollbackTimes n (r.rollback?.getD r)

def perform (r : SnapshotStore V E) : StoreOperation V E → StoreAnswer E × SnapshotStore V E
  | .set k v => (.done, { r with current := { r.current with map := r.current.map.insert k v } })
  | .erase k => (.done, { r with current := { r.current with map := r.current.map.erase k } })
  | .emit e =>
    (.done, { r with current := { r.current with events := r.current.events ++ [e] } })
  | .drain =>
    (.drained r.current.events,
      ⟨{ r.current with events := [] }, r.copies.map fun c => { c with events := [] }⟩)
  | .checkpoint => (.done, { r with copies := r.current :: r.copies })
  | .commit =>
    match r.commit? with
    | some r' => (.done, r')
    | none => (.failed, r)
  | .rollback =>
    match r.rollback? with
    | some r' => (.done, r')
    | none => (.failed, r)
  | .rollbackTo d => (.done, r.rollbackTimes (r.depth - d))

end SnapshotStore

namespace LayeredStore

def perform (s : LayeredStore V E) : StoreOperation V E → StoreAnswer E × LayeredStore V E
  | .set k v => (.done, s.set k v)
  | .erase k => (.done, s.erase k)
  | .emit e => (.done, s.emit e)
  | .drain => (.drained s.drain.1, s.drain.2)
  | .checkpoint => (.done, s.checkpoint)
  | .commit =>
    match s.commit? with
    | some t => (.done, t)
    | none => (.failed, s)
  | .rollback =>
    match s.rollback? with
    | some t => (.done, t)
    | none => (.failed, s)
  | .rollbackTo d => (.done, s.rollbackTo d)

/-- The copies that layers stand for. -/
def copiesOf (base : SortedMap V) : List (Layer V) → List E → List (Snapshot V E)
  | [], _ => []
  | l :: ls, es =>
    ⟨overlay base ls, es.take l.eventCount⟩ :: copiesOf base ls (es.take l.eventCount)

/-- The reference store that a layered store stands for. -/
def snapshots (s : LayeredStore V E) : SnapshotStore V E :=
  ⟨⟨s.visible, s.events⟩, copiesOf s.base s.layers s.events⟩

/-- Layers do not count more events than there were when the next one was opened. -/
def CountsNested : Nat → List (Layer V) → Prop
  | _, [] => True
  | n, l :: ls => l.eventCount ≤ n ∧ CountsNested l.eventCount ls

/-- No layer counts more events than the store and the layers over it have. -/
def IsNested (s : LayeredStore V E) : Prop := CountsNested s.events.length s.layers

theorem CountsNested.mono {m n : Nat} {ls : List (Layer V)} (h : CountsNested m ls)
    (hmn : m ≤ n) : CountsNested n ls := by
  cases ls with
  | nil => trivial
  | cons l ls => exact ⟨Nat.le_trans h.1 hmn, h.2⟩

theorem countsNested_zero (n : Nat) (ls : List (Layer V)) :
    CountsNested n (ls.map fun l => { l with eventCount := 0 }) := by
  induction ls generalizing n with
  | nil => trivial
  | cons l ls ih => exact ⟨Nat.zero_le n, ih 0⟩

@[simp] theorem length_copiesOf (base : SortedMap V) (ls : List (Layer V)) (es : List E) :
    (copiesOf base ls es).length = ls.length := by
  induction ls generalizing es with
  | nil => rfl
  | cons l ls ih => simp [copiesOf, ih]

theorem depth_snapshots (s : LayeredStore V E) : s.snapshots.depth = s.depth :=
  length_copiesOf s.base s.layers s.events

/-! ## One lemma for each operation -/

theorem visible_assign (s : LayeredStore V E) (k : String) (v : Option V) :
    (s.assign k v).visible = s.visible.assign k v := by
  refine SortedMap.ext fun q => ?_
  rw [get?_visible, get?_assign, SortedMap.get?_assign, get?_visible]

theorem snapshots_assign (s : LayeredStore V E) (k : String) (v : Option V) :
    (s.assign k v).snapshots
      = { s.snapshots with
          current := { s.snapshots.current with map := s.visible.assign k v } } := by
  rw [snapshots, visible_assign]
  obtain ⟨base, layers, events⟩ := s
  cases layers <;> rfl

theorem isNested_assign {s : LayeredStore V E} (hs : s.IsNested) (k : String) (v : Option V) :
    (s.assign k v).IsNested := by
  obtain ⟨base, layers, events⟩ := s
  cases layers <;> exact hs

theorem copiesOf_append {base : SortedMap V} {ls : List (Layer V)} {es : List E}
    (h : CountsNested es.length ls) (fs : List E) :
    copiesOf base ls (es ++ fs) = copiesOf base ls es := by
  cases ls with
  | nil => rfl
  | cons l ls => rw [copiesOf, copiesOf, List.take_append_of_le_length h.1]

theorem snapshots_emit {s : LayeredStore V E} (hs : s.IsNested) (e : E) :
    (s.emit e).snapshots
      = { s.snapshots with
          current := { s.snapshots.current with events := s.events ++ [e] } } := by
  have hcopies : copiesOf s.base s.layers (s.events ++ [e]) = copiesOf s.base s.layers s.events :=
    copiesOf_append hs [e]
  change (⟨_, copiesOf s.base s.layers (s.events ++ [e])⟩ : SnapshotStore V E) = _
  rw [hcopies]
  rfl

theorem isNested_emit {s : LayeredStore V E} (hs : s.IsNested) (e : E) : (s.emit e).IsNested :=
  CountsNested.mono hs (by simp [emit])

theorem overlay_map_eventCount (base : SortedMap V) (ls : List (Layer V)) (n : Nat) :
    overlay base (ls.map fun l => { l with eventCount := n }) = overlay base ls := by
  induction ls with
  | nil => rfl
  | cons l ls ih => rw [List.map_cons, overlay, overlay, ih]

theorem copiesOf_drained (base : SortedMap V) (ls : List (Layer V)) (es : List E) :
    copiesOf base (ls.map fun l => { l with eventCount := 0 }) ([] : List E)
      = (copiesOf base ls es).map fun c => { c with events := [] } := by
  induction ls generalizing es with
  | nil => rfl
  | cons l ls ih =>
    simp only [List.map_cons, copiesOf, List.take_nil, overlay_map_eventCount]
    rw [ih (es.take l.eventCount)]

theorem snapshots_drain (s : LayeredStore V E) :
    s.drain.2.snapshots
      = ⟨{ s.snapshots.current with events := [] },
          s.snapshots.copies.map fun c => { c with events := [] }⟩ := by
  have hvisible : s.drain.2.visible = s.visible := visible_congr (get?_drain s)
  have hcopies := copiesOf_drained s.base s.layers s.events
  rw [snapshots, hvisible]
  exact congrArg (SnapshotStore.mk _) hcopies

theorem isNested_drain (s : LayeredStore V E) : s.drain.2.IsNested :=
  countsNested_zero 0 s.layers

theorem snapshots_checkpoint (s : LayeredStore V E) :
    s.checkpoint.snapshots = { s.snapshots with copies := s.snapshots.current :: s.snapshots.copies } := by
  have hvisible : s.checkpoint.visible = s.visible := visible_congr (get?_checkpoint s)
  rw [snapshots, hvisible]
  simp only [checkpoint, copiesOf, List.take_length]
  rfl

theorem isNested_checkpoint {s : LayeredStore V E} (hs : s.IsNested) : s.checkpoint.IsNested :=
  ⟨Nat.le_refl _, hs⟩

theorem snapshots_rollback (s : LayeredStore V E) :
    s.rollback?.map snapshots = s.snapshots.rollback? := by
  obtain ⟨base, layers, events⟩ := s
  cases layers <;> rfl

theorem isNested_rollback {s t : LayeredStore V E} (hs : s.IsNested) (h : s.rollback? = some t) :
    t.IsNested := by
  obtain ⟨base, layers, events⟩ := s
  cases layers with
  | nil => cases h
  | cons l ls =>
    obtain rfl := Option.some.inj h
    have hlen : (events.take l.eventCount).length = l.eventCount := by
      rw [List.length_take, Nat.min_eq_left hs.1]
    change CountsNested (events.take l.eventCount).length ls
    rw [hlen]
    exact hs.2

theorem snapshots_commit {s t : LayeredStore V E} (hs : s.IsNested) (h : s.commit? = some t) :
    s.snapshots.commit? = some t.snapshots := by
  have hvisible : t.visible = s.visible := visible_congr (get?_commit h)
  rw [snapshots, snapshots, hvisible]
  obtain ⟨base, layers, events⟩ := s
  match layers, hs, h with
  | [l], _, h =>
    obtain rfl := Option.some.inj h
    rfl
  | l :: below :: ls, hs, h =>
    obtain rfl := Option.some.inj h
    -- The copy that stays was cut twice, first at the later and then at the earlier count.
    have htake : (events.take l.eventCount).take below.eventCount = events.take below.eventCount :=
      by rw [List.take_take, Nat.min_eq_left hs.2.1]
    simp only [SnapshotStore.commit?, copiesOf, htake]

theorem isNested_commit {s t : LayeredStore V E} (hs : s.IsNested) (h : s.commit? = some t) :
    t.IsNested := by
  obtain ⟨base, layers, events⟩ := s
  match layers, hs, h with
  | [l], _, h =>
    obtain rfl := Option.some.inj h
    trivial
  | l :: below :: ls, hs, h =>
    obtain rfl := Option.some.inj h
    exact ⟨Nat.le_trans hs.2.1 hs.1, hs.2.2⟩

/-! ## Rolling back to a depth -/

theorem rollbackTo_of_le {s : LayeredStore V E} {d : Nat} (h : s.depth ≤ d) :
    s.rollbackTo d = s := by
  obtain ⟨base, layers, events⟩ := s
  cases layers with
  | nil => rfl
  | cons l ls =>
    have hd : ¬ d < ls.length + 1 := Nat.not_lt.2 h
    simp [rollbackTo, unwind, hd]

theorem rollbackTo_of_lt {s t : LayeredStore V E} {d : Nat} (hd : d < s.depth)
    (h : s.rollback? = some t) : s.rollbackTo d = t.rollbackTo d := by
  obtain ⟨base, layers, events⟩ := s
  cases layers with
  | nil => cases h
  | cons l ls =>
    obtain rfl := Option.some.inj h
    have hd : d < ls.length + 1 := hd
    simp [rollbackTo, unwind, hd]

theorem exists_rollback {s : LayeredStore V E} (h : 0 < s.depth) :
    ∃ t, s.rollback? = some t ∧ t.depth + 1 = s.depth := by
  obtain ⟨base, layers, events⟩ := s
  cases layers with
  | nil => cases h
  | cons l ls => exact ⟨_, rfl, rfl⟩

theorem rollbackTo_keeps {P : LayeredStore V E → Prop}
    (hP : ∀ s t, P s → s.rollback? = some t → P t) (s : LayeredStore V E) (d : Nat) (hs : P s) :
    P (s.rollbackTo d) := by
  by_cases hd : d < s.depth
  · obtain ⟨t, ht, hdepth⟩ := exists_rollback (Nat.zero_lt_of_lt hd)
    rw [rollbackTo_of_lt hd ht]
    exact rollbackTo_keeps hP t d (hP s t hs ht)
  · rwa [rollbackTo_of_le (Nat.not_lt.1 hd)]
termination_by s.depth

theorem snapshots_rollbackTo (s : LayeredStore V E) (d : Nat) :
    (s.rollbackTo d).snapshots = s.snapshots.rollbackTimes (s.depth - d) := by
  by_cases hd : d < s.depth
  · obtain ⟨t, ht, hdepth⟩ := exists_rollback (Nat.zero_lt_of_lt hd)
    have hstep : s.snapshots.rollback? = some t.snapshots := by
      rw [← snapshots_rollback, ht, Option.map_some]
    have htimes : s.depth - d = (t.depth - d) + 1 := by omega
    rw [rollbackTo_of_lt hd ht, snapshots_rollbackTo t d, htimes, SnapshotStore.rollbackTimes,
      hstep, Option.getD_some]
  · have hle : s.depth ≤ d := Nat.not_lt.1 hd
    rw [rollbackTo_of_le hle, Nat.sub_eq_zero_of_le hle, SnapshotStore.rollbackTimes]
termination_by s.depth

/-! ## Steps and runs -/

theorem isNested_perform {s : LayeredStore V E} (hs : s.IsNested) (op : StoreOperation V E) :
    (s.perform op).2.IsNested := by
  cases op with
  | set k v => exact isNested_assign hs k (some v)
  | erase k => exact isNested_assign hs k none
  | emit e => exact isNested_emit hs e
  | drain => exact isNested_drain s
  | checkpoint => exact isNested_checkpoint hs
  | commit =>
    cases h : s.commit? with
    | none => simpa [perform, h] using hs
    | some t => simpa [perform, h] using isNested_commit hs h
  | rollback =>
    cases h : s.rollback? with
    | none => simpa [perform, h] using hs
    | some t => simpa [perform, h] using isNested_rollback hs h
  | rollbackTo d => exact rollbackTo_keeps (fun _ _ => isNested_rollback) s d hs

theorem snapshots_commit_none {s : LayeredStore V E} (h : s.commit? = none) :
    s.snapshots.commit? = none := by
  obtain ⟨base, layers, events⟩ := s
  cases layers with
  | nil => rfl
  | cons l ls => cases ls <;> cases h

/-- An operation does to a layered store what it does to the store of snapshots, and is answered
alike. -/
theorem perform_snapshots {s : LayeredStore V E} (hs : s.IsNested) (op : StoreOperation V E) :
    s.snapshots.perform op = ((s.perform op).1, (s.perform op).2.snapshots) := by
  cases op with
  | set k v => exact congrArg (Prod.mk _) (snapshots_assign s k (some v)).symm
  | erase k => exact congrArg (Prod.mk _) (snapshots_assign s k none).symm
  | emit e => exact congrArg (Prod.mk _) (snapshots_emit hs e).symm
  | drain => exact congrArg (Prod.mk _) (snapshots_drain s).symm
  | checkpoint => exact congrArg (Prod.mk _) (snapshots_checkpoint s).symm
  | commit =>
    cases h : s.commit? with
    | none => simp [perform, SnapshotStore.perform, h, snapshots_commit_none h]
    | some t => simp [perform, SnapshotStore.perform, h, snapshots_commit hs h]
  | rollback =>
    have hroll := snapshots_rollback s
    cases h : s.rollback? with
    | none =>
      rw [h, Option.map_none] at hroll
      simp [perform, SnapshotStore.perform, h, ← hroll]
    | some t =>
      rw [h, Option.map_some] at hroll
      simp [perform, SnapshotStore.perform, h, ← hroll]
  | rollbackTo d =>
    simp only [perform, SnapshotStore.perform, depth_snapshots, snapshots_rollbackTo]

theorem run_snapshots {s : LayeredStore V E} (hs : s.IsNested) (ops : List (StoreOperation V E)) :
    runOperations SnapshotStore.perform s.snapshots ops
      = ((runOperations perform s ops).1, (runOperations perform s ops).2.snapshots) := by
  induction ops generalizing s with
  | nil => rfl
  | cons op ops ih =>
    have hrest := ih (isNested_perform hs op)
    simp only [runOperations, perform_snapshots hs op, hrest]

/-- No run from the empty store tells layers from whole snapshots: all operations are answered
alike, and afterwards all lookups, lists of entries, events and depths agree. A list of entries
holds what the lookups show, in strictly ascending order of the keys. -/
theorem layers_refine_snapshots (ops : List (StoreOperation V E)) :
    let layered := runOperations perform (empty : LayeredStore V E) ops
    let reference := runOperations SnapshotStore.perform (.empty : SnapshotStore V E) ops
    layered.1 = reference.1 ∧
      (∀ k, layered.2.get? k = reference.2.get? k) ∧
      (∀ k, layered.2.has k = reference.2.has k) ∧
      (∀ start, layered.2.under start = reference.2.under start) ∧
      layered.2.events = reference.2.events ∧
      layered.2.depth = reference.2.depth ∧
      ∀ start, (layered.2.under start).Pairwise (fun a b => a.1 < b.1) ∧
        ∀ k v, (k, v) ∈ layered.2.under start ↔
          layered.2.get? k = some v ∧ Text.beginsWith start k = true := by
  intro layered reference
  have hrun : reference = (layered.1, layered.2.snapshots) :=
    run_snapshots (s := empty) trivial ops
  have hget : ∀ k, layered.2.get? k = layered.2.snapshots.get? k := fun k =>
    (get?_visible layered.2 k).symm
  rw [hrun]
  refine ⟨rfl, hget, fun k => ?_, fun start => ?_, rfl, (depth_snapshots layered.2).symm,
    fun start => ⟨under_sorted layered.2 start, fun k v => mem_under⟩⟩
  · rw [has, SnapshotStore.has, hget]
  · rw [under_eq, SortedMap.startingWith_entries]
    rfl

end LayeredStore

end LiquidityNet
