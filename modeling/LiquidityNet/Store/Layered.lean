import LiquidityNet.Store.SortedMap

/-!
# A store with nested checkpoints

Each open checkpoint is a layer of writes over the layers below it. A commit folds the innermost
layer into the one below, a rollback throws it away together with the events emitted since it was
opened. Only the innermost layer is ever written to.
-/

namespace LiquidityNet

/-- The writes made since a checkpoint: a value, or none for an erased key. -/
structure Layer (V : Type) where
  writes : SortedMap (Option V)
  /-- The number of events when the checkpoint was opened. -/
  eventCount : Nat

/-- A map from keys to values with a log of events. -/
structure LayeredStore (V E : Type) where
  base : SortedMap V
  /-- The open checkpoints, innermost first. -/
  layers : List (Layer V)
  events : List E

namespace LayeredStore

variable {V E : Type}

def empty : LayeredStore V E := ⟨.empty, [], []⟩

instance : Inhabited (LayeredStore V E) := ⟨empty⟩

/-- What layers over a map make of a key. -/
def lookThrough (k : String) (base : SortedMap V) : List (Layer V) → Option V
  | [] => base.get? k
  | l :: ls =>
    match l.writes.get? k with
    | some v => v
    | none => lookThrough k base ls

def get? (s : LayeredStore V E) (k : String) : Option V := lookThrough k s.base s.layers

def has (s : LayeredStore V E) (k : String) : Bool := (s.get? k).isSome

def assign (s : LayeredStore V E) (k : String) (v : Option V) : LayeredStore V E :=
  match s.layers with
  | [] => { s with base := s.base.assign k v }
  | l :: ls => { s with layers := { l with writes := l.writes.insert k v } :: ls }

def set (s : LayeredStore V E) (k : String) (v : V) : LayeredStore V E := s.assign k (some v)

def erase (s : LayeredStore V E) (k : String) : LayeredStore V E := s.assign k none

/-- The map that layers make of a base. -/
def overlay (base : SortedMap V) : List (Layer V) → SortedMap V
  | [] => base
  | l :: ls => (overlay base ls).assignAll l.writes.entries

def visible (s : LayeredStore V E) : SortedMap V := overlay s.base s.layers

/-- The map that layers make of a base, for the keys that begin alike. -/
def overlayUnder (start : String) (base : SortedMap V) : List (Layer V) → SortedMap V
  | [] => base.startingWith start
  | l :: ls => (overlayUnder start base ls).assignAll (l.writes.startingWith start).entries

/-- The entries in sight whose keys begin alike, in the order of their keys. -/
def under (s : LayeredStore V E) (start : String) : List (String × V) :=
  (overlayUnder start s.base s.layers).entries

def emit (s : LayeredStore V E) (e : E) : LayeredStore V E := { s with events := s.events ++ [e] }

def drain (s : LayeredStore V E) : List E × LayeredStore V E :=
  (s.events, { s with events := [], layers := s.layers.map fun l => { l with eventCount := 0 } })

def depth (s : LayeredStore V E) : Nat := s.layers.length

def checkpoint (s : LayeredStore V E) : LayeredStore V E :=
  { s with layers := ⟨.empty, s.events.length⟩ :: s.layers }

/-- Closes the innermost checkpoint and keeps its writes, if one is open. -/
def commit? (s : LayeredStore V E) : Option (LayeredStore V E) :=
  match s.layers with
  | [] => none
  | [l] => some { s with base := s.base.assignAll l.writes.entries, layers := [] }
  | l :: below :: ls =>
    some { s with
      layers := { below with writes := below.writes.insertAll l.writes.entries } :: ls }

/-- Closes the innermost checkpoint and drops its writes and events, if one is open. -/
def rollback? (s : LayeredStore V E) : Option (LayeredStore V E) :=
  match s.layers with
  | [] => none
  | l :: ls => some { s with layers := ls, events := s.events.take l.eventCount }

/-- Drops layers until no more than `depth` are left, and the events that go with them. -/
def unwind (depth : Nat) : List (Layer V) → List E → List (Layer V) × List E
  | [], es => ([], es)
  | l :: ls, es =>
    if depth < ls.length + 1 then unwind depth ls (es.take l.eventCount) else (l :: ls, es)

def rollbackTo (s : LayeredStore V E) (depth : Nat) : LayeredStore V E :=
  let r := unwind depth s.layers s.events
  { s with layers := r.1, events := r.2 }

end LayeredStore

end LiquidityNet
