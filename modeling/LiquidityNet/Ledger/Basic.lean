import LiquidityNet.Event
import LiquidityNet.Ledger.Key
import LiquidityNet.Record
import LiquidityNet.Settings
import LiquidityNet.Store.Layered

/-!
# The ledger

All state of the network at one point of a block. A `Query` reads it; an `Action` may change it,
and what it changed before it failed stays changed unless a checkpoint takes it back.
-/

namespace LiquidityNet

structure Ledger where
  store : LayeredStore Record Event
  settings : Settings
  height : Height

abbrev Query := ReaderT Ledger (Except Failure)

abbrev Action := ExceptT Failure (StateM Ledger)

instance : MonadLift Query Action := ⟨fun q s => (q s, s)⟩

instance : MonadLift (Except Error) (Except Failure) :=
  ⟨fun x => match x with | .ok a => .ok a | .error e => .error (.refused e)⟩

instance : MonadLift (Except Fault) (Except Failure) :=
  ⟨fun x => match x with | .ok a => .ok a | .error f => .error (.fault f)⟩

def refuse {m : Type → Type} {α : Type} [MonadExcept Failure m] (e : Error) : m α :=
  throw (.refused e)

variable {α : Type}

/-- Answers a refusal instead of failing with it; a fault goes on. -/
def attempt (body : Action α) : Action (Except Error α) := fun s =>
  match body s with
  | (.ok a, t) => (.ok (.ok a), t)
  | (.error (.refused e), t) => (.ok (.error e), t)
  | (.error (.fault f), t) => (.error (.fault f), t)

/-- Runs an action in a checkpoint: its writes and events stay if it succeeds and go if it is
refused. A fault leaves the checkpoint open. -/
def transactionally (body : Action α) : Action α := fun s =>
  match body { s with store := s.store.checkpoint } with
  | (.ok a, t) =>
    match t.store.commit? with
    | some store => (.ok a, { t with store })
    | none => (.error (.refused .commitWithoutCheckpoint), t)
  | (.error (.refused e), t) =>
    match t.store.rollback? with
    | some store => (.error (.refused e), { t with store })
    | none => (.error (.refused .rollbackWithoutCheckpoint), t)
  | (.error (.fault f), t) => (.error (.fault f), t)

namespace Ledger

def empty (settings : Settings) (height : Height) : Ledger := ⟨.empty, settings, height⟩

def currentHeight : Query Height := fun s => .ok s.height

def fetch? [Recordable α] (key : String) : Query (Option α) := fun s =>
  match s.store.get? key with
  | none => .ok none
  | some r =>
    match ofRecord? r with
    | some a => .ok (some a)
    | none => .error (.refused .unreadableRecord)

def fetchD [Recordable α] (key : String) (default : α) : Query α := do
  return (← fetch? key).getD default

/-- The values whose keys begin alike, in the order of the keys. -/
def fetchAll [Recordable α] (start : String) : Query (List α) := fun s =>
  match (s.store.under start).mapM fun e => ofRecord? e.2 with
  | some as => .ok as
  | none => .error (.refused .unreadableRecord)

def put [Recordable α] (key : String) (a : α) : Action Unit :=
  modify fun s => { s with store := s.store.set key (toRecord a) }

def erase (key : String) : Action Unit :=
  modify fun s => { s with store := s.store.erase key }

def emit (e : Event) : Action Unit :=
  modify fun s => { s with store := s.store.emit e }

def drain : Action (List Event) := fun s =>
  (.ok s.store.drain.1, { s with store := s.store.drain.2 })

def setHeight (h : Height) : Action Unit := modify fun s => { s with height := h }

def rollbackTo (depth : Nat) : Action Unit :=
  modify fun s => { s with store := s.store.rollbackTo depth }

end Ledger

end LiquidityNet
