import LiquidityNet.Dispatch
import LiquidityNet.Validators.Rotation

/-!
# The application

What the consensus engine drives: the beginning of a block, the delivery of messages, the end of
the block. Swaps wait for the end of the block, all other messages are carried out at once. What is
refused at the beginning or end of a block is passed over.
-/

namespace LiquidityNet

structure Application where
  ledger : Ledger
  /-- The consensus keys that the engine counted among its validators when the block began. -/
  engineKeys : List String

namespace Application

/-- What the engine learns at the end of a block. -/
structure BlockResult where
  updates : List Rotation.PowerUpdate
  events : List Event

def enqueue (m : SwapRequest) : Action Unit := do
  m.validate
  let index ← Queue.nextIndex m.tx.id
  Queue.put m index

/-- Takes a message, and gives the events of one that is carried out at once. -/
def deliverAction (m : Message) : Action (List Event) :=
  match m with
  | .swap m => do
    enqueue m
    return []
  | m => Dispatch.dispatch m

def beginAction (height : Height) : Action Unit := do
  Ledger.setHeight height
  let _ ← attempt Rotation.beginBlock

def runSwap (m : SwapRequest) : Action Unit := do
  let _ ← Dispatch.dispatch (.swap m)

def endAction (engineKeys : List String) : Action BlockResult := do
  let _ ← attempt (Queue.runBatch runSwap)
  let updates ←
    match ← attempt (Rotation.endBlock engineKeys) with
    | .ok updates => pure updates
    | .error _ => pure []
  return ⟨updates, ← Ledger.drain⟩

def run {α : Type} (app : Application) (body : Action α) : Except Failure α × Application :=
  let r := body app.ledger
  (r.1, { app with ledger := r.2 })

/-- The beginning of a block at a height; the engine tells the keys of its validators. -/
def beginBlock (app : Application) (height : Height) (engineKeys : List String) :
    Except Failure Unit × Application :=
  { app with engineKeys }.run (beginAction height)

def deliver (app : Application) (m : Message) : Except Failure (List Event) × Application :=
  app.run (deliverAction m)

def endBlock (app : Application) : Except Failure BlockResult × Application :=
  app.run (endAction app.engineKeys)

end Application

end LiquidityNet
