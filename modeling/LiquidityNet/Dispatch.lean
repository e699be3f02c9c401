import LiquidityNet.Bond.Withdrawal
import LiquidityNet.Swap.Queue

/-!
# Dispatch of messages

A message is carried out as a whole or not at all, also when a fault ends it. The one exception is
an unbond that is refused because funds are to be returned first: the request for their return
stands.
-/

namespace LiquidityNet.Dispatch

def route : Message → Action Unit
  | .swap m => do
    let _ ← Swap.handle m
  | .unbond m => Bond.withdraw m
  | .bond m => Bond.deposit m

/-- Carries a message out. A refusal for funds to return becomes the answer. -/
def answer (m : Message) : Action (Option Error) := do
  match ← attempt (route m) with
  | .ok () => return none
  | .error .fundsToReturn => return some .fundsToReturn
  | .error e => refuse e

/-- Carries a message out in a checkpoint, which keeps what a refusal for funds to return wrote. -/
def guarded (m : Message) : Action (Option Error) := transactionally (answer m)

def dispatch (m : Message) : Action (List Event) := fun s =>
  match guarded m s with
  | (.ok none, t) => (.ok (t.store.events.drop s.store.events.length), t)
  | (.ok (some e), t) => (.error (.refused e), t)
  | (.error (.refused e), t) => (.error (.refused e), t)
  | (.error (.fault f), t) =>
    (.error (.refused (.handlerFault m.name f)),
      { t with store := t.store.rollbackTo s.store.depth })

end LiquidityNet.Dispatch
