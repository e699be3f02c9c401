import LiquidityNet.Application
import LiquidityNet.Proofs.Dispatch.Atomicity

/-!
# Calls of the engine

The engine begins a block, delivers messages and ends the block. What is refused while a block
begins or ends is passed over, so that these two can only end in a fault.
-/

namespace LiquidityNet

def Failure.isFault : Failure → Bool
  | refused _ => false
  | fault _ => true

namespace Application

inductive Call where
  | begin (height : Height) (engineKeys : List String)
  | deliver (m : Message)
  | finish

def failureOf {α : Type} : Except Failure α → Option Failure
  | .ok _ => none
  | .error e => some e

namespace Call

def next (app : Application) : Call → Application
  | begin height engineKeys => (app.beginBlock height engineKeys).2
  | deliver m => (app.deliver m).2
  | finish => app.endBlock.2

def failure? (app : Application) : Call → Option Failure
  | begin height engineKeys => failureOf (app.beginBlock height engineKeys).1
  | deliver m => failureOf (app.deliver m).1
  | finish => failureOf app.endBlock.1

def isDelivery : Call → Bool
  | deliver _ => true
  | _ => false

def isFaultless (app : Application) (c : Call) : Bool := (c.failure? app).all (!·.isFault)

end Call

/-- The application after a run of calls. -/
def after (app : Application) (calls : List Call) : Application :=
  calls.foldl (fun app c => c.next app) app

theorem after_append (app : Application) (xs ys : List Call) :
    app.after (xs ++ ys) = (app.after xs).after ys :=
  List.foldl_append

/-- No block begins or ends in a fault. -/
def Faultless : List Call → Application → Prop
  | [], _ => True
  | c :: cs, app =>
    (c.isDelivery = true ∨ c.isFaultless app = true) ∧ Faultless cs (c.next app)

instance decidableFaultless : (cs : List Call) → (app : Application) → Decidable (Faultless cs app)
  | [], _ => .isTrue trivial
  | c :: cs, app => @instDecidableAnd _ _ _ (decidableFaultless cs (c.next app))

end Application

end LiquidityNet
