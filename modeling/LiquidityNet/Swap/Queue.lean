import LiquidityNet.Swap.Execution
import LiquidityNet.Swap.Refund

/-!
# The swap queue

Swaps wait until the end of the block. Each is rated by the fee and by the slip it would bring;
its places in the two orders are added up, and the smallest sums go first. Only a part of the queue
runs in one block. A swap that fails is refunded, and every swap that ran has left the queue.
-/

namespace LiquidityNet.Queue

/-- A queued swap with the fee in RUNE and the slip that its hops would bring. -/
structure Rated where
  request : SwapRequest
  index : Word
  fee : Amount
  slip : Amount

namespace Rated

def ofQueued (q : QueuedSwap) : Rated := ⟨q.request, q.index, 0, 0⟩

def charge (r : Rated) (p : Pool) (source : Coin) (multiplier : Amount) : Rated :=
  let d := Swap.depths p source.asset
  let depthIn := Swap.virtualDepth d.1 multiplier
  let depthOut := Swap.virtualDepth d.2 multiplier
  let fee := Swap.liquidityFee depthIn source.amount depthOut
  { r with
    fee := r.fee.plus (if source.asset.isRune then p.inRune fee else fee)
    slip := r.slip.plus (Swap.slip depthIn source.amount) }

/-- The order among equals: by transaction id, then by index. -/
def tiePrecedes (a b : Rated) : Bool :=
  if a.request.tx.id = b.request.tx.id then decide (a.index ≤ b.index)
  else decide (a.request.tx.id.text ≤ b.request.tx.id.text)

/-- Descending order of a measure, ties broken. -/
def descending (measure : Rated → Amount) (a b : Rated) : Bool :=
  if measure a = measure b then tiePrecedes a b else decide (measure b ≤ measure a)

end Rated

def places (order : Rated → Rated → Bool) (items : List Rated) : List Nat :=
  let sorted := (items.zipIdx.mergeSort fun a b => order a.1 b.1).map (·.2)
  (List.range items.length).map fun i => sorted.idxOf i

/-- Items by the sum of their places, ties broken. -/
def sort (items : List Rated) : List Rated :=
  let ranks := List.zipWith (· + ·) (places (Rated.descending (·.fee)) items)
    (places (Rated.descending (·.slip)) items)
  ((items.zip ranks).mergeSort fun a b =>
    if a.2 = b.2 then Rated.tiePrecedes a.1 b.1 else decide (a.2 ≤ b.2)).map (·.1)

/-- How many of the queued swaps run in one block: half of them, all of them where that is no more
than `least`, and never more than `most`. -/
def batchSize (queued least most : Int) : Int :=
  min (if queued ≤ least then queued else queued.tdiv 2) most

def multiplierFor (a : Asset) (multiplier : Amount) : Amount :=
  if a.synth then multiplier else basisPoints

/-- Rates one item, as far as the pools it goes through can be read and are open. -/
def rate (l : Ledger) (multiplier : Amount) (r : Rated) : Rated × Option Failure :=
  match r.request.tx.coins.head? with
  | none => (r, none)
  | some source =>
    let target := r.request.target
    let first := if source.asset.isRune then target else source.asset
    match Pools.find? first.backing l with
    | .error e => (r, some e)
    | .ok none => (r, none)
    | .ok (some p) =>
      if p.isEmpty || (!p.isAvailable && !source.asset.synth) then (r, none)
      else
        let r := r.charge p source (multiplierFor first multiplier)
        if source.asset.isRune || target.isRune then (r, none)
        else
          match Pools.find? target.backing l with
          | .error e => (r, some e)
          | .ok none => (r, none)
          | .ok (some q) =>
            if q.isEmpty || !q.isAvailable then (r, none)
            else
              (r.charge q ⟨.rune, p.inRune source.amount⟩ (multiplierFor target multiplier), none)

/-- Rates items up to the first whose pools cannot be read. -/
def rateAll (l : Ledger) (multiplier : Amount) : List Rated → List Rated × Option Failure
  | [] => ([], none)
  | r :: rs =>
    match rate l multiplier r with
    | (r, some e) => (r :: rs, some e)
    | (r, none) =>
      let rest := rateAll l multiplier rs
      (r :: rest.1, rest.2)

def unrated : Query (List Rated) := do return (← items).map Rated.ofQueued

/-- The queue in the order in which it is to run. -/
def ordered (multiplier : Amount) : Query (List Rated) := do
  let waiting ← unrated
  return sort (rateAll (← read) multiplier waiting).1

/-- The code of a refund after a failed swap. -/
def failureCode : Word := 108

def receivingVault (i : TxId) : Query (Option PublicKey) := fun l =>
  match Attestations.find? i l with
  | .ok (some v) => .ok (if v.inbound.tx.id.isEmpty then none else v.inbound.vault)
  | _ => .ok none

def refund (m : SwapRequest) (cause : Error) : Action Unit := do
  let vault ← receivingVault m.tx.id
  let height ← Ledger.currentHeight
  let _ ← attempt (Refund.refund ⟨m.tx, vault, height, height⟩ failureCode cause.message none)

def runOne (run : SwapRequest → Action Unit) (r : Rated) : Action (TxId × Option Error) := do
  let outcome ←
    match ← attempt (run r.request) with
    | .ok () => pure none
    | .error e => do
      refund r.request e
      pure (some e)
  remove r.request.tx.id r.index
  return (r.request.tx.id, outcome)

/-- Runs the swaps whose turn it is in this block; tells what came of each. -/
def runBatch (run : SwapRequest → Action Unit) : Action (List (TxId × Option Error)) := do
  let least ← Governance.value .minSwapsPerBlock
  let most ← Governance.value .maxSwapsPerBlock
  let waiting ← ordered (← Swap.depthMultiplier)
  let size := batchSize waiting.length least.val most.val
  (waiting.take size.toNat).mapM (runOne run)

/-- The next free index for a transaction: one past the largest in use. -/
def nextIndex (i : TxId) : Query Word := do
  let used := ((← items).filter fun q => q.request.tx.id = i).map fun q => q.index.val + 1
  let next := used.foldl max 0
  if h : next < 0x100000000 then return ⟨next, h⟩ else throw (.fault .addition)

end LiquidityNet.Queue
