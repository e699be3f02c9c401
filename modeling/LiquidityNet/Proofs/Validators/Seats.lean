import LiquidityNet.Proofs.Validators.Views

/-!
# Seats

A node with a consensus key has a seat: the key, and whether the node is active. This is the view
of the nodes that the engine has. A ledger is seated if its nodes are complete and have given
seats.
-/

namespace LiquidityNet

open Ledger

structure Seat where
  key : String
  isActive : Bool

namespace Node

variable {m n : Node}

def seat? (n : Node) : Option Seat :=
  if n.consensusKey = "" then none else some ⟨n.consensusKey, n.isActive⟩

theorem seat?_congr (hkey : m.consensusKey = n.consensusKey) (hactive : m.isActive = n.isActive) :
    m.seat? = n.seat? := by
  unfold seat?
  rw [hkey, hactive]

theorem key_seat? (n : Node) :
    n.seat?.map Seat.key = if n.consensusKey = "" then none else some n.consensusKey := by
  unfold seat?
  split <;> rfl

theorem seat?_eq_some {seat : Seat} :
    n.seat? = some seat ↔
      seat.key ≠ "" ∧ n.consensusKey = seat.key ∧ n.isActive = seat.isActive := by
  unfold seat?
  constructor
  · intro h
    split at h
    · cases h
    · rename_i hkey
      cases h
      exact ⟨hkey, rfl, rfl⟩
  · rintro ⟨hkey, hown, hactive⟩
    rw [if_neg (hown ▸ hkey), hown, hactive]

end Node

/-- The seat is told of a node; where there is none, or it has no key, there is no seat. -/
def Seat.view : NodeView (Option Seat) := fun o => o.bind Node.seat?

namespace Seat

theorem view_ignoresMarks : view.IgnoresMarks := fun _ _ => rfl

theorem view_ignoresMoves : view.IgnoresMoves := by
  intro n status height hidle hstatus
  refine Node.seat?_congr (n.moveTo_consensusKey status height) ?_
  rw [hidle, Node.isActive_eq, Node.moveTo_status]
  exact beq_false_of_ne hstatus

theorem view_ignoresMessages : view.IgnoresMessages where
  bonds := fun _ _ => rfl
  moves := view_ignoresMoves
  newcomers := fun _ _ hkey => if_pos hkey

end Seat

/-- The seats of the nodes under their addresses. -/
abbrev Seats := Address → Option Seat

namespace Ledger

/-- The seat of the node that is stored under an address. -/
def seat? (s : Ledger) (a : Address) : Option Seat := Seat.view (s.nodeAt a)

abbrev Seated (v : Seats) : Ledger → Prop := Viewed Seat.view v

variable {s : Ledger} {n : Node}

theorem seat?_of_get? {a : Address} (h : s.get? (Key.node a) = some (.node n)) :
    s.seat? a = n.seat? :=
  congrArg Seat.view (nodeAt_of_get? h)

theorem NodesComplete.seated (hs : s.NodesComplete) : Seated s.seat? s := hs.viewed

theorem NodesComplete.seat?_eq_some (hs : s.NodesComplete) {a : Address} {seat : Seat} :
    s.seat? a = some seat ↔ ∃ n, n.address = a ∧ s.Stores n ∧ n.seat? = some seat := by
  constructor
  · intro h
    obtain ⟨n, hn, hseat⟩ := Option.bind_eq_some_iff.1 h
    obtain ⟨haddress, hstored⟩ := hs.nodeAt_eq_some.1 hn
    exact ⟨n, haddress, hstored, hseat⟩
  · rintro ⟨n, rfl, hn, h⟩
    exact (seat?_of_get? hn).trans h

end Ledger

end LiquidityNet
