import LiquidityNet.Store.SortedMap

/-!
# Changes between maps

What a later map has beside an earlier one. Together, the entries set and the keys erased turn the
earlier map into the later one.
-/

namespace LiquidityNet.SortedMap

variable {α : Type}

def entriesSet [DecidableEq α] (before after : SortedMap α) : List (String × α) :=
  after.entries.filter fun e => before.get? e.1 ≠ some e.2

def keysErased (before after : SortedMap α) : List String :=
  (before.entries.map (·.1)).filter fun k => (after.get? k).isNone

end LiquidityNet.SortedMap
