import LiquidityNet.Amount
import LiquidityNet.Chain

/-!
# Addresses, keys, transaction ids and versions

Plain texts with a meaning of their own. None of them is checked when it is read from a record; a
check is made where the text is used.
-/

namespace LiquidityNet

structure Address where
  text : String
  deriving DecidableEq

namespace Address

instance : Inhabited Address := ⟨⟨""⟩⟩

/-- The destination that keeps the output of a swap on the home chain. -/
def noop : Address := ⟨"noop"⟩

def isEmpty (a : Address) : Bool := Text.isEmpty a.text

def isNoop (a : Address) : Bool := a == noop

def isOn (a : Address) (c : Chain) : Bool := !a.isEmpty && Text.beginsWith c.addressStart a.text

def ofModule (name : String) : Address := ⟨Chain.thor.addressStart ++ name⟩

end Address

/-! Modules hold funds on the home chain under fixed names. -/
namespace Module

/-- Holds the funds of the pools. -/
def asgard : String := "asgard"

/-- Holds the bonds of the nodes. -/
def bond : String := "bond"

/-- Holds the protocol's reserve. -/
def reserve : String := "reserve"

/-- Mints and burns. -/
def thorchain : String := "thorchain"

end Module

structure PublicKey where
  text : String
  deriving DecidableEq

namespace PublicKey

instance : Inhabited PublicKey := ⟨⟨""⟩⟩

def isEmpty (k : PublicKey) : Bool := k.text == ""

end PublicKey

/-- The id of a transaction, 32 octets in upper-case hexadecimal digits. -/
structure TxId where
  text : String
  deriving DecidableEq

namespace TxId

instance : Inhabited TxId := ⟨⟨""⟩⟩

def blank : TxId := ⟨String.ofList (List.replicate 64 '0')⟩

def isEmpty (i : TxId) : Bool := i.text == ""

def isBlank (i : TxId) : Bool := i.text.toList.all (· == '0')

end TxId

structure Version where
  major : Amount
  minor : Amount
  patch : Amount
  deriving DecidableEq

namespace Version

instance : Inhabited Version := ⟨⟨0, 0, 0⟩⟩

def text (v : Version) : String := v.major.text ++ "." ++ v.minor.text ++ "." ++ v.patch.text

instance : LE Version :=
  ⟨fun v w => v.major < w.major ∨ (v.major = w.major ∧
    (v.minor < w.minor ∨ (v.minor = w.minor ∧ v.patch ≤ w.patch)))⟩

instance (v w : Version) : Decidable (v ≤ w) :=
  inferInstanceAs (Decidable (v.major < w.major ∨ (v.major = w.major ∧
    (v.minor < w.minor ∨ (v.minor = w.minor ∧ v.patch ≤ w.patch)))))

instance : LT Version := ⟨fun v w => ¬ w ≤ v⟩

instance (v w : Version) : Decidable (v < w) := inferInstanceAs (Decidable (¬ w ≤ v))

end Version

end LiquidityNet
