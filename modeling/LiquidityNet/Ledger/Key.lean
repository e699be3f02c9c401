import LiquidityNet.Asset.Basic
import LiquidityNet.Identity

/-!
# Keys

The keys under which the store keeps its records. Each kind of record has a beginning of its own,
and lists come in the order of their keys.
-/

namespace LiquidityNet.Key

def poolStart : String := "pool/"

def nodeStart : String := "node/"

def vaultStart : String := "vault/"

def swapStart : String := "swap-queue/"

def pool (a : Asset) : String := poolStart ++ a.text

def poolFees (a : Asset) : String := "pool-fees/" ++ a.text

def poolSlip (a : Asset) : String := "pool-slip/" ++ a.text

def node (a : Address) : String := nodeStart ++ a.text

def vault (k : PublicKey) : String := vaultStart ++ k.text

def jail (a : Address) : String := "jail/" ++ a.text

def providers (a : Address) : String := "bp/" ++ a.text

def mimir (name : String) : String := "mimir/" ++ name

def network : String := "network"

def slash (a : Address) : String := "slash/" ++ a.text

def attestation (i : TxId) : String := "observed-txin/" ++ i.text

/-- Heights are padded with zeros, so that the keys of later heights come later. -/
def outbounds (h : Height) : String := "txout/" ++ Text.padded 20 h.val

def keygen (h : Height) : String := "keygen/" ++ Text.padded 20 h.val

def swap (i : TxId) (index : Word) : String :=
  swapStart ++ i.text ++ "-" ++ toString index.val

def balance (owner : Address) (a : Asset) : String := "balance/" ++ owner.text ++ "/" ++ a.text

def supply (a : Asset) : String := "supply/" ++ a.text

/-- The index at the end of the key of a queued swap. -/
def swapIndex? (key : String) : Option Word :=
  let tail := (key.toList.reverse.takeWhile (· != '-')).reverse
  (Text.signedNat? tail).bind fun n => if h : n < 0x100000000 then some ⟨n, h⟩ else none

end LiquidityNet.Key
