import LiquidityNet.Message
import LiquidityNet.Network
import LiquidityNet.Outbound
import LiquidityNet.Pool
import LiquidityNet.Node
import LiquidityNet.Providers
import LiquidityNet.Vault

/-!
# Records

What the store keeps under its keys. Assets are kept as texts, so a value comes back as it went in
only if its assets' texts can be read; otherwise the record is unreadable.
-/

namespace LiquidityNet

structure KeygenBlock where
  height : Height
  groups : List (List PublicKey)
  deriving DecidableEq

inductive Record where
  | amount (value : Amount)
  | number (value : Signed)
  | pool (value : Pool)
  | node (value : Node)
  | providers (value : Providers)
  | jail (value : Jail)
  | vault (value : Vault)
  | network (value : Network)
  | attestation (value : Attestation)
  | outbounds (value : OutboundBatch)
  | keygen (value : KeygenBlock)
  | swap (value : SwapRequest)
  deriving DecidableEq

class Recordable (α : Type) where
  toRecord : α → Record
  ofRecord? : Record → Option α

export Recordable (toRecord ofRecord?)

instance : Recordable Amount := ⟨.amount, fun | .amount v => some v | _ => none⟩

instance : Recordable Signed := ⟨.number, fun | .number v => some v | _ => none⟩

instance : Recordable Pool := ⟨.pool, fun | .pool v => v.reread? | _ => none⟩

instance : Recordable Node := ⟨.node, fun | .node v => some v | _ => none⟩

instance : Recordable Providers := ⟨.providers, fun | .providers v => some v | _ => none⟩

instance : Recordable Jail := ⟨.jail, fun | .jail v => some v | _ => none⟩

instance : Recordable Vault := ⟨.vault, fun | .vault v => v.reread? | _ => none⟩

instance : Recordable Network := ⟨.network, fun | .network v => some v | _ => none⟩

instance : Recordable Attestation :=
  ⟨.attestation, fun | .attestation v => v.reread? | _ => none⟩

instance : Recordable OutboundBatch := ⟨.outbounds, fun | .outbounds v => v.reread? | _ => none⟩

instance : Recordable KeygenBlock := ⟨.keygen, fun | .keygen v => some v | _ => none⟩

instance : Recordable SwapRequest := ⟨.swap, fun | .swap v => v.reread? | _ => none⟩

end LiquidityNet
