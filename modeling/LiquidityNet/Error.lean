import LiquidityNet.Coin
import LiquidityNet.Identity
import LiquidityNet.Text.Hex

/-!
# Errors

An `Error` states the cause of a refusal. Its `Kind` fixes the identifier and the numeric code
under which it is reported, and `Error.message` is its wording. A `Failure` is a refusal or a
fault of arithmetic: a refusal can be caught and answered, a fault ends the message it occurs in.
-/

namespace LiquidityNet

inductive Kind where
  | invalidAddress
  | unknownRequest
  | unauthorized
  | conflict
  | internal
  | swapFailed
  | priceLimit
  | feeNotCovered
  | balanceTooLow
  | invalidAmount
  | invalidBalance
  | outboundFailed
  | outboundBelowMinimum
  | feeExceedsCoin
  | fundsToReturn
  | store
  | serialization
  deriving DecidableEq, Repr

namespace Kind

def tag : Kind → String
  | invalidAddress => "invalid_address"
  | unknownRequest => "unknown_request"
  | unauthorized => "unauthorized"
  | conflict => "conflict"
  | internal => "internal"
  | swapFailed | priceLimit => "swap_fail"
  | feeNotCovered => "swap_fail_not_enough_fee"
  | balanceTooLow => "swap_fail_not_enough_balance"
  | invalidAmount => "swap_fail_invalid_amount"
  | invalidBalance => "swap_fail_invalid_balance"
  | outboundFailed | outboundBelowMinimum => "fail_add_outbound_tx"
  | feeExceedsCoin => "not_enough_to_pay_fee"
  | fundsToReturn => "return_yggdrasil"
  | store => "store"
  | serialization => "serialization"

def code : Kind → Nat
  | unauthorized => 4
  | unknownRequest => 6
  | invalidAddress => 7
  | conflict => 36
  | internal | store | serialization => 99
  | swapFailed | priceLimit => 108
  | feeNotCovered => 110
  | invalidAmount => 113
  | invalidBalance => 114
  | balanceTooLow => 115
  | outboundFailed | outboundBelowMinimum => 131
  | feeExceedsCoin => 133
  | fundsToReturn => 145

/-- Whether an error of the kind leaves the pools untouched, so that a swap can be refunded. -/
def isSwapFailure : Kind → Bool
  | swapFailed | priceLimit | feeNotCovered | balanceTooLow | invalidAmount | invalidBalance
  | outboundFailed | outboundBelowMinimum | feeExceedsCoin => true
  | _ => false

def heading : Kind → String
  | invalidAddress => "Invalid address: "
  | unknownRequest => "Unknown request: "
  | unauthorized => "Unauthorized: "
  | conflict => "Conflict: "
  | internal => "Internal error: "
  | swapFailed => "fail swap: "
  | feeNotCovered => "fail swap, not enough fee: "
  | balanceTooLow => "fail swap, not enough balance: "
  | invalidAmount => "fail swap, invalid amount: "
  | invalidBalance => "fail swap, invalid balance: "
  | outboundFailed => "prepare outbound tx not successful: "
  | store => "Store error: "
  | serialization => "Serialization error: "
  | priceLimit | outboundBelowMinimum | feeExceedsCoin | fundsToReturn => ""

end Kind

inductive Error where
  -- addresses and keys
  | malformedKey (key : String) (flaw : Hex.Flaw)
  | noSender
  | noRecipient
  | noDestination
  | noSigner
  | noNodeAddress
  | noBondAddress
  | unnamedNode
  | unownedNode
  -- texts and messages
  | unknownChain (name : String)
  | malformedAsset (text : String)
  | malformedTxId (id : String) (flaw : Hex.Flaw)
  | misfitTxId (id : String) (octets : Nat)
  | malformedVersion (part text : String)
  | noTxId
  | noChain
  | noCoins
  | memoTooLong (limit : Nat)
  | severalCoins
  | nothingToUnbond
  | operatorFeeTooHigh (fee : Amount)
  -- nodes and bonds
  | unknownNodeStatus
  | foreignBondAddress (address : Address)
  | bondWhileReady
  | feeNotByOperator
  | feeWhileBacked
  | notAProvider
  | onlyProvidersWhileActive
  | whitelistNotByOperator
  | noSuchNode (node : Address)
  | unbondWhileActive
  | notAuthorized (address node : Address)
  | jailed (release : Height) (reason : String)
  | stillRetiring
  | noOperatorProvider (node : Address)
  | fundsToReturn
  -- bank
  | insufficientFunds (owner : Address) (need held : Amount) (asset : Asset)
  | cannotBurn (coin : Coin) (module : String) (held : Amount)
  -- vaults and outbounds
  | noAsgardVault
  | noActiveVault
  | feeExceedsCoin
  | outboundBelowMinimum (net least : Amount)
  | noVaultFor (amount : Amount) (asset : Asset)
  | bondPayoutUnsigned
  | bondPayoutFailed (cause : Error)
  -- swaps
  | noTarget
  | noSwapDestination
  | synthBurnsHalted
  | synthMintsHalted
  | foreignDestination (chain : Chain)
  | sameAsset (source target : Asset)
  | noPool (asset : Asset)
  | vaultPool (asset : Asset)
  | poolClosed (asset : Asset)
  | runeBelowFee (amount fee : Amount)
  | zeroAmount
  | emptySide (asset : Asset)
  | depthExceeded (emitted depth : Amount)
  | priceLimit (emitted limit : Amount)
  | outputBelowFee (emitted : Amount)
  | zeroOutput
  | swapOutboundFailed (cause : Error)
  -- store and dispatcher
  | commitWithoutCheckpoint
  | rollbackWithoutCheckpoint
  | unreadableRecord
  | handlerFault (handler : String) (fault : Fault)
  /-- An error of a kind in the words of a caller. -/
  | stated (kind : Kind) (text : String)

namespace Error

def kind : Error → Kind
  | malformedKey .. | noSender | noRecipient | noDestination | noSigner | noNodeAddress
  | noBondAddress | unnamedNode | unownedNode => .invalidAddress
  | unknownChain _ | malformedAsset _ | malformedTxId .. | misfitTxId .. | malformedVersion ..
  | noTxId | noChain | noCoins | memoTooLong _ | severalCoins | nothingToUnbond
  | operatorFeeTooHigh _ | unknownNodeStatus | foreignBondAddress _ | bondWhileReady
  | feeNotByOperator | feeWhileBacked | notAProvider | onlyProvidersWhileActive | noSuchNode _
  | unbondWhileActive | jailed .. => .unknownRequest
  | whitelistNotByOperator | notAuthorized .. => .unauthorized
  | stillRetiring => .conflict
  | noOperatorProvider _ | insufficientFunds .. | cannotBurn .. | noAsgardVault | noActiveVault
  | vaultPool _ | swapOutboundFailed _ | handlerFault .. => .internal
  | noTarget | noSwapDestination | synthBurnsHalted | synthMintsHalted | foreignDestination _
  | sameAsset .. | noPool _ | poolClosed _ | outputBelowFee _ | zeroOutput => .swapFailed
  | priceLimit .. => .priceLimit
  | runeBelowFee .. => .feeNotCovered
  | zeroAmount => .invalidAmount
  | emptySide _ => .invalidBalance
  | depthExceeded .. => .balanceTooLow
  | noVaultFor .. | bondPayoutUnsigned | bondPayoutFailed _ => .outboundFailed
  | outboundBelowMinimum .. => .outboundBelowMinimum
  | feeExceedsCoin => .feeExceedsCoin
  | fundsToReturn => .fundsToReturn
  | commitWithoutCheckpoint | rollbackWithoutCheckpoint => .store
  | unreadableRecord => .serialization
  | stated kind _ => kind

def detail : Error → String
  | malformedKey key flaw => "invalid pubkey " ++ key ++ ": " ++ flaw.text
  | noSender => "from address cannot be empty"
  | noRecipient => "to address cannot be empty"
  | noDestination => "swap destination cannot be empty"
  | noSigner => "signer cannot be empty"
  | noNodeAddress => "node address cannot be empty"
  | noBondAddress => "bond address cannot be empty"
  | unnamedNode => "node address is empty"
  | unownedNode => "bond address is empty"
  | unknownChain name => "unknown chain: " ++ name
  | malformedAsset text => "invalid asset: " ++ text
  | malformedTxId id flaw => "invalid tx id " ++ id ++ ": " ++ flaw.text
  | misfitTxId id octets =>
    "invalid tx id " ++ id ++ ": expected 32 bytes, got " ++ toString octets
  | malformedVersion part text => "invalid " ++ part ++ " in version " ++ text
  | noTxId => "tx id cannot be empty"
  | noChain => "chain cannot be empty"
  | noCoins => "coins cannot be empty"
  | memoTooLong limit => "memo must not exceed " ++ toString limit ++ " bytes"
  | severalCoins => "swap only accepts one coin"
  | nothingToUnbond => "unbond amount cannot be zero"
  | operatorFeeTooHigh fee => "operator fee " ++ fee.text ++ " exceeds 10000"
  | unknownNodeStatus => "node status cannot be unknown"
  | foreignBondAddress address => "bonding address is NOT a THORChain address: " ++ address.text
  | bondWhileReady => "cannot add bond while node is ready status"
  | feeNotByOperator => "only node operator can set fee"
  | feeWhileBacked => "cannot change operator fee while other providers are bonded"
  | notAProvider => "bond address is not valid for node account"
  | onlyProvidersWhileActive => "active node only accepts bond from its providers"
  | whitelistNotByOperator => "only the node operator can whitelist bond providers"
  | noSuchNode node => "fail to get node account(" ++ node.text ++ ")"
  | unbondWhileActive => "cannot unbond while node is in active status"
  | notAuthorized address node =>
    address.text ++ " are not authorized to manage " ++ node.text
  | jailed release reason =>
    "failed to unbond due to jail status: (release height " ++ release.text ++ ") " ++ reason
  | stillRetiring => "fail to unbond, still part of the retiring vault"
  | noOperatorProvider node => "node " ++ node.text ++ " has no operator bond provider"
  | fundsToReturn => "yggdrasil vault still holds funds, return requested"
  | insufficientFunds owner need held asset =>
    "insufficient funds in " ++ owner.text ++ ": need " ++ need.text ++ ", have " ++ held.text ++
      " " ++ asset.text
  | cannotBurn coin module held =>
    "cannot burn " ++ coin.text ++ " from " ++ module ++ ": balance " ++ held.text
  | noAsgardVault => "unable to determine asgard vault"
  | noActiveVault => "no active vault"
  | feeExceedsCoin => "not enough asset to pay for fees"
  | outboundBelowMinimum net least =>
    "outbound amount does not meet requirements (" ++ net.text ++ "/" ++ least.text ++ ")"
  | noVaultFor amount asset => "no vault can send " ++ amount.text ++ " " ++ asset.text
  | bondPayoutUnsigned => "fail to add outbound tx: no vault available"
  | bondPayoutFailed cause => "fail to add outbound tx: " ++ cause.kind.heading ++ cause.detail
  | noTarget => "target is empty"
  | noSwapDestination => "destination is empty"
  | synthBurnsHalted => "burning synthetics has been disabled"
  | synthMintsHalted => "minting synthetics has been disabled"
  | foreignDestination chain => "destination address is not a valid " ++ chain.name ++ " address"
  | sameAsset source target =>
    "cannot swap from " ++ source.text ++ " --> " ++ target.text ++ ", assets match"
  | noPool asset => "pool " ++ asset.text ++ " doesn't exist"
  | vaultPool asset => "dev error: swapping with a vault(" ++ asset.text ++ ") is not allowed"
  | poolClosed asset => "pool(" ++ asset.text ++ ") is not available"
  | runeBelowFee amount fee => amount.text ++ " RUNE cannot cover fee " ++ fee.text
  | zeroAmount => "amount is invalid"
  | emptySide asset => "pool " ++ asset.text ++ " has an empty side"
  | depthExceeded emitted depth =>
    "emit " ++ emitted.text ++ " exceeds pool depth " ++ depth.text
  | priceLimit emitted limit =>
    "emit asset " ++ emitted.text ++ " less than price limit " ++ limit.text
  | outputBelowFee emitted =>
    "output RUNE (" ++ emitted.text ++ ") is not enough to pay transaction fee"
  | zeroOutput => "zero emit asset"
  | swapOutboundFailed cause => "fail to add outbound tx: " ++ cause.kind.heading ++ cause.detail
  | commitWithoutCheckpoint => "commit without checkpoint"
  | rollbackWithoutCheckpoint => "rollback without checkpoint"
  | unreadableRecord => ""
  | handlerFault handler fault => "panic in " ++ handler ++ " handler: " ++ fault.text
  | stated _ text => text

def message (e : Error) : String := e.kind.heading ++ e.detail

end Error

/-- Why an operation did not complete. -/
inductive Failure where
  | refused (error : Error)
  | fault (fault : Fault)

end LiquidityNet
