import LiquidityNet.Amount
import LiquidityNet.Chain

/-!
# Settings

The numbers the protocol runs by. Each environment has its own; governance may put a number of its
own, a mimir, over each of them under the same name.
-/

namespace LiquidityNet

inductive Environment where
  | mainnet
  | mocknet
  deriving DecidableEq, Repr

def Environment.name : Environment → String
  | mainnet => "mainnet"
  | mocknet => "mocknet"

inductive Setting where
  | minimumNodesForBFT
  | desiredValidatorSet
  | asgardSize
  | churnInterval
  | churnRetryInterval
  | badValidatorRedline
  | minSlashPointsForBadValidator
  | maxNodeToChurnOutForBadActors
  | maxNodeToChurnOutForLowVersion
  | churnOutForLowVersionBlocks
  | numberOfNewNodesPerChurn
  | signingTransactionPeriod
  | minimumBondInRune
  | slashPenalty
  | nodeOperatorFee
  | minSwapsPerBlock
  | maxSwapsPerBlock
  | virtualMultSynthsBasisPoints
  | artificialRagnarokBlockHeight
  | outboundTransactionFee
  | nativeTransactionFee
  deriving DecidableEq, Repr

namespace Setting

def all : List Setting :=
  [minimumNodesForBFT, desiredValidatorSet, asgardSize, churnInterval, churnRetryInterval,
    badValidatorRedline, minSlashPointsForBadValidator, maxNodeToChurnOutForBadActors,
    maxNodeToChurnOutForLowVersion, churnOutForLowVersionBlocks, numberOfNewNodesPerChurn,
    signingTransactionPeriod, minimumBondInRune, slashPenalty, nodeOperatorFee, minSwapsPerBlock,
    maxSwapsPerBlock, virtualMultSynthsBasisPoints, artificialRagnarokBlockHeight,
    outboundTransactionFee, nativeTransactionFee]

def name : Setting → String
  | minimumNodesForBFT => "MinimumNodesForBFT"
  | desiredValidatorSet => "DesiredValidatorSet"
  | asgardSize => "AsgardSize"
  | churnInterval => "ChurnInterval"
  | churnRetryInterval => "ChurnRetryInterval"
  | badValidatorRedline => "BadValidatorRedline"
  | minSlashPointsForBadValidator => "MinSlashPointsForBadValidator"
  | maxNodeToChurnOutForBadActors => "MaxNodeToChurnOutForBadActors"
  | maxNodeToChurnOutForLowVersion => "MaxNodeToChurnOutForLowVersion"
  | churnOutForLowVersionBlocks => "ChurnOutForLowVersionBlocks"
  | numberOfNewNodesPerChurn => "NumberOfNewNodesPerChurn"
  | signingTransactionPeriod => "SigningTransactionPeriod"
  | minimumBondInRune => "MinimumBondInRune"
  | slashPenalty => "SlashPenalty"
  | nodeOperatorFee => "NodeOperatorFee"
  | minSwapsPerBlock => "MinSwapsPerBlock"
  | maxSwapsPerBlock => "MaxSwapsPerBlock"
  | virtualMultSynthsBasisPoints => "VirtualMultSynthsBasisPoints"
  | artificialRagnarokBlockHeight => "ArtificialRagnarokBlockHeight"
  | outboundTransactionFee => "OutboundTransactionFee"
  | nativeTransactionFee => "NativeTransactionFee"

def named? (s : String) : Option Setting := all.find? fun x => x.name == s

def onMainnet : Setting → Int
  | minimumNodesForBFT => 4
  | desiredValidatorSet => 100
  | asgardSize => 40
  | churnInterval => 43200
  | churnRetryInterval => 720
  | badValidatorRedline => 3
  | minSlashPointsForBadValidator => 100
  | maxNodeToChurnOutForBadActors => 3
  | maxNodeToChurnOutForLowVersion => 1
  | churnOutForLowVersionBlocks => 21600
  | numberOfNewNodesPerChurn => 1
  | signingTransactionPeriod => 300
  | minimumBondInRune => 100000000000000
  | slashPenalty => 15000
  | nodeOperatorFee => 500
  | minSwapsPerBlock => 10
  | maxSwapsPerBlock => 100
  | virtualMultSynthsBasisPoints => 10000
  | artificialRagnarokBlockHeight => 0
  | outboundTransactionFee => 2000000
  | nativeTransactionFee => 2000000

def onMocknet : Setting → Int
  | churnInterval => 60
  | churnRetryInterval => 30
  | desiredValidatorSet => 12
  | minimumBondInRune => 100000000
  | asgardSize => 6
  | virtualMultSynthsBasisPoints => 20000
  | s => onMainnet s

end Setting

structure Settings where
  environment : Environment
  value : Setting → Signed

namespace Settings

def ofEnvironment : Environment → Settings
  | .mainnet => ⟨.mainnet, fun s => .clamp s.onMainnet⟩
  | .mocknet => ⟨.mocknet, fun s => .clamp s.onMocknet⟩

def set (c : Settings) (s : Setting) (value : Signed) : Settings :=
  { c with value := fun t => if t = s then value else c.value t }

end Settings

/-! Governance also goes by names that are no settings. -/
namespace Mimir

def burnSynths : String := "BurnSynths"

def mintSynths : String := "MintSynths"

def haltChain (c : Chain) : String := "Halt" ++ c.name ++ "Chain"

end Mimir

end LiquidityNet
