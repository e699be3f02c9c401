import LiquidityNet.Amount
import LiquidityNet.Application
import LiquidityNet.Asset.Basic
import LiquidityNet.Asset.Parse
import LiquidityNet.Bond.Deposit
import LiquidityNet.Bond.Reward
import LiquidityNet.Bond.Withdrawal
import LiquidityNet.Chain
import LiquidityNet.Coin
import LiquidityNet.Config
import LiquidityNet.Dispatch
import LiquidityNet.Error
import LiquidityNet.Event
import LiquidityNet.Fixture
import LiquidityNet.Genesis
import LiquidityNet.Identity
import LiquidityNet.Identity.Parse
import LiquidityNet.Json.Basic
import LiquidityNet.Json.Fields
import LiquidityNet.Json.Reader
import LiquidityNet.Json.Writer
import LiquidityNet.Ledger.Bank
import LiquidityNet.Ledger.Basic
import LiquidityNet.Ledger.Key
import LiquidityNet.Ledger.Payout
import LiquidityNet.Ledger.Tables
import LiquidityNet.Message
import LiquidityNet.Network
import LiquidityNet.Node
import LiquidityNet.Outbound
import LiquidityNet.Pool
import LiquidityNet.Proofs.Action.Completion
import LiquidityNet.Proofs.Action.Confinement
import LiquidityNet.Proofs.Action.Equations
import LiquidityNet.Proofs.Action.Invariance
import LiquidityNet.Proofs.Application.Blocks
import LiquidityNet.Proofs.Application.Calls
import LiquidityNet.Proofs.Application.Completeness
import LiquidityNet.Proofs.Application.Completion
import LiquidityNet.Proofs.Application.Consensus
import LiquidityNet.Proofs.Application.Filing
import LiquidityNet.Proofs.Application.Latch
import LiquidityNet.Proofs.Asset.Grammar
import LiquidityNet.Proofs.Asset.Reading
import LiquidityNet.Proofs.Bank.Accounts
import LiquidityNet.Proofs.Bank.Conservation
import LiquidityNet.Proofs.Bond.Admission
import LiquidityNet.Proofs.Bond.Alignment
import LiquidityNet.Proofs.Bond.Authority
import LiquidityNet.Proofs.Bond.Backing
import LiquidityNet.Proofs.Bond.Completion
import LiquidityNet.Proofs.Bond.Funding
import LiquidityNet.Proofs.Bond.Payback
import LiquidityNet.Proofs.Bond.Payouts
import LiquidityNet.Proofs.Bond.Rewards
import LiquidityNet.Proofs.Bond.Shares
import LiquidityNet.Proofs.Bond.Solvency
import LiquidityNet.Proofs.Bond.Upkeep
import LiquidityNet.Proofs.Bond.Writes
import LiquidityNet.Proofs.Dispatch.Atomicity
import LiquidityNet.Proofs.Dispatch.Requests
import LiquidityNet.Proofs.Dispatch.Returns
import LiquidityNet.Proofs.Ledger.Catalogue
import LiquidityNet.Proofs.Ledger.Completion
import LiquidityNet.Proofs.Ledger.Funds
import LiquidityNet.Proofs.Ledger.Nodes
import LiquidityNet.Proofs.Ledger.Reading
import LiquidityNet.Proofs.Ledger.Reservations
import LiquidityNet.Proofs.Ledger.Room
import LiquidityNet.Proofs.Ledger.Settlement
import LiquidityNet.Proofs.Ledger.Traces
import LiquidityNet.Proofs.Ledger.Writes
import LiquidityNet.Proofs.Queue.Batches
import LiquidityNet.Proofs.Queue.Completion
import LiquidityNet.Proofs.Queue.Conservation
import LiquidityNet.Proofs.Queue.Contents
import LiquidityNet.Proofs.Queue.Exhaustion
import LiquidityNet.Proofs.Queue.Order
import LiquidityNet.Proofs.Queue.Rating
import LiquidityNet.Proofs.Queue.Refunds
import LiquidityNet.Proofs.Share.Quotients
import LiquidityNet.Proofs.Share.Rounding
import LiquidityNet.Proofs.Store.Growth
import LiquidityNet.Proofs.Store.Maps
import LiquidityNet.Proofs.Store.Snapshots
import LiquidityNet.Proofs.Store.Views
import LiquidityNet.Proofs.Swap.Accounts
import LiquidityNet.Proofs.Swap.Delivery
import LiquidityNet.Proofs.Swap.Formulas
import LiquidityNet.Proofs.Swap.Hops
import LiquidityNet.Proofs.Swap.Inflow
import LiquidityNet.Proofs.Swap.Product
import LiquidityNet.Proofs.Swap.Redemption
import LiquidityNet.Proofs.Swap.Reserves
import LiquidityNet.Proofs.Swap.Synths
import LiquidityNet.Proofs.Swap.Writes
import LiquidityNet.Proofs.Validators.BondReturns
import LiquidityNet.Proofs.Validators.Completion
import LiquidityNet.Proofs.Validators.Engine
import LiquidityNet.Proofs.Validators.Gates
import LiquidityNet.Proofs.Validators.Groups
import LiquidityNet.Proofs.Validators.Memberships
import LiquidityNet.Proofs.Validators.Oversight
import LiquidityNet.Proofs.Validators.Readiness
import LiquidityNet.Proofs.Validators.Roster
import LiquidityNet.Proofs.Validators.Schedule
import LiquidityNet.Proofs.Validators.Seats
import LiquidityNet.Proofs.Validators.Selection
import LiquidityNet.Proofs.Validators.Shutdown
import LiquidityNet.Proofs.Validators.Standing
import LiquidityNet.Proofs.Validators.Turnover
import LiquidityNet.Proofs.Validators.Unwinding
import LiquidityNet.Proofs.Validators.Versions
import LiquidityNet.Proofs.Validators.Views
import LiquidityNet.Proofs.Validators.Writes
import LiquidityNet.Providers
import LiquidityNet.Record
import LiquidityNet.Settings
import LiquidityNet.Share
import LiquidityNet.Store.Changes
import LiquidityNet.Store.Layered
import LiquidityNet.Store.SortedMap
import LiquidityNet.Swap.Execution
import LiquidityNet.Swap.Formula
import LiquidityNet.Swap.Hop
import LiquidityNet.Swap.Queue
import LiquidityNet.Swap.Refund
import LiquidityNet.Text.Basic
import LiquidityNet.Text.Digest
import LiquidityNet.Text.Hex
import LiquidityNet.Text.InternetAddress
import LiquidityNet.Transaction
import LiquidityNet.Validators.Churn
import LiquidityNet.Validators.Marking
import LiquidityNet.Validators.Ragnarok
import LiquidityNet.Validators.Recall
import LiquidityNet.Validators.Rotation
import LiquidityNet.Vault
import LiquidityNet.Wire.Basic
import LiquidityNet.Wire.Event
import LiquidityNet.Wire.Genesis
import LiquidityNet.Wire.Record
import LiquidityNet.Wire.Transaction
