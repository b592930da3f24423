import MulticoinTreasury.Library.BoundedNat
import MulticoinTreasury.Library.Permill
import MulticoinTreasury.Library.StateError
import MulticoinTreasury.Library.Machine
import MulticoinTreasury.Library.Replay
import MulticoinTreasury.Library.PointUpdate
import MulticoinTreasury.Library.Interleaving
import MulticoinTreasury.Library.BallotBox
import MulticoinTreasury.Library.Book
import MulticoinTreasury.Pallet.Currency
import MulticoinTreasury.Pallet.Types
import MulticoinTreasury.Pallet.Calls
import MulticoinTreasury.Pallet.Transitions
import MulticoinTreasury.Pallet.System
import MulticoinTreasury.Pallet.Refusals
import MulticoinTreasury.Pallet.Finalization
import MulticoinTreasury.Pallet.ProposalStore
import MulticoinTreasury.Pallet.PlainLedger
import MulticoinTreasury.Runtime.Config
import MulticoinTreasury.Pallet.VotingWindow
import MulticoinTreasury.Pallet.Ballots
import MulticoinTreasury.Pallet.Threshold
import MulticoinTreasury.Pallet.VoteSplitting
import MulticoinTreasury.Pallet.Payout
import MulticoinTreasury.Pallet.Lifecycle
import MulticoinTreasury.Pallet.Karma
import MulticoinTreasury.Pallet.EventLog
import MulticoinTreasury.Pallet.Stakes
import MulticoinTreasury.Pallet.DoubleCounting
import MulticoinTreasury.Pallet.Support
import MulticoinTreasury.Pallet.VaultLedger
import MulticoinTreasury.Pallet.Effects
import MulticoinTreasury.Pallet.Reordering
import MulticoinTreasury.Pallet.Outsiders
import MulticoinTreasury.Library.Simulation
import MulticoinTreasury.Pallet.Dao
import MulticoinTreasury.Pallet.Budget
import MulticoinTreasury.Pallet.Refinement
import MulticoinTreasury.Runtime.Presets
import MulticoinTreasury.Library.CleanFailure
import MulticoinTreasury.Pallet.Rollback
import MulticoinTreasury.Library.Noninterference
import MulticoinTreasury.Pallet.Isolation
import MulticoinTreasury.Pallet.Audit
import MulticoinTreasury.Pallet.Stability
import MulticoinTreasury.Pallet.Liveness
import MulticoinTreasury.Pallet.Errors
import MulticoinTreasury.Pallet.SoloGovernance
import MulticoinTreasury.Pallet.KarmaFarming
import MulticoinTreasury.Library.Archive
import MulticoinTreasury.Pallet.BlockEvents
import MulticoinTreasury.Frontend.Profile
import MulticoinTreasury.Frontend.Actions
import MulticoinTreasury.Frontend.ProposalList
import MulticoinTreasury.Pallet.LightClient
import MulticoinTreasury.Library.Rounding
import MulticoinTreasury.Library.InsertionMap
import MulticoinTreasury.Frontend.Portfolio
import MulticoinTreasury.Pallet.Monotonicity
import MulticoinTreasury.Pallet.Renaming
