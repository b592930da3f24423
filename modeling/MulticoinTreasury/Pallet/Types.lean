import MulticoinTreasury.Library.Permill
import MulticoinTreasury.Pallet.Currency

/-!
# Data of the pallet

The types of `pallets/template/src/lib.rs`: the configuration trait, proposals and their actions,
the events and errors, and the storage. Numbers have the widths of the runtime: balances and vault
amounts are `u128`, block numbers, proposal ids and karma are `u32`. The words `end`, `from`, `to`
and `for` of the source are reserved in Lean; they read `endBlock`, `fromCoin`, `toCoin` and
`forVote` here.
-/

set_option autoImplicit false

namespace MulticoinTreasury

abbrev ProposalId : Type := U32

abbrev BlockNumber : Type := U32

/-- A list whose length is at most `bound`. -/
structure BoundedVec (α : Type) (bound : U32) where
  items : List α
  length_le : items.length ≤ bound.val

/-- Conversion between bounds; `none` when the list is too long for the new one. -/
def BoundedVec.tryInto {α : Type} {m : U32} (n : U32) (v : BoundedVec α m) :
    Option (BoundedVec α n) :=
  if h : v.items.length ≤ n.val then some ⟨v.items, h⟩ else none

/-- The conversion to the same bound does not fail. -/
@[simp] theorem BoundedVec.tryInto_self {α : Type} {n : U32} (v : BoundedVec α n) :
    v.tryInto n = some v :=
  dif_pos v.length_le

inductive ProposalStatus where
  | active
  | approved
  | rejected
  | cancelled
  deriving DecidableEq, Repr

inductive VoteKind where
  | forVote
  | againstVote
  deriving DecidableEq, Repr

inductive Coin where
  | dot
  | kusama
  | usdc
  | centrifuge
  deriving DecidableEq, Repr

instance : Fintype Coin where
  elems := {.dot, .kusama, .usdc, .centrifuge}
  complete := by
    intro c
    cases c <;> decide

structure Swap where
  fromCoin : Coin
  toCoin : Coin
  amount : U128
  deriving DecidableEq, Repr

inductive Action where
  | swap (swap : Swap)
  deriving DecidableEq, Repr

/-- The configuration of the pallet. -/
structure Config (AccountId : Type) where
  maxTitleLen : U32
  maxDescriptionLen : U32
  minProposalDuration : U32
  maxProposalDuration : U32
  currency : Currency AccountId
  quorum : Permill
  approvalOfQuorum : Permill
  karmaUnit : Balance

variable {AccountId : Type}

structure Proposal (T : Config AccountId) where
  id : ProposalId
  author : AccountId
  title : BoundedVec UInt8 T.maxTitleLen
  description : BoundedVec UInt8 T.maxDescriptionLen
  start : BlockNumber
  endBlock : BlockNumber
  forVotes : Balance
  againstVotes : Balance
  status : ProposalStatus
  action : Action

inductive Event (AccountId : Type) where
  | proposalCreated (id : ProposalId) (author : AccountId)
  | proposalVoted (id : ProposalId) (voter : AccountId) (vote : VoteKind)
  | proposalFinalized (id : ProposalId) (status : ProposalStatus)
  | deposited (who : AccountId) (amount : Balance)
  | withdrawn (who : AccountId) (amount : Balance)
  | swapExecuted (fromCoin toCoin : Coin) (amount : U128) (proposalId : ProposalId)
  | vaultSeeded (coin : Coin) (amount : U128)
  deriving DecidableEq, Repr

inductive Error where
  | noneValue
  | storageOverflow
  | durationTooShort
  | durationTooLong
  | proposalNotFound
  | proposalNotActive
  | votingPeriodEnded
  | alreadyVoted
  | noDeposit
  | withdrawTooLarge
  | quorumNotMet
  | insufficientVaultBalance
  | invalidSwap
  deriving DecidableEq, Repr

/-- Why a dispatched call did not succeed: the origin was not signed, the pallet returned one of
its errors, the currency returned one of its own, or the code panicked. -/
inductive DispatchError (T : Config AccountId) where
  | badOrigin
  | module (error : Error)
  | currency (error : T.currency.Error)
  | panic

/-- Who dispatches a call. -/
inductive Origin (AccountId : Type) where
  | root
  | signed (who : AccountId)
  | none
  deriving DecidableEq, Repr

/-- The six dispatchable calls with their arguments. -/
inductive Call (T : Config AccountId) where
  | createProposal (title : BoundedVec UInt8 T.maxTitleLen)
      (description : BoundedVec UInt8 T.maxDescriptionLen) (duration : U32) (action : Action)
  | voteProposal (proposalId : ProposalId) (vote : VoteKind)
  | finalizeProposal (proposalId : ProposalId)
  | deposit (amount : Balance)
  | withdraw (amount : Balance)
  | seedVault (coin : Coin) (amount : U128)

/-- The storage of the pallet, together with the block number, the events deposited so far and the
ledger of the currency. A map with a default is a function. -/
structure State (T : Config AccountId) where
  blockNumber : BlockNumber
  events : List (Event AccountId)
  ledger : T.currency.Ledger
  proposals : ProposalId → Option (Proposal T)
  nextProposalId : ProposalId
  deposits : AccountId → Balance
  hasVoted : ProposalId → AccountId → Bool
  totalStake : Balance
  karma : AccountId → U32
  vault : Coin → U128

/-- The state before the first block: all storage of the pallet is empty. -/
def genesis (T : Config AccountId) (ledger : T.currency.Ledger) : State T where
  blockNumber := 0
  events := []
  ledger := ledger
  proposals := fun _ => none
  nextProposalId := 0
  deposits := fun _ => 0
  hasVoted := fun _ _ => false
  totalStake := 0
  karma := fun _ => 0
  vault := fun _ => 0

end MulticoinTreasury
