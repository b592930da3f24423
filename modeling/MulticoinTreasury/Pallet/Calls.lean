import MulticoinTreasury.Library.StateError
import MulticoinTreasury.Pallet.Types

/-!
# The dispatchable calls

The six calls of the pallet as programs over its storage, statement by statement. A program keeps
what it wrote before an error; `dispatch` runs a call as the storage layer does, which undoes the
writes of a call that returns an error. An operation that would panic in the source (a subtraction
below zero, `unwrap` on `None`) ends in the error `panic`.
-/

set_option autoImplicit false

namespace MulticoinTreasury

open StateError

variable {AccountId : Type} (T : Config AccountId)

abbrev DispatchM : Type → Type := EStateM (DispatchError T) (State T)

variable {T}

def ensureSigned (origin : Origin AccountId) : DispatchM T AccountId :=
  match origin with
  | .signed who => pure who
  | .root => throw .badOrigin
  | .none => throw .badOrigin

/-- The event log with further events; events are not recorded in the genesis block. -/
def State.record (s : State T) (es : List (Event AccountId)) : List (Event AccountId) :=
  if s.blockNumber = 0 then s.events else s.events ++ es

def depositEvent (e : Event AccountId) : DispatchM T PUnit :=
  modify fun s => { s with events := s.record [e] }

/-- The weight of an account's vote: its stake plus `KarmaUnit` for each karma point. -/
def voteWeight (s : State T) (who : AccountId) : Balance :=
  let stake := s.deposits who
  let karmaPts : Balance := (s.karma who).widen (by decide)
  let karmaWeight := T.karmaUnit.saturatingMul karmaPts
  stake.saturatingAdd karmaWeight

variable [DecidableEq AccountId]

def createProposal (origin : Origin AccountId) (title : BoundedVec UInt8 T.maxTitleLen)
    (description : BoundedVec UInt8 T.maxDescriptionLen) (duration : U32) (action : Action) :
    DispatchM T PUnit := do
  let who ← ensureSigned origin
  ensure (T.minProposalDuration ≤ duration) (.module .durationTooShort)
  ensure (duration ≤ T.maxProposalDuration) (.module .durationTooLong)
  -- the arguments have the bounds of the storage already, so these conversions never fail
  let titleB ← okOr (title.tryInto T.maxTitleLen) (.module .storageOverflow)
  let descB ← okOr (description.tryInto T.maxDescriptionLen) (.module .storageOverflow)
  let id := (← get).nextProposalId
  let now := (← get).blockNumber
  let endBlock := now.saturatingAdd duration
  let proposal : Proposal T :=
    { id := id, author := who, title := titleB, description := descB, start := now,
      endBlock := endBlock, forVotes := 0, againstVotes := 0, status := .active, action := action }
  modify fun s => { s with proposals := Function.update s.proposals id (some proposal) }
  -- the proposal is in storage already when the counter is checked
  let next ← okOr (id.checkedAdd (.clamp _ 1)) (.module .storageOverflow)
  modify fun s => { s with nextProposalId := next }
  depositEvent (.proposalCreated id who)

/-- A vote adds its weight to the tally, and then one. -/
def Proposal.addVote (p : Proposal T) (vote : VoteKind) (weight : Balance) : Proposal T :=
  let p := match vote with
    | .forVote => { p with forVotes := p.forVotes.saturatingAdd weight }
    | .againstVote => { p with againstVotes := p.againstVotes.saturatingAdd weight }
  match vote with
  | .forVote => { p with forVotes := p.forVotes.saturatingAdd (.clamp _ 1) }
  | .againstVote => { p with againstVotes := p.againstVotes.saturatingAdd (.clamp _ 1) }

/-- `Proposals::try_mutate`. -/
def tryMutateProposal (proposalId : ProposalId)
    (f : Option (Proposal T) → DispatchM T (Option (Proposal T))) : DispatchM T PUnit :=
  tryMutate (fun s => s.proposals proposalId)
    (fun v s => { s with proposals := Function.update s.proposals proposalId v }) f

def voteProposal (origin : Origin AccountId) (proposalId : ProposalId) (vote : VoteKind) :
    DispatchM T PUnit := do
  let who ← ensureSigned origin
  tryMutateProposal proposalId fun maybeProposal => do
    let proposal ← okOr maybeProposal (.module .proposalNotFound)
    ensure (proposal.status = .active) (.module .proposalNotActive)
    let now := (← get).blockNumber
    ensure (now ≤ proposal.endBlock) (.module .votingPeriodEnded)
    ensure ((← get).hasVoted proposalId who = false) (.module .alreadyVoted)
    -- stake and karma are read at this moment and are not locked afterwards
    let weight := voteWeight (← get) who
    ensure (weight ≠ 0) (.module .noDeposit)
    -- written before the mutated proposal, by the same closure
    modify fun s => { s with
      hasVoted := Function.update s.hasVoted proposalId
        (Function.update (s.hasVoted proposalId) who true) }
    pure (some (proposal.addVote vote weight))
  depositEvent (.proposalVoted proposalId who vote)

/-- The swap of an approved proposal, as executed inside `finalize_proposal`. -/
def executeSwap (proposalId : ProposalId) (swap : Swap) : DispatchM T PUnit := do
  ensure (swap.fromCoin ≠ swap.toCoin) (.module .invalidSwap)
  let fromBal := (← get).vault swap.fromCoin
  ensure (swap.amount ≤ fromBal) (.module .insufficientVaultBalance)
  -- a plain subtraction in the source, which panics below zero
  let rest ← okOr (fromBal.checkedSub swap.amount) .panic
  modify fun s => { s with vault := Function.update s.vault swap.fromCoin rest }
  -- the other side of the swap is clipped instead
  modify fun s => { s with
    vault := Function.update s.vault swap.toCoin
      ((s.vault swap.toCoin).saturatingAdd swap.amount) }
  depositEvent (.swapExecuted swap.fromCoin swap.toCoin swap.amount proposalId)

/-- The decision inside `finalize_proposal` on a proposal that has its quorum. -/
def settleProposal (proposalId : ProposalId) (proposal : Proposal T) :
    DispatchM T (Option (Proposal T)) := do
  let participation := proposal.forVotes.saturatingAdd proposal.againstVotes
  let neededFor := T.approvalOfQuorum.mulFloor participation
  if neededFor ≤ proposal.forVotes then
    -- the status is set before the swap is checked; an error drops the mutated proposal
    let proposal := { proposal with status := .approved }
    match proposal.action with
    | .swap swap => executeSwap proposalId swap
    let author := proposal.author
    modify fun s => { s with
      karma := Function.update s.karma author ((s.karma author).saturatingAdd (.clamp _ 1)) }
    pure (some { proposal with status := .approved })
  else
    pure (some { proposal with status := .rejected })

def finalizeProposal (origin : Origin AccountId) (proposalId : ProposalId) :
    DispatchM T PUnit := do
  let _who ← ensureSigned origin
  tryMutateProposal proposalId fun maybeProposal => do
    let proposal ← okOr maybeProposal (.module .proposalNotFound)
    ensure (proposal.status = .active) (.module .proposalNotActive)
    let now := (← get).blockNumber
    -- before the end block, as for a vote, which is allowed at the end block as well
    ensure (now < proposal.endBlock) (.module .votingPeriodEnded)
    let total := (← get).totalStake
    let participation := proposal.forVotes.saturatingAdd proposal.againstVotes
    let minParticipation := T.quorum.mulFloor total
    ensure (minParticipation ≤ participation) (.module .quorumNotMet)
    settleProposal proposalId proposal
  -- `unwrap` of the proposal that was just written
  let finalized ← okOr ((← get).proposals proposalId) .panic
  depositEvent (.proposalFinalized proposalId finalized.status)

/-- `Currency::reserve`. -/
def reserve (who : AccountId) (amount : Balance) : DispatchM T PUnit := fun s =>
  match T.currency.reserve s.ledger who amount with
  | .ok ledger => .ok ⟨⟩ { s with ledger := ledger }
  | .error e => .error (.currency e) s

/-- `Currency::unreserve`, with the amount that was not moved. -/
def unreserve (who : AccountId) (amount : Balance) : DispatchM T Balance :=
  modifyGet fun s =>
    let (rest, ledger) := T.currency.unreserve s.ledger who amount
    (rest, { s with ledger := ledger })

def deposit (origin : Origin AccountId) (amount : Balance) : DispatchM T PUnit := do
  let who ← ensureSigned origin
  reserve who amount
  modify fun s => { s with
    deposits := Function.update s.deposits who ((s.deposits who).saturatingAdd amount) }
  modify fun s => { s with totalStake := s.totalStake.saturatingAdd amount }
  depositEvent (.deposited who amount)

def withdraw (origin : Origin AccountId) (amount : Balance) : DispatchM T PUnit := do
  let who ← ensureSigned origin
  let staked := (← get).deposits who
  ensure (amount ≤ staked) (.module .withdrawTooLarge)
  -- what could not be unreserved is dropped
  let _unreserved ← unreserve who amount
  modify fun s => { s with
    deposits := Function.update s.deposits who ((s.deposits who).saturatingSub amount) }
  modify fun s => { s with totalStake := s.totalStake.saturatingSub amount }
  depositEvent (.withdrawn who amount)

/-- The origin is not looked at. -/
def seedVault (_origin : Origin AccountId) (coin : Coin) (amount : U128) : DispatchM T PUnit := do
  modify fun s => { s with
    vault := Function.update s.vault coin ((s.vault coin).saturatingAdd amount) }
  depositEvent (.vaultSeeded coin amount)

/-- The body of a call. -/
def callBody (origin : Origin AccountId) : Call T → DispatchM T PUnit
  | .createProposal title description duration action =>
      createProposal origin title description duration action
  | .voteProposal proposalId vote => voteProposal origin proposalId vote
  | .finalizeProposal proposalId => finalizeProposal origin proposalId
  | .deposit amount => deposit origin amount
  | .withdraw amount => withdraw origin amount
  | .seedVault coin amount => seedVault origin coin amount

/-- A call as the runtime dispatches it: its writes are undone if it returns an error. -/
def dispatch (origin : Origin AccountId) (call : Call T) : DispatchM T PUnit :=
  transactional (callBody origin call)

end MulticoinTreasury
