import MulticoinTreasury.Pallet.Calls

/-!
# What a call can do

`Accepted s origin call s'` lists the calls that succeed, one constructor for each way a call can
succeed, with everything the call requires of the state and the state it leaves.
`dispatch_ok_iff` shows that this is exactly when `dispatch` succeeds; later modules argue by cases
on `Accepted` and do not look at the programs again.
-/

set_option autoImplicit false

namespace MulticoinTreasury

open StateError

variable {AccountId : Type} {T : Config AccountId}

/-! ## The states that calls leave -/

/-- All votes of a proposal. -/
def Proposal.participation (p : Proposal T) : Balance := p.forVotes.saturatingAdd p.againstVotes

/-- The votes that have to be cast before a proposal can be finalized. -/
def minParticipation (s : State T) : Balance := T.quorum.mulFloor s.totalStake

/-- The For votes that approve a proposal. -/
def Proposal.neededFor (p : Proposal T) : Balance := T.approvalOfQuorum.mulFloor p.participation

def newProposal (s : State T) (who : AccountId) (title : BoundedVec UInt8 T.maxTitleLen)
    (description : BoundedVec UInt8 T.maxDescriptionLen) (duration : U32) (action : Action) :
    Proposal T :=
  { id := s.nextProposalId, author := who, title := title, description := description,
    start := s.blockNumber, endBlock := s.blockNumber.saturatingAdd duration,
    forVotes := 0, againstVotes := 0, status := .active, action := action }

def State.insertProposal (s : State T) (p : Proposal T) (next : ProposalId) : State T :=
  { s with
    proposals := Function.update s.proposals s.nextProposalId (some p)
    nextProposalId := next
    events := s.record [.proposalCreated s.nextProposalId p.author] }

/-- Votes leave the status and the voting period of a proposal alone. -/
@[simp] theorem addVote_status (p : Proposal T) (vote : VoteKind) (w : Balance) :
    (p.addVote vote w).status = p.status := by
  cases vote <;> rfl

@[simp] theorem addVote_endBlock (p : Proposal T) (vote : VoteKind) (w : Balance) :
    (p.addVote vote w).endBlock = p.endBlock := by
  cases vote <;> rfl

variable [DecidableEq AccountId]

def State.castVote (s : State T) (id : ProposalId) (p : Proposal T) (who : AccountId)
    (vote : VoteKind) : State T :=
  { s with
    proposals := Function.update s.proposals id (some (p.addVote vote (voteWeight s who)))
    hasVoted := Function.update s.hasVoted id (Function.update (s.hasVoted id) who true)
    events := s.record [.proposalVoted id who vote] }

def State.reject (s : State T) (id : ProposalId) (p : Proposal T) : State T :=
  { s with
    proposals := Function.update s.proposals id (some { p with status := .rejected })
    events := s.record [.proposalFinalized id .rejected] }

def State.approve (s : State T) (id : ProposalId) (p : Proposal T) (swap : Swap) : State T :=
  { s with
    proposals := Function.update s.proposals id (some { p with status := .approved })
    vault := Function.update
      (Function.update s.vault swap.fromCoin ((s.vault swap.fromCoin).saturatingSub swap.amount))
      swap.toCoin ((s.vault swap.toCoin).saturatingAdd swap.amount)
    karma := Function.update s.karma p.author ((s.karma p.author).saturatingAdd (.clamp _ 1))
    events := s.record [.swapExecuted swap.fromCoin swap.toCoin swap.amount id,
      .proposalFinalized id .approved] }

def State.addStake (s : State T) (who : AccountId) (amount : Balance) (l : T.currency.Ledger) :
    State T :=
  { s with
    ledger := l
    deposits := Function.update s.deposits who ((s.deposits who).saturatingAdd amount)
    totalStake := s.totalStake.saturatingAdd amount
    events := s.record [.deposited who amount] }

def State.removeStake (s : State T) (who : AccountId) (amount : Balance) : State T :=
  { s with
    ledger := (T.currency.unreserve s.ledger who amount).2
    deposits := Function.update s.deposits who ((s.deposits who).saturatingSub amount)
    totalStake := s.totalStake.saturatingSub amount
    events := s.record [.withdrawn who amount] }

def State.addToVault (s : State T) (coin : Coin) (amount : U128) : State T :=
  { s with
    vault := Function.update s.vault coin ((s.vault coin).saturatingAdd amount)
    events := s.record [.vaultSeeded coin amount] }

/-! ## Accepted calls -/

/-- The calls that succeed, and the states they leave. -/
inductive Accepted (s : State T) : Origin AccountId → Call T → State T → Prop
  | createProposal {who : AccountId} {title : BoundedVec UInt8 T.maxTitleLen}
      {description : BoundedVec UInt8 T.maxDescriptionLen} {duration : U32} {action : Action}
      {next : ProposalId}
      (hmin : T.minProposalDuration ≤ duration) (hmax : duration ≤ T.maxProposalDuration)
      (hnext : s.nextProposalId.checkedAdd (.clamp _ 1) = some next) :
      Accepted s (.signed who) (.createProposal title description duration action)
        (s.insertProposal (newProposal s who title description duration action) next)
  | voteProposal {who : AccountId} {id : ProposalId} {vote : VoteKind} {p : Proposal T}
      (hp : s.proposals id = some p) (hactive : p.status = .active)
      (hopen : s.blockNumber ≤ p.endBlock) (hfresh : s.hasVoted id who = false)
      (hweight : voteWeight s who ≠ 0) :
      Accepted s (.signed who) (.voteProposal id vote) (s.castVote id p who vote)
  | finalizeRejected {who : AccountId} {id : ProposalId} {p : Proposal T}
      (hp : s.proposals id = some p) (hactive : p.status = .active)
      (hopen : s.blockNumber < p.endBlock) (hquorum : minParticipation s ≤ p.participation)
      (hfor : ¬ p.neededFor ≤ p.forVotes) :
      Accepted s (.signed who) (.finalizeProposal id) (s.reject id p)
  | finalizeApproved {who : AccountId} {id : ProposalId} {p : Proposal T} {swap : Swap}
      (hp : s.proposals id = some p) (hactive : p.status = .active)
      (hopen : s.blockNumber < p.endBlock) (hquorum : minParticipation s ≤ p.participation)
      (hfor : p.neededFor ≤ p.forVotes) (hswap : p.action = .swap swap)
      (hcoins : swap.fromCoin ≠ swap.toCoin) (hbalance : swap.amount ≤ s.vault swap.fromCoin) :
      Accepted s (.signed who) (.finalizeProposal id) (s.approve id p swap)
  | deposit {who : AccountId} {amount : Balance} {l : T.currency.Ledger}
      (hreserve : T.currency.reserve s.ledger who amount = .ok l) :
      Accepted s (.signed who) (.deposit amount) (s.addStake who amount l)
  | withdraw {who : AccountId} {amount : Balance} (hstaked : amount ≤ s.deposits who) :
      Accepted s (.signed who) (.withdraw amount) (s.removeStake who amount)
  | seedVault {origin : Origin AccountId} {coin : Coin} {amount : U128} :
      Accepted s origin (.seedVault coin amount) (s.addToVault coin amount)

section Programs

omit [DecidableEq AccountId]

theorem ensureSigned_bind_ok_iff {β : Type} (origin : Origin AccountId)
    (f : AccountId → DispatchM T β) (s s' : State T) (b : β) :
    (ensureSigned origin >>= f) s = .ok b s' ↔
      ∃ who, origin = .signed who ∧ f who s = .ok b s' := by
  rw [bind_ok_iff]
  cases origin with
  | signed a => simp [ensureSigned, pure_ok_iff]
  | root => simp [ensureSigned, throw_ok_iff]
  | none => simp [ensureSigned, throw_ok_iff]

theorem depositEvent_ok_iff (e : Event AccountId) (s s' : State T) (r : PUnit) :
    (depositEvent e : DispatchM T PUnit) s = .ok r s' ↔ { s with events := s.record [e] } = s' :=
  modify_ok_iff _ _ _ _

/-- Recording events twice is recording them at once. -/
theorem record_record (s t : State T) (es fs : List (Event AccountId))
    (hb : t.blockNumber = s.blockNumber) (he : t.events = s.record es) :
    t.record fs = s.record (es ++ fs) := by
  unfold State.record at *
  rw [hb, he]
  by_cases h : s.blockNumber = 0
  · simp [h]
  · simp [h]

end Programs

theorem createProposal_ok_iff {origin : Origin AccountId} {title : BoundedVec UInt8 T.maxTitleLen}
    {description : BoundedVec UInt8 T.maxDescriptionLen} {duration : U32} {action : Action}
    {s s' : State T} {r : PUnit} :
    createProposal origin title description duration action s = .ok r s' ↔
      Accepted s origin (.createProposal title description duration action) s' := by
  simp only [createProposal, ensureSigned_bind_ok_iff, ensure_bind_ok_iff, okOr_bind_ok_iff,
    BoundedVec.tryInto_self, Option.some.injEq, exists_eq_left', get_bind, modify_bind,
    depositEvent_ok_iff]
  constructor
  · rintro ⟨who, rfl, hmin, hmax, next, hnext, rfl⟩
    exact .createProposal hmin hmax hnext
  · intro h
    cases h with
    | createProposal hmin hmax hnext => exact ⟨_, rfl, hmin, hmax, _, hnext, rfl⟩

theorem voteProposal_ok_iff {origin : Origin AccountId} {id : ProposalId} {vote : VoteKind}
    {s s' : State T} {r : PUnit} :
    voteProposal origin id vote s = .ok r s' ↔ Accepted s origin (.voteProposal id vote) s' := by
  simp only [voteProposal, tryMutateProposal, ensureSigned_bind_ok_iff, tryMutate_bind_ok_iff,
    ensure_bind_ok_iff, okOr_bind_ok_iff, get_bind, modify_bind, depositEvent_ok_iff, pure_ok_iff]
  constructor
  · rintro ⟨who, rfl, v, _, ⟨p, hp, hactive, hopen, hfresh, hweight, rfl, rfl⟩, rfl⟩
    exact .voteProposal hp hactive hopen hfresh hweight
  · intro h
    cases h with
    | voteProposal hp hactive hopen hfresh hweight =>
      exact ⟨_, rfl, _, _, ⟨_, hp, hactive, hopen, hfresh, hweight, rfl, rfl⟩, rfl⟩

/-- The vault and the events after an executed swap. -/
def State.swapped (s : State T) (id : ProposalId) (swap : Swap) : State T :=
  { s with
    vault := Function.update
      (Function.update s.vault swap.fromCoin ((s.vault swap.fromCoin).saturatingSub swap.amount))
      swap.toCoin ((s.vault swap.toCoin).saturatingAdd swap.amount)
    events := s.record [.swapExecuted swap.fromCoin swap.toCoin swap.amount id] }

omit [DecidableEq AccountId] in
/-- A swap is executed if its coins differ and the vault holds the amount; the subtraction then
does not go below zero. -/
theorem executeSwap_ok_iff {id : ProposalId} {swap : Swap} {s s' : State T} {r : PUnit} :
    (executeSwap id swap : DispatchM T PUnit) s = .ok r s' ↔
      swap.fromCoin ≠ swap.toCoin ∧ swap.amount ≤ s.vault swap.fromCoin ∧
        s' = s.swapped id swap := by
  simp only [executeSwap, ensure_bind_ok_iff, okOr_bind_ok_iff, get_bind, modify_bind,
    depositEvent_ok_iff, BoundedNat.checkedSub_eq_some_iff]
  constructor
  · rintro ⟨hcoins, hbalance, rest, ⟨-, rfl⟩, rfl⟩
    refine ⟨hcoins, hbalance, ?_⟩
    -- the credit reads the vault after the debit, which is another entry
    rw [State.swapped, Function.update_of_ne hcoins.symm]
    rfl
  · rintro ⟨hcoins, hbalance, rfl⟩
    refine ⟨hcoins, hbalance, _, ⟨hbalance, rfl⟩, ?_⟩
    rw [State.swapped, Function.update_of_ne hcoins.symm]
    rfl

/-- The storage after the decision to approve, before the proposal is written back. -/
def State.settled (s : State T) (id : ProposalId) (p : Proposal T) (swap : Swap) : State T :=
  { s.swapped id swap with
    karma := Function.update s.karma p.author ((s.karma p.author).saturatingAdd (.clamp _ 1)) }

theorem settleProposal_of_not_le {id : ProposalId} {p : Proposal T}
    (hfor : ¬ p.neededFor ≤ p.forVotes) :
    settleProposal id p = pure (some { p with status := .rejected }) :=
  if_neg hfor

theorem settleProposal_of_le {id : ProposalId} {p : Proposal T} {swap : Swap}
    (hfor : p.neededFor ≤ p.forVotes) (hswap : p.action = .swap swap) :
    settleProposal id p = (do
      executeSwap id swap
      modify fun s => { s with
        karma := Function.update s.karma p.author ((s.karma p.author).saturatingAdd (.clamp _ 1)) }
      pure (some { p with status := .approved })) := by
  -- the match on the action reduces once the record is a constructor
  obtain ⟨pid, author, title, description, start, endBlock, for', against, status, action⟩ := p
  dsimp only at hswap
  subst hswap
  exact if_pos hfor

theorem settleProposal_ok_iff {id : ProposalId} {p : Proposal T} {s s' : State T}
    {v : Option (Proposal T)} :
    settleProposal id p s = .ok v s' ↔
      (¬ p.neededFor ≤ p.forVotes ∧ v = some { p with status := .rejected } ∧ s' = s) ∨
      (p.neededFor ≤ p.forVotes ∧ ∃ swap, p.action = .swap swap ∧
        swap.fromCoin ≠ swap.toCoin ∧ swap.amount ≤ s.vault swap.fromCoin ∧
        v = some { p with status := .approved } ∧ s' = s.settled id p swap) := by
  by_cases hfor : p.neededFor ≤ p.forVotes
  · -- a swap is the only kind of action
    obtain ⟨swap, hswap⟩ : ∃ swap, p.action = .swap swap := ⟨_, rfl⟩
    rw [settleProposal_of_le hfor hswap]
    simp only [hfor, hswap, bind_ok_iff, executeSwap_ok_iff, modify_bind, pure_ok_iff, not_true,
      false_and, false_or, true_and, Action.swap.injEq, exists_eq_left']
    constructor
    · rintro ⟨_, _, ⟨hcoins, hbalance, rfl⟩, rfl, rfl⟩
      exact ⟨hcoins, hbalance, rfl, rfl⟩
    · rintro ⟨hcoins, hbalance, rfl, rfl⟩
      exact ⟨⟨⟩, _, ⟨hcoins, hbalance, rfl⟩, rfl, rfl⟩
  · rw [settleProposal_of_not_le hfor, pure_ok_iff]
    simp only [hfor, not_false_eq_true, true_and, false_and, or_false]
    constructor
    · rintro ⟨rfl, rfl⟩
      exact ⟨rfl, rfl⟩
    · rintro ⟨rfl, rfl⟩
      exact ⟨rfl, rfl⟩

/-- Writing the approved proposal back and recording its event gives `State.approve`. -/
theorem approve_eq (s : State T) (id : ProposalId) (p : Proposal T) (swap : Swap) :
    s.approve id p swap =
      { s.settled id p swap with
        proposals := Function.update s.proposals id (some { p with status := .approved })
        events := (s.settled id p swap).record [.proposalFinalized id .approved] } := by
  rw [record_record s (s.settled id p swap) [.swapExecuted _ _ _ _] _ rfl rfl]
  rfl

theorem finalizeProposal_ok_iff {origin : Origin AccountId} {id : ProposalId} {s s' : State T}
    {r : PUnit} :
    finalizeProposal origin id s = .ok r s' ↔ Accepted s origin (.finalizeProposal id) s' := by
  simp only [finalizeProposal, tryMutateProposal, ensureSigned_bind_ok_iff, tryMutate_bind_ok_iff,
    ensure_bind_ok_iff, okOr_bind_ok_iff, get_bind, depositEvent_ok_iff, settleProposal_ok_iff,
    Function.update_self]
  constructor
  · rintro ⟨who, rfl, v, s₁, ⟨p, hp, hactive, hopen, hquorum, hsettle⟩, q, rfl, rfl⟩
    -- rejected or approved, as `settleProposal_ok_iff` says
    rcases hsettle with ⟨hfor, hv, rfl⟩ | ⟨hfor, swap, hswap, hcoins, hbalance, hv, rfl⟩
    · cases hv
      exact .finalizeRejected hp hactive hopen hquorum hfor
    · cases hv
      have h : Accepted s (.signed who) (.finalizeProposal id) (s.approve id p swap) :=
        .finalizeApproved hp hactive hopen hquorum hfor hswap hcoins hbalance
      rw [approve_eq] at h
      exact h
  · intro h
    cases h with
    | finalizeRejected hp hactive hopen hquorum hfor =>
      exact ⟨_, rfl, _, _, ⟨_, hp, hactive, hopen, hquorum, .inl ⟨hfor, rfl, rfl⟩⟩, _, rfl, rfl⟩
    | finalizeApproved hp hactive hopen hquorum hfor hswap hcoins hbalance =>
      rw [approve_eq]
      exact ⟨_, rfl, _, _, ⟨_, hp, hactive, hopen, hquorum,
        .inr ⟨hfor, _, hswap, hcoins, hbalance, rfl, rfl⟩⟩, _, rfl, rfl⟩

omit [DecidableEq AccountId] in
theorem reserve_bind_ok_iff {β : Type} {who : AccountId} {amount : Balance}
    {f : PUnit → DispatchM T β} {s s' : State T} {b : β} :
    (reserve who amount >>= f) s = .ok b s' ↔
      ∃ l, T.currency.reserve s.ledger who amount = .ok l ∧
        f ⟨⟩ { s with ledger := l } = .ok b s' := by
  rw [bind_ok_iff]
  unfold reserve
  cases T.currency.reserve s.ledger who amount with
  | ok l =>
    constructor
    · rintro ⟨_, _, h, hf⟩
      cases h
      exact ⟨l, rfl, hf⟩
    · rintro ⟨_, h, hf⟩
      cases h
      exact ⟨⟨⟩, _, rfl, hf⟩
  | error e => simp

theorem deposit_ok_iff {origin : Origin AccountId} {amount : Balance} {s s' : State T} {r : PUnit} :
    deposit origin amount s = .ok r s' ↔ Accepted s origin (.deposit amount) s' := by
  simp only [deposit, ensureSigned_bind_ok_iff, reserve_bind_ok_iff, modify_bind,
    depositEvent_ok_iff]
  constructor
  · rintro ⟨who, rfl, l, hreserve, rfl⟩
    exact .deposit hreserve
  · intro h
    cases h with
    | deposit hreserve => exact ⟨_, rfl, _, hreserve, rfl⟩

omit [DecidableEq AccountId] in
theorem unreserve_bind {β : Type} (who : AccountId) (amount : Balance)
    (f : Balance → DispatchM T β) (s : State T) :
    (unreserve who amount >>= f) s = f (T.currency.unreserve s.ledger who amount).1
      { s with ledger := (T.currency.unreserve s.ledger who amount).2 } := rfl

theorem withdraw_ok_iff {origin : Origin AccountId} {amount : Balance} {s s' : State T}
    {r : PUnit} :
    withdraw origin amount s = .ok r s' ↔ Accepted s origin (.withdraw amount) s' := by
  simp only [withdraw, ensureSigned_bind_ok_iff, get_bind, ensure_bind_ok_iff, unreserve_bind,
    modify_bind, depositEvent_ok_iff]
  constructor
  · rintro ⟨who, rfl, hstaked, rfl⟩
    exact .withdraw hstaked
  · intro h
    cases h with
    | withdraw hstaked => exact ⟨_, rfl, hstaked, rfl⟩

theorem seedVault_ok_iff {origin : Origin AccountId} {coin : Coin} {amount : U128} {s s' : State T}
    {r : PUnit} :
    seedVault origin coin amount s = .ok r s' ↔ Accepted s origin (.seedVault coin amount) s' := by
  simp only [seedVault, modify_bind, depositEvent_ok_iff]
  constructor
  · rintro rfl
    exact .seedVault
  · intro h
    cases h with
    | seedVault => rfl

/-- **A dispatched call succeeds exactly as `Accepted` says.** -/
theorem dispatch_ok_iff {origin : Origin AccountId} {call : Call T} {s s' : State T} {r : PUnit} :
    dispatch origin call s = .ok r s' ↔ Accepted s origin call s' := by
  rw [dispatch, transactional_ok_iff]
  cases call with
  | createProposal title description duration action => exact createProposal_ok_iff
  | voteProposal proposalId vote => exact voteProposal_ok_iff
  | finalizeProposal proposalId => exact finalizeProposal_ok_iff
  | deposit amount => exact deposit_ok_iff
  | withdraw amount => exact withdraw_ok_iff
  | seedVault coin amount => exact seedVault_ok_iff

/-- A call that fails changes nothing. -/
theorem dispatch_error {origin : Origin AccountId} {call : Call T} {s s' : State T}
    {e : DispatchError T} (h : dispatch origin call s = .error e s') : s' = s :=
  transactional_error h

end MulticoinTreasury
