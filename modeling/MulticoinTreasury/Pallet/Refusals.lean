import MulticoinTreasury.Pallet.System

/-!
# Why a call is refused

The result of each call in every state, errors included. The guards of a call are one function
(`createGuard`, `voteGuard`, `finalizeGuard` with `swapGuard`), which reads only what the call
checks; what a call returns can then be compared between two states. For `finalize_proposal` the
result of the body itself is given, without the transaction that `dispatch` puts around it.
-/

set_option autoImplicit false

namespace MulticoinTreasury

open StateError

variable {AccountId : Type} {T : Config AccountId}

/-- The guards of `vote_proposal`, in their order: the proposal if the vote is accepted, or the
error. -/
def voteGuard (s : State T) (who : AccountId) (id : ProposalId) : Except Error (Proposal T) :=
  match s.proposals id with
  | none => .error .proposalNotFound
  | some p =>
      if p.status = .active then
        if s.blockNumber ≤ p.endBlock then
          if s.hasVoted id who = false then
            if voteWeight s who ≠ 0 then .ok p else .error .noDeposit
          else .error .alreadyVoted
        else .error .votingPeriodEnded
      else .error .proposalNotActive

theorem voteGuard_ok_iff {s : State T} {who : AccountId} {id : ProposalId} {p : Proposal T} :
    voteGuard s who id = .ok p ↔ s.proposals id = some p ∧ p.status = .active ∧
      s.blockNumber ≤ p.endBlock ∧ s.hasVoted id who = false ∧ voteWeight s who ≠ 0 := by
  unfold voteGuard
  cases hq : s.proposals id with
  | none => simp
  | some q =>
    constructor
    · intro h
      dsimp only at h
      split_ifs at h with hactive hopen hfresh hweight
      cases h
      exact ⟨rfl, hactive, hopen, hfresh, hweight⟩
    · rintro ⟨h, hactive, hopen, hfresh, hweight⟩
      cases h
      simp [hactive, hopen, hfresh, hweight]

/-- Once a proposal is settled, no vote on it is accepted. -/
theorem voteGuard_of_settled {s : State T} {who : AccountId} {id : ProposalId} {p : Proposal T}
    (hp : s.proposals id = some p) (hsettled : p.status ≠ .active) :
    voteGuard s who id = .error .proposalNotActive := by
  simp [voteGuard, hp, hsettled]

/-- A new proposal needs a duration in the configured range and an id that has a successor. -/
def createGuard (s : State T) (duration : U32) : Except Error ProposalId :=
  if T.minProposalDuration ≤ duration then
    if duration ≤ T.maxProposalDuration then
      match s.nextProposalId.checkedAdd (.clamp _ 1) with
      | some next => .ok next
      | none => .error .storageOverflow
    else .error .durationTooLong
  else .error .durationTooShort

theorem createGuard_ok_iff {s : State T} {duration : U32} {next : ProposalId} :
    createGuard s duration = .ok next ↔ T.minProposalDuration ≤ duration ∧
      duration ≤ T.maxProposalDuration ∧
      s.nextProposalId.checkedAdd (.clamp _ 1) = some next := by
  unfold createGuard
  by_cases hmin : T.minProposalDuration ≤ duration
  · by_cases hmax : duration ≤ T.maxProposalDuration
    · rw [if_pos hmin, if_pos hmax]
      cases s.nextProposalId.checkedAdd (.clamp _ 1) with
      | some n => simp [hmin, hmax]
      | none => simp
    · simp [hmin, hmax]
  · simp [hmin]

/-- The checks of a swap, in their order. -/
def swapGuard (s : State T) (swap : Swap) : Except Error Unit :=
  if swap.fromCoin ≠ swap.toCoin then
    if swap.amount ≤ s.vault swap.fromCoin then .ok () else .error .insufficientVaultBalance
  else .error .invalidSwap

/-- The guards of `finalize_proposal`, in their order: the proposal that is decided, or the
error. -/
def finalizeGuard (s : State T) (id : ProposalId) : Except Error (Proposal T) :=
  match s.proposals id with
  | none => .error .proposalNotFound
  | some p =>
      if p.status = .active then
        if s.blockNumber < p.endBlock then
          if minParticipation s ≤ p.participation then .ok p else .error .quorumNotMet
        else .error .votingPeriodEnded
      else .error .proposalNotActive

theorem swapGuard_ok_iff {s : State T} {swap : Swap} {r : Unit} :
    swapGuard s swap = .ok r ↔
      swap.fromCoin ≠ swap.toCoin ∧ swap.amount ≤ s.vault swap.fromCoin := by
  unfold swapGuard
  constructor
  · intro h
    split_ifs at h with hcoins hbalance
    exact ⟨hcoins, hbalance⟩
  · rintro ⟨hcoins, hbalance⟩
    rw [if_pos hcoins, if_pos hbalance]

theorem finalizeGuard_ok_iff {s : State T} {id : ProposalId} {p : Proposal T} :
    finalizeGuard s id = .ok p ↔ s.proposals id = some p ∧ p.status = .active ∧
      s.blockNumber < p.endBlock ∧ minParticipation s ≤ p.participation := by
  unfold finalizeGuard
  cases hq : s.proposals id with
  | none => simp
  | some q =>
    constructor
    · intro h
      dsimp only at h
      split_ifs at h with hactive hopen hquorum
      cases h
      exact ⟨rfl, hactive, hopen, hquorum⟩
    · rintro ⟨h, hactive, hopen, hquorum⟩
      cases h
      simp [hactive, hopen, hquorum]

theorem executeSwap_eq (id : ProposalId) (swap : Swap) (s : State T) :
    (executeSwap id swap : DispatchM T PUnit) s = match swapGuard s swap with
      | .ok _ => .ok ⟨⟩ (s.swapped id swap)
      | .error e => .error (.module e) s := by
  cases hg : swapGuard s swap with
  | ok r =>
    obtain ⟨hcoins, hbalance⟩ := swapGuard_ok_iff.1 hg
    exact executeSwap_ok_iff.2 ⟨hcoins, hbalance, rfl⟩
  | error e =>
    -- both checks stand before the first write
    rw [executeSwap, ensure_bind]
    rw [swapGuard] at hg
    by_cases hcoins : swap.fromCoin ≠ swap.toCoin
    · rw [if_pos hcoins] at hg ⊢
      rw [get_bind, ensure_bind]
      by_cases hbalance : swap.amount ≤ s.vault swap.fromCoin
      · rw [if_pos hbalance] at hg
        cases hg
      · rw [if_neg hbalance] at hg ⊢
        cases hg
        rfl
    · rw [if_neg hcoins] at hg ⊢
      cases hg
      rfl

variable [DecidableEq AccountId]

theorem dispatch_voteProposal (s : State T) (who : AccountId) (id : ProposalId)
    (vote : VoteKind) :
    dispatch (.signed who) (.voteProposal id vote) s = match voteGuard s who id with
      | .ok p => .ok ⟨⟩ (s.castVote id p who vote)
      | .error e => .error (.module e) s := by
  cases hg : voteGuard s who id with
  | ok p =>
    obtain ⟨hp, hactive, hopen, hfresh, hweight⟩ := voteGuard_ok_iff.1 hg
    exact dispatch_ok_iff.2 (.voteProposal hp hactive hopen hfresh hweight)
  | error e =>
    -- an error of the body is an error of the call; the body is then run guard by guard
    suffices h : voteProposal (.signed who) id vote s = .error (.module e) s from
      transactional_of_error h
    show (tryMutateProposal id _ >>= _) s = _
    rw [tryMutateProposal, tryMutate_bind]
    rw [voteGuard] at hg
    cases hp : s.proposals id with
    | none =>
      rw [hp] at hg
      cases hg
      rfl
    | some p =>
      rw [hp] at hg
      simp only [okOr_bind, ensure_bind, get_bind]
      dsimp only at hg
      by_cases hactive : p.status = .active
      · rw [if_pos hactive] at hg ⊢
        by_cases hopen : s.blockNumber ≤ p.endBlock
        · rw [if_pos hopen] at hg ⊢
          by_cases hfresh : s.hasVoted id who = false
          · rw [if_pos hfresh] at hg ⊢
            by_cases hweight : voteWeight s who ≠ 0
            · rw [if_pos hweight] at hg
              cases hg
            · rw [if_neg hweight] at hg ⊢
              cases hg
              rfl
          · rw [if_neg hfresh] at hg ⊢
            cases hg
            rfl
        · rw [if_neg hopen] at hg ⊢
          cases hg
          rfl
      · rw [if_neg hactive] at hg ⊢
        cases hg
        rfl

theorem dispatch_deposit (s : State T) (who : AccountId) (amount : Balance) :
    dispatch (.signed who) (.deposit amount) s =
      match T.currency.reserve s.ledger who amount with
      | .ok l => .ok ⟨⟩ (s.addStake who amount l)
      | .error e => .error (.currency e) s := by
  cases hr : T.currency.reserve s.ledger who amount with
  | ok l => exact dispatch_ok_iff.2 (.deposit hr)
  | error e =>
    have h : deposit (.signed who) amount s = .error (.currency e) s := by
      show EStateM.bind (reserve who amount) _ s = _
      unfold EStateM.bind reserve
      rw [hr]
    exact transactional_of_error h

theorem dispatch_withdraw (s : State T) (who : AccountId) (amount : Balance) :
    dispatch (.signed who) (.withdraw amount) s =
      if amount ≤ s.deposits who then .ok ⟨⟩ (s.removeStake who amount)
      else .error (.module .withdrawTooLarge) s := by
  by_cases h : amount ≤ s.deposits who
  · rw [if_pos h]
    exact dispatch_ok_iff.2 (.withdraw h)
  · rw [if_neg h]
    have hw : withdraw (.signed who) amount s = .error (.module .withdrawTooLarge) s := by
      show (ensure (amount ≤ s.deposits who) _ >>= _) s = _
      rw [ensure_bind, if_neg h]
    exact transactional_of_error hw

theorem dispatch_seedVault (s : State T) (origin : Origin AccountId) (coin : Coin)
    (amount : U128) :
    dispatch origin (.seedVault coin amount) s = .ok ⟨⟩ (s.addToVault coin amount) :=
  dispatch_ok_iff.2 .seedVault

/-- What `finalize_proposal` decides in the state `s`: the state it leaves, or the error. -/
def finalizeVerdict (s : State T) (id : ProposalId) : Except Error (State T) :=
  match finalizeGuard s id with
  | .error e => .error e
  | .ok p =>
      if p.neededFor ≤ p.forVotes then
        match p.action with
        | .swap swap =>
            match swapGuard s swap with
            | .ok _ => .ok (s.approve id p swap)
            | .error e => .error e
      else .ok (s.reject id p)

theorem finalizeVerdict_of_guard {s : State T} {id : ProposalId} {p : Proposal T} {swap : Swap}
    (hg : finalizeGuard s id = .ok p) (hswap : p.action = .swap swap) :
    finalizeVerdict s id =
      if p.neededFor ≤ p.forVotes then
        match swapGuard s swap with
        | .ok _ => .ok (s.approve id p swap)
        | .error e => .error e
      else .ok (s.reject id p) := by
  obtain ⟨pid, author, title, description, start, endBlock, for', against, status, action⟩ := p
  dsimp only at hswap
  subst hswap
  rw [finalizeVerdict, hg]

/-- The decision on a proposal that has passed the guards. Its errors are those of the swap. -/
theorem settleProposal_eq (id : ProposalId) {p : Proposal T} {swap : Swap}
    (hswap : p.action = .swap swap) (s : State T) :
    settleProposal id p s =
      if p.neededFor ≤ p.forVotes then
        match swapGuard s swap with
        | .ok _ => .ok (some { p with status := .approved }) (s.settled id p swap)
        | .error e => .error (.module e) s
      else .ok (some { p with status := .rejected }) s := by
  by_cases hfor : p.neededFor ≤ p.forVotes
  · rw [if_pos hfor, settleProposal_of_le hfor hswap, hswap]
    show EStateM.bind (executeSwap id swap) _ s = _
    unfold EStateM.bind
    rw [executeSwap_eq]
    cases swapGuard s swap with
    | ok r => rfl
    | error e => rfl
  · rw [if_neg hfor, settleProposal_of_not_le hfor]
    rfl

/-- **The body of `finalize_proposal` either succeeds or changes nothing.** No error of it comes
after a write, so it needs no transaction around it. -/
theorem finalizeProposal_signed (s : State T) (who : AccountId) (id : ProposalId) :
    finalizeProposal (.signed who) id s = match finalizeVerdict s id with
      | .ok s' => .ok ⟨⟩ s'
      | .error e => .error (.module e) s := by
  show (tryMutateProposal id _ >>= _) s = _
  rw [tryMutateProposal, tryMutate_bind]
  cases hp : s.proposals id with
  | none =>
    simp only [finalizeVerdict, finalizeGuard, hp]
    rfl
  | some p =>
    simp only [okOr_bind, ensure_bind, get_bind]
    by_cases hactive : p.status = .active
    · rw [if_pos hactive]
      by_cases hopen : s.blockNumber < p.endBlock
      · rw [if_pos hopen]
        by_cases hquorum : minParticipation s ≤ p.participation
        · have hg : finalizeGuard s id = .ok p :=
            finalizeGuard_ok_iff.2 ⟨hp, hactive, hopen, hquorum⟩
          have hq : T.quorum.mulFloor s.totalStake ≤ p.forVotes.saturatingAdd p.againstVotes :=
            hquorum
          obtain ⟨swap, hswap⟩ : ∃ swap, p.action = .swap swap := ⟨_, rfl⟩
          rw [if_pos hq, finalizeVerdict_of_guard hg hswap, settleProposal_eq id hswap]
          by_cases hfor : p.neededFor ≤ p.forVotes
          · rw [if_pos hfor, if_pos hfor]
            cases swapGuard s swap with
            | ok r =>
              dsimp only
              rw [approve_eq]
              simp only [Function.update_self]
              rfl
            | error e => rfl
          · rw [if_neg hfor, if_neg hfor]
            simp only [Function.update_self]
            rfl
        · have hg : finalizeGuard s id = .error .quorumNotMet := by
            simp only [finalizeGuard, hp, if_pos hactive, if_pos hopen, if_neg hquorum]
          have hq : ¬ (T.quorum.mulFloor s.totalStake ≤ p.forVotes.saturatingAdd p.againstVotes) :=
            hquorum
          rw [if_neg hq, finalizeVerdict, hg]
      · have hg : finalizeGuard s id = .error .votingPeriodEnded := by
          simp only [finalizeGuard, hp, if_pos hactive, if_neg hopen]
        rw [if_neg hopen, finalizeVerdict, hg]
    · have hg : finalizeGuard s id = .error .proposalNotActive := by
        simp only [finalizeGuard, hp, if_neg hactive]
      rw [if_neg hactive, finalizeVerdict, hg]

theorem dispatch_finalizeProposal (s : State T) (who : AccountId) (id : ProposalId) :
    dispatch (.signed who) (.finalizeProposal id) s = match finalizeVerdict s id with
      | .ok s' => .ok ⟨⟩ s'
      | .error e => .error (.module e) s := by
  have h := finalizeProposal_signed s who id
  cases hv : finalizeVerdict s id with
  | ok s' =>
    rw [hv] at h
    exact (transactional_ok_iff _ _ _ _).2 h
  | error e =>
    rw [hv] at h
    exact transactional_of_error h

omit [DecidableEq AccountId] in
/-- When the ids are exhausted, the body of `create_proposal` has written the proposal before it
fails: without a transaction the proposal would stay in storage. -/
theorem createProposal_of_exhausted {s : State T} (who : AccountId)
    (title : BoundedVec UInt8 T.maxTitleLen) (description : BoundedVec UInt8 T.maxDescriptionLen)
    {duration : U32} (action : Action) (hmin : T.minProposalDuration ≤ duration)
    (hmax : duration ≤ T.maxProposalDuration)
    (hnext : s.nextProposalId.checkedAdd (.clamp _ 1) = none) :
    createProposal (.signed who) title description duration action s =
      .error (.module .storageOverflow) { s with
        proposals := Function.update s.proposals s.nextProposalId
          (some (newProposal s who title description duration action)) } := by
  show (ensure (T.minProposalDuration ≤ duration) _ >>= _) s = _
  rw [ensure_bind, if_pos hmin, ensure_bind, if_pos hmax]
  simp only [okOr_bind, BoundedVec.tryInto_self, get_bind, modify_bind, hnext]
  rfl

theorem dispatch_createProposal (s : State T) (who : AccountId)
    (title : BoundedVec UInt8 T.maxTitleLen) (description : BoundedVec UInt8 T.maxDescriptionLen)
    (duration : U32) (action : Action) :
    dispatch (.signed who) (.createProposal title description duration action) s =
      match createGuard s duration with
      | .ok next => .ok ⟨⟩
          (s.insertProposal (newProposal s who title description duration action) next)
      | .error e => .error (.module e) s := by
  cases hg : createGuard s duration with
  | ok next =>
    obtain ⟨hmin, hmax, hnext⟩ := createGuard_ok_iff.1 hg
    exact dispatch_ok_iff.2 (.createProposal hmin hmax hnext)
  | error e =>
    suffices h : ∃ s', createProposal (.signed who) title description duration action s =
        .error (.module e) s' by
      obtain ⟨s', h⟩ := h
      exact transactional_of_error h
    rw [createGuard] at hg
    by_cases hmin : T.minProposalDuration ≤ duration
    · rw [if_pos hmin] at hg
      by_cases hmax : duration ≤ T.maxProposalDuration
      · rw [if_pos hmax] at hg
        cases hnext : s.nextProposalId.checkedAdd (.clamp _ 1) with
        | some next =>
          rw [hnext] at hg
          cases hg
        | none =>
          rw [hnext] at hg
          cases hg
          exact ⟨_, createProposal_of_exhausted who title description action hmin hmax hnext⟩
      · rw [if_neg hmax] at hg
        cases hg
        refine ⟨s, ?_⟩
        show (ensure (T.minProposalDuration ≤ duration) _ >>= _) s = _
        rw [ensure_bind, if_pos hmin, ensure_bind, if_neg hmax]
    · rw [if_neg hmin] at hg
      cases hg
      refine ⟨s, ?_⟩
      show (ensure (T.minProposalDuration ≤ duration) _ >>= _) s = _
      rw [ensure_bind, if_neg hmin]

end MulticoinTreasury
