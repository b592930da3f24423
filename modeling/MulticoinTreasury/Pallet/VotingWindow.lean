import MulticoinTreasury.Pallet.ProposalStore
import MulticoinTreasury.Pallet.Refusals
import MulticoinTreasury.Runtime.Config

/-!
# Finalization and the voting period

`vote_proposal` accepts votes up to and including the end block of a proposal, `finalize_proposal`
runs only before the end block. So a proposal is decided only while it can still be voted on, the
remaining voters are cut off, and a proposal that is not decided by its end stays active forever.
-/

set_option autoImplicit false

namespace MulticoinTreasury

variable {AccountId : Type} [DecidableEq AccountId] {T : Config AccountId}

/-- The outcome of a vote in the state `s`. -/
def voteOutcome (s : State T) (who : AccountId) (id : ProposalId) (vote : VoteKind) : Outcome T :=
  (step s (.call (.signed who) (.voteProposal id vote))).1

omit [DecidableEq AccountId] in
/-- An account that has not voted on the proposal and whose vote would weigh something, at a block
not after the end of the proposal. -/
def EligibleVoter (s : State T) (id : ProposalId) (who : AccountId) : Prop :=
  ∃ p, s.proposals id = some p ∧ s.blockNumber ≤ p.endBlock ∧ s.hasVoted id who = false ∧
    voteWeight s who ≠ 0

/-- In no continuation is an eligible voter refused. -/
def KeepsVotesOpen (s : State T) (id : ProposalId) : Prop :=
  ∀ (more : List (Op T)) (who : AccountId) (vote : VoteKind),
    EligibleVoter (run s more) id who → voteOutcome (run s more) who id vote = .ok ⟨⟩

/-- Every vote is answered with `VotingPeriodEnded`. -/
def VotingEnded (s : State T) (id : ProposalId) : Prop :=
  ∀ (who : AccountId) (vote : VoteKind),
    voteOutcome s who id vote = .error (.module .votingPeriodEnded)

theorem voteOutcome_eq (s : State T) (who : AccountId) (id : ProposalId) (vote : VoteKind) :
    voteOutcome s who id vote = match voteGuard s who id with
      | .ok _ => .ok ⟨⟩
      | .error e => .error (.module e) := by
  unfold voteOutcome step
  dsimp only
  rw [dispatch_voteProposal]
  cases voteGuard s who id <;> rfl

/-- An eligible voter is accepted as long as the proposal is active. -/
theorem voteOutcome_of_eligible {s : State T} {who : AccountId} {id : ProposalId} {p : Proposal T}
    (hp : s.proposals id = some p) (hactive : p.status = .active) (he : EligibleVoter s id who)
    (vote : VoteKind) : voteOutcome s who id vote = .ok ⟨⟩ := by
  obtain ⟨q, hq, hopen, hfresh, hweight⟩ := he
  cases hp.symm.trans hq
  have hg : voteGuard s who id = .ok p :=
    voteGuard_ok_iff.2 ⟨hp, hactive, hopen, hfresh, hweight⟩
  rw [voteOutcome_eq, hg]

/-- A finalization that succeeds finds an active proposal before its end block and settles it. -/
theorem finalize_settles {s s' : State T} {origin : Origin AccountId} {id : ProposalId}
    (ha : Accepted s origin (.finalizeProposal id) s') :
    ∃ who p p', origin = .signed who ∧ s.proposals id = some p ∧ p.status = .active ∧
      s.blockNumber < p.endBlock ∧ s'.proposals id = some p' ∧ p'.status ≠ .active := by
  cases ha with
  | finalizeRejected hp hactive hopen hquorum hfor =>
    exact ⟨_, _, _, rfl, hp, hactive, hopen, Function.update_self _ _ _, by simp⟩
  | finalizeApproved hp hactive hopen hquorum hfor hswap hcoins hbalance =>
    exact ⟨_, _, _, rfl, hp, hactive, hopen, Function.update_self _ _ _, by simp⟩

/-- **A proposal is decided only while its voting period is open, and the decision ends it.** Every
successful finalization happens before the end block, when no vote is answered with
`VotingPeriodEnded` and every eligible voter would be accepted; afterwards every vote in every
continuation is refused. No eligible voter is ever refused only if there never is one. -/
theorem finalize_cuts_off_votes (l : T.currency.Ledger) (ops : List (Op T))
    (origin : Origin AccountId) (id : ProposalId)
    (hok : (step (run (genesis T l) ops) (.call origin (.finalizeProposal id))).1 = .ok ⟨⟩) :
    let s := run (genesis T l) ops
    let s' := (step s (.call origin (.finalizeProposal id))).2
    (∃ p, s.proposals id = some p ∧ s.blockNumber < p.endBlock) ∧
      ¬ VotingEnded s id ∧
      (∀ who vote, voteOutcome s who id vote ≠ .error (.module .votingPeriodEnded)) ∧
      (∀ who vote, EligibleVoter s id who → voteOutcome s who id vote = .ok ⟨⟩) ∧
      (∀ more who vote,
        voteOutcome (run s' more) who id vote = .error (.module .proposalNotActive)) ∧
      (KeepsVotesOpen s' id ↔ ∀ more who, ¬ EligibleVoter (run s' more) id who) := by
  intro s s'
  have hstore : StoreInv s := storeInv_reached l ops
  have ha : Accepted s origin (.finalizeProposal id) s' := accepted_of_step_ok hok
  obtain ⟨finalizer, p, p', -, hp, hactive, hopen, hp', hsettled⟩ := finalize_settles ha
  -- the finalization needed a block at which the voting period is still open
  have hnotEnded : ∀ who vote,
      voteOutcome s who id vote ≠ .error (.module .votingPeriodEnded) := by
    intro who vote h
    have hle : s.blockNumber ≤ p.endBlock := Nat.le_of_lt hopen
    have hg : voteGuard s who id ≠ .error .votingPeriodEnded := by
      unfold voteGuard
      simp only [hp, hactive, hle, if_true]
      split_ifs <;> simp
    rw [voteOutcome_eq] at h
    cases hv : voteGuard s who id with
    | ok q =>
      rw [hv] at h
      cases h
    | error e =>
      rw [hv] at h
      cases h
      exact hg hv
  -- and it left a settled proposal behind, which stays settled
  have hrefused : ∀ more who vote,
      voteOutcome (run s' more) who id vote = .error (.module .proposalNotActive) := by
    intro more who vote
    have hrun : (run s' more).proposals id = some p' :=
      settled_run (hstore.accepted ha) hp' hsettled more
    rw [voteOutcome_eq, voteGuard_of_settled hrun hsettled]
  refine ⟨⟨p, hp, hopen⟩, ?_, hnotEnded, ?_, hrefused, ?_⟩
  · exact fun hended => hnotEnded finalizer .forVote (hended finalizer .forVote)
  · exact fun who vote he => voteOutcome_of_eligible hp hactive he vote
  · constructor
    · intro hkeeps more who he
      have hvote := hkeeps more who .forVote he
      rw [hrefused more who .forVote] at hvote
      cases hvote
    · exact fun hnone more who vote he => absurd he (hnone more who)

/-- In the first block Alice and Bob stake, Alice proposes a swap that is open until block 11, and
votes for it. -/
def beforeEarlyFinalization : List (Op DevConfig) :=
  [.block (.clamp _ 1), .call (.signed .alice) (.deposit (.clamp _ 100)),
    .call (.signed .bob) (.deposit (.clamp _ 1)),
    .call (.signed .alice) (proposeSwap ⟨.dot, .kusama, 0⟩),
    .call (.signed .alice) (.voteProposal 0 .forVote)]

def aliceFinalizes : Op DevConfig := .call (.signed .alice) (.finalizeProposal 0)

/-- Alice finalizes in the first block; Bob, who could vote until block 11, is refused. -/
theorem early_finalization_refuses_bob :
    (step (run developmentGenesis beforeEarlyFinalization) aliceFinalizes).1 = .ok ⟨⟩ ∧
      ¬ VotingEnded (run developmentGenesis beforeEarlyFinalization) 0 ∧
      ¬ KeepsVotesOpen (step (run developmentGenesis beforeEarlyFinalization) aliceFinalizes).2
        0 := by
  refine ⟨rfl, ?_, ?_⟩
  · intro hended
    have hbob : voteOutcome (run developmentGenesis beforeEarlyFinalization) .bob 0 .againstVote =
        .ok ⟨⟩ := rfl
    rw [hended .bob .againstVote] at hbob
    cases hbob
  · intro hkeeps
    have hbob := hkeeps [] .bob .againstVote ⟨_, rfl, by decide, by decide, by decide⟩
    cases hbob

/-- The theorem at the run in which Alice finalizes early. -/
theorem finalize_cuts_off_votes_early :
    ¬ VotingEnded (run developmentGenesis beforeEarlyFinalization) 0 ∧
      ¬ KeepsVotesOpen (step (run developmentGenesis beforeEarlyFinalization) aliceFinalizes).2
        0 := by
  have h := finalize_cuts_off_votes (T := DevConfig) developmentGenesis.ledger
    beforeEarlyFinalization (.signed .alice) 0 rfl
  refine ⟨h.2.1, fun hkeeps => ?_⟩
  exact h.2.2.2.2.2.1 hkeeps [] .bob ⟨_, rfl, by decide, by decide, by decide⟩

/-- **A proposal past its end is never decided.** An active proposal whose end block has passed is
active in every continuation; no continuation approves or rejects it. -/
theorem active_past_end_is_trapped (l : T.currency.Ledger) (ops : List (Op T)) (id : ProposalId)
    (p : Proposal T) (hp : (run (genesis T l) ops).proposals id = some p)
    (hactive : p.status = .active) (hend : p.endBlock < (run (genesis T l) ops).blockNumber) :
    (∀ more, ∃ p', (run (run (genesis T l) ops) more).proposals id = some p' ∧
      p'.status = .active) ∧
    ¬ ∃ more p', (run (run (genesis T l) ops) more).proposals id = some p' ∧
      (p'.status = .approved ∨ p'.status = .rejected) := by
  have htrapped := active_run_of_ended (storeInv_reached l ops) hp hactive (Nat.le_of_lt hend)
  refine ⟨htrapped, ?_⟩
  rintro ⟨more, q, hq, hstatus⟩
  obtain ⟨p', hp', hactive'⟩ := htrapped more
  cases hp'.symm.trans hq
  rw [hactive'] at hstatus
  rcases hstatus with h | h <;> cases h

/-- A proposal that nobody finalizes until its end, and one block more. -/
def missedFinalization : List (Op DevConfig) := beforeEarlyFinalization ++ [.block (.clamp _ 12)]

/-- Alice's proposal has its quorum and its votes, and is active forever all the same. -/
theorem missed_finalization_is_trapped :
    let s := run developmentGenesis missedFinalization
    (∃ p, s.proposals 0 = some p ∧ p.status = .active ∧ p.endBlock < s.blockNumber) ∧
      ¬ ∃ more p', (run s more).proposals 0 = some p' ∧
        (p'.status = .approved ∨ p'.status = .rejected) := by
  intro s
  refine ⟨⟨_, rfl, by decide, by decide⟩, ?_⟩
  rintro ⟨more, q, hq, hstatus⟩
  have hstored : s.proposals 0 = some _ := rfl
  obtain ⟨p', hp', hactive⟩ := active_run_of_ended
    (storeInv_reached (T := DevConfig) developmentGenesis.ledger missedFinalization)
    hstored (by decide) (by decide) more
  cases hp'.symm.trans hq
  rw [hactive] at hstatus
  rcases hstatus with h | h <;> cases h

/-- The theorem at the run in which the finalization is missed, and at one more block. -/
theorem active_past_end_is_trapped_missed :
    (∃ p', (run (run developmentGenesis missedFinalization)
      [.block (.clamp _ 13)]).proposals 0 = some p' ∧ p'.status = .active) ∧
    ¬ ∃ more p', (run (run developmentGenesis missedFinalization) more).proposals 0 = some p' ∧
      (p'.status = .approved ∨ p'.status = .rejected) := by
  obtain ⟨hactive, hnever⟩ := active_past_end_is_trapped (T := DevConfig)
    developmentGenesis.ledger missedFinalization 0 _ rfl (by decide) (by decide)
  exact ⟨hactive [.block (.clamp _ 13)], hnever⟩

end MulticoinTreasury
