import MulticoinTreasury.Pallet.VotingWindow
import MulticoinTreasury.Pallet.Ballots

/-!
# Quorum and approval threshold

`finalize_proposal` compares the participation with a fraction of the total stake and the For votes
with a fraction of the participation; both fractions are rounded down and the participation is
clipped at `u128::MAX`. The exact meaning of the two comparisons follows, and that a vote never
works against its own side: its weight raises the threshold by at most as much as the tally.
-/

set_option autoImplicit false

namespace MulticoinTreasury

variable {AccountId : Type} {T : Config AccountId}

theorem participation_val (p : Proposal T) :
    p.participation.val = min (p.forVotes.val + p.againstVotes.val) maxBalance := rfl

/-- Enough For votes: the rounded share of the clipped participation. -/
theorem neededFor_le_iff (p : Proposal T) : p.neededFor ≤ p.forVotes ↔
    T.approvalOfQuorum.parts * min (p.forVotes.val + p.againstVotes.val) maxBalance / 1000000 ≤
      p.forVotes.val := Iff.rfl

/-- The status of the proposal stored at `id`. -/
def statusOf (s : State T) (id : ProposalId) : Option ProposalStatus :=
  (s.proposals id).map Proposal.status

theorem statusOf_reject (s : State T) (id : ProposalId) (p : Proposal T) :
    statusOf (s.reject id p) id = some .rejected := by
  rw [statusOf, State.reject]
  simp

variable [DecidableEq AccountId]

theorem statusOf_approve (s : State T) (id : ProposalId) (p : Proposal T) (swap : Swap) :
    statusOf (s.approve id p swap) id = some .approved := by
  rw [statusOf, State.approve]
  simp

/-- A finalization of `id`, signed by `who`. -/
def finalizeStep (s : State T) (who : AccountId) (id : ProposalId) : Outcome T × State T :=
  step s (.call (.signed who) (.finalizeProposal id))

theorem finalizeStep_outcome (s : State T) (who : AccountId) (id : ProposalId) :
    (finalizeStep s who id).1 = match finalizeVerdict s id with
      | .ok _ => .ok ⟨⟩
      | .error e => .error (.module e) := by
  unfold finalizeStep step
  dsimp only
  rw [dispatch_finalizeProposal]
  cases finalizeVerdict s id <;> rfl

/-- A finalization that succeeds settles the proposal as the comparison of its tallies says. -/
theorem statusOf_finalized {s s' : State T} {origin : Origin AccountId} {id : ProposalId}
    {p : Proposal T} (ha : Accepted s origin (.finalizeProposal id) s')
    (hp : s.proposals id = some p) :
    statusOf s' id = some (if p.neededFor ≤ p.forVotes then .approved else .rejected) := by
  cases ha with
  | finalizeRejected hq hactive hopen hquorum hfor =>
    cases hp.symm.trans hq
    rw [if_neg hfor]
    exact statusOf_reject s id p
  | @finalizeApproved _ _ _ swap hq hactive hopen hquorum hfor =>
    cases hp.symm.trans hq
    rw [if_pos hfor]
    exact statusOf_approve s id p swap

/-! ## The approval threshold -/

/-- **The approval threshold is the exact one up to rounding.** A finalization that succeeds
approves the proposal if and only if its For votes reach the share of all votes, clipped at
`u128::MAX` and rounded down, and rejects it otherwise. A proposal that reaches the exact share is
always approved; an approved one misses it by less than one vote, as long as the votes are not
clipped. With a share of one half the Against votes of an approved proposal exceed its For votes by
at most one. -/
theorem approved_iff_rounded_share (l : T.currency.Ledger) (ops : List (Op T))
    (origin : Origin AccountId) (id : ProposalId) (p : Proposal T)
    (hp : (run (genesis T l) ops).proposals id = some p)
    (hok : (step (run (genesis T l) ops) (.call origin (.finalizeProposal id))).1 = .ok ⟨⟩) :
    let s' := (step (run (genesis T l) ops) (.call origin (.finalizeProposal id))).2
    let q := T.approvalOfQuorum.parts
    let votes := p.forVotes.val + p.againstVotes.val
    (statusOf s' id = some .approved ↔ q * min votes maxBalance / 1000000 ≤ p.forVotes.val) ∧
      (statusOf s' id = some .rejected ↔ p.forVotes.val < q * min votes maxBalance / 1000000) ∧
      (q * votes ≤ p.forVotes.val * 1000000 → statusOf s' id = some .approved) ∧
      (votes ≤ maxBalance → statusOf s' id = some .approved →
        q * votes < (p.forVotes.val + 1) * 1000000) ∧
      (q = 500000 → votes ≤ maxBalance →
        (statusOf s' id = some .approved ↔ p.againstVotes.val ≤ p.forVotes.val + 1)) := by
  intro s' q votes
  have hstatus : statusOf s' id =
      some (if p.neededFor ≤ p.forVotes then .approved else .rejected) :=
    statusOf_finalized (accepted_of_step_ok hok) hp
  have happroved : statusOf s' id = some .approved ↔
      q * min votes maxBalance / 1000000 ≤ p.forVotes.val := by
    rw [hstatus, ← neededFor_le_iff]
    by_cases hfor : p.neededFor ≤ p.forVotes
    · simp [hfor]
    · simp [hfor]
  refine ⟨happroved, ?_, fun hshare => ?_, fun hrange h => ?_, fun hhalf hrange => ?_⟩
  · rw [hstatus, ← Nat.not_le, ← neededFor_le_iff]
    by_cases hfor : p.neededFor ≤ p.forVotes
    · simp [hfor]
    · simp [hfor]
  · have hclip : q * min votes maxBalance ≤ q * votes := Nat.mul_le_mul_left q (Nat.min_le_left _ _)
    rw [happroved]
    omega
  · rw [happroved, Nat.min_eq_left hrange] at h
    omega
  · rw [happroved, Nat.min_eq_left hrange, hhalf]
    omega

/-- Alice stakes one unit and votes for her proposal, Bob stakes two and votes against it. -/
def outvotedByOne : List (Op DevConfig) :=
  [.block (.clamp _ 1), .call (.signed .alice) (.deposit (.clamp _ 1)),
    .call (.signed .bob) (.deposit (.clamp _ 2)),
    .call (.signed .alice) (proposeSwap ⟨.dot, .kusama, 0⟩),
    .call (.signed .alice) (.voteProposal 0 .forVote),
    .call (.signed .bob) (.voteProposal 0 .againstVote)]

/-- Two For votes and three Against votes: the proposal is approved, although its share is not
reached. -/
theorem approved_though_outvoted : ∃ p,
    (run developmentGenesis outvotedByOne).proposals 0 = some p ∧
      (step (run developmentGenesis outvotedByOne) aliceFinalizes).1 = .ok ⟨⟩ ∧
      statusOf (step (run developmentGenesis outvotedByOne) aliceFinalizes).2 0 = some .approved ∧
      ¬ p.forVotes.val * 1000000 ≥
        DevConfig.approvalOfQuorum.parts * (p.forVotes.val + p.againstVotes.val) ∧
      p.forVotes.val < p.againstVotes.val :=
  ⟨_, rfl, rfl, by decide, by decide, by decide⟩

/-- The theorem at that run. -/
theorem approved_iff_rounded_share_outvoted :
    let s' := (step (run developmentGenesis outvotedByOne) aliceFinalizes).2
    statusOf s' 0 = some .approved ↔ 500000 * min (2 + 3) maxBalance / 1000000 ≤ 2 :=
  (approved_iff_rounded_share (T := DevConfig) developmentGenesis.ledger outvotedByOne
    (.signed .alice) 0 _ rfl rfl).1

/-! ## The quorum -/

/-- A finalization of an active proposal in its period fails with `QuorumNotMet` exactly when the
participation is below the share of the total stake; the errors of the swap are others. -/
theorem quorumNotMet_iff {s : State T} {id : ProposalId} {p : Proposal T} (who : AccountId)
    (hp : s.proposals id = some p) (hactive : p.status = .active)
    (hopen : s.blockNumber < p.endBlock) :
    (finalizeStep s who id).1 = .error (.module .quorumNotMet) ↔
      p.participation < minParticipation s := by
  rw [finalizeStep_outcome]
  by_cases hquorum : minParticipation s ≤ p.participation
  · have hg : finalizeGuard s id = .ok p :=
      finalizeGuard_ok_iff.2 ⟨hp, hactive, hopen, hquorum⟩
    obtain ⟨swap, hswap⟩ : ∃ swap, p.action = .swap swap := ⟨_, rfl⟩
    refine iff_of_false ?_ (Nat.not_lt_of_le hquorum)
    rw [finalizeVerdict_of_guard hg hswap]
    by_cases hfor : p.neededFor ≤ p.forVotes
    · rw [if_pos hfor, swapGuard]
      split_ifs <;> simp
    · rw [if_neg hfor]
      simp
  · have hg : finalizeGuard s id = .error .quorumNotMet := by
      simp only [finalizeGuard, hp, if_pos hactive, if_pos hopen, if_neg hquorum]
    refine iff_of_true ?_ (Nat.lt_of_not_le hquorum)
    rw [finalizeVerdict, hg]

omit [DecidableEq AccountId] in
/-- The runtime's constant stands for the whole: more than a million parts count as a million. -/
theorem daoQuorum_parts : daoQuorum.parts = 1000000 := rfl

/-- **The two-thirds quorum of the runtime is a quorum of the whole.** Whatever its currency, a
proposal with two thirds of the total stake is safe from `QuorumNotMet` exactly if its votes reach
the whole total stake, or do not reach two thirds of it in the first place. -/
theorem two_thirds_quorum_iff {C : Currency AccountId} (l : C.Ledger)
    (ops : List (Op (runtimeConfig C))) (who : AccountId) (id : ProposalId)
    (p : Proposal (runtimeConfig C))
    (hp : (run (genesis (runtimeConfig C) l) ops).proposals id = some p)
    (hactive : p.status = .active)
    (hopen : (run (genesis (runtimeConfig C) l) ops).blockNumber < p.endBlock) :
    let s := run (genesis (runtimeConfig C) l) ops
    let votes := p.forVotes.val + p.againstVotes.val
    (3 * votes ≥ 2 * s.totalStake.val →
      (finalizeStep s who id).1 ≠ .error (.module .quorumNotMet)) ↔
    (s.totalStake.val ≤ votes ∨ 3 * votes < 2 * s.totalStake.val) := by
  intro s votes
  have hmin : minParticipation s = s.totalStake := Permill.mulFloor_of_parts daoQuorum_parts _
  have hrange : s.totalStake.val ≤ maxBalance := s.totalStake.le_max
  rw [Ne, quorumNotMet_iff who hp hactive hopen, hmin, BoundedNat.lt_iff, participation_val]
  show (_ → ¬ min votes maxBalance < _) ↔ _
  omega

/-- Alice stakes two hundred units and votes with them, Bob stakes a hundred. -/
def twoThirdsVote : List (Op DevConfig) :=
  [.block (.clamp _ 1), .call (.signed .alice) (.deposit (.clamp _ 200)),
    .call (.signed .bob) (.deposit (.clamp _ 100)),
    .call (.signed .alice) (proposeSwap ⟨.dot, .kusama, 0⟩),
    .call (.signed .alice) (.voteProposal 0 .forVote)]

/-- Two thirds of the total stake have voted, and the quorum is not met. -/
theorem quorum_not_met_by_two_thirds : ∃ p,
    (run developmentGenesis twoThirdsVote).proposals 0 = some p ∧ p.status = .active ∧
      (run developmentGenesis twoThirdsVote).blockNumber < p.endBlock ∧
      3 * (p.forVotes.val + p.againstVotes.val) ≥
        2 * (run developmentGenesis twoThirdsVote).totalStake.val ∧
      (finalizeStep (run developmentGenesis twoThirdsVote) .alice 0).1 =
        .error (.module .quorumNotMet) :=
  ⟨_, rfl, rfl, by decide, by decide, rfl⟩

def everybodyVotes : List (Op DevConfig) :=
  twoThirdsVote ++ [.call (.signed .bob) (.voteProposal 0 .againstVote)]

/-- The theorem where everybody who has a stake votes. -/
theorem two_thirds_quorum_iff_everybody : ∃ p,
    (run developmentGenesis everybodyVotes).proposals 0 = some p ∧
      (finalizeStep (run developmentGenesis everybodyVotes) .alice 0).1 ≠
        .error (.module .quorumNotMet) := by
  refine ⟨_, rfl, ?_⟩
  have h := two_thirds_quorum_iff (C := PlainLedger.currency DevAccount) developmentGenesis.ledger
    everybodyVotes .alice 0 _ rfl rfl (by decide)
  exact h.2 (Or.inl (by decide)) (by decide)

/-! ## A vote does not work against its side -/

omit [DecidableEq AccountId] in
@[simp] theorem addVote_action (p : Proposal T) (vote : VoteKind) (w : Balance) :
    (p.addVote vote w).action = p.action := by
  cases vote <;> rfl

omit [DecidableEq AccountId] in
@[simp] theorem addVote_author (p : Proposal T) (vote : VoteKind) (w : Balance) :
    (p.addVote vote w).author = p.author := by
  cases vote <;> rfl

omit [DecidableEq AccountId] in
/-- A vote does not lower the participation, and raises it by at most what it adds to its tally. -/
theorem participation_addVote (p : Proposal T) (vote : VoteKind) (w : Balance) :
    p.participation ≤ (p.addVote vote w).participation ∧
      (p.addVote vote w).participation.val ≤ p.participation.val + (w.val + 1) := by
  have hfor : (p.addVote vote w).forVotes.val = _ := addVote_votes_val p vote .forVote w
  have hagainst : (p.addVote vote w).againstVotes.val = _ := addVote_votes_val p vote .againstVote w
  have hforMax := le_maxBalance p.forVotes
  have hagainstMax := le_maxBalance p.againstVotes
  rw [BoundedNat.le_iff, participation_val, participation_val, hfor, hagainst]
  generalize maxBalance = m at hforMax hagainstMax ⊢
  cases vote with
  | forVote =>
    simp only [if_true, reduceCtorEq, if_false, Proposal.votes]
    omega
  | againstVote =>
    simp only [if_true, reduceCtorEq, if_false, Proposal.votes]
    omega

omit [DecidableEq AccountId] in
/-- A For vote on a proposal that has enough For votes leaves it enough. -/
theorem neededFor_addVote_for {p : Proposal T} (w : Balance) (h : p.neededFor ≤ p.forVotes) :
    (p.addVote .forVote w).neededFor ≤ (p.addVote .forVote w).forVotes := by
  have hgrow := (participation_addVote p .forVote w).2
  have hneeded : (p.addVote .forVote w).neededFor.val ≤ p.neededFor.val + (w.val + 1) :=
    T.approvalOfQuorum.mulFloor_le_add hgrow
  have hmax := le_maxBalance (p.addVote .forVote w).neededFor
  have hvotes : (p.addVote .forVote w).forVotes.val =
      min (p.forVotes.val + (w.val + 1)) maxBalance := by
    have hval := addVote_votes_val p .forVote .forVote w
    rw [if_pos rfl] at hval
    exact hval
  rw [BoundedNat.le_iff] at h ⊢
  omega

omit [DecidableEq AccountId] in
/-- An Against vote on a proposal without enough For votes leaves it without. -/
theorem not_neededFor_addVote_against {p : Proposal T} (w : Balance)
    (h : ¬ p.neededFor ≤ p.forVotes) :
    ¬ (p.addVote .againstVote w).neededFor ≤ (p.addVote .againstVote w).forVotes := by
  have hgrow := (participation_addVote p .againstVote w).1
  have hneeded : p.neededFor ≤ (p.addVote .againstVote w).neededFor :=
    T.approvalOfQuorum.mulFloor_mono hgrow
  intro hfor
  exact h (Nat.le_trans hneeded hfor)

/-- A vote that was cast before a finalization. -/
def castStep (s : State T) (who : AccountId) (id : ProposalId) (vote : VoteKind) :
    Outcome T × State T :=
  step s (.call (.signed who) (.voteProposal id vote))

/-- What a vote leaves is accepted by a finalization that would have been accepted before it, if the
vote does not tip the comparison. -/
theorem accepted_approve_after_vote {s : State T} {id : ProposalId} {p : Proposal T} {swap : Swap}
    (voter who : AccountId) (hactive : p.status = .active) (hopen : s.blockNumber < p.endBlock)
    (hquorum : minParticipation s ≤ p.participation) (hfor : p.neededFor ≤ p.forVotes)
    (hswap : p.action = .swap swap) (hcoins : swap.fromCoin ≠ swap.toCoin)
    (hbalance : swap.amount ≤ s.vault swap.fromCoin) :
    Accepted (s.castVote id p voter .forVote) (.signed who) (.finalizeProposal id)
      ((s.castVote id p voter .forVote).approve id (p.addVote .forVote (voteWeight s voter))
        swap) := by
  refine .finalizeApproved (Function.update_self _ _ _) ?_ ?_ ?_
    (neededFor_addVote_for _ hfor) ?_ hcoins hbalance
  · rw [addVote_status]
    exact hactive
  · rw [addVote_endBlock]
    exact hopen
  · exact Nat.le_trans hquorum (participation_addVote p .forVote _).1
  · rw [addVote_action]
    exact hswap

theorem accepted_reject_after_vote {s : State T} {id : ProposalId} {p : Proposal T}
    (voter who : AccountId) (hactive : p.status = .active) (hopen : s.blockNumber < p.endBlock)
    (hquorum : minParticipation s ≤ p.participation) (hfor : ¬ p.neededFor ≤ p.forVotes) :
    Accepted (s.castVote id p voter .againstVote) (.signed who) (.finalizeProposal id)
      ((s.castVote id p voter .againstVote).reject id
        (p.addVote .againstVote (voteWeight s voter))) := by
  refine .finalizeRejected (Function.update_self _ _ _) ?_ ?_ ?_
    (not_neededFor_addVote_against _ hfor)
  · rw [addVote_status]
    exact hactive
  · rw [addVote_endBlock]
    exact hopen
  · exact Nat.le_trans hquorum (participation_addVote p .againstVote _).1

/-- An accepted vote leaves `State.castVote`. -/
theorem castStep_eq {s : State T} {voter : AccountId} {id : ProposalId} {vote : VoteKind}
    {p : Proposal T} (hp : s.proposals id = some p)
    (hok : (castStep s voter id vote).1 = .ok ⟨⟩) :
    (castStep s voter id vote).2 = s.castVote id p voter vote := by
  have ha : Accepted s (.signed voter) (.voteProposal id vote) (castStep s voter id vote).2 :=
    accepted_of_step_ok hok
  generalize (castStep s voter id vote).2 = s' at ha ⊢
  cases ha with
  | voteProposal hq =>
    cases hp.symm.trans hq
    rfl

/-- **A vote does not work against its side.** If a finalization would approve the proposal and a
For vote would be accepted, then the finalization approves it after that vote as well, with the
same vault and karma; if a finalization would reject it and an Against vote would be accepted, then
the finalization rejects it after that vote as well. -/
theorem vote_supports_its_side (s : State T) (id : ProposalId) (voter who who' : AccountId) :
    ((finalizeStep s who id).1 = .ok ⟨⟩ →
      statusOf (finalizeStep s who id).2 id = some .approved →
      (castStep s voter id .forVote).1 = .ok ⟨⟩ →
        let after := finalizeStep (castStep s voter id .forVote).2 who' id
        after.1 = .ok ⟨⟩ ∧ statusOf after.2 id = some .approved ∧
          after.2.vault = (finalizeStep s who id).2.vault ∧
          after.2.karma = (finalizeStep s who id).2.karma) ∧
    ((finalizeStep s who id).1 = .ok ⟨⟩ →
      statusOf (finalizeStep s who id).2 id = some .rejected →
      (castStep s voter id .againstVote).1 = .ok ⟨⟩ →
        let after := finalizeStep (castStep s voter id .againstVote).2 who' id
        after.1 = .ok ⟨⟩ ∧ statusOf after.2 id = some .rejected) := by
  constructor
  · intro hok hstatus hvote after
    have ha : Accepted s (.signed who) (.finalizeProposal id) (finalizeStep s who id).2 :=
      accepted_of_step_ok hok
    generalize (finalizeStep s who id).2 = s' at ha hstatus ⊢
    cases ha with
    | finalizeRejected hp =>
      rw [statusOf_reject] at hstatus
      cases hstatus
    | @finalizeApproved _ _ p swap hp hactive hopen hquorum hfor hswap hcoins hbalance =>
      have hafter : after = finalizeStep (s.castVote id p voter .forVote) who' id := by
        rw [← castStep_eq hp hvote]
      rw [hafter, finalizeStep, step_call_of_accepted (accepted_approve_after_vote voter who'
        hactive hopen hquorum hfor hswap hcoins hbalance)]
      refine ⟨rfl, statusOf_approve _ id _ swap, rfl, ?_⟩
      -- the vote did not change the author, who gets the point
      unfold State.approve
      rw [addVote_author]
      rfl
  · intro hok hstatus hvote after
    have ha : Accepted s (.signed who) (.finalizeProposal id) (finalizeStep s who id).2 :=
      accepted_of_step_ok hok
    generalize (finalizeStep s who id).2 = s' at ha hstatus
    cases ha with
    | @finalizeRejected _ _ p hp hactive hopen hquorum hfor =>
      have hafter : after = finalizeStep (s.castVote id p voter .againstVote) who' id := by
        rw [← castStep_eq hp hvote]
      rw [hafter, finalizeStep, step_call_of_accepted (accepted_reject_after_vote voter who'
        hactive hopen hquorum hfor)]
      exact ⟨rfl, statusOf_reject _ id _⟩
    | finalizeApproved hp =>
      rw [statusOf_approve] at hstatus
      cases hstatus

/-- In the first block Alice and Bob stake, and Alice votes against her own proposal. -/
def beforeRejection : List (Op DevConfig) :=
  [.block (.clamp _ 1), .call (.signed .alice) (.deposit (.clamp _ 100)),
    .call (.signed .bob) (.deposit (.clamp _ 1)),
    .call (.signed .alice) (proposeSwap ⟨.dot, .kusama, 0⟩),
    .call (.signed .alice) (.voteProposal 0 .againstVote)]

/-- The theorem where Bob votes as Alice did, for her proposal and against it. -/
theorem vote_supports_its_side_bob :
    statusOf (finalizeStep (castStep (run developmentGenesis beforeEarlyFinalization)
      .bob 0 .forVote).2 .alice 0).2 0 = some .approved ∧
    statusOf (finalizeStep (castStep (run developmentGenesis beforeRejection)
      .bob 0 .againstVote).2 .alice 0).2 0 = some .rejected := by
  have hfor := (vote_supports_its_side (run developmentGenesis beforeEarlyFinalization) 0
    .bob .alice .alice).1 rfl (by decide) rfl
  have hagainst := (vote_supports_its_side (run developmentGenesis beforeRejection) 0
    .bob .alice .alice).2 rfl (by decide) rfl
  exact ⟨hfor.2.1, hagainst.2⟩

end MulticoinTreasury
