import MulticoinTreasury.Pallet.Ballots
import MulticoinTreasury.Pallet.Stakes

/-!
# Stake that is counted more than once

A vote counts the stake of its voter at that moment and does not lock it. After a withdrawal the
same currency can back another vote, of the same account on another proposal or, after a transfer,
of another account on the same one. What the tallies of a proposal can exceed the stakes, the karma
and the number of voters by is exactly bounded by what voters have withdrawn after their vote.
-/

set_option autoImplicit false

namespace MulticoinTreasury

variable {AccountId : Type} [DecidableEq AccountId] {T : Config AccountId}

/-! ## Karma -/

/-- A step leaves all karma alone or gives one account one point. -/
theorem karma_step {s s' : State T} {op : Op T} {out : Outcome T} (ht : Transition s op out s') :
    s'.karma = s.karma ∨
      ∃ a, s'.karma = Function.update s.karma a ((s.karma a).saturatingAdd (.clamp _ 1)) := by
  cases ht with
  | accepted ha =>
    cases ha with
    | @finalizeApproved who id p swap hp hactive hopen hquorum hfor hswap hcoins hbalance =>
      exact Or.inr ⟨p.author, rfl⟩
    | createProposal | voteProposal | finalizeRejected | deposit | withdraw | seedVault =>
      exact Or.inl rfl
  | refused | block | currency => exact Or.inl rfl

/-- Karma never decreases. -/
theorem karma_le_step {s s' : State T} {op : Op T} {out : Outcome T} (ht : Transition s op out s')
    (a : AccountId) : (s.karma a).val ≤ (s'.karma a).val := by
  rcases karma_step ht with hkarma | ⟨b, hkarma⟩
  · rw [hkarma]
  · rw [hkarma]
    by_cases ha : a = b
    · subst ha
      have hrange := (s.karma a).le_max
      rw [Function.update_self, BoundedNat.saturatingAdd_val]
      omega
    · rw [Function.update_of_ne ha]

/-- Finitely many accounts have karma. -/
theorem karma_finite (l : T.currency.Ledger) (ops : List (Op T)) :
    (fun a => ((run (genesis T l) ops).karma a).val).HasFiniteSupport := by
  refine run_invariant (P := fun s : State T => (fun a => (s.karma a).val).HasFiniteSupport)
    ?_ ?_ ops
  · intro s s' op out ht h
    rcases karma_step ht with hkarma | ⟨b, hkarma⟩
    · rw [hkarma]
      exact h
    · refine FiniteSum.hasFiniteSupport_change h (a := b) fun a ha => ?_
      rw [hkarma, Function.update_of_ne ha]
  · exact Book.empty.finite

/-! ## What backs a vote -/

/-- The stake and the karma of an account, in exact arithmetic. -/
def backing (s : State T) (a : AccountId) : Nat :=
  (s.deposits a).val + T.karmaUnit.val * (s.karma a).val

omit [DecidableEq AccountId] in
theorem ballotWeight_le_backing (s : State T) (a : AccountId) : ballotWeight s a ≤ backing s a := by
  unfold ballotWeight backing
  omega

/-- The part of a stake move that an account withdraws after it has voted. -/
def StakeMove.afterVote (voted : AccountId → Bool) : StakeMove AccountId → Nat
  | .removed who amount => if voted who = true then amount.val else 0
  | _ => 0

/-- What the accounts withdrew after they had voted on the proposal `id`. -/
def withdrawnAfterVote (id : ProposalId) (h : List (Entry T)) : Nat :=
  Machine.total (fun e => (stakeMove e).afterVote (e.before.hasVoted id)) h

theorem voterSum_removedFrom {s : State T} {id : ProposalId}
    {box : BallotBox AccountId VoteKind} (hbox : Represents s id box) (m : StakeMove AccountId) :
    box.voterSum (fun a => m.removedFrom a) = m.afterVote (s.hasVoted id) := by
  rw [BallotBox.voterSum_eq_sum]
  cases m with
  | kept => exact Finset.sum_const_zero
  | added who amount => exact Finset.sum_const_zero
  | removed who amount =>
    simp only [StakeMove.removedFrom, StakeMove.afterVote, Finset.sum_ite_eq, List.mem_toFinset,
      hbox.voted_iff]

/-- The backing of an account falls by no more than what the account withdraws. -/
theorem backing_step (hC : T.currency.Lawful) {s : State T} {book : Book AccountId}
    (hbook : HoldsStakes s book) (op : Op T) (a : AccountId) :
    backing s a ≤
      backing (step s op).2 a + (stakeMove (Machine.entry step s op)).removedFrom a := by
  have hdeposits := hbook.deposits_step hC op a
  have hkarma := Nat.mul_le_mul_left T.karmaUnit.val (karma_le_step (step_transition s op) a)
  unfold backing
  omega

omit [DecidableEq AccountId] in
/-- An accepted vote moves no stake. -/
theorem stakeMove_of_ballot {id : ProposalId} {e : Entry T} {b : Ballot AccountId VoteKind}
    (h : ballotOf id e = some b) : stakeMove e = .kept := by
  obtain ⟨s, op, out, s'⟩ := e
  unfold ballotOf at h
  dsimp only at h
  split at h
  · rfl
  · cases h

/-- The weights of a box are covered by what its voters have now and what they have removed. -/
def Backed (s : State T) (box : BallotBox AccountId VoteKind) (removed : Nat) : Prop :=
  box.weight ≤ box.voterSum (backing s) + removed

theorem backed_step (hC : T.currency.Lawful) {s : State T} {book : Book AccountId}
    (hbook : HoldsStakes s book) {id : ProposalId} {op : Op T}
    (hvotes : VotesStep id s (step s op).2 (ballotOf id (Machine.entry step s op)))
    {box box' : BallotBox AccountId VoteKind} {removed : Nat} (hbox : Represents s id box)
    (hballots : box'.ballots = box.ballots ++ (ballotOf id (Machine.entry step s op)).toList)
    (h : Backed s box removed) :
    Backed (step s op).2 box'
      (removed + (stakeMove (Machine.entry step s op)).afterVote (s.hasVoted id)) := by
  -- the voters so far keep their backing, up to what they withdraw in this step
  have hold : box.voterSum (backing s) ≤ box.voterSum (backing (step s op).2) +
      (stakeMove (Machine.entry step s op)).afterVote (s.hasVoted id) := by
    rw [← voterSum_removedFrom hbox, ← BallotBox.voterSum_add]
    exact BallotBox.voterSum_le_voterSum (backing_step hC hbook op) box
  have hweight := BallotBox.weight_of_append hballots
  have hvoters := BallotBox.voterSum_of_append (backing (step s op).2) hballots
  unfold Backed at h ⊢
  cases hb : ballotOf id (Machine.entry step s op) with
  | none =>
    rw [hb] at hweight hvoters
    simp only [Option.toList_none, List.map_nil, List.sum_nil] at hweight hvoters
    omega
  | some b =>
    -- the new ballot weighs at most what its voter has, before the step and after it
    have hnew : b.weight ≤ backing (step s op).2 b.voter := by
      have hback := backing_step hC hbook op b.voter
      rw [stakeMove_of_ballot hb] at hback
      rw [hb] at hvotes
      cases hvotes with
      | cast => exact (ballotWeight_le_backing s _).trans hback
    rw [hb] at hweight hvoters
    simp only [Option.toList_some, List.map_singleton, List.sum_singleton] at hweight hvoters
    omega

/-- In every reachable state the weights counted for a proposal are backed by the present stakes
and karma of its voters, up to what they withdrew after their vote. -/
theorem backed_run (hC : T.currency.Lawful) {l : T.currency.Ledger}
    (hzero : ∀ a, T.currency.reservedBalance l a = 0) (id : ProposalId) (ops : List (Op T)) :
    ∃ box, Represents (run (genesis T l) ops) id box ∧
      box.ballots = ballots id (history (genesis T l) ops) ∧
        Backed (run (genesis T l) ops) box
          (withdrawnAfterVote id (history (genesis T l) ops)) := by
  refine Machine.trace_induction (P := fun h s => ∃ box, Represents s id box ∧
    box.ballots = ballots id h ∧ Backed s box (withdrawnAfterVote id h)) ?_ ?_ ops
  · exact ⟨.empty, represents_genesis l id, rfl, Nat.le_refl 0⟩
  · rintro ops op ⟨box, hbox, hballots, hback⟩
    obtain ⟨book, hbook⟩ := holdsStakes_run hC hzero ops
    have hstore : StoreInv (run (genesis T l) ops) := storeInv_reached l ops
    have hvotes := votesStep id hstore (step_transition (run (genesis T l) ops) op)
    obtain ⟨box', hballots', hbox'⟩ := represents_step hstore hvotes hbox
    refine ⟨box', hbox', ?_, ?_⟩
    · rw [ballots_snoc, ← hballots]
      exact hballots'
    · rw [withdrawnAfterVote, Machine.total_snoc]
      exact backed_step hC hbook hvotes hbox hballots' hback

/-! ## The bound on the tallies -/

omit [DecidableEq AccountId] in
/-- The voters of a proposal are counted by its box. -/
theorem ncard_voters {s : State T} {id : ProposalId} {box : BallotBox AccountId VoteKind}
    (hbox : Represents s id box) : {a | s.hasVoted id a = true}.ncard = box.voters.length := by
  classical
  have hset : {a | s.hasVoted id a = true} = (box.voters.toFinset : Set AccountId) := by
    ext a
    rw [Finset.mem_coe, List.mem_toFinset]
    exact hbox.voted_iff a
  have hcard : box.voters.toFinset.card = box.voters.length :=
    List.toFinset_card_of_nodup box.once
  rw [hset, Set.ncard_coe_finset, hcard]

/-- **Stake is counted once per proposal, except for what is withdrawn after a vote.** The tallies
of a proposal together are at most the total stake, the weight of all karma and the number of
voters, plus what accounts withdrew after they had voted on the proposal. -/
theorem votes_le_stake_and_withdrawn (hC : T.currency.Lawful) (hI : T.currency.IssuanceBounded)
    (l : T.currency.Ledger) (hzero : ∀ a, T.currency.reservedBalance l a = 0) (ops : List (Op T))
    (id : ProposalId) (p : Proposal T) (hp : (run (genesis T l) ops).proposals id = some p) :
    let s := run (genesis T l) ops
    p.forVotes.val + p.againstVotes.val ≤
      s.totalStake.val + T.karmaUnit.val * ∑ᶠ a, (s.karma a).val +
        {a | s.hasVoted id a = true}.ncard + withdrawnAfterVote id (history (genesis T l) ops) := by
  intro s
  obtain ⟨box, hbox, hballots, hback⟩ := backed_run hC hzero id ops
  obtain ⟨book, hbook⟩ := holdsTotal_run hC hI hzero ops
  have hfor : p.forVotes.val = min (box.tally 1 .forVote) maxBalance :=
    hbox.votes_val p hp .forVote
  have hagainst : p.againstVotes.val = min (box.tally 1 .againstVote) maxBalance :=
    hbox.votes_val p hp .againstVote
  -- the two tallies split the ballots; stakes and karma are summed over the voters
  have htallies : box.tally 1 .forVote + box.tally 1 .againstVote ≤
      box.weight + 1 * box.voters.length := BallotBox.tally_add_tally_le 1 (by decide) box
  have hstake : box.voterSum (fun a => (s.deposits a).val) ≤ s.totalStake.val := by
    have hdeposits : (fun a => (s.deposits a).val) = book.balance :=
      funext hbook.deposits_val
    rw [hdeposits, hbook.total_val]
    exact FiniteSum.list_sum_le_finsum book.finite box.once
  have hkarma : box.voterSum (fun a => T.karmaUnit.val * (s.karma a).val) ≤
      T.karmaUnit.val * ∑ᶠ a, (s.karma a).val := by
    rw [BallotBox.voterSum, List.sum_map_mul_left]
    exact Nat.mul_le_mul_left _ (FiniteSum.list_sum_le_finsum (karma_finite l ops) box.once)
  have hsplit : box.voterSum (backing s) = box.voterSum (fun a => (s.deposits a).val) +
      box.voterSum fun a => T.karmaUnit.val * (s.karma a).val := BallotBox.voterSum_add _ _ box
  have hvoters : {a | s.hasVoted id a = true}.ncard = box.voters.length := ncard_voters hbox
  unfold Backed at hback
  rw [hvoters]
  change box.weight ≤ box.voterSum (backing s) + _ at hback
  omega

/-- Alice votes with a thousand units, withdraws them and sends them to Bob, who votes with them
again. -/
def sameStakeTwice : List (Op DevConfig) :=
  [.block (.clamp _ 1), .call (.signed .alice) (.deposit (.clamp _ 1000)),
    .call (.signed .alice) (proposeSwap ⟨.dot, .kusama, 0⟩),
    .call (.signed .alice) (.voteProposal 0 .forVote),
    .call (.signed .alice) (.withdraw (.clamp _ 1000)),
    .currency (.transfer .alice .bob 1000), .call (.signed .bob) (.deposit (.clamp _ 1000)),
    .call (.signed .bob) (.voteProposal 0 .forVote)]

/-- The For votes are 2002 where stake, karma and voters together are 1002. -/
theorem same_stake_counted_twice : ∃ p,
    (run developmentGenesis sameStakeTwice).proposals 0 = some p ∧ p.status = .active ∧
      ¬ p.forVotes.val + p.againstVotes.val ≤
        (run developmentGenesis sameStakeTwice).totalStake.val +
          DevConfig.karmaUnit.val * ∑ᶠ a, ((run developmentGenesis sameStakeTwice).karma a).val +
            {a | (run developmentGenesis sameStakeTwice).hasVoted 0 a = true}.ncard := by
  refine ⟨_, rfl, rfl, ?_⟩
  have hkarma : ∑ᶠ a, ((run developmentGenesis sameStakeTwice).karma a).val = 0 :=
    finsum_eq_zero_of_forall_eq_zero fun a => by cases a <;> rfl
  have hvoters : {a | (run developmentGenesis sameStakeTwice).hasVoted 0 a = true} =
      {.alice, .bob} := by
    ext a
    cases a <;> decide
  have hpair : ({.alice, .bob} : Set DevAccount).ncard = 2 := Set.ncard_pair (by decide)
  have htotal : (run developmentGenesis sameStakeTwice).totalStake.val = 1000 := rfl
  rw [hkarma, hvoters, hpair, htotal]
  decide

/-- The bound at that run: Alice withdrew a thousand units after her vote. -/
theorem votes_le_stake_and_withdrawn_dev :
    (2002 : Nat) ≤ (run developmentGenesis sameStakeTwice).totalStake.val +
      DevConfig.karmaUnit.val * ∑ᶠ a, ((run developmentGenesis sameStakeTwice).karma a).val +
        {a | (run developmentGenesis sameStakeTwice).hasVoted 0 a = true}.ncard +
          withdrawnAfterVote 0 (history developmentGenesis sameStakeTwice) :=
  votes_le_stake_and_withdrawn (T := DevConfig) PlainLedger.currency_lawful
    PlainLedger.currency_issuanceBounded developmentGenesis.ledger (fun _ => rfl) sameStakeTwice 0 _
    rfl

end MulticoinTreasury
