import MulticoinTreasury.Pallet.Threshold

/-!
# Splitting a stake over accounts

Each vote counts its weight and one more. So a stake that is split over several accounts gains one
unit for each further account, against the same stake in one account; the stakes themselves are
counted exactly, in whatever way they are split.
-/

set_option autoImplicit false

namespace MulticoinTreasury

variable {AccountId : Type} {T : Config AccountId}

/-- An account that has a stake but no karma, and has not voted on the proposal `id`. -/
structure FreshStaker (s : State T) (id : ProposalId) (a : AccountId) : Prop where
  karma_eq : s.karma a = 0
  staked : 0 < (s.deposits a).val
  fresh : s.hasVoted id a = false

/-- Without karma a vote weighs the stake. -/
theorem FreshStaker.voteWeight_val {s : State T} {id : ProposalId} {a : AccountId}
    (h : FreshStaker s id a) : (voteWeight s a).val = (s.deposits a).val := by
  have hrange := le_maxBalance (s.deposits a)
  rw [MulticoinTreasury.voteWeight_val, ballotWeight, h.karma_eq, BoundedNat.zero_val,
    Nat.mul_zero, Nat.zero_min, Nat.add_zero]
  exact Nat.min_eq_left hrange

/-- All accounts of a list vote the same kind, one after another. -/
def voteAll (id : ProposalId) (kind : VoteKind) (voters : List AccountId) : List (Op T) :=
  voters.map fun a => .call (.signed a) (.voteProposal id kind)

/-- The stakes of the accounts of a list. -/
def stakeOf (s : State T) (voters : List AccountId) : Nat :=
  (voters.map fun a => (s.deposits a).val).sum

variable [DecidableEq AccountId]

/-- A fresh staker is accepted while the proposal is open. -/
theorem FreshStaker.accepted {s : State T} {id : ProposalId} {a : AccountId} {p : Proposal T}
    (h : FreshStaker s id a) (hp : s.proposals id = some p) (hactive : p.status = .active)
    (hopen : s.blockNumber ≤ p.endBlock) (kind : VoteKind) :
    Accepted s (.signed a) (.voteProposal id kind) (s.castVote id p a kind) := by
  refine .voteProposal hp hactive hopen h.fresh fun hzero => ?_
  have hweight := h.voteWeight_val
  rw [BoundedNat.eq_zero_iff.1 hzero] at hweight
  exact absurd hweight (Nat.ne_of_lt h.staked)

/-- The vote of one account leaves the others fresh. -/
theorem FreshStaker.castVote {s : State T} {id : ProposalId} {a b : AccountId}
    (h : FreshStaker s id b) (hab : b ≠ a) (p : Proposal T) (kind : VoteKind) :
    FreshStaker (s.castVote id p a kind) id b where
  karma_eq := h.karma_eq
  staked := h.staked
  fresh := by
    show Function.update s.hasVoted id (Function.update (s.hasVoted id) a true) id b = false
    rw [Function.update_self, Function.update_of_ne hab]
    exact h.fresh

/-- After the votes of fresh stakers their tally has grown by their stakes and one for each of
them, clipped once. -/
theorem votes_voteAll (id : ProposalId) (kind : VoteKind) (voters : List AccountId) {s : State T}
    {p : Proposal T} (hp : s.proposals id = some p) (hactive : p.status = .active)
    (hopen : s.blockNumber ≤ p.endBlock) (hnodup : voters.Nodup)
    (hfresh : ∀ a ∈ voters, FreshStaker s id a) :
    (∀ e ∈ history s (voteAll id kind voters), e.output = .ok ⟨⟩) ∧
    ∃ p', (run s (voteAll id kind voters)).proposals id = some p' ∧
      (p'.votes kind).val =
        min ((p.votes kind).val + (stakeOf s voters + voters.length)) maxBalance := by
  induction voters generalizing s p with
  | nil =>
    refine ⟨fun e he => absurd he List.not_mem_nil, p, hp, ?_⟩
    exact (Nat.min_eq_left (le_maxBalance _)).symm
  | cons a voters ih =>
    have hnodup' := List.nodup_cons.1 hnodup
    have ha := hfresh a List.mem_cons_self
    have hstep := step_call_of_accepted (ha.accepted hp hactive hopen kind)
    -- the others vote in the state after the first vote, on the proposal with its weight
    have hrest : ∀ b ∈ voters, FreshStaker (s.castVote id p a kind) id b := by
      intro b hb
      have hne : b ≠ a := fun h => hnodup'.1 (h ▸ hb)
      exact (hfresh b (List.mem_cons_of_mem a hb)).castVote hne p kind
    have hp' : (s.castVote id p a kind).proposals id = some (p.addVote kind (voteWeight s a)) :=
      Function.update_self _ _ _
    obtain ⟨houtputs, q, hq, hvotes⟩ := ih hp' ((addVote_status _ _ _).trans hactive)
      ((addVote_endBlock p kind _).symm ▸ hopen) hnodup'.2 hrest
    have hfirst : ((p.addVote kind (voteWeight s a)).votes kind).val =
        min ((p.votes kind).val + ((s.deposits a).val + 1)) maxBalance := by
      rw [addVote_votes_val, if_pos rfl, ha.voteWeight_val]
    have hrun : run s (voteAll id kind (a :: voters)) =
        run (s.castVote id p a kind) (voteAll id kind voters) := by
      rw [run, voteAll, List.map_cons, Machine.run_cons, hstep]
      rfl
    refine ⟨fun e he => ?_, q, hrun ▸ hq, ?_⟩
    · rw [history, voteAll, List.map_cons, Machine.trace_cons, hstep, List.mem_cons] at he
      rcases he with rfl | he
      · exact congrArg Prod.fst hstep
      · exact houtputs e he
    · have hstakes : stakeOf s (a :: voters) = (s.deposits a).val + stakeOf s voters :=
        List.sum_cons
      have hkept : stakeOf (s.castVote id p a kind) voters = stakeOf s voters := rfl
      rw [hvotes, hfirst, hstakes, hkept, List.length_cons]
      omega

/-- **A split stake gains one unit for each further account.** Fresh stakers that all vote the same
kind on an open proposal are all accepted, and their tally grows by their stakes and one for each of
them. One fresh staker with all their stakes would have raised it by the stakes and one: the split
is worth one unit for each account after the first, and nothing only if there is just one. -/
theorem split_gains_one_each (l : T.currency.Ledger) (ops : List (Op T)) (id : ProposalId)
    (p : Proposal T) (hp : (run (genesis T l) ops).proposals id = some p)
    (hactive : p.status = .active) (hopen : (run (genesis T l) ops).blockNumber ≤ p.endBlock)
    (kind : VoteKind) (voters : List AccountId) (hnodup : voters.Nodup)
    (hfresh : ∀ a ∈ voters, FreshStaker (run (genesis T l) ops) id a)
    (hrange : (p.votes kind).val + (stakeOf (run (genesis T l) ops) voters + voters.length) ≤
      maxBalance)
    (t : State T) (single : AccountId) (htp : t.proposals id = some p)
    (htopen : t.blockNumber ≤ p.endBlock) (hsingle : FreshStaker t id single)
    (hstake : (t.deposits single).val = stakeOf (run (genesis T l) ops) voters) :
    let s := run (genesis T l) ops
    (∀ e ∈ history s (voteAll id kind voters), e.output = .ok ⟨⟩) ∧
      (castStep t single id kind).1 = .ok ⟨⟩ ∧
      ∃ p' q, (run s (voteAll id kind voters)).proposals id = some p' ∧
        (castStep t single id kind).2.proposals id = some q ∧
        (p'.votes kind).val = (p.votes kind).val + (stakeOf s voters + voters.length) ∧
        (q.votes kind).val = (p.votes kind).val + (stakeOf s voters + 1) ∧
        (p'.votes kind = q.votes kind ↔ voters.length = 1) := by
  intro s
  obtain ⟨houtputs, p', hp', hvotes⟩ := votes_voteAll id kind voters hp hactive hopen hnodup hfresh
  -- the single account is a list of one
  obtain ⟨houtput, q, hq, hone⟩ := votes_voteAll id kind [single] htp hactive htopen
    (List.nodup_singleton single) fun a ha => List.mem_singleton.1 ha ▸ hsingle
  have hstake1 : stakeOf t [single] = stakeOf s voters := (Nat.add_zero _).trans hstake
  have hlength : 0 < voters.length := by
    cases voters with
    | nil =>
      have hpos := hsingle.staked
      rw [hstake] at hpos
      exact absurd hpos (Nat.lt_irrefl 0)
    | cons a voters => exact Nat.succ_pos _
  have hfits : (p.votes kind).val + (stakeOf s voters + 1) ≤ maxBalance :=
    (Nat.add_le_add_left (Nat.add_le_add_left hlength _) _).trans hrange
  rw [Nat.min_eq_left hrange] at hvotes
  rw [hstake1, List.length_singleton, Nat.min_eq_left hfits] at hone
  refine ⟨houtputs, houtput _ List.mem_cons_self, p', q, hp', hq, hvotes, hone, ?_⟩
  rw [BoundedNat.ext_iff, hvotes, hone, Nat.add_left_cancel_iff, Nat.add_left_cancel_iff]

/-- Alice and Bob stake one unit each, and a third account two; nobody has voted yet. -/
def beforeSplitVotes : List (Op DevConfig) :=
  [.block (.clamp _ 1), .call (.signed .alice) (.deposit (.clamp _ 1)),
    .call (.signed .bob) (.deposit (.clamp _ 1)),
    .call (.signed .aliceStash) (.deposit (.clamp _ 2)),
    .call (.signed .alice) (proposeSwap ⟨.dot, .kusama, 0⟩)]

theorem freshStaker_beforeSplitVotes :
    (∀ a ∈ [DevAccount.alice, .bob], FreshStaker (run developmentGenesis beforeSplitVotes) 0 a) ∧
      FreshStaker (run developmentGenesis beforeSplitVotes) 0 .aliceStash := by
  refine ⟨fun a ha => ?_, ⟨rfl, by decide, rfl⟩⟩
  simp only [List.mem_cons, List.not_mem_nil, or_false] at ha
  rcases ha with rfl | rfl
  · exact ⟨rfl, by decide, rfl⟩
  · exact ⟨rfl, by decide, rfl⟩

/-- One unit of Alice and one of Bob count four, two units of one account count three. -/
theorem split_stake_counts_more : ∃ p p' q,
    (run developmentGenesis beforeSplitVotes).proposals 0 = some p ∧ p.status = .active ∧
      p.forVotes = 0 ∧
      (∀ a ∈ [DevAccount.alice, .bob],
        FreshStaker (run developmentGenesis beforeSplitVotes) 0 a) ∧
      FreshStaker (run developmentGenesis beforeSplitVotes) 0 .aliceStash ∧
      ((run developmentGenesis beforeSplitVotes).deposits .aliceStash).val =
        stakeOf (run developmentGenesis beforeSplitVotes) [.alice, .bob] ∧
      (run (run developmentGenesis beforeSplitVotes)
        (voteAll 0 .forVote [.alice, .bob])).proposals 0 = some p' ∧
      (castStep (run developmentGenesis beforeSplitVotes) .aliceStash 0 .forVote).2.proposals 0 =
        some q ∧
      p'.forVotes.val = 4 ∧ q.forVotes.val = 3 :=
  ⟨_, _, _, rfl, rfl, rfl, freshStaker_beforeSplitVotes.1, freshStaker_beforeSplitVotes.2, rfl,
    rfl, rfl, by decide, by decide⟩

/-- The theorem at that state. -/
theorem split_gains_one_each_dev : ∃ p' q,
    (run (run developmentGenesis beforeSplitVotes)
      (voteAll 0 .forVote [.alice, .bob])).proposals 0 = some p' ∧
    (castStep (run developmentGenesis beforeSplitVotes) .aliceStash 0 .forVote).2.proposals 0 =
      some q ∧ p'.votes .forVote ≠ q.votes .forVote := by
  obtain ⟨-, -, p', q, hp', hq, -, -, heq⟩ := split_gains_one_each (T := DevConfig)
    developmentGenesis.ledger beforeSplitVotes 0 _ rfl rfl (by decide) .forVote [.alice, .bob]
    (by decide) freshStaker_beforeSplitVotes.1 (by decide)
    (run developmentGenesis beforeSplitVotes) .aliceStash rfl (by decide)
    freshStaker_beforeSplitVotes.2 rfl
  exact ⟨p', q, hp', hq, fun h => absurd (heq.1 h) (by decide)⟩

end MulticoinTreasury
