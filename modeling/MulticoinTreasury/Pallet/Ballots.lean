import MulticoinTreasury.Library.BallotBox
import MulticoinTreasury.Pallet.ProposalStore

/-!
# Tallies and recorded votes

The votes that a run accepts on a proposal form a ballot box: one ballot for each voter, with the
weight read at the moment of the vote. `represents_run` shows that the storage always holds the
count of that box: `HasVoted` its voters, and the two tallies its counts, clipped once at
`u128::MAX` although each vote clips twice.
-/

set_option autoImplicit false

namespace MulticoinTreasury

variable {AccountId : Type} {T : Config AccountId}

/-- The weight of an account's vote, in exact arithmetic with the two clippings written out. -/
def ballotWeight (s : State T) (who : AccountId) : Nat :=
  min ((s.deposits who).val + min (T.karmaUnit.val * (s.karma who).val) maxBalance) maxBalance

theorem voteWeight_val (s : State T) (who : AccountId) :
    (voteWeight s who).val = ballotWeight s who := rfl

/-- The tally of one kind of vote. -/
def Proposal.votes (p : Proposal T) (vote : VoteKind) : Balance :=
  match vote with
  | .forVote => p.forVotes
  | .againstVote => p.againstVotes

/-- A vote adds its weight and one to the tally of its kind, clipped once, and leaves the other
tally alone. -/
theorem addVote_votes_val (p : Proposal T) (vote kind : VoteKind) (w : Balance) :
    ((p.addVote vote w).votes kind).val =
      min ((p.votes kind).val + if vote = kind then w.val + 1 else 0) maxBalance := by
  have hclip : ∀ b : Balance, ((b.saturatingAdd w).saturatingAdd (.clamp _ 1)).val =
      min (b.val + (w.val + 1)) maxBalance := by
    intro b
    rw [BoundedNat.saturatingAdd_saturatingAdd_val]
    rfl
  cases vote with
  | forVote =>
    cases kind with
    | forVote => exact hclip p.forVotes
    | againstVote => exact (Nat.min_eq_left p.againstVotes.le_max).symm
  | againstVote =>
    cases kind with
    | forVote => exact (Nat.min_eq_left p.forVotes.le_max).symm
    | againstVote => exact hclip p.againstVotes

/-- The ballot that an executed operation cast on the proposal `id`. -/
def ballotOf (id : ProposalId) (e : Entry T) : Option (Ballot AccountId VoteKind) :=
  match e.input, e.output with
  | .call (.signed who) (.voteProposal i vote), .ok _ =>
      if i = id then some ⟨who, vote, ballotWeight e.before who⟩ else none
  | _, _ => none

/-- The ballots that a history cast on the proposal `id`, in order. -/
def ballots (id : ProposalId) (h : List (Entry T)) : List (Ballot AccountId VoteKind) :=
  h.filterMap (ballotOf id)

theorem ballots_snoc (id : ProposalId) (h : List (Entry T)) (e : Entry T) :
    ballots id (h ++ [e]) = ballots id h ++ (ballotOf id e).toList := by
  unfold ballots
  rw [List.filterMap_append]
  cases he : ballotOf id e <;> simp [he]

variable [DecidableEq AccountId]

/-- What an executed operation does to the votes on the proposal `id`: it leaves them alone, with
no votes on a proposal that it creates, or it casts one ballot. -/
inductive VotesStep (id : ProposalId) (s s' : State T) : Option (Ballot AccountId VoteKind) → Prop
  | kept (hvoted : s'.hasVoted id = s.hasVoted id)
      (hold : ∀ p', s'.proposals id = some p' →
        (∃ p, s.proposals id = some p ∧ ∀ kind, p'.votes kind = p.votes kind) ∨
        (s.proposals id = none ∧ ∀ kind, p'.votes kind = 0)) :
      VotesStep id s s' none
  | cast {who : AccountId} {vote : VoteKind} {p : Proposal T} (hp : s.proposals id = some p)
      (hactive : p.status = .active) (hfresh : s.hasVoted id who = false)
      (hweight : 0 < ballotWeight s who)
      (hvoted : s'.hasVoted id = Function.update (s.hasVoted id) who true)
      (hnew : s'.proposals id = some (p.addVote vote (voteWeight s who))) :
      VotesStep id s s' (some ⟨who, vote, ballotWeight s who⟩)

omit [DecidableEq AccountId] in
/-- Operations that do not write proposals keep the votes. -/
theorem VotesStep.of_eq {id : ProposalId} {s s' : State T}
    (hproposals : s'.proposals = s.proposals) :
    ∀ p', s'.proposals id = some p' →
      (∃ p, s.proposals id = some p ∧ ∀ kind, p'.votes kind = p.votes kind) ∨
      (s.proposals id = none ∧ ∀ kind, p'.votes kind = 0) := by
  intro p' hp'
  rw [hproposals] at hp'
  exact Or.inl ⟨p', hp', fun _ => rfl⟩

omit [DecidableEq AccountId] in
/-- Writing a proposal with the same tallies keeps the votes. -/
theorem VotesStep.of_update {id i : ProposalId} {s : State T} {p q : Proposal T}
    (hp : s.proposals i = some p) (hq : ∀ kind, q.votes kind = p.votes kind) :
    ∀ p', Function.update s.proposals i (some q) id = some p' →
      (∃ p, s.proposals id = some p ∧ ∀ kind, p'.votes kind = p.votes kind) ∨
      (s.proposals id = none ∧ ∀ kind, p'.votes kind = 0) := by
  intro p' hp'
  rcases PointUpdate.update_eq_some hp' with ⟨rfl, rfl⟩ | ⟨-, hold⟩
  · exact Or.inl ⟨p, hp, hq⟩
  · exact Or.inl ⟨p', hold, fun _ => rfl⟩

theorem votesStep (id : ProposalId) {s s' : State T} {op : Op T} {out : Outcome T}
    (hstore : StoreInv s) (ht : Transition s op out s') :
    VotesStep id s s' (ballotOf id ⟨s, op, out, s'⟩) := by
  cases ht with
  | @accepted origin _ _ ha =>
    cases ha with
    | createProposal hmin hmax hnext =>
      refine .kept rfl fun p' hp' => ?_
      rcases PointUpdate.update_eq_some hp' with ⟨rfl, rfl⟩ | ⟨-, hold⟩
      · -- a new proposal takes a free id and starts without votes
        refine Or.inr ⟨hstore.next_free, fun kind => ?_⟩
        cases kind <;> rfl
      · exact Or.inl ⟨p', hold, fun _ => rfl⟩
    | @voteProposal who i vote p hp hactive hopen hfresh hweight =>
      -- a vote on this proposal is a ballot, a vote on another one is not
      by_cases hi : i = id
      · subst hi
        have hpos : 0 < ballotWeight s who := by
          rw [← voteWeight_val]
          exact Nat.pos_of_ne_zero fun h0 => hweight (BoundedNat.eq_zero_iff.2 h0)
        have hb : ballotOf i ⟨s, .call (.signed who) (.voteProposal i vote), .ok ⟨⟩,
            s.castVote i p who vote⟩ = some ⟨who, vote, ballotWeight s who⟩ := if_pos rfl
        rw [hb]
        exact .cast hp hactive hfresh hpos (Function.update_self _ _ _)
          (Function.update_self _ _ _)
      · have hb : ballotOf id ⟨s, .call (.signed who) (.voteProposal i vote), .ok ⟨⟩,
            s.castVote i p who vote⟩ = none := if_neg hi
        rw [hb]
        refine .kept (Function.update_of_ne (Ne.symm hi) _ _) fun p' hp' => ?_
        exact Or.inl ⟨p', (Function.update_of_ne (Ne.symm hi) _ _).symm.trans hp', fun _ => rfl⟩
    | finalizeRejected hp hactive hopen hquorum hfor =>
      exact .kept rfl (VotesStep.of_update hp fun kind => by cases kind <;> rfl)
    | finalizeApproved hp hactive hopen hquorum hfor hswap hcoins hbalance =>
      exact .kept rfl (VotesStep.of_update hp fun kind => by cases kind <;> rfl)
    | deposit hreserve => exact .kept rfl (VotesStep.of_eq rfl)
    | withdraw hstaked => exact .kept rfl (VotesStep.of_eq rfl)
    | seedVault =>
      cases origin <;> exact .kept rfl (VotesStep.of_eq rfl)
  | @refused origin call e =>
    have hb : ballotOf id (⟨s, .call origin call, .error e, s⟩ : Entry T) = none := by
      unfold ballotOf
      split
      · rename_i heq
        cases heq
      · rfl
    rw [hb]
    exact .kept rfl (VotesStep.of_eq rfl)
  | block => exact .kept rfl (VotesStep.of_eq rfl)
  | currency => exact .kept rfl (VotesStep.of_eq rfl)

/-- The storage holds the count of a ballot box for the proposal `id`. -/
structure Represents (s : State T) (id : ProposalId) (box : BallotBox AccountId VoteKind) :
    Prop where
  voted_iff : ∀ a, s.hasVoted id a = true ↔ a ∈ box.voters
  votes_val : ∀ p, s.proposals id = some p →
    ∀ kind, (p.votes kind).val = min (box.tally 1 kind) maxBalance

/-- **Casting a ballot is what `vote_proposal` does.** A step that leaves the votes alone keeps the
box; a step that casts a ballot adds it to the box. -/
theorem represents_step {id : ProposalId} {s s' : State T}
    {b : Option (Ballot AccountId VoteKind)} {box : BallotBox AccountId VoteKind}
    (hstore : StoreInv s) (hstep : VotesStep id s s' b) (hbox : Represents s id box) :
    ∃ box', box'.ballots = box.ballots ++ b.toList ∧ Represents s' id box' := by
  cases hstep with
  | kept hvoted hold =>
    refine ⟨box, (List.append_nil _).symm, ⟨fun a => ?_, fun p' hp' kind => ?_⟩⟩
    · rw [hvoted]
      exact hbox.voted_iff a
    · rcases hold p' hp' with ⟨p, hp, hsame⟩ | ⟨hnone, hzero⟩
      · rw [hsame kind]
        exact hbox.votes_val p hp kind
      · -- the proposal is new, so nobody has voted on it
        have hvoters : box.voters = [] := by
          rw [List.eq_nil_iff_forall_not_mem]
          intro a ha
          obtain ⟨p, hp⟩ := hstore.stored_of_voted ((hbox.voted_iff a).2 ha)
          rw [hnone] at hp
          cases hp
        have hballots : box.ballots = [] := List.map_eq_nil_iff.1 hvoters
        rw [hzero kind, BallotBox.tally, hballots]
        exact (Nat.min_eq_left (Nat.zero_le _)).symm
  | @cast who vote p hp hactive hfresh hweight hvoted hnew =>
    -- `HasVoted` kept the voter out of the box so far
    have hnotMem : who ∉ box.voters := by
      intro hmem
      rw [(hbox.voted_iff who).2 hmem] at hfresh
      cases hfresh
    refine ⟨box.cast ⟨who, vote, ballotWeight s who⟩ hnotMem hweight, rfl, ⟨fun a => ?_, ?_⟩⟩
    · rw [hvoted, BallotBox.voters_cast, List.mem_append, List.mem_singleton]
      by_cases ha : a = who
      · subst ha
        simp
      · rw [Function.update_of_ne ha, hbox.voted_iff a]
        simp [ha]
    · intro p' hp' kind
      cases hnew.symm.trans hp'
      rw [addVote_votes_val, hbox.votes_val p hp kind, BallotBox.tally_cast, voteWeight_val]
      dsimp only
      split <;> omega

omit [DecidableEq AccountId] in
theorem represents_genesis (l : T.currency.Ledger) (id : ProposalId) :
    Represents (genesis T l) id .empty := by
  refine ⟨fun a => ?_, fun p hp => ?_⟩
  · simp [genesis]
  · cases hp

/-- In every reachable state the storage holds the count of the box of accepted ballots. -/
theorem represents_run (l : T.currency.Ledger) (id : ProposalId) (ops : List (Op T)) :
    ∃ box : BallotBox AccountId VoteKind,
      box.ballots = ballots id (history (genesis T l) ops) ∧
        Represents (run (genesis T l) ops) id box := by
  refine history_induction (P := fun h s => ∃ box : BallotBox AccountId VoteKind,
    box.ballots = ballots id h ∧ Represents s id box) ?_ ?_ ops
  · exact ⟨.empty, rfl, represents_genesis l id⟩
  · rintro ops op out s' ⟨box, hballots, hbox⟩ ht
    have hstore : StoreInv (run (genesis T l) ops) := storeInv_reached l ops
    obtain ⟨box', hbox', hrep⟩ := represents_step hstore (votesStep id hstore ht) hbox
    exact ⟨box', by rw [hbox', hballots, ballots_snoc], hrep⟩

/-- **Tallies are exactly the recorded votes.** The accounts that have voted on a proposal are those
of its accepted votes, each of them voted once with a positive weight, and each tally is the clipped
sum of the weights and one for each vote of its kind. Whatever happens later, the counted votes
stay as they are. -/
theorem tallies_eq_recorded_votes (l : T.currency.Ledger) (ops : List (Op T)) (id : ProposalId) :
    (∀ a, (run (genesis T l) ops).hasVoted id a = true ↔
      a ∈ (ballots id (history (genesis T l) ops)).map Ballot.voter) ∧
    ((ballots id (history (genesis T l) ops)).map Ballot.voter).Nodup ∧
    (∀ b ∈ ballots id (history (genesis T l) ops), b.weight ≠ 0) ∧
    (∀ p, (run (genesis T l) ops).proposals id = some p →
      p.forVotes.val = min maxBalance (((ballots id (history (genesis T l) ops)).filter
        (·.choice = .forVote)).map (·.weight + 1)).sum ∧
      p.againstVotes.val = min maxBalance (((ballots id (history (genesis T l) ops)).filter
        (·.choice = .againstVote)).map (·.weight + 1)).sum) ∧
    (∀ more, ∃ later, ballots id (history (genesis T l) (ops ++ more)) =
      ballots id (history (genesis T l) ops) ++ later) := by
  obtain ⟨box, hballots, hbox⟩ := represents_run l id ops
  rw [← hballots]
  -- the first three parts are fields of the box
  refine ⟨hbox.voted_iff, box.once, fun b hb => (box.weighty b hb).ne', fun p hp => ?_,
    fun more => ?_⟩
  · rw [Nat.min_comm maxBalance, Nat.min_comm maxBalance]
    exact ⟨hbox.votes_val p hp .forVote, hbox.votes_val p hp .againstVote⟩
  · refine ⟨ballots id (history (run (genesis T l) ops) more), ?_⟩
    rw [hballots, history, Machine.trace_append]
    exact List.filterMap_append

end MulticoinTreasury
