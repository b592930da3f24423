import MulticoinTreasury.Pallet.Ballots
import MulticoinTreasury.Runtime.Config

/-!
# Approval without support

`finalize_proposal` compares the For votes with a fraction of all votes, rounded down. That
fraction can be zero, and then a proposal without any For vote is approved: its swap is executed
and its author gains karma. Everything else is approved with support: a run in which no
finalization meets the condition `UnsupportedApproval` approves only proposals with a For vote of
positive weight.
-/

set_option autoImplicit false

namespace MulticoinTreasury

variable {AccountId : Type} {T : Config AccountId}

/-- The proposal `id` has no For vote, but it has its quorum, the needed share of its Against votes
rounds down to zero, and its swap can be executed. -/
def UnsupportedApproval (s : State T) (id : ProposalId) : Prop :=
  ∃ p swap, s.proposals id = some p ∧ p.status = .active ∧ s.blockNumber < p.endBlock ∧
    p.forVotes = 0 ∧ minParticipation s ≤ p.againstVotes ∧
    T.approvalOfQuorum.mulFloor p.againstVotes = 0 ∧ p.action = .swap swap ∧
    swap.fromCoin ≠ swap.toCoin ∧ swap.amount ≤ s.vault swap.fromCoin

theorem participation_of_forVotes_eq_zero {p : Proposal T} (h : p.forVotes = 0) :
    p.participation = p.againstVotes := by
  apply BoundedNat.ext
  rw [Proposal.participation, h, BoundedNat.saturatingAdd_val, BoundedNat.zero_val, Nat.zero_add]
  exact Nat.min_eq_left p.againstVotes.le_max

/-- An approval of a proposal without For votes is one that the condition describes. -/
theorem unsupportedApproval_of_approved {s : State T} {id : ProposalId} {p : Proposal T}
    {swap : Swap} (hp : s.proposals id = some p) (hactive : p.status = .active)
    (hopen : s.blockNumber < p.endBlock) (hquorum : minParticipation s ≤ p.participation)
    (hfor : p.neededFor ≤ p.forVotes) (hswap : p.action = .swap swap)
    (hcoins : swap.fromCoin ≠ swap.toCoin) (hbalance : swap.amount ≤ s.vault swap.fromCoin)
    (hzero : p.forVotes = 0) : UnsupportedApproval s id := by
  have hall : p.participation = p.againstVotes := participation_of_forVotes_eq_zero hzero
  rw [hall] at hquorum
  refine ⟨p, swap, hp, hactive, hopen, hzero, hquorum, ?_, hswap, hcoins, hbalance⟩
  rw [Proposal.neededFor, hall, hzero] at hfor
  exact BoundedNat.eq_zero_iff.2 (Nat.le_zero.1 hfor)

variable [DecidableEq AccountId]

/-- A finalization that meets the condition approves a proposal without For votes. -/
theorem approved_of_unsupportedApproval {s : State T} {id : ProposalId} (who : AccountId)
    (h : UnsupportedApproval s id) : ∃ p,
      (step s (.call (.signed who) (.finalizeProposal id))).2.proposals id = some p ∧
        p.status = .approved ∧ p.forVotes = 0 := by
  obtain ⟨p, swap, hp, hactive, hopen, hzero, hquorum, hneeded, hswap, hcoins, hbalance⟩ := h
  have hall : p.participation = p.againstVotes := participation_of_forVotes_eq_zero hzero
  have hfor : p.neededFor ≤ p.forVotes := by
    rw [Proposal.neededFor, hall, hneeded]
    exact Nat.zero_le _
  rw [← hall] at hquorum
  have haccepted : Accepted s (.signed who) (.finalizeProposal id) (s.approve id p swap) :=
    .finalizeApproved hp hactive hopen hquorum hfor hswap hcoins hbalance
  rw [step_call_of_accepted haccepted]
  exact ⟨{ p with status := .approved }, Function.update_self _ _ _, rfl, hzero⟩

/-- A signed finalization at which the condition holds. -/
def UnsupportedEntry (e : Entry T) : Prop :=
  ∃ who id, e.input = .call (.signed who) (.finalizeProposal id) ∧ UnsupportedApproval e.before id

/-- A step approves only proposals with For votes unless it meets the condition. -/
theorem forVotes_of_approved_step {s s' : State T} {op : Op T} {out : Outcome T}
    (hstore : StoreInv s) (ht : Transition s op out s')
    (hsupported : ¬ UnsupportedEntry ⟨s, op, out, s'⟩)
    (h : ∀ id p, s.proposals id = some p → p.status = .approved → p.forVotes ≠ 0) :
    ∀ id p, s'.proposals id = some p → p.status = .approved → p.forVotes ≠ 0 := by
  intro id p' hp' happroved
  rcases proposal_cases hstore ht hp' with ⟨hid, hmin, hmax⟩ | ⟨p, hp, hchange⟩
  · cases happroved
  · cases hchange with
    | same => exact h id _ hp happroved
    | voted hactive =>
      rw [addVote_status, hactive] at happroved
      cases happroved
    | rejected => cases happroved
    | @approved who swap hactive hopen hquorum hfor hswap hcoins hbalance =>
      intro hzero
      apply hsupported
      exact ⟨who, id, rfl, unsupportedApproval_of_approved hp hactive hopen hquorum hfor hswap
        hcoins hbalance hzero⟩

/-- A finalization without For votes changes neither the vault nor any karma unless it meets the
condition. -/
theorem vault_of_unsupported_step {s s' : State T} {origin : Origin AccountId} {id : ProposalId}
    {out : Outcome T} (ht : Transition s (.call origin (.finalizeProposal id)) out s')
    (hsupported : ¬ UnsupportedEntry ⟨s, .call origin (.finalizeProposal id), out, s'⟩)
    {p : Proposal T} (hp : s.proposals id = some p) (hzero : p.forVotes = 0) :
    s'.vault = s.vault ∧ s'.karma = s.karma := by
  cases ht with
  | accepted ha =>
    cases ha with
    | finalizeRejected => exact ⟨rfl, rfl⟩
    | @finalizeApproved who _ q swap hq hactive hopen hquorum hfor hswap hcoins hbalance =>
      cases hp.symm.trans hq
      exact absurd ⟨who, id, rfl, unsupportedApproval_of_approved hq hactive hopen hquorum hfor
        hswap hcoins hbalance hzero⟩ hsupported
  | refused => exact ⟨rfl, rfl⟩

/-- Every approved proposal has an accepted For vote, and no finalization on an empty tally has
executed a swap or granted karma. -/
structure ApprovedWithSupport (s : State T) (h : List (Entry T)) : Prop where
  supported : ∀ id p, s.proposals id = some p → p.status = .approved →
    p.forVotes ≠ 0 ∧ ∃ b ∈ ballots id h, b.choice = .forVote ∧ b.weight ≠ 0
  no_effect : ∀ e ∈ h, ∀ origin id p, e.input = .call origin (.finalizeProposal id) →
    e.before.proposals id = some p → p.forVotes = 0 → p.againstVotes = 0 →
      e.after.vault = e.before.vault ∧ e.after.karma = e.before.karma

/-- Whatever has For votes has a For ballot of positive weight. -/
theorem exists_forBallot (l : T.currency.Ledger) (ops : List (Op T)) {id : ProposalId}
    {p : Proposal T} (hp : (run (genesis T l) ops).proposals id = some p) (h : p.forVotes ≠ 0) :
    ∃ b ∈ ballots id (history (genesis T l) ops), b.choice = .forVote ∧ b.weight ≠ 0 := by
  obtain ⟨box, hballots, hbox⟩ := represents_run l id ops
  have hval : p.forVotes.val = min (box.tally 1 .forVote) maxBalance :=
    hbox.votes_val p hp .forVote
  have hne : p.forVotes.val ≠ 0 := fun h0 => h (BoundedNat.eq_zero_iff.2 h0)
  -- a clipped count is positive only if the count is
  have hpos : 0 < box.tally 1 .forVote := by omega
  obtain ⟨b, hb, hchoice⟩ := BallotBox.exists_ballot_of_tally_pos hpos
  rw [← hballots]
  exact ⟨b, hb, hchoice, (box.weighty b hb).ne'⟩

/-- A run without such finalizations approves only with support. -/
theorem approvedWithSupport_run (l : T.currency.Ledger) (ops : List (Op T))
    (hsupported : ∀ e ∈ history (genesis T l) ops, ¬ UnsupportedEntry e) :
    ApprovedWithSupport (run (genesis T l) ops) (history (genesis T l) ops) := by
  have hfor : (∀ e ∈ history (genesis T l) ops, ¬ UnsupportedEntry e) →
      ∀ id p, (run (genesis T l) ops).proposals id = some p → p.status = .approved →
        p.forVotes ≠ 0 := by
    refine history_induction (P := fun h s => (∀ e ∈ h, ¬ UnsupportedEntry e) →
      ∀ id p, s.proposals id = some p → p.status = .approved → p.forVotes ≠ 0) ?_ ?_ ops
    · intro _ id p hp
      cases hp
    · intro ops op out s' ih ht hall
      refine forVotes_of_approved_step (storeInv_reached l ops) ht (hall _ (by simp)) ?_
      exact ih fun e he => hall e (List.mem_append_left _ he)
  constructor
  · intro id p hp happroved
    have hne : p.forVotes ≠ 0 := hfor hsupported id p hp happroved
    exact ⟨hne, exists_forBallot l ops hp hne⟩
  · intro e he origin id p hinput hp hzero _
    have ht := transition_of_mem he
    rw [hinput] at ht
    refine vault_of_unsupported_step ht ?_ hp hzero
    rw [← hinput]
    exact hsupported e he

/-- **When nothing is approved without support.** Every state of a run has only supported approvals
if and only if no signed finalization of the run meets the condition. -/
theorem approved_with_support_iff (l : T.currency.Ledger) (ops : List (Op T)) :
    (∀ pre post, ops = pre ++ post →
      ApprovedWithSupport (run (genesis T l) pre) (history (genesis T l) pre)) ↔
      ∀ e ∈ history (genesis T l) ops, ∀ who id,
        e.input = .call (.signed who) (.finalizeProposal id) →
          ¬ UnsupportedApproval e.before id := by
  constructor
  · intro hall e he who id hinput hunsupported
    obtain ⟨pre, op, post, hops, rfl⟩ := Machine.mem_trace step he
    change op = _ at hinput
    subst hinput
    -- look at the state right after this finalization
    have hafter := hall (pre ++ [.call (.signed who) (.finalizeProposal id)]) post (by simp [hops])
    obtain ⟨p, hp, happroved, hzero⟩ := approved_of_unsupportedApproval who hunsupported
    rw [run, Machine.run_snoc] at hafter
    exact (hafter.supported id p hp happroved).1 hzero
  · rintro hnone pre post rfl
    apply approvedWithSupport_run
    rintro e he ⟨who, id, hinput, hunsupported⟩
    have hmem : e ∈ history (genesis T l) (pre ++ post) := by
      rw [history, Machine.trace_append]
      exact List.mem_append_left _ he
    exact hnone e hmem who id hinput hunsupported

/-- Nobody has any stake; Alice seeds the vault, proposes a swap and finalizes it at once. -/
def approveOnEmptyTally : List (Op DevConfig) :=
  [.block (.clamp _ 1), .call (.signed .alice) (.seedVault .dot (.clamp _ 5)),
    .call (.signed .alice) (proposeSwap ⟨.dot, .kusama, .clamp _ 5⟩),
    .call (.signed .alice) (.finalizeProposal 0)]

/-- The proposal is approved although nobody voted, the swap is executed and Alice gains karma. -/
theorem approved_on_empty_tally :
    (∃ p, (run developmentGenesis approveOnEmptyTally).proposals 0 = some p ∧
      p.status = .approved ∧ p.forVotes = 0 ∧ p.againstVotes = 0) ∧
      (run developmentGenesis approveOnEmptyTally).vault .kusama = .clamp _ 5 ∧
      (run developmentGenesis approveOnEmptyTally).karma .alice = .clamp _ 1 ∧
      ¬ ApprovedWithSupport (run developmentGenesis approveOnEmptyTally)
        (history developmentGenesis approveOnEmptyTally) := by
  refine ⟨⟨_, rfl, rfl, rfl, rfl⟩, rfl, rfl, ?_⟩
  intro h
  exact (h.supported 0 _ rfl rfl).1 rfl

end MulticoinTreasury
