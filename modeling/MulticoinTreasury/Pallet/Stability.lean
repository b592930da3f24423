import MulticoinTreasury.Pallet.Threshold

/-!
# A decision that is ready stays ready

Between the moment when a proposal could be decided and the call that decides it, other operations
are executed. Those on the side of the decision cannot spoil it: votes of its kind, votes on other
proposals, new proposals, withdrawals, seeds, transfers, and blocks before the end of the proposal.
Deposits are not among them, since they raise the quorum; a decision to approve can also be spoilt
by other approvals, which empty the vault.
-/

set_option autoImplicit false

namespace MulticoinTreasury

variable {AccountId : Type} {T : Config AccountId}

/-- The status that a finalization gives when it decides for the side `kind`. -/
def VoteKind.verdict : VoteKind → ProposalStatus
  | .forVote => .approved
  | .againstVote => .rejected

/-- What the side `kind` needs beyond the quorum. -/
def Decided (s : State T) (p : Proposal T) : VoteKind → Prop
  | .forVote => p.neededFor ≤ p.forVotes ∧ ∃ swap, p.action = .swap swap ∧
      swap.fromCoin ≠ swap.toCoin ∧ swap.amount ≤ s.vault swap.fromCoin
  | .againstVote => ¬ p.neededFor ≤ p.forVotes

/-- A finalization of `id` would decide for the side `kind` now. -/
structure Ready (kind : VoteKind) (s : State T) (id : ProposalId) (p : Proposal T) : Prop where
  stored : s.proposals id = some p
  active : p.status = .active
  before_end : s.blockNumber < p.endBlock
  quorum : minParticipation s ≤ p.participation
  decided : Decided s p kind

/-- The operations on the side `kind` of the decision on `id`, before `endBlock`. -/
def OnSide (kind : VoteKind) (id : ProposalId) (endBlock : BlockNumber) : Op T → Prop
  | .call _ (.voteProposal i vote) => i = id → vote = kind
  | .call _ (.finalizeProposal i) => kind = .againstVote ∧ i ≠ id
  | .call _ (.deposit _) => False
  | .block number => number < endBlock
  | _ => True

/-- A larger vault is good for an approval. -/
theorem Decided.of_vault_le {s s' : State T} {p : Proposal T} {kind : VoteKind}
    (h : Decided s p kind) (hvault : kind = .forVote → ∀ c, s.vault c ≤ s'.vault c) :
    Decided s' p kind := by
  cases kind with
  | forVote =>
    obtain ⟨hfor, swap, hswap, hcoins, hbalance⟩ := h
    exact ⟨hfor, swap, hswap, hcoins, Nat.le_trans hbalance (hvault rfl _)⟩
  | againstVote => exact h

/-- What a readiness depends on: the proposal, the block, the total stake and the vault. -/
theorem Ready.of_frame {kind : VoteKind} {s s' : State T} {id : ProposalId} {p : Proposal T}
    (h : Ready kind s id p) (hstored : s'.proposals id = s.proposals id)
    (hblock : s'.blockNumber < p.endBlock) (htotal : s'.totalStake ≤ s.totalStake)
    (hvault : kind = .forVote → ∀ c, s.vault c ≤ s'.vault c) : Ready kind s' id p where
  stored := hstored.trans h.stored
  active := h.active
  before_end := hblock
  quorum := Nat.le_trans (T.quorum.mulFloor_mono htotal) h.quorum
  decided := h.decided.of_vault_le hvault

variable [DecidableEq AccountId]

/-- A vote of the side. -/
theorem Ready.castVote {kind : VoteKind} {s : State T} {id : ProposalId} {p : Proposal T}
    (h : Ready kind s id p) (who : AccountId) :
    Ready kind (s.castVote id p who kind) id (p.addVote kind (voteWeight s who)) where
  stored := Function.update_self _ _ _
  active := by
    rw [addVote_status]
    exact h.active
  before_end := by
    rw [addVote_endBlock]
    exact h.before_end
  quorum := Nat.le_trans h.quorum (participation_addVote p kind _).1
  decided := by
    -- a vote of the side moves the approval threshold in favour of the side
    have hdecided := h.decided
    cases kind with
    | forVote =>
      obtain ⟨hfor, swap, hswap, hcoins, hbalance⟩ := hdecided
      exact ⟨neededFor_addVote_for _ hfor, swap, (addVote_action p _ _).trans hswap, hcoins,
        hbalance⟩
    | againstVote => exact not_neededFor_addVote_against _ hdecided

omit [DecidableEq AccountId] in
theorem blockNumber_atBlock_lt {s : State T} {number endBlock : BlockNumber}
    (hs : s.blockNumber < endBlock) (hnumber : number < endBlock) :
    (s.atBlock number).blockNumber < endBlock := by
  show (if s.blockNumber ≤ number then number else s.blockNumber) < endBlock
  split
  · exact hnumber
  · exact hs

/-- **An operation on the side of a decision keeps it ready.** -/
theorem Ready.step {kind : VoteKind} {s s' : State T} {op : Op T} {out : Outcome T}
    {id : ProposalId} {p : Proposal T} (hstore : StoreInv s) (ht : Transition s op out s')
    (hside : OnSide kind id p.endBlock op) (h : Ready kind s id p) :
    ∃ p', Ready kind s' id p' ∧ p'.endBlock = p.endBlock := by
  -- most operations leave the proposal, the block and the total stake alone
  have hkeep : s'.proposals id = s.proposals id → s'.blockNumber = s.blockNumber →
      s'.totalStake ≤ s.totalStake → (kind = .forVote → ∀ c, s.vault c ≤ s'.vault c) →
      ∃ p', Ready kind s' id p' ∧ p'.endBlock = p.endBlock := by
    intro hstored hblock htotal hvault
    exact ⟨p, h.of_frame hstored (hblock ▸ h.before_end) htotal hvault, rfl⟩
  have hsame : ∀ c, s.vault c ≤ s.vault c := fun c => Nat.le_refl _
  cases ht with
  | accepted ha =>
    cases ha with
    | createProposal hmin hmax hnext =>
      refine hkeep (Function.update_of_ne ?_ _ _) rfl (Nat.le_refl _) fun _ => hsame
      -- the next id is free, but the proposal is stored
      intro hid
      have hstored := h.stored
      rw [hid, hstore.next_free] at hstored
      cases hstored
    | @voteProposal who i vote q hq hactive hopen hfresh hweight =>
      -- a vote on the proposal itself is one of the side
      by_cases hi : i = id
      · subst hi
        cases hside rfl
        cases h.stored.symm.trans hq
        refine ⟨_, h.castVote who, ?_⟩
        rw [addVote_endBlock]
      · exact hkeep (Function.update_of_ne (Ne.symm hi) _ _) rfl (Nat.le_refl _) fun _ => hsame
    | finalizeRejected =>
      exact hkeep (Function.update_of_ne hside.2.symm _ _) rfl (Nat.le_refl _) fun _ => hsame
    | finalizeApproved =>
      -- another approval changes the vault, which a rejection does not need
      refine hkeep (Function.update_of_ne hside.2.symm _ _) rfl (Nat.le_refl _) fun hfor => ?_
      rw [hside.1] at hfor
      cases hfor
    | deposit => exact hside.elim
    | withdraw => exact hkeep rfl rfl (Nat.sub_le _ _) fun _ => hsame
    | @seedVault origin coin amount =>
      refine hkeep rfl rfl (Nat.le_refl _) fun _ c => ?_
      show s.vault c ≤ Function.update s.vault coin ((s.vault coin).saturatingAdd amount) c
      -- a seed only adds, and is clipped above the old balance
      by_cases hc : c = coin
      · subst hc
        rw [Function.update_self]
        exact Nat.le_min.2 ⟨Nat.le_add_right _ _, (s.vault c).le_max⟩
      · rw [Function.update_of_ne hc]
        exact hsame c
  | refused => exact hkeep rfl rfl (Nat.le_refl _) fun _ => hsame
  | block =>
    exact ⟨p, h.of_frame rfl (blockNumber_atBlock_lt h.before_end hside) (Nat.le_refl _)
      fun _ => hsame, rfl⟩
  | currency => exact hkeep rfl rfl (Nat.le_refl _) fun _ => hsame

theorem Ready.run {kind : VoteKind} {s : State T} {id : ProposalId} {p : Proposal T}
    (hstore : StoreInv s) (h : Ready kind s id p) {ops : List (Op T)}
    (hside : ∀ op ∈ ops, OnSide kind id p.endBlock op) :
    ∃ p', Ready kind (MulticoinTreasury.run s ops) id p' := by
  induction ops generalizing s p with
  | nil => exact ⟨p, h⟩
  | cons op ops ih =>
    have ht := step_transition s op
    obtain ⟨p', hp', hend⟩ := h.step hstore ht (hside op List.mem_cons_self)
    refine ih (hstore.transition ht) hp' ?_
    rw [hend]
    exact fun o ho => hside o (List.mem_cons_of_mem op ho)

/-- Readiness is the success of a finalization with the verdict of the side, by whomever. -/
theorem ready_iff (kind : VoteKind) (s : State T) (who : AccountId) (id : ProposalId) :
    (∃ p, Ready kind s id p) ↔ (finalizeStep s who id).1 = .ok ⟨⟩ ∧
      statusOf (finalizeStep s who id).2 id = some kind.verdict := by
  constructor
  · rintro ⟨p, hp, hactive, hopen, hquorum, hdecided⟩
    -- each side has its own accepting branch of the finalization
    cases kind with
    | forVote =>
      obtain ⟨hfor, swap, hswap, hcoins, hbalance⟩ := hdecided
      have ha : Accepted s (.signed who) (.finalizeProposal id) (s.approve id p swap) :=
        .finalizeApproved hp hactive hopen hquorum hfor hswap hcoins hbalance
      rw [finalizeStep, step_call_of_accepted ha]
      exact ⟨rfl, statusOf_approve s id p swap⟩
    | againstVote =>
      have ha : Accepted s (.signed who) (.finalizeProposal id) (s.reject id p) :=
        .finalizeRejected hp hactive hopen hquorum hdecided
      rw [finalizeStep, step_call_of_accepted ha]
      exact ⟨rfl, statusOf_reject s id p⟩
  · rintro ⟨hok, hstatus⟩
    have ha : Accepted s (.signed who) (.finalizeProposal id) (finalizeStep s who id).2 :=
      accepted_of_step_ok hok
    -- conversely the branch taken is known from the status it leaves
    generalize (finalizeStep s who id).2 = s' at ha hstatus
    cases ha with
    | @finalizeRejected _ _ p hp hactive hopen hquorum hfor =>
      rw [statusOf_reject] at hstatus
      cases kind with
      | forVote => cases hstatus
      | againstVote => exact ⟨p, hp, hactive, hopen, hquorum, hfor⟩
    | @finalizeApproved _ _ p swap hp hactive hopen hquorum hfor hswap hcoins hbalance =>
      rw [statusOf_approve] at hstatus
      cases kind with
      | forVote => exact ⟨p, hp, hactive, hopen, hquorum, hfor, swap, hswap, hcoins, hbalance⟩
      | againstVote => cases hstatus

/-- **A decision that is ready stays ready.** If a finalization would approve a proposal of a
reachable state, then after any operations on the side of the approval a finalization by any account
still approves it; and in the same way for a rejection. -/
theorem decision_stays_ready (l : T.currency.Ledger) (ops more : List (Op T)) (kind : VoteKind)
    (id : ProposalId) (p : Proposal T) (who who' : AccountId)
    (hp : (run (genesis T l) ops).proposals id = some p)
    (hside : ∀ op ∈ more, OnSide kind id p.endBlock op)
    (hready : (finalizeStep (run (genesis T l) ops) who id).1 = .ok ⟨⟩ ∧
      statusOf (finalizeStep (run (genesis T l) ops) who id).2 id = some kind.verdict) :
    let s' := run (run (genesis T l) ops) more
    (finalizeStep s' who' id).1 = .ok ⟨⟩ ∧
      statusOf (finalizeStep s' who' id).2 id = some kind.verdict := by
  obtain ⟨q, hq⟩ := (ready_iff kind _ who id).2 hready
  cases hp.symm.trans hq.stored
  exact (ready_iff kind _ who' id).1 (hq.run (storeInv_reached l ops) hside)

/-- Bob votes for the proposal, withdraws his stake and seeds the vault; then he finalizes. -/
theorem decision_stays_ready_bob :
    let more : List (Op DevConfig) := [.call (.signed .bob) (.voteProposal 0 .forVote),
      .call (.signed .bob) (.withdraw (.clamp _ 1)),
      .call (.signed .bob) (.seedVault .dot (.clamp _ 5)), .block (.clamp _ 10)]
    statusOf (finalizeStep (run (run developmentGenesis beforeEarlyFinalization) more) .bob 0).2 0 =
      some .approved := by
  intro more
  refine (decision_stays_ready (T := DevConfig) developmentGenesis.ledger beforeEarlyFinalization
    more .forVote 0 _ .alice .bob rfl ?_ ⟨rfl, by decide⟩).2
  intro op hop
  simp only [more, List.mem_cons, List.not_mem_nil, or_false] at hop
  rcases hop with rfl | rfl | rfl | rfl
  · exact fun _ => rfl
  · trivial
  · trivial
  · show (BoundedNat.clamp 4294967295 10).val < 11
    decide

end MulticoinTreasury
