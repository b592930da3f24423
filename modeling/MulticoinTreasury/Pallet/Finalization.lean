import MulticoinTreasury.Pallet.Refusals

/-!
# How a finalization ends

The body of `finalize_proposal` sets the status before it checks the swap, and executes the swap
inside the closure that mutates the proposal. All the same it writes nothing before its last check:
it fails and changes nothing, or it rejects and changes one status, or it approves and changes the
status, two vault entries and the karma of the author. This holds in every state, without the
transaction around the call, and neither of its two partial operations panics.
-/

set_option autoImplicit false

namespace MulticoinTreasury

variable {AccountId : Type} {T : Config AccountId}

/-- The result of a body. -/
abbrev BodyResult (T : Config AccountId) : Type :=
  EStateM.Result (DispatchError T) (State T) PUnit

/-- An error, and the state as it was. -/
def EndsUnchanged (s : State T) (r : BodyResult T) : Prop := ∃ e, r = .error e s

/-- A success that sets one status to rejected and writes nothing else. -/
def EndsRejected (s : State T) (id : ProposalId) (r : BodyResult T) : Prop :=
  ∃ p, s.proposals id = some p ∧
    r = .ok ⟨⟩ { s with
      proposals := Function.update s.proposals id (some { p with status := .rejected })
      events := s.record [.proposalFinalized id .rejected] }

/-- A success that sets one status to approved, moves the amount of its swap between two different
coins, clipped at the target, gives the author one point of karma, clipped as well, and writes
nothing else. -/
def EndsApproved (s : State T) (id : ProposalId) (r : BodyResult T) : Prop :=
  ∃ p swap vault karma, s.proposals id = some p ∧ p.action = .swap swap ∧
    swap.fromCoin ≠ swap.toCoin ∧
    (vault swap.fromCoin).val + swap.amount.val = (s.vault swap.fromCoin).val ∧
    (vault swap.toCoin).val = min maxBalance ((s.vault swap.toCoin).val + swap.amount.val) ∧
    (∀ c, c ≠ swap.fromCoin → c ≠ swap.toCoin → vault c = s.vault c) ∧
    (karma p.author).val = min 4294967295 ((s.karma p.author).val + 1) ∧
    (∀ a, a ≠ p.author → karma a = s.karma a) ∧
    r = .ok ⟨⟩ { s with
      proposals := Function.update s.proposals id (some { p with status := .approved })
      vault := vault
      karma := karma
      events := s.record [.swapExecuted swap.fromCoin swap.toCoin swap.amount id,
        .proposalFinalized id .approved] }

theorem not_endsRejected_of_unchanged {s : State T} {id : ProposalId} {r : BodyResult T}
    (h : EndsUnchanged s r) : ¬ EndsRejected s id r := by
  rintro ⟨p, -, hr⟩
  obtain ⟨e, he⟩ := h
  rw [he] at hr
  cases hr

theorem not_endsApproved_of_unchanged {s : State T} {id : ProposalId} {r : BodyResult T}
    (h : EndsUnchanged s r) : ¬ EndsApproved s id r := by
  rintro ⟨p, swap, vault, karma, -, -, -, -, -, -, -, -, hr⟩
  obtain ⟨e, he⟩ := h
  rw [he] at hr
  cases hr

theorem not_endsApproved_of_rejected {s : State T} {id : ProposalId} {r : BodyResult T}
    (h : EndsRejected s id r) : ¬ EndsApproved s id r := by
  rintro ⟨p, swap, vault, karma, hp, -, -, -, -, -, -, -, hr⟩
  obtain ⟨q, hq, he⟩ := h
  cases hp.symm.trans hq
  rw [he] at hr
  -- the two states differ in the status at `id`
  have hstate := congrFun (congrArg State.proposals (EStateM.Result.ok.inj hr).2) id
  simp only [Function.update_self, Option.some.injEq] at hstate
  cases congrArg Proposal.status hstate

variable [DecidableEq AccountId]

theorem endsApproved_approve {s : State T} {id : ProposalId} {p : Proposal T} {swap : Swap}
    (hp : s.proposals id = some p) (hswap : p.action = .swap swap)
    (hcoins : swap.fromCoin ≠ swap.toCoin) (hbalance : swap.amount ≤ s.vault swap.fromCoin) :
    EndsApproved s id (.ok ⟨⟩ (s.approve id p swap)) := by
  refine ⟨p, swap, (s.approve id p swap).vault, (s.approve id p swap).karma, hp, hswap, hcoins,
    ?_, ?_, ?_, ?_, ?_, rfl⟩
  · -- the debited coin is not the one that is written last
    show (Function.update (Function.update s.vault swap.fromCoin _) swap.toCoin _
      swap.fromCoin).val + _ = _
    rw [Function.update_of_ne hcoins, Function.update_self]
    exact Nat.sub_add_cancel hbalance
  · show (Function.update (Function.update s.vault swap.fromCoin _) swap.toCoin _
      swap.toCoin).val = _
    rw [Function.update_self, Nat.min_comm]
    rfl
  · intro c hfrom hto
    show Function.update (Function.update s.vault swap.fromCoin _) swap.toCoin _ c = _
    rw [Function.update_of_ne hto, Function.update_of_ne hfrom]
  · show (Function.update s.karma p.author _ p.author).val = _
    rw [Function.update_self, Nat.min_comm]
    rfl
  · intro a ha
    exact Function.update_of_ne ha _ _

/-- The body of `finalize_proposal` ends in one of the three ways, and never panics. -/
theorem finalizeProposal_ends (s : State T) (origin : Origin AccountId) (id : ProposalId) :
    (EndsUnchanged s (finalizeProposal origin id s) ∨
      EndsRejected s id (finalizeProposal origin id s) ∨
      EndsApproved s id (finalizeProposal origin id s)) ∧
    ∀ t, finalizeProposal origin id s ≠ .error .panic t := by
  cases origin with
  | root => exact ⟨Or.inl ⟨.badOrigin, rfl⟩, fun t h => by cases h⟩
  | none => exact ⟨Or.inl ⟨.badOrigin, rfl⟩, fun t h => by cases h⟩
  | signed who =>
    rw [finalizeProposal_signed]
    cases hv : finalizeVerdict s id with
    | error e => exact ⟨Or.inl ⟨.module e, rfl⟩, fun t h => by cases h⟩
    | ok s' =>
      have ha : Accepted s (.signed who) (.finalizeProposal id) s' := by
        apply finalizeProposal_ok_iff.1
        rw [finalizeProposal_signed, hv]
      refine ⟨Or.inr ?_, fun t h => by cases h⟩
      cases ha with
      | @finalizeRejected _ _ p hp => exact Or.inl ⟨p, hp, rfl⟩
      | finalizeApproved hp hactive hopen hquorum hfor hswap hcoins hbalance =>
        exact Or.inr (endsApproved_approve hp hswap hcoins hbalance)

/-- **`finalize_proposal` is all or nothing by its own order of writes.** In every state its body
ends in exactly one of three ways: with an error and the state unchanged, with the proposal
rejected, or with the proposal approved and its swap executed. It never panics. -/
theorem finalize_all_or_nothing (s : State T) (origin : Origin AccountId) (id : ProposalId) :
    let r := finalizeProposal origin id s
    ((EndsUnchanged s r ∧ ¬ EndsRejected s id r ∧ ¬ EndsApproved s id r) ∨
      (¬ EndsUnchanged s r ∧ EndsRejected s id r ∧ ¬ EndsApproved s id r) ∨
      (¬ EndsUnchanged s r ∧ ¬ EndsRejected s id r ∧ EndsApproved s id r)) ∧
    ∀ t, r ≠ .error .panic t := by
  intro r
  obtain ⟨hends, hpanic⟩ := finalizeProposal_ends s origin id
  refine ⟨?_, hpanic⟩
  rcases hends with h | h | h
  · exact Or.inl ⟨h, not_endsRejected_of_unchanged h, not_endsApproved_of_unchanged h⟩
  · exact Or.inr (Or.inl ⟨fun hu => not_endsRejected_of_unchanged hu h, h,
      not_endsApproved_of_rejected h⟩)
  · exact Or.inr (Or.inr ⟨fun hu => not_endsApproved_of_unchanged hu h,
      fun hr => not_endsApproved_of_rejected hr h, h⟩)

end MulticoinTreasury
