import MulticoinTreasury.Library.PointUpdate
import MulticoinTreasury.Pallet.System

/-!
# The store of proposals

`StoreInv` ties the proposals in storage to the id counter: the stored ids are those below the
counter, so `create_proposal` never overwrites a proposal, and votes are recorded only on stored
proposals. Under it `proposal_change` lists what one step can do to a stored proposal; everything
about the life of a proposal is derived from that list.
-/

set_option autoImplicit false

namespace MulticoinTreasury

variable {AccountId : Type} [DecidableEq AccountId] {T : Config AccountId}

/-- The stored ids are those below the counter, and only stored proposals have votes. -/
structure StoreInv (s : State T) : Prop where
  stored_iff : ∀ i, (∃ p, s.proposals i = some p) ↔ i < s.nextProposalId
  stored_of_voted : ∀ {i a}, s.hasVoted i a = true → ∃ p, s.proposals i = some p

omit [DecidableEq AccountId] in
theorem storeInv_genesis (l : T.currency.Ledger) : StoreInv (genesis T l) where
  stored_iff i := by
    constructor
    · rintro ⟨p, hp⟩
      cases hp
    · exact fun h => absurd h (Nat.not_lt_zero i.val)
  stored_of_voted h := by cases h

omit [DecidableEq AccountId] in
/-- The id of the next proposal is free. -/
theorem StoreInv.next_free {s : State T} (h : StoreInv s) :
    s.proposals s.nextProposalId = none := by
  cases hp : s.proposals s.nextProposalId with
  | none => rfl
  | some p => exact absurd ((h.stored_iff _).1 ⟨p, hp⟩) (Nat.lt_irrefl _)

omit [DecidableEq AccountId] in
/-- Writing at a stored id and leaving the counter keeps the stored ids. -/
theorem stored_iff_of_update {s : State T} (h : StoreInv s) {id : ProposalId} {p q : Proposal T}
    (hp : s.proposals id = some p) (i : ProposalId) :
    (∃ r, Function.update s.proposals id (some q) i = some r) ↔ i < s.nextProposalId := by
  rw [← h.stored_iff i]
  by_cases hi : i = id
  · subst hi
    simp [hp]
  · simp [Function.update_of_ne hi]

theorem StoreInv.accepted {s s' : State T} {origin : Origin AccountId} {call : Call T}
    (ha : Accepted s origin call s') (h : StoreInv s) : StoreInv s' := by
  cases ha with
  | @createProposal who title description duration action next hmin hmax hnext =>
    -- the counter moves past the id that is written
    have hval : next.val = s.nextProposalId.val + 1 := by
      simpa using BoundedNat.checkedAdd_eq_some_iff.1 hnext
    constructor
    · intro i
      show (∃ p, Function.update s.proposals s.nextProposalId _ i = some p) ↔ i.val < next.val
      by_cases hi : i = s.nextProposalId
      · subst hi
        simp [hval]
      · have hne : i.val ≠ s.nextProposalId.val := fun he => hi (BoundedNat.ext he)
        rw [Function.update_of_ne hi, h.stored_iff i, BoundedNat.lt_iff]
        omega
    · intro i a hv
      show ∃ p, Function.update s.proposals s.nextProposalId _ i = some p
      by_cases hi : i = s.nextProposalId
      · subst hi
        simp
      · rw [Function.update_of_ne hi]
        exact h.stored_of_voted hv
  | @voteProposal who id vote p hp hactive hopen hfresh hweight =>
    constructor
    · exact stored_iff_of_update h hp
    · intro i a hv
      show ∃ q, Function.update s.proposals id _ i = some q
      by_cases hi : i = id
      · subst hi
        simp
      · have hv' : s.hasVoted i a = true := by
          simpa [State.castVote, Function.update_of_ne hi] using hv
        rw [Function.update_of_ne hi]
        exact h.stored_of_voted hv'
  | finalizeRejected hp hactive hopen hquorum hfor =>
    refine ⟨stored_iff_of_update h hp, fun {i a} hv => ?_⟩
    exact (stored_iff_of_update h hp i).2 ((h.stored_iff i).1 (h.stored_of_voted hv))
  | finalizeApproved hp hactive hopen hquorum hfor hswap hcoins hbalance =>
    refine ⟨stored_iff_of_update h hp, fun {i a} hv => ?_⟩
    exact (stored_iff_of_update h hp i).2 ((h.stored_iff i).1 (h.stored_of_voted hv))
  | deposit hreserve => exact ⟨h.stored_iff, h.stored_of_voted⟩
  | withdraw hstaked => exact ⟨h.stored_iff, h.stored_of_voted⟩
  | seedVault => exact ⟨h.stored_iff, h.stored_of_voted⟩

theorem StoreInv.transition {s s' : State T} {op : Op T} {out : Outcome T}
    (ht : Transition s op out s') (h : StoreInv s) : StoreInv s' := by
  cases ht with
  | accepted ha => exact h.accepted ha
  | refused => exact h
  | block => exact ⟨h.stored_iff, h.stored_of_voted⟩
  | currency => exact ⟨h.stored_iff, h.stored_of_voted⟩

theorem storeInv_run {s : State T} (h : StoreInv s) (ops : List (Op T)) : StoreInv (run s ops) :=
  run_invariant (fun ht hs => hs.transition ht) h ops

/-- In every reachable state the stored ids are those below the counter. -/
theorem storeInv_reached (l : T.currency.Ledger) (ops : List (Op T)) :
    StoreInv (run (genesis T l) ops) :=
  storeInv_run (storeInv_genesis l) ops

/-- What every transition from a state with `StoreInv` preserves holds after every run from such a
state. -/
theorem stored_run_invariant {P : State T → Prop}
    (hstep : ∀ {s s' : State T} {op out}, StoreInv s → Transition s op out s' → P s → P s')
    {s : State T} (h : StoreInv s) (hs : P s) (ops : List (Op T)) : P (run s ops) := by
  have hboth : StoreInv (run s ops) ∧ P (run s ops) :=
    run_invariant (P := fun t => StoreInv t ∧ P t)
      (fun ht ⟨hinv, hp⟩ => ⟨hinv.transition ht, hstep hinv ht hp⟩) ⟨h, hs⟩ ops
  exact hboth.2

/-! ## One proposal under one step -/

/-- What an operation in the state `s` can do to the proposal `p` stored at `id`. -/
inductive ProposalChange (s : State T) (id : ProposalId) (p : Proposal T) :
    Op T → Proposal T → Prop
  | same {op : Op T} : ProposalChange s id p op p
  | voted {who : AccountId} {vote : VoteKind} (hactive : p.status = .active)
      (hopen : s.blockNumber ≤ p.endBlock) (hfresh : s.hasVoted id who = false)
      (hweight : voteWeight s who ≠ 0) :
      ProposalChange s id p (.call (.signed who) (.voteProposal id vote))
        (p.addVote vote (voteWeight s who))
  | rejected {who : AccountId} (hactive : p.status = .active) (hopen : s.blockNumber < p.endBlock)
      (hquorum : minParticipation s ≤ p.participation) (hfor : ¬ p.neededFor ≤ p.forVotes) :
      ProposalChange s id p (.call (.signed who) (.finalizeProposal id))
        { p with status := .rejected }
  | approved {who : AccountId} {swap : Swap} (hactive : p.status = .active)
      (hopen : s.blockNumber < p.endBlock) (hquorum : minParticipation s ≤ p.participation)
      (hfor : p.neededFor ≤ p.forVotes) (hswap : p.action = .swap swap)
      (hcoins : swap.fromCoin ≠ swap.toCoin) (hbalance : swap.amount ≤ s.vault swap.fromCoin) :
      ProposalChange s id p (.call (.signed who) (.finalizeProposal id))
        { p with status := .approved }

/-- A stored proposal stays stored, and a step changes it only as `ProposalChange` says. -/
theorem proposal_change {s s' : State T} {op : Op T} {out : Outcome T} (h : StoreInv s)
    (ht : Transition s op out s') {id : ProposalId} {p : Proposal T}
    (hp : s.proposals id = some p) :
    ∃ p', s'.proposals id = some p' ∧ ProposalChange s id p op p' := by
  -- a write at another id leaves the proposal as it is
  have hother : ∀ {i : ProposalId} {q : Option (Proposal T)}, id ≠ i →
      ∃ p', Function.update s.proposals i q id = some p' ∧ ProposalChange s id p op p' :=
    fun hi => ⟨p, (Function.update_of_ne hi _ _).trans hp, .same⟩
  cases ht with
  | accepted ha =>
    cases ha with
    | createProposal hmin hmax hnext =>
      have hi : id ≠ s.nextProposalId := by
        intro he
        rw [he, h.next_free] at hp
        cases hp
      exact hother hi
    | @voteProposal who i vote q hq hactive hopen hfresh hweight =>
      by_cases hi : id = i
      · subst hi
        cases hp.symm.trans hq
        exact ⟨_, Function.update_self _ _ _, .voted hactive hopen hfresh hweight⟩
      · exact hother hi
    | @finalizeRejected who i q hq hactive hopen hquorum hfor =>
      by_cases hi : id = i
      · subst hi
        cases hp.symm.trans hq
        exact ⟨_, Function.update_self _ _ _, .rejected hactive hopen hquorum hfor⟩
      · exact hother hi
    | @finalizeApproved who i q swap hq hactive hopen hquorum hfor hswap hcoins hbalance =>
      by_cases hi : id = i
      · subst hi
        cases hp.symm.trans hq
        exact ⟨_, Function.update_self _ _ _,
          .approved hactive hopen hquorum hfor hswap hcoins hbalance⟩
      · exact hother hi
    | deposit hreserve => exact ⟨p, hp, .same⟩
    | withdraw hstaked => exact ⟨p, hp, .same⟩
    | seedVault => exact ⟨p, hp, .same⟩
  | refused => exact ⟨p, hp, .same⟩
  | block => exact ⟨p, hp, .same⟩
  | currency => exact ⟨p, hp, .same⟩

/-- How an operation in the state `s` creates a proposal at `id`. -/
inductive ProposalCreated (s : State T) (id : ProposalId) : Op T → Proposal T → Prop
  | created {who : AccountId} {title : BoundedVec UInt8 T.maxTitleLen}
      {description : BoundedVec UInt8 T.maxDescriptionLen} {duration : U32} {action : Action}
      (hid : id = s.nextProposalId) (hmin : T.minProposalDuration ≤ duration)
      (hmax : duration ≤ T.maxProposalDuration) :
      ProposalCreated s id (.call (.signed who) (.createProposal title description duration action))
        (newProposal s who title description duration action)

/-- A proposal that was not stored before the step was created by it. -/
theorem proposal_created {s s' : State T} {op : Op T} {out : Outcome T}
    (ht : Transition s op out s') {id : ProposalId} {p' : Proposal T}
    (hnone : s.proposals id = none) (hp' : s'.proposals id = some p') :
    ProposalCreated s id op p' := by
  -- whatever is stored after a write at a stored id was stored before
  have hstored : ∀ {i : ProposalId} {q r : Proposal T}, s.proposals i = some q →
      Function.update s.proposals i (some r) id ≠ some p' := by
    intro i q r hq h
    rcases PointUpdate.update_eq_some h with ⟨rfl, -⟩ | ⟨-, hold⟩
    · cases hnone.symm.trans hq
    · cases hnone.symm.trans hold
  cases ht with
  | accepted ha =>
    cases ha with
    | @createProposal who title description duration action next hmin hmax hnext =>
      rcases PointUpdate.update_eq_some hp' with ⟨hid, rfl⟩ | ⟨-, hold⟩
      · exact .created hid hmin hmax
      · cases hnone.symm.trans hold
    | voteProposal hp hactive hopen hfresh hweight => exact absurd hp' (hstored hp)
    | finalizeRejected hp hactive hopen hquorum hfor => exact absurd hp' (hstored hp)
    | finalizeApproved hp hactive hopen hquorum hfor hswap hcoins hbalance =>
      exact absurd hp' (hstored hp)
    | deposit hreserve => cases hnone.symm.trans hp'
    | withdraw hstaked => cases hnone.symm.trans hp'
    | seedVault => cases hnone.symm.trans hp'
  | refused => cases hnone.symm.trans hp'
  | block => cases hnone.symm.trans hp'
  | currency => cases hnone.symm.trans hp'

/-- Where a stored proposal comes from: the step created it or changed an older one. -/
theorem proposal_cases {s s' : State T} {op : Op T} {out : Outcome T} (h : StoreInv s)
    (ht : Transition s op out s') {id : ProposalId} {p' : Proposal T}
    (hp' : s'.proposals id = some p') :
    ProposalCreated s id op p' ∨
      ∃ p, s.proposals id = some p ∧ ProposalChange s id p op p' := by
  cases hp : s.proposals id with
  | none => exact Or.inl (proposal_created ht hp hp')
  | some p =>
    obtain ⟨q, hq, hchange⟩ := proposal_change h ht hp
    cases hp'.symm.trans hq
    exact Or.inr ⟨p, rfl, hchange⟩

/-! ## Settled proposals and proposals past their end -/

omit [DecidableEq AccountId] in
/-- Every change but the trivial one needs an active proposal. -/
theorem ProposalChange.eq_of_settled {s : State T} {id : ProposalId} {p p' : Proposal T}
    {op : Op T} (h : ProposalChange s id p op p') (hsettled : p.status ≠ .active) : p' = p := by
  cases h with
  | same => rfl
  | voted hactive => exact absurd hactive hsettled
  | rejected hactive => exact absurd hactive hsettled
  | approved hactive => exact absurd hactive hsettled

/-- A step does not change a settled proposal. -/
theorem settled_step {s s' : State T} {op : Op T} {out : Outcome T} (h : StoreInv s)
    (ht : Transition s op out s') {id : ProposalId} {p : Proposal T}
    (hp : s.proposals id = some p) (hsettled : p.status ≠ .active) :
    s'.proposals id = some p := by
  obtain ⟨p', hp', hchange⟩ := proposal_change h ht hp
  rw [hp', hchange.eq_of_settled hsettled]

/-- A settled proposal never changes again. -/
theorem settled_run {s : State T} (h : StoreInv s) {id : ProposalId} {p : Proposal T}
    (hp : s.proposals id = some p) (hsettled : p.status ≠ .active) (ops : List (Op T)) :
    (run s ops).proposals id = some p := by
  exact stored_run_invariant (P := fun t => t.proposals id = some p)
    (fun hinv ht hpt => settled_step hinv ht hpt hsettled) h hp ops

/-- A proposal that is active when its end block is reached stays active in every continuation. -/
theorem active_run_of_ended {s : State T} (h : StoreInv s) {id : ProposalId} {p : Proposal T}
    (hp : s.proposals id = some p) (hactive : p.status = .active)
    (hend : p.endBlock ≤ s.blockNumber) (ops : List (Op T)) :
    ∃ p', (run s ops).proposals id = some p' ∧ p'.status = .active := by
  have key := stored_run_invariant (P := fun t : State T => ∃ p', t.proposals id = some p' ∧
    p'.status = .active ∧ p'.endBlock ≤ t.blockNumber) ?_ h ⟨p, hp, hactive, hend⟩ ops
  · obtain ⟨p', hp', hactive', -⟩ := key
    exact ⟨p', hp', hactive'⟩
  rintro t t' op out hinv ht ⟨q, hq, hqactive, hqend⟩
  have hblock : t.blockNumber.val ≤ t'.blockNumber.val := ht.blockNumber_le
  have hend' : q.endBlock ≤ t'.blockNumber := Nat.le_trans hqend hblock
  obtain ⟨q', hq', hc⟩ := proposal_change hinv ht hq
  cases hc with
  | same => exact ⟨q, hq', hqactive, hend'⟩
  | voted => exact ⟨_, hq', by simpa using hqactive, by simpa using hend'⟩
  -- a finalization would have had to happen before the end block
  | rejected _ hopen => exact absurd hqend (Nat.not_le_of_lt hopen)
  | approved _ hopen => exact absurd hqend (Nat.not_le_of_lt hopen)

end MulticoinTreasury
