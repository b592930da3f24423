import MulticoinTreasury.Pallet.VotingWindow
import MulticoinTreasury.Pallet.Ballots

/-!
# The life of a proposal and the order of the store

A proposal is created active under the next free id, collects votes while it is active, and is
settled at most once. `Proposal.Later` relates a proposal to what it becomes: single steps keep the
relation, and it is transitive, so it holds between any two states of a run. `WellFormedStore`
collects what the store of proposals looks like in every reachable state, up to the last id.
-/

set_option autoImplicit false

namespace MulticoinTreasury

variable {AccountId : Type} {T : Config AccountId}

/-! ## What becomes of a proposal -/

/-- What a proposal can become: it keeps its terms, its tallies do not fall, and its status changes
only from active to approved or rejected. -/
structure Proposal.Later (p p' : Proposal T) : Prop where
  id_eq : p'.id = p.id
  author_eq : p'.author = p.author
  title_eq : p'.title = p.title
  description_eq : p'.description = p.description
  start_eq : p'.start = p.start
  endBlock_eq : p'.endBlock = p.endBlock
  action_eq : p'.action = p.action
  forVotes_le : p.forVotes ≤ p'.forVotes
  againstVotes_le : p.againstVotes ≤ p'.againstVotes
  status_cases : p'.status = p.status ∨
    (p.status = .active ∧ (p'.status = .approved ∨ p'.status = .rejected))

theorem Proposal.Later.refl (p : Proposal T) : p.Later p where
  id_eq := rfl
  author_eq := rfl
  title_eq := rfl
  description_eq := rfl
  start_eq := rfl
  endBlock_eq := rfl
  action_eq := rfl
  forVotes_le := Nat.le_refl _
  againstVotes_le := Nat.le_refl _
  status_cases := Or.inl rfl

theorem Proposal.Later.trans {p q r : Proposal T} (hpq : p.Later q) (hqr : q.Later r) :
    p.Later r where
  id_eq := hqr.id_eq.trans hpq.id_eq
  author_eq := hqr.author_eq.trans hpq.author_eq
  title_eq := hqr.title_eq.trans hpq.title_eq
  description_eq := hqr.description_eq.trans hpq.description_eq
  start_eq := hqr.start_eq.trans hpq.start_eq
  endBlock_eq := hqr.endBlock_eq.trans hpq.endBlock_eq
  action_eq := hqr.action_eq.trans hpq.action_eq
  forVotes_le := Nat.le_trans hpq.forVotes_le hqr.forVotes_le
  againstVotes_le := Nat.le_trans hpq.againstVotes_le hqr.againstVotes_le
  status_cases := by
    -- a proposal that `hpq` settled cannot be settled again by `hqr`
    rcases hqr.status_cases with hr | ⟨hq, hr⟩
    · rw [hr]
      exact hpq.status_cases
    · rcases hpq.status_cases with hp | ⟨hp, hsettled⟩
      · exact Or.inr ⟨hp.symm.trans hq, hr⟩
      · exact Or.inr ⟨hp, hr⟩

/-- A vote changes nothing but the tally of its kind, which does not fall. -/
theorem later_addVote (p : Proposal T) (vote : VoteKind) (w : Balance) :
    p.Later (p.addVote vote w) := by
  have hgrow : ∀ b : Balance, b ≤ (b.saturatingAdd w).saturatingAdd (.clamp _ 1) := by
    intro b
    have hrange := b.le_max
    rw [BoundedNat.le_iff, BoundedNat.saturatingAdd_saturatingAdd_val]
    exact Nat.le_min.2 ⟨Nat.le_add_right _ _, hrange⟩
  cases vote with
  | forVote =>
    exact ⟨rfl, rfl, rfl, rfl, rfl, rfl, rfl, hgrow p.forVotes, Nat.le_refl _, Or.inl rfl⟩
  | againstVote =>
    exact ⟨rfl, rfl, rfl, rfl, rfl, rfl, rfl, Nat.le_refl _, hgrow p.againstVotes, Or.inl rfl⟩

theorem ProposalChange.later {s : State T} {id : ProposalId} {p p' : Proposal T} {op : Op T}
    (h : ProposalChange s id p op p') : p.Later p' := by
  cases h with
  | same => exact .refl p
  | voted => exact later_addVote p _ _
  | rejected hactive =>
    exact ⟨rfl, rfl, rfl, rfl, rfl, rfl, rfl, Nat.le_refl _, Nat.le_refl _,
      Or.inr ⟨hactive, Or.inr rfl⟩⟩
  | approved hactive =>
    exact ⟨rfl, rfl, rfl, rfl, rfl, rfl, rfl, Nat.le_refl _, Nat.le_refl _,
      Or.inr ⟨hactive, Or.inl rfl⟩⟩

variable [DecidableEq AccountId]

/-- A stored proposal stays stored, as something that it can become. -/
theorem later_run {s : State T} (h : StoreInv s) {id : ProposalId} {p : Proposal T}
    (hp : s.proposals id = some p) (ops : List (Op T)) :
    ∃ p', (run s ops).proposals id = some p' ∧ p.Later p' := by
  refine stored_run_invariant (P := fun t => ∃ p', t.proposals id = some p' ∧ p.Later p') ?_ h
    ⟨p, hp, .refl p⟩ ops
  rintro t t' op out hinv ht ⟨q, hq, hlater⟩
  obtain ⟨q', hq', hchange⟩ := proposal_change hinv ht hq
  exact ⟨q', hq', hlater.trans hchange.later⟩

/-- No proposal is ever cancelled. -/
theorem not_cancelled (l : T.currency.Ledger) (ops : List (Op T)) :
    ∀ id p, (run (genesis T l) ops).proposals id = some p → p.status ≠ .cancelled := by
  refine stored_run_invariant (P := fun t : State T =>
    ∀ id p, t.proposals id = some p → p.status ≠ .cancelled) ?_ (storeInv_genesis l) ?_ ops
  · intro t t' op out hinv ht hstatus id p' hp'
    rcases proposal_cases hinv ht hp' with hcreated | ⟨p, hp, hchange⟩
    · cases hcreated
      exact fun h => by cases h
    · rcases hchange.later.status_cases with hsame | ⟨-, hsettled | hsettled⟩
      · rw [hsame]
        exact hstatus id p hp
      · rw [hsettled]
        exact fun h => by cases h
      · rw [hsettled]
        exact fun h => by cases h
  · intro id p hp
    cases hp

/-- A step leaves the recorded voters of a settled proposal alone. -/
theorem hasVoted_of_settled {s s' : State T} {op : Op T} {out : Outcome T} (h : StoreInv s)
    (ht : Transition s op out s') {id : ProposalId} {p : Proposal T}
    (hp : s.proposals id = some p) (hsettled : p.status ≠ .active) :
    s'.hasVoted id = s.hasVoted id := by
  have hvotes := votesStep id h ht
  generalize ballotOf id _ = b at hvotes
  cases hvotes with
  | kept hvoted => exact hvoted
  | cast hq hactive =>
    cases hp.symm.trans hq
    exact absurd hactive hsettled

theorem settled_voters_run {s : State T} (h : StoreInv s) {id : ProposalId} {p : Proposal T}
    (hp : s.proposals id = some p) (hsettled : p.status ≠ .active) (ops : List (Op T)) :
    (run s ops).hasVoted id = s.hasVoted id := by
  refine (stored_run_invariant (P := fun t => t.proposals id = some p ∧
    t.hasVoted id = s.hasVoted id) ?_ h ⟨hp, rfl⟩ ops).2
  rintro t t' op out hinv ht ⟨hpt, hvoted⟩
  exact ⟨settled_step hinv ht hpt hsettled, (hasVoted_of_settled hinv ht hpt hsettled).trans hvoted⟩

/-- **The life of a proposal.** From the moment it is stored, a proposal is never removed and never
cancelled, keeps its terms, and loses no votes. Its status changes at most once, from active to
approved or rejected; from then on neither the proposal nor its recorded voters change. -/
theorem proposal_life_cycle (l : T.currency.Ledger) (ops more : List (Op T)) (id : ProposalId)
    (p : Proposal T) (hp : (run (genesis T l) ops).proposals id = some p) :
    let s := run (genesis T l) ops
    ∃ p', (run s more).proposals id = some p' ∧ p.Later p' ∧ p'.status ≠ .cancelled ∧
      (p.status ≠ .active → p' = p ∧ ∀ a, (run s more).hasVoted id a = s.hasVoted id a) := by
  intro s
  have hstore : StoreInv s := storeInv_reached l ops
  obtain ⟨p', hp', hlater⟩ := later_run hstore hp more
  have hnot : p'.status ≠ .cancelled := by
    refine not_cancelled l (ops ++ more) id p' ?_
    rw [run, Machine.run_append]
    exact hp'
  refine ⟨p', hp', hlater, hnot, fun hsettled => ⟨?_, fun a => ?_⟩⟩
  · have hsame := settled_run hstore hp hsettled more
    exact Option.some.inj (hp'.symm.trans hsame)
  · rw [settled_voters_run hstore hp hsettled more]

/-- The theorem where Alice's proposal is approved and Bob then tries to vote on it. -/
theorem proposal_life_cycle_early :
    let s := run developmentGenesis (beforeEarlyFinalization ++ [aliceFinalizes])
    let bobVotes : Op DevConfig := .call (.signed .bob) (.voteProposal 0 .againstVote)
    ∃ p p', s.proposals 0 = some p ∧ p.status = .approved ∧
      (run s [bobVotes]).proposals 0 = some p' ∧ p' = p ∧
        (run s [bobVotes]).hasVoted 0 .bob = s.hasVoted 0 .bob := by
  intro s bobVotes
  obtain ⟨p', hp', -, -, hsettled⟩ := proposal_life_cycle (T := DevConfig)
    developmentGenesis.ledger (beforeEarlyFinalization ++ [aliceFinalizes]) [bobVotes] 0 _ rfl
  obtain ⟨hsame, hvoted⟩ := hsettled (by decide)
  exact ⟨_, p', rfl, rfl, hp', hsame, hvoted .bob⟩

/-! ## The order of the store -/

/-- The largest id and the largest block number, `u32::MAX`. -/
def maxU32 : Nat := 4294967295

section Schedule

omit [DecidableEq AccountId]

/-- The schedule of a proposal that is stored under the id `i`. -/
structure Proposal.Scheduled (p : Proposal T) (i : ProposalId) (now : BlockNumber) : Prop where
  id_eq : p.id = i
  start_le : p.start ≤ now
  endBlock_val : ∃ d : U32, T.minProposalDuration ≤ d ∧ d ≤ T.maxProposalDuration ∧
    p.endBlock.val = min maxU32 (p.start.val + d.val)

/-- Stored proposals are scheduled, and later ids do not start earlier. -/
structure ScheduleInv (s : State T) : Prop where
  scheduled : ∀ {i p}, s.proposals i = some p → p.Scheduled i s.blockNumber
  start_le_start : ∀ {i j p q}, s.proposals i = some p → s.proposals j = some q → i ≤ j →
    p.start ≤ q.start

/-- A well-formed store: the ids below the counter are stored, on schedule, and votes are recorded
exactly where tallies are positive. -/
structure WellFormedStore (s : State T) : Prop extends ScheduleInv s where
  stored_iff : ∀ i, (∃ p, s.proposals i = some p) ↔ i < s.nextProposalId
  lt_of_voted : ∀ {i a}, s.hasVoted i a = true → i < s.nextProposalId
  votes_pos_iff : ∀ {i p}, s.proposals i = some p →
    (0 < p.forVotes.val + p.againstVotes.val ↔ ∃ a, s.hasVoted i a = true)

theorem newProposal_scheduled (s : State T) (who : AccountId)
    (title : BoundedVec UInt8 T.maxTitleLen) (description : BoundedVec UInt8 T.maxDescriptionLen)
    {duration : U32} (action : Action) (hmin : T.minProposalDuration ≤ duration)
    (hmax : duration ≤ T.maxProposalDuration) :
    (newProposal s who title description duration action).Scheduled s.nextProposalId
      s.blockNumber where
  id_eq := rfl
  start_le := Nat.le_refl _
  endBlock_val := ⟨duration, hmin, hmax, Nat.min_comm _ _⟩

theorem Proposal.Scheduled.later {p p' : Proposal T} {i : ProposalId} {now now' : BlockNumber}
    (h : p.Scheduled i now) (hlater : p.Later p') (hnow : now ≤ now') : p'.Scheduled i now' where
  id_eq := hlater.id_eq.trans h.id_eq
  start_le := by
    rw [hlater.start_eq]
    exact Nat.le_trans h.start_le hnow
  endBlock_val := by
    rw [hlater.start_eq, hlater.endBlock_eq]
    exact h.endBlock_val

/-- A proposal has votes if and only if somebody has voted on it. -/
theorem votes_pos_iff {s : State T} {id : ProposalId} {box : BallotBox AccountId VoteKind}
    (hbox : Represents s id box) {p : Proposal T} (hp : s.proposals id = some p) :
    0 < p.forVotes.val + p.againstVotes.val ↔ ∃ a, s.hasVoted id a = true := by
  have hfor : p.forVotes.val = min (box.tally 1 .forVote) maxBalance :=
    hbox.votes_val p hp .forVote
  have hagainst : p.againstVotes.val = min (box.tally 1 .againstVote) maxBalance :=
    hbox.votes_val p hp .againstVote
  have hmax : 0 < maxBalance := by decide
  constructor
  · intro h
    -- a positive tally has a ballot, and its voter is recorded
    have hvoter : ∀ kind, 0 < box.tally 1 kind → ∃ a, s.hasVoted id a = true := by
      intro kind hpos
      obtain ⟨b, hb, -⟩ := BallotBox.exists_ballot_of_tally_pos hpos
      exact ⟨b.voter, (hbox.voted_iff b.voter).2 (List.mem_map.2 ⟨b, hb, rfl⟩)⟩
    by_cases h0 : box.tally 1 .forVote = 0
    · exact hvoter .againstVote (by omega)
    · exact hvoter .forVote (Nat.pos_of_ne_zero h0)
  · rintro ⟨a, ha⟩
    obtain ⟨b, hb, -⟩ := List.mem_map.1 ((hbox.voted_iff a).1 ha)
    have hpos := BallotBox.tally_pos_of_mem 1 hb
    cases hchoice : b.choice with
    | forVote =>
      rw [hchoice] at hpos
      omega
    | againstVote =>
      rw [hchoice] at hpos
      omega

end Schedule

theorem ScheduleInv.transition {s s' : State T} {op : Op T} {out : Outcome T} (hstore : StoreInv s)
    (ht : Transition s op out s') (h : ScheduleInv s) : ScheduleInv s' := by
  have hblock : s.blockNumber ≤ s'.blockNumber := ht.blockNumber_le
  constructor
  · intro i p' hp'
    rcases proposal_cases hstore ht hp' with hcreated | ⟨p, hp, hchange⟩
    · cases hcreated with
      | @created who title description duration action hid hmin hmax =>
        subst hid
        have hnew := newProposal_scheduled s who title description action hmin hmax
        exact hnew.later (.refl _) hblock
    · exact (h.scheduled hp).later hchange.later hblock
  · intro i j p' q' hp' hq' hij
    -- each of the two proposals is old or was created in this step
    rcases proposal_cases hstore ht hp' with hpnew | ⟨p, hp, hpchange⟩
    · rcases proposal_cases hstore ht hq' with hqnew | ⟨q, hq, hqchange⟩
      · cases hpnew
        cases hqnew
        exact Nat.le_refl _
      · -- the id of a new proposal is above all stored ones
        cases hpnew with
        | created hid =>
          have hlt : j < s.nextProposalId := (hstore.stored_iff j).1 ⟨q, hq⟩
          rw [hid] at hij
          exact absurd hlt (Nat.not_lt_of_le hij)
    · rcases proposal_cases hstore ht hq' with hqnew | ⟨q, hq, hqchange⟩
      · rw [hpchange.later.start_eq]
        cases hqnew
        exact (h.scheduled hp).start_le
      · rw [hpchange.later.start_eq, hqchange.later.start_eq]
        exact h.start_le_start hp hq hij

theorem scheduleInv_reached (l : T.currency.Ledger) (ops : List (Op T)) :
    ScheduleInv (run (genesis T l) ops) := by
  refine stored_run_invariant (fun hinv ht h => h.transition hinv ht) (storeInv_genesis l) ?_ ops
  constructor
  · intro i p hp
    cases hp
  · intro i j p q hp
    cases hp

/-- The counter never decreases. -/
theorem nextProposalId_le_run (s : State T) (more : List (Op T)) :
    s.nextProposalId ≤ (run s more).nextProposalId := by
  refine run_invariant (P := fun t => s.nextProposalId ≤ t.nextProposalId) ?_ (Nat.le_refl _) more
  intro t t' op out ht h
  cases ht with
  | accepted ha =>
    cases ha with
    | createProposal hmin hmax hnext =>
      have hval := BoundedNat.checkedAdd_eq_some_iff.1 hnext
      exact Nat.le_trans h (hval ▸ Nat.le_add_right _ _)
    | voteProposal | finalizeRejected | finalizeApproved | deposit | withdraw | seedVault => exact h
  | refused | block | currency => exact h

/-- What `create_proposal` answers when the counter stands at its maximum. -/
def exhaustedError (T : Config AccountId) (duration : U32) : Error :=
  if T.minProposalDuration ≤ duration then
    if duration ≤ T.maxProposalDuration then .storageOverflow else .durationTooLong
  else .durationTooShort

omit [DecidableEq AccountId] in
theorem createGuard_of_exhausted {s : State T} (h : s.nextProposalId.val = maxU32)
    (duration : U32) : createGuard s duration = .error (exhaustedError T duration) := by
  have hnext : s.nextProposalId.checkedAdd (.clamp _ 1) = none := by
    cases hc : s.nextProposalId.checkedAdd (.clamp _ 1) with
    | none => rfl
    | some next =>
      -- the successor would be above the range
      have hval := BoundedNat.checkedAdd_eq_some_iff.1 hc
      have hrange := next.le_max
      rw [hval, h] at hrange
      exact absurd hrange (by decide)
  unfold createGuard exhaustedError
  rw [hnext]
  split_ifs <;> rfl

/-- A proposal with a duration in range moves the counter by one, as often as there are ids. -/
theorem nextProposalId_run_create (who : AccountId) (title : BoundedVec UInt8 T.maxTitleLen)
    (description : BoundedVec UInt8 T.maxDescriptionLen) {duration : U32} (action : Action)
    (hmin : T.minProposalDuration ≤ duration) (hmax : duration ≤ T.maxProposalDuration)
    (n : Nat) (s : State T) (hroom : s.nextProposalId.val + n ≤ maxU32) :
    (run s (List.replicate n (.call (.signed who)
      (.createProposal title description duration action)))).nextProposalId.val =
        s.nextProposalId.val + n := by
  induction n generalizing s with
  | zero => rfl
  | succ n ih =>
    -- the id has a successor, which is the counter after the first call
    have hle : s.nextProposalId.val + 1 ≤ 4294967295 := by
      unfold maxU32 at hroom
      omega
    have hnext : s.nextProposalId.checkedAdd (.clamp _ 1) = some ⟨s.nextProposalId.val + 1, hle⟩ :=
      BoundedNat.checkedAdd_eq_some_iff.2 rfl
    have ha : Accepted s (.signed who) (.createProposal title description duration action) _ :=
      .createProposal hmin hmax hnext
    rw [List.replicate_succ, run, Machine.run_cons, step_call_of_accepted ha]
    refine (ih _ ?_).trans ?_
    · show s.nextProposalId.val + 1 + n ≤ maxU32
      omega
    · show s.nextProposalId.val + 1 + n = s.nextProposalId.val + (n + 1)
      omega

/-- Runs that use up all ids exist. -/
theorem ids_run_out (l : T.currency.Ledger) (who : AccountId)
    (title : BoundedVec UInt8 T.maxTitleLen) (description : BoundedVec UInt8 T.maxDescriptionLen)
    {duration : U32} (action : Action) (hmin : T.minProposalDuration ≤ duration)
    (hmax : duration ≤ T.maxProposalDuration) :
    ∃ ops, (run (genesis T l) ops).nextProposalId.val = maxU32 := by
  have hroom : (genesis T l).nextProposalId.val + maxU32 ≤ maxU32 := Nat.le_of_eq (Nat.zero_add _)
  exact ⟨_, (nextProposalId_run_create who title description action hmin hmax maxU32 _ hroom).trans
    (Nat.zero_add _)⟩

/-- **The store of proposals is well formed, up to the last id.** In every reachable state the store
is well formed, and its counter never decreases. When the counter stands at `u32::MAX`, no proposal
can be created any more: a call whose duration is in range fails with `StorageOverflow`, every
other one with the error of its duration, and the state stays as it is. The last id is never
used. -/
theorem proposal_store_well_formed (l : T.currency.Ledger) (ops : List (Op T)) :
    let s := run (genesis T l) ops
    WellFormedStore s ∧ (∀ more, s.nextProposalId ≤ (run s more).nextProposalId) ∧
      (s.nextProposalId.val = maxU32 → ∀ who title description duration action,
        step s (.call (.signed who) (.createProposal title description duration action)) =
          (.error (.module (exhaustedError T duration)), s)) ∧
      s.proposals (.clamp _ maxU32) = none := by
  intro s
  have hstore : StoreInv s := storeInv_reached l ops
  have hschedule : ScheduleInv s := scheduleInv_reached l ops
  refine ⟨⟨hschedule, hstore.stored_iff, fun hv => ?_, fun {i p} hp => ?_⟩,
    nextProposalId_le_run s, fun hmax who title description duration action => ?_, ?_⟩
  · exact (hstore.stored_iff _).1 (hstore.stored_of_voted hv)
  · obtain ⟨box, -, hbox⟩ := represents_run l i ops
    exact votes_pos_iff hbox hp
  · unfold step
    dsimp only
    rw [dispatch_createProposal, createGuard_of_exhausted hmax]
  · cases hlast : s.proposals (.clamp _ maxU32) with
    | none => rfl
    | some p =>
      -- a stored id is below the counter
      have hlt := (hstore.stored_iff _).1 ⟨p, hlast⟩
      exact absurd s.nextProposalId.le_max (Nat.not_le_of_lt hlt)

end MulticoinTreasury
