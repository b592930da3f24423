import MulticoinTreasury.Library.Replay
import MulticoinTreasury.Pallet.VotingWindow

/-!
# The event log as a record of the storage

An indexer sees only the events. `Replica` is what it can keep: the storage of the pallet without
the texts and periods of proposals, which no event carries. `indexer` rebuilds it event by event,
with the arithmetic of the pallet; the weight of a vote is not in its event, so it is computed from
the rebuilt stakes and karma. In every run whose calls come after the genesis block the indexer
holds the storage itself.
-/

set_option autoImplicit false

namespace MulticoinTreasury

variable {AccountId : Type} {T : Config AccountId}

/-! ## What an indexer keeps -/

/-- The part of a proposal that is recorded in events. -/
structure ProposalSummary (AccountId : Type) where
  author : AccountId
  status : ProposalStatus
  forVotes : Balance
  againstVotes : Balance

structure Replica (AccountId : Type) where
  proposals : ProposalId → Option (ProposalSummary AccountId)
  nextProposalId : ProposalId
  deposits : AccountId → Balance
  hasVoted : ProposalId → AccountId → Bool
  totalStake : Balance
  karma : AccountId → U32
  vault : Coin → U128

def Proposal.summary (p : Proposal T) : ProposalSummary AccountId :=
  { author := p.author, status := p.status, forVotes := p.forVotes, againstVotes := p.againstVotes }

/-- The storage as an indexer knows it. -/
def State.replica (s : State T) : Replica AccountId :=
  { proposals := fun i => (s.proposals i).map Proposal.summary, nextProposalId := s.nextProposalId,
    deposits := s.deposits, hasVoted := s.hasVoted, totalStake := s.totalStake, karma := s.karma,
    vault := s.vault }

/-- A vote counts its weight and one more. -/
def ProposalSummary.addVote (p : ProposalSummary AccountId) (vote : VoteKind) (weight : Balance) :
    ProposalSummary AccountId :=
  match vote with
  | .forVote => { p with
      forVotes := (p.forVotes.saturatingAdd weight).saturatingAdd (.clamp _ 1) }
  | .againstVote => { p with
      againstVotes := (p.againstVotes.saturatingAdd weight).saturatingAdd (.clamp _ 1) }

theorem u32_max_le_u128_max : 4294967295 ≤ 340282366920938463463374607431768211455 := by decide

/-- The weight of a vote, from the rebuilt stakes and karma. -/
def Replica.voteWeight (karmaUnit : Balance) (r : Replica AccountId) (voter : AccountId) :
    Balance :=
  (r.deposits voter).saturatingAdd
    (karmaUnit.saturatingMul ((r.karma voter).widen u32_max_le_u128_max))

variable [DecidableEq AccountId]

/-- How an indexer changes its replica on an event. Events about unknown proposals are ignored. -/
def Replica.applyEvent (karmaUnit : Balance) (r : Replica AccountId) :
    Event AccountId → Replica AccountId
  | .proposalCreated id author => { r with
      proposals := Function.update r.proposals id (some ⟨author, .active, 0, 0⟩)
      nextProposalId := id.saturatingAdd (.clamp _ 1) }
  | .proposalVoted id voter vote =>
      match r.proposals id with
      | some p => { r with
          proposals := Function.update r.proposals id
            (some (p.addVote vote (r.voteWeight karmaUnit voter)))
          hasVoted := Function.update r.hasVoted id
            (Function.update (r.hasVoted id) voter true) }
      | none => r
  | .proposalFinalized id status =>
      match r.proposals id with
      | some p => { r with
          proposals := Function.update r.proposals id (some { p with status := status })
          karma := if status = .approved then
              Function.update r.karma p.author ((r.karma p.author).saturatingAdd (.clamp _ 1))
            else r.karma }
      | none => r
  | .deposited who amount => { r with
      deposits := Function.update r.deposits who ((r.deposits who).saturatingAdd amount)
      totalStake := r.totalStake.saturatingAdd amount }
  | .withdrawn who amount => { r with
      deposits := Function.update r.deposits who ((r.deposits who).saturatingSub amount)
      totalStake := r.totalStake.saturatingSub amount }
  | .swapExecuted fromCoin toCoin amount _ => { r with
      vault := Function.update
        (Function.update r.vault fromCoin ((r.vault fromCoin).saturatingSub amount))
        toCoin ((r.vault toCoin).saturatingAdd amount) }
  | .vaultSeeded coin amount => { r with
      vault := Function.update r.vault coin ((r.vault coin).saturatingAdd amount) }

/-- The indexer: it starts with an empty storage. -/
def indexer (AccountId : Type) [DecidableEq AccountId] (karmaUnit : Balance) :
    Reader (Replica AccountId) (Event AccountId) where
  start := { proposals := fun _ => none, nextProposalId := 0, deposits := fun _ => 0,
             hasVoted := fun _ _ => false, totalStake := 0, karma := fun _ => 0,
             vault := fun _ => 0 }
  apply := Replica.applyEvent karmaUnit

/-! ## The events of one step -/

omit [DecidableEq AccountId] in
/-- The replica of a state in which one proposal was written. -/
theorem replica_of_update (s s' : State T) {id : ProposalId} {q : Proposal T}
    (h : s'.proposals = Function.update s.proposals id (some q)) :
    s'.replica =
      { proposals := Function.update s.replica.proposals id (some q.summary)
        nextProposalId := s'.nextProposalId
        deposits := s'.deposits
        hasVoted := s'.hasVoted
        totalStake := s'.totalStake
        karma := s'.karma
        vault := s'.vault } := by
  have hmap : (fun i => (s'.proposals i).map Proposal.summary) =
      Function.update s.replica.proposals id (some q.summary) := by
    rw [h]
    exact Function.comp_update (Option.map Proposal.summary) s.proposals id (some q)
  rw [State.replica, hmap]

omit [DecidableEq AccountId] in
theorem replica_proposals_of_stored {s : State T} {id : ProposalId} {p : Proposal T}
    (hp : s.proposals id = some p) : s.replica.proposals id = some p.summary := by
  show (s.proposals id).map Proposal.summary = _
  rw [hp]
  rfl

omit [DecidableEq AccountId] in
theorem summary_addVote (p : Proposal T) (vote : VoteKind) (w : Balance) :
    (p.addVote vote w).summary = p.summary.addVote vote w := by
  cases vote <;> rfl

theorem applyEvent_created {s : State T} {p : Proposal T} {next : ProposalId}
    (hnext : s.nextProposalId.checkedAdd (.clamp _ 1) = some next) (hactive : p.status = .active)
    (hfor : p.forVotes = 0) (hagainst : p.againstVotes = 0) :
    s.replica.applyEvent T.karmaUnit (.proposalCreated s.nextProposalId p.author) =
      (s.insertProposal p next).replica := by
  have hsummary : p.summary = ⟨p.author, .active, 0, 0⟩ := by
    rw [Proposal.summary, hactive, hfor, hagainst]
  have hid : next = s.nextProposalId.saturatingAdd (.clamp _ 1) := by
    have hval := BoundedNat.checkedAdd_eq_some_iff.1 hnext
    apply BoundedNat.ext
    rw [hval, BoundedNat.saturatingAdd_val_of_le (hval ▸ next.le_max)]
  rw [replica_of_update s (s.insertProposal p next) rfl, hsummary]
  subst hid
  rfl

theorem applyEvent_voted {s : State T} {id : ProposalId} {p : Proposal T} (who : AccountId)
    (vote : VoteKind) (hp : s.proposals id = some p) :
    s.replica.applyEvent T.karmaUnit (.proposalVoted id who vote) =
      (s.castVote id p who vote).replica := by
  rw [replica_of_update s (s.castVote id p who vote) rfl, summary_addVote, Replica.applyEvent,
    replica_proposals_of_stored hp]
  rfl

theorem applyEvent_rejected {s : State T} {id : ProposalId} {p : Proposal T}
    (hp : s.proposals id = some p) :
    s.replica.applyEvent T.karmaUnit (.proposalFinalized id .rejected) =
      (s.reject id p).replica := by
  rw [replica_of_update s (s.reject id p) rfl, Replica.applyEvent, replica_proposals_of_stored hp]
  rfl

theorem applyEvent_approved {s : State T} {id : ProposalId} {p : Proposal T} (swap : Swap)
    (hp : s.proposals id = some p) :
    (s.replica.applyEvent T.karmaUnit
      (.swapExecuted swap.fromCoin swap.toCoin swap.amount id)).applyEvent T.karmaUnit
        (.proposalFinalized id .approved) = (s.approve id p swap).replica := by
  rw [replica_of_update s (s.approve id p swap) rfl, Replica.applyEvent, Replica.applyEvent]
  dsimp only
  rw [replica_proposals_of_stored hp]
  rfl

omit [DecidableEq AccountId] in
/-- After the genesis block every event is recorded. -/
theorem record_eq_append {s : State T} (hblock : s.blockNumber ≠ 0) (es : List (Event AccountId)) :
    s.record es = s.events ++ es :=
  if_neg hblock

/-- The events of an accepted call explain to the indexer everything that the call wrote. -/
theorem explains_accepted {s s' : State T} {origin : Origin AccountId} {call : Call T}
    (ha : Accepted s origin call s') (hblock : s.blockNumber ≠ 0) :
    (indexer AccountId T.karmaUnit).Explains State.replica State.events s s' := by
  have hrecord := record_eq_append hblock
  cases ha with
  | createProposal hmin hmax hnext =>
    exact ⟨_, hrecord _, applyEvent_created hnext rfl rfl rfl⟩
  | @voteProposal who id vote p hp =>
    exact ⟨_, hrecord _, applyEvent_voted who vote hp⟩
  | finalizeRejected hp => exact ⟨_, hrecord _, applyEvent_rejected hp⟩
  | @finalizeApproved who id p swap hp => exact ⟨_, hrecord _, applyEvent_approved swap hp⟩
  | deposit => exact ⟨_, hrecord _, rfl⟩
  | withdraw => exact ⟨_, hrecord _, rfl⟩
  | seedVault => exact ⟨_, hrecord _, rfl⟩

/-! ## Events of a settlement -/

/-- The proposal that an event reports as settled or executed. -/
def Event.settled : Event AccountId → Option ProposalId
  | .proposalFinalized id _ => some id
  | .swapExecuted _ _ _ id => some id
  | _ => none

def Event.isSwapOf (id : ProposalId) : Event AccountId → Bool
  | .swapExecuted _ _ _ i => i = id
  | _ => false

def Event.isFinalizationOf (id : ProposalId) : Event AccountId → Bool
  | .proposalFinalized i _ => i = id
  | _ => false

/-- One if the proposal stored at `id` has a status with the property `P`. -/
def statusCount (P : ProposalStatus → Bool) (id : ProposalId) (s : State T) : Nat :=
  match s.proposals id with
  | some p => if P p.status then 1 else 0
  | none => 0

/-- The events with the property `m` mark that the proposal `id` gets a status with the
property `P`. -/
structure Marks (m : Event AccountId → Bool) (P : ProposalStatus → Bool) (id : ProposalId) :
    Prop where
  active : P .active = false
  other : ∀ e, e.settled ≠ some id → m e = false
  rejected : [Event.proposalFinalized id .rejected].countP m = if P .rejected then 1 else 0
  approved : ∀ fromCoin toCoin amount,
    [Event.swapExecuted fromCoin toCoin amount id, .proposalFinalized id .approved].countP m =
      if P .approved then 1 else 0

omit [DecidableEq AccountId] in
theorem marks_swap (id : ProposalId) :
    Marks (Event.isSwapOf id : Event AccountId → Bool) (· = .approved) id where
  active := rfl
  other e he := by
    cases e with
    | swapExecuted fromCoin toCoin amount i => simpa [Event.isSwapOf, Event.settled] using he
    | _ => rfl
  rejected := rfl
  approved fromCoin toCoin amount := by simp [Event.isSwapOf]

omit [DecidableEq AccountId] in
theorem marks_finalization (id : ProposalId) :
    Marks (Event.isFinalizationOf id : Event AccountId → Bool) (· ≠ .active) id where
  active := rfl
  other e he := by
    cases e with
    | proposalFinalized i status => simpa [Event.isFinalizationOf, Event.settled] using he
    | _ => rfl
  rejected := by simp [Event.isFinalizationOf]
  approved fromCoin toCoin amount := by simp [Event.isFinalizationOf]

section Counting

variable {m : Event AccountId → Bool} {P : ProposalStatus → Bool} {id : ProposalId}

omit [DecidableEq AccountId] in
theorem Marks.countP_other (hm : Marks m P id) {es : List (Event AccountId)}
    (hes : ∀ e ∈ es, e.settled ≠ some id) : es.countP m = 0 := by
  rw [List.countP_eq_zero]
  intro e he
  rw [hm.other e (hes e he)]
  exact Bool.false_ne_true

omit [DecidableEq AccountId] in
/-- Between two states the number of marks grows as the status says. -/
theorem explains_count {s s' : State T} {es : List (Event AccountId)}
    (hlog : s'.events = s.events ++ es)
    (hcount : statusCount P id s' = statusCount P id s + es.countP m) :
    (Reader.counter m).Explains (statusCount P id) State.events s s' :=
  ⟨es, hlog, (Reader.counter_foldl m _ es).trans hcount.symm⟩

omit [DecidableEq AccountId] in
theorem statusCount_of_stored {s : State T} {p : Proposal T} (hp : s.proposals id = some p) :
    statusCount P id s = if P p.status then 1 else 0 := by
  rw [statusCount, hp]

omit [DecidableEq AccountId] in
/-- Only the proposal that is written can change its count. -/
theorem statusCount_of_update {s s' : State T} {i : ProposalId} {q : Proposal T}
    (h : s'.proposals = Function.update s.proposals i (some q)) :
    statusCount P id s' =
      if id = i then (if P q.status then 1 else 0) else statusCount P id s := by
  by_cases hi : id = i
  · subst hi
    rw [if_pos rfl]
    apply statusCount_of_stored
    rw [h, Function.update_self]
  · rw [if_neg hi, statusCount, statusCount, h, Function.update_of_ne hi]

theorem counts_accepted (hm : Marks m P id) {s s' : State T} {origin : Origin AccountId}
    {call : Call T} (ha : Accepted s origin call s') (hstore : StoreInv s)
    (hblock : s.blockNumber ≠ 0) :
    (Reader.counter m).Explains (statusCount P id) State.events s s' := by
  have hrecord := record_eq_append hblock
  -- the count of an active proposal, or of one that is not stored, is zero
  have hactive0 : ∀ {p : Proposal T}, s.proposals id = some p → p.status = .active →
      statusCount P id s = 0 := by
    intro p hp hactive
    rw [statusCount_of_stored hp, hactive, hm.active]
    rfl
  cases ha with
  | createProposal hmin hmax hnext =>
    refine explains_count (hrecord _) ?_
    rw [hm.countP_other (by simp [Event.settled]), statusCount_of_update rfl]
    by_cases hi : id = s.nextProposalId
    · subst hi
      rw [if_pos rfl, statusCount, hstore.next_free]
      show (if P .active then 1 else 0) = _
      rw [hm.active]
      rfl
    · rw [if_neg hi, Nat.add_zero]
  | @voteProposal who i vote p hp hactive =>
    refine explains_count (hrecord _) ?_
    rw [hm.countP_other (by simp [Event.settled]), statusCount_of_update rfl]
    by_cases hi : id = i
    · subst hi
      rw [if_pos rfl, addVote_status, statusCount_of_stored hp, Nat.add_zero]
    · rw [if_neg hi, Nat.add_zero]
  | @finalizeRejected who i p hp hactive =>
    refine explains_count (hrecord _) ?_
    rw [statusCount_of_update rfl]
    by_cases hi : id = i
    · subst hi
      rw [if_pos rfl, hactive0 hp hactive, hm.rejected, Nat.zero_add]
    · rw [if_neg hi, hm.countP_other (by simpa [Event.settled] using Ne.symm hi), Nat.add_zero]
  | @finalizeApproved who i p swap hp hactive =>
    refine explains_count (hrecord _) ?_
    rw [statusCount_of_update rfl]
    by_cases hi : id = i
    · subst hi
      rw [if_pos rfl, hactive0 hp hactive, hm.approved, Nat.zero_add]
    · rw [if_neg hi, hm.countP_other (by simpa [Event.settled] using Ne.symm hi), Nat.add_zero]
  | deposit =>
    exact explains_count (hrecord _) (by rw [hm.countP_other (by simp [Event.settled])]; rfl)
  | withdraw =>
    exact explains_count (hrecord _) (by rw [hm.countP_other (by simp [Event.settled])]; rfl)
  | seedVault =>
    exact explains_count (hrecord _) (by rw [hm.countP_other (by simp [Event.settled])]; rfl)

end Counting

/-! ## Whole runs -/

/-- Every call of the history is dispatched after the genesis block. -/
def CallsAfterGenesis (h : List (Entry T)) : Prop :=
  ∀ e ∈ h, ∀ origin call, e.input = .call origin call → e.before.blockNumber ≠ 0

/-- Once the first block has begun, every call comes after the genesis block. -/
theorem callsAfterGenesis_of_late {s : State T} (hlate : s.blockNumber ≠ 0) (ops : List (Op T)) :
    CallsAfterGenesis (history s ops) := by
  intro e he origin call _
  obtain ⟨pre, op, post, -, rfl⟩ := Machine.mem_trace step he
  refine run_invariant (P := fun t => t.blockNumber ≠ 0) ?_ hlate pre
  intro t t' op out ht h h0
  have hle := ht.blockNumber_le
  rw [BoundedNat.eq_zero_iff.1 h0, Nat.le_zero] at hle
  exact h (BoundedNat.eq_zero_iff.2 hle)

/-- A run that begins with a block has no call in the genesis block. -/
theorem callsAfterGenesis_block_cons {s : State T} {number : BlockNumber}
    (hlate : (s.atBlock number).blockNumber ≠ 0) (ops : List (Op T)) :
    CallsAfterGenesis (history s (.block number :: ops)) := by
  intro e he origin call hinput
  rcases List.mem_cons.1 he with rfl | he
  · cases hinput
  · exact callsAfterGenesis_of_late hlate ops e he origin call hinput

section Runs

variable {ρ : Type} {R : Reader ρ (Event AccountId)} {view : State T → ρ}

/-- A step is explained if accepted calls are and the view is of the storage alone. -/
theorem explains_transition (hblocks : ∀ s number, view (State.atBlock s number) = view s)
    (hcurrency : ∀ s o, view (State.afterOther s o) = view s)
    (haccepted : ∀ {s s' : State T} {origin : Origin AccountId} {call : Call T},
      Accepted s origin call s' → StoreInv s → s.blockNumber ≠ 0 →
        R.Explains view State.events s s')
    {s s' : State T} {op : Op T} {out : Outcome T} (ht : Transition s op out s')
    (hstore : StoreInv s) (hlate : ∀ origin call, op = .call origin call → s.blockNumber ≠ 0) :
    R.Explains view State.events s s' := by
  cases ht with
  | accepted ha => exact haccepted ha hstore (hlate _ _ rfl)
  | refused => exact .refl R view State.events s
  | block => exact ⟨[], (List.append_nil _).symm, (hblocks s _).symm⟩
  | currency => exact ⟨[], (List.append_nil _).symm, (hcurrency s _).symm⟩

/-- A reader to which each accepted call explains itself keeps up with every run whose calls come
after the genesis block. -/
theorem replay_eq_view (hblocks : ∀ s number, view (State.atBlock s number) = view s)
    (hcurrency : ∀ s o, view (State.afterOther s o) = view s)
    (haccepted : ∀ {s s' : State T} {origin : Origin AccountId} {call : Call T},
      Accepted s origin call s' → StoreInv s → s.blockNumber ≠ 0 →
        R.Explains view State.events s s')
    (l : T.currency.Ledger) (hstart : R.start = view (genesis T l)) (ops : List (Op T))
    (hcalls : CallsAfterGenesis (history (genesis T l) ops)) :
    R.replay (run (genesis T l) ops).events = view (run (genesis T l) ops) := by
  refine Reader.replay_run State.events hstart fun e he => ?_
  have hlate := hcalls e he
  obtain ⟨pre, op, post, -, rfl⟩ := Machine.mem_trace step he
  exact explains_transition hblocks hcurrency haccepted (step_transition _ op)
    (storeInv_reached l pre) hlate

end Runs

/-- **The event log is a faithful record of the storage.** In every run whose calls come after the
genesis block, replaying the events gives the storage of the pallet. A proposal has one
`SwapExecuted` event if it is approved and none otherwise, and one `ProposalFinalized` event if it
is no longer active and none otherwise; ids without a proposal have neither. -/
theorem events_record_storage (l : T.currency.Ledger) (ops : List (Op T))
    (hcalls : CallsAfterGenesis (history (genesis T l) ops)) :
    let s := run (genesis T l) ops
    (indexer AccountId T.karmaUnit).replay s.events = s.replica ∧
      (∀ id p, s.proposals id = some p →
        s.events.countP (Event.isSwapOf id) = (if p.status = .approved then 1 else 0) ∧
        s.events.countP (Event.isFinalizationOf id) = if p.status = .active then 0 else 1) ∧
      ∀ id, s.proposals id = none → s.events.countP (Event.isSwapOf id) = 0 ∧
        s.events.countP (Event.isFinalizationOf id) = 0 := by
  intro s
  have hreplica : (indexer AccountId T.karmaUnit).replay s.events = s.replica :=
    replay_eq_view (fun _ _ => rfl) (fun _ _ => rfl)
      (fun ha _ hblock => explains_accepted ha hblock) l rfl ops hcalls
  have hcount : ∀ {m : Event AccountId → Bool} {P : ProposalStatus → Bool} {id : ProposalId},
      Marks m P id → s.events.countP m = statusCount P id s := by
    intro m P id hm
    rw [← Reader.counter_replay]
    exact replay_eq_view (fun _ _ => rfl) (fun _ _ => rfl)
      (fun ha hstore hblock => counts_accepted hm ha hstore hblock) l rfl ops hcalls
  refine ⟨hreplica, fun id p hp => ?_, fun id hnone => ?_⟩
  · rw [hcount (marks_swap id), hcount (marks_finalization id), statusCount_of_stored hp,
      statusCount_of_stored hp]
    cases p.status <;> decide
  · rw [hcount (marks_swap id), hcount (marks_finalization id), statusCount, statusCount, hnone]
    exact ⟨rfl, rfl⟩

/-- The theorem at a run in which Alice's proposal is approved. -/
theorem events_record_storage_early :
    let s := run developmentGenesis (beforeEarlyFinalization ++ [aliceFinalizes])
    (indexer DevAccount DevConfig.karmaUnit).replay s.events = s.replica ∧
      s.events.countP (Event.isSwapOf 0) = 1 := by
  have hcalls : CallsAfterGenesis (history developmentGenesis
      (beforeEarlyFinalization ++ [aliceFinalizes])) :=
    callsAfterGenesis_block_cons (by decide) _
  obtain ⟨hreplica, hevents, -⟩ := events_record_storage (T := DevConfig)
    developmentGenesis.ledger (beforeEarlyFinalization ++ [aliceFinalizes]) hcalls
  exact ⟨hreplica, (hevents 0 _ rfl).1⟩

end MulticoinTreasury
