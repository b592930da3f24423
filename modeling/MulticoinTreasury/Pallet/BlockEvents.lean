import MulticoinTreasury.Library.Archive
import MulticoinTreasury.Pallet.EventLog
import MulticoinTreasury.Pallet.Stakes

/-!
# The events of a block

A node serves the events block by block, for the blocks whose state it has kept. The events of a
block are those that the operations executed in it have recorded; what they say about stakes is
exactly the stake moves of these operations.
-/

set_option autoImplicit false

namespace MulticoinTreasury

variable {AccountId : Type} {T : Config AccountId}

/-- The events that an executed operation has recorded. -/
def emitted (e : Entry T) : List (Event AccountId) := e.after.events.drop e.before.events.length

theorem emitted_of_append {e : Entry T} {es : List (Event AccountId)}
    (h : e.after.events = e.before.events ++ es) : emitted e = es := by
  rw [emitted, h, List.drop_left]

/-- The events of a block. -/
def eventsAt (h : List (Entry T)) (b : ℕ) : List (Event AccountId) :=
  (h.filter fun e => e.before.blockNumber.val = b).flatMap emitted

/-- `system.events` at a block, if the node has kept the state of the block. -/
def servedEvents (h : List (Entry T)) (kept : ℕ → Bool) (b : ℕ) :
    Option (List (Event AccountId)) :=
  if kept b then some (eventsAt h b) else none

theorem servedEvents_of_kept (h : List (Entry T)) {kept : ℕ → Bool} {b : ℕ} (hb : kept b = true) :
    servedEvents h kept b = some (eventsAt h b) :=
  if_pos hb

theorem servedEvents_eq_none_iff (h : List (Entry T)) {kept : ℕ → Bool} {b : ℕ} :
    servedEvents h kept b = none ↔ kept b = false := by
  unfold servedEvents
  cases kept b <;> simp

variable [DecidableEq AccountId]

/-- What an event adds to the stake of an account. -/
def Event.creditOf (a : AccountId) : Event AccountId → ℕ
  | .deposited who amount => if who = a then amount.val else 0
  | _ => 0

/-- What an event takes from the stake of an account. -/
def Event.debitOf (a : AccountId) : Event AccountId → ℕ
  | .withdrawn who amount => if who = a then amount.val else 0
  | _ => 0

/-- An operation that is not an accepted call records no events and leaves the storage alone. -/
theorem emitted_transition {s s' : State T} {op : Op T} {out : Outcome T}
    (ht : Transition s op out s') :
    (emitted (⟨s, op, out, s'⟩ : Entry T) = [] ∧ s'.replica = s.replica) ∨
      ∃ origin call, op = .call origin call ∧ Accepted s origin call s' := by
  cases ht with
  | accepted ha => exact .inr ⟨_, _, rfl, ha⟩
  | refused => exact .inl ⟨emitted_of_append (List.append_nil _).symm, rfl⟩
  | block => exact .inl ⟨emitted_of_append (List.append_nil _).symm, rfl⟩
  | currency => exact .inl ⟨emitted_of_append (List.append_nil _).symm, rfl⟩

/-- The events of an operation say what it moved. -/
theorem stakeMove_emitted {s s' : State T} {op : Op T} {out : Outcome T}
    (ht : Transition s op out s') (hlate : ∀ origin call, op = .call origin call →
      s.blockNumber ≠ 0) (a : AccountId) :
    ((emitted (⟨s, op, out, s'⟩ : Entry T)).map (Event.creditOf a)).sum =
        (stakeMove (⟨s, op, out, s'⟩ : Entry T)).addedTo a ∧
      ((emitted (⟨s, op, out, s'⟩ : Entry T)).map (Event.debitOf a)).sum =
        (stakeMove (⟨s, op, out, s'⟩ : Entry T)).removedFrom a := by
  cases ht with
  | @accepted origin _ _ ha =>
    -- after the genesis block every event is recorded
    have hrecord := record_eq_append (hlate _ _ rfl)
    cases ha with
    | createProposal hmin hmax hnext =>
      rw [emitted_of_append (hrecord _)]
      exact ⟨rfl, rfl⟩
    | voteProposal hp hactive hopen hfresh hweight =>
      rw [emitted_of_append (hrecord _)]
      exact ⟨rfl, rfl⟩
    | finalizeRejected hp hactive hopen hquorum hfor =>
      rw [emitted_of_append (hrecord _)]
      exact ⟨rfl, rfl⟩
    | finalizeApproved hp hactive hopen hquorum hfor hswap hcoins hbalance =>
      rw [emitted_of_append (hrecord _)]
      exact ⟨rfl, rfl⟩
    | deposit hreserve =>
      rw [emitted_of_append (hrecord _)]
      exact ⟨Nat.add_zero _, rfl⟩
    | withdraw hstaked =>
      rw [emitted_of_append (hrecord _)]
      exact ⟨rfl, Nat.add_zero _⟩
    | seedVault =>
      rw [emitted_of_append (hrecord _)]
      cases origin <;> exact ⟨rfl, rfl⟩
  | @refused origin call e =>
    rw [emitted_of_append (List.append_nil _).symm]
    cases origin <;> cases call <;> exact ⟨rfl, rfl⟩
  | block =>
    rw [emitted_of_append (List.append_nil _).symm]
    exact ⟨rfl, rfl⟩
  | currency =>
    rw [emitted_of_append (List.append_nil _).symm]
    exact ⟨rfl, rfl⟩

/-- The events of a run list its deposits and withdrawals. -/
theorem stakes_emitted {s : State T} {ops : List (Op T)} (hcalls : CallsAfterGenesis (history s ops))
    (a : AccountId) :
    ((history s ops).map fun e => ((emitted e).map (Event.creditOf a)).sum).sum =
        deposited a (history s ops) ∧
      ((history s ops).map fun e => ((emitted e).map (Event.debitOf a)).sum).sum =
        withdrawn a (history s ops) := by
  have hentry : ∀ e ∈ history s ops,
      ((emitted e).map (Event.creditOf a)).sum = (stakeMove e).addedTo a ∧
        ((emitted e).map (Event.debitOf a)).sum = (stakeMove e).removedFrom a := by
    intro e he
    exact stakeMove_emitted (transition_of_mem he) (hcalls e he) a
  unfold deposited withdrawn Machine.total
  constructor
  · rw [List.map_congr_left fun e he => (hentry e he).1]
  · rw [List.map_congr_left fun e he => (hentry e he).2]

/-- From any state that holds a book, stakes change by what was deposited and withdrawn. -/
theorem deposits_run (hC : T.currency.Lawful) {s : State T} {book : Book AccountId}
    (h : HoldsStakes s book) (ops : List (Op T)) (a : AccountId) :
    ((run s ops).deposits a).val + withdrawn a (history s ops) =
      (s.deposits a).val + deposited a (history s ops) :=
  -- the book goes through the run with the stakes
  Machine.total_balance step (P := fun s : State T => ∃ book, HoldsStakes s book)
    (fun s => (s.deposits a).val) (fun e => (stakeMove e).addedTo a)
    (fun e => (stakeMove e).removedFrom a)
    (fun s op ⟨_, hbook⟩ => ⟨_, hbook.moved hC (stakeStep hC (step_transition s op))⟩)
    (fun _ op ⟨_, hbook⟩ => hbook.deposits_step hC op a) ⟨book, h⟩ ops

/-! ## The whole log -/

omit [DecidableEq AccountId] in
/-- The log of a state is the log before with the events of the operation. -/
theorem events_step [DecidableEq AccountId] (s : State T) (op : Op T) :
    (step s op).2.events = s.events ++ emitted (Machine.entry step s op) := by
  have hlog : ∃ es, (step s op).2.events = s.events ++ es := by
    have ht := step_transition s op
    generalize (step s op).1 = out, (step s op).2 = s' at ht
    cases ht with
    | accepted ha =>
      -- events of the genesis block are dropped
      by_cases hblock : s.blockNumber = 0
      · refine ⟨[], ?_⟩
        rw [List.append_nil]
        cases ha <;> exact if_pos hblock
      · have hrecord := record_eq_append hblock
        cases ha <;> exact ⟨_, hrecord _⟩
    | refused => exact ⟨[], (List.append_nil _).symm⟩
    | block => exact ⟨[], (List.append_nil _).symm⟩
    | currency => exact ⟨[], (List.append_nil _).symm⟩
  obtain ⟨es, hes⟩ := hlog
  have hemitted : emitted (Machine.entry step s op) = es := emitted_of_append hes
  rw [hemitted]
  exact hes

/-- The log is the list of the recorded events of all operations. -/
theorem events_run (s : State T) (ops : List (Op T)) :
    (run s ops).events = s.events ++ (history s ops).flatMap emitted := by
  induction ops generalizing s with
  | nil => exact (List.append_nil _).symm
  | cons op ops ih =>
    have hfirst := events_step s op
    rw [run, Machine.run_cons, history, Machine.trace_cons, List.flatMap_cons, ← List.append_assoc,
      ← hfirst]
    exact ih (step s op).2

def Event.isApprovalOf (id : ProposalId) : Event AccountId → Bool
  | .proposalFinalized i status => i = id ∧ status = .approved
  | _ => false

def Event.isCreationOf (id : ProposalId) (author : AccountId) : Event AccountId → Bool
  | .proposalCreated i a => i = id ∧ a = author
  | _ => false

omit [DecidableEq AccountId] in
theorem marks_approval (id : ProposalId) :
    Marks (Event.isApprovalOf id : Event AccountId → Bool) (· = .approved) id where
  active := rfl
  other e he := by
    cases e with
    | proposalFinalized i status =>
      have hne : i ≠ id := fun h => he (congrArg some h)
      simp [Event.isApprovalOf, hne]
    | _ => rfl
  rejected := by simp [Event.isApprovalOf]
  approved fromCoin toCoin amount := by simp [Event.isApprovalOf]

/-- One if the proposal at `id` is stored and has the author. -/
def authorCount (id : ProposalId) (author : AccountId) (s : State T) : ℕ :=
  match s.proposals id with
  | some p => if p.author = author then 1 else 0
  | none => 0

/-- Writing a proposal with the same author does not change the count. -/
theorem authorCount_of_update {s s' : State T} {i : ProposalId} {p q : Proposal T}
    (hp : s.proposals i = some p) (h : s'.proposals = Function.update s.proposals i (some q))
    (hauthor : q.author = p.author) (id : ProposalId) (author : AccountId) :
    authorCount id author s' = authorCount id author s := by
  unfold authorCount
  by_cases hi : id = i
  · subst hi
    rw [h, Function.update_self, hp]
    dsimp only
    rw [hauthor]
  · rw [h, Function.update_of_ne hi]

/-- A creation is recorded once, with the author of the proposal. -/
theorem explains_authorCount {s s' : State T} {origin : Origin AccountId} {call : Call T}
    (ha : Accepted s origin call s') (hstore : StoreInv s) (hblock : s.blockNumber ≠ 0)
    (id : ProposalId) (author : AccountId) :
    (Reader.counter (Event.isCreationOf id author)).Explains (authorCount id author) State.events
      s s' := by
  have hrecord := record_eq_append hblock
  -- calls that create nothing
  have hsame : ∀ {es : List (Event AccountId)}, s'.events = s.events ++ es →
      es.countP (Event.isCreationOf id author) = 0 →
      authorCount id author s' = authorCount id author s →
      (Reader.counter (Event.isCreationOf id author)).Explains (authorCount id author)
        State.events s s' := by
    intro es hlog hcount hauthor
    refine ⟨es, hlog, ?_⟩
    rw [Reader.counter_foldl, hcount, hauthor]
    rfl
  cases ha with
  | @createProposal who title description duration action next hmin hmax hnext =>
    refine ⟨_, hrecord _, ?_⟩
    rw [Reader.counter_foldl]
    unfold authorCount
    -- the new id had no author before
    by_cases hi : id = s.nextProposalId
    · subst hi
      have hnew : (s.insertProposal (newProposal s who title description duration action)
          next).proposals s.nextProposalId =
            some (newProposal s who title description duration action) := Function.update_self _ _ _
      rw [hnew, hstore.next_free]
      by_cases hwho : who = author <;> simp [Event.isCreationOf, newProposal, hwho]
    · have hold : (s.insertProposal (newProposal s who title description duration action)
          next).proposals id = s.proposals id := Function.update_of_ne hi _ _
      rw [hold]
      simp [Event.isCreationOf, Ne.symm hi]
  | @voteProposal who i vote p hp =>
    exact hsame (hrecord _) rfl (authorCount_of_update hp rfl (by cases vote <;> rfl) id author)
  | finalizeRejected hp =>
    exact hsame (hrecord _) rfl (authorCount_of_update hp rfl (by rfl) id author)
  | finalizeApproved hp =>
    exact hsame (hrecord _) rfl (authorCount_of_update hp rfl (by rfl) id author)
  | deposit => exact hsame (hrecord _) rfl rfl
  | withdraw => exact hsame (hrecord _) rfl rfl
  | seedVault => exact hsame (hrecord _) rfl rfl

/-- The log names the authors of the stored proposals. -/
theorem mem_events_created_iff (l : T.currency.Ledger) {ops : List (Op T)}
    (hcalls : CallsAfterGenesis (history (genesis T l) ops)) (id : ProposalId)
    (author : AccountId) :
    .proposalCreated id author ∈ (run (genesis T l) ops).events ↔
      ∃ p, (run (genesis T l) ops).proposals id = some p ∧ p.author = author := by
  -- the counter of creations replays to the count in storage
  have hcount : (run (genesis T l) ops).events.countP (Event.isCreationOf id author) =
      authorCount id author (run (genesis T l) ops) := by
    rw [← Reader.counter_replay]
    exact replay_eq_view (fun _ _ => rfl) (fun _ _ => rfl)
      (fun ha hstore hblock => explains_authorCount ha hstore hblock id author) l rfl ops hcalls
  have hmem : .proposalCreated id author ∈ (run (genesis T l) ops).events ↔
      0 < (run (genesis T l) ops).events.countP (Event.isCreationOf id author) := by
    rw [List.countP_pos_iff]
    constructor
    · intro h
      exact ⟨_, h, by simp [Event.isCreationOf]⟩
    · rintro ⟨e, he, hcreated⟩
      cases e with
      | proposalCreated i a =>
        obtain ⟨rfl, rfl⟩ := of_decide_eq_true hcreated
        exact he
      | _ => cases hcreated
  rw [hmem, hcount, authorCount]
  cases (run (genesis T l) ops).proposals id with
  | none => simp
  | some p => by_cases hp : p.author = author <;> simp [hp]

/-- The log names the approved proposals. -/
theorem mem_events_approved_iff (l : T.currency.Ledger) {ops : List (Op T)}
    (hcalls : CallsAfterGenesis (history (genesis T l) ops)) (id : ProposalId) :
    .proposalFinalized id .approved ∈ (run (genesis T l) ops).events ↔
      ∃ p, (run (genesis T l) ops).proposals id = some p ∧ p.status = .approved := by
  -- the counter of approvals replays to the count in storage
  have hcount : (run (genesis T l) ops).events.countP (Event.isApprovalOf id) =
      statusCount (· = .approved) id (run (genesis T l) ops) := by
    rw [← Reader.counter_replay]
    exact replay_eq_view (fun _ _ => rfl) (fun _ _ => rfl)
      (fun ha hstore hblock => counts_accepted (marks_approval id) ha hstore hblock) l rfl ops
      hcalls
  have hmem : .proposalFinalized id .approved ∈ (run (genesis T l) ops).events ↔
      0 < (run (genesis T l) ops).events.countP (Event.isApprovalOf id) := by
    rw [List.countP_pos_iff]
    constructor
    · intro h
      exact ⟨_, h, by simp [Event.isApprovalOf]⟩
    · rintro ⟨e, he, happroved⟩
      cases e with
      | proposalFinalized i status =>
        obtain ⟨rfl, rfl⟩ := of_decide_eq_true happroved
        exact he
      | _ => cases happroved
  rw [hmem, hcount, statusCount]
  cases (run (genesis T l) ops).proposals id with
  | none => simp
  | some p => by_cases hp : p.status = .approved <;> simp [hp]

/-! ## The clock -/

theorem blockNumber_le_step (s : State T) (op : Op T) :
    s.blockNumber.val ≤ (step s op).2.blockNumber.val :=
  (step_transition s op).blockNumber_le

/-- The events from a block on, block by block downwards, are those of the operations executed
since then. -/
theorem blocks_perm {β : Type} (f : Entry T → List β) (s : State T) (ops : List (Op T)) {m : ℕ}
    (hm : m ≤ (run s ops).blockNumber.val + 1) :
    ((List.range m).flatMap fun i => ((history s ops).filter
      fun e => e.before.blockNumber.val = (run s ops).blockNumber.val - i).flatMap f).Perm
        (((history s ops).filter
          fun e => (run s ops).blockNumber.val + 1 - m ≤ e.before.blockNumber.val).flatMap f) := by
  have hstamp : ∀ e ∈ history s ops, e.before.blockNumber.val ≤ (run s ops).blockNumber.val :=
    fun _ he => (Archive.clock_of_mem blockNumber_le_step he).2
  have hperm := Archive.flatMap_filter_perm (fun e : Entry T => e.before.blockNumber.val)
    (history s ops) hm hstamp
  -- the last `m` blocks, counted from either end
  have hfilter : ((history s ops).filter
      fun e => (run s ops).blockNumber.val < e.before.blockNumber.val + m) =
        (history s ops).filter
          fun e => (run s ops).blockNumber.val + 1 - m ≤ e.before.blockNumber.val := by
    apply List.filter_congr
    intro e _
    rw [decide_eq_decide]
    omega
  rw [hfilter] at hperm
  have hflat := hperm.flatMap_right f
  rwa [List.flatMap_assoc] at hflat

end MulticoinTreasury
