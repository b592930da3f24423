import MulticoinTreasury.Library.CleanFailure
import MulticoinTreasury.Pallet.Lifecycle
import MulticoinTreasury.Runtime.Config

/-!
# What the transaction around a call is needed for

The runtime undoes the writes of a call that fails. All calls but one fail before they write, so
this changes nothing for them; `create_proposal` stores the proposal before it looks whether the id
has a successor. `bareStep` is the chain without transactions: its histories are those of the chain
exactly as long as nobody creates a proposal when the ids have run out.
-/

set_option autoImplicit false

namespace MulticoinTreasury

open StateError

variable {AccountId : Type} [DecidableEq AccountId] {T : Config AccountId}

/-! ## Calls that fail clean -/

section Bodies

omit [DecidableEq AccountId]

theorem readsOnly_ensureSigned (origin : Origin AccountId) :
    ReadsOnly (ensureSigned origin : DispatchM T AccountId) := by
  cases origin with
  | signed who => exact .pure who
  | root => exact .throw _
  | none => exact .throw _

theorem neverFails_depositEvent (e : Event AccountId) :
    NeverFails (depositEvent e : DispatchM T PUnit) :=
  .modify _

theorem failsClean_reserve (who : AccountId) (amount : Balance) :
    FailsClean (reserve who amount : DispatchM T PUnit) := by
  intro s e s' h
  unfold reserve at h
  cases hr : T.currency.reserve s.ledger who amount with
  | ok l =>
    rw [hr] at h
    cases h
  | error e' =>
    rw [hr] at h
    cases h
    rfl

end Bodies

theorem failsClean_voteProposal (origin : Origin AccountId) (id : ProposalId) (vote : VoteKind) :
    FailsClean (voteProposal origin id vote : DispatchM T PUnit) := by
  refine .after_read (readsOnly_ensureSigned origin) fun who => ?_
  refine .before_write (.tryMutate fun maybeProposal => ?_) fun _ => neverFails_depositEvent _
  -- the four checks only read; between them the clock, the votes and the weight are read
  refine .after_read (.okOr _ _) fun proposal => ?_
  refine .after_read (.ensure _ _) fun _ => ?_
  refine .after_read .get fun s => ?_
  refine .after_read (.ensure _ _) fun _ => ?_
  refine .after_read .get fun t => ?_
  refine .after_read (.ensure _ _) fun _ => ?_
  refine .after_read .get fun u => ?_
  refine .after_read (.ensure _ _) fun _ => ?_
  -- the voter is recorded after the last check
  exact NeverFails.failsClean ((NeverFails.modify _).bind fun _ => .pure _)

theorem failsClean_deposit (origin : Origin AccountId) (amount : Balance) :
    FailsClean (deposit origin amount : DispatchM T PUnit) := by
  refine .after_read (readsOnly_ensureSigned origin) fun who => ?_
  refine .before_write (failsClean_reserve who amount) fun _ => ?_
  exact (NeverFails.modify _).bind fun _ => (NeverFails.modify _).bind fun _ =>
    neverFails_depositEvent _

theorem failsClean_withdraw (origin : Origin AccountId) (amount : Balance) :
    FailsClean (withdraw origin amount : DispatchM T PUnit) := by
  refine .after_read (readsOnly_ensureSigned origin) fun who => ?_
  refine .after_read .get fun s => ?_
  refine .before_write (ReadsOnly.ensure _ _).failsClean fun _ => ?_
  -- `unreserve` returns what is missing instead of an error
  refine NeverFails.bind (fun s => ⟨_, _, rfl⟩) fun _ => ?_
  exact (NeverFails.modify _).bind fun _ => (NeverFails.modify _).bind fun _ =>
    neverFails_depositEvent _

theorem failsClean_finalizeProposal (origin : Origin AccountId) (id : ProposalId) :
    FailsClean (finalizeProposal origin id : DispatchM T PUnit) := by
  cases origin with
  | signed who =>
    -- settling a proposal is one write, after the verdict
    intro s e s' h
    rw [finalizeProposal_signed] at h
    cases hv : finalizeVerdict s id with
    | ok t =>
      rw [hv] at h
      cases h
    | error e' =>
      rw [hv] at h
      cases h
      rfl
  | root | none =>
    intro s e s' h
    cases h
    rfl

/-! ## The call that does not -/

/-- A proposal with a duration in range, when the counter stands at its maximum. -/
def CreatesBeyondLast (s : State T) : Op T → Prop
  | .call (.signed _) (.createProposal _ _ duration _) =>
      T.minProposalDuration ≤ duration ∧ duration ≤ T.maxProposalDuration ∧
        s.nextProposalId.val = maxU32
  | _ => False

omit [DecidableEq AccountId] in
theorem checkedAdd_eq_none_iff (id : ProposalId) :
    id.checkedAdd (.clamp _ 1) = none ↔ id.val = maxU32 := by
  have hle : id.val ≤ maxU32 := id.le_max
  have hone : (BoundedNat.clamp 4294967295 1).val = 1 := rfl
  unfold BoundedNat.checkedAdd
  rw [hone]
  unfold maxU32 at *
  split_ifs <;> simp <;> omega

omit [DecidableEq AccountId] in
theorem createProposal_error {s s' : State T} {origin : Origin AccountId}
    {title : BoundedVec UInt8 T.maxTitleLen} {description : BoundedVec UInt8 T.maxDescriptionLen}
    {duration : U32} {action : Action} {e : DispatchError T}
    (h : createProposal origin title description duration action s = .error e s') :
    s' = s ∨ CreatesBeyondLast s
      (.call origin (.createProposal title description duration action)) := by
  cases origin with
  | signed who =>
    change (ensure (T.minProposalDuration ≤ duration) _ >>= _) s = _ at h
    -- the checks in the order of the source; only the last one stands after a write
    by_cases hmin : T.minProposalDuration ≤ duration
    · rw [ensure_bind, if_pos hmin] at h
      by_cases hmax : duration ≤ T.maxProposalDuration
      · by_cases hnext : s.nextProposalId.val = maxU32
        · exact Or.inr ⟨hmin, hmax, hnext⟩
        · -- the id has a successor, so the call would have been accepted
          cases hc : s.nextProposalId.checkedAdd (.clamp _ 1) with
          | none => exact absurd ((checkedAdd_eq_none_iff _).1 hc) hnext
          | some next =>
            rw [ensure_bind, if_pos hmax] at h
            simp only [okOr_bind, BoundedVec.tryInto_self, get_bind, modify_bind, hc] at h
            cases h
      · rw [ensure_bind, if_neg hmax] at h
        cases h
        exact Or.inl rfl
    · rw [ensure_bind, if_neg hmin] at h
      cases h
      exact Or.inl rfl
  | root | none =>
    cases h
    exact Or.inl rfl

/-- The body of a call changes nothing when it fails, except beyond the last id. -/
theorem callBody_error {s s' : State T} {origin : Origin AccountId} {call : Call T}
    {e : DispatchError T} (h : callBody origin call s = .error e s') :
    s' = s ∨ CreatesBeyondLast s (.call origin call) := by
  cases call with
  | createProposal title description duration action => exact createProposal_error h
  | voteProposal id vote => exact Or.inl (failsClean_voteProposal origin id vote s e s' h)
  | finalizeProposal id => exact Or.inl (failsClean_finalizeProposal origin id s e s' h)
  | deposit amount => exact Or.inl (failsClean_deposit origin amount s e s' h)
  | withdraw amount => exact Or.inl (failsClean_withdraw origin amount s e s' h)
  | seedVault coin amount => cases h

/-! ## The chain without transactions -/

/-- A step that keeps what a failed call wrote. -/
def bareStep (s : State T) : Op T → Outcome T × State T
  | .call origin call =>
      match callBody origin call s with
      | .ok _ s' => (.ok ⟨⟩, s')
      | .error e s' => (.error e, s')
  | .block number => (.ok ⟨⟩, s.atBlock number)
  | .currency o => (.ok ⟨⟩, s.afterOther o)

theorem bareStep_of_not_beyond {s : State T} {op : Op T} (h : ¬ CreatesBeyondLast s op) :
    bareStep s op = step s op := by
  cases op with
  | call origin call =>
    unfold bareStep step dispatch transactional
    dsimp only
    cases hb : callBody origin call s with
    | ok r s' => rfl
    | error e s' =>
      rcases callBody_error hb with rfl | hbeyond
      · rfl
      · exact absurd hbeyond h
  | block number => rfl
  | currency o => rfl

/-- Beyond the last id the refused proposal stays in storage. -/
theorem bareStep_of_beyond {s : State T} {op : Op T} (h : CreatesBeyondLast s op) :
    ∃ p, (bareStep s op).2.proposals s.nextProposalId = some p := by
  cases op with
  | call origin call =>
    cases origin with
    | signed who =>
      cases call with
      | createProposal title description duration action =>
        obtain ⟨hmin, hmax, hnext⟩ := h
        have hbody := createProposal_of_exhausted who title description action hmin hmax
          ((checkedAdd_eq_none_iff _).2 hnext)
        refine ⟨newProposal s who title description duration action, ?_⟩
        have hbare : bareStep s (.call (.signed who)
            (.createProposal title description duration action)) =
              (.error (.module .storageOverflow), { s with
                proposals := Function.update s.proposals s.nextProposalId
                  (some (newProposal s who title description duration action)) }) := by
          simp only [bareStep, callBody, hbody]
        rw [hbare]
        exact Function.update_self _ _ _
      | voteProposal | finalizeProposal | deposit | withdraw | seedVault => exact h.elim
    | root | none => exact h.elim
  | block | currency => exact h.elim

/-- The chain itself stores no refused proposal. -/
theorem step_of_beyond {s : State T} (hstore : StoreInv s) {op : Op T}
    (h : CreatesBeyondLast s op) : (step s op).2.proposals s.nextProposalId = none := by
  cases op with
  | call origin call =>
    cases origin with
    | signed who =>
      cases call with
      | createProposal title description duration action =>
        obtain ⟨hmin, hmax, hnext⟩ := h
        have hstep : step s (.call (.signed who)
            (.createProposal title description duration action)) =
              (.error (.module (exhaustedError T duration)), s) := by
          simp only [step, dispatch_createProposal, createGuard_of_exhausted hnext]
        rw [hstep]
        exact hstore.next_free
      | voteProposal | finalizeProposal | deposit | withdraw | seedVault => exact h.elim
    | root | none => exact h.elim
  | block | currency => exact h.elim

theorem bareStep_eq_iff {s : State T} (hstore : StoreInv s) (op : Op T) :
    bareStep s op = step s op ↔ ¬ CreatesBeyondLast s op := by
  constructor
  · intro heq hbeyond
    obtain ⟨p, hp⟩ := bareStep_of_beyond hbeyond
    rw [heq, step_of_beyond hstore hbeyond] at hp
    cases hp
  · exact bareStep_of_not_beyond

theorem bare_history_eq_iff {s : State T} (hstore : StoreInv s) (ops : List (Op T)) :
    Machine.trace bareStep s ops = history s ops ↔
      ∀ e ∈ history s ops, ¬ CreatesBeyondLast e.before e.input := by
  induction ops generalizing s with
  | nil => simp
  | cons op ops ih =>
    have hnext : StoreInv (step s op).2 := hstore.transition (step_transition s op)
    -- the first entries agree, and from the state after them the induction goes on
    rw [history, Machine.trace_cons, Machine.trace_cons, List.forall_mem_cons, List.cons.injEq]
    constructor
    · rintro ⟨hentry, htail⟩
      have hstep : bareStep s op = step s op :=
        Prod.ext (congrArg Machine.Entry.output hentry) (congrArg Machine.Entry.after hentry)
      refine ⟨(bareStep_eq_iff hstore op).1 hstep, (ih hnext).1 ?_⟩
      rwa [hstep] at htail
    · rintro ⟨hfirst, hrest⟩
      have hstep : bareStep s op = step s op := bareStep_of_not_beyond hfirst
      refine ⟨?_, ?_⟩
      · unfold Machine.entry
        rw [hstep]
      · rw [hstep]
        exact (ih hnext).2 hrest

/-- **The transaction around a call is needed beyond the last id, and nowhere else.** A run without
transactions is step by step the run with them if and only if no call of the run creates a proposal
when the ids have run out; if durations are possible at all, there is a run that does. -/
theorem rollback_needed_only_beyond_last (l : T.currency.Ledger) :
    (∀ ops, Machine.trace bareStep (genesis T l) ops = history (genesis T l) ops ↔
      ∀ e ∈ history (genesis T l) ops, ¬ CreatesBeyondLast e.before e.input) ∧
    (Nonempty AccountId → T.minProposalDuration ≤ T.maxProposalDuration →
      ∃ ops, Machine.trace bareStep (genesis T l) ops ≠ history (genesis T l) ops) := by
  refine ⟨fun ops => bare_history_eq_iff (storeInv_genesis l) ops, ?_⟩
  rintro ⟨who⟩ hdurations
  -- use up the ids, then try once more
  let swap : Action := .swap ⟨.dot, .kusama, 0⟩
  obtain ⟨ops, hmax⟩ := ids_run_out l who ⟨[], Nat.zero_le _⟩ ⟨[], Nat.zero_le _⟩ swap
    (Nat.le_refl T.minProposalDuration.val) hdurations
  let last : Op T := .call (.signed who)
    (.createProposal ⟨[], Nat.zero_le _⟩ ⟨[], Nat.zero_le _⟩ T.minProposalDuration swap)
  have hbeyond : CreatesBeyondLast (run (genesis T l) ops) last :=
    ⟨Nat.le_refl _, hdurations, hmax⟩
  have hlast : Machine.entry step (run (genesis T l) ops) last ∈
      history (genesis T l) (ops ++ [last]) := by
    rw [history, Machine.trace_snoc]
    exact List.mem_append_right _ List.mem_cons_self
  refine ⟨ops ++ [last], fun heq => ?_⟩
  exact (bare_history_eq_iff (storeInv_genesis l) _).1 heq _ hlast hbeyond

/-- On the development chain the ids can run out. -/
theorem rollback_needed_on_development :
    ∃ ops, Machine.trace bareStep developmentGenesis ops ≠ history developmentGenesis ops :=
  (rollback_needed_only_beyond_last (T := DevConfig) developmentGenesis.ledger).2 ⟨.alice⟩
    (by decide)

end MulticoinTreasury
