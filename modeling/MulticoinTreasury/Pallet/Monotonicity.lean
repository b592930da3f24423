import MulticoinTreasury.Library.Simulation
import MulticoinTreasury.Pallet.Threshold

/-!
# A turned vote does not hurt

Two runs are compared that differ in some votes on one proposal: where an account votes Against in
the first, it votes For in the second. The votes weigh the same, so the participation is the same
and only the For votes are more. The two states then differ in nothing but the tallies of that
proposal and the events, until the first run rejects the proposal; and if it approves it, so does
the second.
-/

set_option autoImplicit false

namespace MulticoinTreasury

variable {AccountId : Type} {T : Config AccountId}

/-! ## Turned tallies -/

/-- The proposal with some votes moved to the For side. Both tallies are clipped. -/
inductive Proposal.Turned (p : Proposal T) : Proposal T → Prop
  | mk {f a f' a' : ℕ} (hfor : p.forVotes = .clamp _ f) (hagainst : p.againstVotes = .clamp _ a)
      (hle : f ≤ f') (hsum : f + a = f' + a') :
      p.Turned { p with forVotes := .clamp _ f', againstVotes := .clamp _ a' }

theorem Proposal.Turned.refl (p : Proposal T) : p.Turned p := by
  have h : p.Turned { p with
      forVotes := .clamp _ p.forVotes.val, againstVotes := .clamp _ p.againstVotes.val } :=
    .mk (BoundedNat.clamp_val_self _).symm (BoundedNat.clamp_val_self _).symm (Nat.le_refl _) rfl
  rw [BoundedNat.clamp_val_self, BoundedNat.clamp_val_self] at h
  exact h

/-- The participation is that of the unclipped tallies. -/
theorem participation_clamp {p : Proposal T} {f a : ℕ} (hfor : p.forVotes = .clamp _ f)
    (hagainst : p.againstVotes = .clamp _ a) : p.participation = .clamp _ (f + a) := by
  rw [Proposal.participation, hfor, hagainst, BoundedNat.clamp_saturatingAdd_clamp]

theorem Proposal.Turned.participation_eq {p p' : Proposal T} (h : p.Turned p') :
    p'.participation = p.participation := by
  cases h with
  | mk hfor hagainst hle hsum =>
    rw [participation_clamp hfor hagainst, hsum]
    exact participation_clamp rfl rfl

theorem Proposal.Turned.neededFor_eq {p p' : Proposal T} (h : p.Turned p') :
    p'.neededFor = p.neededFor := by
  rw [Proposal.neededFor, Proposal.neededFor, h.participation_eq]

theorem Proposal.Turned.forVotes_le {p p' : Proposal T} (h : p.Turned p') :
    p.forVotes ≤ p'.forVotes := by
  cases h with
  | @mk f a f' a' hfor hagainst hle hsum =>
    rw [hfor, BoundedNat.le_iff]
    show min f maxBalance ≤ min f' maxBalance
    omega

theorem Proposal.Turned.settle {p p' : Proposal T} (h : p.Turned p') (status : ProposalStatus) :
    Proposal.Turned { p with status := status } { p' with status := status } := by
  cases h with
  | mk hfor hagainst hle hsum => exact .mk hfor hagainst hle hsum

theorem addVote_for_eq {p : Proposal T} {f : ℕ} (hfor : p.forVotes = .clamp _ f) (w : Balance) :
    p.addVote .forVote w = { p with forVotes := .clamp _ (f + (w.val + 1)) } := by
  show ({ p with forVotes := (p.forVotes.saturatingAdd w).saturatingAdd (.clamp _ 1) } :
    Proposal T) = _
  rw [hfor, BoundedNat.clamp_saturatingAdd, BoundedNat.clamp_saturatingAdd_clamp, Nat.add_assoc]

theorem addVote_against_eq {p : Proposal T} {a : ℕ} (hagainst : p.againstVotes = .clamp _ a)
    (w : Balance) :
    p.addVote .againstVote w = { p with againstVotes := .clamp _ (a + (w.val + 1)) } := by
  show ({ p with againstVotes := (p.againstVotes.saturatingAdd w).saturatingAdd (.clamp _ 1) } :
    Proposal T) = _
  rw [hagainst, BoundedNat.clamp_saturatingAdd, BoundedNat.clamp_saturatingAdd_clamp,
    Nat.add_assoc]

/-- The vote of the second run, given that of the first. -/
inductive VoteKind.Turns : VoteKind → VoteKind → Prop
  | same (vote : VoteKind) : Turns vote vote
  | turned : Turns .againstVote .forVote

/-- A further vote, turned or not. -/
theorem Proposal.Turned.addVote {p p' : Proposal T} (h : p.Turned p') {vote vote' : VoteKind}
    (hvote : vote.Turns vote') (w : Balance) : (p.addVote vote w).Turned (p'.addVote vote' w) := by
  cases h with
  | mk hfor hagainst hle hsum =>
    cases hvote with
    | same vote =>
      cases vote with
      | forVote =>
        rw [addVote_for_eq hfor, addVote_for_eq rfl]
        exact .mk rfl hagainst (by omega) (by omega)
      | againstVote =>
        rw [addVote_against_eq hagainst, addVote_against_eq rfl]
        exact .mk hfor rfl hle (by omega)
    | turned =>
      rw [addVote_against_eq hagainst, addVote_for_eq rfl]
      exact .mk hfor rfl (by omega) (by omega)

/-! ## States that differ in the votes on one proposal -/

/-- The state `s'` is `s` with some votes on `id` turned; the events may differ. -/
inductive SameButVotes (id : ProposalId) (s : State T) : State T → Prop
  | mk {proposals : ProposalId → Option (Proposal T)} {events : List (Event AccountId)}
      (other : ∀ i, i ≠ id → proposals i = s.proposals i)
      (votes : Option.Rel Proposal.Turned (s.proposals id) (proposals id)) :
      SameButVotes id s { s with proposals := proposals, events := events }

theorem rel_turned_refl (p : Option (Proposal T)) : Option.Rel Proposal.Turned p p := by
  cases p with
  | none => exact .none
  | some p => exact .some (.refl p)

theorem SameButVotes.refl (id : ProposalId) (s : State T) : SameButVotes id s s :=
  .mk (fun _ _ => rfl) (rel_turned_refl _)

/-- At every id the proposals agree, and at `id` they may be turned. -/
theorem SameButVotes.stored {id : ProposalId} {s s' : State T} (h : SameButVotes id s s')
    (i : ProposalId) : Option.Rel Proposal.Turned (s.proposals i) (s'.proposals i) ∧
      (i ≠ id → s'.proposals i = s.proposals i) := by
  cases h with
  | mk hother hvotes =>
    refine ⟨?_, fun hi => hother i hi⟩
    -- away from `id` both states store the same
    by_cases hi : i = id
    · subst hi
      exact hvotes
    · dsimp only
      rw [hother i hi]
      exact rel_turned_refl _

/-- Both states write a proposal at the same id, and do everything else alike. -/
theorem SameButVotes.write {id : ProposalId} {s s' t t' : State T} (h : SameButVotes id s s')
    {i : ProposalId} {v v' : Option (Proposal T)} (hrel : Option.Rel Proposal.Turned v v')
    (hsame : i ≠ id → v' = v) (ht : t.proposals = Function.update s.proposals i v)
    (ht' : t'.proposals = Function.update s'.proposals i v')
    (hrest : t' = { t with proposals := t'.proposals, events := t'.events }) :
    SameButVotes id t t' := by
  rw [hrest]
  refine .mk ?_ ?_
  · intro j hj
    rw [ht, ht']
    -- another id than `id`: the new value if it is written there, else the old one
    by_cases hji : j = i
    · subst hji
      rw [Function.update_self, Function.update_self]
      exact hsame hj
    · rw [Function.update_of_ne hji, Function.update_of_ne hji]
      exact (h.stored j).2 hj
  · rw [ht, ht']
    by_cases hi : id = i
    · subst hi
      rw [Function.update_self, Function.update_self]
      exact hrel
    · rw [Function.update_of_ne hi, Function.update_of_ne hi]
      exact (h.stored id).1

/-- Neither state writes a proposal. -/
theorem SameButVotes.frame {id : ProposalId} {s s' t t' : State T} (h : SameButVotes id s s')
    (ht : t.proposals = s.proposals) (ht' : t'.proposals = s'.proposals)
    (hrest : t' = { t with proposals := t'.proposals, events := t'.events }) :
    SameButVotes id t t' := by
  rw [hrest]
  refine .mk (fun j hj => ?_) ?_
  · rw [ht, ht']
    exact (h.stored j).2 hj
  · rw [ht, ht']
    exact (h.stored id).1

/-- A proposal is stored in both states, or in neither. -/
theorem SameButVotes.stored_cases {id : ProposalId} {s s' : State T} (h : SameButVotes id s s')
    (i : ProposalId) : (s.proposals i = none ∧ s'.proposals i = none) ∨
      ∃ p p', s.proposals i = some p ∧ s'.proposals i = some p' ∧ p.Turned p' ∧
        (i ≠ id → p' = p) := by
  obtain ⟨hrel, hsame⟩ := h.stored i
  generalize s.proposals i = v at hrel hsame
  generalize s'.proposals i = v' at hrel hsame
  cases hrel with
  | none => exact Or.inl ⟨rfl, rfl⟩
  | some hturned =>
    exact Or.inr ⟨_, _, rfl, rfl, hturned, fun hi => Option.some.inj (hsame hi)⟩

/-! ## One operation -/

theorem SameButVotes.voteWeight_eq {id : ProposalId} {s s' : State T} (h : SameButVotes id s s')
    (who : AccountId) : voteWeight s' who = voteWeight s who := by
  cases h with
  | mk => rfl

/-- The guards of a vote let both states pass, or neither. -/
theorem SameButVotes.voteGuard_cases {id : ProposalId} {s s' : State T}
    (h : SameButVotes id s s') (who : AccountId) (i : ProposalId) :
    (∃ e, voteGuard s who i = .error e ∧ voteGuard s' who i = .error e) ∨
      ∃ p p', voteGuard s who i = .ok p ∧ voteGuard s' who i = .ok p' ∧ p.Turned p' ∧
        (i ≠ id → p' = p) := by
  unfold voteGuard
  rcases h.stored_cases i with ⟨hp, hp'⟩ | ⟨p, p', hp, hp', hturned, hsame⟩
  · rw [hp, hp']
    exact Or.inl ⟨_, rfl, rfl⟩
  · rw [hp, hp', h.voteWeight_eq]
    -- the guards read neither the tallies nor the events
    cases h with
    | mk hother hvotes =>
      cases hturned with
      | mk hfor hagainst hle hsum =>
        dsimp only
        split_ifs with hactive hopen hfresh hpos
        · exact Or.inr ⟨_, _, rfl, rfl, .mk hfor hagainst hle hsum, hsame⟩
        all_goals exact Or.inl ⟨_, rfl, rfl⟩

/-- The guards of a finalization let both states pass, or neither. -/
theorem SameButVotes.finalizeGuard_cases {id : ProposalId} {s s' : State T}
    (h : SameButVotes id s s') (i : ProposalId) :
    (∃ e, finalizeGuard s i = .error e ∧ finalizeGuard s' i = .error e) ∨
      ∃ p p', finalizeGuard s i = .ok p ∧ finalizeGuard s' i = .ok p' ∧ p.Turned p' ∧
        (i ≠ id → p' = p) := by
  have hmin : minParticipation s' = minParticipation s := by
    cases h with
    | mk => rfl
  unfold finalizeGuard
  rcases h.stored_cases i with ⟨hp, hp'⟩ | ⟨p, p', hp, hp', hturned, hsame⟩
  · rw [hp, hp']
    exact Or.inl ⟨_, rfl, rfl⟩
  · rw [hp, hp', hmin]
    -- a turned vote leaves the participation as it is, and with it the quorum
    have hpart := hturned.participation_eq
    cases h with
    | mk hother hvotes =>
      cases hturned with
      | mk hfor hagainst hle hsum =>
        dsimp only
        rw [hpart]
        split_ifs with hactive hopen hquorum
        · exact Or.inr ⟨_, _, rfl, rfl, .mk hfor hagainst hle hsum, hsame⟩
        all_goals exact Or.inl ⟨_, rfl, rfl⟩

variable [DecidableEq AccountId]

/-- Two steps return the same and leave states that differ only in the votes on `id`. -/
def SameStep (id : ProposalId) (r r' : Outcome T × State T) : Prop :=
  r'.1 = r.1 ∧ SameButVotes id r.2 r'.2

theorem SameButVotes.vote {id : ProposalId} {s s' : State T} (h : SameButVotes id s s')
    (who : AccountId) {i : ProposalId} {vote vote' : VoteKind} (hvote : vote.Turns vote')
    (hkind : i ≠ id → vote' = vote) :
    SameStep id (step s (.call (.signed who) (.voteProposal i vote)))
      (step s' (.call (.signed who) (.voteProposal i vote'))) := by
  rw [step_call, step_call, dispatch_voteProposal, dispatch_voteProposal]
  rcases h.voteGuard_cases who i with ⟨e, hg, hg'⟩ | ⟨p, p', hg, hg', hturned, hsame⟩
  · rw [hg, hg']
    exact ⟨rfl, h⟩
  · rw [hg, hg']
    refine ⟨rfl, h.write (.some (hturned.addVote hvote _)) ?_ rfl ?_ ?_⟩
    · -- on another proposal both runs cast the same vote
      intro hi
      rw [hsame hi, hkind hi]
    · show Function.update s'.proposals i (some (p'.addVote vote' (voteWeight s' who))) = _
      rw [h.voteWeight_eq]
    · cases h with
      | mk => rfl

theorem SameButVotes.create {id : ProposalId} {s s' : State T} (h : SameButVotes id s s')
    (who : AccountId) (title : BoundedVec UInt8 T.maxTitleLen)
    (description : BoundedVec UInt8 T.maxDescriptionLen) (duration : U32) (action : Action) :
    SameStep id
      (step s (.call (.signed who) (.createProposal title description duration action)))
      (step s' (.call (.signed who) (.createProposal title description duration action))) := by
  have hguard : createGuard s' duration = createGuard s duration := by
    cases h with
    | mk => rfl
  rw [step_call, step_call, dispatch_createProposal, dispatch_createProposal, hguard]
  cases createGuard s duration with
  | error e => exact ⟨rfl, h⟩
  | ok next =>
    refine ⟨rfl, h.write (i := s.nextProposalId) (rel_turned_refl _) (fun _ => rfl) rfl ?_ ?_⟩
    · cases h with
      | mk => rfl
    · cases h with
      | mk => rfl

theorem SameButVotes.deposit {id : ProposalId} {s s' : State T} (h : SameButVotes id s s')
    (who : AccountId) (amount : Balance) :
    SameStep id (step s (.call (.signed who) (.deposit amount)))
      (step s' (.call (.signed who) (.deposit amount))) := by
  have hledger : s'.ledger = s.ledger := by
    cases h with
    | mk => rfl
  rw [step_call, step_call, dispatch_deposit, dispatch_deposit, hledger]
  cases T.currency.reserve s.ledger who amount with
  | error e => exact ⟨rfl, h⟩
  | ok l =>
    refine ⟨rfl, h.frame rfl rfl ?_⟩
    cases h with
    | mk => rfl

theorem SameButVotes.withdraw {id : ProposalId} {s s' : State T} (h : SameButVotes id s s')
    (who : AccountId) (amount : Balance) :
    SameStep id (step s (.call (.signed who) (.withdraw amount)))
      (step s' (.call (.signed who) (.withdraw amount))) := by
  have hdeposits : s'.deposits = s.deposits := by
    cases h with
    | mk => rfl
  rw [step_call, step_call, dispatch_withdraw, dispatch_withdraw, hdeposits]
  by_cases hstaked : amount ≤ s.deposits who
  · rw [if_pos hstaked, if_pos hstaked]
    refine ⟨rfl, h.frame rfl rfl ?_⟩
    cases h with
    | mk => rfl
  · rw [if_neg hstaked, if_neg hstaked]
    exact ⟨rfl, h⟩

theorem SameButVotes.seed {id : ProposalId} {s s' : State T} (h : SameButVotes id s s')
    (origin : Origin AccountId) (coin : Coin) (amount : U128) :
    SameStep id (step s (.call origin (.seedVault coin amount)))
      (step s' (.call origin (.seedVault coin amount))) := by
  rw [step_call, step_call, dispatch_seedVault, dispatch_seedVault]
  refine ⟨rfl, h.frame rfl rfl ?_⟩
  cases h with
  | mk => rfl

/-- A finalization decides alike, unless it rejects in the first state. -/
theorem SameButVotes.finalize {id : ProposalId} {s s' : State T} (h : SameButVotes id s s')
    (who : AccountId) (i : ProposalId) :
    SameStep id (step s (.call (.signed who) (.finalizeProposal i)))
        (step s' (.call (.signed who) (.finalizeProposal i))) ∨
      statusOf (step s (.call (.signed who) (.finalizeProposal i))).2 id = some .rejected := by
  rw [step_call, step_call, dispatch_finalizeProposal, dispatch_finalizeProposal]
  rcases h.finalizeGuard_cases i with ⟨e, hg, hg'⟩ | ⟨p, p', hg, hg', hturned, hsame⟩
  · rw [finalizeVerdict, finalizeVerdict, hg, hg']
    exact Or.inl ⟨rfl, h⟩
  -- what the decision reads besides the For votes is the same in both states
  obtain ⟨swap, hswap⟩ : ∃ swap, p.action = .swap swap := ⟨_, rfl⟩
  have hswap' : p'.action = .swap swap := by
    cases hturned with
    | mk => exact hswap
  have hauthor : p'.author = p.author := by
    cases hturned with
    | mk => rfl
  have hswapGuard : swapGuard s' swap = swapGuard s swap := by
    cases h with
    | mk => rfl
  have hfor := hturned.forVotes_le
  rw [finalizeVerdict_of_guard hg hswap, finalizeVerdict_of_guard hg' hswap', hturned.neededFor_eq,
    hswapGuard]
  by_cases hneeded : p.neededFor ≤ p.forVotes
  · -- enough For votes are still enough when there are more
    have hneeded' : p.neededFor ≤ p'.forVotes := Nat.le_trans hneeded hfor
    rw [if_pos hneeded, if_pos hneeded']
    cases swapGuard s swap with
    | error e => exact Or.inl ⟨rfl, h⟩
    | ok r =>
      refine Or.inl ⟨rfl, h.write (.some (hturned.settle .approved)) ?_ rfl rfl ?_⟩
      · intro hi
        rw [hsame hi]
      · cases h with
        | mk =>
          dsimp only [State.approve]
          rw [hauthor]
  · rw [if_neg hneeded]
    by_cases hi : i = id
    · -- the first run rejects
      subst hi
      exact Or.inr (statusOf_reject s i p)
    · -- the rejection of another proposal
      rw [hsame hi, if_neg hneeded]
      refine Or.inl ⟨rfl, h.write (rel_turned_refl _) (fun _ => rfl) rfl rfl ?_⟩
      cases h with
      | mk => rfl

/-! ## Runs -/

/-- The operation of the second run, given that of the first. -/
inductive Turns (id : ProposalId) : Op T → Op T → Prop
  | same (op : Op T) : Turns id op op
  | turned (who : AccountId) : Turns id (.call (.signed who) (.voteProposal id .againstVote))
      (.call (.signed who) (.voteProposal id .forVote))

/-- The same operation in both states. -/
theorem SameButVotes.same {id : ProposalId} {s s' : State T} (h : SameButVotes id s s')
    (op : Op T) :
    SameStep id (step s op) (step s' op) ∨ statusOf (step s op).2 id = some .rejected := by
  -- only a finalization can tell the two states apart
  cases op with
  | block number =>
    refine Or.inl ⟨rfl, h.frame rfl rfl ?_⟩
    cases h with
    | mk => rfl
  | currency o =>
    refine Or.inl ⟨rfl, h.frame rfl rfl ?_⟩
    cases h with
    | mk => rfl
  | call origin call =>
    cases call with
    | seedVault coin amount => exact Or.inl (h.seed origin coin amount)
    | createProposal title description duration action =>
      cases origin with
      | signed who => exact Or.inl (h.create who title description duration action)
      | root | none => exact Or.inl ⟨rfl, h⟩
    | voteProposal i vote =>
      cases origin with
      | signed who => exact Or.inl (h.vote who (.same vote) fun _ => rfl)
      | root | none => exact Or.inl ⟨rfl, h⟩
    | finalizeProposal i =>
      cases origin with
      | signed who => exact h.finalize who i
      | root | none => exact Or.inl ⟨rfl, h⟩
    | deposit amount =>
      cases origin with
      | signed who => exact Or.inl (h.deposit who amount)
      | root | none => exact Or.inl ⟨rfl, h⟩
    | withdraw amount =>
      cases origin with
      | signed who => exact Or.inl (h.withdraw who amount)
      | root | none => exact Or.inl ⟨rfl, h⟩

/-- **One step of both runs.** -/
theorem SameButVotes.step {id : ProposalId} {s s' : State T} (h : SameButVotes id s s')
    {op op' : Op T} (hop : Turns id op op') :
    SameStep id (step s op) (MulticoinTreasury.step s' op') ∨
      statusOf (MulticoinTreasury.step s op).2 id = some .rejected := by
  cases hop with
  | same op => exact h.same op
  | turned who => exact Or.inl (h.vote who .turned fun hne => absurd rfl hne)

/-- What the two runs have in common: all but the votes on `id`, as long as the first has not
rejected it. -/
structure Compared (id : ProposalId) (outs outs' : List (Outcome T)) (s s' : State T) : Prop where
  store : StoreInv s
  same : statusOf s id ≠ some .rejected → SameButVotes id s s' ∧ outs' = outs

omit [DecidableEq AccountId] in
theorem statusOf_eq_some {s : State T} {id : ProposalId} {status : ProposalStatus}
    (h : statusOf s id = some status) : ∃ p, s.proposals id = some p ∧ p.status = status :=
  Option.map_eq_some_iff.1 h

theorem Compared.step {id : ProposalId} {outs outs' : List (Outcome T)} {s s' : State T}
    (h : Compared id outs outs' s s') {op op' : Op T} (hop : Turns id op op') :
    Compared id (outs ++ [(step s op).1]) (outs' ++ [(MulticoinTreasury.step s' op').1])
      (MulticoinTreasury.step s op).2 (MulticoinTreasury.step s' op').2 where
  store := h.store.transition (step_transition s op)
  same hnot := by
    -- a rejected proposal would have stayed rejected
    have hbefore : statusOf s id ≠ some .rejected := by
      intro hrejected
      obtain ⟨p, hp, hstatus⟩ := statusOf_eq_some hrejected
      have hkept := settled_step h.store (step_transition s op) hp (by rw [hstatus]; simp)
      exact hnot (by rw [statusOf, hkept, Option.map_some, hstatus])
    obtain ⟨hsame, houts⟩ := h.same hbefore
    obtain ⟨hout, hnext⟩ := (hsame.step hop).resolve_right hnot
    exact ⟨hnext, by rw [houts, hout]⟩

omit [DecidableEq AccountId] in
/-- A turned proposal has the same status. -/
theorem SameButVotes.statusOf_eq {id : ProposalId} {s s' : State T} (h : SameButVotes id s s') :
    statusOf s' id = statusOf s id := by
  rw [statusOf, statusOf]
  rcases h.stored_cases id with ⟨hp, hp'⟩ | ⟨p, p', hp, hp', hturned, -⟩
  · rw [hp, hp']
  · rw [hp, hp']
    cases hturned with
    | mk => rfl

/-- **A turned vote does not hurt.** Take any run, and turn any of its Against votes on a proposal
into For votes, keeping everything else. If the first run approves the proposal, so does the second;
if the second rejects it, so does the first. Unless the first rejects it, all calls return the same
in both, and the two states differ in nothing but the tallies of the proposal and the events. -/
theorem turned_votes_do_not_hurt (l : T.currency.Ledger) (id : ProposalId) (ops ops' : List (Op T))
    (hturns : List.Forall₂ (Turns id) ops ops') :
    let s := run (genesis T l) ops
    let s' := run (genesis T l) ops'
    (statusOf s id = some .approved → statusOf s' id = some .approved) ∧
      (statusOf s' id = some .rejected → statusOf s id = some .rejected) ∧
      (statusOf s id ≠ some .rejected → SameButVotes id s s' ∧
        (history (genesis T l) ops').map Machine.Entry.output =
          (history (genesis T l) ops).map Machine.Entry.output) := by
  intro s s'
  have hstart : Compared id [] [] (genesis T l) (genesis T l) :=
    ⟨storeInv_genesis l, fun _ => ⟨.refl id _, rfl⟩⟩
  obtain ⟨-, hsame⟩ := Machine.run_related (fun hop h => h.step hop) hstart hturns
  refine ⟨fun happroved => ?_, fun hrejected => ?_, hsame⟩
  · obtain ⟨h, -⟩ := hsame (by rw [happroved]; simp)
    exact h.statusOf_eq.trans happroved
  · -- had the first run not rejected it, both would have the same status
    by_contra hnot
    obtain ⟨h, -⟩ := hsame hnot
    exact hnot (h.statusOf_eq.symm.trans hrejected)

/-- Bob votes on Alice's proposal before she finalizes it. -/
def bobThenFinalize (vote : VoteKind) : List (Op DevConfig) :=
  beforeEarlyFinalization ++ [.call (.signed .bob) (.voteProposal 0 vote), aliceFinalizes]

/-- Bob's vote against the proposal is turned. -/
theorem turned_votes_do_not_hurt_bob :
    let s' := run developmentGenesis (bobThenFinalize .forVote)
    statusOf s' 0 = some .approved ∧
      (history developmentGenesis (bobThenFinalize .forVote)).map Machine.Entry.output =
        (history developmentGenesis (bobThenFinalize .againstVote)).map Machine.Entry.output := by
  have hturns : List.Forall₂ (Turns 0) (bobThenFinalize .againstVote) (bobThenFinalize .forVote) :=
    .cons (.same _) (.cons (.same _) (.cons (.same _) (.cons (.same _) (.cons (.same _)
      (.cons (.turned DevAccount.bob) (.cons (.same _) .nil))))))
  obtain ⟨happroved, -, hsame⟩ := turned_votes_do_not_hurt (T := DevConfig)
    developmentGenesis.ledger 0 _ _ hturns
  have hstatus : statusOf (run developmentGenesis (bobThenFinalize .againstVote)) 0 =
      some .approved := by rfl
  have hnot : statusOf (run developmentGenesis (bobThenFinalize .againstVote)) 0 ≠
      some .rejected := by
    rw [hstatus]
    simp
  exact ⟨happroved hstatus, (hsame hnot).2⟩

end MulticoinTreasury
