import MulticoinTreasury.Library.Simulation
import MulticoinTreasury.Pallet.VotingWindow

/-!
# No account and no coin is special

The pallet has no administrator, and it treats the coins alike: if the accounts are permuted, and
the coins, in all operations of a run, then every call returns what it returned before, and the
state is the one before with the accounts and the coins permuted. The currency has to follow the
permutation of the accounts, as a plain ledger does.
-/

set_option autoImplicit false

namespace MulticoinTreasury

variable {AccountId : Type} {T : Config AccountId}

/-! ## Renaming -/

/-- A permutation of the accounts that the currency follows, and one of the coins. -/
structure Renaming (T : Config AccountId) where
  account : Equiv.Perm AccountId
  coin : Equiv.Perm Coin
  ledger : T.currency.Ledger → T.currency.Ledger
  other : T.currency.Other → T.currency.Other
  reserve : ∀ l a x, T.currency.reserve (ledger l) (account a) x =
    (T.currency.reserve l a x).map ledger
  unreserve : ∀ l a x, (T.currency.unreserve (ledger l) (account a) x).2 =
    ledger (T.currency.unreserve l a x).2
  other_ledger : ∀ o l, T.currency.other (other o) (ledger l) = ledger (T.currency.other o l)

section Names

variable (R : Renaming T)

def Swap.rename (swap : Swap) : Swap := ⟨R.coin swap.fromCoin, R.coin swap.toCoin, swap.amount⟩

def Action.rename : Action → Action
  | .swap sw => .swap (sw.rename R)

def Proposal.rename (p : Proposal T) : Proposal T :=
  { p with author := R.account p.author, action := p.action.rename R }

def Event.rename : Event AccountId → Event AccountId
  | .proposalCreated id author => .proposalCreated id (R.account author)
  | .proposalVoted id voter vote => .proposalVoted id (R.account voter) vote
  | .proposalFinalized id status => .proposalFinalized id status
  | .deposited who amount => .deposited (R.account who) amount
  | .withdrawn who amount => .withdrawn (R.account who) amount
  | .swapExecuted fromCoin toCoin amount id =>
      .swapExecuted (R.coin fromCoin) (R.coin toCoin) amount id
  | .vaultSeeded coin amount => .vaultSeeded (R.coin coin) amount

def Origin.rename : Origin AccountId → Origin AccountId
  | .root => .root
  | .signed who => .signed (R.account who)
  | .none => .none

def Call.rename : Call T → Call T
  | .createProposal title description duration action =>
      .createProposal title description duration (action.rename R)
  | .seedVault coin amount => .seedVault (R.coin coin) amount
  | c => c

def Op.rename : Op T → Op T
  | .call origin c => .call (origin.rename R) (c.rename R)
  | .block number => .block number
  | .currency o => .currency (R.other o)

def State.rename (s : State T) : State T where
  blockNumber := s.blockNumber
  events := s.events.map (Event.rename R)
  ledger := R.ledger s.ledger
  proposals := fun i => (s.proposals i).map (Proposal.rename R)
  nextProposalId := s.nextProposalId
  deposits := s.deposits ∘ R.account.symm
  hasVoted := fun i => s.hasVoted i ∘ R.account.symm
  totalStake := s.totalStake
  karma := s.karma ∘ R.account.symm
  vault := s.vault ∘ R.coin.symm

/-! ## Renamed tables -/

/-- Writing at the new name is writing at the old one. -/
theorem update_renamed {α β : Type} [DecidableEq α] (π : Equiv.Perm α) (f : α → β) (a : α)
    (v : β) : Function.update (f ∘ π.symm) (π a) v = Function.update f a v ∘ π.symm := by
  rw [Function.update_comp_equiv, Equiv.symm_symm]

theorem renamed_apply {α β : Type} (π : Equiv.Perm α) (f : α → β) (a : α) :
    (f ∘ π.symm) (π a) = f a := congrArg f (π.symm_apply_apply a)

theorem State.deposits_rename (s : State T) (who : AccountId) :
    (s.rename R).deposits (R.account who) = s.deposits who := renamed_apply R.account s.deposits who

theorem State.karma_rename (s : State T) (who : AccountId) :
    (s.rename R).karma (R.account who) = s.karma who := renamed_apply R.account s.karma who

theorem State.vault_rename (s : State T) (coin : Coin) :
    (s.rename R).vault (R.coin coin) = s.vault coin := renamed_apply R.coin s.vault coin

theorem State.record_rename (s : State T) (es : List (Event AccountId)) :
    (s.rename R).record (es.map (Event.rename R)) = (s.record es).map (Event.rename R) := by
  show (if s.blockNumber = 0 then s.events.map (Event.rename R)
    else s.events.map (Event.rename R) ++ es.map (Event.rename R)) = _
  unfold State.record
  split
  · rfl
  · exact List.map_append.symm

theorem update_proposals_rename (s : State T) (i : ProposalId) (p : Proposal T) :
    Function.update (s.rename R).proposals i (some (p.rename R)) =
      fun j => (Function.update s.proposals i (some p) j).map (Proposal.rename R) :=
  (Function.comp_update (Option.map (Proposal.rename R)) s.proposals i (some p)).symm

theorem voteWeight_rename (s : State T) (who : AccountId) :
    voteWeight (s.rename R) (R.account who) = voteWeight s who := by
  rw [voteWeight, voteWeight, s.deposits_rename, s.karma_rename]

theorem Proposal.rename_addVote (p : Proposal T) (vote : VoteKind) (w : Balance) :
    (p.addVote vote w).rename R = (p.rename R).addVote vote w := by
  cases vote <;> rfl

/-! ## The states that calls leave -/

theorem State.insertProposal_rename (s : State T) (p : Proposal T) (next : ProposalId) :
    (s.insertProposal p next).rename R = (s.rename R).insertProposal (p.rename R) next := by
  unfold State.insertProposal
  rw [update_proposals_rename]
  unfold State.rename
  congr 1
  exact (s.record_rename R [.proposalCreated s.nextProposalId p.author]).symm

theorem State.reject_rename (s : State T) (i : ProposalId) (p : Proposal T) :
    (s.reject i p).rename R = (s.rename R).reject i (p.rename R) := by
  unfold State.reject
  have hp : some { p.rename R with status := .rejected } =
      some (Proposal.rename R { p with status := .rejected }) := rfl
  rw [hp, update_proposals_rename]
  unfold State.rename
  congr 1
  exact (s.record_rename R [.proposalFinalized i .rejected]).symm

theorem State.addToVault_rename (s : State T) (coin : Coin) (amount : U128) :
    (s.addToVault coin amount).rename R = (s.rename R).addToVault (R.coin coin) amount := by
  unfold State.addToVault
  rw [s.vault_rename]
  have hupdate := update_renamed R.coin s.vault coin ((s.vault coin).saturatingAdd amount)
  unfold State.rename
  congr 1
  · exact (s.record_rename R [.vaultSeeded coin amount]).symm
  · exact hupdate.symm

variable [DecidableEq AccountId]

theorem State.castVote_rename (s : State T) (i : ProposalId) (p : Proposal T) (who : AccountId)
    (vote : VoteKind) : (s.castVote i p who vote).rename R =
      (s.rename R).castVote i (p.rename R) (R.account who) vote := by
  unfold State.castVote
  rw [voteWeight_rename, ← Proposal.rename_addVote, update_proposals_rename]
  -- the flag of the voter, in the table of the proposal, in the table of all votes
  have hinner := update_renamed R.account (s.hasVoted i) who true
  have houter := Function.comp_update (fun v : AccountId → Bool => v ∘ R.account.symm) s.hasVoted i
    (Function.update (s.hasVoted i) who true)
  unfold State.rename
  congr 1
  · exact (s.record_rename R [.proposalVoted i who vote]).symm
  · dsimp only
    rw [hinner]
    exact houter

theorem State.approve_rename (s : State T) (i : ProposalId) (p : Proposal T) (swap : Swap) :
    (s.approve i p swap).rename R = (s.rename R).approve i (p.rename R) (swap.rename R) := by
  have hp : some { p.rename R with status := .approved } =
      some (Proposal.rename R { p with status := .approved }) := rfl
  -- every value that the approval reads is the value at the old name
  have hkarma : (s.rename R).karma (p.rename R).author = s.karma p.author :=
    s.karma_rename R p.author
  have hfrom : (s.rename R).vault (swap.rename R).fromCoin = s.vault swap.fromCoin :=
    s.vault_rename R swap.fromCoin
  have hto : (s.rename R).vault (swap.rename R).toCoin = s.vault swap.toCoin :=
    s.vault_rename R swap.toCoin
  -- every value that it writes goes to the new name
  have hdebit := update_renamed R.coin s.vault swap.fromCoin
    ((s.vault swap.fromCoin).saturatingSub swap.amount)
  have hcredit := update_renamed R.coin (Function.update s.vault swap.fromCoin
    ((s.vault swap.fromCoin).saturatingSub swap.amount)) swap.toCoin
    ((s.vault swap.toCoin).saturatingAdd swap.amount)
  have hreward := update_renamed R.account s.karma p.author
    ((s.karma p.author).saturatingAdd (.clamp _ 1))
  unfold State.approve
  rw [hp, update_proposals_rename, hkarma, hfrom, hto]
  unfold State.rename
  congr 1
  · exact (s.record_rename R [.swapExecuted swap.fromCoin swap.toCoin swap.amount i,
      .proposalFinalized i .approved]).symm
  · exact hreward.symm
  · dsimp only
    rw [← hcredit, ← hdebit]
    rfl

theorem State.addStake_rename (s : State T) (who : AccountId) (amount : Balance)
    (l : T.currency.Ledger) : (s.addStake who amount l).rename R =
      (s.rename R).addStake (R.account who) amount (R.ledger l) := by
  have hupdate := update_renamed R.account s.deposits who
    ((s.deposits who).saturatingAdd amount)
  unfold State.addStake
  rw [s.deposits_rename]
  unfold State.rename
  congr 1
  · exact (s.record_rename R [.deposited who amount]).symm
  · exact hupdate.symm

theorem State.removeStake_rename (s : State T) (who : AccountId) (amount : Balance) :
    (s.removeStake who amount).rename R = (s.rename R).removeStake (R.account who) amount := by
  have hupdate := update_renamed R.account s.deposits who
    ((s.deposits who).saturatingSub amount)
  unfold State.removeStake
  rw [s.deposits_rename]
  unfold State.rename
  congr 1
  · exact (s.record_rename R [.withdrawn who amount]).symm
  · exact (R.unreserve s.ledger who amount).symm
  · exact hupdate.symm

/-! ## The guards -/

omit [DecidableEq AccountId] in
theorem voteGuard_rename (s : State T) (who : AccountId) (i : ProposalId) :
    voteGuard (s.rename R) (R.account who) i = (voteGuard s who i).map (Proposal.rename R) := by
  have hvoted : (s.rename R).hasVoted i (R.account who) = s.hasVoted i who :=
    renamed_apply R.account (s.hasVoted i) who
  have hproposal : (s.rename R).proposals i = (s.proposals i).map (Proposal.rename R) := rfl
  unfold voteGuard
  rw [hproposal, hvoted, voteWeight_rename]
  cases s.proposals i with
  | none => rfl
  | some p =>
    show (if p.status = .active then if s.blockNumber ≤ p.endBlock then _ else _ else _) = _
    dsimp only
    split_ifs <;> rfl

omit [DecidableEq AccountId] in
theorem finalizeGuard_rename (s : State T) (i : ProposalId) :
    finalizeGuard (s.rename R) i = (finalizeGuard s i).map (Proposal.rename R) := by
  have hproposal : (s.rename R).proposals i = (s.proposals i).map (Proposal.rename R) := rfl
  unfold finalizeGuard
  rw [hproposal]
  cases s.proposals i with
  | none => rfl
  | some p =>
    -- neither the tallies nor the total stake are renamed
    show (if p.status = .active then if s.blockNumber < p.endBlock then
      if minParticipation s ≤ p.participation then _ else _ else _ else _) = _
    dsimp only
    split_ifs <;> rfl

omit [DecidableEq AccountId] in
theorem swapGuard_rename (s : State T) (swap : Swap) :
    swapGuard (s.rename R) (swap.rename R) = swapGuard s swap := by
  -- different coins stay different
  have hcoins : (swap.rename R).fromCoin ≠ (swap.rename R).toCoin ↔
      swap.fromCoin ≠ swap.toCoin := R.coin.injective.ne_iff
  have hvault : (s.rename R).vault (swap.rename R).fromCoin = s.vault swap.fromCoin :=
    s.vault_rename R swap.fromCoin
  unfold swapGuard
  rw [hvault]
  by_cases h : swap.fromCoin ≠ swap.toCoin
  · rw [if_pos h, if_pos (hcoins.2 h)]
    rfl
  · rw [if_neg h, if_neg (mt hcoins.1 h)]

theorem finalizeVerdict_rename (s : State T) (i : ProposalId) :
    finalizeVerdict (s.rename R) i = (finalizeVerdict s i).map (State.rename R) := by
  cases hg : finalizeGuard s i with
  | error e =>
    have hg' : finalizeGuard (s.rename R) i = .error e := by
      rw [finalizeGuard_rename, hg]
      rfl
    rw [finalizeVerdict, finalizeVerdict, hg, hg']
    rfl
  | ok p =>
    have hg' : finalizeGuard (s.rename R) i = .ok (p.rename R) := by
      rw [finalizeGuard_rename, hg]
      rfl
    obtain ⟨swap, hswap⟩ : ∃ swap, p.action = .swap swap := ⟨_, rfl⟩
    have hswap' : (p.rename R).action = .swap (swap.rename R) := by
      show p.action.rename R = _
      rw [hswap]
      rfl
    rw [finalizeVerdict_of_guard hg hswap, finalizeVerdict_of_guard hg' hswap', swapGuard_rename]
    show (if p.neededFor ≤ p.forVotes then _ else _) = _
    split
    · cases swapGuard s swap with
      | ok r => exact congrArg Except.ok (s.approve_rename R i p swap).symm
      | error e => rfl
    · exact congrArg Except.ok (s.reject_rename R i p).symm

/-! ## Operations -/

/-- The result of a call with its state renamed. -/
def renameResult : EStateM.Result (DispatchError T) (State T) PUnit →
    EStateM.Result (DispatchError T) (State T) PUnit
  | .ok r s => .ok r (s.rename R)
  | .error e s => .error e (s.rename R)

/-- **A renamed call in a renamed state does what the call does in the state.** -/
theorem dispatch_rename (s : State T) (origin : Origin AccountId) (c : Call T) :
    dispatch (origin.rename R) (c.rename R) (s.rename R) =
      renameResult R (dispatch origin c s) := by
  cases c with
  -- the origin of a seed is not looked at
  | seedVault coin amount =>
    show dispatch (origin.rename R) (.seedVault (R.coin coin) amount) (s.rename R) = _
    rw [dispatch_seedVault, dispatch_seedVault, renameResult, State.addToVault_rename]
  | createProposal title description duration action =>
    cases origin with
    | root | none => rfl
    | signed who =>
      have hguard : createGuard (s.rename R) duration = createGuard s duration := rfl
      show dispatch (.signed (R.account who)) (.createProposal title description duration
        (action.rename R)) (s.rename R) = _
      rw [dispatch_createProposal, dispatch_createProposal, hguard]
      cases createGuard s duration with
      | ok next =>
        exact congrArg (EStateM.Result.ok _) (s.insertProposal_rename R
          (newProposal s who title description duration action) next).symm
      | error e => rfl
  | voteProposal i vote =>
    cases origin with
    | root | none => rfl
    | signed who =>
      show dispatch (.signed (R.account who)) (.voteProposal i vote) (s.rename R) = _
      rw [dispatch_voteProposal, dispatch_voteProposal, voteGuard_rename]
      cases voteGuard s who i with
      | ok p => exact congrArg (EStateM.Result.ok _) (s.castVote_rename R i p who vote).symm
      | error e => rfl
  | finalizeProposal i =>
    cases origin with
    | root | none => rfl
    | signed who =>
      show dispatch (.signed (R.account who)) (.finalizeProposal i) (s.rename R) = _
      rw [dispatch_finalizeProposal, dispatch_finalizeProposal, finalizeVerdict_rename]
      cases finalizeVerdict s i with
      | ok s' => rfl
      | error e => rfl
  | deposit amount =>
    cases origin with
    | root | none => rfl
    | signed who =>
      have hreserve : T.currency.reserve (s.rename R).ledger (R.account who) amount =
        (T.currency.reserve s.ledger who amount).map R.ledger := R.reserve s.ledger who amount
      show dispatch (.signed (R.account who)) (.deposit amount) (s.rename R) = _
      rw [dispatch_deposit, dispatch_deposit, hreserve]
      cases T.currency.reserve s.ledger who amount with
      | ok l => exact congrArg (EStateM.Result.ok _) (s.addStake_rename R who amount l).symm
      | error e => rfl
  | withdraw amount =>
    cases origin with
    | root | none => rfl
    | signed who =>
      show dispatch (.signed (R.account who)) (.withdraw amount) (s.rename R) = _
      rw [dispatch_withdraw, dispatch_withdraw, s.deposits_rename]
      split
      · exact congrArg (EStateM.Result.ok _) (s.removeStake_rename R who amount).symm
      · rfl

theorem step_rename (s : State T) (op : Op T) :
    step (s.rename R) (op.rename R) = ((step s op).1, (step s op).2.rename R) := by
  cases op with
  | block number => rfl
  | currency o =>
    have hledger := R.other_ledger o s.ledger
    show (Except.ok PUnit.unit, (s.rename R).afterOther (R.other o)) =
      (Except.ok PUnit.unit, (s.afterOther o).rename R)
    unfold State.afterOther State.rename
    rw [hledger]
  | call origin c =>
    have hdispatch := dispatch_rename R s origin c
    rw [Op.rename, step_call, step_call, hdispatch]
    cases dispatch origin c s with
    | ok r s' => rfl
    | error e s' => rfl

/-- The renamed chain follows the chain. -/
def renamingSimulation : Machine.Simulation (step (T := T)) (step (T := T)) where
  rel s s' := s' = s.rename R
  input := Op.rename R
  output out := out
  Safe _ := True
  simulates {s s' op} h _ := by
    subst h
    rw [step_rename]
    exact ⟨rfl, rfl⟩

omit [DecidableEq AccountId] in
theorem genesis_rename (l : T.currency.Ledger) :
    genesis T (R.ledger l) = (genesis T l).rename R := rfl

/-- **No account and no coin is special.** Permute the accounts and the coins in all operations of a
run, and in the ledger it starts from: every operation returns the same as before, and the run ends
in the same state with the accounts and the coins permuted. -/
theorem renaming_renames_runs (l : T.currency.Ledger) (ops : List (Op T)) :
    run (genesis T (R.ledger l)) (ops.map (Op.rename R)) = (run (genesis T l) ops).rename R ∧
      (history (genesis T (R.ledger l)) (ops.map (Op.rename R))).map Machine.Entry.output =
        (history (genesis T l) ops).map Machine.Entry.output := by
  have hsafe : (renamingSimulation R).SafeRun (genesis T (R.ledger l)) ops := fun _ _ => trivial
  have hrun := (renamingSimulation R).run (genesis_rename R l) hsafe
  have houtputs := (renamingSimulation R).outputs (genesis_rename R l) hsafe
  exact ⟨hrun, houtputs.symm⟩

end Names

/-! ## A currency that follows -/

section Plain

variable (π : Equiv.Perm AccountId)

def PlainLedger.rename (l : PlainLedger AccountId) : PlainLedger AccountId where
  free := l.free ∘ π.symm
  reserved := l.reserved ∘ π.symm
  issued s := by
    have hissued := l.issued (s.map π.symm.toEmbedding)
    rw [Finset.sum_map] at hissued
    exact hissued

theorem PlainLedger.free_rename (l : PlainLedger AccountId) (a : AccountId) :
    (l.rename π).free (π a) = l.free a := renamed_apply π l.free a

theorem PlainLedger.reserved_rename (l : PlainLedger AccountId) (a : AccountId) :
    (l.rename π).reserved (π a) = l.reserved a := renamed_apply π l.reserved a

theorem PlainLedger.eq_of_tables {l m : PlainLedger AccountId} (hfree : l.free = m.free)
    (hreserved : l.reserved = m.reserved) : l = m := by
  cases l
  cases m
  cases hfree
  cases hreserved
  rfl

def PlainLedger.Other.rename : PlainLedger.Other AccountId → PlainLedger.Other AccountId
  | .transfer sender receiver x => .transfer (π sender) (π receiver) x
  | .fee payer x => .fee (π payer) x

variable [DecidableEq AccountId]

theorem PlainLedger.reserve_rename (l : PlainLedger AccountId) (a : AccountId) (x : Balance) :
    (l.rename π).reserve (π a) x = (l.reserve a x).map (PlainLedger.rename π) := by
  have hfree : (l.rename π).free (π a) = l.free a := l.free_rename π a
  have hreserved : (l.rename π).reserved (π a) = l.reserved a := l.reserved_rename π a
  unfold PlainLedger.reserve
  by_cases h : x.val ≤ l.free a
  · rw [dif_pos h, dif_pos (hfree.symm ▸ h)]
    refine congrArg Except.ok (PlainLedger.eq_of_tables ?_ ?_)
    · show Function.update (l.free ∘ π.symm) (π a) _ = Function.update l.free a _ ∘ π.symm
      rw [hfree, update_renamed]
    · show Function.update (l.reserved ∘ π.symm) (π a) _ = Function.update l.reserved a _ ∘ π.symm
      rw [hreserved, update_renamed]
  · rw [dif_neg h, dif_neg (hfree.symm ▸ h)]
    rfl

theorem PlainLedger.unreserve_rename (l : PlainLedger AccountId) (a : AccountId) (x : Balance) :
    ((l.rename π).unreserve (π a) x).2 = (l.unreserve a x).2.rename π := by
  apply PlainLedger.eq_of_tables
  · show Function.update (l.free ∘ π.symm) (π a) ((l.rename π).free (π a) +
      min x.val ((l.rename π).reserved (π a))) = Function.update l.free a _ ∘ π.symm
    rw [l.free_rename, l.reserved_rename, update_renamed]
  · show Function.update (l.reserved ∘ π.symm) (π a) ((l.rename π).reserved (π a) -
      min x.val ((l.rename π).reserved (π a))) = Function.update l.reserved a _ ∘ π.symm
    rw [l.reserved_rename, update_renamed]

theorem PlainLedger.other_rename (o : PlainLedger.Other AccountId) (l : PlainLedger AccountId) :
    PlainLedger.other (o.rename π) (l.rename π) = (PlainLedger.other o l).rename π := by
  cases o with
  | fee a x =>
    apply PlainLedger.eq_of_tables
    · show Function.update (l.free ∘ π.symm) (π a) ((l.rename π).free (π a) - x) =
        Function.update l.free a _ ∘ π.symm
      rw [l.free_rename, update_renamed]
    · rfl
  | transfer a b x =>
    have ha : (l.rename π).free (π a) = l.free a := l.free_rename π a
    have hb : (l.rename π).free (π b) = l.free b := l.free_rename π b
    -- a transfer goes through under the new names exactly if it did before
    have hiff : (π a ≠ π b ∧ x ≤ (l.rename π).free (π a)) ↔ (a ≠ b ∧ x ≤ l.free a) := by
      rw [ha, π.injective.ne_iff]
    unfold PlainLedger.other PlainLedger.Other.rename
    dsimp only
    by_cases h : a ≠ b ∧ x ≤ l.free a
    · rw [dif_pos h, dif_pos (hiff.2 h)]
      refine PlainLedger.eq_of_tables ?_ rfl
      show Function.update (Function.update (l.free ∘ π.symm) (π a) ((l.rename π).free (π a) - x))
          (π b) ((l.rename π).free (π b) + x) =
        Function.update (Function.update l.free a _) b _ ∘ π.symm
      rw [ha, hb, update_renamed, update_renamed]
    · rw [dif_neg h, dif_neg (mt hiff.1 h)]

/-- A plain ledger follows every permutation. -/
def plainRenaming (σ : Equiv.Perm Coin) :
    Renaming (runtimeConfig (PlainLedger.currency AccountId)) where
  account := π
  coin := σ
  ledger := PlainLedger.rename π
  other := PlainLedger.Other.rename π
  reserve := PlainLedger.reserve_rename π
  unreserve := PlainLedger.unreserve_rename π
  other_ledger := PlainLedger.other_rename π

end Plain

/-- Alice and Bob change places, and DOT and Kusama. -/
def exchange : Renaming DevConfig :=
  plainRenaming (Equiv.swap DevAccount.alice .bob) (Equiv.swap .dot .kusama)

/-- The run of the early finalization with the places changed, and what Bob then earns. -/
theorem renaming_renames_runs_exchange :
    let ops := beforeEarlyFinalization ++ [aliceFinalizes]
    let s' := run (genesis DevConfig (exchange.ledger developmentGenesis.ledger))
      (ops.map (Op.rename exchange))
    s' = (run developmentGenesis ops).rename exchange ∧ s'.karma .bob = .clamp _ 1 := by
  intro ops s'
  have hrun : s' = (run developmentGenesis ops).rename exchange :=
    (renaming_renames_runs exchange developmentGenesis.ledger ops).1
  refine ⟨hrun, ?_⟩
  rw [hrun]
  rfl

end MulticoinTreasury
