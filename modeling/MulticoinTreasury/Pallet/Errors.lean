import MulticoinTreasury.Pallet.Lifecycle
import MulticoinTreasury.Pallet.Threshold

/-!
# Which call returns which error

`CallName.errors` lists the errors of the pallet that each call can return. No call ever returns an
error outside its list, whatever the configuration and the state, and on the development chain every
listed error does occur. Two errors are in no list: `NoneValue` is never returned, and no call ends
in a panic.
-/

set_option autoImplicit false

namespace MulticoinTreasury

/-- The six calls without their arguments. -/
inductive CallName where
  | createProposal
  | voteProposal
  | finalizeProposal
  | deposit
  | withdraw
  | seedVault
  deriving DecidableEq, Repr

def CallName.errors : CallName → List Error
  | .createProposal => [.durationTooShort, .durationTooLong, .storageOverflow]
  | .voteProposal =>
      [.proposalNotFound, .proposalNotActive, .votingPeriodEnded, .alreadyVoted, .noDeposit]
  | .finalizeProposal =>
      [.proposalNotFound, .proposalNotActive, .votingPeriodEnded, .quorumNotMet,
        .insufficientVaultBalance, .invalidSwap]
  | .deposit => []
  | .withdraw => [.withdrawTooLarge]
  | .seedVault => []

/-- No call returns `NoneValue`. -/
theorem CallName.noneValue_notMem (name : CallName) : Error.noneValue ∉ name.errors := by
  cases name <;> decide

section Soundness

variable {AccountId : Type} {T : Config AccountId}

def Call.name : Call T → CallName
  | .createProposal .. => .createProposal
  | .voteProposal .. => .voteProposal
  | .finalizeProposal .. => .finalizeProposal
  | .deposit .. => .deposit
  | .withdraw .. => .withdraw
  | .seedVault .. => .seedVault

/-- The errors that a call of an origin can return. -/
inductive Returns (call : Call T) : Origin AccountId → DispatchError T → Prop
  | root (hseed : call.name ≠ .seedVault) : Returns call .root .badOrigin
  | none (hseed : call.name ≠ .seedVault) : Returns call .none .badOrigin
  | module {who : AccountId} {e : Error} (he : e ∈ call.name.errors) :
      Returns call (.signed who) (.module e)
  | currency {who : AccountId} {e : T.currency.Error} (hdeposit : call.name = .deposit) :
      Returns call (.signed who) (.currency e)

theorem createGuard_error {s : State T} {duration : U32} {e : Error}
    (h : createGuard s duration = .error e) : e ∈ CallName.createProposal.errors := by
  unfold createGuard at h
  split_ifs at h
  · -- in range, only the ids can run out
    cases hnext : s.nextProposalId.checkedAdd (.clamp _ 1) with
    | some next =>
      rw [hnext] at h
      cases h
    | none =>
      rw [hnext] at h
      cases h
      simp [CallName.errors]
  · cases h
    simp [CallName.errors]
  · cases h
    simp [CallName.errors]

theorem voteGuard_error {s : State T} {who : AccountId} {id : ProposalId} {e : Error}
    (h : voteGuard s who id = .error e) : e ∈ CallName.voteProposal.errors := by
  unfold voteGuard at h
  cases hp : s.proposals id with
  | none =>
    rw [hp] at h
    cases h
    simp [CallName.errors]
  | some p =>
    rw [hp] at h
    dsimp only at h
    split_ifs at h <;> (cases h; simp [CallName.errors])

theorem swapGuard_error {s : State T} {swap : Swap} {e : Error}
    (h : swapGuard s swap = .error e) : e ∈ CallName.finalizeProposal.errors := by
  unfold swapGuard at h
  split_ifs at h <;> (cases h; simp [CallName.errors])

theorem finalizeGuard_error {s : State T} {id : ProposalId} {e : Error}
    (h : finalizeGuard s id = .error e) : e ∈ CallName.finalizeProposal.errors := by
  unfold finalizeGuard at h
  cases hp : s.proposals id with
  | none =>
    rw [hp] at h
    cases h
    simp [CallName.errors]
  | some p =>
    rw [hp] at h
    dsimp only at h
    split_ifs at h <;> (cases h; simp [CallName.errors])

variable [DecidableEq AccountId]

/-- The errors of a finalization are those of its guards and of the swap. -/
theorem finalizeVerdict_error {s : State T} {id : ProposalId} {e : Error}
    (h : finalizeVerdict s id = .error e) : e ∈ CallName.finalizeProposal.errors := by
  cases hg : finalizeGuard s id with
  | error e' =>
    rw [finalizeVerdict, hg] at h
    cases h
    exact finalizeGuard_error hg
  | ok p =>
    -- swaps are the only actions
    obtain ⟨swap, hswap⟩ : ∃ swap, p.action = .swap swap := ⟨_, rfl⟩
    rw [finalizeVerdict_of_guard hg hswap] at h
    split_ifs at h
    cases hs : swapGuard s swap with
    | ok r =>
      rw [hs] at h
      cases h
    | error e' =>
      rw [hs] at h
      cases h
      exact swapGuard_error hs

theorem dispatch_of_step_error {s : State T} {origin : Origin AccountId} {call : Call T}
    {x : DispatchError T} (h : (step s (.call origin call)).1 = .error x) :
    ∃ s', dispatch origin call s = .error x s' := by
  rw [step_call] at h
  cases hd : dispatch origin call s with
  | ok r s' =>
    rw [hd] at h
    cases h
  | error e s' =>
    rw [hd] at h
    cases h
    exact ⟨s', rfl⟩

/-- **No call returns an error outside its list.** -/
theorem returns_of_step_error {s : State T} {origin : Origin AccountId} {call : Call T}
    {x : DispatchError T} (h : (step s (.call origin call)).1 = .error x) :
    Returns call origin x := by
  obtain ⟨s', hd⟩ := dispatch_of_step_error h
  -- who may call is checked first; `seed_vault` does not ask
  cases origin with
  | signed who =>
    cases call with
    | createProposal title description duration action =>
      rw [dispatch_createProposal] at hd
      cases hg : createGuard s duration with
      | ok next =>
        rw [hg] at hd
        cases hd
      | error e =>
        rw [hg] at hd
        cases hd
        exact .module (createGuard_error hg)
    | voteProposal id vote =>
      rw [dispatch_voteProposal] at hd
      cases hg : voteGuard s who id with
      | ok p =>
        rw [hg] at hd
        cases hd
      | error e =>
        rw [hg] at hd
        cases hd
        exact .module (voteGuard_error hg)
    | finalizeProposal id =>
      rw [dispatch_finalizeProposal] at hd
      cases hv : finalizeVerdict s id with
      | ok t =>
        rw [hv] at hd
        cases hd
      | error e =>
        rw [hv] at hd
        cases hd
        exact .module (finalizeVerdict_error hv)
    | deposit amount =>
      rw [dispatch_deposit] at hd
      cases hr : T.currency.reserve s.ledger who amount with
      | ok l =>
        rw [hr] at hd
        cases hd
      | error e =>
        rw [hr] at hd
        cases hd
        exact .currency rfl
    | withdraw amount =>
      rw [dispatch_withdraw] at hd
      -- only a withdrawal above the stake fails
      split_ifs at hd
      cases hd
      exact .module (by simp [Call.name, CallName.errors])
    | seedVault coin amount =>
      rw [dispatch_seedVault] at hd
      cases hd
  | root =>
    cases call with
    | seedVault coin amount =>
      rw [dispatch_seedVault] at hd
      cases hd
    | createProposal | voteProposal | finalizeProposal | deposit | withdraw =>
      cases hd
      exact .root (by simp [Call.name])
  | none =>
    cases call with
    | seedVault coin amount =>
      rw [dispatch_seedVault] at hd
      cases hd
    | createProposal | voteProposal | finalizeProposal | deposit | withdraw =>
      cases hd
      exact .none (by simp [Call.name])

end Soundness

/-! ## The errors occur -/

/-- On the development chain some call of this name returns the error. -/
def Occurs (name : CallName) (e : Error) : Prop :=
  ∃ (ops : List (Op DevConfig)) (who : DevAccount) (call : Call DevConfig), call.name = name ∧
    (step (run developmentGenesis ops) (.call (.signed who) call)).1 = .error (.module e)

/-- A proposal without a text, open for `n` blocks. -/
def proposeFor (n : ℕ) : Call DevConfig :=
  .createProposal ⟨[], Nat.zero_le _⟩ ⟨[], Nat.zero_le _⟩ (.clamp _ n)
    (.swap ⟨.dot, .kusama, .clamp _ 0⟩)

theorem occurs_createProposal {e : Error} (he : e ∈ CallName.createProposal.errors) :
    Occurs .createProposal e := by
  simp only [CallName.errors, List.mem_cons, List.not_mem_nil, or_false] at he
  rcases he with rfl | rfl | rfl
  · exact ⟨[], .alice, proposeFor 9, rfl, rfl⟩
  · exact ⟨[], .alice, proposeFor 10001, rfl, rfl⟩
  · -- a run that uses up all ids
    obtain ⟨ops, hmax⟩ := ids_run_out (T := DevConfig) developmentGenesis.ledger .alice
      ⟨[], Nat.zero_le _⟩ ⟨[], Nat.zero_le _⟩ (.swap ⟨.dot, .kusama, .clamp _ 0⟩)
      (Nat.le_refl DevConfig.minProposalDuration.val) (by decide)
    have hdev : (run developmentGenesis ops).nextProposalId.val = maxU32 := hmax
    refine ⟨ops, .alice, proposeFor 10, rfl, ?_⟩
    rw [step_call, proposeFor, dispatch_createProposal, createGuard_of_exhausted hdev]
    rfl

theorem occurs_voteProposal {e : Error} (he : e ∈ CallName.voteProposal.errors) :
    Occurs .voteProposal e := by
  simp only [CallName.errors, List.mem_cons, List.not_mem_nil, or_false] at he
  rcases he with rfl | rfl | rfl | rfl | rfl
  · exact ⟨[], .alice, .voteProposal 0 .forVote, rfl, rfl⟩
  · exact ⟨beforeEarlyFinalization ++ [aliceFinalizes], .bob, .voteProposal 0 .forVote, rfl, rfl⟩
  · exact ⟨missedFinalization, .bob, .voteProposal 0 .forVote, rfl, rfl⟩
  · exact ⟨beforeEarlyFinalization, .alice, .voteProposal 0 .forVote, rfl, rfl⟩
  · exact ⟨beforeEarlyFinalization, .aliceStash, .voteProposal 0 .forVote, rfl, rfl⟩

/-- Alice stakes, proposes a swap and votes for it. -/
def aliceProposes (swap : Swap) : List (Op DevConfig) :=
  [.call (.signed .alice) (.deposit (.clamp _ 100)), .call (.signed .alice) (proposeSwap swap),
    .call (.signed .alice) (.voteProposal 0 .forVote)]

theorem occurs_finalizeProposal {e : Error} (he : e ∈ CallName.finalizeProposal.errors) :
    Occurs .finalizeProposal e := by
  simp only [CallName.errors, List.mem_cons, List.not_mem_nil, or_false] at he
  -- one run for each error: unknown, settled, too late, below the quorum, vault, coins
  rcases he with rfl | rfl | rfl | rfl | rfl | rfl
  · exact ⟨[], .alice, .finalizeProposal 0, rfl, rfl⟩
  · exact ⟨beforeEarlyFinalization ++ [aliceFinalizes], .bob, .finalizeProposal 0, rfl, rfl⟩
  · exact ⟨missedFinalization, .bob, .finalizeProposal 0, rfl, rfl⟩
  · exact ⟨twoThirdsVote, .alice, .finalizeProposal 0, rfl, rfl⟩
  · exact ⟨aliceProposes ⟨.dot, .kusama, .clamp _ 5⟩, .alice, .finalizeProposal 0, rfl, rfl⟩
  · exact ⟨aliceProposes ⟨.dot, .dot, 0⟩, .alice, .finalizeProposal 0, rfl, rfl⟩

theorem occurs_of_mem {name : CallName} {e : Error} (he : e ∈ name.errors) : Occurs name e := by
  cases name with
  | createProposal => exact occurs_createProposal he
  | voteProposal => exact occurs_voteProposal he
  | finalizeProposal => exact occurs_finalizeProposal he
  | deposit => exact absurd he List.not_mem_nil
  | withdraw =>
    simp only [CallName.errors, List.mem_cons, List.not_mem_nil, or_false] at he
    subst he
    exact ⟨[], .alice, .withdraw (.clamp _ 1), rfl, rfl⟩
  | seedVault => exact absurd he List.not_mem_nil

/-- **The table of errors is exact.** For every configuration and in every state, a call returns
only the errors of its list, `BadOrigin` when it is not signed, and those of the currency on a
deposit; it never panics. On the development chain a call of a name returns an error of the pallet
in some reachable state exactly if the error is in the list of the name. -/
theorem error_table_exact :
    (∀ (AccountId : Type) [DecidableEq AccountId] (T : Config AccountId) (s : State T)
      (origin : Origin AccountId) (call : Call T) (x : DispatchError T),
        (step s (.call origin call)).1 = .error x → Returns call origin x) ∧
    ∀ name e, Occurs name e ↔ e ∈ name.errors := by
  refine ⟨fun _ _ _ _ _ _ _ h => returns_of_step_error h, fun name e => ⟨?_, occurs_of_mem⟩⟩
  rintro ⟨ops, who, call, rfl, herror⟩
  -- only the errors of the list are errors of the pallet
  cases returns_of_step_error herror with
  | module he => exact he

end MulticoinTreasury
