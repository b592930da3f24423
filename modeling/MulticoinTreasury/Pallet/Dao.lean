import MulticoinTreasury.Library.BallotBox
import MulticoinTreasury.Library.Book
import MulticoinTreasury.Pallet.System

/-!
# What the pallet is for

A DAO in exact numbers and without bookkeeping of its own results. Motions stand in a list, and the
place of a motion is its id. A motion keeps the ballots that were cast on it, and tallies are
counted from them; stakes are a book, and the total is the total of the book; the karma of an
account is the number of its approved motions. So nothing can disagree with anything else, and
nothing is ever clipped. This is a statement of the purpose of the pallet: its numbers and errors
are compared with those of the code elsewhere.
-/

set_option autoImplicit false

namespace MulticoinTreasury

/-- A motion: who made it, what it asks for, until when, the ballots so far, and its status. -/
structure Motion (AccountId : Type) where
  author : AccountId
  action : Action
  deadline : ℕ
  ballots : BallotBox AccountId VoteKind
  status : ProposalStatus

/-- A ballot counts its weight and one more. -/
def Motion.tally {AccountId : Type} (m : Motion AccountId) (kind : VoteKind) : ℕ :=
  m.ballots.tally 1 kind

def Motion.turnout {AccountId : Type} (m : Motion AccountId) : ℕ :=
  m.tally .forVote + m.tally .againstVote

/-- The DAO: motions by id, stakes, the vault, and the money outside. -/
structure Dao {AccountId : Type} (T : Config AccountId) where
  now : ℕ
  ledger : T.currency.Ledger
  motions : List (Motion AccountId)
  stakes : Book AccountId
  vault : Coin → ℕ

namespace Dao

variable {AccountId : Type} {T : Config AccountId}

/-- The DAO before the first block. -/
def initial (T : Config AccountId) (ledger : T.currency.Ledger) : Dao T where
  now := 0
  ledger := ledger
  motions := []
  stakes := .empty
  vault := fun _ => 0

/-- The votes that a decision needs. -/
noncomputable def quorum (d : Dao T) : ℕ := T.quorum.parts * d.stakes.total / 1000000

/-- The For votes that an approval needs. -/
def needed (T : Config AccountId) (m : Motion AccountId) : ℕ :=
  T.approvalOfQuorum.parts * m.turnout / 1000000

/-- The motion `m` at the place `id`, and the rest as it is. -/
def put (d : Dao T) (id : ℕ) (m : Motion AccountId) : Dao T :=
  { d with motions := d.motions.set id m }

/-- A swap moves its amount between two different coins, if there is enough of the first. -/
def execute (d : Dao T) (swap : Swap) : Except Error (Dao T) :=
  if swap.fromCoin ≠ swap.toCoin then
    if swap.amount.val ≤ d.vault swap.fromCoin then
      .ok { d with
        vault := Function.update
          (Function.update d.vault swap.fromCoin (d.vault swap.fromCoin - swap.amount.val))
          swap.toCoin (d.vault swap.toCoin + swap.amount.val) }
    else .error .insufficientVaultBalance
  else .error .invalidSwap

/-- A motion is decided before its deadline, once it has its quorum. -/
noncomputable def conclude (d : Dao T) (id : ℕ) : Except Error (Dao T) :=
  match d.motions[id]? with
  | none => .error .proposalNotFound
  | some m =>
      if m.status = .active then
        if d.now < m.deadline then
          if d.quorum ≤ m.turnout then
            if needed T m ≤ m.tally .forVote then
              match m.action with
              | .swap swap =>
                  match d.execute swap with
                  | .ok d' => .ok (d'.put id { m with status := .approved })
                  | .error e => .error e
            else .ok (d.put id { m with status := .rejected })
          else .error .quorumNotMet
        else .error .votingPeriodEnded
      else .error .proposalNotActive

/-- A motion of a duration in range gets the next id. -/
def move (d : Dao T) (who : AccountId) (duration : U32) (action : Action) :
    Except Error (Dao T) :=
  if T.minProposalDuration ≤ duration then
    if duration ≤ T.maxProposalDuration then
      .ok { d with
        motions := d.motions ++ [⟨who, action, d.now + duration.val, .empty, .active⟩] }
    else .error .durationTooLong
  else .error .durationTooShort

/-- What is decided on a motion, with the action taken apart. -/
theorem conclude_eq {d : Dao T} {id : ℕ} {m : Motion AccountId} {swap : Swap}
    (hm : d.motions[id]? = some m) (hswap : m.action = .swap swap) :
    d.conclude id =
      if m.status = .active then
        if d.now < m.deadline then
          if d.quorum ≤ m.turnout then
            if needed T m ≤ m.tally .forVote then
              (d.execute swap).map fun d' => d'.put id { m with status := .approved }
            else .ok (d.put id { m with status := .rejected })
          else .error .quorumNotMet
        else .error .votingPeriodEnded
      else .error .proposalNotActive := by
  -- the match on the action reduces once the motion is a constructor
  obtain ⟨author, action, deadline, ballots, status⟩ := m
  dsimp only at hswap
  subst hswap
  rw [conclude, hm]
  dsimp only
  cases d.execute swap <;> rfl

variable [DecidableEq AccountId]

/-- The number of approved motions of an account. -/
def karma (d : Dao T) (a : AccountId) : ℕ :=
  d.motions.countP fun m => m.author = a ∧ m.status = .approved

/-- A vote weighs the stake of its voter, and a unit for each of its approved motions. -/
def weight (d : Dao T) (a : AccountId) : ℕ := d.stakes.balance a + T.karmaUnit.val * d.karma a

/-- Everybody votes once on an active motion, up to its deadline, with a positive weight. -/
def vote (d : Dao T) (who : AccountId) (id : ℕ) (kind : VoteKind) : Except Error (Dao T) :=
  match d.motions[id]? with
  | none => .error .proposalNotFound
  | some m =>
      if m.status = .active then
        if d.now ≤ m.deadline then
          -- a ballot box takes a ballot only with these two proofs
          if hnew : who ∉ m.ballots.voters then
            if hweight : 0 < d.weight who then
              .ok (d.put id
                { m with ballots := m.ballots.cast ⟨who, kind, d.weight who⟩ hnew hweight })
            else .error .noDeposit
          else .error .alreadyVoted
        else .error .votingPeriodEnded
      else .error .proposalNotActive

def deposit (d : Dao T) (who : AccountId) (amount : Balance) :
    Except T.currency.Error (Dao T) :=
  match T.currency.reserve d.ledger who amount with
  | .ok l => .ok { d with ledger := l, stakes := d.stakes.credit who amount.val }
  | .error e => .error e

def withdraw (d : Dao T) (who : AccountId) (amount : Balance) : Except Error (Dao T) :=
  if amount.val ≤ d.stakes.balance who then
    .ok { d with
      ledger := (T.currency.unreserve d.ledger who amount).2
      stakes := d.stakes.debit who amount.val }
  else .error .withdrawTooLarge

def seed (d : Dao T) (coin : Coin) (amount : U128) : Dao T :=
  { d with vault := Function.update d.vault coin (d.vault coin + amount.val) }

/-- What a call of a signer does. -/
noncomputable def perform (d : Dao T) (who : AccountId) :
    Call T → Except (DispatchError T) (Dao T)
  | .createProposal _ _ duration action => (d.move who duration action).mapError .module
  | .voteProposal id kind => (d.vote who id.val kind).mapError .module
  | .finalizeProposal id => (d.conclude id.val).mapError .module
  | .deposit amount => (d.deposit who amount).mapError .currency
  | .withdraw amount => (d.withdraw who amount).mapError .module
  | .seedVault coin amount => .ok (d.seed coin amount)

/-- Everybody may seed the vault; everything else has to be signed. -/
noncomputable def call (d : Dao T) : Origin AccountId → Call T → Except (DispatchError T) (Dao T)
  | .signed who, call => d.perform who call
  | _, .seedVault coin amount => .ok (d.seed coin amount)
  | _, _ => .error .badOrigin

/-- Apart from seeds, an accepted call is what its signer does. -/
theorem perform_of_call_ok {d d' : Dao T} {origin : Origin AccountId} {c : Call T}
    (hok : d.call origin c = .ok d') (hseed : ∀ coin amount, c ≠ .seedVault coin amount) :
    ∃ who, d.perform who c = .ok d' := by
  cases origin with
  | signed who => exact ⟨who, hok⟩
  | root | none =>
    -- only a seed is accepted without a signature
    cases c with
    | seedVault coin amount => exact absurd rfl (hseed coin amount)
    | createProposal | voteProposal | finalizeProposal | deposit | withdraw => cases hok

/-- One operation: a call that fails changes nothing. -/
noncomputable def step (d : Dao T) : Op T → Outcome T × Dao T
  | .call origin call =>
      match d.call origin call with
      | .ok d' => (.ok ⟨⟩, d')
      | .error e => (.error e, d)
  | .block number => (.ok ⟨⟩, { d with now := max d.now number.val })
  | .currency o => (.ok ⟨⟩, { d with ledger := T.currency.other o d.ledger })

theorem step_of_call_ok {d d' : Dao T} {origin : Origin AccountId} {c : Call T}
    (h : d.call origin c = .ok d') : d.step (.call origin c) = (.ok ⟨⟩, d') := by
  simp only [step, h]

theorem step_of_call_error {d : Dao T} {origin : Origin AccountId} {c : Call T}
    {e : DispatchError T} (h : d.call origin c = .error e) :
    d.step (.call origin c) = (.error e, d) := by
  simp only [step, h]

/-- The DAO after a list of operations. -/
noncomputable abbrev run (d : Dao T) (ops : List (Op T)) : Dao T := Machine.run step d ops

end Dao

end MulticoinTreasury
