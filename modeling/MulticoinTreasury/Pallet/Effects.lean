import MulticoinTreasury.Library.PointUpdate
import MulticoinTreasury.Pallet.Refusals

/-!
# Calls as effects on the storage

What a vote, a deposit, a withdrawal or a seed does is an `Effect` on the storage and the balances,
which are the state without its event log (`Storage`). The effect and the result of a call depend
only on the part of the storage that its signer reads (`LocalView`), and effects of different
signers do not change each other's view and commute.
-/

set_option autoImplicit false

namespace MulticoinTreasury

open PointUpdate

variable {AccountId : Type}

/-- The state without the event log; the ledger is replaced by its free and reserved balances. -/
@[ext]
structure Storage (T : Config AccountId) where
  blockNumber : BlockNumber
  proposals : ProposalId → Option (Proposal T)
  nextProposalId : ProposalId
  deposits : AccountId → Balance
  hasVoted : ProposalId → AccountId → Bool
  totalStake : Balance
  karma : AccountId → U32
  vault : Coin → U128
  balances : AccountId → ℕ × ℕ

variable {T : Config AccountId}

def State.storage (s : State T) : Storage T where
  blockNumber := s.blockNumber
  proposals := s.proposals
  nextProposalId := s.nextProposalId
  deposits := s.deposits
  hasVoted := s.hasVoted
  totalStake := s.totalStake
  karma := s.karma
  vault := s.vault
  balances a := ((T.currency.freeBalance s.ledger a).val,
    (T.currency.reservedBalance s.ledger a).val)

/-- What a call of an account reads: its own entries, and of each proposal whether it can still be
voted on. -/
@[ext]
structure LocalView where
  blockNumber : BlockNumber
  proposals : ProposalId → Option (ProposalStatus × BlockNumber)
  deposit : Balance
  voted : ProposalId → Bool
  karma : U32
  balance : ℕ × ℕ

def Storage.view (σ : Storage T) (a : AccountId) : LocalView where
  blockNumber := σ.blockNumber
  proposals id := (σ.proposals id).map fun p => (p.status, p.endBlock)
  deposit := σ.deposits a
  voted id := σ.hasVoted id a
  karma := σ.karma a
  balance := σ.balances a

/-- What an accepted call of an account does. -/
inductive Effect where
  | none
  | vote (id : ProposalId) (kind : VoteKind) (weight : Balance)
  | stake (amount : Balance)
  | unstake (amount : Balance)
  | seed (coin : Coin) (amount : U128)

variable [DecidableEq AccountId]

/-- The storage after an effect of the account `who`. -/
def Effect.apply (who : AccountId) (σ : Storage T) : Effect → Storage T
  | .none => σ
  | .vote id kind weight => { σ with
      proposals := modify σ.proposals id fun p => p.map (·.addVote kind weight)
      hasVoted := modify σ.hasVoted id fun voted => modify voted who fun _ => true }
  | .stake amount => { σ with
      deposits := modify σ.deposits who (·.saturatingAdd amount)
      totalStake := σ.totalStake.saturatingAdd amount
      balances := modify σ.balances who fun b => (b.1 - amount.val, b.2 + amount.val) }
  | .unstake amount => { σ with
      deposits := modify σ.deposits who (·.saturatingSub amount)
      totalStake := σ.totalStake.saturatingSub amount
      balances := modify σ.balances who fun b =>
        (b.1 + min amount.val b.2, b.2 - min amount.val b.2) }
  | .seed coin amount => { σ with vault := modify σ.vault coin (·.saturatingAdd amount) }

/-! ## Effects of different accounts commute -/

/-- The effect does not clip the total stake. -/
def Effect.Fits (σ : Storage T) : Effect → Prop
  | .stake amount => σ.totalStake.val + amount.val ≤ maxBalance
  | .unstake amount => amount ≤ σ.totalStake
  | _ => True

omit [DecidableEq AccountId] in
theorem addVote_comm (p : Proposal T) (k₁ k₂ : VoteKind) (w₁ w₂ : Balance) :
    (p.addVote k₁ w₁).addVote k₂ w₂ = (p.addVote k₂ w₂).addVote k₁ w₁ := by
  have hcomm : ∀ b : Balance,
      (((b.saturatingAdd w₁).saturatingAdd (.clamp _ 1)).saturatingAdd w₂).saturatingAdd
          (.clamp _ 1) =
        (((b.saturatingAdd w₂).saturatingAdd (.clamp _ 1)).saturatingAdd w₁).saturatingAdd
          (.clamp _ 1) := by
    intro b
    rw [BoundedNat.saturatingAdd_right_comm (b.saturatingAdd w₁),
      BoundedNat.saturatingAdd_right_comm b w₁ w₂,
      BoundedNat.saturatingAdd_right_comm (b.saturatingAdd w₂)]
  cases k₁ with
  | forVote =>
    cases k₂ with
    | forVote => simp only [Proposal.addVote, hcomm]
    | againstVote => rfl
  | againstVote =>
    cases k₂ with
    | forVote => rfl
    | againstVote => simp only [Proposal.addVote, hcomm]

/-- **Effects of different accounts commute.** Stakes and balances are separate entries, votes on
one proposal and seeds of one coin are clipped additions, and the total stake is not clipped. -/
theorem Effect.apply_comm {a b : AccountId} (hab : a ≠ b) {σ : Storage T} {e f : Effect}
    (he : e.Fits σ) (hf : f.Fits σ) :
    f.apply b (e.apply a σ) = e.apply a (f.apply b σ) := by
  -- two changes at the entries of the two accounts
  have hentries : ∀ {β : Type} (m : AccountId → β) (g h : β → β),
      modify (modify m a g) b h = modify (modify m b h) a g :=
    fun m g h => modify_comm fun heq => absurd heq hab
  cases e with
  | none => rfl
  | vote i k w =>
    cases f with
    | vote j l v =>
      dsimp only [Effect.apply]
      congr 1
      · refine modify_comm fun _ => ?_
        cases σ.proposals i with
        | none => rfl
        | some p => exact congrArg some (addVote_comm p k l w v)
      · exact modify_comm fun _ => hentries (σ.hasVoted i) _ _
    | none | stake | unstake | seed => rfl
  | stake x =>
    cases f with
    | stake y =>
      dsimp only [Effect.apply]
      rw [hentries σ.deposits, hentries σ.balances, BoundedNat.saturatingAdd_right_comm]
    | unstake y =>
      dsimp only [Effect.apply]
      rw [hentries σ.deposits, hentries σ.balances,
        BoundedNat.saturatingSub_saturatingAdd_comm he hf]
    | none | vote | seed => rfl
  | unstake x =>
    cases f with
    | stake y =>
      dsimp only [Effect.apply]
      rw [hentries σ.deposits, hentries σ.balances,
        BoundedNat.saturatingSub_saturatingAdd_comm hf he]
    | unstake y =>
      dsimp only [Effect.apply]
      rw [hentries σ.deposits, hentries σ.balances, BoundedNat.saturatingSub_right_comm]
    | none | vote | seed => rfl
  | seed c x =>
    cases f with
    | seed d y =>
      dsimp only [Effect.apply]
      congr 1
      exact modify_comm fun _ => BoundedNat.saturatingAdd_right_comm (σ.vault c) x y
    | none | vote | stake | unstake => rfl

/-- An effect of one account leaves the view of another as it is. -/
theorem Effect.view_apply {a b : AccountId} (hab : b ≠ a) (σ : Storage T) (e : Effect) :
    (e.apply a σ).view b = σ.view b := by
  cases e with
  | none => rfl
  | vote id k w =>
    have hproposals : ∀ i, ((modify σ.proposals id fun p => p.map (·.addVote k w)) i).map
        (fun p => (p.status, p.endBlock)) =
          (σ.proposals i).map fun p => (p.status, p.endBlock) := by
      intro i
      by_cases hi : i = id
      · subst hi
        rw [modify_self]
        cases σ.proposals i with
        | none => rfl
        | some p => simp
      · rw [modify_of_ne hi]
    -- the vote is recorded under the other account
    have hvoted : ∀ i, (modify σ.hasVoted id fun voted => modify voted a fun _ => true) i b =
        σ.hasVoted i b := by
      intro i
      by_cases hi : i = id
      · subst hi
        rw [modify_self, modify_of_ne hab]
      · rw [modify_of_ne hi]
    exact LocalView.ext rfl (funext hproposals) rfl (funext hvoted) rfl rfl
  | stake x =>
    have hdeposit : modify σ.deposits a (·.saturatingAdd x) b = σ.deposits b := modify_of_ne hab
    have hbalance : modify σ.balances a (fun m => (m.1 - x.val, m.2 + x.val)) b = σ.balances b :=
      modify_of_ne hab
    exact LocalView.ext rfl rfl hdeposit rfl rfl hbalance
  | unstake x =>
    have hdeposit : modify σ.deposits a (·.saturatingSub x) b = σ.deposits b := modify_of_ne hab
    have hbalance : modify σ.balances a
        (fun m => (m.1 + min x.val m.2, m.2 - min x.val m.2)) b = σ.balances b := modify_of_ne hab
    exact LocalView.ext rfl rfl hdeposit rfl rfl hbalance
  | seed c x => rfl

end MulticoinTreasury
