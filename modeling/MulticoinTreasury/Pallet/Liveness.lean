import MulticoinTreasury.Pallet.Stability
import MulticoinTreasury.Pallet.Stakes

/-!
# Every open proposal can be decided

Whatever has happened on the chain, a proposal that is open and swaps two different coins can still
be decided, in the current block: the quorum is a share of the total stake, so it is reached at the
latest when everybody has withdrawn, and the vault can be seeded. After the end of the proposal
nothing helps any more.
-/

set_option autoImplicit false

namespace MulticoinTreasury

variable {AccountId : Type} {T : Config AccountId}

/-- A call with a signer, as opposed to a block or an operation of the currency. -/
def IsSigned (op : Op T) : Prop := ∃ who call, op = .call (.signed who) call

/-- Two states with the same block, proposals and vault. -/
structure SameBoard (s s' : State T) : Prop where
  block : s'.blockNumber = s.blockNumber
  proposals : s'.proposals = s.proposals
  vault : s'.vault = s.vault

theorem SameBoard.refl (s : State T) : SameBoard s s := ⟨rfl, rfl, rfl⟩

theorem SameBoard.trans {s t u : State T} (hst : SameBoard s t) (htu : SameBoard t u) :
    SameBoard s u where
  block := htu.block.trans hst.block
  proposals := htu.proposals.trans hst.proposals
  vault := htu.vault.trans hst.vault

variable [DecidableEq AccountId]

theorem sameBoard_removeStake (s : State T) (who : AccountId) (amount : Balance) :
    SameBoard s (s.removeStake who amount) := ⟨rfl, rfl, rfl⟩

/-- Everybody can withdraw everything. The induction is on a list of accounts that contains all
stakers; each withdraws its whole stake and is not needed in the list any more. -/
theorem exists_withdrawals (hC : T.currency.Lawful) (hI : T.currency.IssuanceBounded)
    (accounts : List AccountId) {s : State T} {book : Book AccountId} (h : HoldsTotal s book)
    (hall : ∀ a, book.balance a ≠ 0 → a ∈ accounts) :
    ∃ ops, (∀ op ∈ ops, IsSigned op) ∧ SameBoard s (run s ops) ∧ (run s ops).totalStake = 0 := by
  induction accounts generalizing s book with
  | nil =>
    refine ⟨[], fun op hop => absurd hop List.not_mem_nil, .refl s, ?_⟩
    -- all balances are zero now
    have hzero : ∀ a, book.balance a = 0 := by
      intro a
      by_contra hne
      exact absurd (hall a hne) List.not_mem_nil
    apply BoundedNat.ext
    exact h.total_val.trans (Book.total_eq_zero hzero)
  | cons a accounts ih =>
    have ha : Accepted s (.signed a) (.withdraw (s.deposits a)) _ := .withdraw (Nat.le_refl _)
    have hstep : StakeStep s (s.removeStake a (s.deposits a)) (.removed a (s.deposits a)) :=
      .removed (Nat.le_refl _) rfl rfl rfl
    have hnext := h.moved hC hI hstep
    -- the account that has withdrawn has no balance left
    have hrest : ∀ b, (StakeMove.applyTo book (.removed a (s.deposits a))).balance b ≠ 0 →
        b ∈ accounts := by
      intro b hb
      have hne : b ≠ a := by
        rintro rfl
        apply hb
        rw [StakeMove.applyTo, Book.balance_debit_self, h.deposits_val, Nat.sub_self]
      rw [StakeMove.applyTo, Book.balance_debit_of_ne hne] at hb
      exact (List.mem_cons.1 (hall b hb)).resolve_left hne
    obtain ⟨ops, hsigned, hboard, hzero⟩ := ih hnext hrest
    refine ⟨.call (.signed a) (.withdraw (s.deposits a)) :: ops, ?_, ?_⟩
    · intro op hop
      rcases List.mem_cons.1 hop with rfl | hop
      · exact ⟨a, _, rfl⟩
      · exact hsigned op hop
    · rw [run, Machine.run_cons, step_call_of_accepted ha]
      exact ⟨(sameBoard_removeStake s a _).trans hboard, hzero⟩

omit [DecidableEq AccountId] in
/-- Without stakes, and with a seed of its amount, an open proposal is ready for one of the two
decisions. -/
theorem exists_ready {s : State T} {id : ProposalId} {p : Proposal T} {swap : Swap}
    (hp : s.proposals id = some p) (hactive : p.status = .active)
    (hopen : s.blockNumber < p.endBlock) (hswap : p.action = .swap swap)
    (hcoins : swap.fromCoin ≠ swap.toCoin) (hzero : s.totalStake = 0) :
    ∃ kind, Ready kind (s.addToVault swap.fromCoin swap.amount) id p := by
  have hquorum : minParticipation (s.addToVault swap.fromCoin swap.amount) ≤ p.participation := by
    -- a share of no stake at all
    rw [BoundedNat.le_iff, minParticipation, Permill.mulFloor_val]
    show T.quorum.parts * s.totalStake.val / 1000000 ≤ _
    rw [hzero]
    simp
  -- the votes cast so far decide on which side
  by_cases hfor : p.neededFor ≤ p.forVotes
  · refine ⟨.forVote, hp, hactive, hopen, hquorum, hfor, swap, hswap, hcoins, ?_⟩
    show swap.amount ≤ Function.update s.vault swap.fromCoin _ swap.fromCoin
    rw [Function.update_self]
    exact Nat.le_min.2 ⟨Nat.le_add_left _ _, swap.amount.le_max⟩
  · exact ⟨.againstVote, hp, hactive, hopen, hquorum, hfor⟩

/-- An open proposal can be decided by signed calls alone. -/
theorem exists_decision (hC : T.currency.Lawful) (hI : T.currency.IssuanceBounded) {s : State T}
    {book : Book AccountId} (h : HoldsTotal s book) {id : ProposalId} {p : Proposal T}
    {swap : Swap} (hp : s.proposals id = some p) (hactive : p.status = .active)
    (hopen : s.blockNumber < p.endBlock) (hswap : p.action = .swap swap)
    (hcoins : swap.fromCoin ≠ swap.toCoin) :
    ∃ more, (∀ op ∈ more, IsSigned op) ∧
      ∃ p', (run s more).proposals id = some p' ∧ p'.status ≠ .active := by
  have hfinite : (Function.support book.balance).Finite := book.finite
  -- only finitely many accounts have a stake
  have hall : ∀ a, book.balance a ≠ 0 → a ∈ hfinite.toFinset.toList := by
    intro a ha
    rw [Finset.mem_toList, Set.Finite.mem_toFinset]
    exact ha
  obtain ⟨ops, hsigned, hboard, hzero⟩ := exists_withdrawals hC hI _ h hall
  have hp' : (run s ops).proposals id = some p := (congrFun hboard.proposals id).trans hp
  obtain ⟨kind, hready⟩ := exists_ready hp' hactive (hboard.block ▸ hopen) hswap hcoins hzero
  -- the author seeds the vault and finalizes
  let seed : Op T := .call (.signed p.author) (.seedVault swap.fromCoin swap.amount)
  let finalize : Op T := .call (.signed p.author) (.finalizeProposal id)
  have hseed : Accepted (run s ops) (.signed p.author) (.seedVault swap.fromCoin swap.amount)
      ((run s ops).addToVault swap.fromCoin swap.amount) := .seedVault
  have hrun : run s (ops ++ [seed, finalize]) =
      (finalizeStep ((run s ops).addToVault swap.fromCoin swap.amount) p.author id).2 := by
    rw [run, Machine.run_append, Machine.run_cons, step_call_of_accepted hseed]
    rfl
  obtain ⟨-, hstatus⟩ := (ready_iff kind _ p.author id).1 ⟨p, hready⟩
  refine ⟨ops ++ [seed, finalize], ?_, ?_⟩
  · intro op hop
    rcases List.mem_append.1 hop with hop | hop
    · exact hsigned op hop
    · simp only [List.mem_cons, List.not_mem_nil, or_false] at hop
      rcases hop with rfl | rfl
      · exact ⟨_, _, rfl⟩
      · exact ⟨_, _, rfl⟩
  · rw [hrun]
    obtain ⟨p', hp', hverdict⟩ := Option.map_eq_some_iff.1 hstatus
    refine ⟨p', hp', ?_⟩
    rw [hverdict]
    cases kind <;> simp [VoteKind.verdict]

/-- **A proposal can be decided as long as it is open.** In every reachable state, a stored proposal
that swaps two different coins is settled in some continuation exactly if it is settled already or
the block is before its end; and then signed calls in the current block are enough. -/
theorem can_be_decided_iff_open (hC : T.currency.Lawful) (hI : T.currency.IssuanceBounded)
    (l : T.currency.Ledger) (hzero : ∀ a, T.currency.reservedBalance l a = 0) (ops : List (Op T))
    (id : ProposalId) (p : Proposal T) (swap : Swap)
    (hp : (run (genesis T l) ops).proposals id = some p) (hswap : p.action = .swap swap)
    (hcoins : swap.fromCoin ≠ swap.toCoin) :
    let s := run (genesis T l) ops
    ((∃ more p', (run s more).proposals id = some p' ∧ p'.status ≠ .active) ↔
      p.status ≠ .active ∨ s.blockNumber < p.endBlock) ∧
    (s.blockNumber < p.endBlock → ∃ more, (∀ op ∈ more, IsSigned op) ∧
      ∃ p', (run s more).proposals id = some p' ∧ p'.status ≠ .active) := by
  intro s
  obtain ⟨book, hbook⟩ := holdsTotal_run hC hI hzero ops
  have hdecide : s.blockNumber < p.endBlock → ∃ more, (∀ op ∈ more, IsSigned op) ∧
      ∃ p', (run s more).proposals id = some p' ∧ p'.status ≠ .active := by
    intro hopen
    -- a proposal that is settled already needs no further call
    by_cases hactive : p.status = .active
    · exact exists_decision hC hI hbook hp hactive hopen hswap hcoins
    · exact ⟨[], fun op hop => absurd hop List.not_mem_nil, p, hp, hactive⟩
  refine ⟨⟨?_, ?_⟩, hdecide⟩
  · rintro ⟨more, p', hp', hsettled⟩
    by_contra hnot
    rw [not_or, not_not] at hnot
    -- past its end an active proposal stays active
    obtain ⟨q, hq, hactive⟩ := active_run_of_ended (storeInv_reached l ops) hp hnot.1
      (Nat.le_of_not_lt hnot.2) more
    cases hp'.symm.trans hq
    exact hsettled hactive
  · rintro (hsettled | hopen)
    · exact ⟨[], p, hp, hsettled⟩
    · obtain ⟨more, -, p', hp', hsettled⟩ := hdecide hopen
      exact ⟨more, p', hp', hsettled⟩

/-- Two thirds of the stake have voted for Alice's proposal, which is not enough; still it can be
decided. -/
theorem can_be_decided_iff_open_two_thirds :
    ∃ more p', (run (run developmentGenesis twoThirdsVote) more).proposals 0 = some p' ∧
      p'.status ≠ .active := by
  have h := (can_be_decided_iff_open (T := DevConfig) PlainLedger.currency_lawful
    PlainLedger.currency_issuanceBounded developmentGenesis.ledger (fun _ => rfl) twoThirdsVote
    0 _ _
    rfl rfl (by decide)).1
  exact h.2 (Or.inr (by decide))

end MulticoinTreasury
