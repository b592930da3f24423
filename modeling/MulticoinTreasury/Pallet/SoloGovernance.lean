import MulticoinTreasury.Pallet.Isolation
import MulticoinTreasury.Pallet.Lifecycle
import MulticoinTreasury.Pallet.Stakes
import MulticoinTreasury.Pallet.Threshold

/-!
# A decision by one account in one block

One account can deposit, propose a swap, vote for it, finalize it and withdraw its deposit, all in
one block. The runtime's quorum is the whole total stake, so this goes through exactly if nearly all
stake is its own: the others together may have staked at most its karma weight and one unit. The
size of its own deposit does not matter as long as the currency reserves it, and afterwards nothing
of it is at stake any more.
-/

set_option autoImplicit false

namespace MulticoinTreasury

variable {AccountId : Type}

/-- What the account does in its block. -/
structure Solo (T : Config AccountId) where
  who : AccountId
  stake : Balance
  title : BoundedVec UInt8 T.maxTitleLen
  description : BoundedVec UInt8 T.maxDescriptionLen
  duration : U32
  swap : Swap

section Calls

variable {T : Config AccountId} [DecidableEq AccountId]

/-- The five calls; the proposal gets the next id. -/
def Solo.ops (g : Solo T) (s : State T) : List (Op T) :=
  [.call (.signed g.who) (.deposit g.stake),
    .call (.signed g.who)
      (.createProposal g.title g.description g.duration (.swap g.swap)),
    .call (.signed g.who) (.voteProposal s.nextProposalId .forVote),
    .call (.signed g.who) (.finalizeProposal s.nextProposalId),
    .call (.signed g.who) (.withdraw g.stake)]

/-- All operations of a list succeed. -/
def AllAccepted (s : State T) (ops : List (Op T)) : Prop :=
  ∀ e ∈ history s ops, e.output = .ok ⟨⟩

theorem allAccepted_nil (s : State T) : AllAccepted s [] :=
  fun _ he => absurd he List.not_mem_nil

theorem allAccepted_cons {s : State T} {origin : Origin AccountId} {call : Call T}
    {ops : List (Op T)} : AllAccepted s (.call origin call :: ops) ↔
      ∃ s', Accepted s origin call s' ∧ AllAccepted s' ops := by
  unfold AllAccepted
  -- the history of the rest starts where the first call ends
  rw [history, Machine.trace_cons, List.forall_mem_cons]
  constructor
  · rintro ⟨hfirst, hrest⟩
    exact ⟨_, accepted_of_step_ok hfirst, hrest⟩
  · rintro ⟨s', ha, hrest⟩
    have hstep := step_call_of_accepted ha
    refine ⟨?_, ?_⟩
    · show (step s (.call origin call)).1 = .ok ⟨⟩
      rw [hstep]
    · rw [hstep]
      exact hrest

/-- The state after the deposit and the proposal. -/
def Solo.proposed (g : Solo T) (s : State T) (l : T.currency.Ledger) (next : ProposalId) :
    State T :=
  (s.addStake g.who g.stake l).insertProposal
    (newProposal s g.who g.title g.description g.duration (.swap g.swap)) next

/-- The proposal with the vote of its author. -/
def Solo.voted (g : Solo T) (s : State T) (l : T.currency.Ledger) (next : ProposalId) :
    Proposal T :=
  (newProposal s g.who g.title g.description g.duration (.swap g.swap)).addVote .forVote
    (voteWeight (g.proposed s l next) g.who)

/-- The state after the finalization. -/
def Solo.approved (g : Solo T) (s : State T) (l : T.currency.Ledger) (next : ProposalId) :
    State T :=
  ((g.proposed s l next).castVote s.nextProposalId
    (newProposal s g.who g.title g.description g.duration (.swap g.swap)) g.who .forVote).approve
      s.nextProposalId (g.voted s l next) g.swap

/-- What the five calls need, one after the other. -/
structure Solo.Needs (g : Solo T) (s : State T) (l : T.currency.Ledger) (next : ProposalId) :
    Prop where
  reserve : T.currency.reserve s.ledger g.who g.stake = .ok l
  min_duration : T.minProposalDuration ≤ g.duration
  max_duration : g.duration ≤ T.maxProposalDuration
  successor : s.nextProposalId.checkedAdd (.clamp _ 1) = some next
  weight : voteWeight (g.proposed s l next) g.who ≠ 0
  before_end : s.blockNumber < s.blockNumber.saturatingAdd g.duration
  quorum : T.quorum.mulFloor (s.totalStake.saturatingAdd g.stake) ≤
    (g.voted s l next).participation
  coins : g.swap.fromCoin ≠ g.swap.toCoin
  balance : g.swap.amount ≤ s.vault g.swap.fromCoin

omit [DecidableEq AccountId] in
/-- A proposal with For votes only is never rejected. -/
theorem neededFor_le_of_only_for {p : Proposal T} (h : p.againstVotes = 0) :
    p.neededFor ≤ p.forVotes := by
  -- a share of the participation, which consists of the For votes
  have hbound := T.approvalOfQuorum.mulFloor_bound p.participation.val
  have hfor := le_maxBalance p.forVotes
  rw [participation_val, h, BoundedNat.zero_val, Nat.add_zero, Nat.min_eq_left hfor] at hbound
  rw [BoundedNat.le_iff, Proposal.neededFor, Permill.mulFloor_val, participation_val, h,
    BoundedNat.zero_val, Nat.add_zero, Nat.min_eq_left hfor]
  exact hbound

theorem Solo.Needs.accepted {g : Solo T} {s : State T} (hstore : StoreInv s)
    {l : T.currency.Ledger} {next : ProposalId} (h : g.Needs s l next)
    (hcovered : g.stake ≤ (g.approved s l next).deposits g.who) :
    AllAccepted s (g.ops s) ∧
      run s (g.ops s) = (g.approved s l next).removeStake g.who g.stake := by
  have hdeposit : Accepted s (.signed g.who) (.deposit g.stake) (s.addStake g.who g.stake l) :=
    .deposit h.reserve
  -- each call is accepted in the state that the one before it leaves
  have hcreate : Accepted (s.addStake g.who g.stake l) (.signed g.who)
      (.createProposal g.title g.description g.duration (.swap g.swap)) (g.proposed s l next) :=
    .createProposal h.min_duration h.max_duration h.successor
  have hfresh : s.hasVoted s.nextProposalId g.who = false := by
    cases hv : s.hasVoted s.nextProposalId g.who with
    | false => rfl
    | true =>
      -- votes are recorded at stored ids only
      obtain ⟨p, hp⟩ := hstore.stored_of_voted hv
      cases hstore.next_free.symm.trans hp
  have hvote : Accepted (g.proposed s l next) (.signed g.who)
      (.voteProposal s.nextProposalId .forVote) _ :=
    .voteProposal (Function.update_self _ _ _) rfl (Nat.le_of_lt h.before_end) hfresh h.weight
  have hfinalize : Accepted ((g.proposed s l next).castVote s.nextProposalId
      (newProposal s g.who g.title g.description g.duration (.swap g.swap)) g.who .forVote)
      (.signed g.who) (.finalizeProposal s.nextProposalId) (g.approved s l next) :=
    .finalizeApproved (Function.update_self _ _ _) rfl h.before_end h.quorum
      (neededFor_le_of_only_for rfl) rfl h.coins h.balance
  have hwithdraw : Accepted (g.approved s l next) (.signed g.who) (.withdraw g.stake) _ :=
    .withdraw hcovered
  refine ⟨?_, ?_⟩
  · unfold Solo.ops
    exact allAccepted_cons.2 ⟨_, hdeposit, allAccepted_cons.2 ⟨_, hcreate, allAccepted_cons.2
      ⟨_, hvote, allAccepted_cons.2 ⟨_, hfinalize, allAccepted_cons.2
        ⟨_, hwithdraw, allAccepted_nil _⟩⟩⟩⟩⟩
  · unfold Solo.ops
    rw [run, Machine.run_cons, step_call_of_accepted hdeposit, Machine.run_cons,
      step_call_of_accepted hcreate, Machine.run_cons, step_call_of_accepted hvote,
      Machine.run_cons, step_call_of_accepted hfinalize, Machine.run_cons,
      step_call_of_accepted hwithdraw, Machine.run_nil]

/-- Calls that all succeed had what they need. -/
theorem Solo.needs_of_accepted {g : Solo T} {s : State T} (h : AllAccepted s (g.ops s)) :
    ∃ l next, g.Needs s l next := by
  unfold Solo.ops at h
  obtain ⟨s₁, hdeposit, h⟩ := allAccepted_cons.1 h
  obtain ⟨s₂, hcreate, h⟩ := allAccepted_cons.1 h
  obtain ⟨s₃, hvote, h⟩ := allAccepted_cons.1 h
  obtain ⟨s₄, hfinalize, -⟩ := allAccepted_cons.1 h
  clear h
  cases hdeposit with
  | @deposit _ _ l hreserve =>
    cases hcreate with
    | @createProposal _ _ _ _ _ next hmin hmax hnext =>
      -- the proposal that the vote finds is the one just created
      have hstored : (g.proposed s l next).proposals s.nextProposalId =
          some (newProposal s g.who g.title g.description g.duration (.swap g.swap)) :=
        Function.update_self _ _ _
      cases hvote with
      | @voteProposal _ _ _ p hp hactive hopen hfresh hweight =>
        cases hstored.symm.trans hp
        have hstored' : ((g.proposed s l next).castVote s.nextProposalId
            (newProposal s g.who g.title g.description g.duration (.swap g.swap)) g.who
              .forVote).proposals s.nextProposalId = some (g.voted s l next) :=
          Function.update_self _ _ _
        cases hfinalize with
        -- with For votes only there is no rejection
        | @finalizeRejected _ _ q hq _ _ _ hfor =>
          cases hstored'.symm.trans hq
          exact absurd (neededFor_le_of_only_for rfl) hfor
        | @finalizeApproved _ _ q swap hq _ hend hquorum _ hswap hcoins hbalance =>
          cases hstored'.symm.trans hq
          cases hswap
          exact ⟨l, next, hreserve, hmin, hmax, hnext, hweight, hend, hquorum, hcoins, hbalance⟩

end Calls

/-! ## On the runtime -/

section Runtime

variable [DecidableEq AccountId] {C : Currency AccountId}

/-- What any account needs for it on the runtime, whatever its currency. -/
structure Solo.Routine (g : Solo (runtimeConfig C)) (s : State (runtimeConfig C)) : Prop where
  reservable : ∃ l, C.reserve s.ledger g.who g.stake = .ok l
  min_duration : 10 ≤ g.duration.val
  max_duration : g.duration.val ≤ 10000
  id_left : s.nextProposalId.val ≠ maxU32
  block_left : s.blockNumber.val ≠ maxU32
  coins : g.swap.fromCoin ≠ g.swap.toCoin
  balance : g.swap.amount ≤ s.vault g.swap.fromCoin

/-- And what the account that decides needs: some weight, and nearly all stake. -/
structure Solo.Possible (g : Solo (runtimeConfig C)) (s : State (runtimeConfig C)) : Prop
    extends g.Routine s where
  weight : 0 < (s.deposits g.who).val + g.stake.val + 1000000 * (s.karma g.who).val
  others : s.totalStake.val ≤ (s.deposits g.who).val + 1000000 * (s.karma g.who).val + 1

variable {g : Solo (runtimeConfig C)} {s : State (runtimeConfig C)} {l : C.Ledger}
  {next : ProposalId}

/-- The weight of the vote, with the deposit of the block. -/
theorem solo_weight_val (hfits : (s.deposits g.who).val + g.stake.val ≤ maxBalance) :
    (voteWeight (g.proposed s l next) g.who).val =
      min ((s.deposits g.who).val + g.stake.val + 1000000 * (s.karma g.who).val) maxBalance := by
  have hkarma := (s.karma g.who).le_max
  have hdeposit : ((g.proposed s l next).deposits g.who).val =
      (s.deposits g.who).val + g.stake.val := by
    show (Function.update s.deposits g.who _ g.who).val = _
    rw [Function.update_self, BoundedNat.saturatingAdd_val_of_le hfits]
  have hsame : (g.proposed s l next).karma g.who = s.karma g.who := rfl
  have hunit : (runtimeConfig C).karmaUnit.val = 1000000 := rfl
  have hmax : 1000000 * 4294967295 ≤ maxBalance := by decide
  rw [voteWeight_val, ballotWeight, hdeposit, hsame, hunit]
  omega

theorem solo_participation_val (hfits : (s.deposits g.who).val + g.stake.val ≤ maxBalance) :
    (g.voted s l next).participation.val =
      min ((s.deposits g.who).val + g.stake.val + 1000000 * (s.karma g.who).val + 1)
        maxBalance := by
  have hfor : (g.voted s l next).forVotes.val =
      min (0 + ((voteWeight (g.proposed s l next) g.who).val + 1)) maxBalance :=
    BoundedNat.saturatingAdd_saturatingAdd_val _ _ _
  have hagainst : (g.voted s l next).againstVotes.val = 0 := rfl
  rw [participation_val, hfor, hagainst, solo_weight_val hfits]
  omega

/-- The quorum asks for the stake of the others only: the deposit of the block counts on both
sides. -/
theorem solo_quorum_iff (hfits : (s.deposits g.who).val + g.stake.val ≤ maxBalance)
    (htotal : s.totalStake.val + g.stake.val ≤ maxBalance) :
    (runtimeConfig C).quorum.mulFloor (s.totalStake.saturatingAdd g.stake) ≤
        (g.voted s l next).participation ↔
      s.totalStake.val ≤ (s.deposits g.who).val + 1000000 * (s.karma g.who).val + 1 := by
  -- a quorum of one hundred percent
  have hquorum : (runtimeConfig C).quorum.mulFloor (s.totalStake.saturatingAdd g.stake) =
      s.totalStake.saturatingAdd g.stake := Permill.mulFloor_of_parts daoQuorum_parts _
  rw [hquorum, BoundedNat.le_iff, BoundedNat.saturatingAdd_val_of_le htotal,
    solo_participation_val hfits]
  omega

omit [DecidableEq AccountId] in
theorem solo_before_end_iff (hmin : 10 ≤ g.duration.val) :
    s.blockNumber < s.blockNumber.saturatingAdd g.duration ↔ s.blockNumber.val ≠ maxU32 := by
  have hblock : s.blockNumber.val ≤ maxU32 := s.blockNumber.le_max
  show s.blockNumber.val < min (s.blockNumber.val + g.duration.val) maxU32 ↔ _
  omega

theorem solo_weight_iff (hfits : (s.deposits g.who).val + g.stake.val ≤ maxBalance) :
    voteWeight (g.proposed s l next) g.who ≠ 0 ↔
      0 < (s.deposits g.who).val + g.stake.val + 1000000 * (s.karma g.who).val := by
  have hmax : 0 < maxBalance := by decide
  rw [Ne, BoundedNat.eq_zero_iff, solo_weight_val hfits]
  omega

/-- The needs of the five calls, in numbers. -/
theorem solo_needs_iff (hC : C.Lawful) (hI : C.IssuanceBounded) {book : Book AccountId}
    (h : HoldsTotal s book) : (∃ l next, g.Needs s l next) ↔ g.Possible s := by
  have hrange := s.nextProposalId.le_max
  constructor
  · rintro ⟨l, next, hneeds⟩
    have hfits := h.toHoldsStakes.deposit_fits hC hneeds.reserve
    have htotal := h.deposit_fits hC hI hneeds.reserve
    have hnext := BoundedNat.checkedAdd_eq_some_iff.1 hneeds.successor
    have hone : (BoundedNat.clamp 4294967295 1).val = 1 := rfl
    refine ⟨⟨⟨l, hneeds.reserve⟩, hneeds.min_duration, hneeds.max_duration, ?_,
      (solo_before_end_iff hneeds.min_duration).1 hneeds.before_end, hneeds.coins, hneeds.balance⟩,
      (solo_weight_iff hfits).1 hneeds.weight, (solo_quorum_iff hfits htotal).1 hneeds.quorum⟩
    -- a successor exists only below the maximum
    have hbound := next.le_max
    unfold maxU32
    omega
  · intro hpossible
    obtain ⟨l, hreserve⟩ := hpossible.reservable
    have hfits := h.toHoldsStakes.deposit_fits hC hreserve
    have htotal := h.deposit_fits hC hI hreserve
    have hroom : s.nextProposalId.val + 1 ≤ 4294967295 := by
      have hleft := hpossible.id_left
      unfold maxU32 at hleft
      omega
    exact ⟨l, ⟨s.nextProposalId.val + 1, hroom⟩, hreserve, hpossible.min_duration,
      hpossible.max_duration, BoundedNat.checkedAdd_eq_some_iff.2 rfl,
      (solo_weight_iff hfits).2 hpossible.weight,
      (solo_before_end_iff hpossible.min_duration).2 hpossible.block_left,
      (solo_quorum_iff hfits htotal).2 hpossible.others, hpossible.coins, hpossible.balance⟩

/-- What the five calls leave: the swap is executed, and the stake is what it was before. -/
structure Solo.Done (g : Solo (runtimeConfig C)) (s s' : State (runtimeConfig C)) : Prop where
  approved : statusOf s' s.nextProposalId = some .approved
  vault : s'.vault = (s.swapped s.nextProposalId g.swap).vault
  karma : s'.karma g.who = (s.karma g.who).saturatingAdd (.clamp _ 1)
  stake : stakeView g.who s' = stakeView g.who s
  total : s'.totalStake = s.totalStake

theorem solo_done (hC : C.Lawful) (hI : C.IssuanceBounded) {book : Book AccountId}
    (h : HoldsTotal s book) (hneeds : g.Needs s l next) :
    g.Done s ((g.approved s l next).removeStake g.who g.stake) := by
  have hfits := h.toHoldsStakes.deposit_fits hC hneeds.reserve
  have htotal := h.deposit_fits hC hI hneeds.reserve
  have hfree := hC.reserve_free hneeds.reserve
  have hreserved := hC.reserve_reserved hneeds.reserve
  have hcovered : min g.stake.val (C.reservedBalance l g.who).val = g.stake.val :=
    Nat.min_eq_left (by rw [hreserved]; exact Nat.le_add_left _ _)
  -- the deposit of the block is taken back from the stake, the ledger and the total
  refine ⟨statusOf_approve _ _ _ g.swap, rfl, Function.update_self _ _ _, stakeView_eq ?_ ?_ ?_, ?_⟩
  · apply BoundedNat.ext
    show (Function.update (Function.update s.deposits g.who _) g.who _ g.who).val = _
    rw [Function.update_self]
    show (Function.update s.deposits g.who _ g.who).val - g.stake.val = _
    rw [Function.update_self, BoundedNat.saturatingAdd_val_of_le hfits]
    exact Nat.add_sub_cancel _ _
  · apply BoundedNat.ext
    show (C.freeBalance (C.unreserve l g.who g.stake).2 g.who).val = _
    rw [hC.unreserve_free, hcovered]
    exact hfree
  · apply BoundedNat.ext
    show (C.reservedBalance (C.unreserve l g.who g.stake).2 g.who).val = _
    rw [hC.unreserve_reserved, hcovered, hreserved]
    exact Nat.add_sub_cancel _ _
  · apply BoundedNat.ext
    show (s.totalStake.saturatingAdd g.stake).val - g.stake.val = _
    rw [BoundedNat.saturatingAdd_val_of_le htotal]
    exact Nat.add_sub_cancel _ _

/-- Nothing was clipped, so the stake after the five calls but the last covers the withdrawal. -/
theorem Solo.Needs.covered (hC : C.Lawful) {book : Book AccountId} (h : HoldsTotal s book)
    (hneeds : g.Needs s l next) : g.stake ≤ (g.approved s l next).deposits g.who := by
  have hfits := h.toHoldsStakes.deposit_fits hC hneeds.reserve
  show g.stake.val ≤ (Function.update s.deposits g.who _ g.who).val
  rw [Function.update_self, BoundedNat.saturatingAdd_val_of_le hfits]
  exact Nat.le_add_left _ _

/-- The five calls succeed exactly if they are possible. -/
theorem solo_accepted_iff (hC : C.Lawful) (hI : C.IssuanceBounded) {book : Book AccountId}
    (h : HoldsTotal s book) (hstore : StoreInv s) :
    AllAccepted s (g.ops s) ↔ g.Possible s := by
  rw [← solo_needs_iff hC hI h]
  constructor
  · exact Solo.needs_of_accepted
  · rintro ⟨l, next, hneeds⟩
    exact (hneeds.accepted hstore (hneeds.covered hC h)).1

theorem done_of_possible (hC : C.Lawful) (hI : C.IssuanceBounded) {book : Book AccountId}
    (h : HoldsTotal s book) (hstore : StoreInv s) (hpossible : g.Possible s) :
    g.Done s (run s (g.ops s)) := by
  obtain ⟨l, next, hneeds⟩ := (solo_needs_iff hC hI h).2 hpossible
  rw [(hneeds.accepted hstore (hneeds.covered hC h)).2]
  exact solo_done hC hI h hneeds

/-- **When one account decides alone, in one block.** In every reachable state of the runtime, over
any lawful currency, the five calls of an account all succeed if and only if the currency reserves
its deposit, the duration, the coins and the vault allow the proposal, an id and a block are left,
its vote has some weight, and the others have staked at most its karma weight and one. The swap is
then executed, and the account has its stake and its balances as before. -/
theorem solo_governance_iff (hC : C.Lawful) (hI : C.IssuanceBounded) (l : C.Ledger)
    (hzero : ∀ a, C.reservedBalance l a = 0) (ops : List (Op (runtimeConfig C)))
    (g : Solo (runtimeConfig C)) :
    let s := run (genesis (runtimeConfig C) l) ops
    (AllAccepted s (g.ops s) ↔ g.Possible s) ∧
      (g.Possible s → g.Done s (run s (g.ops s))) := by
  intro s
  obtain ⟨book, hbook⟩ := holdsTotal_run (T := runtimeConfig C) hC hI hzero ops
  have hstore : StoreInv s := storeInv_reached l ops
  exact ⟨solo_accepted_iff hC hI hbook hstore, done_of_possible hC hI hbook hstore⟩

/-- Alice seeds the vault and empties it into another coin in one block, with one unit of stake. -/
theorem solo_governance_iff_alice :
    let s := run developmentGenesis [.block (.clamp _ 1),
      .call (.signed .alice) (.seedVault .dot (.clamp _ 5))]
    let g : Solo DevConfig :=
      ⟨.alice, .clamp _ 1, ⟨[], by decide⟩, ⟨[], by decide⟩, .clamp _ 10,
        ⟨.dot, .kusama, .clamp _ 5⟩⟩
    AllAccepted s (g.ops s) ∧ g.Done s (run s (g.ops s)) := by
  intro s g
  obtain ⟨hiff, hdone⟩ := solo_governance_iff PlainLedger.currency_lawful
    PlainLedger.currency_issuanceBounded developmentGenesis.ledger (fun _ => rfl)
    [.block (.clamp _ 1), .call (.signed .alice) (.seedVault .dot (.clamp _ 5))] g
  have hpossible : g.Possible s :=
    ⟨⟨⟨_, rfl⟩, by decide, by decide, by decide, by decide, by decide, by decide⟩, by decide,
      by decide⟩
  exact ⟨hiff.2 hpossible, hdone hpossible⟩

end Runtime

end MulticoinTreasury
