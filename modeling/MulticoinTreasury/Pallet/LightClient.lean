import MulticoinTreasury.Pallet.BlockEvents
import MulticoinTreasury.Pallet.Lifecycle
import MulticoinTreasury.Runtime.Config

/-!
# Which event logs the chain can produce

A light client sees the events and nothing else: no calls, no texts, no periods, no balances. It
reads the log as the receipts of accepted calls and checks each receipt against the storage it has
rebuilt so far, with the conditions of the calls that the events still show. No run over a lawful
currency produces a log that the client refuses. And without knowing the currency this is all there
is to check: what the client accepts is the log of a run over some lawful currency. What it does not
see can be made up there: the swap of a proposal is the one it is later approved with, all calls
come in the first block, and a stake is paid for by a transfer. A currency with rules of its own,
such as an existential deposit, produces only some of these logs.
-/

set_option autoImplicit false

namespace MulticoinTreasury

variable {AccountId : Type}

/-- What an accepted call leaves in the log. -/
inductive Receipt (AccountId : Type) where
  | created (id : ProposalId) (author : AccountId)
  | voted (id : ProposalId) (voter : AccountId) (vote : VoteKind)
  | rejected (id : ProposalId)
  | approved (id : ProposalId) (swap : Swap)
  | deposited (who : AccountId) (amount : Balance)
  | withdrawn (who : AccountId) (amount : Balance)
  | seeded (coin : Coin) (amount : U128)

def Receipt.events : Receipt AccountId → List (Event AccountId)
  | .created id author => [.proposalCreated id author]
  | .voted id voter vote => [.proposalVoted id voter vote]
  | .rejected id => [.proposalFinalized id .rejected]
  | .approved id swap =>
      [.swapExecuted swap.fromCoin swap.toCoin swap.amount id, .proposalFinalized id .approved]
  | .deposited who amount => [.deposited who amount]
  | .withdrawn who amount => [.withdrawn who amount]
  | .seeded coin amount => [.vaultSeeded coin amount]

/-- A log read as receipts: an executed swap has to be followed by its approval. -/
def readReceipts : List (Event AccountId) → Option (List (Receipt AccountId))
  | [] => some []
  | .swapExecuted fromCoin toCoin amount i :: .proposalFinalized j .approved :: log =>
      if i = j then (readReceipts log).map (.approved i ⟨fromCoin, toCoin, amount⟩ :: ·) else none
  | .proposalCreated id author :: log => (readReceipts log).map (.created id author :: ·)
  | .proposalVoted id voter vote :: log => (readReceipts log).map (.voted id voter vote :: ·)
  | .proposalFinalized id .rejected :: log => (readReceipts log).map (.rejected id :: ·)
  | .deposited who amount :: log => (readReceipts log).map (.deposited who amount :: ·)
  | .withdrawn who amount :: log => (readReceipts log).map (.withdrawn who amount :: ·)
  | .vaultSeeded coin amount :: log => (readReceipts log).map (.seeded coin amount :: ·)
  | _ => none

/-- A log is read as the receipts whose events it lists. -/
theorem readReceipts_eq_some_iff {log : List (Event AccountId)}
    {receipts : List (Receipt AccountId)} :
    readReceipts log = some receipts ↔ log = receipts.flatMap Receipt.events := by
  constructor
  · intro h
    -- along the clauses of the reader: one receipt less, or no reading
    fun_induction readReceipts log generalizing receipts with
    | case1 =>
      cases h
      rfl
    | case2 log fromCoin toCoin amount i ih | case4 id author log ih | case5 id voter vote log ih
    | case6 id log ih | case7 who amount log ih | case8 who amount log ih
    | case9 coin amount log ih =>
      obtain ⟨rest, hrest, rfl⟩ := Option.map_eq_some_iff.1 h
      rw [List.flatMap_cons, ← ih hrest]
      rfl
    | case3 | case10 => cases h
  · rintro rfl
    -- reading what was written, receipt by receipt
    induction receipts with
    | nil => rfl
    | cons receipt receipts ih =>
      rw [List.flatMap_cons]
      cases receipt <;> simp [Receipt.events, readReceipts, ih]

def ProposalSummary.participation (p : ProposalSummary AccountId) : Balance :=
  p.forVotes.saturatingAdd p.againstVotes

variable [DecidableEq AccountId]

/-- The conditions that a receipt shows, checked against the rebuilt storage. -/
def Replica.admits (T : Config AccountId) (r : Replica AccountId) : Receipt AccountId → Bool
  | .created id _ => id = r.nextProposalId ∧ id.val < maxU32
  | .voted id voter _ =>
      (r.proposals id).any fun p => p.status = .active ∧ r.hasVoted id voter = false ∧
        r.voteWeight T.karmaUnit voter ≠ 0
  | .rejected id =>
      (r.proposals id).any fun p => p.status = .active ∧
        T.quorum.mulFloor r.totalStake ≤ p.participation ∧
        ¬ T.approvalOfQuorum.mulFloor p.participation ≤ p.forVotes
  | .approved id swap =>
      (r.proposals id).any fun p => p.status = .active ∧
        T.quorum.mulFloor r.totalStake ≤ p.participation ∧
        T.approvalOfQuorum.mulFloor p.participation ≤ p.forVotes ∧
        swap.fromCoin ≠ swap.toCoin ∧ swap.amount ≤ r.vault swap.fromCoin
  | .deposited _ amount => r.totalStake.val + amount.val ≤ maxBalance
  | .withdrawn who amount => amount ≤ r.deposits who
  | .seeded _ _ => true

/-- The storage after a receipt. -/
def Replica.after (T : Config AccountId) (r : Replica AccountId) (receipt : Receipt AccountId) :
    Replica AccountId :=
  receipt.events.foldl (indexer AccountId T.karmaUnit).apply r

/-- Receipt by receipt, each is admitted by the storage after those before it. -/
def Replica.admitsAll (T : Config AccountId) : Replica AccountId → List (Receipt AccountId) → Bool
  | _, [] => true
  | r, receipt :: receipts => r.admits T receipt && (r.after T receipt).admitsAll T receipts

/-- What the light client answers to a log; it does not ask the currency. -/
def lightClient (T : Config AccountId) (log : List (Event AccountId)) : Bool :=
  match readReceipts log with
  | some receipts => (indexer AccountId T.karmaUnit).start.admitsAll T receipts
  | none => false

/-- The configuration with another currency. -/
def Config.withCurrency (T : Config AccountId) (C : Currency AccountId) : Config AccountId :=
  { T with currency := C }

theorem Replica.admitsAll_withCurrency {T : Config AccountId} (C : Currency AccountId)
    (r : Replica AccountId) (receipts : List (Receipt AccountId)) :
    r.admitsAll (T.withCurrency C) receipts = r.admitsAll T receipts := by
  induction receipts generalizing r with
  | nil => rfl
  | cons receipt receipts ih =>
    have hone : r.admits (T.withCurrency C) receipt = r.admits T receipt := by
      cases receipt <;> rfl
    have hafter : r.after (T.withCurrency C) receipt = r.after T receipt := rfl
    rw [Replica.admitsAll, Replica.admitsAll, hone, hafter, ih]

/-- The client answers the same whatever the currency is. -/
theorem lightClient_withCurrency {T : Config AccountId} (C : Currency AccountId)
    (log : List (Event AccountId)) : lightClient (T.withCurrency C) log = lightClient T log := by
  unfold lightClient
  cases readReceipts log with
  | none => rfl
  | some receipts => exact Replica.admitsAll_withCurrency C _ receipts

/-! ## Every log of a run is accepted -/

section Completeness

variable {T : Config AccountId}

/-- An accepted call leaves a receipt that the light client admits. -/
theorem receipt_of_accepted (hC : T.currency.Lawful) (hI : T.currency.IssuanceBounded)
    {s s' : State T} {book : Book AccountId} (hbook : HoldsTotal s book)
    {origin : Origin AccountId} {call : Call T} (ha : Accepted s origin call s')
    (hblock : s.blockNumber ≠ 0) :
    ∃ receipt, s'.events = s.events ++ receipt.events ∧
      s.replica.admits T receipt = true ∧ s.replica.after T receipt = s'.replica := by
  have hrecord := record_eq_append hblock
  cases ha with
  | @createProposal who title description duration action next hmin hmax hnext =>
    have hval : next.val = s.nextProposalId.val + 1 := BoundedNat.checkedAdd_eq_some_iff.1 hnext
    -- the successor that the call found is in range
    have hlast : s.nextProposalId.val < maxU32 := by
      rw [Nat.lt_iff_add_one_le, ← hval]
      exact next.le_max
    exact ⟨.created s.nextProposalId who, hrecord _, decide_eq_true ⟨rfl, hlast⟩,
      applyEvent_created (p := newProposal s who title description duration action) hnext rfl rfl
        rfl⟩
  | @voteProposal who id vote p hp hactive hopen hfresh hweight =>
    refine ⟨.voted id who vote, hrecord _, ?_, applyEvent_voted who vote hp⟩
    rw [Replica.admits, replica_proposals_of_stored hp]
    exact decide_eq_true ⟨hactive, hfresh, hweight⟩
  | @finalizeRejected who id p hp hactive hopen hquorum hfor =>
    refine ⟨.rejected id, hrecord _, ?_, applyEvent_rejected hp⟩
    rw [Replica.admits, replica_proposals_of_stored hp]
    exact decide_eq_true ⟨hactive, hquorum, hfor⟩
  | @finalizeApproved who id p swap hp hactive hopen hquorum hfor hswap hcoins hbalance =>
    refine ⟨.approved id swap, hrecord _, ?_, applyEvent_approved swap hp⟩
    rw [Replica.admits, replica_proposals_of_stored hp]
    exact decide_eq_true ⟨hactive, hquorum, hfor, hcoins, hbalance⟩
  | @deposit who amount l hreserve =>
    exact ⟨.deposited who amount, hrecord _,
      decide_eq_true (hbook.deposit_fits hC hI hreserve), rfl⟩
  | @withdraw who amount hstaked =>
    exact ⟨.withdrawn who amount, hrecord _, decide_eq_true hstaked, rfl⟩
  | @seedVault _ coin amount => exact ⟨.seeded coin amount, hrecord _, rfl, rfl⟩

/-- The events of a run can be read as receipts that are admitted one after the other. -/
theorem receipts_of_run (hC : T.currency.Lawful) (hI : T.currency.IssuanceBounded) {s : State T}
    {book : Book AccountId} (hbook : HoldsTotal s book) {ops : List (Op T)}
    (hcalls : CallsAfterGenesis (history s ops)) :
    ∃ receipts, (history s ops).flatMap emitted = receipts.flatMap Receipt.events ∧
      s.replica.admitsAll T receipts = true := by
  induction ops generalizing s book with
  | nil => exact ⟨[], rfl, rfl⟩
  | cons op ops ih =>
    have ht := step_transition s op
    have hlate := hcalls _ List.mem_cons_self
    obtain ⟨receipts, hlog, hadmits⟩ := ih (hbook.moved hC hI (stakeStep hC ht))
      fun e he => hcalls e (List.mem_cons_of_mem _ he)
    rw [history, Machine.trace_cons, List.flatMap_cons]
    -- an operation without events leaves no receipt and no trace in the replica
    rcases emitted_transition ht with ⟨hnone, hsame⟩ | ⟨origin, call, rfl, ha⟩
    · refine ⟨receipts, ?_, ?_⟩
      · rw [← hlog, show emitted (Machine.entry step s op) = [] from hnone]
        rfl
      · rw [← hsame]
        exact hadmits
    · obtain ⟨receipt, hevents, hchecked, hafter⟩ :=
        receipt_of_accepted hC hI hbook ha (hlate origin call rfl)
      refine ⟨receipt :: receipts, ?_, ?_⟩
      · rw [List.flatMap_cons, ← hlog]
        congr 1
        exact emitted_of_append hevents
      · rw [Replica.admitsAll, hchecked, hafter]
        exact hadmits

end Completeness

/-! ## Every accepted log is the log of a run -/

section Soundness

/-- The configuration with a plain ledger, on which runs are made up. -/
abbrev Config.plain (T : Config AccountId) : Config AccountId :=
  T.withCurrency (PlainLedger.currency AccountId)

/-- A duration that leaves a block for the finalization. -/
structure Config.Allows (T : Config AccountId) (duration : U32) : Prop where
  min_duration : T.minProposalDuration ≤ duration
  max_duration : duration ≤ T.maxProposalDuration
  pos : 0 < duration.val

variable {T : Config AccountId}

/-- The swap that a proposal is approved with in the receipts to come. -/
def swapOf (id : ProposalId) : List (Receipt AccountId) → Swap
  | [] => ⟨.dot, .kusama, .clamp _ 0⟩
  | .approved i swap :: receipts => if i = id then swap else swapOf id receipts
  | _ :: receipts => swapOf id receipts

/-- A state in the first block from which the receipts can be produced: all voting periods are
open, the proposals have the swaps they will be approved with, and `bank` holds all that is not at
stake. -/
structure Prepared (bank : AccountId) (s : State T.plain)
    (receipts : List (Receipt AccountId)) : Prop where
  block : s.blockNumber = .clamp _ 1
  store : StoreInv s
  open_all : ∀ id p, s.proposals id = some p → s.blockNumber < p.endBlock
  actions : ∀ id p, s.proposals id = some p → p.status = .active →
    p.action = .swap (swapOf id receipts)
  holds : ∃ book, HoldsTotal s book
  funds : PlainLedger.free s.ledger bank + s.totalStake.val = maxBalance

variable {bank : AccountId} {duration : U32} {s : State T.plain}
  {receipts : List (Receipt AccountId)}

/-- The operations that produce a receipt: a stake is paid for by the bank and returned to it. -/
def Receipt.ops (T : Config AccountId) (bank : AccountId) (duration : U32)
    (receipts : List (Receipt AccountId)) : Receipt AccountId → List (Op T.plain)
  | .created id author => [.call (.signed author) (.createProposal ⟨[], Nat.zero_le _⟩
      ⟨[], Nat.zero_le _⟩ duration (.swap (swapOf id receipts)))]
  | .voted id voter vote => [.call (.signed voter) (.voteProposal id vote)]
  | .rejected id => [.call (.signed bank) (.finalizeProposal id)]
  | .approved id _ => [.call (.signed bank) (.finalizeProposal id)]
  | .deposited who amount => [.currency (.transfer bank who amount.val),
      .call (.signed who) (.deposit amount)]
  | .withdrawn who amount => [.call (.signed who) (.withdraw amount),
      .currency (.transfer who bank amount.val)]
  | .seeded coin amount => [.call (.signed bank) (.seedVault coin amount)]

/-- What the operations of a receipt have to do. -/
structure Produces (bank : AccountId) (duration : U32) (s : State T.plain)
    (receipt : Receipt AccountId) (receipts : List (Receipt AccountId)) : Prop where
  events : (run s (receipt.ops T bank duration receipts)).events = s.events ++ receipt.events
  replica : (run s (receipt.ops T bank duration receipts)).replica =
    s.replica.after T.plain receipt
  prepared : Prepared bank (run s (receipt.ops T bank duration receipts)) receipts

/-- The stakes of a state reached from a prepared one are reserved, and `TotalStake` is their
sum. -/
theorem Prepared.holds_run (h : Prepared bank s receipts)
    (ops : List (Op T.plain)) : ∃ book, HoldsTotal (run s ops) book := by
  obtain ⟨book, hbook⟩ := h.holds
  exact hbook.run PlainLedger.currency_lawful PlainLedger.currency_issuanceBounded ops

theorem Prepared.blockNumber_ne (h : Prepared bank s receipts) : s.blockNumber ≠ 0 := by
  rw [h.block]
  decide

theorem Prepared.holds_accepted (h : Prepared bank s receipts)
    {s' : State T.plain} {origin : Origin AccountId}
    {call : Call T.plain} (ha : Accepted s origin call s') :
    ∃ book, HoldsTotal s' book := by
  obtain ⟨book, hbook⟩ := h.holds
  exact ⟨_, hbook.moved PlainLedger.currency_lawful PlainLedger.currency_issuanceBounded
    (stakeStep PlainLedger.currency_lawful (.accepted ha))⟩

theorem run_call {s s' : State T.plain} {origin : Origin AccountId}
    {call : Call T.plain} (ha : Accepted s origin call s') :
    run s [.call origin call] = s' := by
  rw [run, Machine.run_cons, step_call_of_accepted ha]
  rfl

/-- A stored proposal behind the summary that a receipt was checked against. -/
theorem stored_of_any {id : ProposalId} {P : ProposalSummary AccountId → Bool}
    (h : (s.replica.proposals id).any P = true) :
    ∃ p, s.proposals id = some p ∧ P p.summary = true := by
  obtain ⟨sum, hsum, hP⟩ := (Option.any_eq_true _ _).1 h
  obtain ⟨p, hp, rfl⟩ := Option.map_eq_some_iff.1 hsum
  exact ⟨p, hp, hP⟩

variable {s' : State T.plain} {all : List (Receipt AccountId)}

/-- Writing a proposal keeps a state prepared. -/
theorem Prepared.written (h : Prepared bank s all) {id : ProposalId}
    {q : Proposal T.plain} (hstore : StoreInv s')
    (hholds : ∃ book, HoldsTotal s' book)
    (hproposals : s'.proposals = Function.update s.proposals id (some q))
    (hblock : s'.blockNumber = s.blockNumber) (hledger : s'.ledger = s.ledger)
    (htotal : s'.totalStake = s.totalStake) (hopen : s.blockNumber < q.endBlock)
    (haction : q.status = .active → q.action = .swap (swapOf id receipts))
    (hothers : ∀ j, j ≠ id → swapOf j all = swapOf j receipts) : Prepared bank s' receipts := by
  refine ⟨hblock.trans h.block, hstore, ?_, ?_, hholds, ?_⟩
  · intro j p hp
    rw [hproposals] at hp
    rw [hblock]
    -- the written proposal or an old one
    rcases PointUpdate.update_eq_some hp with ⟨-, rfl⟩ | ⟨-, hold⟩
    · exact hopen
    · exact h.open_all j p hold
  · intro j p hp hactive
    rw [hproposals] at hp
    rcases PointUpdate.update_eq_some hp with ⟨rfl, rfl⟩ | ⟨hj, hold⟩
    · exact haction hactive
    · rw [← hothers j hj]
      exact h.actions j p hold hactive
  · rw [hledger, htotal]
    exact h.funds

/-- An operation that writes no proposal keeps a state prepared if its ledger is in order. -/
theorem Prepared.kept (h : Prepared bank s all) (hstore : StoreInv s')
    (hproposals : s'.proposals = s.proposals) (hblock : s'.blockNumber = s.blockNumber)
    (hholds : ∃ book, HoldsTotal s' book)
    (hfunds : PlainLedger.free s'.ledger bank + s'.totalStake.val = maxBalance)
    (hothers : ∀ j, swapOf j all = swapOf j receipts) : Prepared bank s' receipts := by
  refine ⟨hblock.trans h.block, hstore, ?_, ?_, hholds, hfunds⟩
  · rw [hproposals, hblock]
    exact h.open_all
  · intro j p hp hactive
    rw [hproposals] at hp
    rw [← hothers]
    exact h.actions j p hp hactive

/-- A receipt that one call produces. -/
theorem produces_of_call {receipt : Receipt AccountId} {origin : Origin AccountId}
    {call : Call T.plain} (hops : receipt.ops T bank duration receipts = [.call origin call])
    (ha : Accepted s origin call s') (hblock : s.blockNumber ≠ 0)
    (hevents : s'.events = s.record receipt.events)
    (hreplica : s.replica.after T.plain receipt = s'.replica)
    (hprepared : Prepared bank s' receipts) : Produces bank duration s receipt receipts := by
  have hrun : run s (receipt.ops T bank duration receipts) = s' := by
    rw [hops]
    exact run_call ha
  constructor
  · rw [hrun, hevents]
    exact record_eq_append hblock _
  · rw [hrun, hreplica]
  · rw [hrun]
    exact hprepared

theorem produces_created (hduration : T.Allows duration) {id : ProposalId} {author : AccountId}
    (h : Prepared bank s (.created id author :: receipts))
    (hchecked : s.replica.admits T.plain (.created id author) = true) :
    Produces bank duration s (.created id author) receipts := by
  obtain ⟨hid, hlast⟩ := of_decide_eq_true hchecked
  have hid' : id = s.nextProposalId := hid
  subst hid'
  -- the client has seen that there is a next id
  have hnext : s.nextProposalId.checkedAdd (.clamp _ 1) =
      some ⟨s.nextProposalId.val + 1, hlast⟩ := BoundedNat.checkedAdd_eq_some_iff.2 rfl
  let p : Proposal T.plain := newProposal s author ⟨[], Nat.zero_le _⟩
    ⟨[], Nat.zero_le _⟩ duration (.swap (swapOf s.nextProposalId receipts))
  have ha : Accepted s (.signed author) (.createProposal ⟨[], Nat.zero_le _⟩ ⟨[], Nat.zero_le _⟩
      duration (.swap (swapOf s.nextProposalId receipts))) (s.insertProposal p _) :=
    .createProposal hduration.min_duration hduration.max_duration hnext
  refine produces_of_call rfl ha h.blockNumber_ne rfl
    (applyEvent_created (p := p) hnext rfl rfl rfl) ?_
  refine h.written (h.store.accepted ha) (h.holds_accepted ha) rfl rfl rfl rfl ?_
    (fun _ => rfl) fun _ _ => rfl
  -- the first block is before the end
  have hpos := hduration.pos
  show s.blockNumber.val < min (s.blockNumber.val + duration.val) 4294967295
  rw [h.block]
  show 1 < min (1 + duration.val) 4294967295
  omega

theorem produces_voted {id : ProposalId} {voter : AccountId} {vote : VoteKind}
    (h : Prepared bank s (.voted id voter vote :: receipts))
    (hchecked : s.replica.admits T.plain (.voted id voter vote) = true) :
    Produces bank duration s (.voted id voter vote) receipts := by
  obtain ⟨p, hp, hchecks⟩ := stored_of_any hchecked
  obtain ⟨hactive, hfresh, hweight⟩ := of_decide_eq_true hchecks
  have ha : Accepted s (.signed voter) (.voteProposal id vote) (s.castVote id p voter vote) :=
    .voteProposal hp hactive (Nat.le_of_lt (h.open_all id p hp)) hfresh hweight
  refine produces_of_call rfl ha h.blockNumber_ne rfl (applyEvent_voted voter vote hp) ?_
  refine h.written (h.store.accepted ha) (h.holds_accepted ha) rfl rfl rfl rfl ?_
    (fun _ => ?_) fun _ _ => rfl
  · rw [addVote_endBlock]
    exact h.open_all id p hp
  · rw [(later_addVote p vote _).action_eq]
    exact h.actions id p hp hactive

theorem produces_rejected {id : ProposalId} (h : Prepared bank s (.rejected id :: receipts))
    (hchecked : s.replica.admits T.plain (.rejected id) = true) :
    Produces bank duration s (.rejected id) receipts := by
  obtain ⟨p, hp, hchecks⟩ := stored_of_any hchecked
  obtain ⟨hactive, hquorum, hfor⟩ := of_decide_eq_true hchecks
  have ha : Accepted s (.signed bank) (.finalizeProposal id) (s.reject id p) :=
    .finalizeRejected hp hactive (h.open_all id p hp) hquorum hfor
  refine produces_of_call rfl ha h.blockNumber_ne rfl (applyEvent_rejected hp) ?_
  refine h.written (h.store.accepted ha) (h.holds_accepted ha) rfl rfl rfl rfl ?_
    (fun hactive' => ?_) fun _ _ => rfl
  · exact h.open_all id p hp
  · cases hactive'

theorem produces_approved {id : ProposalId} {swap : Swap}
    (h : Prepared bank s (.approved id swap :: receipts))
    (hchecked : s.replica.admits T.plain (.approved id swap) = true) :
    Produces bank duration s (.approved id swap) receipts := by
  obtain ⟨p, hp, hchecks⟩ := stored_of_any hchecked
  obtain ⟨hactive, hquorum, hfor, hcoins, hbalance⟩ := of_decide_eq_true hchecks
  -- the proposal was created with the swap of its first approval to come
  have hswap : p.action = .swap swap := by
    rw [h.actions id p hp hactive, swapOf, if_pos rfl]
  have ha : Accepted s (.signed bank) (.finalizeProposal id) (s.approve id p swap) :=
    .finalizeApproved hp hactive (h.open_all id p hp) hquorum hfor hswap hcoins hbalance
  refine produces_of_call rfl ha h.blockNumber_ne rfl (applyEvent_approved swap hp) ?_
  refine h.written (h.store.accepted ha) (h.holds_accepted ha) rfl rfl rfl rfl ?_
    (fun hactive' => ?_) fun j hj => ?_
  · exact h.open_all id p hp
  · cases hactive'
  · rw [swapOf, if_neg (Ne.symm hj)]

theorem produces_seeded {coin : Coin} {amount : U128}
    (h : Prepared bank s (.seeded coin amount :: receipts)) :
    Produces bank duration s (.seeded coin amount) receipts := by
  have ha : Accepted s (.signed bank) (.seedVault coin amount) (s.addToVault coin amount) :=
    .seedVault
  refine produces_of_call rfl ha h.blockNumber_ne rfl rfl ?_
  exact h.kept (h.store.accepted ha) rfl rfl (h.holds_accepted ha) h.funds fun _ => rfl

theorem free_transfer {l : PlainLedger AccountId} {a b : AccountId} {x : ℕ} (hab : a ≠ b)
    (hx : x ≤ l.free a) : (PlainLedger.other (.transfer a b x) l).free =
      Function.update (Function.update l.free a (l.free a - x)) b (l.free b + x) := by
  rw [PlainLedger.other, dif_pos ⟨hab, hx⟩]

theorem transfer_self (l : PlainLedger AccountId) (a : AccountId) (x : ℕ) :
    PlainLedger.other (.transfer a a x) l = l :=
  dif_neg fun h => h.1 rfl

/-- What the bank lends covers a deposit, and the bank has given no more than that. -/
theorem lend {l : PlainLedger AccountId} (who : AccountId) {x : ℕ} (hx : x ≤ l.free bank) :
    x ≤ (PlainLedger.other (.transfer bank who x) l).free who ∧
      Function.update (PlainLedger.other (.transfer bank who x) l).free who
        ((PlainLedger.other (.transfer bank who x) l).free who - x) bank = l.free bank - x := by
  by_cases hwho : bank = who
  · subst hwho
    rw [transfer_self, Function.update_self]
    exact ⟨hx, rfl⟩
  · rw [free_transfer hwho hx, Function.update_self, Function.update_of_ne hwho,
      Function.update_of_ne hwho, Function.update_self]
    exact ⟨Nat.le_add_left _ _, rfl⟩

/-- What was unreserved goes back to the bank. -/
theorem payBack (bank : AccountId) {l : PlainLedger AccountId} {who : AccountId} {x : Balance}
    (hx : x.val ≤ l.reserved who) :
    (PlainLedger.other (.transfer who bank x.val) (PlainLedger.unreserve l who x).2).free bank =
      l.free bank + x.val := by
  have hfree : (PlainLedger.unreserve l who x).2.free =
      Function.update l.free who (l.free who + x.val) := by
    show Function.update l.free who (l.free who + min x.val (l.reserved who)) = _
    rw [Nat.min_eq_left hx]
  by_cases hwho : who = bank
  · subst hwho
    rw [transfer_self, hfree, Function.update_self]
  · have hcovered : x.val ≤ (PlainLedger.unreserve l who x).2.free who := by
      rw [hfree, Function.update_self]
      exact Nat.le_add_left _ _
    rw [free_transfer hwho hcovered, Function.update_self, hfree,
      Function.update_of_ne (Ne.symm hwho)]

theorem produces_deposited {who : AccountId} {amount : Balance}
    (h : Prepared bank s (.deposited who amount :: receipts))
    (hchecked : s.replica.admits T.plain (.deposited who amount) = true) :
    Produces bank duration s (.deposited who amount) receipts := by
  have hfits : s.totalStake.val + amount.val ≤ maxBalance := of_decide_eq_true hchecked
  have hfunds := h.funds
  have hcovered : amount.val ≤ PlainLedger.free s.ledger bank := by omega
  -- what is not at stake is in the bank, and the total has room
  obtain ⟨hlent, hbank⟩ := lend who hcovered
  let lent : State T.plain := s.afterOther (.transfer bank who amount.val)
  obtain ⟨l, hreserve⟩ : ∃ l, PlainLedger.reserve lent.ledger who amount = .ok l :=
    PlainLedger.exists_reserve hlent
  have ha : Accepted lent (.signed who) (.deposit amount) (lent.addStake who amount l) :=
    .deposit hreserve
  have hrun : run s ((Receipt.deposited who amount).ops T bank duration receipts) =
      lent.addStake who amount l := run_call ha
  refine ⟨?_, ?_, ?_⟩
  · rw [hrun]
    exact record_eq_append (s := lent) h.blockNumber_ne _
  · rw [hrun]
    rfl
  · have hstore := storeInv_run h.store
      ((Receipt.deposited who amount).ops T bank duration receipts)
    have hholds := h.holds_run ((Receipt.deposited who amount).ops T bank duration receipts)
    rw [hrun] at hstore hholds ⊢
    -- the deposit went from the bank to the total stake
    refine h.kept hstore rfl rfl hholds ?_ fun _ => rfl
    obtain ⟨-, hfree, -⟩ := PlainLedger.reserve_eq_ok hreserve
    have hleft : l.free bank = s.ledger.free bank - amount.val :=
      (congrFun hfree bank).trans hbank
    show l.free bank + (s.totalStake.saturatingAdd amount).val = maxBalance
    rw [hleft, BoundedNat.saturatingAdd_val_of_le hfits]
    omega

theorem produces_withdrawn {who : AccountId} {amount : Balance}
    (h : Prepared bank s (.withdrawn who amount :: receipts))
    (hchecked : s.replica.admits T.plain (.withdrawn who amount) = true) :
    Produces bank duration s (.withdrawn who amount) receipts := by
  have hstaked : amount ≤ s.deposits who := of_decide_eq_true hchecked
  have hfunds := h.funds
  obtain ⟨book, hbook⟩ := h.holds
  -- stakes are reserved in full
  have hreserved : amount.val ≤ PlainLedger.reserved s.ledger who := by
    have heq : (s.deposits who).val = PlainLedger.reserved s.ledger who :=
      congrArg BoundedNat.val (hbook.deposits_eq who)
    rw [← heq]
    exact hstaked
  have htotal : amount.val ≤ s.totalStake.val := Nat.le_trans hstaked (hbook.stake_le_total who)
  have ha : Accepted s (.signed who) (.withdraw amount) (s.removeStake who amount) :=
    .withdraw hstaked
  have hrun : run s ((Receipt.withdrawn who amount).ops T bank duration receipts) =
      (s.removeStake who amount).afterOther (.transfer who bank amount.val) := by
    show run s [_, _] = _
    rw [run, Machine.run_cons, step_call_of_accepted ha]
    rfl
  refine ⟨?_, ?_, ?_⟩
  · rw [hrun]
    exact record_eq_append h.blockNumber_ne _
  · rw [hrun]
    rfl
  · have hstore := storeInv_run h.store
      ((Receipt.withdrawn who amount).ops T bank duration receipts)
    have hholds := h.holds_run ((Receipt.withdrawn who amount).ops T bank duration receipts)
    rw [hrun] at hstore hholds ⊢
    -- the withdrawal went from the total stake back to the bank
    refine h.kept hstore rfl rfl hholds ?_ fun _ => rfl
    have hback := payBack bank hreserved
    show (PlainLedger.other (.transfer who bank amount.val)
      (PlainLedger.unreserve s.ledger who amount).2).free bank +
        (s.totalStake.val - amount.val) = maxBalance
    rw [hback]
    omega

/-- **An admitted receipt can be produced.** -/
theorem produces (hduration : T.Allows duration) {receipt : Receipt AccountId}
    (h : Prepared bank s (receipt :: receipts))
    (hchecked : s.replica.admits T.plain receipt = true) :
    Produces bank duration s receipt receipts := by
  cases receipt with
  | created => exact produces_created hduration h hchecked
  | voted => exact produces_voted h hchecked
  | rejected => exact produces_rejected h hchecked
  | approved => exact produces_approved h hchecked
  | deposited => exact produces_deposited h hchecked
  | withdrawn => exact produces_withdrawn h hchecked
  | seeded => exact produces_seeded h

/-- Admitted receipts can be produced one after the other. -/
theorem exists_run_of_receipts (hduration : T.Allows duration) (h : Prepared bank s receipts)
    (hadmits : s.replica.admitsAll T.plain receipts = true) :
    ∃ ops, (run s ops).events = s.events ++ receipts.flatMap Receipt.events := by
  induction receipts generalizing s with
  | nil => exact ⟨[], (List.append_nil _).symm⟩
  | cons receipt receipts ih =>
    obtain ⟨hchecked, hrest⟩ := Bool.and_eq_true_iff.1 hadmits
    -- the first receipt is produced, and the next ones from the state after it
    have hproduces := produces hduration h hchecked
    rw [← hproduces.replica] at hrest
    obtain ⟨ops, hlog⟩ := ih hproduces.prepared hrest
    refine ⟨receipt.ops T bank duration receipts ++ ops, ?_⟩
    rw [run, Machine.run_append]
    exact hlog.trans (by rw [hproduces.events, List.flatMap_cons, List.append_assoc])

/-- All that there is in the hands of one account. -/
def bankLedger (bank : AccountId) : PlainLedger AccountId :=
  PlainLedger.genesis [(bank, maxBalance)] (Nat.le_refl _)

theorem prepared_start (bank : AccountId) (receipts : List (Receipt AccountId)) :
    Prepared bank (run (genesis T.plain (bankLedger bank)) [.block (.clamp _ 1)]) receipts where
  block := rfl
  store := storeInv_reached _ _
  open_all id p hp := by cases hp
  actions id p hp := by cases hp
  holds := holdsTotal_run PlainLedger.currency_lawful PlainLedger.currency_issuanceBounded
    (fun _ => rfl) _
  funds := by
    show endowment [(bank, maxBalance)] bank + 0 = maxBalance
    simp [endowment]

end Soundness

section Exactness

variable {T : Config AccountId}

/-- **No run has a log that the client refuses**, over any lawful currency. -/
theorem lightClient_of_run (hC : T.currency.Lawful) (hI : T.currency.IssuanceBounded)
    (l : T.currency.Ledger) (hzero : ∀ a, T.currency.reservedBalance l a = 0) (ops : List (Op T))
    (hcalls : CallsAfterGenesis (history (genesis T l) ops)) :
    lightClient T (run (genesis T l) ops).events = true := by
  obtain ⟨receipts, hlog, hadmits⟩ := receipts_of_run hC hI (holdsTotal_genesis hzero) hcalls
  have hevents : (run (genesis T l) ops).events = receipts.flatMap Receipt.events :=
    (events_run _ ops).trans hlog
  unfold lightClient
  rw [readReceipts_eq_some_iff.2 hevents]
  exact hadmits

/-- What the client accepts is the log of a run over a plain ledger. -/
theorem exists_run_of_lightClient {duration : U32} (hduration : T.Allows duration)
    (bank : AccountId) {log : List (Event AccountId)} (h : lightClient T.plain log = true) :
    ∃ ops, CallsAfterGenesis (history (genesis T.plain (bankLedger bank)) ops) ∧
      (run (genesis T.plain (bankLedger bank)) ops).events = log := by
  unfold lightClient at h
  cases hreceipts : readReceipts log with
  | none =>
    rw [hreceipts] at h
    cases h
  | some receipts =>
    rw [hreceipts] at h
    obtain ⟨ops, hlog⟩ := exists_run_of_receipts hduration (prepared_start bank receipts) h
    -- one bank owns everything, and block one is opened first
    refine ⟨.block (.clamp _ 1) :: ops, ?_, ?_⟩
    · exact callsAfterGenesis_block_cons (prepared_start bank receipts).blockNumber_ne ops
    · rw [readReceipts_eq_some_iff.1 hreceipts]
      exact hlog

/-- **The light client knows exactly the logs that a lawful currency can lead to.** In any
configuration that allows a duration, it accepts a list of events if and only if there are a lawful
currency with a bounded issuance, a ledger of it on which nothing is reserved, and a run of the
pallet over this currency with all calls after the genesis block, whose event log is this list. -/
theorem light_client_exact [Inhabited AccountId] (T : Config AccountId)
    (hdurations : T.minProposalDuration ≤ T.maxProposalDuration)
    (hpos : 0 < T.maxProposalDuration.val) (log : List (Event AccountId)) :
    lightClient T log = true ↔
      ∃ C : Currency AccountId, C.Lawful ∧ C.IssuanceBounded ∧
        ∃ (l : C.Ledger) (ops : List (Op (T.withCurrency C))),
          (∀ a, C.reservedBalance l a = 0) ∧
          CallsAfterGenesis (history (genesis (T.withCurrency C) l) ops) ∧
          (run (genesis (T.withCurrency C) l) ops).events = log := by
  constructor
  · intro h
    have hduration : T.Allows T.maxProposalDuration := ⟨hdurations, Nat.le_refl _, hpos⟩
    obtain ⟨ops, hcalls, hlog⟩ := exists_run_of_lightClient hduration default
      ((lightClient_withCurrency _ log).trans h)
    exact ⟨_, PlainLedger.currency_lawful, PlainLedger.currency_issuanceBounded,
      bankLedger default, ops, fun _ => rfl, hcalls, hlog⟩
  · rintro ⟨C, hC, hI, l, ops, hzero, hcalls, rfl⟩
    rw [← lightClient_withCurrency C]
    exact lightClient_of_run (T := T.withCurrency C) hC hI l hzero ops hcalls

/-- Bob finalizes what Alice has proposed and voted for with her stake, and she takes it back. -/
def aliceLog : List (Event DevAccount) :=
  [.deposited .alice (.clamp _ 5), .vaultSeeded .dot (.clamp _ 3), .proposalCreated 0 .alice,
    .proposalVoted 0 .alice .forVote, .swapExecuted .dot .kusama (.clamp _ 3) 0,
    .proposalFinalized 0 .approved, .withdrawn .alice (.clamp _ 5)]

/-- The runtime has this log over some lawful currency, and over none if the last withdrawal is by
one unit larger. -/
theorem light_client_exact_alice :
    let produced (log : List (Event DevAccount)) : Prop :=
      ∃ C : Currency DevAccount, C.Lawful ∧ C.IssuanceBounded ∧
        ∃ (l : C.Ledger) (ops : List (Op (runtimeConfig C))),
          (∀ a, C.reservedBalance l a = 0) ∧
          CallsAfterGenesis (history (genesis (runtimeConfig C) l) ops) ∧
          (run (genesis (runtimeConfig C) l) ops).events = log
    produced aliceLog ∧ ¬ produced (aliceLog.dropLast ++ [.withdrawn .alice (.clamp _ 6)]) := by
  have : Inhabited DevAccount := ⟨.alice⟩
  constructor
  · exact (light_client_exact DevConfig (by decide) (by decide) _).1 (by decide)
  · intro h
    have haccepted := (light_client_exact DevConfig (by decide) (by decide) _).2 h
    revert haccepted
    decide

end Exactness

end MulticoinTreasury
