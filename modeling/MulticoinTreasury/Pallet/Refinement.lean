import MulticoinTreasury.Library.Simulation
import MulticoinTreasury.Pallet.Ballots
import MulticoinTreasury.Pallet.Budget
import MulticoinTreasury.Pallet.Lifecycle
import MulticoinTreasury.Pallet.Stakes

/-!
# The pallet is the DAO

As long as the numbers of the DAO fit into the integers of the pallet, the pallet does what the DAO
does: it accepts the same calls, refuses the others with the same errors, and its storage holds the
DAO. Everything that the storage keeps twice (tallies and voters, stakes and their total, karma,
the id counter) is what the DAO computes from its motions and its book of stakes.
-/

set_option autoImplicit false

namespace MulticoinTreasury

variable {AccountId : Type} {T : Config AccountId}

/-! ## The storage holds a DAO -/

/-- A stored proposal with its recorded voters holds a motion. -/
structure HoldsMotion (voted : AccountId → Bool) (p : Proposal T) (m : Motion AccountId) :
    Prop where
  author_eq : p.author = m.author
  action_eq : p.action = m.action
  endBlock_val : p.endBlock.val = m.deadline
  status_eq : p.status = m.status
  votes_val : ∀ kind, (p.votes kind).val = m.tally kind
  voted_iff : ∀ a, voted a = true ↔ a ∈ m.ballots.voters

/-- The storage holds the DAO. -/
structure HoldsDao [DecidableEq AccountId] (s : State T) (d : Dao T) : Prop
    extends HoldsTotal s d.stakes where
  now_val : s.blockNumber.val = d.now
  ledger_eq : s.ledger = d.ledger
  next_val : s.nextProposalId.val = d.motions.length
  stored : ∀ id : ProposalId,
    Option.Rel (HoldsMotion (s.hasVoted id)) (s.proposals id) d.motions[id.val]?
  unvoted : ∀ id, s.proposals id = none → ∀ a, s.hasVoted id a = false
  karma_val : ∀ a, (s.karma a).val = d.karma a
  vault_val : ∀ c, (s.vault c).val = d.vault c

section Stored

variable {s : State T} {d : Dao T}

/-- What stands at a stored id: a proposal and its motion. -/
theorem motion_of_stored {id : ProposalId}
    (h : Option.Rel (HoldsMotion (s.hasVoted id)) (s.proposals id) d.motions[id.val]?)
    {p : Proposal T} (hp : s.proposals id = some p) :
    ∃ m, d.motions[id.val]? = some m ∧ HoldsMotion (s.hasVoted id) p m := by
  rw [hp] at h
  generalize d.motions[id.val]? = o at h
  cases h with
  | some hm => exact ⟨_, rfl, hm⟩

theorem no_motion_of_free {id : ProposalId}
    (h : Option.Rel (HoldsMotion (s.hasVoted id)) (s.proposals id) d.motions[id.val]?)
    (hp : s.proposals id = none) : d.motions[id.val]? = none := by
  rw [hp] at h
  generalize d.motions[id.val]? = o at h
  cases h with
  | none => rfl

/-- Writing a proposal and its motion at the same id keeps the other ids. -/
theorem stored_put {id : ProposalId} {p' : Proposal T} {m m' : Motion AccountId}
    {voted' : ProposalId → AccountId → Bool}
    (h : ∀ i : ProposalId,
      Option.Rel (HoldsMotion (s.hasVoted i)) (s.proposals i) d.motions[i.val]?)
    (hm : d.motions[id.val]? = some m) (hvoted : ∀ i, i ≠ id → voted' i = s.hasVoted i)
    (hnew : HoldsMotion (voted' id) p' m') (i : ProposalId) :
    Option.Rel (HoldsMotion (voted' i)) (Function.update s.proposals id (some p') i)
      ((d.put id.val m').motions[i.val]?) := by
  obtain ⟨hlt, -⟩ := List.getElem?_eq_some_iff.1 hm
  show Option.Rel _ _ ((d.motions.set id.val m')[i.val]?)
  rw [List.getElem?_set]
  by_cases hi : i = id
  · subst hi
    rw [Function.update_self, if_pos rfl, if_pos hlt]
    exact .some hnew
  · have hne : id.val ≠ i.val := fun h => hi (BoundedNat.ext h.symm)
    rw [Function.update_of_ne hi, if_neg hne, hvoted i hi]
    exact h i

/-- An id that is free after a write at a stored id was free before. -/
theorem unvoted_put {id : ProposalId} {p' : Proposal T} {voted' : ProposalId → AccountId → Bool}
    (h : ∀ i, s.proposals i = none → ∀ a, s.hasVoted i a = false)
    (hvoted : ∀ i, i ≠ id → voted' i = s.hasVoted i) (i : ProposalId)
    (hnone : Function.update s.proposals id (some p') i = none) (a : AccountId) :
    voted' i a = false := by
  by_cases hi : i = id
  · subst hi
    rw [Function.update_self] at hnone
    cases hnone
  · rw [Function.update_of_ne hi] at hnone
    rw [hvoted i hi]
    exact h i hnone a

end Stored

/-! ## Karma and weights -/

variable [DecidableEq AccountId]

/-- Replacing a motion changes the karma of an account by what the two motions count. -/
theorem karma_put {d : Dao T} {id : ℕ} {m : Motion AccountId} (hm : d.motions[id]? = some m)
    (m' : Motion AccountId) (a : AccountId) :
    (d.put id m').karma a + (if m.author = a ∧ m.status = .approved then 1 else 0) =
      d.karma a + (if m'.author = a ∧ m'.status = .approved then 1 else 0) := by
  obtain ⟨hlt, hget⟩ := List.getElem?_eq_some_iff.1 hm
  show (d.motions.set id m').countP _ + _ = d.motions.countP _ + _
  rw [List.countP_set hlt, hget]
  -- a motion that counts is among those that are counted
  have hle : (if m.author = a ∧ m.status = .approved then 1 else 0) ≤
      d.motions.countP fun m => decide (m.author = a ∧ m.status = .approved) := by
    split
    · rename_i hcounts
      exact List.countP_pos_iff.2 ⟨m, List.mem_of_getElem? hm, by simpa using hcounts⟩
    · exact Nat.zero_le _
  simp only [decide_eq_true_eq]
  omega

/-- A motion that is not approved is replaced by another one without any change of karma. -/
theorem karma_put_of_not_approved {d : Dao T} {id : ℕ} {m : Motion AccountId}
    (hm : d.motions[id]? = some m) (m' : Motion AccountId) (hold : m.status ≠ .approved)
    (hnew : m'.status ≠ .approved) (a : AccountId) : (d.put id m').karma a = d.karma a := by
  have h := karma_put hm m' a
  simpa [hold, hnew] using h

theorem HoldsDao.weight_val {s : State T} {d : Dao T} (h : HoldsDao s d) (hd : d.InRange)
    (a : AccountId) : (voteWeight s a).val = d.weight a := by
  have hle := hd.weight_le a
  rw [Dao.weight] at hle ⊢
  rw [voteWeight_val, ballotWeight, h.deposits_val a, h.karma_val a]
  omega

theorem HoldsDao.voteWeight_ne_zero_iff {s : State T} {d : Dao T} (h : HoldsDao s d)
    (hd : d.InRange) (a : AccountId) : voteWeight s a ≠ 0 ↔ 0 < d.weight a := by
  rw [Ne, BoundedNat.eq_zero_iff, h.weight_val hd]
  exact Nat.pos_iff_ne_zero.symm

/-! ## Writing a motion -/

/-- The DAO of a storage in which one motion was replaced. -/
theorem HoldsDao.put {s s' : State T} {d : Dao T} (h : HoldsDao s d) {id : ProposalId}
    {p' : Proposal T} {m m' : Motion AccountId} (hm : d.motions[id.val]? = some m)
    (hproposals : s'.proposals = Function.update s.proposals id (some p'))
    (hvoted : ∀ i, i ≠ id → s'.hasVoted i = s.hasVoted i)
    (hnew : HoldsMotion (s'.hasVoted id) p' m') (hstakes : HoldsTotal s' d.stakes)
    (hnow : s'.blockNumber = s.blockNumber) (hledger : s'.ledger = s.ledger)
    (hnext : s'.nextProposalId = s.nextProposalId)
    (hkarma : ∀ a, (s'.karma a).val = (d.put id.val m').karma a)
    (hvault : s'.vault = s.vault) : HoldsDao s' (d.put id.val m') where
  toHoldsTotal := hstakes
  now_val := (congrArg BoundedNat.val hnow).trans h.now_val
  ledger_eq := hledger.trans h.ledger_eq
  next_val := by
    rw [hnext, h.next_val]
    exact List.length_set.symm
  stored i := by
    rw [hproposals]
    exact stored_put h.stored hm hvoted hnew i
  unvoted i hnone a := by
    rw [hproposals] at hnone
    exact unvoted_put h.unvoted hvoted i hnone a
  karma_val := hkarma
  vault_val c := (congrArg BoundedNat.val (congrFun hvault c)).trans (h.vault_val c)

omit [DecidableEq AccountId] in
theorem mem_put {d : Dao T} {id : ℕ} {m : Motion AccountId} (hm : d.motions[id]? = some m)
    (m' : Motion AccountId) : m' ∈ (d.put id m').motions := by
  obtain ⟨hlt, -⟩ := List.getElem?_eq_some_iff.1 hm
  exact List.mem_set hlt m'

/-- A vote casts its ballot: no tally is clipped. -/
theorem HoldsDao.castVote {s : State T} {d : Dao T} (h : HoldsDao s d) (hd : d.InRange)
    {who : AccountId} {id : ProposalId} {kind : VoteKind} {p : Proposal T} {m : Motion AccountId}
    (hm : d.motions[id.val]? = some m) (hpm : HoldsMotion (s.hasVoted id) p m)
    (hactive : m.status = .active) (hnew : who ∉ m.ballots.voters) (hweight : 0 < d.weight who)
    (hd' : (d.put id.val
      { m with ballots := m.ballots.cast ⟨who, kind, d.weight who⟩ hnew hweight }).InRange) :
    HoldsDao (s.castVote id p who kind)
      (d.put id.val
        { m with ballots := m.ballots.cast ⟨who, kind, d.weight who⟩ hnew hweight }) := by
  have hturnout := hd'.turnout_le _ (mem_put hm _)
  have hnotApproved : m.status ≠ .approved := by simp [hactive]
  refine h.put hm rfl (fun i hi => Function.update_of_ne hi _ _) ⟨?_, ?_, ?_, ?_, ?_, ?_⟩
    ⟨⟨h.deposits_val, h.reserved_val⟩, h.total_val⟩ rfl rfl rfl ?_ rfl
  · cases kind <;> exact hpm.author_eq
  · cases kind <;> exact hpm.action_eq
  · rw [addVote_endBlock]
    exact hpm.endBlock_val
  · rw [addVote_status]
    exact hpm.status_eq
  · intro k
    -- the new tallies are at most the new turnout, which is in range
    have htally := BallotBox.tally_cast 1 k m.ballots ⟨who, kind, d.weight who⟩ hnew hweight
    rw [addVote_votes_val, hpm.votes_val k, h.weight_val hd]
    simp only [Motion.turnout, Motion.tally] at hturnout ⊢
    rw [htally]
    refine Nat.min_eq_left ?_
    rw [← htally]
    cases k with
    | forVote => exact (Nat.le_add_right _ _).trans hturnout
    | againstVote => exact (Nat.le_add_left _ _).trans hturnout
  · intro a
    -- the accounts on record are the voters of the ballots
    show Function.update s.hasVoted id (Function.update (s.hasVoted id) who true) id a = true ↔ _
    rw [Function.update_self, BallotBox.voters_cast, List.mem_append, List.mem_singleton]
    by_cases ha : a = who
    · subst ha
      simp
    · rw [Function.update_of_ne ha, hpm.voted_iff a]
      simp [ha]
  · intro a
    -- an active motion gives nobody karma, before the vote and after it
    have hkarma := karma_put_of_not_approved hm
      { m with ballots := m.ballots.cast ⟨who, kind, d.weight who⟩ hnew hweight }
      hnotApproved hnotApproved a
    exact (h.karma_val a).trans hkarma.symm

/-- A rejection changes one status. -/
theorem HoldsDao.reject {s : State T} {d : Dao T} (h : HoldsDao s d) {id : ProposalId}
    {p : Proposal T} {m : Motion AccountId} (hm : d.motions[id.val]? = some m)
    (hpm : HoldsMotion (s.hasVoted id) p m) (hactive : m.status = .active) :
    HoldsDao (s.reject id p) (d.put id.val { m with status := .rejected }) := by
  have hnotApproved : m.status ≠ .approved := by simp [hactive]
  refine h.put hm rfl (fun _ _ => rfl)
    ⟨hpm.author_eq, hpm.action_eq, hpm.endBlock_val, rfl, fun k => ?_, hpm.voted_iff⟩
    ⟨⟨h.deposits_val, h.reserved_val⟩, h.total_val⟩ rfl rfl rfl ?_ rfl
  · have hvotes := hpm.votes_val k
    cases k <;> exact hvotes
  · -- neither status gives the author karma
    exact fun a => (h.karma_val a).trans
      (karma_put_of_not_approved hm _ hnotApproved (by simp) a).symm

theorem HoldsDao.withVault {s : State T} {d : Dao T} (h : HoldsDao s d) {v : Coin → U128}
    {v' : Coin → ℕ} (hv : ∀ c, (v c).val = v' c) :
    HoldsDao { s with vault := v } { d with vault := v' } where
  toHoldsTotal := ⟨⟨h.deposits_val, h.reserved_val⟩, h.total_val⟩
  now_val := h.now_val
  ledger_eq := h.ledger_eq
  next_val := h.next_val
  stored := h.stored
  unvoted := h.unvoted
  karma_val := h.karma_val
  vault_val := hv

/-- The two entries of a swap: the debit is covered and the credit is in range. -/
theorem swapped_vault_val {s : State T} {d : Dao T} (h : HoldsDao s d) {swap : Swap}
    (hrange : d.vault swap.toCoin + swap.amount.val ≤ maxBalance) (id : ProposalId) (c : Coin) :
    ((s.swapped id swap).vault c).val = Function.update
      (Function.update d.vault swap.fromCoin (d.vault swap.fromCoin - swap.amount.val))
      swap.toCoin (d.vault swap.toCoin + swap.amount.val) c := by
  show (Function.update (Function.update s.vault _ _) _ _ c).val = _
  -- the bought coin is written last, so it is looked up first
  by_cases hto : c = swap.toCoin
  · subst hto
    rw [Function.update_self, Function.update_self, BoundedNat.saturatingAdd_val, h.vault_val]
    exact Nat.min_eq_left hrange
  · rw [Function.update_of_ne hto, Function.update_of_ne hto]
    by_cases hfrom : c = swap.fromCoin
    · subst hfrom
      rw [Function.update_self, Function.update_self, BoundedNat.saturatingSub_val, h.vault_val]
    · rw [Function.update_of_ne hfrom, Function.update_of_ne hfrom]
      exact h.vault_val c

/-- An approval changes one status and executes the swap; the point of the author is the new
approved motion. -/
theorem HoldsDao.approve {s : State T} {d d₁ : Dao T} (h : HoldsDao s d) {id : ProposalId}
    {p : Proposal T} {m : Motion AccountId} {swap : Swap} (hm : d.motions[id.val]? = some m)
    (hpm : HoldsMotion (s.hasVoted id) p m) (hactive : m.status = .active)
    (hexecute : d.execute swap = .ok d₁)
    (hd' : (d₁.put id.val { m with status := .approved }).InRange) :
    HoldsDao (s.approve id p swap) (d₁.put id.val { m with status := .approved }) := by
  unfold Dao.execute at hexecute
  split_ifs at hexecute with hcoins hbalance
  cases hexecute
  -- what the swap buys fits, since the vault of the DAO is in range after it
  have hrange : d.vault swap.toCoin + swap.amount.val ≤ maxBalance := by
    have hle : Function.update
        (Function.update d.vault swap.fromCoin (d.vault swap.fromCoin - swap.amount.val))
        swap.toCoin (d.vault swap.toCoin + swap.amount.val) swap.toCoin ≤ maxBalance :=
      hd'.vault_le swap.toCoin
    rwa [Function.update_self] at hle
  have hvault := h.withVault (swapped_vault_val h hrange id)
  refine hvault.put hm rfl (fun _ _ => rfl)
    ⟨hpm.author_eq, hpm.action_eq, hpm.endBlock_val, rfl, fun k => ?_, hpm.voted_iff⟩
    ⟨⟨h.deposits_val, h.reserved_val⟩, h.total_val⟩ rfl rfl rfl (fun a => ?_) rfl
  · have hvotes := hpm.votes_val k
    cases k <;> exact hvotes
  · have hkarma := karma_put hm { m with status := .approved } a
    -- an account has at most as many approved motions as there are motions
    have hlength : (d.put id.val { m with status := .approved }).karma a ≤ 4294967295 := by
      refine List.countP_le_length.trans ?_
      exact hd'.motions_le
    show (Function.update s.karma p.author _ a).val =
      (d.put id.val { m with status := .approved }).karma a
    rw [hpm.author_eq]
    by_cases ha : a = m.author
    · subst ha
      rw [Function.update_self, BoundedNat.saturatingAdd_val, h.karma_val]
      simp only [hactive, reduceCtorEq, and_false, if_false, true_and, if_true,
        Nat.add_zero] at hkarma
      rw [hkarma] at hlength ⊢
      exact Nat.min_eq_left hlength
    · rw [Function.update_of_ne ha, h.karma_val]
      simpa [hactive, Ne.symm ha] using hkarma.symm

/-! ## One call -/

/-- What a dispatched call leaves follows what the DAO does: success on both sides and a storage
that holds the new DAO, or the same error and the old storage. -/
inductive Follows (s : State T) :
    EStateM.Result (DispatchError T) (State T) PUnit → Except (DispatchError T) (Dao T) → Prop
  | ok {s' : State T} {d' : Dao T} (h : HoldsDao s' d') : Follows s (.ok ⟨⟩ s') (.ok d')
  | error {e : DispatchError T} : Follows s (.error e s) (.error e)

/-- A vote. -/
theorem follows_vote {s : State T} {d : Dao T} (h : HoldsDao s d) (hd : d.InRange)
    (who : AccountId) (id : ProposalId) (kind : VoteKind)
    (hd' : ∀ d', d.vote who id.val kind = .ok d' → d'.InRange) :
    Follows s (dispatch (.signed who) (.voteProposal id kind) s)
      ((d.vote who id.val kind).mapError .module) := by
  rw [dispatch_voteProposal]
  unfold voteGuard Dao.vote at *
  cases hp : s.proposals id with
  | none =>
    rw [no_motion_of_free (h.stored id) hp]
    exact .error
  | some p =>
    obtain ⟨m, hm, hpm⟩ := motion_of_stored (h.stored id) hp
    rw [hm] at hd' ⊢
    dsimp only at hd' ⊢
    -- the guards of the pallet are those of the DAO, one by one and in the same order
    have hopen : s.blockNumber ≤ p.endBlock ↔ d.now ≤ m.deadline := by
      rw [BoundedNat.le_iff, h.now_val, hpm.endBlock_val]
    have hfresh : s.hasVoted id who = false ↔ who ∉ m.ballots.voters := by
      rw [← hpm.voted_iff who, Bool.not_eq_true]
    rw [hpm.status_eq]
    by_cases hactive : m.status = .active
    · rw [if_pos hactive] at hd' ⊢
      rw [if_pos hactive]
      by_cases hnow : d.now ≤ m.deadline
      · rw [if_pos hnow] at hd' ⊢
        rw [if_pos (hopen.2 hnow)]
        by_cases hnew : who ∉ m.ballots.voters
        · rw [dif_pos hnew] at hd' ⊢
          rw [if_pos (hfresh.2 hnew)]
          by_cases hweight : 0 < d.weight who
          · rw [dif_pos hweight] at hd' ⊢
            rw [if_pos ((h.voteWeight_ne_zero_iff hd who).2 hweight)]
            exact .ok (h.castVote hd hm hpm hactive hnew hweight (hd' _ rfl))
          · rw [dif_neg hweight]
            rw [if_neg (mt (h.voteWeight_ne_zero_iff hd who).1 hweight)]
            exact .error
        · rw [dif_neg hnew, if_neg (mt hfresh.1 hnew)]
          exact .error
      · rw [if_neg hnow, if_neg (mt hopen.1 hnow)]
        exact .error
    · rw [if_neg hactive, if_neg hactive]
      exact .error

/-! ### New motions -/

omit [DecidableEq AccountId] in
/-- The next id is free, and so are its recorded voters. -/
theorem next_free_of_stored {s : State T} {d : Dao T}
    (h : ∀ i : ProposalId,
      Option.Rel (HoldsMotion (s.hasVoted i)) (s.proposals i) d.motions[i.val]?)
    (hnext : s.nextProposalId.val = d.motions.length) : s.proposals s.nextProposalId = none := by
  have hfree := h s.nextProposalId
  rw [hnext, List.getElem?_eq_none (Nat.le_refl _)] at hfree
  generalize s.proposals s.nextProposalId = o at hfree ⊢
  cases hfree with
  | none => rfl

/-- A created proposal holds a motion without ballots. -/
theorem HoldsDao.insertProposal {s : State T} {d : Dao T} (h : HoldsDao s d) {who : AccountId}
    {title : BoundedVec UInt8 T.maxTitleLen} {description : BoundedVec UInt8 T.maxDescriptionLen}
    {duration : U32} {action : Action} {next : ProposalId}
    (hnext : next.val = s.nextProposalId.val + 1) (hrange : d.now + duration.val ≤ maxU32) :
    HoldsDao (s.insertProposal (newProposal s who title description duration action) next)
      { d with
        motions := d.motions ++ [⟨who, action, d.now + duration.val, .empty, .active⟩] } where
  toHoldsTotal := ⟨⟨h.deposits_val, h.reserved_val⟩, h.total_val⟩
  now_val := h.now_val
  ledger_eq := h.ledger_eq
  next_val := by
    show next.val = (d.motions ++ [_]).length
    rw [hnext, h.next_val, List.length_append, List.length_singleton]
  stored i := by
    show Option.Rel _ (Function.update s.proposals s.nextProposalId (some _) i) _
    have hfree := next_free_of_stored h.stored h.next_val
    by_cases hi : i = s.nextProposalId
    · subst hi
      rw [Function.update_self, h.next_val, List.getElem?_concat_length]
      refine .some ⟨rfl, rfl, ?_, rfl, fun kind => ?_, fun a => ?_⟩
      · show min (s.blockNumber.val + duration.val) 4294967295 = d.now + duration.val
        -- the deadline is in range, so the end of the proposal is not clipped
        rw [h.now_val]
        exact Nat.min_eq_left hrange
      · cases kind <;> rfl
      · show s.hasVoted s.nextProposalId a = true ↔ a ∈ []
        rw [h.unvoted _ hfree a]
        simp
    · -- the places of the other ids are not the new one
      have hne : i.val ≠ d.motions.length := by
        rw [← h.next_val]
        exact fun he => hi (BoundedNat.ext he)
      rw [Function.update_of_ne hi]
      have hplace : (d.motions ++ [(⟨who, action, d.now + duration.val, .empty, .active⟩ :
          Motion AccountId)])[i.val]? = d.motions[i.val]? := by
        rcases Nat.lt_or_gt_of_ne hne with hlt | hgt
        · exact List.getElem?_append_left hlt
        · rw [List.getElem?_eq_none (Nat.le_of_lt hgt), List.getElem?_eq_none]
          rw [List.length_append, List.length_singleton]
          exact hgt
      exact hplace ▸ h.stored i
  unvoted i hnone a := by
    -- an id that is still free is not the new one
    have hi : i ≠ s.nextProposalId := by
      rintro rfl
      have hsome : (s.insertProposal (newProposal s who title description duration action)
        next).proposals s.nextProposalId = some _ := Function.update_self _ _ _
      rw [hsome] at hnone
      cases hnone
    have hold : (s.insertProposal (newProposal s who title description duration action)
      next).proposals i = s.proposals i := Function.update_of_ne hi _ _
    exact h.unvoted i (hold.symm.trans hnone) a
  karma_val a := by
    show (s.karma a).val = (d.motions ++ [_]).countP _
    rw [List.countP_append, h.karma_val]
    simp [Dao.karma]
  vault_val := h.vault_val

theorem follows_create {s : State T} {d : Dao T} (h : HoldsDao s d) (who : AccountId)
    (title : BoundedVec UInt8 T.maxTitleLen) (description : BoundedVec UInt8 T.maxDescriptionLen)
    (duration : U32) (action : Action)
    (hd' : ∀ d', d.move who duration action = .ok d' → d'.InRange) :
    Follows s (dispatch (.signed who) (.createProposal title description duration action) s)
      ((d.move who duration action).mapError .module) := by
  rw [dispatch_createProposal]
  unfold createGuard Dao.move at *
  by_cases hmin : T.minProposalDuration ≤ duration
  · rw [if_pos hmin] at hd' ⊢
    rw [if_pos hmin]
    by_cases hmax : duration ≤ T.maxProposalDuration
    · rw [if_pos hmax] at hd' ⊢
      rw [if_pos hmax]
      have hrange := hd' _ rfl
      -- one more motion is still in range, so the id has a successor
      have hroom : s.nextProposalId.val + 1 ≤ 4294967295 := by
        have hlength := hrange.motions_le
        rw [List.length_append, List.length_singleton] at hlength
        rw [h.next_val]
        exact hlength
      have hnext : s.nextProposalId.checkedAdd (.clamp _ 1) =
          some ⟨s.nextProposalId.val + 1, hroom⟩ := BoundedNat.checkedAdd_eq_some_iff.2 rfl
      have hdeadline := hrange.deadline_le _ (List.mem_append_right _ (List.mem_singleton_self _))
      rw [hnext]
      exact .ok (h.insertProposal rfl hdeadline)
    · rw [if_neg hmax, if_neg hmax]
      exact .error
  · rw [if_neg hmin, if_neg hmin]
    exact .error

/-! ### Decisions -/

section Exact

omit [DecidableEq AccountId]

theorem HoldsMotion.participation_val {voted : AccountId → Bool} {p : Proposal T}
    {m : Motion AccountId} (h : HoldsMotion voted p m) (hrange : m.turnout ≤ maxBalance) :
    p.participation.val = m.turnout := by
  have hfor : p.forVotes.val = m.tally .forVote := h.votes_val .forVote
  have hagainst : p.againstVotes.val = m.tally .againstVote := h.votes_val .againstVote
  rw [Proposal.participation, BoundedNat.saturatingAdd_val, hfor, hagainst]
  exact Nat.min_eq_left hrange

theorem HoldsMotion.approved_iff {voted : AccountId → Bool} {p : Proposal T}
    {m : Motion AccountId} (h : HoldsMotion voted p m) (hrange : m.turnout ≤ maxBalance) :
    p.neededFor ≤ p.forVotes ↔ Dao.needed T m ≤ m.tally .forVote := by
  have hfor : p.forVotes.val = m.tally .forVote := h.votes_val .forVote
  rw [BoundedNat.le_iff, Proposal.neededFor, Permill.mulFloor_val, h.participation_val hrange, hfor]
  rfl

theorem HoldsMotion.quorum_iff {s : State T} {d : Dao T} {voted : AccountId → Bool}
    {p : Proposal T} {m : Motion AccountId} (h : HoldsMotion voted p m)
    (hrange : m.turnout ≤ maxBalance) (hstakes : HoldsTotal s d.stakes) :
    minParticipation s ≤ p.participation ↔ d.quorum ≤ m.turnout := by
  rw [BoundedNat.le_iff, minParticipation, Permill.mulFloor_val, hstakes.total_val,
    h.participation_val hrange]
  rfl

end Exact

/-- What is decided on a stored proposal, with the guards and the action taken apart. -/
theorem finalizeVerdict_eq {s : State T} {id : ProposalId} {p : Proposal T} {swap : Swap}
    (hp : s.proposals id = some p) (hswap : p.action = .swap swap) :
    finalizeVerdict s id =
      if p.status = .active then
        if s.blockNumber < p.endBlock then
          if minParticipation s ≤ p.participation then
            if p.neededFor ≤ p.forVotes then
              (swapGuard s swap).map fun _ => s.approve id p swap
            else .ok (s.reject id p)
          else .error .quorumNotMet
        else .error .votingPeriodEnded
      else .error .proposalNotActive := by
  by_cases hactive : p.status = .active
  · rw [if_pos hactive]
    by_cases hopen : s.blockNumber < p.endBlock
    · rw [if_pos hopen]
      by_cases hquorum : minParticipation s ≤ p.participation
      · rw [if_pos hquorum,
          finalizeVerdict_of_guard (finalizeGuard_ok_iff.2 ⟨hp, hactive, hopen, hquorum⟩) hswap]
        cases swapGuard s swap <;> rfl
      · simp only [finalizeVerdict, finalizeGuard, hp, if_pos hactive, if_pos hopen,
          if_neg hquorum]
    · simp only [finalizeVerdict, finalizeGuard, hp, if_pos hactive, if_neg hopen]
  · simp only [finalizeVerdict, finalizeGuard, hp, if_neg hactive]

/-- The checks of a swap are those of the DAO. -/
theorem swapGuard_follows {s : State T} {d : Dao T} (h : HoldsDao s d) (swap : Swap) :
    swapGuard s swap = (d.execute swap).map fun _ => () := by
  have hcovered : swap.amount ≤ s.vault swap.fromCoin ↔
      swap.amount.val ≤ d.vault swap.fromCoin := by
    rw [BoundedNat.le_iff, h.vault_val]
  unfold swapGuard Dao.execute
  by_cases hcoins : swap.fromCoin ≠ swap.toCoin
  · rw [if_pos hcoins, if_pos hcoins]
    by_cases hbalance : swap.amount.val ≤ d.vault swap.fromCoin
    · rw [if_pos hbalance, if_pos (hcovered.2 hbalance)]
      rfl
    · rw [if_neg hbalance, if_neg (mt hcovered.1 hbalance)]
      rfl
  · rw [if_neg hcoins, if_neg hcoins]
    rfl

theorem follows_conclude {s : State T} {d : Dao T} (h : HoldsDao s d) (hd : d.InRange)
    (who : AccountId) (id : ProposalId)
    (hd' : ∀ d', d.conclude id.val = .ok d' → d'.InRange) :
    Follows s (dispatch (.signed who) (.finalizeProposal id) s)
      ((d.conclude id.val).mapError .module) := by
  rw [dispatch_finalizeProposal]
  cases hp : s.proposals id with
  | none =>
    have hg : finalizeGuard s id = .error .proposalNotFound := by simp only [finalizeGuard, hp]
    rw [finalizeVerdict, hg, Dao.conclude, no_motion_of_free (h.stored id) hp]
    exact .error
  | some p =>
    obtain ⟨m, hm, hpm⟩ := motion_of_stored (h.stored id) hp
    obtain ⟨swap, hswap⟩ : ∃ swap, m.action = .swap swap := ⟨_, rfl⟩
    have hturnout := hd.turnout_le m (List.mem_of_getElem? hm)
    have hopen : s.blockNumber < p.endBlock ↔ d.now < m.deadline := by
      rw [BoundedNat.lt_iff, h.now_val, hpm.endBlock_val]
    -- the turnout is in range, so both comparisons are the exact ones
    have hquorum := hpm.quorum_iff hturnout h.toHoldsTotal
    rw [Dao.conclude_eq hm hswap] at hd' ⊢
    rw [finalizeVerdict_eq hp (hpm.action_eq.trans hswap), hpm.status_eq]
    by_cases hactive : m.status = .active
    · rw [if_pos hactive] at hd' ⊢
      rw [if_pos hactive]
      by_cases hnow : d.now < m.deadline
      · rw [if_pos hnow] at hd' ⊢
        rw [if_pos (hopen.2 hnow)]
        by_cases hreached : d.quorum ≤ m.turnout
        · rw [if_pos hreached] at hd' ⊢
          rw [if_pos (hquorum.2 hreached)]
          by_cases hfor : Dao.needed T m ≤ m.tally .forVote
          · rw [if_pos hfor] at hd' ⊢
            rw [if_pos ((hpm.approved_iff hturnout).2 hfor), swapGuard_follows h]
            cases hexecute : d.execute swap with
            | ok d₁ =>
              rw [hexecute] at hd'
              exact .ok (h.approve hm hpm hactive hexecute (hd' _ rfl))
            | error e => exact .error
          · rw [if_neg hfor, if_neg (mt (hpm.approved_iff hturnout).1 hfor)]
            exact .ok (h.reject hm hpm hactive)
        · rw [if_neg hreached, if_neg (mt hquorum.1 hreached)]
          exact .error
      · rw [if_neg hnow, if_neg (mt hopen.1 hnow)]
        exact .error
    · rw [if_neg hactive, if_neg hactive]
      exact .error

/-! ### Stakes and seeds -/

/-- A deposit and a withdrawal move the book as `HoldsTotal.moved` says. -/
theorem HoldsDao.moved {s s' : State T} {d : Dao T} (hC : T.currency.Lawful)
    (hI : T.currency.IssuanceBounded) (h : HoldsDao s d) {m : StakeMove AccountId}
    (hstep : StakeStep s s' m) (hnow : s'.blockNumber = s.blockNumber)
    (hproposals : s'.proposals = s.proposals) (hvoted : s'.hasVoted = s.hasVoted)
    (hnext : s'.nextProposalId = s.nextProposalId) (hkarma : s'.karma = s.karma)
    (hvault : s'.vault = s.vault) :
    HoldsDao s' { d with
      ledger := s'.ledger
      stakes := m.applyTo d.stakes } where
  toHoldsTotal := h.toHoldsTotal.moved hC hI hstep
  now_val := (congrArg BoundedNat.val hnow).trans h.now_val
  ledger_eq := rfl
  next_val := (congrArg BoundedNat.val hnext).trans h.next_val
  stored id := by
    rw [hproposals, hvoted]
    exact h.stored id
  unvoted id hnone a := by
    rw [hproposals] at hnone
    rw [hvoted]
    exact h.unvoted id hnone a
  karma_val a := (congrArg BoundedNat.val (congrFun hkarma a)).trans (h.karma_val a)
  vault_val c := (congrArg BoundedNat.val (congrFun hvault c)).trans (h.vault_val c)

theorem follows_deposit {s : State T} {d : Dao T} (hC : T.currency.Lawful)
    (hI : T.currency.IssuanceBounded) (h : HoldsDao s d) (who : AccountId) (amount : Balance) :
    Follows s (dispatch (.signed who) (.deposit amount) s)
      ((d.deposit who amount).mapError .currency) := by
  rw [dispatch_deposit, Dao.deposit, ← h.ledger_eq]
  cases hreserve : T.currency.reserve s.ledger who amount with
  | ok l =>
    exact .ok (h.moved hC hI (m := .added who amount) (.added hreserve rfl rfl) rfl rfl rfl rfl
      rfl rfl)
  | error e => exact .error

theorem follows_withdraw {s : State T} {d : Dao T} (hC : T.currency.Lawful)
    (hI : T.currency.IssuanceBounded) (h : HoldsDao s d) (who : AccountId) (amount : Balance) :
    Follows s (dispatch (.signed who) (.withdraw amount) s)
      ((d.withdraw who amount).mapError .module) := by
  have hcovered : amount ≤ s.deposits who ↔ amount.val ≤ d.stakes.balance who := by
    rw [BoundedNat.le_iff, h.deposits_val]
  rw [dispatch_withdraw, Dao.withdraw, ← h.ledger_eq]
  by_cases hstaked : amount.val ≤ d.stakes.balance who
  · rw [if_pos hstaked, if_pos (hcovered.2 hstaked)]
    exact .ok (h.moved hC hI (m := .removed who amount)
      (.removed (hcovered.2 hstaked) rfl rfl rfl) rfl rfl rfl rfl rfl rfl)
  · rw [if_neg hstaked, if_neg (mt hcovered.1 hstaked)]
    exact .error

theorem follows_seed {s : State T} {d : Dao T} (h : HoldsDao s d) (origin : Origin AccountId)
    (coin : Coin) (amount : U128) (hd' : (d.seed coin amount).InRange) :
    Follows s (dispatch origin (.seedVault coin amount) s) (.ok (d.seed coin amount)) := by
  have hvault : ∀ c, (Function.update s.vault coin ((s.vault coin).saturatingAdd amount) c).val =
      Function.update d.vault coin (d.vault coin + amount.val) c := by
    intro c
    by_cases hc : c = coin
    · subst hc
      have hle : Function.update d.vault c (d.vault c + amount.val) c ≤ maxBalance :=
        hd'.vault_le c
      rw [Function.update_self] at hle ⊢
      rw [Function.update_self, BoundedNat.saturatingAdd_val, h.vault_val]
      exact Nat.min_eq_left hle
    · rw [Function.update_of_ne hc, Function.update_of_ne hc]
      exact h.vault_val c
  have hholds := h.withVault hvault
  rw [dispatch_seedVault]
  -- the event is the only thing that the DAO does not have
  exact .ok ⟨⟨⟨hholds.deposits_val, hholds.reserved_val⟩, hholds.total_val⟩, hholds.now_val,
    hholds.ledger_eq, hholds.next_val, hholds.stored, hholds.unvoted, hholds.karma_val,
    hholds.vault_val⟩

/-! ### Every call -/

theorem follows_call {s : State T} {d : Dao T} (hC : T.currency.Lawful)
    (hI : T.currency.IssuanceBounded) (h : HoldsDao s d) (hd : d.InRange)
    (origin : Origin AccountId) (call : Call T)
    (hd' : ∀ d', d.call origin call = .ok d' → d'.InRange) :
    Follows s (dispatch origin call s) (d.call origin call) := by
  cases origin with
  | signed who =>
    cases call with
    | createProposal title description duration action =>
      exact follows_create h who title description duration action
        fun d' hmove => hd' d' (StateError.mapError_eq_ok_iff.2 hmove)
    | voteProposal id kind =>
      exact follows_vote h hd who id kind
        fun d' hvote => hd' d' (StateError.mapError_eq_ok_iff.2 hvote)
    | finalizeProposal id =>
      exact follows_conclude h hd who id
        fun d' hconclude => hd' d' (StateError.mapError_eq_ok_iff.2 hconclude)
    | deposit amount => exact follows_deposit hC hI h who amount
    | withdraw amount => exact follows_withdraw hC hI h who amount
    | seedVault coin amount => exact follows_seed h _ coin amount (hd' _ rfl)
  | root =>
    cases call with
    | seedVault coin amount => exact follows_seed h _ coin amount (hd' _ rfl)
    | createProposal | voteProposal | finalizeProposal | deposit | withdraw => exact .error
  | none =>
    cases call with
    | seedVault coin amount => exact follows_seed h _ coin amount (hd' _ rfl)
    | createProposal | voteProposal | finalizeProposal | deposit | withdraw => exact .error

/-! ## Steps and runs -/

theorem HoldsDao.atBlock {s : State T} {d : Dao T} (h : HoldsDao s d) (number : BlockNumber) :
    HoldsDao (s.atBlock number) { d with now := max d.now number.val } where
  toHoldsTotal := ⟨⟨h.deposits_val, h.reserved_val⟩, h.total_val⟩
  now_val := by
    show (if s.blockNumber ≤ number then number else s.blockNumber).val = max d.now number.val
    rw [← h.now_val]
    -- a smaller number leaves the block as it is, which is the maximum as well
    by_cases hle : s.blockNumber ≤ number
    · rw [if_pos hle]
      exact (Nat.max_eq_right hle).symm
    · rw [if_neg hle]
      exact (Nat.max_eq_left (Nat.le_of_not_le hle)).symm
  ledger_eq := h.ledger_eq
  next_val := h.next_val
  stored := h.stored
  unvoted := h.unvoted
  karma_val := h.karma_val
  vault_val := h.vault_val

/-- **One step of the pallet is one step of the DAO**, if the numbers of the DAO fit before and
after it. -/
theorem HoldsDao.step (hC : T.currency.Lawful) (hI : T.currency.IssuanceBounded) {s : State T}
    {d : Dao T} (h : HoldsDao s d) (hd : d.InRange) (op : Op T) (hd' : (d.step op).2.InRange) :
    (MulticoinTreasury.step s op).1 = (d.step op).1 ∧
      HoldsDao (MulticoinTreasury.step s op).2 (d.step op).2 := by
  cases op with
  | call origin call =>
    have hfollows : Follows s (dispatch origin call s) (d.call origin call) := by
      refine follows_call hC hI h hd origin call fun d' hok => ?_
      rw [Dao.step_of_call_ok hok] at hd'
      exact hd'
    rw [MulticoinTreasury.step, Dao.step]
    -- how the two sides came to their results does not matter any more
    generalize dispatch origin call s = r at hfollows
    generalize d.call origin call = x at hfollows
    cases hfollows with
    | ok hholds => exact ⟨rfl, hholds⟩
    | error => exact ⟨rfl, h⟩
  | block number => exact ⟨rfl, h.atBlock number⟩
  | currency o =>
    -- an operation of the currency moves no stake
    have hmoved := h.moved hC hI (stakeStep hC (.currency (s := s) (o := o))) rfl rfl rfl rfl rfl
      rfl
    refine ⟨rfl, ?_⟩
    rw [Dao.step, ← h.ledger_eq]
    exact hmoved

/-- The simulation of the DAO by the pallet. -/
noncomputable def daoSimulation (hC : T.currency.Lawful) (hI : T.currency.IssuanceBounded) :
    Machine.Simulation (step (T := T)) (Dao.step (T := T)) where
  rel := HoldsDao
  input op := op
  output out := out
  Safe e := e.before.InRange ∧ e.after.InRange
  simulates h hsafe := h.step hC hI hsafe.1 _ hsafe.2

/-- Before the first block the storage holds the empty DAO. -/
theorem holdsDao_genesis {l : T.currency.Ledger}
    (hzero : ∀ a, T.currency.reservedBalance l a = 0) :
    HoldsDao (genesis T l) (Dao.initial T l) where
  toHoldsTotal := holdsTotal_genesis hzero
  now_val := rfl
  ledger_eq := rfl
  next_val := rfl
  stored _ := .none
  unvoted _ _ _ := rfl
  karma_val _ := rfl
  vault_val _ := rfl

/-- Ranges that hold after every prefix of a run make all its steps safe. -/
theorem safeRun_of_prefixes (hC : T.currency.Lawful) (hI : T.currency.IssuanceBounded)
    {d : Dao T} {ops : List (Op T)} (hrange : ∀ pre, pre <+: ops → (d.run pre).InRange) :
    (daoSimulation hC hI).SafeRun d ops := by
  intro e he
  rw [show ops.map (daoSimulation hC hI).input = ops from List.map_id ops] at he
  -- a step starts after one prefix of the run and ends after the next
  obtain ⟨pre, op, post, rfl, rfl⟩ := Machine.mem_trace Dao.step he
  have hnext := hrange (pre ++ [op]) ⟨post, by rw [List.append_assoc, List.singleton_append]⟩
  rw [Dao.run, Machine.run_snoc] at hnext
  exact ⟨hrange pre (List.prefix_append _ _), hnext⟩

/-- The pallet follows a safe run of the DAO. -/
theorem follows_run {hC : T.currency.Lawful} {hI : T.currency.IssuanceBounded} {s : State T}
    {d : Dao T} {ops : List (Op T)} (h : HoldsDao s d)
    (hsafe : (daoSimulation hC hI).SafeRun d ops) :
    (history s ops).map Machine.Entry.output =
        (Machine.trace Dao.step d ops).map Machine.Entry.output ∧
      HoldsDao (run s ops) (d.run ops) := by
  have hrun := (daoSimulation hC hI).run h hsafe
  have houtputs := (daoSimulation hC hI).outputs h hsafe
  rw [show ops.map (daoSimulation hC hI).input = ops from List.map_id ops] at hrun houtputs
  exact ⟨houtputs, hrun⟩

/-- **The pallet is the DAO.** In every run whose DAO stays in range, the pallet returns what the
DAO returns, errors included, and in the end its storage holds the DAO. -/
theorem pallet_is_dao (hC : T.currency.Lawful) (hI : T.currency.IssuanceBounded)
    (l : T.currency.Ledger) (hzero : ∀ a, T.currency.reservedBalance l a = 0) (ops : List (Op T))
    (hrange : ∀ pre, pre <+: ops → ((Dao.initial T l).run pre).InRange) :
    (history (genesis T l) ops).map Machine.Entry.output =
        (Machine.trace Dao.step (Dao.initial T l) ops).map Machine.Entry.output ∧
      HoldsDao (run (genesis T l) ops) ((Dao.initial T l).run ops) :=
  follows_run (holdsDao_genesis hzero) (safeRun_of_prefixes hC hI hrange)

/-- The theorem where Alice's proposal is approved before its end. -/
theorem pallet_is_dao_early :
    HoldsDao (run developmentGenesis (beforeEarlyFinalization ++ [aliceFinalizes]))
      ((Dao.initial DevConfig developmentGenesis.ledger).run
        (beforeEarlyFinalization ++ [aliceFinalizes])) := by
  have hissued : DevConfig.currency.IssuedAtMost developmentGenesis.ledger
      (4 * 1152921504606846976) :=
    fun s => sum_endowment_le _ s
  refine (pallet_is_dao (T := DevConfig) PlainLedger.currency_lawful
    PlainLedger.currency_issuanceBounded developmentGenesis.ledger (fun _ => rfl) _ ?_).2
  refine Dao.inRange_of_fits PlainLedger.currency_lawful PlainLedger.currency_neverIssues
    (fun _ => rfl) hissued (B := 1) ?_ ⟨by decide, by decide, by decide, by decide, by decide⟩
  intro op hop
  simp only [beforeEarlyFinalization, aliceFinalizes, List.cons_append, List.nil_append,
    List.mem_cons, List.not_mem_nil, or_false] at hop
  rcases hop with rfl | rfl | rfl | rfl | rfl | rfl
  · exact Nat.le_refl 1
  all_goals trivial

end MulticoinTreasury
