import Mathlib.Algebra.Order.BigOperators.Group.List
import MulticoinTreasury.Pallet.Dao
import MulticoinTreasury.Pallet.Lifecycle
import MulticoinTreasury.Pallet.VaultLedger

/-!
# How large the numbers of the DAO become

After `n` operations there are at most `n` motions with at most `n` ballots each, no ballot weighs
more than the issuance and `n` units of karma, the deadlines are at most a duration after the last
block, and the vault holds no more than was seeded. `Within` says this of a DAO, one step keeps it,
and it bounds every number that the pallet has to store.
-/

set_option autoImplicit false

namespace MulticoinTreasury

variable {AccountId : Type}

/-! ## Motions -/

variable {T : Config AccountId}

/-- A motion of a DAO of issuance `N` after `n` operations up to the block `B`. -/
structure Motion.Within (T : Config AccountId) (N B n : ℕ) (m : Motion AccountId) : Prop where
  ballots_le : m.ballots.ballots.length ≤ n
  ballot_le : ∀ b ∈ m.ballots.ballots, b.weight ≤ N + T.karmaUnit.val * n
  deadline_le : m.deadline ≤ B + T.maxProposalDuration.val

section Motions

variable {N B n : ℕ} {m : Motion AccountId}

theorem Motion.Within.mono (h : m.Within T N B n) : m.Within T N B (n + 1) where
  ballots_le := h.ballots_le.trans (Nat.le_succ n)
  ballot_le b hb := (h.ballot_le b hb).trans
    (Nat.add_le_add_left (Nat.mul_le_mul_left _ (Nat.le_succ n)) N)
  deadline_le := h.deadline_le

/-- A further ballot of a weight in range. -/
theorem Motion.Within.cast (h : m.Within T N B n) {b : Ballot AccountId VoteKind}
    (hnew : b.voter ∉ m.ballots.voters) (hpos : 0 < b.weight)
    (hweight : b.weight ≤ N + T.karmaUnit.val * n) :
    Motion.Within T N B (n + 1) { m with ballots := m.ballots.cast b hnew hpos } where
  ballots_le := by
    show (m.ballots.ballots ++ [b]).length ≤ n + 1
    rw [List.length_append, List.length_singleton]
    exact Nat.succ_le_succ h.ballots_le
  ballot_le c hc := by
    rcases List.mem_append.1 hc with hold | hlast
    · exact h.mono.ballot_le c hold
    · rw [List.mem_singleton] at hlast
      subst hlast
      exact hweight.trans (Nat.add_le_add_left (Nat.mul_le_mul_left _ (Nat.le_succ n)) N)
  deadline_le := h.deadline_le

/-- The turnout is at most the sum of all weights and one for each ballot. -/
theorem Motion.Within.turnout_le (h : m.Within T N B n) :
    m.turnout ≤ n * (N + T.karmaUnit.val * n + 1) := by
  have hweights : m.ballots.weight ≤ n * (N + T.karmaUnit.val * n) := by
    refine (List.sum_le_card_nsmul _ (N + T.karmaUnit.val * n) ?_).trans ?_
    · intro x hx
      obtain ⟨b, hb, rfl⟩ := List.mem_map.1 hx
      exact h.ballot_le b hb
    · rw [List.length_map, smul_eq_mul]
      exact Nat.mul_le_mul_right _ h.ballots_le
  have hvoters : m.ballots.voters.length ≤ n := by
    rw [BallotBox.voters, List.length_map]
    exact h.ballots_le
  calc m.turnout
      ≤ m.ballots.weight + 1 * m.ballots.voters.length :=
        BallotBox.tally_add_tally_le 1 (by decide) m.ballots
    _ ≤ n * (N + T.karmaUnit.val * n) + n := by omega
    _ = n * (N + T.karmaUnit.val * n + 1) := (Nat.mul_succ n _).symm

end Motions

/-! ## The DAO -/

/-- The numbers of the DAO fit into the integers of the pallet. -/
structure Dao.InRange [DecidableEq AccountId] (d : Dao T) : Prop where
  motions_le : d.motions.length ≤ maxU32
  deadline_le : ∀ m ∈ d.motions, m.deadline ≤ maxU32
  turnout_le : ∀ m ∈ d.motions, m.turnout ≤ maxBalance
  weight_le : ∀ a, d.weight a ≤ maxBalance
  vault_le : ∀ c, d.vault c ≤ maxBalance

/-- A DAO of issuance `N` after `n` operations up to the block `B`, with seeds of `V` in all. -/
structure Dao.Within (N B n V : ℕ) (d : Dao T) : Prop where
  motions_le : d.motions.length ≤ n
  motion : ∀ m ∈ d.motions, m.Within T N B n
  stake : ∀ a, d.stakes.balance a = (T.currency.reservedBalance d.ledger a).val
  issued : T.currency.IssuedAtMost d.ledger N
  now_le : d.now ≤ B
  vault_le : ∀ s : Finset Coin, ∑ c ∈ s, d.vault c ≤ V

/-- What an operation may seed. -/
def Op.seeds : Op T → ℕ
  | .call _ (.seedVault _ amount) => amount.val
  | _ => 0

/-- A new block has a number of at most `B`. -/
def Op.UpTo (B : ℕ) : Op T → Prop
  | .block number => number.val ≤ B
  | _ => True

namespace Dao.Within

variable {N B n V : ℕ} {d : Dao T}

theorem mono (h : d.Within N B n V) {V' : ℕ} (hV : V ≤ V') : d.Within N B (n + 1) V' where
  motions_le := h.motions_le.trans (Nat.le_succ n)
  motion m hm := (h.motion m hm).mono
  stake := h.stake
  issued := h.issued
  now_le := h.now_le
  vault_le s := (h.vault_le s).trans hV

/-- A motion is replaced by one that is within the bounds of the next step. -/
theorem put (h : d.Within N B n V) {id : ℕ} {m' : Motion AccountId}
    (hm' : m'.Within T N B (n + 1)) : (d.put id m').Within N B (n + 1) V where
  motions_le := by
    show (d.motions.set id m').length ≤ n + 1
    rw [List.length_set]
    exact h.motions_le.trans (Nat.le_succ n)
  motion m hm := by
    rcases List.mem_or_eq_of_mem_set hm with hold | rfl
    · exact (h.motion m hold).mono
    · exact hm'
  stake := h.stake
  issued := h.issued
  now_le := h.now_le
  vault_le := h.vault_le

/-- An executed swap moves an amount inside the vault. -/
theorem execute (h : d.Within N B n V) {swap : Swap} {d' : Dao T}
    (hexecute : d.execute swap = .ok d') : d'.Within N B n V := by
  unfold Dao.execute at hexecute
  split_ifs at hexecute with hcoins hbalance
  cases hexecute
  refine ⟨h.motions_le, h.motion, h.stake, h.issued, h.now_le, fun s => ?_⟩
  have hmoved := FiniteSum.sum_move_le (r := fun _ => 0) hcoins hbalance h.vault_le s
  exact hmoved

theorem conclude (h : d.Within N B n V) {id : ℕ} {d' : Dao T} (hok : d.conclude id = .ok d') :
    d'.Within N B (n + 1) V := by
  cases hm : d.motions[id]? with
  | none =>
    rw [Dao.conclude, hm] at hok
    cases hok
  | some m =>
    obtain ⟨swap, hswap⟩ : ∃ swap, m.action = .swap swap := ⟨_, rfl⟩
    have hmotion := (h.motion m (List.mem_of_getElem? hm)).mono
    rw [Dao.conclude_eq hm hswap] at hok
    split_ifs at hok with hactive hnow hquorum hfor
    · cases hexecute : d.execute swap with
      | error e =>
        rw [hexecute] at hok
        cases hok
      | ok d₁ =>
        rw [hexecute] at hok
        cases hok
        exact (h.execute hexecute).put
          ⟨hmotion.ballots_le, hmotion.ballot_le, hmotion.deadline_le⟩
    · cases hok
      exact h.put ⟨hmotion.ballots_le, hmotion.ballot_le, hmotion.deadline_le⟩

theorem move (h : d.Within N B n V) {who : AccountId} {duration : U32} {action : Action}
    {d' : Dao T} (hok : d.move who duration action = .ok d') : d'.Within N B (n + 1) V := by
  unfold Dao.move at hok
  split_ifs at hok with hmin hmax
  cases hok
  refine ⟨?_, fun m hm => ?_, h.stake, h.issued, h.now_le, h.vault_le⟩
  · rw [List.length_append, List.length_singleton]
    exact Nat.succ_le_succ h.motions_le
  · rcases List.mem_append.1 hm with hold | hlast
    · exact (h.motion m hold).mono
    · rw [List.mem_singleton] at hlast
      subst hlast
      exact ⟨Nat.zero_le _, fun b hb => absurd hb List.not_mem_nil, Nat.add_le_add h.now_le hmax⟩

theorem seed (h : d.Within N B n V) (coin : Coin) (amount : U128) :
    (d.seed coin amount).Within N B (n + 1) (V + amount.val) where
  motions_le := (h.mono (Nat.le_refl V)).motions_le
  motion := (h.mono (Nat.le_refl V)).motion
  stake := h.stake
  issued := h.issued
  now_le := h.now_le
  vault_le s := by
    -- the seeded coin counts at most once
    have hone : (∑ c ∈ s, if c = coin then amount.val else 0) ≤ amount.val := by
      rw [Finset.sum_ite_eq']
      split
      · exact Nat.le_refl _
      · exact Nat.zero_le _
    have hsplit : ∀ c, (d.seed coin amount).vault c =
        d.vault c + if c = coin then amount.val else 0 := by
      intro c
      by_cases hc : c = coin
      · subst hc
        simp [Dao.seed]
      · simp [Dao.seed, hc]
    simp only [hsplit, Finset.sum_add_distrib]
    exact Nat.add_le_add (h.vault_le s) hone

variable [DecidableEq AccountId]

/-- No vote weighs more than the issuance and a unit for each operation. -/
theorem weight_le (h : d.Within N B n V) (a : AccountId) :
    d.weight a ≤ N + T.karmaUnit.val * n := by
  have hkarma : d.karma a ≤ n := List.countP_le_length.trans h.motions_le
  have hstake : d.stakes.balance a ≤ N := by
    rw [h.stake a]
    exact h.issued.reserved_le a
  exact Nat.add_le_add hstake (Nat.mul_le_mul_left _ hkarma)

theorem vote (h : d.Within N B n V) {who : AccountId} {id : ℕ} {kind : VoteKind} {d' : Dao T}
    (hok : d.vote who id kind = .ok d') : d'.Within N B (n + 1) V := by
  unfold Dao.vote at hok
  cases hm : d.motions[id]? with
  | none =>
    rw [hm] at hok
    cases hok
  | some m =>
    rw [hm] at hok
    dsimp only at hok
    split_ifs at hok with hactive hnow hnew hweight
    cases hok
    exact h.put ((h.motion m (List.mem_of_getElem? hm)).cast hnew hweight (h.weight_le who))

theorem deposit (hC : T.currency.Lawful) (h : d.Within N B n V) {who : AccountId}
    {amount : Balance} {d' : Dao T} (hok : d.deposit who amount = .ok d') :
    d'.Within N B (n + 1) V := by
  unfold Dao.deposit at hok
  cases hreserve : T.currency.reserve d.ledger who amount with
  | error e =>
    rw [hreserve] at hok
    cases hok
  | ok l =>
    rw [hreserve] at hok
    cases hok
    refine ⟨(h.mono (Nat.le_refl V)).motions_le, (h.mono (Nat.le_refl V)).motion, fun a => ?_,
      h.issued.reserve hC hreserve, h.now_le, h.vault_le⟩
    by_cases ha : a = who
    · subst ha
      rw [Book.balance_credit_self, hC.reserve_reserved hreserve, h.stake]
    · rw [Book.balance_credit_of_ne ha, (hC.reserve_others hreserve ha).2, h.stake]

theorem withdraw (hC : T.currency.Lawful) (h : d.Within N B n V) {who : AccountId}
    {amount : Balance} {d' : Dao T} (hok : d.withdraw who amount = .ok d') :
    d'.Within N B (n + 1) V := by
  unfold Dao.withdraw at hok
  split_ifs at hok with hstaked
  cases hok
  refine ⟨(h.mono (Nat.le_refl V)).motions_le, (h.mono (Nat.le_refl V)).motion, fun a => ?_,
    h.issued.unreserve hC who amount, h.now_le, h.vault_le⟩
  by_cases ha : a = who
  · subst ha
    have hreserved := h.stake a
    rw [Book.balance_debit_self, hC.unreserve_reserved]
    omega
  · rw [Book.balance_debit_of_ne ha, (hC.unreserve_others d.ledger who amount a ha).2, h.stake]

/-- An accepted call. -/
theorem call (hC : T.currency.Lawful) (h : d.Within N B n V) {origin : Origin AccountId}
    {c : Call T} {d' : Dao T} (hok : d.call origin c = .ok d') :
    d'.Within N B (n + 1) (V + (Op.call origin c).seeds) := by
  cases c with
  | seedVault coin amount =>
    -- whoever seeds
    have hseed : d' = d.seed coin amount := by
      cases origin <;> exact (Except.ok.inj hok).symm
    rw [hseed]
    exact h.seed coin amount
  | createProposal title description duration action =>
    obtain ⟨who, hperform⟩ := Dao.perform_of_call_ok hok (by simp)
    exact h.move (StateError.mapError_eq_ok_iff.1 hperform)
  | voteProposal id kind =>
    obtain ⟨who, hperform⟩ := Dao.perform_of_call_ok hok (by simp)
    exact h.vote (StateError.mapError_eq_ok_iff.1 hperform)
  | finalizeProposal id =>
    obtain ⟨who, hperform⟩ := Dao.perform_of_call_ok hok (by simp)
    exact h.conclude (StateError.mapError_eq_ok_iff.1 hperform)
  | deposit amount =>
    obtain ⟨who, hperform⟩ := Dao.perform_of_call_ok hok (by simp)
    exact h.deposit hC (StateError.mapError_eq_ok_iff.1 hperform)
  | withdraw amount =>
    obtain ⟨who, hperform⟩ := Dao.perform_of_call_ok hok (by simp)
    exact h.withdraw hC (StateError.mapError_eq_ok_iff.1 hperform)

/-- **One operation keeps the bounds**, for one operation more. -/
theorem step (hC : T.currency.Lawful) (hN : T.currency.NeverIssues) (h : d.Within N B n V)
    {op : Op T} (hop : op.UpTo B) : (d.step op).2.Within N B (n + 1) (V + op.seeds) := by
  cases op with
  | call origin c =>
    cases hcall : d.call origin c with
    | ok d' =>
      rw [Dao.step_of_call_ok hcall]
      exact h.call hC hcall
    | error e =>
      rw [Dao.step_of_call_error hcall]
      exact h.mono (Nat.le_add_right _ _)
  | block number =>
    have hnext := h.mono (Nat.le_refl V)
    exact ⟨hnext.motions_le, hnext.motion, hnext.stake, hnext.issued,
      Nat.max_le.2 ⟨h.now_le, hop⟩, hnext.vault_le⟩
  | currency o =>
    have hnext := h.mono (Nat.le_refl V)
    exact ⟨hnext.motions_le, hnext.motion,
      fun a => (h.stake a).trans (congrArg BoundedNat.val (hC.other_reserved o d.ledger a).symm),
      hN o d.ledger N h.issued, hnext.now_le, hnext.vault_le⟩

/-- **The bounds after a whole run.** -/
theorem run (hC : T.currency.Lawful) (hN : T.currency.NeverIssues) (h : d.Within N B n V)
    {ops : List (Op T)} (hops : ∀ op ∈ ops, op.UpTo B) :
    (d.run ops).Within N B (n + ops.length) (V + (ops.map Op.seeds).sum) := by
  induction ops generalizing d n V with
  | nil => exact h
  | cons op ops ih =>
    have hfirst := h.step hC hN (hops op List.mem_cons_self)
    have hrest := ih hfirst fun o ho => hops o (List.mem_cons_of_mem op ho)
    rw [List.length_cons, List.map_cons, List.sum_cons, Nat.add_comm ops.length, ← Nat.add_assoc,
      ← Nat.add_assoc]
    exact hrest

omit [DecidableEq AccountId] in
/-- The DAO before the first operation. -/
theorem initial {l : T.currency.Ledger} (hzero : ∀ a, T.currency.reservedBalance l a = 0)
    (hissued : T.currency.IssuedAtMost l N) (B : ℕ) : (Dao.initial T l).Within N B 0 0 where
  motions_le := Nat.le_refl 0
  motion m hm := absurd hm List.not_mem_nil
  stake a := (congrArg BoundedNat.val (hzero a)).symm
  issued := hissued
  now_le := Nat.zero_le B
  vault_le s := by simp [Dao.initial]

end Dao.Within

/-- The numbers that a run of `n` operations can reach fit into the integers of the pallet. -/
structure Fits (T : Config AccountId) (N B n V : ℕ) : Prop where
  ids : n ≤ maxU32
  blocks : B + T.maxProposalDuration.val ≤ maxU32
  votes : n * (N + T.karmaUnit.val * n + 1) ≤ maxBalance
  weights : N + T.karmaUnit.val * n ≤ maxBalance
  vault : V ≤ maxBalance

section Fits

variable {N B n V : ℕ}

theorem Fits.mono (h : Fits T N B n V) {n' V' : ℕ} (hn : n' ≤ n) (hV : V' ≤ V) :
    Fits T N B n' V' where
  ids := hn.trans h.ids
  blocks := h.blocks
  votes := by
    refine (Nat.mul_le_mul hn ?_).trans h.votes
    exact Nat.succ_le_succ (Nat.add_le_add_left (Nat.mul_le_mul_left _ hn) N)
  weights := (Nat.add_le_add_left (Nat.mul_le_mul_left _ hn) N).trans h.weights
  vault := hV.trans h.vault

variable [DecidableEq AccountId]

theorem Dao.Within.inRange {d : Dao T} (h : d.Within N B n V) (hfits : Fits T N B n V) :
    d.InRange where
  motions_le := h.motions_le.trans hfits.ids
  deadline_le m hm := (h.motion m hm).deadline_le.trans hfits.blocks
  turnout_le m hm := (h.motion m hm).turnout_le.trans hfits.votes
  weight_le a := (h.weight_le a).trans hfits.weights
  vault_le c := by
    have hone := h.vault_le {c}
    rw [Finset.sum_singleton] at hone
    exact hone.trans hfits.vault

/-- **A run within its budget stays in range**, at each of its states. -/
theorem Dao.inRange_of_fits (hC : T.currency.Lawful) (hN : T.currency.NeverIssues)
    {l : T.currency.Ledger} (hzero : ∀ a, T.currency.reservedBalance l a = 0)
    (hissued : T.currency.IssuedAtMost l N) {ops : List (Op T)} (hops : ∀ op ∈ ops, op.UpTo B)
    (hfits : Fits T N B ops.length (ops.map Op.seeds).sum) (pre : List (Op T))
    (hpre : pre <+: ops) : ((Dao.initial T l).run pre).InRange := by
  have hwithin := (Dao.Within.initial hzero hissued B).run hC hN
    fun op hop => hops op (hpre.subset hop)
  rw [Nat.zero_add, Nat.zero_add] at hwithin
  refine hwithin.inRange (hfits.mono hpre.length_le ?_)
  -- the rest of the run only adds seeds
  obtain ⟨post, rfl⟩ := hpre
  rw [List.map_append, List.sum_append]
  exact Nat.le_add_right _ _

end Fits

/-! ## The sum of the vault -/

section VaultSum

/-- What a vault move brings in from outside. -/
def VaultMove.added : VaultMove → ℕ
  | .seeded _ amount => amount.val
  | _ => 0

theorem VaultMove.sum_creditedTo (m : VaultMove) :
    ∑ c, m.creditedTo c = m.added + ∑ c, m.debitedFrom c := by
  cases m with
  | kept => rfl
  | seeded coin amount =>
    simp only [creditedTo, debitedFrom, added, Finset.sum_ite_eq, Finset.mem_univ, if_true,
      Finset.sum_const_zero, Nat.add_zero]
  | swapped swap =>
    simp only [creditedTo, debitedFrom, added, Finset.sum_ite_eq, Finset.mem_univ, if_true,
      Nat.zero_add]

theorem vault_le_sum (vault : Coin → U128) (c : Coin) : (vault c).val ≤ ∑ c, (vault c).val :=
  Finset.single_le_sum (f := fun c => (vault c).val) (fun _ _ => Nat.zero_le _) (Finset.mem_univ c)

/-- A bound on the sum bounds each balance after its credit. -/
theorem VaultStep.credit_le {s s' : State T} {m : VaultMove} (h : VaultStep s s' m) {V : ℕ}
    (hV : ∑ c, (s.vault c).val + m.added ≤ V) (c : Coin) :
    (s.vault c).val + m.creditedTo c ≤ V := by
  have hone := vault_le_sum s.vault c
  cases h with
  | kept hvault => exact (Nat.add_le_add_right hone 0).trans hV
  | @seeded coin amount hvault =>
    refine (Nat.add_le_add hone ?_).trans hV
    show (if coin = c then amount.val else 0) ≤ amount.val
    split
    · exact Nat.le_refl _
    · exact Nat.zero_le _
  | @swapped swap hcoins hbalance hvault =>
    show (s.vault c).val + (if swap.toCoin = c then swap.amount.val else 0) ≤ V
    have hV' : ∑ c, (s.vault c).val ≤ V := hV
    by_cases hto : swap.toCoin = c
    · -- the bought amount comes from another coin
      subst hto
      rw [if_pos rfl]
      have hpair : ∑ c ∈ {swap.toCoin, swap.fromCoin}, (s.vault c).val ≤ ∑ c, (s.vault c).val :=
        Finset.sum_le_sum_of_subset (Finset.subset_univ _)
      rw [Finset.sum_pair (Ne.symm hcoins)] at hpair
      rw [BoundedNat.le_iff] at hbalance
      omega
    · rw [if_neg hto]
      omega

/-- A vault move that fits changes the sum by what it brings in. -/
theorem VaultStep.sum_vault {s s' : State T} {m : VaultMove} (h : VaultStep s s' m)
    (hfits : ∑ c, (s.vault c).val + m.added ≤ maxBalance) :
    ∑ c, (s'.vault c).val = ∑ c, (s.vault c).val + m.added := by
  -- no credit is clipped, so each balance moves by its debit and its credit
  have hval : ∀ c, (s'.vault c).val + m.debitedFrom c = (s.vault c).val + m.creditedTo c := by
    intro c
    have hc := h.vault_val c
    have hle := h.credit_le hfits c
    omega
  have hsum : ∑ c, ((s'.vault c).val + m.debitedFrom c) =
      ∑ c, ((s.vault c).val + m.creditedTo c) := Finset.sum_congr rfl fun c _ => hval c
  rw [Finset.sum_add_distrib, Finset.sum_add_distrib, m.sum_creditedTo] at hsum
  omega

variable [DecidableEq AccountId]

/-- Only `seed_vault` brings something in, and it always does. -/
theorem added_vaultMove {s s' : State T} {op : Op T} {out : Outcome T}
    (ht : Transition s op out s') : (vaultMove ⟨s, op, out, s'⟩).added = op.seeds := by
  cases ht with
  | accepted ha =>
    cases ha with
    | finalizeRejected | finalizeApproved =>
      -- a finalization moves nothing or executes a swap
      rcases vaultMove_of_finalize (e := ⟨s, _, _, _⟩) rfl with hmove | ⟨swap, hmove⟩
      · rw [hmove]
        rfl
      · rw [hmove]
        rfl
    | createProposal | voteProposal | deposit | withdraw | seedVault => rfl
  | @refused origin call e hrefused =>
    cases call with
    -- `seed_vault` is never refused
    | seedVault coin amount => exact absurd .seedVault (hrefused _)
    | createProposal | voteProposal | finalizeProposal | deposit | withdraw => rfl
  | block => rfl
  | currency => rfl

/-- **The vault holds what was seeded**: as long as the seeds fit into a balance, swaps move coins
but keep their sum. -/
theorem sum_vault_run (l : T.currency.Ledger) (ops : List (Op T))
    (hseeds : (ops.map Op.seeds).sum ≤ maxBalance) :
    ∑ c, ((run (genesis T l) ops).vault c).val = (ops.map Op.seeds).sum := by
  induction ops using List.reverseRecOn with
  | nil => rfl
  | append_singleton ops op ih =>
    rw [List.map_append, List.sum_append, List.map_singleton, List.sum_singleton] at hseeds ⊢
    -- what fits after the run fits before its last operation
    have hbefore := ih (Nat.le_of_add_right_le hseeds)
    have ht := step_transition (run (genesis T l) ops) op
    have hadded := added_vaultMove ht
    have hsum := (vaultStep ht).sum_vault (by rw [hbefore, hadded]; exact hseeds)
    rw [run, Machine.run_snoc]
    exact hsum.trans (by rw [hbefore, hadded])

end VaultSum

end MulticoinTreasury
