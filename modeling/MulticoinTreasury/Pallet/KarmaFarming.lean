import MulticoinTreasury.Pallet.DoubleCounting
import MulticoinTreasury.Pallet.SoloGovernance

/-!
# Karma for nothing

A swap of nothing is a swap: an empty vault covers it, and its approval earns its author karma as
any other. So an account that can decide alone once can do so again and again in the same block,
with the same deposit, and has the karma of all its rounds at the end. Karma is never taken away:
whatever happens afterwards, the account still decides alone as long as the total stake is not more
than the karma is worth. Of the currency it is only used that it is lawful and that whether it
reserves an amount depends on the balances of the account.
-/

set_option autoImplicit false

namespace MulticoinTreasury

variable {AccountId : Type}

/-! ## Lists of calls -/

section Calls

variable {T : Config AccountId} [DecidableEq AccountId]

theorem allAccepted_append {s : State T} {ops ops' : List (Op T)} :
    AllAccepted s (ops ++ ops') ↔ AllAccepted s ops ∧ AllAccepted (run s ops) ops' := by
  unfold AllAccepted
  rw [history, Machine.trace_append]
  exact List.forall_mem_append

/-- The five calls, `n` times; each round gets the next id. -/
def Solo.rounds (g : Solo T) : ℕ → State T → List (Op T)
  | 0, _ => []
  | n + 1, s => g.ops s ++ g.rounds n (run s (g.ops s))

/-- No run takes karma away. -/
theorem karma_le_run (s : State T) (ops : List (Op T)) (a : AccountId) :
    (s.karma a).val ≤ ((run s ops).karma a).val := by
  refine run_invariant (P := fun t : State T => (s.karma a).val ≤ (t.karma a).val) ?_
    (Nat.le_refl _) ops
  intro t t' op out ht h
  exact h.trans (karma_le_step ht a)

omit [DecidableEq AccountId] in
/-- A swap of nothing leaves the vault as it is. -/
theorem swapped_vault_of_zero (s : State T) (id : ProposalId) {swap : Swap}
    (hamount : swap.amount = 0) : (s.swapped id swap).vault = s.vault := by
  have hdebit : (s.vault swap.fromCoin).saturatingSub swap.amount = s.vault swap.fromCoin := by
    apply BoundedNat.ext
    rw [hamount, BoundedNat.saturatingSub_val, BoundedNat.zero_val, Nat.sub_zero]
  have hcredit : (s.vault swap.toCoin).saturatingAdd swap.amount = s.vault swap.toCoin := by
    apply BoundedNat.ext
    have hmax := (s.vault swap.toCoin).le_max
    rw [hamount, BoundedNat.saturatingAdd_val, BoundedNat.zero_val, Nat.add_zero,
      Nat.min_eq_left hmax]
  unfold State.swapped
  rw [hdebit, hcredit, Function.update_eq_self, Function.update_eq_self]

end Calls

section Runtime

variable [DecidableEq AccountId] {C : Currency AccountId}

/-- What `n` rounds of an account leave. -/
structure Solo.Farmed (g : Solo (runtimeConfig C)) (n : ℕ) (s s' : State (runtimeConfig C)) :
    Prop where
  karma : (s'.karma g.who).val = min ((s.karma g.who).val + n) maxU32
  next : s'.nextProposalId.val = s.nextProposalId.val + n
  block : s'.blockNumber = s.blockNumber
  vault : s'.vault = s.vault
  stake : stakeView g.who s' = stakeView g.who s
  total : s'.totalStake = s.totalStake

variable {g : Solo (runtimeConfig C)} {s t u : State (runtimeConfig C)}

omit [DecidableEq AccountId] in
theorem Solo.Farmed.refl (g : Solo (runtimeConfig C)) (s : State (runtimeConfig C)) :
    g.Farmed 0 s s where
  karma := (Nat.min_eq_left (s.karma g.who).le_max).symm
  next := rfl
  block := rfl
  vault := rfl
  stake := rfl
  total := rfl

omit [DecidableEq AccountId] in
theorem Solo.Farmed.trans {m n : ℕ} (h : g.Farmed m s t) (h' : g.Farmed n t u) :
    g.Farmed (n + m) s u where
  karma := by
    rw [h'.karma, h.karma]
    omega
  next := by
    rw [h'.next, h.next]
    omega
  block := h'.block.trans h.block
  vault := h'.vault.trans h.vault
  stake := h'.stake.trans h.stake
  total := h'.total.trans h.total

/-- **One round.** -/
theorem farmed_of_possible (hC : C.Lawful) (hI : C.IssuanceBounded) {book : Book AccountId}
    (h : HoldsTotal s book) (hstore : StoreInv s) (hamount : g.swap.amount = 0)
    (hpossible : g.Possible s) : g.Farmed 1 s (run s (g.ops s)) := by
  obtain ⟨l, next, hneeds⟩ := (solo_needs_iff hC hI h).2 hpossible
  have hdone := done_of_possible hC hI h hstore hpossible
  have hrun := (hneeds.accepted hstore (hneeds.covered hC h)).2
  have hnext : next.val = s.nextProposalId.val + 1 :=
    BoundedNat.checkedAdd_eq_some_iff.1 hneeds.successor
  refine ⟨?_, ?_, ?_, ?_, hdone.stake, hdone.total⟩
  · rw [hdone.karma]
    rfl
  · rw [hrun]
    exact hnext
  · rw [hrun]
    rfl
  · rw [hdone.vault]
    exact swapped_vault_of_zero s _ hamount

omit [DecidableEq AccountId] in
/-- A currency that looks at the two balances of the account only reserves the same amount again
when they are the same again. -/
theorem reservable_of_stakeView (hR : C.ReserveLocal) {who : AccountId} {x : Balance}
    (hview : stakeView who t = stakeView who s) (h : ∃ l, C.reserve s.ledger who x = .ok l) :
    ∃ l, C.reserve t.ledger who x = .ok l := by
  obtain ⟨-, hfree, hreserved⟩ := StakeView.mk.inj hview
  obtain ⟨l, hl⟩ := h
  have hsame := hR t.ledger s.ledger who x hfree hreserved
  rw [hl] at hsame
  cases ht : C.reserve t.ledger who x with
  | ok l' => exact ⟨l', rfl⟩
  | error e =>
    rw [ht] at hsame
    cases hsame

omit [DecidableEq AccountId] in
/-- What was possible before some rounds is possible after them, while ids are left. -/
theorem Solo.Farmed.possible (hR : C.ReserveLocal) {n : ℕ} (h : g.Farmed n s t)
    (hpossible : g.Possible s) (hid : t.nextProposalId.val ≠ maxU32) : g.Possible t := by
  obtain ⟨hdeposits, -, -⟩ := StakeView.mk.inj h.stake
  have hkarma : (s.karma g.who).val ≤ (t.karma g.who).val := by
    rw [h.karma]
    exact Nat.le_min.2 ⟨Nat.le_add_right _ _, (s.karma g.who).le_max⟩
  have hweight := hpossible.weight
  have hothers := hpossible.others
  refine ⟨⟨?_, hpossible.min_duration, hpossible.max_duration, hid, ?_, hpossible.coins, ?_⟩,
    ?_, ?_⟩
  · exact reservable_of_stakeView hR h.stake hpossible.reservable
  · rw [h.block]
    exact hpossible.block_left
  · rw [h.vault]
    exact hpossible.balance
  · rw [hdeposits]
    omega
  · rw [h.total, hdeposits]
    omega

/-- **Round after round**, as long as there are ids. -/
theorem rounds_accepted (hC : C.Lawful) (hI : C.IssuanceBounded) (hR : C.ReserveLocal) (n : ℕ)
    {book : Book AccountId} (h : HoldsTotal s book) (hstore : StoreInv s)
    (hamount : g.swap.amount = 0) (hpossible : g.Possible s)
    (hids : s.nextProposalId.val + n ≤ maxU32) :
    AllAccepted s (g.rounds n s) ∧ g.Farmed n s (run s (g.rounds n s)) := by
  induction n generalizing s book with
  | zero => exact ⟨allAccepted_nil s, .refl g s⟩
  | succ n ih =>
    have hfirst := farmed_of_possible hC hI h hstore hamount hpossible
    have haccepted := (solo_accepted_iff hC hI h hstore).2 hpossible
    obtain ⟨book', hbook'⟩ := h.run hC hI (g.ops s)
    have hnext := hfirst.next
    have hrun : run s (g.rounds (n + 1) s) =
        run (run s (g.ops s)) (g.rounds n (run s (g.ops s))) := Machine.run_append step s _ _
    rw [hrun, Solo.rounds, allAccepted_append]
    rcases Nat.eq_zero_or_pos n with rfl | hn
    · -- the last round may use up the ids
      exact ⟨⟨haccepted, allAccepted_nil _⟩, hfirst.trans (.refl g _)⟩
    · have hagain := hfirst.possible hR hpossible (by omega)
      obtain ⟨hrest, hfarmed⟩ := ih hbook' (storeInv_run hstore _) hagain (by omega)
      exact ⟨⟨haccepted, hrest⟩, hfirst.trans hfarmed⟩

/-- Accepted rounds have had their ids. -/
theorem ids_of_rounds (hC : C.Lawful) (hI : C.IssuanceBounded) (n : ℕ) {book : Book AccountId}
    (h : HoldsTotal s book) (hstore : StoreInv s) (hamount : g.swap.amount = 0)
    (haccepted : AllAccepted s (g.rounds n s)) : s.nextProposalId.val + n ≤ maxU32 := by
  induction n generalizing s book with
  | zero => exact s.nextProposalId.le_max
  | succ n ih =>
    rw [Solo.rounds, allAccepted_append] at haccepted
    obtain ⟨hfirst, hrest⟩ := haccepted
    have hfarmed := farmed_of_possible hC hI h hstore hamount
      ((solo_accepted_iff hC hI h hstore).1 hfirst)
    obtain ⟨book', hbook'⟩ := h.run hC hI (g.ops s)
    have hids := ih hbook' (storeInv_run hstore _) hrest
    have hnext := hfarmed.next
    omega

/-- **Karma can be farmed, and it is for good.** In every reachable state of the runtime, over any
lawful currency, an account can go through `n` rounds of deposit, proposal of a swap of nothing,
vote, finalization and withdrawal in one block if and only if it can go through one and `n` ids are
left. It then has `n` karma more, and its stake, its balances, the total stake and the vault are as
before. From there on, whatever the others do, it can decide alone over any swap that the vault
covers with any deposit that the currency reserves, in every state in which the total stake is not
more than its karma is worth. -/
theorem karma_can_be_farmed (hC : C.Lawful) (hI : C.IssuanceBounded) (hR : C.ReserveLocal)
    (l : C.Ledger) (hzero : ∀ a, C.reservedBalance l a = 0) (ops : List (Op (runtimeConfig C)))
    (g : Solo (runtimeConfig C)) (hamount : g.swap.amount = 0) (n : ℕ) (hn : 0 < n) :
    let s := run (genesis (runtimeConfig C) l) ops
    let s' := run s (g.rounds n s)
    (AllAccepted s (g.rounds n s) ↔ g.Possible s ∧ s.nextProposalId.val + n ≤ maxU32) ∧
      (AllAccepted s (g.rounds n s) → g.Farmed n s s' ∧
        ∀ more (g' : Solo (runtimeConfig C)), g'.who = g.who → g'.Routine (run s' more) →
          (run s' more).totalStake.val ≤ 1000000 * min ((s.karma g.who).val + n) maxU32 + 1 →
            AllAccepted (run s' more) (g'.ops (run s' more)) ∧
              g'.Done (run s' more) (run (run s' more) (g'.ops (run s' more)))) := by
  intro s s'
  obtain ⟨book, hbook⟩ := holdsTotal_run (T := runtimeConfig C) hC hI hzero ops
  have hstore : StoreInv s := storeInv_reached l ops
  have hiff : AllAccepted s (g.rounds n s) ↔
      g.Possible s ∧ s.nextProposalId.val + n ≤ maxU32 := by
    constructor
    · intro haccepted
      refine ⟨?_, ids_of_rounds hC hI n hbook hstore hamount haccepted⟩
      -- there is a first round
      obtain ⟨m, rfl⟩ := Nat.exists_eq_succ_of_ne_zero (Nat.ne_of_gt hn)
      rw [Solo.rounds, allAccepted_append] at haccepted
      exact (solo_accepted_iff hC hI hbook hstore).1 haccepted.1
    · rintro ⟨hpossible, hids⟩
      exact (rounds_accepted hC hI hR n hbook hstore hamount hpossible hids).1
  refine ⟨hiff, fun haccepted => ?_⟩
  obtain ⟨hpossible, hids⟩ := hiff.1 haccepted
  obtain ⟨-, hfarmed⟩ := rounds_accepted hC hI hR n hbook hstore hamount hpossible hids
  refine ⟨hfarmed, fun more g' hwho hroutine htotal => ?_⟩
  obtain ⟨book₁, hbook₁⟩ := hbook.run hC hI (g.rounds n s)
  obtain ⟨book', hbook'⟩ := hbook₁.run hC hI more
  have hstore' : StoreInv (run s' more) := storeInv_run (storeInv_run hstore _) more
  -- the karma of the rounds is still there
  have hkarma : min ((s.karma g.who).val + n) maxU32 ≤ ((run s' more).karma g'.who).val := by
    rw [hwho, ← hfarmed.karma]
    exact karma_le_run s' more g.who
  have hmin : 0 < min ((s.karma g.who).val + n) maxU32 := by
    unfold maxU32
    omega
  have hpossible' : g'.Possible (run s' more) := by
    refine ⟨hroutine, ?_, ?_⟩
    · omega
    · omega
  exact ⟨(solo_accepted_iff hC hI hbook' hstore').2 hpossible',
    done_of_possible hC hI hbook' hstore' hpossible'⟩

/-- Alice swaps nothing three times. Bob then stakes two million units and seeds the vault, which
Alice empties alone. -/
theorem karma_can_be_farmed_alice :
    let s := run developmentGenesis [.block (.clamp _ 1)]
    let g : Solo DevConfig := ⟨.alice, .clamp _ 1, ⟨[], by decide⟩, ⟨[], by decide⟩, .clamp _ 10,
      ⟨.dot, .kusama, 0⟩⟩
    let t := run (run s (g.rounds 3 s)) [.call (.signed .bob) (.deposit (.clamp _ 2000000)),
      .call (.signed .bob) (.seedVault .dot (.clamp _ 5))]
    let g' : Solo DevConfig := { g with swap := ⟨.dot, .kusama, .clamp _ 5⟩ }
    g.Farmed 3 s (run s (g.rounds 3 s)) ∧ AllAccepted t (g'.ops t) := by
  intro s g t g'
  have hfarming := karma_can_be_farmed PlainLedger.currency_lawful
    PlainLedger.currency_issuanceBounded PlainLedger.currency_reserveLocal
    developmentGenesis.ledger (fun _ => rfl) [.block (.clamp _ 1)] g rfl 3 (by decide)
  have hpossible : g.Possible s :=
    ⟨⟨⟨_, rfl⟩, by decide, by decide, by decide, by decide, by decide, by decide⟩, by decide,
      by decide⟩
  obtain ⟨hfarmed, hforever⟩ := hfarming.2 (hfarming.1.2 ⟨hpossible, by decide⟩)
  have hroutine : g'.Routine t :=
    ⟨PlainLedger.exists_reserve (by decide +kernel), by decide, by decide, by decide +kernel,
      by decide +kernel, by decide, by decide +kernel⟩
  exact ⟨hfarmed, (hforever _ g' rfl hroutine (by decide +kernel)).1⟩

end Runtime

end MulticoinTreasury
