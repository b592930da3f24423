import MulticoinTreasury.Pallet.Refinement

/-!
# The genesis presets

`testnet_genesis` endows each account of a list with `1 << 60`; the development preset and the local
preset are two such lists. On a chain that starts from a preset every number of the DAO fits, so the
pallet is the DAO: for the first four billion operations, up to the last block numbers, and until
somebody seeds the vault with more than `u128::MAX`. Of the currency only the laws are used, and
that nothing is issued later: a chain on which root makes money is not covered. The keyring is
outside the repository; its accounts are parameters.
-/

set_option autoImplicit false

namespace MulticoinTreasury

variable {AccountId : Type} [DecidableEq AccountId]

/-- `1u128 << 60`. -/
def endowmentUnit : ℕ := 1152921504606846976

/-- The balances of `testnet_genesis`. The authorities and the sudo key are not read by the
pallet. -/
def testnetGenesis (endowed : List AccountId) : List (AccountId × ℕ) :=
  endowed.map fun k => (k, endowmentUnit)

/-- `local_config_genesis`: it endows the accounts of the keyring, without two of them. -/
def localConfigGenesis {Keyring : Type} [DecidableEq Keyring] (iter : List Keyring)
    (one two : Keyring) (toAccountId : Keyring → AccountId) : List (AccountId × ℕ) :=
  testnetGenesis ((iter.filter fun v => v ≠ one ∧ v ≠ two).map toAccountId)

/-- The ledger of a genesis configuration: each account has its endowments, nothing is reserved. -/
structure Currency.Endowed (C : Currency AccountId) (l : C.Ledger)
    (balances : List (AccountId × ℕ)) : Prop where
  free : ∀ a, (C.freeBalance l a).val = endowment balances a
  reserved : ∀ a, C.reservedBalance l a = 0

omit [DecidableEq AccountId] in
theorem sum_testnetGenesis (endowed : List AccountId) :
    ((testnetGenesis endowed).map Prod.snd).sum = endowed.length * endowmentUnit := by
  induction endowed with
  | nil => simp [testnetGenesis]
  | cons k rest ih =>
    rw [testnetGenesis, List.map_cons, List.map_cons, List.sum_cons, ← testnetGenesis, ih,
      List.length_cons, Nat.succ_mul, Nat.add_comm]

theorem Currency.Endowed.issuedAtMost {C : Currency AccountId} {l : C.Ledger}
    {balances : List (AccountId × ℕ)} (h : C.Endowed l balances) :
    C.IssuedAtMost l (balances.map Prod.snd).sum := by
  intro s
  have hsum : ∑ a ∈ s, ((C.freeBalance l a).val + (C.reservedBalance l a).val) =
      ∑ a ∈ s, endowment balances a := by
    apply Finset.sum_congr rfl
    intro a _
    rw [h.free, h.reserved, BoundedNat.zero_val, Nat.add_zero]
  rw [hsum]
  exact sum_endowment_le balances s

/-- A preset issues one unit for each endowed account. -/
theorem Currency.Endowed.issued_testnet {C : Currency AccountId} {l : C.Ledger}
    {endowed : List AccountId} (h : C.Endowed l (testnetGenesis endowed))
    (hlength : endowed.length ≤ maxU32) : C.IssuedAtMost l (maxU32 * endowmentUnit) := by
  intro s
  refine (h.issuedAtMost s).trans ?_
  rw [sum_testnetGenesis]
  exact Nat.mul_le_mul_right _ hlength

/-- And so does the local preset, if the keyring is not larger than that. -/
theorem Currency.Endowed.issued_local {C : Currency AccountId} {l : C.Ledger} {Keyring : Type}
    [DecidableEq Keyring] {iter : List Keyring} {one two : Keyring}
    {toAccountId : Keyring → AccountId}
    (h : C.Endowed l (localConfigGenesis iter one two toAccountId))
    (hlength : iter.length ≤ maxU32) : C.IssuedAtMost l (maxU32 * endowmentUnit) := by
  refine h.issued_testnet ?_
  rw [List.length_map]
  exact (List.length_filter_le _ iter).trans hlength

/-- The development chain starts from a testnet of four accounts. -/
theorem endowed_development : DevConfig.currency.Endowed developmentGenesis.ledger
    (testnetGenesis [.alice, .bob, .aliceStash, .bobStash]) where
  free _ := rfl
  reserved _ := rfl

omit [DecidableEq AccountId] in
/-- The budget of a chain that starts from a preset. -/
theorem fits_testnet {C : Currency AccountId} {n V : ℕ} (hn : n ≤ maxU32) (hV : V ≤ maxBalance) :
    Fits (runtimeConfig C) (maxU32 * endowmentUnit) (maxU32 - 10000) n V := by
  have hmax : Fits (runtimeConfig C) (maxU32 * endowmentUnit) (maxU32 - 10000) maxU32
      maxBalance := by
    have hkarma : (runtimeConfig C).karmaUnit.val = 1000000 := rfl
    have hduration : (runtimeConfig C).maxProposalDuration.val = 10000 := rfl
    refine ⟨Nat.le_refl _, ?_, ?_, ?_, Nat.le_refl _⟩
    · rw [hduration]
      decide
    · rw [hkarma]
      decide
    · rw [hkarma]
      decide
  exact hmax.mono hn hV

/-- **On a preset the pallet is exact.** Take any lawful currency whose other operations issue
nothing, and a ledger on which nothing is reserved and no more is issued than four billion
endowments, such as that of a preset. With fewer than `2 ^ 32` operations, block numbers that leave
room for the longest duration, and seeds of at most `u128::MAX` together, the pallet returns what
the DAO returns and stores what the DAO has: nothing overflows and nothing is clipped. -/
theorem preset_runs_are_exact {C : Currency AccountId} (hC : C.Lawful) (hI : C.IssuanceBounded)
    (hN : C.NeverIssues) (l : C.Ledger) (hzero : ∀ a, C.reservedBalance l a = 0)
    (hissued : C.IssuedAtMost l (maxU32 * endowmentUnit)) (ops : List (Op (runtimeConfig C)))
    (hops : ops.length ≤ maxU32) (hblocks : ∀ op ∈ ops, op.UpTo (maxU32 - 10000))
    (hseeds : (ops.map Op.seeds).sum ≤ maxBalance) :
    let s := genesis (runtimeConfig C) l
    let d := Dao.initial (runtimeConfig C) l
    (history s ops).map Machine.Entry.output = (Machine.trace Dao.step d ops).map
        Machine.Entry.output ∧
      HoldsDao (run s ops) (d.run ops) := by
  intro s d
  have hrange := Dao.inRange_of_fits (T := runtimeConfig C) hC hN hzero hissued hblocks
    (fits_testnet hops hseeds)
  exact follows_run (holdsDao_genesis hzero) (safeRun_of_prefixes hC hI hrange)

/-- The development chain up to the approval of Alice's proposal. -/
theorem preset_runs_are_exact_development :
    HoldsDao (run developmentGenesis (beforeEarlyFinalization ++ [aliceFinalizes]))
      ((Dao.initial DevConfig developmentGenesis.ledger).run
        (beforeEarlyFinalization ++ [aliceFinalizes])) := by
  refine (preset_runs_are_exact PlainLedger.currency_lawful PlainLedger.currency_issuanceBounded
    PlainLedger.currency_neverIssues developmentGenesis.ledger endowed_development.reserved
    (endowed_development.issued_testnet (by decide))
    (beforeEarlyFinalization ++ [aliceFinalizes]) (by decide) ?_ (by decide)).2
  intro op hop
  simp only [beforeEarlyFinalization, aliceFinalizes, List.cons_append, List.nil_append,
    List.mem_cons, List.not_mem_nil, or_false] at hop
  rcases hop with rfl | rfl | rfl | rfl | rfl | rfl
  · show (BoundedNat.clamp 4294967295 1).val ≤ maxU32 - 10000
    decide
  all_goals trivial

end MulticoinTreasury
