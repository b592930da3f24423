import MulticoinTreasury.Pallet.System
import MulticoinTreasury.Pallet.PlainLedger

/-!
# The configuration of the runtime

The constants of `runtime/src/configs/mod.rs`. The currency of the runtime is outside the
repository, so it stays a parameter. Concrete runs start from the development chain of
`runtime/src/genesis_config_presets.rs` with its four endowed accounts, on a plain ledger.
-/

set_option autoImplicit false

namespace MulticoinTreasury

/-- `Permill::from_parts(666_666_666)`; the source comments it as two thirds. -/
def daoQuorum : Permill := .fromParts 666666666

def daoApprovalOfQuorum : Permill := .fromPercent 50

/-- `impl pallet_template::Config for Runtime`, for any currency. -/
def runtimeConfig {AccountId : Type} (C : Currency AccountId) : Config AccountId where
  maxTitleLen := .clamp _ 64
  maxDescriptionLen := .clamp _ 1024
  minProposalDuration := .clamp _ 10
  maxProposalDuration := .clamp _ 10000
  currency := C
  quorum := daoQuorum
  approvalOfQuorum := daoApprovalOfQuorum
  karmaUnit := .clamp _ 1000000

/-- The accounts that the development genesis endows. -/
inductive DevAccount where
  | alice
  | bob
  | aliceStash
  | bobStash
  deriving DecidableEq, Repr

/-- The runtime with a plain ledger as its currency. -/
abbrev DevConfig : Config DevAccount := runtimeConfig (PlainLedger.currency DevAccount)

/-- Every endowed account starts with `1 << 60`. -/
def developmentGenesis : State DevConfig :=
  genesis DevConfig (PlainLedger.genesis
    [(.alice, 1152921504606846976), (.bob, 1152921504606846976),
      (.aliceStash, 1152921504606846976), (.bobStash, 1152921504606846976)] (by decide))

/-- A proposal without a text, open for ten blocks. -/
def proposeSwap (swap : Swap) : Call DevConfig :=
  .createProposal ⟨[], by decide⟩ ⟨[], by decide⟩ (.clamp _ 10) (.swap swap)

end MulticoinTreasury
