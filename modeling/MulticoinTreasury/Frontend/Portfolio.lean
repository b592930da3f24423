import MulticoinTreasury.Library.InsertionMap
import MulticoinTreasury.Library.Rounding
import MulticoinTreasury.Pallet.Budget

/-!
# The portfolio page

`portfolio.tsx` reads the entries of the vault, whose keys the node may write as texts, as indices
or as objects, turns the amounts into floating-point numbers, and shows the coins of which there is
something as slices, the largest first. Whatever the order and the form of the entries, the slices
are those of the vault; and as long as no more than `2 ^ 53` units have been seeded, they add up to
exactly the seeds, however many swaps have been executed since.
-/

set_option autoImplicit false

namespace MulticoinTreasury

namespace Portfolio

/-! ## The page -/

/-- A key of the vault as JSON. -/
inductive RawKey where
  | text (name : String)
  | number (index : ℕ)
  | object (keys : List String)
  | null

def coinColors : String → Option String
  | "Dot" => some "#E6007A"
  | "Kusama" => some "#9E9E9E"
  | "Usdc" => some "#2775CA"
  | "Centrifuge" => some "#F5A800"
  | _ => none

def indexToCoin : List String := ["Dot", "Kusama", "Usdc", "Centrifuge"]

def coinName : RawKey → Option String
  | .text name => some name
  | .number index => indexToCoin[index]?
  | .object keys => keys.head?
  | .null => none

/-- `Number(bn)` -/
def toNumber (bn : U128) : ℕ := Rounding.round 53 bn.val

structure Slice where
  name : String
  value : ℕ
  color : Option String
  deriving DecidableEq, Repr

/-- The map `balances` before the first entry. -/
def noBalances : List (String × ℕ) := [("Dot", 0), ("Kusama", 0), ("Usdc", 0), ("Centrifuge", 0)]

/-- One round of the loop over the entries. -/
def readEntry (balances : List (String × ℕ)) (entry : RawKey × U128) : List (String × ℕ) :=
  match coinName entry.1 with
  | none => balances
  | some name =>
      if name = "" then balances
      else if 0 < toNumber entry.2 then InsertionMap.set name (toNumber entry.2) balances
      else balances

/-- The entries of the map with a positive number, the largest first. -/
def ranked (balances : List (String × ℕ)) : List (String × ℕ) :=
  (balances.filter fun b => 0 < b.2).mergeSort fun a b => b.2 ≤ a.2

def slices (entries : List (RawKey × U128)) : List Slice :=
  (ranked (entries.foldl readEntry noBalances)).map fun b => ⟨b.1, b.2, coinColors b.1⟩

def totalVal (slices : List Slice) : ℕ := Rounding.sum 53 (slices.map Slice.value)

/-! ## The coins -/

def coins : List Coin := [.dot, .kusama, .usdc, .centrifuge]

/-- The name of a coin in the metadata of the pallet. -/
def coinText : Coin → String
  | .dot => "Dot"
  | .kusama => "Kusama"
  | .usdc => "Usdc"
  | .centrifuge => "Centrifuge"

/-- The forms in which a coin can be a key. -/
inductive KeyOf (c : Coin) : RawKey → Prop
  | text : KeyOf c (.text (coinText c))
  | number {index : ℕ} (h : indexToCoin[index]? = some (coinText c)) : KeyOf c (.number index)
  | object {rest : List String} : KeyOf c (.object (coinText c :: rest))

/-- The slice of a coin. -/
def sliceOf (vault : Coin → U128) (c : Coin) : Slice :=
  ⟨coinText c, toNumber (vault c), coinColors (coinText c)⟩

theorem mem_coins (c : Coin) : c ∈ coins := by
  cases c <;> decide

theorem coins_nodup : coins.Nodup := by
  decide

theorem coinText_injective : Function.Injective coinText := by
  intro c d
  cases c <;> cases d <;> decide

theorem coinText_ne_empty (c : Coin) : coinText c ≠ "" := by
  cases c <;> decide

theorem sum_coins (f : Coin → ℕ) : (coins.map f).sum = ∑ c, f c :=
  (List.sum_toFinset f coins_nodup).symm

theorem KeyOf.coinName_eq {c : Coin} {k : RawKey} (h : KeyOf c k) :
    coinName k = some (coinText c) := by
  cases h with
  | text => rfl
  | number h => exact h
  | object => rfl

@[simp] theorem toNumber_pos {x : U128} : 0 < toNumber x ↔ 0 < x.val :=
  Rounding.round_pos (by decide)

theorem toNumber_of_le {x : U128} (h : x.val ≤ 2 ^ 53) : toNumber x = x.val :=
  Rounding.round_of_le (by decide) h

/-! ## Reading the entries -/

/-- The entries of the vault for a list of coins that are stored. -/
def entriesOf (key : Coin → RawKey) (vault : Coin → U128) (stored : List Coin) :
    List (RawKey × U128) := stored.map fun c => (key c, vault c)

section Reading

variable {key : Coin → RawKey} {vault : Coin → U128} {stored : List Coin}

/-- The loop fills in the map. -/
theorem readEntry_key (hkey : ∀ c, KeyOf c (key c)) (balances : List (String × ℕ)) (c : Coin) :
    readEntry balances (key c, vault c) =
      if 0 < (vault c).val then InsertionMap.set (coinText c) (toNumber (vault c)) balances
      else balances := by
  unfold readEntry
  rw [(hkey c).coinName_eq]
  -- a coin has a text, and rounding keeps what is positive
  simp only [toNumber_pos, if_neg (coinText_ne_empty c)]

theorem balances_eq (hkey : ∀ c, KeyOf c (key c))
    (hstored : ∀ c, 0 < (vault c).val → c ∈ stored) :
    (entriesOf key vault stored).foldl readEntry noBalances =
      InsertionMap.graph coinText coins fun c => toNumber (vault c) := by
  have hstart : noBalances = InsertionMap.graph coinText coins fun _ => 0 := rfl
  have hfilter : stored.foldl (fun m c => if 0 < (vault c).val then
        InsertionMap.set (coinText c) (toNumber (vault c)) m else m) noBalances =
      (stored.filter fun c => 0 < (vault c).val).foldl
        (fun m c => InsertionMap.set (coinText c) (toNumber (vault c)) m) noBalances := by
    rw [List.foldl_filter]
    simp only [decide_eq_true_eq]
  rw [entriesOf, List.foldl_map]
  simp only [readEntry_key hkey]
  rw [hfilter, hstart, InsertionMap.foldl_set_graph coinText_injective coins_nodup _
    (fun c => toNumber (vault c)) fun c _ => mem_coins c]
  -- a coin that was not set has nothing in the vault
  apply List.map_congr_left
  intro c _
  dsimp only
  rcases Nat.eq_zero_or_pos (vault c).val with hzero | hpos
  · have hnumber : toNumber (vault c) = 0 := by
      rw [toNumber_of_le (by rw [hzero]; exact Nat.zero_le _), hzero]
    rw [hnumber, ite_self]
  · have hmem : c ∈ stored.filter fun c => decide (0 < (vault c).val) :=
      List.mem_filter.2 ⟨hstored c hpos, decide_eq_true hpos⟩
    rw [if_pos hmem]

/-- The slices do not depend on the order or the form of the entries. -/
theorem slices_eq (hkey : ∀ c, KeyOf c (key c)) (hstored : ∀ c, 0 < (vault c).val → c ∈ stored) :
    slices (entriesOf key vault stored) =
      (ranked (InsertionMap.graph coinText coins fun c => toNumber (vault c))).map
        fun b => ⟨b.1, b.2, coinColors b.1⟩ := by
  rw [slices, balances_eq hkey hstored]

end Reading

/-! ## The slices -/

theorem ranked_perm (balances : List (String × ℕ)) :
    (ranked balances).Perm (balances.filter fun b => 0 < b.2) := List.mergeSort_perm _ _

theorem ranked_sorted (balances : List (String × ℕ)) :
    (ranked balances).Pairwise fun a b => b.2 ≤ a.2 := by
  refine (List.pairwise_mergeSort ?_ ?_ _).imp ?_
  · intro a b c hab hbc
    rw [decide_eq_true_eq] at hab hbc ⊢
    exact Nat.le_trans hbc hab
  · intro a b
    rw [Bool.or_eq_true, decide_eq_true_eq, decide_eq_true_eq]
    exact Nat.le_total _ _
  · intro a b hab
    exact of_decide_eq_true hab

/-- What is left out adds nothing. -/
theorem sum_ranked (balances : List (String × ℕ)) :
    ((ranked balances).map Prod.snd).sum = (balances.map Prod.snd).sum := by
  rw [((ranked_perm balances).map Prod.snd).sum_eq]
  induction balances with
  | nil => rfl
  | cons b balances ih =>
    -- only zeros are filtered out
    rcases Nat.eq_zero_or_pos b.2 with hzero | hpos
    · rw [List.filter_cons_of_neg (by simp [hzero]), ih, List.map_cons, List.sum_cons, hzero,
        Nat.zero_add]
    · rw [List.filter_cons_of_pos (by simpa using hpos), List.map_cons, List.sum_cons, ih,
        List.map_cons, List.sum_cons]

/-- The slices show a vault. -/
structure Shows (vault : Coin → U128) (shown : List Slice) : Prop where
  nodup : (shown.map Slice.name).Nodup
  mem_iff : ∀ a, a ∈ shown ↔ ∃ c, 0 < (vault c).val ∧ a = sliceOf vault c
  sorted : shown.Pairwise fun a b => b.value ≤ a.value
  monotone : ∀ c d, (vault c).val ≤ (vault d).val →
    (sliceOf vault c).value ≤ (sliceOf vault d).value
  accurate : ∀ c, 2 ^ 53 * (vault c).val ≤ 2 ^ 53 * (sliceOf vault c).value + (vault c).val ∧
    2 ^ 53 * (sliceOf vault c).value ≤ 2 ^ 53 * (vault c).val + (vault c).val

theorem shows_slices {key : Coin → RawKey} {vault : Coin → U128} {stored : List Coin}
    (hkey : ∀ c, KeyOf c (key c)) (hstored : ∀ c, 0 < (vault c).val → c ∈ stored) :
    Shows vault (slices (entriesOf key vault stored)) := by
  rw [slices_eq hkey hstored]
  have hperm := ranked_perm (InsertionMap.graph coinText coins fun c => toNumber (vault c))
  constructor
  · rw [List.map_map]
    show ((ranked _).map Prod.fst).Nodup
    rw [(hperm.map Prod.fst).nodup_iff]
    -- the texts of the coins are distinct, before and after the filter
    refine List.Nodup.sublist ((List.filter_sublist).map Prod.fst) ?_
    rw [InsertionMap.graph, List.map_map]
    exact coins_nodup.map coinText_injective
  · intro a
    rw [List.mem_map]
    constructor
    · rintro ⟨b, hb, rfl⟩
      obtain ⟨hb, hpos⟩ := List.mem_filter.1 (hperm.mem_iff.1 hb)
      obtain ⟨c, -, rfl⟩ := List.mem_map.1 hb
      exact ⟨c, toNumber_pos.1 (of_decide_eq_true hpos), rfl⟩
    · rintro ⟨c, hpos, rfl⟩
      refine ⟨(coinText c, toNumber (vault c)), hperm.mem_iff.2 (List.mem_filter.2 ⟨?_, ?_⟩), rfl⟩
      · exact List.mem_map.2 ⟨c, mem_coins c, rfl⟩
      · exact decide_eq_true (toNumber_pos.2 hpos)
  · exact List.pairwise_map.2 (ranked_sorted _)
  · intro c d hle
    exact Rounding.round_mono (by decide) hle
  · intro c
    exact Rounding.round_error 53 (vault c).val

/-- Up to `2 ^ 53` units, nothing is rounded. -/
theorem totalVal_slices {key : Coin → RawKey} {vault : Coin → U128} {stored : List Coin}
    (hkey : ∀ c, KeyOf c (key c)) (hstored : ∀ c, 0 < (vault c).val → c ∈ stored)
    (hsum : ∑ c, (vault c).val ≤ 2 ^ 53) :
    totalVal (slices (entriesOf key vault stored)) = ∑ c, (vault c).val := by
  have hexact : ∀ c, toNumber (vault c) = (vault c).val := by
    intro c
    exact toNumber_of_le ((vault_le_sum vault c).trans hsum)
  have hvalues : ((slices (entriesOf key vault stored)).map Slice.value).sum =
      ∑ c, (vault c).val := by
    rw [slices_eq hkey hstored, List.map_map]
    show ((ranked _).map Prod.snd).sum = _
    rw [sum_ranked, InsertionMap.graph, List.map_map, ← sum_coins]
    congr 1
    apply List.map_congr_left
    intro c _
    exact hexact c
  -- the additions of the page are exact in the range of the sum
  rw [totalVal, Rounding.sum_of_le (by decide) (by rw [hvalues]; exact hsum), hvalues]

end Portfolio

open Portfolio

variable {AccountId : Type} [DecidableEq AccountId] {T : Config AccountId}

/-- **The portfolio shows the vault.** In every reachable state, for every order in which the node
lists the entries of the vault and every form of their keys, the slices are the coins of which the
vault has something, each once, the largest first; a coin of which there is more has no smaller
value, and each value is right up to one part in `2 ^ 53`. If no more than `2 ^ 53` units have been
seeded in the run, the values are exact and add up to the seeds, whatever swaps have been
executed. -/
theorem portfolio_shows_vault (l : T.currency.Ledger) (ops : List (Op T)) (key : Coin → RawKey)
    (hkey : ∀ c, KeyOf c (key c)) (stored : List Coin)
    (hstored : ∀ c, 0 < ((run (genesis T l) ops).vault c).val → c ∈ stored) :
    let s := run (genesis T l) ops
    let shown := slices (entriesOf key s.vault stored)
    Shows s.vault shown ∧
      (∀ key' stored', (∀ c, KeyOf c (key' c)) → (∀ c, 0 < (s.vault c).val → c ∈ stored') →
        slices (entriesOf key' s.vault stored') = shown) ∧
      ((ops.map Op.seeds).sum ≤ 2 ^ 53 →
        (∀ c, (sliceOf s.vault c).value = (s.vault c).val) ∧
          totalVal shown = (ops.map Op.seeds).sum) := by
  intro s shown
  refine ⟨shows_slices hkey hstored, ?_, ?_⟩
  · intro key' stored' hkey' hstored'
    exact (slices_eq hkey' hstored').trans (slices_eq hkey hstored).symm
  · intro hseeds
    have hmax : 2 ^ 53 ≤ maxBalance := by decide
    -- swaps keep the sum of the vault, and the seeds fit
    have hsum : ∑ c, (s.vault c).val = (ops.map Op.seeds).sum :=
      sum_vault_run l ops (hseeds.trans hmax)
    rw [← hsum] at hseeds ⊢
    refine ⟨fun c => ?_, totalVal_slices hkey hstored hseeds⟩
    exact toNumber_of_le ((vault_le_sum s.vault c).trans hseeds)

/-- Alice and Bob seed two coins, and a proposal of Alice moves two units from one to the other. -/
def seededAndSwapped : List (Op DevConfig) :=
  [.block (.clamp _ 1), .call (.signed .alice) (.seedVault .dot (.clamp _ 5)),
    .call (.signed .bob) (.seedVault .usdc (.clamp _ 4)),
    .call (.signed .alice) (.deposit (.clamp _ 100)),
    .call (.signed .alice) (proposeSwap ⟨.dot, .usdc, .clamp _ 2⟩),
    .call (.signed .alice) (.voteProposal 0 .forVote),
    .call (.signed .alice) (.finalizeProposal 0)]

/-- After the swap there is more of the coin that was bought, and the total is what was seeded. -/
theorem portfolio_shows_vault_alice :
    let s := run developmentGenesis seededAndSwapped
    let shown := slices (entriesOf (fun c => .text (coinText c)) s.vault coins)
    Shows s.vault shown ∧ (sliceOf s.vault .usdc).value = 6 ∧ (sliceOf s.vault .dot).value = 3 ∧
      totalVal shown = 9 := by
  have hshown := portfolio_shows_vault (T := DevConfig) developmentGenesis.ledger seededAndSwapped
    (fun c => .text (coinText c)) (fun _ => .text) coins fun c _ => mem_coins c
  obtain ⟨hexact, htotal⟩ := hshown.2.2 (by decide)
  exact ⟨hshown.1, hexact .usdc, hexact .dot, htotal⟩

end MulticoinTreasury
