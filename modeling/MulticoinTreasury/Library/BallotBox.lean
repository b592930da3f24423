import Mathlib.Tactic

/-!
# Weighted ballots

A ballot box holds the ballots of a weighted vote in the order they were cast. That nobody votes
twice and no ballot is without weight are fields of the box, so `cast` asks for both. A choice is
counted by the weights of its ballots plus a fixed surcharge for each of them.
-/

set_option autoImplicit false

universe u v

/-- One cast vote. -/
structure Ballot (V : Type u) (K : Type v) where
  voter : V
  choice : K
  weight : Nat
  deriving DecidableEq, Repr

/-- Ballots of different voters, each of positive weight. -/
structure BallotBox (V : Type u) (K : Type v) where
  ballots : List (Ballot V K)
  once : (ballots.map Ballot.voter).Nodup
  weighty : ∀ b ∈ ballots, 0 < b.weight

namespace BallotBox

variable {V : Type u} {K : Type v}

def empty : BallotBox V K where
  ballots := []
  once := List.nodup_nil
  weighty _ hb := absurd hb List.not_mem_nil

/-- The voters of a box, in the order they voted. -/
def voters (box : BallotBox V K) : List V := box.ballots.map Ballot.voter

/-- A box with one more ballot, of a new voter. -/
def cast (box : BallotBox V K) (b : Ballot V K) (hnew : b.voter ∉ box.voters)
    (hweight : 0 < b.weight) : BallotBox V K where
  ballots := box.ballots ++ [b]
  once := by
    rw [List.map_append, List.map_singleton]
    refine List.nodup_append.2 ⟨box.once, List.nodup_singleton _, ?_⟩
    intro v hv w hw heq
    rw [List.mem_singleton] at hw
    subst hw
    subst heq
    exact hnew hv
  weighty c hc := by
    rcases List.mem_append.1 hc with hc | hc
    · exact box.weighty c hc
    · rw [List.mem_singleton] at hc
      subst hc
      exact hweight

@[simp] theorem voters_empty : (empty : BallotBox V K).voters = [] := rfl

@[simp] theorem voters_cast (box : BallotBox V K) (b : Ballot V K) (hnew : b.voter ∉ box.voters)
    (hweight : 0 < b.weight) : (box.cast b hnew hweight).voters = box.voters ++ [b.voter] :=
  List.map_append

/-! ## Sums over ballots and voters -/

/-- The weights of all ballots. -/
def weight (box : BallotBox V K) : Nat := (box.ballots.map Ballot.weight).sum

/-- The sum of a quantity over the voters. -/
def voterSum (f : V → Nat) (box : BallotBox V K) : Nat := (box.voters.map f).sum

theorem weight_of_append {box box' : BallotBox V K} {bs : List (Ballot V K)}
    (h : box'.ballots = box.ballots ++ bs) :
    box'.weight = box.weight + (bs.map Ballot.weight).sum := by
  rw [weight, h, List.map_append, List.sum_append, weight]

theorem voterSum_of_append (f : V → Nat) {box box' : BallotBox V K} {bs : List (Ballot V K)}
    (h : box'.ballots = box.ballots ++ bs) :
    box'.voterSum f = box.voterSum f + (bs.map fun b => f b.voter).sum := by
  simp only [voterSum, voters, h, List.map_append, List.sum_append, List.map_map]
  rfl

theorem voterSum_add (f g : V → Nat) (box : BallotBox V K) :
    box.voterSum (fun v => f v + g v) = box.voterSum f + box.voterSum g :=
  List.sum_map_add

theorem voterSum_le_voterSum {f g : V → Nat} (h : ∀ v, f v ≤ g v) (box : BallotBox V K) :
    box.voterSum f ≤ box.voterSum g :=
  List.sum_le_sum fun v _ => h v

/-- Nobody votes twice, so the sum along the voters is a sum over a set. -/
theorem voterSum_eq_sum [DecidableEq V] (f : V → Nat) (box : BallotBox V K) :
    box.voterSum f = ∑ v ∈ box.voters.toFinset, f v :=
  (List.sum_toFinset f box.once).symm

/-! ## Tallies -/

variable [DecidableEq K]

/-- The count of the choice `k`: the weights of its ballots, and `surcharge` for each ballot. -/
def tally (surcharge : Nat) (k : K) (box : BallotBox V K) : Nat :=
  ((box.ballots.filter (·.choice = k)).map (·.weight + surcharge)).sum

@[simp] theorem tally_empty (surcharge : Nat) (k : K) :
    (empty : BallotBox V K).tally surcharge k = 0 := rfl

theorem tally_cast (surcharge : Nat) (k : K) (box : BallotBox V K) (b : Ballot V K)
    (hnew : b.voter ∉ box.voters) (hweight : 0 < b.weight) :
    (box.cast b hnew hweight).tally surcharge k =
      box.tally surcharge k + if b.choice = k then b.weight + surcharge else 0 := by
  by_cases h : b.choice = k
  · simp [tally, cast, h]
  · simp [tally, cast, h]

/-- The counts of two choices together are at most all weights and all surcharges. -/
theorem tally_add_tally_le (surcharge : Nat) {k₁ k₂ : K} (hk : k₁ ≠ k₂) (box : BallotBox V K) :
    box.tally surcharge k₁ + box.tally surcharge k₂ ≤
      box.weight + surcharge * box.voters.length := by
  rw [voters, List.length_map]
  unfold tally weight
  induction box.ballots with
  | nil => simp
  | cons b ballots ih =>
    rw [List.map_cons, List.sum_cons, List.length_cons, Nat.mul_succ]
    -- the ballot counts for the first choice, for the second, or for neither
    by_cases h₁ : b.choice = k₁
    · have h₂ : b.choice ≠ k₂ := fun h => hk (h₁.symm.trans h)
      simp only [List.filter_cons, h₁, hk, decide_true, decide_false, if_true, List.map_cons,
        List.sum_cons, Bool.false_eq_true, if_false] at ih ⊢
      omega
    · by_cases h₂ : b.choice = k₂
      · simp only [List.filter_cons, h₂, Ne.symm hk, decide_true, decide_false, if_true,
          List.map_cons, List.sum_cons, Bool.false_eq_true, if_false] at ih ⊢
        omega
      · simp only [List.filter_cons, h₁, h₂, decide_false, Bool.false_eq_true, if_false] at ih ⊢
        omega

/-- A choice with a positive count has a ballot. -/
theorem exists_ballot_of_tally_pos {surcharge : Nat} {k : K} {box : BallotBox V K}
    (h : 0 < box.tally surcharge k) : ∃ b ∈ box.ballots, b.choice = k := by
  by_contra hnone
  have hfilter : box.ballots.filter (·.choice = k) = [] := by
    rw [List.filter_eq_nil_iff]
    intro b hb hk
    exact hnone ⟨b, hb, by simpa using hk⟩
  rw [tally, hfilter] at h
  exact absurd h (Nat.lt_irrefl 0)

/-- The count of a choice that has a ballot is positive. -/
theorem tally_pos_of_mem (surcharge : Nat) {box : BallotBox V K} {b : Ballot V K}
    (hb : b ∈ box.ballots) : 0 < box.tally surcharge b.choice := by
  have hcounted : b.weight + surcharge ∈
      (box.ballots.filter (·.choice = b.choice)).map (·.weight + surcharge) :=
    List.mem_map.2 ⟨b, List.mem_filter.2 ⟨hb, by simp⟩, rfl⟩
  have hle : b.weight + surcharge ≤ box.tally surcharge b.choice :=
    List.single_le_sum (fun _ _ => Nat.zero_le _) _ hcounted
  have hpos := box.weighty b hb
  omega

end BallotBox
