import MulticoinTreasury.Library.Machine

/-!
# An archive of blocks, read backwards

A log whose entries are stamped with block numbers is served block by block, but only the blocks
that were kept. `scan` reads at most `n` blocks downwards from the top and stops at the first that
was not kept; `reach` is the number of blocks it has read. What it reads is, up to the order, the
part of the log from some stamp on; and if the stamps come from the clock of a machine, which never
runs backwards, that part is the trace of the last inputs.
-/

set_option autoImplicit false

universe u v w x

namespace Archive

section Scan

variable {ρ : Type u}

/-- The contents of `n` blocks downwards from `b`, up to the first that was not kept. -/
def scan (block : ℕ → Option (List ρ)) : ℕ → ℕ → List ρ
  | _, 0 => []
  | b, n + 1 =>
      match block b with
      | none => []
      | some rs => rs ++ scan block (b - 1) n

/-- How many blocks a scan reads. -/
def reach (block : ℕ → Option (List ρ)) : ℕ → ℕ → ℕ
  | _, 0 => 0
  | b, n + 1 =>
      match block b with
      | none => 0
      | some _ => reach block (b - 1) n + 1

variable (block : ℕ → Option (List ρ))

theorem reach_le (b n : ℕ) : reach block b n ≤ n := by
  induction n generalizing b with
  | zero => exact Nat.le_refl _
  | succ n ih =>
    rw [reach]
    cases block b with
    | none => exact Nat.zero_le _
    | some rs => exact Nat.succ_le_succ (ih (b - 1))

/-- All blocks that a scan reads were kept. -/
theorem kept_of_lt_reach {b n i : ℕ} (h : i < reach block b n) : (block (b - i)).isSome := by
  induction n generalizing b i with
  | zero => exact absurd h (Nat.not_lt_zero i)
  | succ n ih =>
    rw [reach] at h
    cases hb : block b with
    | none =>
      rw [hb] at h
      exact absurd h (Nat.not_lt_zero i)
    | some rs =>
      rw [hb] at h
      cases i with
      | zero =>
        rw [Nat.sub_zero, hb]
        rfl
      | succ i =>
        have hi := ih (Nat.lt_of_succ_lt_succ h)
        rwa [Nat.sub_sub, Nat.add_comm] at hi

/-- A scan that ends early ends at a block that was not kept. -/
theorem not_kept_of_reach_lt {b n : ℕ} (h : reach block b n < n) :
    block (b - reach block b n) = none := by
  induction n generalizing b with
  | zero => exact absurd h (Nat.not_lt_zero _)
  | succ n ih =>
    rw [reach] at h ⊢
    cases hb : block b with
    | none => exact hb
    | some rs =>
      rw [hb] at h
      have hrest := ih (Nat.lt_of_succ_lt_succ h)
      rwa [Nat.sub_sub, Nat.add_comm] at hrest

/-- A scan reads the kept blocks one after the other. -/
theorem scan_eq_flatMap (b n : ℕ) :
    scan block b n = (List.range (reach block b n)).flatMap fun i => (block (b - i)).getD [] := by
  induction n generalizing b with
  | zero => rfl
  | succ n ih =>
    rw [scan, reach]
    cases hb : block b with
    | none => rfl
    | some rs =>
      have hshift : ∀ i, b - 1 - i = b - (i + 1) := by
        intro i
        omega
      simp only [List.range_succ_eq_map, List.flatMap_cons, List.flatMap_map, Nat.sub_zero, hb,
        Option.getD_some, ih, hshift, Nat.succ_eq_add_one]

/-- Entries that carry the number of their block come with decreasing numbers. -/
theorem scan_pairwise (number : ρ → ℕ)
    (hnumber : ∀ b rs, block b = some rs → ∀ r ∈ rs, number r = b) (b n : ℕ) :
    (scan block b n).Pairwise fun r r' => number r' ≤ number r := by
  have hblock : ∀ i, ∀ r ∈ (block (b - i)).getD [], number r = b - i := by
    intro i r hr
    cases hi : block (b - i) with
    | none =>
      rw [hi] at hr
      cases hr
    | some rs =>
      rw [hi] at hr
      exact hnumber _ rs hi r hr
  rw [scan_eq_flatMap, List.pairwise_flatMap]
  constructor
  · intro i hi
    apply List.pairwise_of_forall_mem_list
    intro r hr r' hr'
    rw [hblock i r hr, hblock i r' hr']
  · -- later blocks of the scan have smaller numbers
    refine List.Pairwise.imp ?_ List.pairwise_lt_range
    intro i j hij r hr r' hr'
    rw [hblock i r hr, hblock j r' hr']
    omega

/-- The entries of one block are those that the block contains, if it was read. -/
theorem filter_scan (number : ρ → ℕ)
    (hnumber : ∀ b rs, block b = some rs → ∀ r ∈ rs, number r = b) {b n c : ℕ} (hn : n ≤ b + 1) :
    (scan block b n).filter (fun r => number r = c) =
      if c ≤ b ∧ b < c + reach block b n then (block c).getD [] else [] := by
  have hblock : ∀ i, ((block (b - i)).getD []).filter (fun r => number r = c) =
      if b - i = c then (block (b - i)).getD [] else [] := by
    intro i
    cases hi : block (b - i) with
    | none => simp
    | some rs =>
      split
      · rw [Option.getD_some, List.filter_eq_self]
        intro r hr
        simpa [hnumber _ rs hi r hr]
      · rw [Option.getD_some, List.filter_eq_nil_iff]
        intro r hr
        simpa [hnumber _ rs hi r hr]
  have hreach := reach_le block b n
  rw [scan_eq_flatMap, List.filter_flatMap]
  simp only [hblock]
  generalize reach block b n = m at hreach
  induction m with
  | zero =>
    rw [if_neg (by omega)]
    rfl
  | succ m ih =>
    rw [List.range_succ, List.flatMap_append, ih (by omega)]
    simp only [List.flatMap_cons, List.flatMap_nil, List.append_nil]
    -- the block read last, or one of those before it
    by_cases hc : b - m = c
    · subst hc
      rw [if_neg (by omega), if_pos rfl, if_pos (by omega), List.nil_append]
    · rw [if_neg hc, List.append_nil]
      congr 1
      apply propext
      omega

end Scan

section Log

variable {ε : Type v} (stamp : ε → ℕ)

/-- The blocks of a log, read downwards, are the entries from a stamp on. -/
theorem flatMap_filter_perm (log : List ε) {b m : ℕ} (hm : m ≤ b + 1)
    (hstamp : ∀ e ∈ log, stamp e ≤ b) :
    ((List.range m).flatMap fun i => log.filter fun e => stamp e = b - i).Perm
      (log.filter fun e => b < stamp e + m) := by
  induction m with
  | zero =>
    have hnone : (log.filter fun e => b < stamp e + 0) = [] := by
      rw [List.filter_eq_nil_iff]
      intro e he
      have hle := hstamp e he
      simpa using hle
    rw [hnone]
    exact .nil
  | succ m ih =>
    rw [List.range_succ, List.flatMap_append]
    simp only [List.flatMap_cons, List.flatMap_nil, List.append_nil]
    refine ((ih (by omega)).append (.refl _)).trans ?_
    -- one more block: the entries with the next smaller stamp
    have hold : (log.filter fun e => b < stamp e + m) =
        (log.filter fun e => b < stamp e + (m + 1)).filter fun e => b < stamp e + m := by
      rw [List.filter_filter]
      apply List.filter_congr
      intro e he
      rw [← Bool.decide_and, decide_eq_decide]
      omega
    have hnew : (log.filter fun e => stamp e = b - m) =
        (log.filter fun e => b < stamp e + (m + 1)).filter fun e => !decide (b < stamp e + m) := by
      rw [List.filter_filter]
      apply List.filter_congr
      intro e he
      rw [← decide_not, ← Bool.decide_and, decide_eq_decide]
      omega
    rw [hold, hnew]
    exact List.filter_append_perm _ _

/-- Entries without contents can be left out. -/
theorem flatMap_filter_of_nil {β : Type w} (f : ε → List β) {p : ε → Bool} {log : List ε}
    (hnil : ∀ e ∈ log, p e = false → f e = []) : (log.filter p).flatMap f = log.flatMap f := by
  induction log with
  | nil => rfl
  | cons e log ih =>
    have hrest := ih fun e' he' => hnil e' (List.mem_cons_of_mem _ he')
    cases hp : p e with
    | true => rw [List.filter_cons_of_pos hp, List.flatMap_cons, List.flatMap_cons, hrest]
    | false =>
      rw [List.filter_cons_of_neg (by simp [hp]), List.flatMap_cons,
        hnil e List.mem_cons_self hp, List.nil_append, hrest]

end Log

section Clock

variable {σ : Type u} {ι : Type v} {ο : Type w} {step : σ → ι → ο × σ} {clock : σ → ℕ}

theorem clock_le_run (hclock : ∀ s i, clock s ≤ clock (step s i).2) (s : σ) (is : List ι) :
    clock s ≤ clock (Machine.run step s is) := by
  induction is generalizing s with
  | nil => exact Nat.le_refl _
  | cons i is ih => exact Nat.le_trans (hclock s i) (ih (step s i).2)

/-- Every step of a trace happens between the first and the last time. -/
theorem clock_of_mem (hclock : ∀ s i, clock s ≤ clock (step s i).2) {s : σ} {is : List ι}
    {e : Machine.Entry σ ι ο} (he : e ∈ Machine.trace step s is) :
    clock s ≤ clock e.before ∧ clock e.before ≤ clock (Machine.run step s is) := by
  obtain ⟨pre, i, post, rfl, rfl⟩ := Machine.mem_trace step he
  refine ⟨clock_le_run hclock s pre, ?_⟩
  rw [Machine.run_append]
  exact clock_le_run hclock _ (i :: post)

/-- A run can be cut at a time. -/
theorem exists_cut (hclock : ∀ s i, clock s ≤ clock (step s i).2) (s : σ) (is : List ι) (t : ℕ) :
    ∃ before after, is = before ++ after ∧
      (∀ e ∈ Machine.trace step s before, clock e.before < t) ∧
      ∀ e ∈ Machine.trace step (Machine.run step s before) after, t ≤ clock e.before := by
  induction is generalizing s with
  | nil => exact ⟨[], [], rfl, fun e he => absurd he List.not_mem_nil,
      fun e he => absurd he List.not_mem_nil⟩
  | cons i is ih =>
    -- the first input comes before the time, or all of them come after it
    rcases Nat.lt_or_ge (clock s) t with hs | hs
    · obtain ⟨before, after, rfl, hbefore, hafter⟩ := ih (step s i).2
      refine ⟨i :: before, after, rfl, ?_, hafter⟩
      intro e he
      rcases List.mem_cons.1 he with rfl | he
      · exact hs
      · exact hbefore e he
    · refine ⟨[], i :: is, rfl, fun e he => absurd he List.not_mem_nil, ?_⟩
      intro e he
      exact Nat.le_trans hs (clock_of_mem hclock he).1

/-- The steps from a time on are those after the cut. -/
theorem filter_trace_of_cut (clock : σ → ℕ) {s : σ} {before after : List ι} {t : ℕ}
    (hbefore : ∀ e ∈ Machine.trace step s before, clock e.before < t)
    (hafter : ∀ e ∈ Machine.trace step (Machine.run step s before) after, t ≤ clock e.before) :
    (Machine.trace step s (before ++ after)).filter (fun e => t ≤ clock e.before) =
      Machine.trace step (Machine.run step s before) after := by
  have hnone : (Machine.trace step s before).filter (fun e => t ≤ clock e.before) = [] := by
    rw [List.filter_eq_nil_iff]
    intro e he
    simpa using hbefore e he
  have hall : (Machine.trace step (Machine.run step s before) after).filter
      (fun e => t ≤ clock e.before) =
        Machine.trace step (Machine.run step s before) after := by
    rw [List.filter_eq_self]
    intro e he
    simpa using hafter e he
  rw [Machine.trace_append, List.filter_append, hnone, hall, List.nil_append]

end Clock

end Archive
