import Mathlib.Tactic

/-!
# Runs and traces of a deterministic machine

A machine is a step function from a state and an input to an output and the next state. `run` is
the state after a list of inputs and `trace` the list of the executed steps, each with the state
before it and after it: the history that statements about whole runs refer to. An invariant is
carried along a run by `run_invariant`; a relation between the history and the state by
`trace_induction`, which adds one step at the end.
-/

set_option autoImplicit false

namespace Machine

universe u v w

variable {σ : Type u} {ι : Type v} {ο : Type w}

/-- An executed step. -/
structure Entry (σ : Type u) (ι : Type v) (ο : Type w) where
  before : σ
  input : ι
  output : ο
  after : σ

variable (step : σ → ι → ο × σ)

/-- The step from `s` on the input `i`. -/
def entry (s : σ) (i : ι) : Entry σ ι ο := ⟨s, i, (step s i).1, (step s i).2⟩

/-- The state after a list of inputs. -/
def run : σ → List ι → σ
  | s, [] => s
  | s, i :: is => run (step s i).2 is

/-- The executed steps of a list of inputs, in order. -/
def trace : σ → List ι → List (Entry σ ι ο)
  | _, [] => []
  | s, i :: is => entry step s i :: trace (step s i).2 is

@[simp] theorem run_nil (s : σ) : run step s [] = s := rfl

@[simp] theorem run_cons (s : σ) (i : ι) (is : List ι) :
    run step s (i :: is) = run step (step s i).2 is := rfl

@[simp] theorem trace_nil (s : σ) : trace step s [] = [] := rfl

@[simp] theorem trace_cons (s : σ) (i : ι) (is : List ι) :
    trace step s (i :: is) = entry step s i :: trace step (step s i).2 is := rfl

theorem run_append (s : σ) (is js : List ι) :
    run step s (is ++ js) = run step (run step s is) js := by
  induction is generalizing s with
  | nil => rfl
  | cons i is ih => exact ih (step s i).2

theorem trace_append (s : σ) (is js : List ι) :
    trace step s (is ++ js) = trace step s is ++ trace step (run step s is) js := by
  induction is generalizing s with
  | nil => rfl
  | cons i is ih => simp only [List.cons_append, trace_cons, run_cons, ih]

theorem run_snoc (s : σ) (is : List ι) (i : ι) :
    run step s (is ++ [i]) = (step (run step s is) i).2 := by
  rw [run_append, run_cons, run_nil]

theorem trace_snoc (s : σ) (is : List ι) (i : ι) :
    trace step s (is ++ [i]) = trace step s is ++ [entry step (run step s is) i] := by
  rw [trace_append, trace_cons, trace_nil]

/-- Every executed step starts in the state reached by a prefix of the inputs. -/
theorem mem_trace {s : σ} {is : List ι} {e : Entry σ ι ο} (he : e ∈ trace step s is) :
    ∃ pre i post, is = pre ++ i :: post ∧ e = entry step (run step s pre) i := by
  induction is generalizing s with
  | nil => simp at he
  | cons j is ih =>
    rw [trace_cons, List.mem_cons] at he
    rcases he with rfl | he
    · exact ⟨[], j, is, rfl, rfl⟩
    · obtain ⟨pre, i, post, rfl, rfl⟩ := ih he
      exact ⟨j :: pre, i, post, rfl, rfl⟩

variable {step}

/-- What every step preserves holds after every run. -/
theorem run_invariant {P : σ → Prop} (hstep : ∀ s i, P s → P (step s i).2) {s : σ}
    (h : P s) (is : List ι) : P (run step s is) := by
  induction is generalizing s with
  | nil => exact h
  | cons i is ih => exact ih (hstep s i h)

/-- What every step with an admitted input preserves holds after every run on such inputs. -/
theorem run_invariant_of_mem {P : σ → Prop} {Adm : ι → Prop}
    (hstep : ∀ s i, Adm i → P s → P (step s i).2) {s : σ} (h : P s) {is : List ι}
    (hadm : ∀ i ∈ is, Adm i) : P (run step s is) := by
  induction is generalizing s with
  | nil => exact h
  | cons i is ih =>
    have hi : Adm i := hadm i List.mem_cons_self
    exact ih (hstep s i hi h) fun j hj => hadm j (List.mem_cons_of_mem i hj)

/-- A relation between the history and the state of a run holds if it holds before the first step
and every further step keeps it. -/
theorem trace_induction {P : List (Entry σ ι ο) → σ → Prop} {s : σ} (nil : P [] s)
    (snoc : ∀ is i, P (trace step s is) (run step s is) →
      P (trace step s is ++ [entry step (run step s is) i]) (step (run step s is) i).2)
    (is : List ι) : P (trace step s is) (run step s is) := by
  -- the last step is the new one, so the induction runs from the end of the inputs
  induction is using List.reverseRecOn with
  | nil => exact nil
  | append_singleton is i ih =>
    rw [trace_snoc, run_snoc]
    exact snoc is i ih

/-! ## Sums over a history -/

/-- The sum of a quantity over executed steps. -/
def total (f : Entry σ ι ο → ℕ) (h : List (Entry σ ι ο)) : ℕ := (h.map f).sum

@[simp] theorem total_nil (f : Entry σ ι ο → ℕ) : total f [] = 0 := rfl

@[simp] theorem total_cons (f : Entry σ ι ο → ℕ) (e : Entry σ ι ο) (h : List (Entry σ ι ο)) :
    total f (e :: h) = f e + total f h := List.sum_cons

theorem total_snoc (f : Entry σ ι ο → ℕ) (h : List (Entry σ ι ο)) (e : Entry σ ι ο) :
    total f (h ++ [e]) = total f h + f e := by
  simp [total]

theorem total_add (f g : Entry σ ι ο → ℕ) (h : List (Entry σ ι ο)) :
    total (fun e => f e + g e) h = total f h + total g h := List.sum_map_add

theorem total_eq_zero_iff (f : Entry σ ι ο → ℕ) (h : List (Entry σ ι ο)) :
    total f h = 0 ↔ ∀ e ∈ h, f e = 0 := by
  induction h with
  | nil => simp
  | cons e h ih => simp [ih]

variable (step) in
/-- A value that every step raises by its inflow and lowers by its outflow is raised by a run by
the sum of the inflows and lowered by the sum of the outflows. -/
theorem total_balance {P : σ → Prop} (value : σ → ℕ) (inflow outflow : Entry σ ι ο → ℕ)
    (hP : ∀ s i, P s → P (step s i).2)
    (hstep : ∀ s i, P s →
      value (step s i).2 + outflow (entry step s i) = value s + inflow (entry step s i))
    {s : σ} (h : P s) (is : List ι) :
    value (run step s is) + total outflow (trace step s is) =
      value s + total inflow (trace step s is) := by
  induction is generalizing s with
  | nil => rfl
  | cons i is ih =>
    -- the first step, and the rest from the state it leaves
    have hfirst := hstep s i h
    have hrest := ih (hP s i h)
    rw [run_cons, trace_cons, total_cons, total_cons]
    omega

variable (step) in
/-- A value that no step lowers is raised by a run by the sum of the inflows. -/
theorem total_growth {P : σ → Prop} (value : σ → ℕ) (inflow : Entry σ ι ο → ℕ)
    (hP : ∀ s i, P s → P (step s i).2)
    (hstep : ∀ s i, P s → value (step s i).2 = value s + inflow (entry step s i))
    {s : σ} (h : P s) (is : List ι) :
    value (run step s is) = value s + total inflow (trace step s is) := by
  have hbalance := total_balance step value inflow (fun _ => 0) hP
    (fun s i hs => hstep s i hs) h is
  have hzero : total (fun _ => 0) (trace step s is) = 0 :=
    (total_eq_zero_iff _ _).2 fun _ _ => rfl
  rw [hzero] at hbalance
  exact hbalance

end Machine
