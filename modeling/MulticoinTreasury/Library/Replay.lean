import MulticoinTreasury.Library.Machine

/-!
# Readers of an event log

A machine that logs events can be followed from outside: a reader starts with an empty view and
changes it with each event. `replay_run` is the rule by which a reader is shown to keep up with the
machine: it is enough that the events of each single step take the view of the state before the
step to the view of the state after it. Counting the events of one kind is a reader as well.
-/

set_option autoImplicit false

universe u v w x y

/-- A view of type `ρ` that is kept up to date from events of type `ε`. -/
structure Reader (ρ : Type u) (ε : Type v) where
  start : ρ
  apply : ρ → ε → ρ

namespace Reader

variable {ρ : Type u} {ε : Type v}

/-- The view after a log of events. -/
def replay (R : Reader ρ ε) (log : List ε) : ρ := log.foldl R.apply R.start

theorem replay_append (R : Reader ρ ε) (log es : List ε) :
    R.replay (log ++ es) = es.foldl R.apply (R.replay log) :=
  List.foldl_append

/-- The reader that counts the events with a property. -/
def counter (p : ε → Bool) : Reader Nat ε where
  start := 0
  apply n e := if p e then n + 1 else n

theorem counter_foldl (p : ε → Bool) (n : Nat) (es : List ε) :
    es.foldl (counter p).apply n = n + es.countP p := by
  induction es generalizing n with
  | nil => rfl
  | cons e es ih =>
    rw [List.foldl_cons, ih]
    show (if p e then n + 1 else n) + es.countP p = _
    cases h : p e with
    | true =>
      rw [List.countP_cons_of_pos h, if_pos rfl]
      omega
    | false =>
      rw [List.countP_cons_of_neg (by simp [h])]
      rfl

theorem counter_replay (p : ε → Bool) (log : List ε) : (counter p).replay log = log.countP p :=
  (counter_foldl p 0 log).trans (Nat.zero_add _)

variable {σ : Type w} {ι : Type x} {ο : Type y}

/-- Between two states the log grows by events that account for the change of the view. -/
def Explains (R : Reader ρ ε) (view : σ → ρ) (log : σ → List ε) (s s' : σ) : Prop :=
  ∃ es, log s' = log s ++ es ∧ es.foldl R.apply (view s) = view s'

theorem Explains.refl (R : Reader ρ ε) (view : σ → ρ) (log : σ → List ε) (s : σ) :
    R.Explains view log s s :=
  ⟨[], (List.append_nil _).symm, rfl⟩

theorem Explains.replay_eq {R : Reader ρ ε} {view : σ → ρ} {log : σ → List ε} {s s' : σ}
    (h : R.Explains view log s s') (hs : R.replay (log s) = view s) :
    R.replay (log s') = view s' := by
  obtain ⟨es, hlog, hview⟩ := h
  rw [hlog, replay_append, hs]
  exact hview

/-- **A reader keeps up with a machine** if the events of every executed step explain it. -/
theorem replay_run {R : Reader ρ ε} {view : σ → ρ} (log : σ → List ε) {step : σ → ι → ο × σ}
    {s : σ} {is : List ι} (hstart : R.replay (log s) = view s)
    (hstep : ∀ e ∈ Machine.trace step s is, R.Explains view log e.before e.after) :
    R.replay (log (Machine.run step s is)) = view (Machine.run step s is) := by
  induction is generalizing s with
  | nil => exact hstart
  | cons i is ih =>
    have hfirst := hstep (Machine.entry step s i) List.mem_cons_self
    apply ih (hfirst.replay_eq hstart)
    intro e he
    exact hstep e (List.mem_cons_of_mem _ he)

end Reader
