import MulticoinTreasury.Library.Machine

/-!
# Noninterference by unwinding

A view of the state is independent of some inputs if these foreign inputs do not change it, and if
the other, own inputs change it and answer as the view alone says. Then the view after a run, and
the answers to the own inputs, are those of the run in which all foreign inputs are left out.
-/

set_option autoImplicit false

universe u v w x

namespace Machine

/-- A view, the inputs that may change it, and the inputs that do not. -/
structure Unwinding {σ : Type u} {ι : Type v} {ο : Type w} (step : σ → ι → ο × σ)
    (ω : Type x) where
  view : σ → ω
  own : ι → Bool
  Foreign : ι → Prop
  own_step : ∀ {s t i}, own i = true → view s = view t →
    (step s i).1 = (step t i).1 ∧ view (step s i).2 = view (step t i).2
  foreign_step : ∀ {s i}, Foreign i → view (step s i).2 = view s

namespace Unwinding

variable {σ : Type u} {ι : Type v} {ο : Type w} {ω : Type x} {step : σ → ι → ο × σ}

/-- Every input is an own one or a foreign one. -/
def Covers (U : Unwinding step ω) (is : List ι) : Prop := ∀ i ∈ is, U.own i = true ∨ U.Foreign i

theorem Covers.tail {U : Unwinding step ω} {i : ι} {is : List ι} (h : U.Covers (i :: is)) :
    U.Covers is :=
  fun j hj => h j (List.mem_cons_of_mem i hj)

/-- The answers to the own inputs of a history. -/
def answers (U : Unwinding step ω) (h : List (Entry σ ι ο)) : List ο :=
  (h.filter fun e => U.own e.input).map Entry.output

theorem answers_cons_own (U : Unwinding step ω) {e : Entry σ ι ο} (h : List (Entry σ ι ο))
    (hown : U.own e.input = true) : U.answers (e :: h) = e.output :: U.answers h := by
  simp [answers, hown]

theorem answers_cons_foreign (U : Unwinding step ω) {e : Entry σ ι ο} (h : List (Entry σ ι ο))
    (hown : ¬ U.own e.input = true) : U.answers (e :: h) = U.answers h := by
  simp [answers, hown]

/-- **Foreign inputs can be left out.** -/
theorem purge (U : Unwinding step ω) {s t : σ} (hview : U.view s = U.view t) {is : List ι}
    (his : U.Covers is) :
    U.view (run step s is) = U.view (run step t (is.filter U.own)) ∧
      U.answers (trace step s is) = (trace step t (is.filter U.own)).map Entry.output := by
  induction is generalizing s t with
  | nil => exact ⟨hview, rfl⟩
  | cons i is ih =>
    rw [trace_cons]
    by_cases hown : U.own i = true
    · obtain ⟨hout, hnext⟩ := U.own_step hown hview
      obtain ⟨hrun, houtputs⟩ := ih hnext his.tail
      rw [List.filter_cons_of_pos hown, trace_cons, List.map_cons, U.answers_cons_own _ hown,
        houtputs]
      exact ⟨hrun, congrArg (· :: _) hout⟩
    · -- the view stays as it was while the foreign input is executed
      have hforeign : U.Foreign i := (his i List.mem_cons_self).resolve_left hown
      have hnext := (U.foreign_step hforeign).trans hview
      obtain ⟨hrun, houtputs⟩ := ih hnext his.tail
      rw [List.filter_cons_of_neg hown, U.answers_cons_foreign _ hown]
      exact ⟨hrun, houtputs⟩

/-- **Noninterference.** Runs with the same own inputs, from states with the same view, end with
the same view and give the same answers. -/
theorem noninterference (U : Unwinding step ω) {s t : σ} (hview : U.view s = U.view t)
    {is js : List ι} (hown : is.filter U.own = js.filter U.own) (his : U.Covers is)
    (hjs : U.Covers js) :
    U.view (run step s is) = U.view (run step t js) ∧
      U.answers (trace step s is) = U.answers (trace step t js) := by
  -- both runs agree with the run of their own inputs
  obtain ⟨hrun, hanswers⟩ := U.purge hview his
  obtain ⟨hrun', hanswers'⟩ := U.purge (s := t) rfl hjs
  rw [hown] at hrun hanswers
  exact ⟨hrun.trans hrun'.symm, hanswers.trans hanswers'.symm⟩

end Unwinding

end Machine
