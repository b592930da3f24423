import MulticoinTreasury.Library.Machine

/-!
# Simulation of one machine by another

A simulation relates the states of two machines and translates inputs and outputs. One machine may
leave the other only where a step of the second is not `Safe`: a machine with bounded numbers
follows one with unbounded numbers until something does not fit. `Simulation.run` carries the
relation along a run, and `Simulation.outputs` compares what the two runs return. Where the inputs
are related and not translated, `run_related` carries a relation of states and outputs.
-/

set_option autoImplicit false

universe u v w u' v' w'

namespace Machine

/-- Safe steps of the machine `astep` are followed by the machine `step`. -/
structure Simulation {σ : Type u} {ι : Type v} {ο : Type w} {α : Type u'} {κ : Type v'}
    {ω : Type w'} (step : σ → ι → ο × σ) (astep : α → κ → ω × α) where
  rel : σ → α → Prop
  input : ι → κ
  output : ο → ω
  Safe : Entry α κ ω → Prop
  simulates : ∀ {s a i}, rel s a → Safe (entry astep a (input i)) →
    output (step s i).1 = (astep a (input i)).1 ∧ rel (step s i).2 (astep a (input i)).2

namespace Simulation

variable {σ : Type u} {ι : Type v} {ο : Type w} {α : Type u'} {κ : Type v'} {ω : Type w'}
  {step : σ → ι → ο × σ} {astep : α → κ → ω × α}

/-- All steps of the run of the second machine on the translated inputs are safe. -/
def SafeRun (S : Simulation step astep) (a : α) (is : List ι) : Prop :=
  ∀ e ∈ trace astep a (is.map S.input), S.Safe e

theorem SafeRun.head {S : Simulation step astep} {a : α} {i : ι} {is : List ι}
    (h : S.SafeRun a (i :: is)) : S.Safe (entry astep a (S.input i)) :=
  h _ List.mem_cons_self

theorem SafeRun.tail {S : Simulation step astep} {a : α} {i : ι} {is : List ι}
    (h : S.SafeRun a (i :: is)) : S.SafeRun (astep a (S.input i)).2 is :=
  fun e he => h e (List.mem_cons_of_mem _ he)

/-- **A safe run is followed to its end.** -/
theorem run (S : Simulation step astep) {s : σ} {a : α} {is : List ι} (h : S.rel s a)
    (hsafe : S.SafeRun a is) :
    S.rel (Machine.run step s is) (Machine.run astep a (is.map S.input)) := by
  induction is generalizing s a with
  | nil => exact h
  | cons i is ih => exact ih (S.simulates h hsafe.head).2 hsafe.tail

/-- **A safe run returns the same, up to the translation of outputs.** -/
theorem outputs (S : Simulation step astep) {s : σ} {a : α} {is : List ι} (h : S.rel s a)
    (hsafe : S.SafeRun a is) :
    (trace step s is).map (fun e => S.output e.output) =
      (trace astep a (is.map S.input)).map Entry.output := by
  induction is generalizing s a with
  | nil => rfl
  | cons i is ih =>
    obtain ⟨hout, hrel⟩ := S.simulates h hsafe.head
    have htail := ih hrel hsafe.tail
    simp only [trace_cons, List.map_cons]
    rw [htail]
    exact congrArg (· :: _) hout

end Simulation

section Related

variable {σ : Type u} {ι : Type v} {ο : Type w} {α : Type u'} {κ : Type v'} {ω : Type w'}
  {step : σ → ι → ο × σ} {astep : α → κ → ω × α}

/-- **Related inputs keep a relation**: of the outputs so far and the states. -/
theorem run_related {I : ι → κ → Prop} {R : List ο → List ω → σ → α → Prop}
    (hstep : ∀ {os ws s a i k}, I i k → R os ws s a →
      R (os ++ [(step s i).1]) (ws ++ [(astep a k).1]) (step s i).2 (astep a k).2)
    {os : List ο} {ws : List ω} {s : σ} {a : α} (h : R os ws s a) {is : List ι} {ks : List κ}
    (hinputs : List.Forall₂ I is ks) :
    R (os ++ (trace step s is).map Entry.output) (ws ++ (trace astep a ks).map Entry.output)
      (Machine.run step s is) (Machine.run astep a ks) := by
  induction hinputs generalizing os ws s a with
  | nil =>
    rw [trace_nil, trace_nil, List.map_nil, List.map_nil, List.append_nil, List.append_nil]
    exact h
  | cons hhead htail ih =>
    have hrest := ih (hstep hhead h)
    rw [List.append_assoc, List.append_assoc] at hrest
    exact hrest

end Related

end Machine
