import Mathlib.Tactic

/-!
# Programs with a state and errors

Programs are `EStateM ε σ α`: a run ends in a value or an error, and in both cases in a state, so
what was written before an error is still there after it. `transactional` undoes these writes.
Beside each building block stands the lemma that says when it ends in a value; simplifying with
these lemmas turns a `do` block into the list of its guards and its final state.
-/

set_option autoImplicit false

namespace StateError

universe u

variable {ε σ α β υ : Type u}

/-- Stop with the error `e` unless `p` holds. -/
def ensure (p : Prop) [Decidable p] (e : ε) : EStateM ε σ PUnit :=
  if p then pure ⟨⟩ else throw e

/-- The value of an option, or the error `e`. -/
def okOr (o : Option α) (e : ε) : EStateM ε σ α :=
  match o with
  | some a => pure a
  | none => throw e

/-- Run a program on the value that `read` finds in the state and write the value it returns back
with `write`. An error of the program leaves the value as it was, but not what the program wrote
elsewhere. -/
def tryMutate (read : σ → υ) (write : υ → σ → σ) (f : υ → EStateM ε σ υ) : EStateM ε σ PUnit := do
  let v ← f (read (← get))
  modify (write v)

/-- Run a program and undo all its writes when it ends in an error. -/
def transactional (x : EStateM ε σ α) : EStateM ε σ α := fun s =>
  match x s with
  | .ok a s' => .ok a s'
  | .error e _ => .error e s

/-! ## Programs that end in a value -/

theorem bind_ok_iff (x : EStateM ε σ α) (f : α → EStateM ε σ β) (s s'' : σ) (b : β) :
    (x >>= f) s = .ok b s'' ↔ ∃ a s', x s = .ok a s' ∧ f a s' = .ok b s'' := by
  show EStateM.bind x f s = _ ↔ _
  unfold EStateM.bind
  cases hx : x s with
  | ok a s' =>
    constructor
    · exact fun h => ⟨a, s', rfl, h⟩
    · rintro ⟨a', s₁, h, hf⟩
      cases h
      exact hf
  | error e s' => simp

theorem pure_ok_iff (a b : α) (s s' : σ) :
    (pure a : EStateM ε σ α) s = .ok b s' ↔ a = b ∧ s = s' := by
  show EStateM.pure a s = _ ↔ _
  simp [EStateM.pure]

theorem throw_ok_iff (e : ε) (b : α) (s s' : σ) :
    (throw e : EStateM ε σ α) s = .ok b s' ↔ False := by
  show EStateM.Result.error e s = .ok b s' ↔ False
  simp

theorem modify_ok_iff (g : σ → σ) (s s' : σ) (r : PUnit) :
    (modify g : EStateM ε σ PUnit) s = .ok r s' ↔ g s = s' := by
  show EStateM.Result.ok PUnit.unit (g s) = .ok r s' ↔ g s = s'
  simp

/-! ## Programs step by step -/

theorem get_bind (f : σ → EStateM ε σ β) (s : σ) : (get >>= f) s = f s s := rfl

theorem modify_bind (g : σ → σ) (f : PUnit → EStateM ε σ β) (s : σ) :
    (modify g >>= f) s = f ⟨⟩ (g s) := rfl

theorem ensure_bind (p : Prop) [Decidable p] (e : ε) (f : PUnit → EStateM ε σ β) (s : σ) :
    (ensure p e >>= f) s = if p then f ⟨⟩ s else .error e s := by
  unfold ensure
  by_cases h : p
  · rw [if_pos h, if_pos h]
    rfl
  · rw [if_neg h, if_neg h]
    rfl

theorem okOr_bind (o : Option α) (e : ε) (f : α → EStateM ε σ β) (s : σ) :
    (okOr o e >>= f) s = match o with
      | some a => f a s
      | none => .error e s := by
  cases o <;> rfl

theorem tryMutate_bind (read : σ → υ) (write : υ → σ → σ) (f : υ → EStateM ε σ υ)
    (g : PUnit → EStateM ε σ β) (s : σ) :
    (tryMutate read write f >>= g) s = match f (read s) s with
      | .ok v s' => g ⟨⟩ (write v s')
      | .error e s' => .error e s' := by
  -- the value is read first, so what is left are two binds
  show EStateM.bind (EStateM.bind (f (read s)) fun v => modify (write v)) g s = _
  unfold EStateM.bind
  cases f (read s) s <;> rfl

theorem ensure_bind_ok_iff (p : Prop) [Decidable p] (e : ε) (f : PUnit → EStateM ε σ β)
    (s s' : σ) (b : β) : (ensure p e >>= f) s = .ok b s' ↔ p ∧ f ⟨⟩ s = .ok b s' := by
  rw [ensure_bind]
  by_cases h : p
  · simp [h]
  · simp [h]

theorem okOr_bind_ok_iff (o : Option α) (e : ε) (f : α → EStateM ε σ β) (s s' : σ) (b : β) :
    (okOr o e >>= f) s = .ok b s' ↔ ∃ a, o = some a ∧ f a s = .ok b s' := by
  rw [okOr_bind]
  cases o with
  | some a => simp
  | none => simp

theorem tryMutate_bind_ok_iff (read : σ → υ) (write : υ → σ → σ) (f : υ → EStateM ε σ υ)
    (g : PUnit → EStateM ε σ β) (s s'' : σ) (b : β) :
    (tryMutate read write f >>= g) s = .ok b s'' ↔
      ∃ v s', f (read s) s = .ok v s' ∧ g ⟨⟩ (write v s') = .ok b s'' := by
  rw [tryMutate_bind]
  cases f (read s) s with
  | ok v s' =>
    constructor
    · exact fun h => ⟨v, s', rfl, h⟩
    · rintro ⟨_, _, h, hg⟩
      cases h
      exact hg
  | error e s' => simp

/-! ## Results -/

/-- Renaming the errors of a result does not make it a value. -/
theorem mapError_eq_ok_iff {ε' : Type u} {f : ε → ε'} {x : Except ε α} {a : α} :
    x.mapError f = .ok a ↔ x = .ok a := by
  cases x with
  | ok b => simp [Except.mapError]
  | error e => simp [Except.mapError]

/-! ## Transactions -/

theorem transactional_ok_iff (x : EStateM ε σ α) (s s' : σ) (a : α) :
    transactional x s = .ok a s' ↔ x s = .ok a s' := by
  unfold transactional
  cases x s with
  | ok b s₁ => rfl
  | error e s₁ => simp

/-- A program that ends in an error is undone. -/
theorem transactional_of_error {x : EStateM ε σ α} {s s' : σ} {e : ε} (h : x s = .error e s') :
    transactional x s = .error e s := by
  rw [transactional, h]

/-- A transaction that ends in an error leaves the state as it was. -/
theorem transactional_error {x : EStateM ε σ α} {s s' : σ} {e : ε}
    (h : transactional x s = .error e s') : s' = s := by
  unfold transactional at h
  cases hx : x s with
  | ok a s₁ => simp [hx] at h
  | error e' s₁ =>
    rw [hx] at h
    cases h
    rfl

end StateError
