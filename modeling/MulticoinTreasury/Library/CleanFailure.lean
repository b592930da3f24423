import MulticoinTreasury.Library.StateError

/-!
# Programs that fail before they write

A program fails clean if an error of it leaves the state as it was. Such a program needs no
transaction around it. The property follows the shape of the program: what only reads may come
first, what cannot fail may come last, and nothing that may fail stands after a write.
-/

set_option autoImplicit false

namespace StateError

universe u

variable {ε σ α β υ : Type u}

/-- An error leaves the state as it was. -/
def FailsClean (x : EStateM ε σ α) : Prop := ∀ s e s', x s = .error e s' → s' = s

/-- Neither a value nor an error changes the state. -/
structure ReadsOnly (x : EStateM ε σ α) : Prop where
  keeps : ∀ s a s', x s = .ok a s' → s' = s
  failsClean : FailsClean x

/-- The program ends in a value from every state. -/
def NeverFails (x : EStateM ε σ α) : Prop := ∀ s, ∃ a s', x s = .ok a s'

/-- The error of a sequence comes from its first or its second part. -/
theorem bind_error_cases {x : EStateM ε σ α} {f : α → EStateM ε σ β} {s s'' : σ} {e : ε}
    (h : (x >>= f) s = .error e s'') :
    x s = .error e s'' ∨ ∃ a s', x s = .ok a s' ∧ f a s' = .error e s'' := by
  change EStateM.bind x f s = _ at h
  unfold EStateM.bind at h
  -- the second part runs only after the first has ended in a value
  cases hx : x s with
  | ok a s' =>
    rw [hx] at h
    exact Or.inr ⟨a, s', rfl, h⟩
  | error e' s' =>
    rw [hx] at h
    cases h
    exact Or.inl rfl

/-! ## Programs that only read -/

namespace ReadsOnly

theorem pure (a : α) : ReadsOnly (Pure.pure a : EStateM ε σ α) where
  keeps s b s' h := ((pure_ok_iff a b s s').1 h).2.symm
  failsClean s e s' h := by cases h

theorem throw (e : ε) : ReadsOnly (MonadExcept.throw e : EStateM ε σ α) where
  keeps s a s' h := ((throw_ok_iff e a s s').1 h).elim
  failsClean s e' s' h := by
    cases h
    rfl

theorem get : ReadsOnly (MonadState.get : EStateM ε σ σ) where
  keeps s a s' h := by
    cases h
    rfl
  failsClean s e s' h := by cases h

theorem ensure (p : Prop) [Decidable p] (e : ε) :
    ReadsOnly (StateError.ensure p e : EStateM ε σ PUnit) := by
  unfold StateError.ensure
  split
  · exact pure _
  · exact throw e

theorem okOr (o : Option α) (e : ε) : ReadsOnly (StateError.okOr o e : EStateM ε σ α) := by
  cases o with
  | some a => exact pure a
  | none => exact throw e

end ReadsOnly

/-! ## Programs that cannot fail -/

namespace NeverFails

theorem pure (a : α) : NeverFails (Pure.pure a : EStateM ε σ α) := fun s => ⟨a, s, rfl⟩

theorem modify (g : σ → σ) : NeverFails (modify g : EStateM ε σ PUnit) :=
  fun s => ⟨⟨⟩, g s, rfl⟩

theorem bind {x : EStateM ε σ α} {f : α → EStateM ε σ β} (hx : NeverFails x)
    (hf : ∀ a, NeverFails (f a)) : NeverFails (x >>= f) := by
  intro s
  obtain ⟨a, s', ha⟩ := hx s
  obtain ⟨b, s'', hb⟩ := hf a s'
  exact ⟨b, s'', (bind_ok_iff x f s s'' b).2 ⟨a, s', ha, hb⟩⟩

theorem failsClean {x : EStateM ε σ α} (h : NeverFails x) : FailsClean x := by
  intro s e s' he
  obtain ⟨a, s₁, ha⟩ := h s
  rw [ha] at he
  cases he

end NeverFails

/-! ## Sequences -/

namespace FailsClean

/-- What only reads may come first. -/
theorem after_read {x : EStateM ε σ α} {f : α → EStateM ε σ β} (hx : ReadsOnly x)
    (hf : ∀ a, FailsClean (f a)) : FailsClean (x >>= f) := by
  intro s e s'' h
  rcases bind_error_cases h with he | ⟨a, s', ha, he⟩
  · exact hx.failsClean s e s'' he
  · rw [hf a s' e s'' he]
    exact hx.keeps s a s' ha

/-- What cannot fail may come last. -/
theorem before_write {x : EStateM ε σ α} {f : α → EStateM ε σ β} (hx : FailsClean x)
    (hf : ∀ a, NeverFails (f a)) : FailsClean (x >>= f) := by
  intro s e s'' h
  rcases bind_error_cases h with he | ⟨a, s', ha, he⟩
  · exact hx s e s'' he
  · obtain ⟨b, s₁, hb⟩ := hf a s'
    rw [hb] at he
    cases he

/-- A mutated value is written after the program that mutates it. -/
theorem tryMutate {read : σ → υ} {write : υ → σ → σ} {f : υ → EStateM ε σ υ}
    (hf : ∀ v, FailsClean (f v)) : FailsClean (StateError.tryMutate read write f) :=
  after_read .get fun s => before_write (hf (read s)) fun v => .modify (write v)

end FailsClean

end StateError
