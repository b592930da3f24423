import MulticoinTreasury.Library.Machine
import MulticoinTreasury.Pallet.Transitions

/-!
# The chain around the pallet

Between two calls a new block can begin and balances can move outside the pallet. `step` is the
machine of all three kinds of operation, in any order and by any account; `Transition` says what
one step does. Block numbers never decrease: a block with a smaller number than the current one
leaves the number as it is.
-/

set_option autoImplicit false

namespace MulticoinTreasury

variable {AccountId : Type} [DecidableEq AccountId] {T : Config AccountId}

/-- What happens on the chain: a dispatched call, a new block, or another operation of the
currency. -/
inductive Op (T : Config AccountId) where
  | call (origin : Origin AccountId) (call : Call T)
  | block (number : BlockNumber)
  | currency (o : T.currency.Other)

/-- What an operation returns. -/
abbrev Outcome (T : Config AccountId) : Type := Except (DispatchError T) PUnit

def State.atBlock (s : State T) (number : BlockNumber) : State T :=
  { s with blockNumber := if s.blockNumber ≤ number then number else s.blockNumber }

def State.afterOther (s : State T) (o : T.currency.Other) : State T :=
  { s with ledger := T.currency.other o s.ledger }

def step (s : State T) : Op T → Outcome T × State T
  | .call origin call =>
      match dispatch origin call s with
      | .ok _ s' => (.ok ⟨⟩, s')
      | .error e s' => (.error e, s')
  | .block number => (.ok ⟨⟩, s.atBlock number)
  | .currency o => (.ok ⟨⟩, s.afterOther o)

/-- The state after a list of operations. -/
abbrev run (s : State T) (ops : List (Op T)) : State T := Machine.run step s ops

/-- An operation as it was executed. -/
abbrev Entry (T : Config AccountId) : Type := Machine.Entry (State T) (Op T) (Outcome T)

/-- The executed operations of a list, in order. -/
abbrev history (s : State T) (ops : List (Op T)) : List (Entry T) := Machine.trace step s ops

/-- What one step does. -/
inductive Transition (s : State T) : Op T → Outcome T → State T → Prop
  | accepted {origin : Origin AccountId} {call : Call T} {s' : State T}
      (h : Accepted s origin call s') : Transition s (.call origin call) (.ok ⟨⟩) s'
  | refused {origin : Origin AccountId} {call : Call T} {e : DispatchError T}
      (h : ∀ s', ¬ Accepted s origin call s') : Transition s (.call origin call) (.error e) s
  | block {number : BlockNumber} : Transition s (.block number) (.ok ⟨⟩) (s.atBlock number)
  | currency {o : T.currency.Other} : Transition s (.currency o) (.ok ⟨⟩) (s.afterOther o)

theorem step_call (s : State T) (origin : Origin AccountId) (call : Call T) :
    step s (.call origin call) = match dispatch origin call s with
      | .ok _ s' => (.ok ⟨⟩, s')
      | .error e s' => (.error e, s') := rfl

theorem step_transition (s : State T) (op : Op T) :
    Transition s op (step s op).1 (step s op).2 := by
  cases op with
  | call origin call =>
    cases h : dispatch origin call s with
    | ok r s' =>
      have hstep : step s (.call origin call) = (.ok ⟨⟩, s') := by simp only [step, h]
      rw [hstep]
      exact .accepted (dispatch_ok_iff.1 h)
    | error e s' =>
      have hstep : step s (.call origin call) = (.error e, s') := by simp only [step, h]
      rw [hstep, dispatch_error h]
      -- an accepted call would not have ended in an error
      refine .refused fun s'' ha => ?_
      have hok : dispatch origin call s = .ok ⟨⟩ s'' := dispatch_ok_iff.2 ha
      rw [h] at hok
      cases hok
  | block number => exact .block
  | currency o => exact .currency

/-- An operation that is a call succeeds exactly as `Accepted` says. -/
theorem step_call_of_accepted {s s' : State T} {origin : Origin AccountId} {call : Call T}
    (h : Accepted s origin call s') : step s (.call origin call) = (.ok ⟨⟩, s') := by
  have hd : dispatch origin call s = .ok ⟨⟩ s' := dispatch_ok_iff.2 h
  simp only [step, hd]

theorem accepted_of_step_ok {s : State T} {origin : Origin AccountId} {call : Call T} {r : PUnit}
    (h : (step s (.call origin call)).1 = .ok r) :
    Accepted s origin call (step s (.call origin call)).2 := by
  have ht := step_transition s (.call origin call)
  -- forget how the result was computed, so that the cases of the transition apply
  generalize step s (.call origin call) = res at h ht
  obtain ⟨out, s'⟩ := res
  cases ht with
  | accepted ha => exact ha
  | refused => cases h

omit [DecidableEq AccountId] in
theorem blockNumber_le_atBlock (s : State T) (number : BlockNumber) :
    s.blockNumber ≤ (s.atBlock number).blockNumber := by
  unfold State.atBlock
  by_cases h : s.blockNumber ≤ number
  · rw [if_pos h]
    exact h
  · rw [if_neg h]
    exact Nat.le_refl _

/-- Block numbers never decrease. -/
theorem Transition.blockNumber_le {s s' : State T} {op : Op T} {out : Outcome T}
    (h : Transition s op out s') : s.blockNumber.val ≤ s'.blockNumber.val := by
  cases h with
  | accepted ha => cases ha <;> exact Nat.le_refl _
  | refused => exact Nat.le_refl _
  | block => exact blockNumber_le_atBlock s _
  | currency => exact Nat.le_refl _

/-- A relation between the history and the state of every run is carried by single transitions. -/
theorem history_induction {P : List (Entry T) → State T → Prop} {s : State T} (nil : P [] s)
    (snoc : ∀ ops op out s', P (history s ops) (run s ops) →
      Transition (run s ops) op out s' → P (history s ops ++ [⟨run s ops, op, out, s'⟩]) s')
    (ops : List (Op T)) : P (history s ops) (run s ops) :=
  Machine.trace_induction nil
    (fun ops op ih => snoc ops op _ _ ih (step_transition (run s ops) op)) ops

/-- Every executed operation is a transition. -/
theorem transition_of_mem {s : State T} {ops : List (Op T)} {e : Entry T}
    (he : e ∈ history s ops) : Transition e.before e.input e.output e.after := by
  obtain ⟨pre, op, post, -, rfl⟩ := Machine.mem_trace step he
  exact step_transition _ op

/-- What every transition preserves holds after every run. -/
theorem run_invariant {P : State T → Prop}
    (hstep : ∀ {s s' : State T} {op out}, Transition s op out s' → P s → P s') {s : State T}
    (h : P s) (ops : List (Op T)) : P (run s ops) :=
  Machine.run_invariant (fun s op hs => hstep (step_transition s op) hs) h ops

end MulticoinTreasury
