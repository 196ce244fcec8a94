/-!
# Steps that may fail

How a sequence of steps ends, given how its first step ends, and what a sequence that
succeeds says about its parts. A step with a state is seen as a function of the state it
starts in.
-/

namespace YulAbi.Step

variable {ε σ α β : Type}

/-- After a success the rest goes on from the state that was reached. -/
theorem bind_of_ok {step : EStateM ε σ α} {rest : α → EStateM ε σ β} {before after : σ} {value : α}
    (h : step.run before = .ok value after) :
    (step >>= rest).run before = (rest value).run after := by
  change EStateM.bind step rest before = _
  unfold EStateM.bind
  rw [show step before = .ok value after from h]
  rfl

/-- After a failure nothing else happens. -/
theorem bind_of_error {step : EStateM ε σ α} {rest : α → EStateM ε σ β} {before after : σ} {fault : ε}
    (h : step.run before = .error fault after) :
    (step >>= rest).run before = .error fault after := by
  change EStateM.bind step rest before = _
  unfold EStateM.bind
  rw [show step before = .error fault after from h]

/-- A sequence succeeds exactly if its first step does and then the rest. -/
theorem bind_eq_ok {step : EStateM ε σ α} {rest : α → EStateM ε σ β} {before after : σ} {value : β} :
    (step >>= rest).run before = .ok value after ↔
      ∃ middle reached, step.run before = .ok middle reached ∧
        (rest middle).run reached = .ok value after := by
  constructor
  · intro h
    cases ended : step.run before with
    | ok middle reached =>
      rw [bind_of_ok ended] at h
      exact ⟨middle, reached, rfl, h⟩
    | error fault reached =>
      rw [bind_of_error ended] at h
      cases h
  · rintro ⟨middle, reached, first, second⟩
    rw [bind_of_ok first, second]

/-- Sequences with the same first step are the same if they go on alike after every answer that it gives. -/
theorem bind_congr {step : EStateM ε σ α} {rest other : α → EStateM ε σ β}
    (same : ∀ before value after, step.run before = .ok value after → rest value = other value) :
    step >>= rest = step >>= other := by
  funext before
  change (step >>= rest).run before = (step >>= other).run before
  cases ended : step.run before with
  | ok value after => rw [bind_of_ok ended, bind_of_ok ended, same before value after ended]
  | error fault after => rw [bind_of_error ended, bind_of_error ended]

/-- An answer leaves the state as it is. -/
theorem run_pure (value : α) (state : σ) :
    (pure value : EStateM ε σ α).run state = .ok value state := rfl

/-- Looking at the state leaves it as it is. -/
theorem run_get (state : σ) : (get : EStateM ε σ σ).run state = .ok state state := rfl

/-- An answer succeeds with itself only. -/
theorem pure_eq_ok {value result : α} {before after : σ} :
    (pure value : EStateM ε σ α).run before = .ok result after ↔ value = result ∧ before = after := by
  rw [run_pure]
  constructor
  · intro h
    cases h
    exact ⟨rfl, rfl⟩
  · rintro ⟨rfl, rfl⟩
    rfl

end YulAbi.Step

namespace YulAbi.Attempt

variable {ε α β : Type}

/-- A sequence without a state succeeds exactly if its first part does and then the rest. -/
theorem bind_eq_ok {first : Except ε α} {rest : α → Except ε β} {result : β} :
    (first >>= rest) = .ok result ↔ ∃ value, first = .ok value ∧ rest value = .ok result := by
  constructor
  · intro h
    cases first with
    | error fault => cases h
    | ok value => exact ⟨value, rfl, h⟩
  · rintro ⟨value, rfl, h⟩
    exact h

/-- Sequences with the same first part are the same if they go on alike after a success. -/
theorem bind_congr {first : Except ε α} {rest other : α → Except ε β}
    (same : ∀ value, first = .ok value → rest value = other value) : first >>= rest = first >>= other := by
  cases first with
  | error fault => rfl
  | ok value => exact same value rfl

end YulAbi.Attempt
