import YulAbi.Proofs.Yul.Congruence
import YulAbi.Proofs.Yul.Execution

/-!
# Budgets of steps

A call that ends for another reason than an exhausted budget ends in the same way with
any larger budget. So every call either exhausts its budget or has the effect of its
routine, which is the effect of some call that was given enough.
-/

namespace YulAbi.Yul

section

variable {α β : Type}

/-- The state of a run with more steps left. -/
def RunState.withMore (extra : Nat) (state : RunState) : RunState :=
  ⟨state.machine, state.frame, state.budget + extra⟩

/-- The end of a run with more steps left. -/
def Run.endWithMore (extra : Nat) : EStateM.Result Fault RunState α → EStateM.Result Fault RunState α
  | .ok value state => .ok value (state.withMore extra)
  | .error fault state => .error fault (state.withMore extra)

/-- Whether a run has exhausted its budget. -/
def Run.Exhausted (result : EStateM.Result Fault RunState α) : Prop :=
  ∃ limit state, result = .error (.stepLimit limit) state

/-- Whether a run with more steps ends like another one, unless that one exhausts its budget. -/
def Run.Persists (few many : Run α) : Prop :=
  ∀ state extra, Run.Exhausted (few.run state) ∨
    many.run (state.withMore extra) = Run.endWithMore extra (few.run state)

/-- Sequences persist if their parts do. -/
theorem Run.Persists.bind {few many : Run α} {next next' : α → Run β} (first : Run.Persists few many)
    (second : ∀ value, Run.Persists (next value) (next' value)) :
    Run.Persists (few >>= next) (many >>= next') := by
  intro state extra
  rcases first state extra with ⟨limit, stopped, ended⟩ | same
  · exact .inl ⟨limit, stopped, Step.bind_of_error ended⟩
  · cases ended : few.run state with
    | error fault stopped =>
      rw [ended] at same
      right
      rw [Step.bind_of_error same, Step.bind_of_error ended]
      rfl
    | ok value reached =>
      rw [ended] at same
      rw [Step.bind_of_ok same, Step.bind_of_ok ended]
      exact second value reached extra

/-- An operation of the machine does not depend on the budget. -/
theorem Run.Persists.onMachine (step : MachineStep α) :
    Run.Persists (Run.onMachine step) (Run.onMachine step) := by
  intro state extra
  obtain ⟨machine, frame, budget⟩ := state
  right
  change Run.onMachine step _ = Run.endWithMore extra (Run.onMachine step _)
  simp only [Run.onMachine, RunState.withMore]
  cases step machine <;> rfl

/-- A step that can be taken can be taken with more steps left. -/
theorem Run.Persists.tick (limit limit' : Nat) : Run.Persists (Run.tick limit) (Run.tick limit') := by
  intro state extra
  obtain ⟨machine, frame, budget⟩ := state
  cases budget with
  | zero => exact .inl ⟨limit, ⟨machine, frame, 0⟩, rfl⟩
  | succ budget =>
    right
    change Run.tick limit' ⟨machine, frame, budget + 1 + extra⟩ = _
    rw [show budget + 1 + extra = (budget + extra) + 1 by omega]
    rfl

/-- Whether a run persists depends on its parts only, and never on the budget. -/
theorem Run.Persists.congruent (limit limit' : Nat) :
    RunRelation.Congruent (fun _ _ => Run.Persists) limit limit' where
  fewer _ h := h
  pure _ := fun _ _ => .inr rfl
  fault _ := fun _ _ => .inr rfl
  bind := .bind
  apply operation values := .onMachine (operation.apply values)
  onFrame _ := fun _ _ => .inr rfl
  frame := fun _ _ => .inr rfl
  tick h := .bind (.tick limit limit') fun _ => h
  stopped := fun state _ => .inl ⟨limit, state, rfl⟩
  exhausted := fun state _ => .inl ⟨limit, state, rfl⟩

end

end YulAbi.Yul

namespace YulAbi.CodeUnit

open Yul

/-- How a call with a budget ends is how its run ends, without the variables. -/
theorem run_call (unit : CodeUnit) (limit : Nat) (name : String) (args : List Word) (machine : Machine) :
    (unit.call limit name args).run machine =
      match (callWith unit (execute unit limit limit) name args).run ⟨machine, ⟨name, []⟩, limit⟩ with
      | .ok values after => .ok values after.machine
      | .error fault after => .error fault after.machine :=
  rfl

/-- A call with any budget exhausts it, or ends in the same way with a larger one. -/
theorem call_exhausted_or_eq (unit : CodeUnit) (name : String) (args : List Word) (machine : Machine)
    {limit larger : Nat} (more : limit ≤ larger) :
    (∃ other after, (unit.call limit name args).run machine = .error (.stepLimit other) after) ∨
      (unit.call larger name args).run machine = (unit.call limit name args).run machine := by
  obtain ⟨extra, rfl⟩ : ∃ extra, larger = limit + extra := ⟨larger - limit, by omega⟩
  have persists := (Run.Persists.congruent limit (limit + extra)).call unit limit extra name args
  rw [run_call, run_call]
  rcases persists ⟨machine, ⟨name, []⟩, limit⟩ extra with ⟨other, stopped, failed⟩ | ended
  · left
    rw [failed]
    exact ⟨other, stopped.machine, rfl⟩
  · right
    rw [show (⟨machine, ⟨name, []⟩, limit + extra⟩ : RunState) = RunState.withMore extra ⟨machine, ⟨name, []⟩, limit⟩
      from rfl, ended]
    cases (callWith unit (execute unit limit limit) name args).run ⟨machine, ⟨name, []⟩, limit⟩ <;> rfl

variable {unit : CodeUnit} {name : String} {args : List Word} {effect : MachineStep (List Word)}

/-- A call with a budget that is large enough has the effect of the routine. -/
theorem CallActs.exists_enough (h : unit.CallActs name args effect) (machine : Machine) :
    ∃ enough, ∀ limit, enough ≤ limit →
      (unit.call limit name args).run machine = effect.run machine := by
  obtain ⟨cost, needed, run⟩ := h ⟨name, []⟩ machine
  refine ⟨max cost needed, fun limit enough => ?_⟩
  have ends := run limit limit (limit - cost) (by omega)
  rw [show limit - cost + cost = limit by omega] at ends
  change CodeUnit.call unit limit name args machine = _
  unfold CodeUnit.call
  cases ended : effect.run machine with
  | ok values after =>
    rw [Step.bind_of_ok ended] at ends
    rw [show callWith unit (execute unit limit limit) name args ⟨machine, ⟨name, []⟩, limit⟩ = _ from ends]
  | error fault after =>
    rw [Step.bind_of_error ended] at ends
    obtain ⟨frame, rest, failed⟩ := ends
    rw [show callWith unit (execute unit limit limit) name args ⟨machine, ⟨name, []⟩, limit⟩ = _ from failed]

/-- A call with any budget exhausts it or has the effect of the routine. -/
theorem CallActs.exhausted_or_eq (h : unit.CallActs name args effect) (machine : Machine) (limit : Nat) :
    (∃ other after, (unit.call limit name args).run machine = .error (.stepLimit other) after) ∨
      (unit.call limit name args).run machine = effect.run machine := by
  obtain ⟨enough, equal⟩ := h.exists_enough machine
  have same := equal (limit + enough) (by omega)
  rw [← same]
  exact (call_exhausted_or_eq unit name args machine (Nat.le_add_right _ _)).imp_right Eq.symm

/-- A call that succeeds has the effect of the routine. -/
theorem CallActs.of_call_ok (h : unit.CallActs name args effect) {machine after : Machine} {limit : Nat}
    {values : List Word} (called : (unit.call limit name args).run machine = .ok values after) :
    effect.run machine = .ok values after := by
  rcases h.exhausted_or_eq machine limit with ⟨other, stopped, failed⟩ | same
  · rw [failed] at called
    cases called
  · rw [← same, called]

end YulAbi.CodeUnit
