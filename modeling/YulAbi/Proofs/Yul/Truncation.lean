import YulAbi.Proofs.Yul.Budget
import YulAbi.Proofs.Yul.Safety

/-!
# The budget only truncates

Every call ends, whatever the code is: routines may call each other and loops may go on for
ever, but each statement and each round of a loop takes a step, so code is never nested deeper
than there are steps, and a call that is stopped for want of steps has taken all of them. What
a call does otherwise does not depend on its budget.
-/

namespace YulAbi.Yul

section

variable {α β : Type} {limit : Nat}

/-- Whether a run that began with some steps has not gained any, and has none left if it is stopped by its limit. -/
def Run.Spent (limit budget : Nat) : EStateM.Result Fault RunState α → Prop
  | .ok _ after => after.budget ≤ budget
  | .error fault after => ∀ other, fault = .stepLimit other → other = limit ∧ after.budget = 0

/-- Whether two runs with a budget up to a bound end alike, having spent at most their budget. -/
def Run.EndsAlike (limit : Nat) : RunRelation := fun _ bound run run' =>
  ∀ state, state.budget ≤ bound → run'.run state = run.run state ∧ Run.Spent limit state.budget (run.run state)

/-- What has spent fewer steps has spent no more than a larger budget. -/
theorem Run.Spent.mono {budget more : Nat} {result : EStateM.Result Fault RunState α}
    (h : Run.Spent limit budget result) (less : budget ≤ more) : Run.Spent limit more result := by
  cases result with
  | ok value after => exact Nat.le_trans h less
  | error fault after => exact h

/-- Sequences end alike if their parts do. -/
theorem Run.EndsAlike.bind {bound : Nat} {first first' : Run α} {next next' : α → Run β}
    (h : Run.EndsAlike limit _ bound first first') (h' : ∀ value, Run.EndsAlike limit _ bound (next value) (next' value)) :
    Run.EndsAlike limit _ bound (first >>= next) (first' >>= next') := by
  intro state few
  obtain ⟨same, spent⟩ := h state few
  cases ended : first.run state with
  | ok value reached =>
    rw [ended] at same spent
    obtain ⟨same', spent'⟩ := h' value reached (Nat.le_trans spent few)
    rw [Step.bind_of_ok ended, Step.bind_of_ok same]
    exact ⟨same', spent'.mono spent⟩
  | error fault stopped =>
    rw [ended] at same spent
    rw [Step.bind_of_error ended, Step.bind_of_error same]
    exact ⟨rfl, spent⟩

/-- A revert ends in a revert or at the limit of memory. -/
theorem Builtin.revertWith_fault {address length : Word} {machine after : Machine} {fault : Fault}
    (ended : (Builtin.revertWith address length).run machine = .error fault after) :
    (∃ output, fault = .reverted output) ∨ ∃ offset, fault = .memoryLimit offset := by
  have stops := MachineStep.StopsAtLimit.checkedOffset
  unfold Builtin.revertWith at ended
  cases sized : (Machine.check (Machine.checkedOffset length)).run machine with
  | error cause stopped =>
    rw [Step.bind_of_error sized] at ended
    cases ended
    exact .inr (stops length machine _ _ sized)
  | ok size reached =>
    rw [Step.bind_of_ok sized] at ended
    split at ended
    · cases ended
      exact .inl ⟨_, rfl⟩
    · cases placed : (Machine.check (Machine.checkedOffset address)).run reached with
      | error cause stopped =>
        rw [Step.bind_of_error placed] at ended
        cases ended
        exact .inr (stops address reached _ _ placed)
      | ok offset reached' =>
        rw [Step.bind_of_ok placed] at ended
        cases ended
        exact .inl ⟨_, rfl⟩

/-- No instruction is stopped by the limit of steps. -/
theorem Builtin.apply_ne_stepLimit (operation : Builtin) (values : List Word) {machine after : Machine} {fault : Fault}
    (ended : (operation.apply values).run machine = .error fault after) (other : Nat) : fault ≠ .stepLimit other := by
  rintro rfl
  by_cases harmless : operation = .revert
  · subst harmless
    have reverted : (Builtin.revertWith (values[0]?.getD 0#256) (values[1]?.getD 0#256)).run machine =
        .error (.stepLimit other) after := by
      cases ran : (Builtin.revertWith (values[0]?.getD 0#256) (values[1]?.getD 0#256)).run machine with
      | ok answer reached => cases (Step.bind_of_ok ran).symm.trans ended
      | error fault stopped =>
        cases (Step.bind_of_error ran).symm.trans ended
        rfl
    rcases Builtin.revertWith_fault reverted with ⟨output, same⟩ | ⟨offset, same⟩ <;> cases same
  · obtain ⟨offset, same⟩ := (Builtin.apply_safe harmless values).1 machine _ after ended
    cases same

/-- An instruction takes no step. -/
theorem Run.EndsAlike.apply {bound : Nat} (operation : Builtin) (values : List Word) :
    Run.EndsAlike limit _ bound (Run.onMachine (operation.apply values)) (Run.onMachine (operation.apply values)) := by
  intro state _
  refine ⟨rfl, ?_⟩
  obtain ⟨machine, frame, budget⟩ := state
  change Run.Spent limit budget (Run.onMachine (operation.apply values) ⟨machine, frame, budget⟩)
  simp only [Run.onMachine]
  cases ended : operation.apply values machine with
  | ok answer after => exact Nat.le_refl budget
  | error fault after => exact fun other same => absurd same (Builtin.apply_ne_stepLimit operation values ended other)

/-- Behind a step there is one step less. -/
theorem Run.EndsAlike.tick {bound : Nat} {next next' : Run α} (h : Run.EndsAlike limit _ bound next next') :
    Run.EndsAlike limit _ (bound + 1) (Run.tick limit >>= fun _ => next) (Run.tick limit >>= fun _ => next') := by
  intro state few
  obtain ⟨machine, frame, budget⟩ := state
  cases budget with
  | zero => exact ⟨rfl, fun other same => ⟨(Fault.stepLimit.inj same).symm, rfl⟩⟩
  | succ budget =>
    have ticked : (Run.tick limit).run ⟨machine, frame, budget + 1⟩ = .ok () ⟨machine, frame, budget⟩ := rfl
    obtain ⟨same, spent⟩ := h ⟨machine, frame, budget⟩ (Nat.le_of_succ_le_succ few)
    rw [Step.bind_of_ok ticked, Step.bind_of_ok ticked]
    exact ⟨same, spent.mono (Nat.le_succ budget)⟩

/-- How runs end depends on how their parts do. -/
theorem Run.EndsAlike.congruent (limit : Nat) : (Run.EndsAlike limit).Congruent limit limit where
  fewer less h := fun state few => h state (Nat.le_trans few less)
  pure _ := fun _ _ => ⟨rfl, Nat.le_refl _⟩
  fault other := fun _ _ => ⟨rfl, fun number same => absurd same (other number)⟩
  bind := .bind
  apply := .apply
  onFrame _ := fun _ _ => ⟨rfl, Nat.le_refl _⟩
  frame := fun _ _ => ⟨rfl, Nat.le_refl _⟩
  tick := .tick
  stopped := fun state none => ⟨rfl, fun other same => ⟨(Fault.stepLimit.inj same).symm, Nat.le_zero.mp none⟩⟩
  exhausted := by
    rintro α next ⟨machine, frame, budget⟩ none
    obtain rfl : budget = 0 := Nat.le_zero.mp none
    exact ⟨rfl, fun other same => ⟨(Fault.stepLimit.inj same).symm, rfl⟩⟩

end

end YulAbi.Yul

namespace YulAbi.CodeUnit

open Yul

variable (unit : CodeUnit) (name : String) (args : List Word) (machine : Machine)

/-- The run of a call with some steps, its statements nested at most `depth` deep. -/
def runTo (limit depth : Nat) : EStateM.Result Fault RunState (List Word) :=
  (callWith unit (execute unit limit depth) name args).run ⟨machine, ⟨name, []⟩, limit⟩

/-- Statements are never nested deeper than there are steps, and a run that is stopped by its limit has none left. -/
theorem runTo_ends (limit depth : Nat) (deep : limit ≤ depth) :
    unit.runTo name args machine limit depth = unit.runTo name args machine limit limit ∧
      Run.Spent limit limit (unit.runTo name args machine limit limit) := by
  obtain ⟨more, rfl⟩ : ∃ more, depth = limit + more := ⟨depth - limit, by omega⟩
  exact (Run.EndsAlike.congruent limit).call unit limit more name args ⟨machine, ⟨name, []⟩, limit⟩ (Nat.le_refl limit)

variable {unit name args machine}

/-- A call that is stopped for want of steps is stopped by the limit it was given. -/
theorem stepLimit_eq {limit other : Nat} {after : Machine}
    (stopped : (unit.call limit name args).run machine = .error (.stepLimit other) after) : other = limit := by
  have spent := (unit.runTo_ends name args machine limit limit (Nat.le_refl limit)).2
  unfold runTo at spent
  rw [run_call] at stopped
  cases ended : (callWith unit (execute unit limit limit) name args).run ⟨machine, ⟨name, []⟩, limit⟩ with
  | ok values reached =>
    rw [ended] at stopped
    cases stopped
  | error fault reached =>
    rw [ended] at spent stopped
    obtain ⟨same, -⟩ := EStateM.Result.error.inj stopped
    exact (spent other same).1

/-- A call that is stopped at a limit is stopped at every smaller one. -/
theorem stopped_at_smaller {limit smaller other : Nat} {after : Machine} (fewer : smaller ≤ limit)
    (stopped : (unit.call limit name args).run machine = .error (.stepLimit other) after) :
    ∃ reached, (unit.call smaller name args).run machine = .error (.stepLimit smaller) reached := by
  rcases unit.call_exhausted_or_eq name args machine fewer with ⟨other', reached, stopped'⟩ | same
  · obtain rfl := stepLimit_eq stopped'
    exact ⟨reached, stopped'⟩
  · rw [same] at stopped
    obtain rfl := stepLimit_eq stopped
    exact ⟨after, same ▸ stopped⟩

variable (unit name args machine)

/-- Every call ends, with its statements nested no deeper than it has steps. How it ends and what it leaves behind is
the same for all larger limits if it is not stopped by its limit, and otherwise it is stopped by all smaller ones. -/
theorem step_budget_only_truncates :
    (∀ limit, ∃ ending : EStateM.Result Fault RunState (List Word), Run.Spent limit limit ending ∧
      (∀ depth, limit ≤ depth → unit.runTo name args machine limit depth = ending) ∧
      (unit.call limit name args).run machine =
        match ending with
        | .ok values after => .ok values after.machine
        | .error fault after => .error fault after.machine) ∧
    (∀ limit, (∀ other after, (unit.call limit name args).run machine ≠ .error (.stepLimit other) after) →
      ∀ larger, limit ≤ larger →
        (unit.call larger name args).run machine = (unit.call limit name args).run machine) ∧
    ∀ limit other after, (unit.call limit name args).run machine = .error (.stepLimit other) after →
      ∀ smaller, smaller ≤ limit →
        ∃ reached, (unit.call smaller name args).run machine = .error (.stepLimit smaller) reached := by
  refine ⟨fun limit => ⟨unit.runTo name args machine limit limit, ?_, ?_, unit.run_call limit name args machine⟩, ?_, ?_⟩
  · exact (unit.runTo_ends name args machine limit limit (Nat.le_refl limit)).2
  · exact fun depth deep => (unit.runTo_ends name args machine limit depth deep).1
  · intro limit finished larger more
    rcases unit.call_exhausted_or_eq name args machine more with ⟨other, after, stopped⟩ | same
    · exact absurd stopped (finished other after)
    · exact same
  · exact fun limit other after stopped smaller fewer => stopped_at_smaller fewer stopped

/-- Two routines that call each other: one tells whether a number is even and one whether it is odd. -/
def parity : CodeUnit where
  routines :=
    [.ofBody "even" ["number"] ["answer"]
      [.assign ["answer"] (.literal 1#256),
        .branch (.ident "number")
          [.assign ["answer"] (.call "odd" [.builtin .sub [.ident "number", .literal 1#256]])]],
    .ofBody "odd" ["number"] ["answer"]
      [.branch (.ident "number")
        [.assign ["answer"] (.call "even" [.builtin .sub [.ident "number", .literal 1#256]])]]]
  constants := []

/-- The number two is even with seven steps and with any more, and with fewer it is not known. -/
theorem two_is_even_in_seven_steps :
    (∀ limit, 7 ≤ limit →
      ∃ after, (parity.call limit "even" [2#256]).run (.start .empty) = .ok [1#256] after) ∧
    ∀ limit, limit ≤ 6 →
      ∃ after, (parity.call limit "even" [2#256]).run (.start .empty) = .error (.stepLimit limit) after := by
  obtain ⟨-, settled, cut⟩ := step_budget_only_truncates parity "even" [2#256] (.start .empty)
  have known : (parity.call 7 "even" [2#256]).run (.start .empty) = .ok [1#256] (.start .empty) := by rfl
  have unknown : (parity.call 6 "even" [2#256]).run (.start .empty) = .error (.stepLimit 6) (.start .empty) := by
    rfl
  constructor
  · intro limit enough
    have same := settled 7 (fun other after stopped => by rw [known] at stopped; cases stopped) limit enough
    exact ⟨_, same.trans known⟩
  · exact fun limit few => cut 6 6 _ unknown limit few

end YulAbi.CodeUnit
