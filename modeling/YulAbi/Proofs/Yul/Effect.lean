import YulAbi.Proofs.Step
import YulAbi.Yul.Interpreter

/-!
# Effects of runs

A run uses up a budget of steps and keeps variables. Its effect is what is left when
both are set aside: a step of the machine that also tells the variables afterwards. A
part of a run has an effect if it ends exactly as the effect does, faults included,
as soon as its budget and the depth of nested statements suffice. Effects compose as
runs do. Nothing is said here about runs that stop because their budget is too small.
-/

namespace YulAbi.Yul

/-- A part of a run, for every limit of steps and every depth of nested statements. -/
abbrev Process (α : Type) := (limit depth : Nat) → Run α

section

variable {α β σ : Type}

/-- Whether a run ends as a step of the machine does, with the given budget left after a success. -/
def EndsAs (budget : Nat) (result : EStateM.Result Fault RunState α) :
    EStateM.Result Fault Machine (α × Frame) → Prop
  | .ok (value, frame) machine => result = .ok value ⟨machine, frame, budget⟩
  | .error fault machine => ∃ frame rest, result = .error fault ⟨machine, frame, rest⟩

/-- Whether a process that starts with some variables acts on every machine as a step does. The cost
and the depth that is needed may depend on the machine, but neither on the limit nor on what is left
of the budget. -/
def Process.HasEffect (process : Process α) (frame : Frame) (effect : MachineStep (α × Frame)) :
    Prop :=
  ∀ machine, ∃ cost needed, ∀ limit depth budget, needed ≤ depth →
    EndsAs budget ((process limit depth).run ⟨machine, frame, budget + cost⟩) (effect.run machine)

/-- One process after another has one effect after the other, where the first effect tells by an
answer of its own which value and which variables the first process ends with. -/
theorem Process.HasEffect.bind {process : Process α} (next : α → Process β) {frame : Frame}
    {effect : MachineStep σ} {outcome : σ → α × Frame} {rest : σ → MachineStep (β × Frame)}
    (first : process.HasEffect frame (effect >>= fun state => pure (outcome state)))
    (second : ∀ state, (next (outcome state).1).HasEffect (outcome state).2 (rest state)) :
    Process.HasEffect (fun limit depth => process limit depth >>= fun value => next value limit depth)
      frame (effect >>= rest) := by
  intro machine
  obtain ⟨cost, needed, run⟩ := first machine
  cases ended : effect.run machine with
  | error fault stopped =>
    refine ⟨cost, needed, fun limit depth budget enough => ?_⟩
    have h := run limit depth budget enough
    rw [Step.bind_of_error ended] at h
    obtain ⟨left, remaining, failed⟩ := h
    rw [Step.bind_of_error ended]
    exact ⟨left, remaining, Step.bind_of_error failed⟩
  | ok state reached =>
    obtain ⟨further, deeper, continued⟩ := second state reached
    refine ⟨cost + further, max needed deeper, fun limit depth budget enough => ?_⟩
    have h := run limit depth (budget + further) (by omega)
    rw [Step.bind_of_ok ended] at h
    rw [Step.bind_of_ok ended, show budget + (cost + further) = budget + further + cost by omega,
      Step.bind_of_ok h]
    exact continued limit depth budget (by omega)

/-- A process that only moves the variables takes no part in the effect of what follows it. -/
theorem Process.HasEffect.behind {process : Process α} (next : α → Process β) {frame moved : Frame} {value : α}
    {rest : MachineStep (β × Frame)} (first : process.HasEffect frame (pure (value, moved)))
    (second : (next value).HasEffect moved rest) :
    Process.HasEffect (fun limit depth => process limit depth >>= fun value => next value limit depth)
      frame rest := by
  intro machine
  obtain ⟨cost, needed, run⟩ := first machine
  obtain ⟨further, deeper, continued⟩ := second machine
  refine ⟨cost + further, max needed deeper, fun limit depth budget enough => ?_⟩
  have moves : (process limit depth).run ⟨machine, frame, budget + further + cost⟩ =
      .ok value ⟨machine, moved, budget + further⟩ := run limit depth (budget + further) (by omega)
  rw [show budget + (cost + further) = budget + further + cost by omega, Step.bind_of_ok moves]
  exact continued limit depth budget (by omega)

/-- A process that only answers has no effect on the machine. -/
theorem Process.HasEffect.pure (value : α) (frame : Frame) :
    Process.HasEffect (fun _ _ => pure value) frame (pure (value, frame)) :=
  fun _ => ⟨0, 0, fun _ _ _ _ => rfl⟩

/-- A process that stops with a fault has the effect of that fault. -/
theorem Process.HasEffect.throw (fault : Fault) (frame : Frame) :
    Process.HasEffect (α := α) (fun _ _ => throw fault) frame (throw fault) :=
  fun _ => ⟨0, 0, fun _ _ budget _ => ⟨frame, budget, rfl⟩⟩

/-- An operation of the machine is its own effect and leaves the variables alone. -/
theorem Process.HasEffect.onMachine (step : MachineStep α) (frame : Frame) :
    Process.HasEffect (fun _ _ => Run.onMachine step) frame (step >>= fun value => Pure.pure (value, frame)) := by
  intro machine
  refine ⟨0, 0, fun limit depth budget _ => ?_⟩
  cases ended : step.run machine with
  | ok value next =>
    rw [Step.bind_of_ok ended]
    change Run.onMachine step ⟨machine, frame, budget⟩ = _
    simp only [Run.onMachine, show step machine = .ok value next from ended]
  | error fault next =>
    rw [Step.bind_of_error ended]
    refine ⟨frame, budget, ?_⟩
    change Run.onMachine step ⟨machine, frame, budget⟩ = _
    simp only [Run.onMachine, show step machine = .error fault next from ended]

/-- A change of the variables has no effect on the machine. -/
theorem Process.HasEffect.onFrame (change : Frame → Frame) (frame : Frame) :
    Process.HasEffect (fun _ _ => Run.onFrame change) frame (Pure.pure ((), change frame)) :=
  fun _ => ⟨0, 0, fun _ _ _ _ => rfl⟩

/-- The variables can be looked at without any effect. -/
theorem Process.HasEffect.frame (frame : Frame) :
    Process.HasEffect (fun _ _ => Run.frame) frame (Pure.pure (frame, frame)) :=
  fun _ => ⟨0, 0, fun _ _ _ _ => rfl⟩

/-- A step of the budget has no effect on the machine. -/
theorem Process.HasEffect.tick (frame : Frame) :
    Process.HasEffect (fun limit _ => Run.tick limit) frame (Pure.pure ((), frame)) :=
  fun _ => ⟨1, 0, fun _ _ _ _ => rfl⟩

/-- Processes that run alike from some depth on have the same effect. -/
theorem Process.HasEffect.congr {process other : Process α} {frame : Frame}
    {effect : MachineStep (α × Frame)} (h : other.HasEffect frame effect) (bound : Nat)
    (same : ∀ limit depth, bound ≤ depth → process limit depth = other limit depth) :
    process.HasEffect frame effect := by
  intro machine
  obtain ⟨cost, needed, run⟩ := h machine
  refine ⟨cost, max needed bound, fun limit depth budget enough => ?_⟩
  rw [same limit depth (by omega)]
  exact run limit depth budget (by omega)

/-- A process has the effect of one that it becomes with other variables. -/
theorem Process.HasEffect.enter {process other : Process α} {frame start : Frame}
    {effect : MachineStep (α × Frame)} (h : other.HasEffect start effect)
    (same : ∀ limit depth machine budget, (process limit depth).run ⟨machine, frame, budget⟩ =
      (other limit depth).run ⟨machine, start, budget⟩) :
    process.HasEffect frame effect := by
  intro machine
  obtain ⟨cost, needed, run⟩ := h machine
  refine ⟨cost, needed, fun limit depth budget enough => ?_⟩
  rw [same]
  exact run limit depth budget enough

/-- A process keeps its effect when it is run one level deeper. -/
theorem Process.HasEffect.nested {process : Process α} {frame : Frame}
    {effect : MachineStep (α × Frame)} (h : process.HasEffect frame effect) :
    Process.HasEffect (fun limit depth => process limit (depth - 1)) frame effect := by
  intro machine
  obtain ⟨cost, needed, run⟩ := h machine
  exact ⟨cost, needed + 1, fun limit depth budget enough => run limit (depth - 1) budget (by omega)⟩

/-- Whether a process acts as a step does and leaves the variables as they are. -/
def Process.Acts (process : Process α) (frame : Frame) (effect : MachineStep α) : Prop :=
  process.HasEffect frame (effect >>= fun value => Pure.pure (value, frame))

/-- What leaves the variables alone may be followed by what does not. -/
theorem Process.Acts.andThen {process : Process α} {next : α → Process β} {frame : Frame}
    {effect : MachineStep α} {rest : α → MachineStep (β × Frame)} (first : process.Acts frame effect)
    (second : ∀ value, (next value).HasEffect frame (rest value)) :
    Process.HasEffect (fun limit depth => process limit depth >>= fun value => next value limit depth)
      frame (effect >>= rest) :=
  Process.HasEffect.bind next first second

/-- One process after another leaves the variables alone if both do. -/
theorem Process.Acts.bind {process : Process α} {next : α → Process β} {frame : Frame}
    {effect : MachineStep α} {rest : α → MachineStep β} (first : process.Acts frame effect)
    (second : ∀ value, (next value).Acts frame (rest value)) :
    Process.Acts (fun limit depth => process limit depth >>= fun value => next value limit depth)
      frame (effect >>= rest) := by
  unfold Process.Acts
  rw [bind_assoc]
  exact Process.Acts.andThen first second

/-- An answer leaves the variables alone. -/
theorem Process.Acts.pure (value : α) (frame : Frame) :
    Process.Acts (fun _ _ => pure value) frame (pure value) := by
  simpa [Process.Acts] using Process.HasEffect.pure value frame

end

end YulAbi.Yul
