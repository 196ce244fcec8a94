import YulAbi.Proofs.Yul.Budget
import YulAbi.Proofs.Yul.Safety

/-!
# Steps that are taken

Only statements and rounds of loops take steps, so a routine of one statement that calls no
other routine takes one step. A budget of as many steps as a call takes is enough for it.
-/

namespace YulAbi.Yul

/-- Whether a run with a budget of some steps takes no more of them, and is not stopped for want of steps. -/
def Run.Takes {α : Type} (steps : Nat) (run : Run α) : Prop :=
  ∀ state, steps ≤ state.budget →
    match run.run state with
    | .ok _ after => state.budget ≤ after.budget + steps
    | .error fault _ => ∀ limit, fault ≠ .stepLimit limit

mutual
/-- Whether an expression neither calls a routine nor reverts. -/
def Expr.isPlain : Expr → Bool
  | .builtin operation args => operation != .revert && Expr.areAllPlain args
  | .call _ _ => false
  | _ => true
/-- Whether no one of several expressions calls a routine or reverts. -/
def Expr.areAllPlain : List Expr → Bool
  | [] => true
  | arg :: rest => arg.isPlain && Expr.areAllPlain rest
end

/-- Whether a statement evaluates one expression that neither calls a routine nor reverts. -/
def Stmt.isPlain : Stmt → Bool
  | .assign _ value => value.isPlain
  | .eval expr => expr.isPlain
  | _ => false

/-- A folded sum of plain expressions is plain. -/
theorem Expr.add_isPlain {left right : Expr} (h : left.isPlain = true) (h' : right.isPlain = true) :
    (left.add right).isPlain = true := by
  unfold Expr.add
  split
  · exact h
  · split
    · exact h'
    · split
      · rfl
      · simp [isPlain, areAllPlain, h, h']

section

variable {α β : Type} {steps more : Nat}

/-- An answer takes no step. -/
theorem Run.Takes.pure (value : α) : Run.Takes 0 (pure value) := fun _ _ => Nat.le_refl _

/-- A fault takes no step. -/
theorem Run.Takes.fault {fault : Fault} (other : ∀ limit, fault ≠ .stepLimit limit) :
    Run.Takes (α := α) 0 (throw fault) :=
  fun _ _ => other

/-- A run in two parts takes the steps of both. -/
theorem Run.Takes.bind {first : Run α} {next : α → Run β} (h : Run.Takes steps first)
    (h' : ∀ value, Run.Takes more (next value)) : Run.Takes (steps + more) (first >>= next) := by
  intro state enough
  have begun := h state (by omega)
  cases ended : first.run state with
  | ok value reached =>
    rw [ended] at begun
    have rest := h' value reached (by dsimp only at begun; omega)
    rw [Step.bind_of_ok ended]
    split
    · rename_i after ended'
      rw [ended'] at rest
      dsimp only at begun rest
      omega
    · rename_i fault after ended'
      rw [ended'] at rest
      exact rest
  | error fault stopped =>
    rw [ended] at begun
    rw [Step.bind_of_error ended]
    exact begun

/-- A part that takes no step may come last. -/
theorem Run.Takes.then {first : Run α} {next : α → Run β} (h : Run.Takes steps first)
    (h' : ∀ value, Run.Takes 0 (next value)) : Run.Takes steps (first >>= next) :=
  h.bind h'

/-- A part that takes no step may come first. -/
theorem Run.Takes.behind {first : Run α} {next : α → Run β} (h : Run.Takes 0 first)
    (h' : ∀ value, Run.Takes steps (next value)) : Run.Takes steps (first >>= next) := by
  simpa using h.bind h'

/-- Changing the variables takes no step. -/
theorem Run.Takes.onFrame (change : Frame → Frame) : Run.Takes 0 (Run.onFrame change) := fun _ _ => Nat.le_refl _

/-- Looking at the variables takes no step. -/
theorem Run.Takes.frame : Run.Takes 0 Run.frame := fun _ _ => Nat.le_refl _

/-- An operation of the machine takes no step. -/
theorem Run.Takes.onMachine {step : MachineStep α} (stops : step.StopsAtLimit) : Run.Takes 0 (Run.onMachine step) := by
  intro state _
  obtain ⟨machine, frame, budget⟩ := state
  cases ended : step machine with
  | ok value after =>
    have ran : (Run.onMachine step).run ⟨machine, frame, budget⟩ = .ok value ⟨after, frame, budget⟩ := by
      simp [Run.onMachine, EStateM.run, ended]
    rw [ran]
    exact Nat.le_refl budget
  | error fault after =>
    obtain ⟨offset, rfl⟩ := stops machine fault after ended
    have ran : (Run.onMachine step).run ⟨machine, frame, budget⟩ =
        .error (.memoryLimit offset) ⟨after, frame, budget⟩ := by simp [Run.onMachine, EStateM.run, ended]
    rw [ran]
    exact fun limit => by simp

/-- One step is one step. -/
theorem Run.Takes.tick (limit : Nat) : Run.Takes 1 (Run.tick limit) := by
  intro state enough
  obtain ⟨machine, frame, budget⟩ := state
  obtain ⟨rest, rfl⟩ : ∃ rest, budget = rest + 1 := ⟨budget - 1, by dsimp only at enough; omega⟩
  exact Nat.le_refl _

/-- Looking up a variable takes no step. -/
theorem Run.Takes.lookup (name : String) : Run.Takes 0 (Run.lookup name) := by
  refine .behind .frame fun frame => ?_
  cases frame.find? name with
  | some value => exact .pure value
  | none => exact .fault fun _ same => nomatch same

/-- Looking up variables takes no step. -/
theorem Run.Takes.lookupAll (results : List RoutineParameter) :
    Run.Takes 0 (results.mapM fun result => Run.lookup result.name) := by
  induction results with
  | nil => exact .pure []
  | cons result rest ih =>
    rw [List.mapM_cons]
    exact .behind (.lookup _) fun value => .behind ih fun values => .pure (value :: values)

/-- Declaring variables takes no step. -/
theorem Run.Takes.declareAll (entries : List (String × Word)) : Run.Takes 0 (Run.declareAll entries) := by
  induction entries with
  | nil => exact .pure ()
  | cons entry rest ih => exact .behind (.onFrame _) fun _ => ih

/-- Assigning to variables takes no step. -/
theorem Run.Takes.assignAll (entries : List (String × Word)) : Run.Takes 0 (Run.assignAll entries) := by
  induction entries with
  | nil => exact .pure ()
  | cons entry rest ih =>
    refine .behind (.behind .frame fun frame => ?_) fun _ => ih
    split
    · exact .onFrame _
    · exact .fault fun _ same => nomatch same

end

section

variable {unit : CodeUnit} {caller : Caller} {stmt : Stmt} {routine : Routine} {name : String} {args : List Word}

mutual
/-- A plain expression takes no step. -/
theorem Run.Takes.evalMany {expr : Expr} (plain : expr.isPlain = true) : Run.Takes 0 (evalMany unit caller expr) := by
  cases expr with
  | literal value =>
    simp only [Yul.evalMany]
    exact .pure _
  | ident name =>
    simp only [Yul.evalMany]
    exact .behind (.lookup name) fun value => .pure _
  | constant name =>
    simp only [Yul.evalMany]
    cases unit.constant? name with
    | some value => exact .pure _
    | none => exact .fault fun _ same => nomatch same
  | builtin operation args =>
    simp only [Expr.isPlain, Bool.and_eq_true, bne_iff_ne, ne_eq] at plain
    simp only [Yul.evalMany]
    split
    · exact .behind (Run.Takes.evalArgs plain.2) fun values => .onMachine (Builtin.apply_safe plain.1 values).1
    · exact .fault fun _ same => nomatch same
  | call name args => simp [Expr.isPlain] at plain
/-- Plain arguments take no step. -/
theorem Run.Takes.evalArgs {args : List Expr} (plain : Expr.areAllPlain args = true) :
    Run.Takes 0 (evalArgs unit caller args) := by
  cases args with
  | nil =>
    simp only [Yul.evalArgs]
    exact .pure _
  | cons arg rest =>
    simp only [Expr.areAllPlain, Bool.and_eq_true] at plain
    simp only [Yul.evalArgs]
    refine .behind (Run.Takes.evalArgs plain.2) fun others => .behind (Run.Takes.evalMany plain.1) fun values =>
      .behind ?_ fun value => .pure _
    unfold singleValue
    split
    · exact .pure _
    · exact .fault fun _ same => nomatch same
end

/-- A plain statement takes one step. -/
theorem Run.Takes.execute (plain : stmt.isPlain = true) {limit depth : Nat} (positive : 0 < depth) :
    Run.Takes 1 (execute unit limit depth stmt) := by
  obtain ⟨deeper, rfl⟩ : ∃ deeper, depth = deeper + 1 := ⟨depth - 1, by omega⟩
  change Run.Takes 1 (runStmt unit limit (Yul.execute unit limit deeper) deeper stmt)
  refine .then (.tick limit) fun _ => ?_
  cases stmt with
  | assign names value =>
    refine .behind (.behind (.evalMany plain) fun values => ?_) fun values => .behind (.assignAll _) fun _ => .pure _
    unfold requireValues
    split
    · exact .pure _
    · exact .fault fun _ same => nomatch same
  | eval expr => exact .behind (.evalMany plain) fun _ => .pure _
  | declare _ _ | branch _ _ | loop _ _ _ _ | leave => cases plain

/-- A call of a routine of one plain statement takes one step. -/
theorem Run.Takes.callWith (found : unit.routine? name = some routine) (body : routine.body = [stmt])
    (plain : stmt.isPlain = true) {limit depth : Nat} (positive : 0 < depth) :
    Run.Takes 1 (callWith unit (Yul.execute unit limit depth) name args) := by
  have block : Run.Takes 1 (runBlock (Yul.execute unit limit depth) routine.body) := by
    rw [body]
    refine .behind (.onFrame _) fun _ => Run.Takes.then ?_ fun flow => .behind (.onFrame _) fun _ => .pure flow
    refine Run.Takes.then (.execute plain positive) fun flow => ?_
    cases flow with
    | normal | leave => exact .pure _
  have runs : Run.Takes 1 (do
      let outer ← Run.frame
      Run.onFrame fun _ => ⟨routine.name, [[]]⟩
      Run.declareAll ((routine.params.map RoutineParameter.name).zip args)
      Run.declareAll (routine.returns.map fun result => (result.name, 0#256))
      let _ ← Yul.runBlock (Yul.execute unit limit depth) routine.body
      let results ← routine.returns.mapM fun result => Run.lookup result.name
      Run.onFrame fun _ => outer
      return results) :=
    .behind .frame fun outer => .behind (.onFrame _) fun _ => .behind (.declareAll _) fun _ =>
      .behind (.declareAll _) fun _ => Run.Takes.then block fun _ => .behind (.lookupAll _) fun results =>
        .behind (.onFrame _) fun _ => .pure results
  unfold Yul.callWith
  rw [found]
  dsimp only
  split
  · exact .behind (.fault fun _ same => nomatch same) fun _ => runs
  · exact runs

end

end YulAbi.Yul

namespace YulAbi.CodeUnit

open Yul

variable {unit : CodeUnit} {name : String} {args : List Word} {effect : MachineStep (List Word)} {steps : Nat}

/-- A call that takes some steps has the effect of its routine with any budget of as many steps. -/
theorem CallActs.run_of_takes (h : unit.CallActs name args effect) (machine : Machine) {limit : Nat}
    (takes : Run.Takes steps (callWith unit (execute unit limit limit) name args)) (enough : steps ≤ limit) :
    (unit.call limit name args).run machine = effect.run machine := by
  refine (h.exhausted_or_eq machine limit).resolve_left fun ⟨other, after, failed⟩ => ?_
  have ends := takes ⟨machine, ⟨name, []⟩, limit⟩ enough
  change CodeUnit.call unit limit name args machine = _ at failed
  unfold CodeUnit.call at failed
  cases ended : callWith unit (execute unit limit limit) name args ⟨machine, ⟨name, []⟩, limit⟩ with
  | ok values reached =>
    rw [ended] at failed
    cases failed
  | error fault stopped =>
    rw [ended] at failed
    have ran : (callWith unit (execute unit limit limit) name args).run ⟨machine, ⟨name, []⟩, limit⟩ = _ := ended
    rw [ran] at ends
    cases failed
    exact ends _ rfl

/-- A call of a routine of one plain statement has its effect with any budget but none. -/
theorem CallActs.run_of_plain (h : unit.CallActs name args effect) {routine : Routine} {stmt : Stmt}
    (found : unit.routine? name = some routine) (body : routine.body = [stmt]) (plain : stmt.isPlain = true)
    (machine : Machine) {limit : Nat} (positive : 0 < limit) :
    (unit.call limit name args).run machine = effect.run machine :=
  h.run_of_takes machine (.callWith found body plain positive) positive

end YulAbi.CodeUnit
