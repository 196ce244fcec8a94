import YulAbi.Machine
import YulAbi.Proofs.Step
import YulAbi.Proofs.Yul.Scoping
import YulAbi.Proofs.Yul.Variables

/-!
# Safety of scoped code

In a unit whose routines are all scoped, a call with as many arguments as the routine has
parameters ends with as many values as it has results, or else in one of three ways: it
reverts without data, it uses up its budget or it passes the limit of memory. It never
misses a routine, a constant, a variable or a value.

Evaluation leaves the variables as they are and statements only add to them, so the names
that are visible by the text are visible while the code runs.
-/

namespace YulAbi

/-! ### What stops the machine

The only thing that stops an operation of the machine is the limit of memory. -/

/-- Whether a step stops at nothing but the limit of memory. -/
def MachineStep.StopsAtLimit {α : Type} (step : MachineStep α) : Prop :=
  ∀ machine fault after, step.run machine = .error fault after → ∃ offset, fault = .memoryLimit offset

namespace MachineStep.StopsAtLimit

variable {α β : Type}

/-- An answer stops at nothing. -/
theorem pure (value : α) : StopsAtLimit (pure value) := by
  intro machine fault after ended
  cases ended

/-- Steps in a row stop where one of them stops. -/
theorem bind {first : MachineStep α} {next : α → MachineStep β} (h : first.StopsAtLimit)
    (h' : ∀ value, (next value).StopsAtLimit) : (first >>= next).StopsAtLimit := by
  intro machine fault after ended
  cases begun : first.run machine with
  | ok value reached =>
    rw [Step.bind_of_ok begun] at ended
    exact h' value reached fault after ended
  | error cause reached =>
    rw [Step.bind_of_error begun] at ended
    cases ended
    exact h machine _ _ begun

/-- The machine can always be looked at. -/
theorem get : StopsAtLimit (get : MachineStep Machine) := by
  intro machine fault after ended
  cases ended

/-- The machine can always be changed. -/
theorem modify (change : Machine → Machine) : StopsAtLimit (modify change : MachineStep PUnit) := by
  intro machine fault after ended
  cases ended

/-- An offset is refused beyond the limit. -/
theorem checkedOffset (value : Word) : StopsAtLimit (Machine.check (Machine.checkedOffset value)) := by
  intro machine fault after ended
  change Machine.query (fun _ => Machine.checkedOffset value) machine = _ at ended
  unfold Machine.query Machine.checkedOffset at ended
  split at ended
  · cases ended
  · rename_i refused
    split at refused <;> cases refused
    cases ended
    exact ⟨value.toNat, rfl⟩

/-- Bytes are refused beyond the limit. -/
theorem write (offset : Nat) (bytes : ByteArray) : StopsAtLimit (Machine.write offset bytes) := by
  intro machine fault after ended
  change Machine.write offset bytes machine = _ at ended
  unfold Machine.write at ended
  dsimp only at ended
  split at ended
  · cases ended
    exact ⟨_, rfl⟩
  · split at ended <;> cases ended
    exact ⟨_, rfl⟩

/-- A word is read up to the limit. -/
theorem mload (address : Word) : StopsAtLimit (Machine.mload address) :=
  .bind (checkedOffset address) fun _ => .bind get fun _ => pure _

/-- A word is stored up to the limit. -/
theorem mstore (address value : Word) : StopsAtLimit (Machine.mstore address value) :=
  .bind (checkedOffset address) fun offset => write offset _

/-- A byte is stored up to the limit. -/
theorem mstore8 (address value : Word) : StopsAtLimit (Machine.mstore8 address value) :=
  .bind (checkedOffset address) fun offset => write offset _

/-- Memory is copied up to the limit. -/
theorem mcopy (target source length : Word) : StopsAtLimit (Machine.mcopy target source length) := by
  refine .bind (checkedOffset length) fun size => ?_
  split
  · exact pure ()
  · exact .bind (checkedOffset source) fun start => .bind get fun machine =>
      .bind (checkedOffset target) fun offset => .bind (write offset _) fun _ => modify _

/-- Call data is copied up to the limit. -/
theorem calldatacopy (target source length : Word) :
    StopsAtLimit (Machine.calldatacopy target source length) := by
  refine .bind (checkedOffset length) fun size => ?_
  split
  · exact pure ()
  · exact .bind get fun machine => .bind (checkedOffset target) fun offset =>
      .bind (write offset _) fun _ => modify _

end MachineStep.StopsAtLimit

/-! ### How code ends -/

/-- Whether a fault is one that scoped code may end in. -/
inductive Fault.Tolerated (limit : Nat) : Fault → Prop where
  /-- It reverted without data. -/
  | reverted : Tolerated limit (.reverted [])
  /-- The budget is used up. -/
  | stepLimit : Tolerated limit (.stepLimit limit)
  /-- Memory is accessed beyond its limit. -/
  | memoryLimit (offset : Nat) : Tolerated limit (.memoryLimit offset)

namespace Yul

/-- Whether a run that starts with given variables ends with an answer and variables as described, or
in a fault that is tolerated. -/
def Run.Ends {α : Type} (limit : Nat) (run : Run α) (frame : Frame) (post : α → Frame → Prop) : Prop :=
  ∀ machine budget,
    match run.run ⟨machine, frame, budget⟩ with
    | .ok value after => post value after.frame
    | .error fault _ => fault.Tolerated limit

/-- Whether calls with the right number of arguments give the right number of values. -/
def Caller.Safe (unit : CodeUnit) (limit : Nat) (caller : Caller) : Prop :=
  ∀ name routine args frame, unit.routine? name = some routine → routine.params.length = args.length →
    Run.Ends limit (caller name args) frame fun values later =>
      values.length = routine.returns.length ∧ later = frame

/-- Whether scoped statements may be run wherever all visible names are variables. -/
def SafelyRuns (unit : CodeUnit) (limit : Nat) (execute : Stmt → Run Flow) : Prop :=
  ∀ visible stmt frame, stmt.Scoped unit visible → frame.scopes ≠ [] → frame.Declares visible →
    Run.Ends limit (execute stmt) frame fun flow later =>
      frame.Grows later ∧ (flow = .normal → later.Declares stmt.declared)

section

variable {α β : Type} {limit : Nat} {frame : Frame} {post : α → Frame → Prop}

/-- An answer ends with itself. -/
theorem Run.Ends.pure {value : α} (h : post value frame) : Run.Ends limit (pure value) frame post :=
  fun _ _ => h

/-- A tolerated fault is a way to end. -/
theorem Run.Ends.throw {fault : Fault} (h : fault.Tolerated limit) :
    Run.Ends limit (throw fault) frame post :=
  fun _ _ => h

/-- Runs in a row. -/
theorem Run.Ends.bind {run : Run α} {next : α → Run β} {goal : β → Frame → Prop}
    (h : Run.Ends limit run frame post)
    (h' : ∀ value later, post value later → Run.Ends limit (next value) later goal) :
    Run.Ends limit (run >>= next) frame goal := by
  intro machine budget
  have first := h machine budget
  cases ended : run.run ⟨machine, frame, budget⟩ with
  | ok value after =>
    rw [ended] at first
    rw [Step.bind_of_ok ended]
    exact h' value after.frame first after.machine after.budget
  | error fault after =>
    rw [ended] at first
    rw [Step.bind_of_error ended]
    exact first

/-- A description may be weakened. -/
theorem Run.Ends.weaken {run : Run α} {weaker : α → Frame → Prop} (h : Run.Ends limit run frame post)
    (weaken : ∀ value later, post value later → weaker value later) : Run.Ends limit run frame weaker := by
  intro machine budget
  have described := h machine budget
  cases ended : run.run ⟨machine, frame, budget⟩ with
  | ok value after =>
    rw [ended] at described
    exact weaken value after.frame described
  | error fault after =>
    rw [ended] at described
    exact described

/-- The variables can always be looked at. -/
theorem Run.Ends.variables : Run.Ends limit Run.frame frame fun current later => current = frame ∧ later = frame :=
  fun _ _ => ⟨rfl, rfl⟩

/-- The variables can always be changed. -/
theorem Run.Ends.onFrame (change : Frame → Frame) :
    Run.Ends limit (Run.onFrame change) frame fun _ later => later = change frame :=
  fun _ _ => rfl

/-- A step of the budget is taken, or the budget is used up. -/
theorem Run.Ends.tick : Run.Ends limit (Run.tick limit) frame fun _ later => later = frame := by
  intro machine budget
  cases budget with
  | zero => exact Fault.Tolerated.stepLimit
  | succ budget => exact rfl

/-- An operation of the machine stops at nothing but the limit of memory. -/
theorem Run.Ends.onMachine {step : MachineStep α} {answers : α → Prop} (stops : step.StopsAtLimit)
    (given : ∀ machine value after, step.run machine = .ok value after → answers value) :
    Run.Ends limit (Run.onMachine step) frame fun value later => answers value ∧ later = frame := by
  intro machine budget
  cases ended : step.run machine with
  | ok value after =>
    have runs : (Run.onMachine step).run ⟨machine, frame, budget⟩ = .ok value ⟨after, frame, budget⟩ := by
      change Run.onMachine step _ = _
      simp only [Run.onMachine, show step machine = .ok value after from ended]
    rw [runs]
    exact ⟨given machine value after ended, rfl⟩
  | error fault after =>
    have fails : (Run.onMachine step).run ⟨machine, frame, budget⟩ = .error fault ⟨after, frame, budget⟩ := by
      change Run.onMachine step _ = _
      simp only [Run.onMachine, show step machine = .error fault after from ended]
    rw [fails]
    obtain ⟨offset, rfl⟩ := stops machine fault after ended
    exact .memoryLimit offset

/-- A visible variable has a value. -/
theorem Run.Ends.lookup {name : String} (visible : (frame.find? name).isSome = true) :
    Run.Ends limit (Run.lookup name) frame fun _ later => later = frame := by
  refine Run.Ends.variables.bind fun current later same => ?_
  obtain ⟨rfl, rfl⟩ := same
  obtain ⟨value, found⟩ := Option.isSome_iff_exists.mp visible
  rw [found]
  exact .pure rfl

/-- Visible variables have one value each. -/
theorem Run.Ends.lookupAll {results : List RoutineParameter}
    (visible : frame.Declares (results.map RoutineParameter.name)) :
    Run.Ends limit (results.mapM fun result => Run.lookup result.name) frame fun values later =>
      values.length = results.length ∧ later = frame := by
  induction results with
  | nil => exact .pure ⟨rfl, rfl⟩
  | cons result rest ih =>
    rw [List.mapM_cons]
    refine (Run.Ends.lookup (visible _ List.mem_cons_self)).bind fun value later same => ?_
    subst same
    refine (ih fun name listed => visible name (List.mem_cons_of_mem _ listed)).bind fun values later given => ?_
    exact .pure ⟨by simp [given.1], given.2⟩

/-- Variables are declared one after the other. -/
theorem Run.Ends.declareAll (entries : List (String × Word)) (frame : Frame) :
    Run.Ends limit (Run.declareAll entries) frame fun _ later => later = frame.declareAll entries := by
  induction entries generalizing frame with
  | nil => exact .pure rfl
  | cons entry rest ih =>
    refine (Run.Ends.onFrame _).bind fun _ later same => ?_
    subst same
    exact ih _

/-- Visible variables can be assigned to. -/
theorem Run.Ends.assignAll {entries : List (String × Word)} (visible : frame.Declares (entries.map Prod.fst)) :
    Run.Ends limit (Run.assignAll entries) frame fun _ later => frame.Grows later := by
  induction entries generalizing frame with
  | nil => exact .pure (.refl _)
  | cons entry rest ih =>
    have assigned : Run.Ends limit (Run.assign entry.1 entry.2) frame fun _ later => frame.Grows later := by
      refine Run.Ends.variables.bind fun current later same => ?_
      obtain ⟨rfl, rfl⟩ := same
      obtain ⟨scopes, done, within⟩ := Frame.exists_assignIn entry.2 (visible _ List.mem_cons_self)
      rw [done]
      refine (Run.Ends.onFrame _).weaken fun _ later same => ?_
      subst same
      exact within
    refine assigned.bind fun _ later grown => ?_
    refine (ih (grown.declares fun name listed => visible name (List.mem_cons_of_mem _ listed))).weaken
      fun _ last grown' => grown.trans grown'

/-- One value is a single value. -/
theorem Run.Ends.singleValue (expr : Expr) {values : List Word} (one : values.length = 1) :
    Run.Ends limit (singleValue expr values) frame fun _ later => later = frame := by
  obtain ⟨value, rfl⟩ := List.length_eq_one_iff.mp one
  exact .pure rfl

/-- As many values as are required are required. -/
theorem Run.Ends.requireValues (expr : Expr) {values : List Word} {count : Nat} (enough : values.length = count) :
    Run.Ends limit (requireValues expr count values) frame fun given later =>
      given.length = count ∧ later = frame := by
  unfold Yul.requireValues
  rw [if_pos enough]
  exact .pure ⟨enough, rfl⟩

end

/-! ### Expressions -/

/-- Instructions that do not revert stop at the limit of memory only and give as many values as they
should. -/
theorem Builtin.apply_safe {operation : Builtin} (harmless : operation ≠ .revert) (args : List Word) :
    (operation.apply args).StopsAtLimit ∧ ∀ machine values after,
      (operation.apply args).run machine = .ok values after → values.length = operation.valueCount := by
  cases operation with
  | revert => exact absurd rfl harmless
  | mload =>
    refine ⟨.bind (.mload _) fun _ => .pure _, fun machine values after ended => ?_⟩
    obtain ⟨word, reached, -, answered⟩ := Step.bind_eq_ok.mp ended
    obtain ⟨rfl, -⟩ := Step.pure_eq_ok.mp answered
    rfl
  | mstore =>
    refine ⟨.bind (.mstore _ _) fun _ => .pure _, fun machine values after ended => ?_⟩
    obtain ⟨_, reached, -, answered⟩ := Step.bind_eq_ok.mp ended
    obtain ⟨rfl, -⟩ := Step.pure_eq_ok.mp answered
    rfl
  | mstore8 =>
    refine ⟨.bind (.mstore8 _ _) fun _ => .pure _, fun machine values after ended => ?_⟩
    obtain ⟨_, reached, -, answered⟩ := Step.bind_eq_ok.mp ended
    obtain ⟨rfl, -⟩ := Step.pure_eq_ok.mp answered
    rfl
  | mcopy =>
    refine ⟨.bind (.mcopy _ _ _) fun _ => .pure _, fun machine values after ended => ?_⟩
    obtain ⟨_, reached, -, answered⟩ := Step.bind_eq_ok.mp ended
    obtain ⟨rfl, -⟩ := Step.pure_eq_ok.mp answered
    rfl
  | calldatacopy =>
    refine ⟨.bind (.calldatacopy _ _ _) fun _ => .pure _, fun machine values after ended => ?_⟩
    obtain ⟨_, reached, -, answered⟩ := Step.bind_eq_ok.mp ended
    obtain ⟨rfl, -⟩ := Step.pure_eq_ok.mp answered
    rfl
  | sstore =>
    refine ⟨.bind (.modify _) fun _ => .pure _, fun machine values after ended => ?_⟩
    obtain ⟨_, reached, -, answered⟩ := Step.bind_eq_ok.mp ended
    obtain ⟨rfl, -⟩ := Step.pure_eq_ok.mp answered
    rfl
  | calldataload | calldatasize | sload =>
    refine ⟨.bind .get fun _ => .pure _, fun machine values after ended => ?_⟩
    obtain ⟨_, reached, -, answered⟩ := Step.bind_eq_ok.mp ended
    obtain ⟨rfl, -⟩ := Step.pure_eq_ok.mp answered
    rfl
  | _ =>
    refine ⟨.pure _, fun machine values after ended => ?_⟩
    obtain ⟨rfl, -⟩ := Step.pure_eq_ok.mp ended
    rfl

section

variable {unit : CodeUnit} {limit : Nat} {caller : Caller} {visible : List String} {frame : Frame}

/-- A revert without data. -/
theorem evalMany_revert_ends (frame : Frame) {post : List Word → Frame → Prop} :
    Run.Ends limit (evalMany unit caller (.builtin .revert [.literal 0#256, .literal 0#256])) frame post := by
  intro machine budget
  have reverts : (evalMany unit caller (.builtin .revert [.literal 0#256, .literal 0#256])).run
      ⟨machine, frame, budget⟩ = .error (.reverted []) ⟨machine, frame, budget⟩ := rfl
  rw [reverts]
  exact .reverted

mutual
/-- A scoped expression gives as many values as it should. -/
theorem evalMany_ends (calls : caller.Safe unit limit) (declared : frame.Declares visible)
    {expr : Expr} {count : Nat} (sound : expr.Scoped unit visible count) :
    Run.Ends limit (evalMany unit caller expr) frame fun values later =>
      values.length = count ∧ later = frame := by
  cases expr with
  | literal value =>
    simp only [evalMany]
    exact .pure ⟨sound.symm, rfl⟩
  | ident name =>
    obtain ⟨listed, rfl⟩ := sound
    simp only [evalMany]
    exact (Run.Ends.lookup (declared name listed)).bind fun value later same => .pure ⟨rfl, same⟩
  | constant name =>
    obtain ⟨⟨value, bound⟩, rfl⟩ := sound
    simp only [evalMany, bound]
    exact .pure ⟨rfl, rfl⟩
  | builtin operation args =>
    obtain ⟨arity, inner, quiet, rfl⟩ := sound
    by_cases reverting : operation = .revert
    · subst reverting
      rw [quiet rfl]
      exact evalMany_revert_ends frame
    · simp only [evalMany, if_pos arity]
      refine (evalArgs_ends calls declared inner).bind fun values later given => ?_
      obtain ⟨-, rfl⟩ := given
      obtain ⟨stops, gives⟩ := Builtin.apply_safe reverting values
      exact Run.Ends.onMachine stops gives
  | call name args =>
    obtain ⟨⟨routine, found, taken, rfl⟩, inner⟩ := sound
    simp only [evalMany]
    refine (evalArgs_ends calls declared inner).bind fun values later given => ?_
    obtain ⟨counted, rfl⟩ := given
    exact calls name routine values later found (taken.trans counted.symm)
/-- Scoped arguments give one value each. -/
theorem evalArgs_ends (calls : caller.Safe unit limit) (declared : frame.Declares visible)
    {args : List Expr} (sound : Expr.ArgsScoped unit visible args) :
    Run.Ends limit (evalArgs unit caller args) frame fun values later =>
      values.length = args.length ∧ later = frame := by
  cases args with
  | nil =>
    simp only [evalArgs]
    exact .pure ⟨rfl, rfl⟩
  | cons arg rest =>
    obtain ⟨first, others⟩ := sound
    simp only [evalArgs]
    refine (evalArgs_ends calls declared others).bind fun values later given => ?_
    obtain ⟨counted, same⟩ := given
    rw [same]
    refine (evalMany_ends calls declared first).bind fun value later given => ?_
    obtain ⟨one, same⟩ := given
    rw [same]
    refine (Run.Ends.singleValue arg one).bind fun word later same => ?_
    exact .pure ⟨by simp [counted], same⟩
end

/-- A scoped expression with one value has it. -/
theorem Expr.Scoped.evalOne_ends (calls : caller.Safe unit limit) (declared : frame.Declares visible)
    {expr : Expr} (sound : expr.Scoped unit visible 1) :
    Run.Ends limit (evalOne unit caller expr) frame fun _ later => later = frame := by
  refine (evalMany_ends calls declared sound).bind fun values later given => ?_
  obtain ⟨one, rfl⟩ := given
  exact .singleValue expr one

/-- A scoped expression has as many values as are required. -/
theorem Expr.Scoped.evalExactly_ends (calls : caller.Safe unit limit) (declared : frame.Declares visible)
    {expr : Expr} {count : Nat} (sound : expr.Scoped unit visible count) :
    Run.Ends limit (evalExactly unit caller expr count) frame fun values later =>
      values.length = count ∧ later = frame := by
  refine (evalMany_ends calls declared sound).bind fun values later given => ?_
  obtain ⟨enough, rfl⟩ := given
  exact .requireValues expr enough

end

/-! ### Statements -/

section

variable {unit : CodeUnit} {limit : Nat} {execute : Stmt → Run Flow} {visible : List String} {frame : Frame}

/-- Scoped statements in a row. -/
theorem SafelyRuns.runAll_ends (safe : SafelyRuns unit limit execute) {block : List Stmt}
    (sound : Block.Scoped unit visible block) (inside : frame.scopes ≠ []) (declared : frame.Declares visible) :
    Run.Ends limit (runAll execute block) frame fun flow later =>
      frame.Grows later ∧ (flow = .normal → later.Declares (Block.declared block)) := by
  induction block generalizing visible frame with
  | nil => exact .pure ⟨.refl _, fun _ => by simp [Frame.Declares]⟩
  | cons stmt rest ih =>
    obtain ⟨first, others⟩ := sound
    refine (safe visible stmt frame first inside declared).bind fun flow later ended => ?_
    obtain ⟨grown, added⟩ := ended
    cases flow with
    | leave => exact .pure ⟨grown, fun left => by cases left⟩
    | normal =>
      have known := (added rfl).append (grown.declares declared)
      refine (ih others (grown.inside inside) known).weaken fun flow last ended => ?_
      obtain ⟨grown', added'⟩ := ended
      exact ⟨grown.trans grown', fun normal => (added' normal).append (grown'.declares (added rfl))⟩

/-- A scoped block leaves the variables around it. -/
theorem SafelyRuns.runBlock_ends (safe : SafelyRuns unit limit execute) {block : Block}
    (sound : Block.Scoped unit visible block) (declared : frame.Declares visible) :
    Run.Ends limit (runBlock execute block) frame fun _ later => frame.Grows later := by
  refine (Run.Ends.onFrame _).bind fun _ opened same => ?_
  have inside : opened.scopes ≠ [] := by simp [same]
  subst same
  refine (safe.runAll_ends sound inside declared.opened).bind fun flow later ended => ?_
  refine (Run.Ends.onFrame _).bind fun _ closed same => ?_
  subst same
  exact .pure ended.1.closed

/-- A scoped loop leaves the variables around its rounds. The induction is on the rounds. -/
theorem SafelyRuns.runRounds_ends (safe : SafelyRuns unit limit execute) {caller : Caller}
    (calls : caller.Safe unit limit) {condition : Expr} {step body : Block}
    (tested : condition.Scoped unit visible 1) (stepped : Block.Scoped unit visible step)
    (repeated : Block.Scoped unit visible body) (declared : frame.Declares visible) (rounds : Nat) :
    Run.Ends limit (runRounds unit limit caller execute condition step body rounds) frame
      fun _ later => frame.Grows later := by
  induction rounds generalizing frame with
  | zero => exact .throw .stepLimit
  | succ rounds ih =>
    refine Run.Ends.tick.bind fun _ later same => ?_
    subst same
    refine (tested.evalOne_ends calls declared).bind fun value later same => ?_
    subst same
    split
    · exact .pure (.refl _)
    · refine (safe.runBlock_ends repeated declared).bind fun flow later grown => ?_
      cases flow with
      | leave => exact .pure grown
      | normal =>
        refine (safe.runBlock_ends stepped (grown.declares declared)).bind fun _ last grown' => ?_
        have both := grown.trans grown'
        exact (ih (both.declares declared)).weaken fun _ _ grown'' => both.trans grown''

/-- The variables that a routine starts with are its results and parameters. -/
theorem Routine.entry_declares {routine : Routine} {args : List Word}
    (taken : routine.params.length = args.length) :
    (routine.entry args).Declares
      (routine.returns.map RoutineParameter.name ++ routine.params.map RoutineParameter.name) := by
  have params : ((routine.params.map RoutineParameter.name).zip args).map Prod.fst =
      routine.params.map RoutineParameter.name := List.map_fst_zip (by simp [taken])
  have results : (routine.returns.map fun result => (result.name, 0#256)).map Prod.fst =
      routine.returns.map RoutineParameter.name := by simp
  unfold Routine.entry
  refine Frame.Declares.append ?_ ?_
  · rw [← results]
    exact Frame.declares_declareAll _ ((Frame.grows_declareAll _ _).inside (by simp))
  · refine (Frame.grows_declareAll _ _).declares ?_
    have entered : ((Frame.mk routine.name [[]]).declareAll
        ((routine.params.map RoutineParameter.name).zip args)).Declares _ :=
      Frame.declares_declareAll _ (by simp)
    rwa [params] at entered

/-- Calls of routines are safe if their statements are. -/
theorem SafelyRuns.callWith_safe (safe : SafelyRuns unit limit execute) (closed : unit.Scoped) :
    (callWith unit execute).Safe unit limit := by
  intro name routine args frame found taken
  have listed : routine ∈ unit.routines := List.mem_of_find?_eq_some found
  have entered := Routine.entry_declares taken
  unfold callWith
  simp only [found, taken, ne_eq, not_true_eq_false, if_false]
  refine Run.Ends.variables.bind fun outer later same => ?_
  obtain ⟨rfl, rfl⟩ := same
  refine (Run.Ends.onFrame _).bind fun _ current same => ?_
  subst same
  refine (Run.Ends.declareAll _ _).bind fun _ current same => ?_
  subst same
  refine (Run.Ends.declareAll _ _).bind fun _ current same => ?_
  subst same
  change Run.Ends limit _ (routine.entry args) _
  refine (safe.runBlock_ends (closed routine listed) entered).bind fun _ later grown => ?_
  have results : later.Declares (routine.returns.map RoutineParameter.name) :=
    fun name listed => grown.declares entered name (List.mem_append_left _ listed)
  refine (Run.Ends.lookupAll results).bind fun values later given => ?_
  refine (Run.Ends.onFrame _).bind fun _ last same => ?_
  exact .pure ⟨given.1, same⟩

/-- Statements run safely if those nested in them do. -/
theorem SafelyRuns.runStmt_safe (safe : SafelyRuns unit limit execute) (closed : unit.Scoped) (rounds : Nat) :
    SafelyRuns unit limit (runStmt unit limit execute rounds) := by
  intro visible stmt frame sound inside declared
  have calls := safe.callWith_safe closed
  refine Run.Ends.tick.bind fun _ later same => ?_
  rw [same]
  cases stmt with
  | declare names value =>
    cases value with
    | none =>
      refine (Run.Ends.declareAll _ _).bind fun _ later same => ?_
      subst same
      refine .pure ⟨Frame.grows_declareAll _ _, fun _ => ?_⟩
      have added := Frame.declares_declareAll (names.map fun name => (name, 0#256)) inside
      rwa [List.map_map, show Prod.fst ∘ (fun name : String => (name, 0#256)) = id from rfl, List.map_id]
        at added
    | some value =>
      refine (Expr.Scoped.evalExactly_ends calls declared sound).bind fun values later given => ?_
      obtain ⟨counted, rfl⟩ := given
      refine (Run.Ends.declareAll _ _).bind fun _ later same => ?_
      subst same
      refine .pure ⟨Frame.grows_declareAll _ _, fun _ => ?_⟩
      have added := Frame.declares_declareAll (names.zip values) inside
      rwa [List.map_fst_zip (by omega)] at added
  | assign names value =>
    obtain ⟨inner, listed⟩ := sound
    refine (inner.evalExactly_ends calls declared).bind fun values later given => ?_
    obtain ⟨counted, rfl⟩ := given
    have visible : later.Declares ((names.zip values).map Prod.fst) := by
      rw [List.map_fst_zip (by omega)]
      exact fun name member => declared name (listed name member)
    refine (Run.Ends.assignAll visible).bind fun _ last grown => ?_
    exact .pure ⟨grown, fun _ => by simp [Frame.Declares, Stmt.declared]⟩
  | eval expr =>
    obtain ⟨count, inner⟩ := sound
    refine (evalMany_ends calls declared inner).bind fun values later given => ?_
    obtain ⟨-, rfl⟩ := given
    exact .pure ⟨.refl _, fun _ => by simp [Frame.Declares]⟩
  | branch condition body =>
    obtain ⟨tested, inner⟩ := sound
    refine (tested.evalOne_ends calls declared).bind fun value later same => ?_
    subst same
    split
    · exact .pure ⟨.refl _, fun _ => by simp [Frame.Declares]⟩
    · exact (safe.runBlock_ends inner declared).weaken fun flow later grown =>
        ⟨grown, fun _ => by simp [Frame.Declares]⟩
  | loop start condition step body =>
    obtain ⟨begun, tested, stepped, repeated⟩ := sound
    refine (Run.Ends.onFrame _).bind fun _ opened same => ?_
    have inside' : opened.scopes ≠ [] := by simp [same]
    subst same
    have started := safe.runAll_ends begun inside' declared.opened
    refine started.bind fun flow later ended => ?_
    obtain ⟨grown, added⟩ := ended
    have closes : ∀ (ended : Flow) last, later.Grows last → Run.Ends limit (do
        Run.closeScope
        return ended) last fun flow closed => frame.Grows closed ∧
          (flow = .normal → closed.Declares (Stmt.loop start condition step body).declared) := by
      intro ended last grown'
      refine (Run.Ends.onFrame _).bind fun _ closed same => ?_
      subst same
      exact .pure ⟨(grown.trans grown').closed, fun _ => by simp [Frame.Declares, Stmt.declared]⟩
    cases flow with
    | leave => exact closes .leave later (.refl _)
    | normal =>
      have known := (added rfl).append (grown.declares declared.opened)
      exact (safe.runRounds_ends calls tested stepped repeated known rounds).bind closes
  | leave => exact .pure ⟨.refl _, fun _ => by simp [Frame.Declares, Stmt.declared]⟩

end

end Yul

section

open Yul

variable {unit : CodeUnit} {limit : Nat}

/-- In a scoped unit statements run safely, however deep they may be nested. The induction is on the
depth. -/
theorem CodeUnit.Scoped.execute_safe (closed : unit.Scoped) (depth : Nat) :
    SafelyRuns unit limit (execute unit limit depth) := by
  induction depth with
  | zero => exact fun _ _ _ _ _ _ => .throw .stepLimit
  | succ depth ih => exact ih.runStmt_safe closed depth

/-- A call in a scoped unit with as many arguments as the routine has parameters gives as many values
as the routine has results, or ends in a fault that is tolerated. -/
theorem CodeUnit.Scoped.call_ends (closed : unit.Scoped) {name : String} {routine : Routine}
    (found : unit.routine? name = some routine) {args : List Word}
    (taken : routine.params.length = args.length) (limit : Nat) (machine : Machine) :
    match (unit.call limit name args).run machine with
    | .ok values _ => values.length = routine.returns.length
    | .error fault _ => fault.Tolerated limit := by
  have safe : SafelyRuns unit limit (execute unit limit limit) := closed.execute_safe limit
  have ended := safe.callWith_safe closed name routine args ⟨name, []⟩ found taken machine limit
  change match unit.call limit name args machine with
    | .ok values _ => values.length = routine.returns.length
    | .error fault _ => fault.Tolerated limit
  unfold CodeUnit.call
  split at ended
  · rename_i values after same
    rw [show callWith unit (execute unit limit limit) name args ⟨machine, ⟨name, []⟩, limit⟩ = _ from same]
    exact ended.1
  · rename_i fault after same
    rw [show callWith unit (execute unit limit limit) name args ⟨machine, ⟨name, []⟩, limit⟩ = _ from same]
    exact ended

end

end YulAbi
