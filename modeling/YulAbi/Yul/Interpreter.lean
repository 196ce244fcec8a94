import YulAbi.CodeUnit
import YulAbi.Machine

/-!
# Running code

Routines of a unit are run on a machine. Arguments are evaluated from right to
left, a block has a scope of its own, and a call starts with fresh variables. Every
statement and every round of a loop takes one step of a budget, so every run ends.
What was done before a fault stays done.
-/

namespace YulAbi.Yul

/-- The variables of one block, the latest first. -/
abbrev Scope := List (String × Word)

/-- The variables of one call of a routine. -/
structure Frame where
  /-- Name of the routine. -/
  routine : String
  /-- Scopes, the innermost first. -/
  scopes : List Scope

/-- What changes while code runs. -/
structure RunState where
  /-- The machine. -/
  machine : Machine
  /-- Variables. -/
  frame : Frame
  /-- Steps that may still be taken. -/
  budget : Nat

/-- A step of a run. -/
abbrev Run (α : Type) := EStateM Fault RunState α

/-- Whether the routine goes on. -/
inductive Flow where
  /-- It goes on. -/
  | normal
  /-- It has ended. -/
  | leave
  deriving DecidableEq, Repr

namespace Scope

/-- The scope with a variable that has a value. -/
def declare (scope : Scope) (name : String) (value : Word) : Scope :=
  (name, value) :: scope.filter fun entry => entry.1 != name

/-- The value of a variable. -/
def find? (scope : Scope) (name : String) : Option Word :=
  (List.find? (fun entry => entry.1 == name) scope).map Prod.snd

/-- The scope after an assignment, if it has the variable. -/
def assign? (scope : Scope) (name : String) (value : Word) : Option Scope :=
  if (scope.find? name).isSome then some (scope.declare name value) else none

end Scope

namespace Frame

/-- Declares a variable in the innermost scope. -/
def declare (frame : Frame) (name : String) (value : Word) : Frame :=
  match frame.scopes with
  | [] => frame
  | scope :: rest => ⟨frame.routine, scope.declare name value :: rest⟩

/-- The value of a variable in the innermost scope that has it. -/
def find? (frame : Frame) (name : String) : Option Word :=
  frame.scopes.findSome? fun scope => scope.find? name

/-- Assigns to a variable in the innermost scope that has it. -/
def assignIn (name : String) (value : Word) : List Scope → Option (List Scope)
  | [] => none
  | scope :: rest =>
    match scope.assign? name value with
    | some assigned => some (assigned :: rest)
    | none => (assignIn name value rest).map (scope :: ·)

end Frame

namespace Run

/-- Runs an operation of the machine. -/
def onMachine {α : Type} (step : MachineStep α) : Run α := fun state =>
  match state with
  | ⟨machine, frame, budget⟩ =>
    match step machine with
    | .ok answer next => .ok answer ⟨next, frame, budget⟩
    | .error fault next => .error fault ⟨next, frame, budget⟩

/-- Changes the variables. -/
def onFrame (change : Frame → Frame) : Run Unit := fun state =>
  match state with
  | ⟨machine, frame, budget⟩ => .ok () ⟨machine, change frame, budget⟩

/-- Takes one step of the budget. -/
def tick (limit : Nat) : Run Unit := fun state =>
  match state with
  | ⟨machine, frame, 0⟩ => .error (.stepLimit limit) ⟨machine, frame, 0⟩
  | ⟨machine, frame, budget + 1⟩ => .ok () ⟨machine, frame, budget⟩

/-- Opens a scope. -/
def openScope : Run Unit := onFrame fun frame => ⟨frame.routine, [] :: frame.scopes⟩

/-- Closes the innermost scope. -/
def closeScope : Run Unit := onFrame fun frame => ⟨frame.routine, frame.scopes.drop 1⟩

/-- The variables. -/
def frame : Run Frame := fun state => .ok state.frame state

/-- The value of a variable. -/
def lookup (name : String) : Run Word := do
  let frame ← frame
  match frame.find? name with
  | some value => return value
  | none => throw (.undefinedVariable frame.routine name)

/-- Declares a variable. -/
def declare (name : String) (value : Word) : Run Unit := onFrame fun frame => frame.declare name value

/-- Declares several variables. -/
def declareAll : List (String × Word) → Run Unit
  | [] => return ()
  | (name, value) :: rest => do
    declare name value
    declareAll rest

/-- Assigns to a variable. -/
def assign (name : String) (value : Word) : Run Unit := do
  let current ← frame
  match Frame.assignIn name value current.scopes with
  | some scopes => onFrame fun frame => ⟨frame.routine, scopes⟩
  | none => throw (.undefinedVariable current.routine name)

/-- Assigns to several variables. -/
def assignAll : List (String × Word) → Run Unit
  | [] => return ()
  | (name, value) :: rest => do
    assign name value
    assignAll rest

end Run

namespace Builtin

/-- Ends the run and hands out memory. -/
def revertWith (address length : Word) : MachineStep Unit := do
  let size ← Machine.check (Machine.checkedOffset length)
  if size = 0 then throw (.reverted [])
  let offset ← Machine.check (Machine.checkedOffset address)
  throw (.reverted (Memory.slice (← get).memory offset size).data.toList)

/-- Runs an instruction; operands beyond its arity are not looked at. -/
def apply (operation : Builtin) (args : List Word) : MachineStep (List Word) := do
  let first := args[0]?.getD 0#256
  let second := args[1]?.getD 0#256
  let third := args[2]?.getD 0#256
  match operation with
  | .add => return [first + second]
  | .sub => return [first - second]
  | .mul => return [first * second]
  | .div => return [first / second]
  | .shl => return [Word.shiftLeft first second]
  | .shr => return [Word.shiftRight first second]
  | .and => return [first &&& second]
  | .or => return [first ||| second]
  | .xor => return [first ^^^ second]
  | .not => return [~~~first]
  | .lt => return [Word.ofBool (first < second)]
  | .gt => return [Word.ofBool (second < first)]
  | .eq => return [Word.ofBool (first == second)]
  | .iszero => return [Word.ofBool (first == 0#256)]
  | .byte => return [Word.selectByte first second]
  | .signextend => return [Word.signExtend first second]
  | .mload => return [← Machine.mload first]
  | .calldataload => return [(← get).calldataWord first]
  | .calldatasize => return [Word.ofNat (← get).calldata.size]
  | .sload => return [(← get).sload first]
  | .mstore => do Machine.mstore first second; return []
  | .mstore8 => do Machine.mstore8 first second; return []
  | .mcopy => do Machine.mcopy first second third; return []
  | .calldatacopy => do Machine.calldatacopy first second third; return []
  | .sstore => do Machine.sstore first second; return []
  | .pop => return []
  | .revert => do revertWith first second; return []

end Builtin

/-- A way to call a routine by its name. -/
abbrev Caller := String → List Word → Run (List Word)

/-- Requires a number of values of an expression. -/
def requireValues (expr : Expr) (expected : Nat) (values : List Word) : Run (List Word) :=
  if values.length = expected then return values
  else throw (.arityMismatch expr.render expected values.length)

/-- The single value of an expression. -/
def singleValue (expr : Expr) (values : List Word) : Run Word :=
  match values with
  | [value] => return value
  | _ => throw (.arityMismatch expr.render 1 values.length)

mutual
/-- Evaluates an expression, which may give any number of values. -/
def evalMany (unit : CodeUnit) (caller : Caller) : Expr → Run (List Word)
  | .literal value => return [value]
  | .ident name => do return [← Run.lookup name]
  | .constant name =>
    match unit.constant? name with
    | some value => return [value]
    | none => throw (.unknownConstant name)
  | .builtin operation args =>
    if args.length = operation.arity then do
      let values ← evalArgs unit caller args
      Run.onMachine (operation.apply values)
    else throw (.arityMismatch operation.name operation.arity args.length)
  | .call name args => do
    let values ← evalArgs unit caller args
    caller name values
/-- Evaluates arguments from right to left, each to a single value. -/
def evalArgs (unit : CodeUnit) (caller : Caller) : List Expr → Run (List Word)
  | [] => return []
  | arg :: rest => do
    let others ← evalArgs unit caller rest
    let values ← evalMany unit caller arg
    return (← singleValue arg values) :: others
end

/-- Evaluates an expression to a single value. -/
def evalOne (unit : CodeUnit) (caller : Caller) (expr : Expr) : Run Word := do
  singleValue expr (← evalMany unit caller expr)

/-- Evaluates an expression to a number of values. -/
def evalExactly (unit : CodeUnit) (caller : Caller) (expr : Expr) (count : Nat) : Run (List Word) := do
  requireValues expr count (← evalMany unit caller expr)

/-- Runs statements one after the other until one ends the routine. -/
def runAll (execute : Stmt → Run Flow) : List Stmt → Run Flow
  | [] => return .normal
  | stmt :: rest => do
    match ← execute stmt with
    | .leave => return .leave
    | .normal => runAll execute rest

/-- Runs a block in a scope of its own. -/
def runBlock (execute : Stmt → Run Flow) (block : Block) : Run Flow := do
  Run.openScope
  let flow ← runAll execute block
  Run.closeScope
  return flow

/-- Runs the rounds of a loop, each of which takes one step. A step that ends the routine ends only
itself. -/
def runRounds (unit : CodeUnit) (limit : Nat) (caller : Caller) (execute : Stmt → Run Flow)
    (condition : Expr) (step body : Block) : (rounds : Nat) → Run Flow
  | 0 => throw (.stepLimit limit)
  | rounds + 1 => do
    Run.tick limit
    let value ← evalOne unit caller condition
    if value = 0#256 then return .normal
    match ← runBlock execute body with
    | .leave => return .leave
    | .normal =>
      let _ ← runBlock execute step
      runRounds unit limit caller execute condition step body rounds

/-- Calls a routine with fresh variables, given how its statements are run. -/
def callWith (unit : CodeUnit) (execute : Stmt → Run Flow) : Caller := fun name args => do
  match unit.routine? name with
  | none => throw (.unknownRoutine name)
  | some routine =>
    if routine.params.length ≠ args.length then
      throw (.arityMismatch name routine.params.length args.length)
    let outer ← Run.frame
    Run.onFrame fun _ => ⟨routine.name, [[]]⟩
    Run.declareAll ((routine.params.map RoutineParameter.name).zip args)
    Run.declareAll (routine.returns.map fun result => (result.name, 0#256))
    let _ ← runBlock execute routine.body
    let results ← routine.returns.mapM fun result => Run.lookup result.name
    Run.onFrame fun _ => outer
    return results

/-- Runs a statement, given how nested statements are run and how many rounds a loop may take. -/
def runStmt (unit : CodeUnit) (limit : Nat) (execute : Stmt → Run Flow) (rounds : Nat)
    (stmt : Stmt) : Run Flow := do
  Run.tick limit
  let caller := callWith unit execute
  match stmt with
  | .declare names none =>
    Run.declareAll (names.map fun name => (name, 0#256))
    return .normal
  | .declare names (some value) =>
    let values ← evalExactly unit caller value names.length
    Run.declareAll (names.zip values)
    return .normal
  | .assign names value =>
    let values ← evalExactly unit caller value names.length
    Run.assignAll (names.zip values)
    return .normal
  | .eval expr =>
    let _ ← evalMany unit caller expr
    return .normal
  | .branch condition body =>
    let value ← evalOne unit caller condition
    if value = 0#256 then return .normal else runBlock execute body
  | .loop start condition step body =>
    Run.openScope
    let flow ← match ← runAll execute start with
      | .leave => pure Flow.leave
      | .normal => runRounds unit limit caller execute condition step body rounds
    Run.closeScope
    return flow
  | .leave => return .leave

/-- Runs a statement with statements nested at most `depth` deep. As each of them takes a step, the
depth of a run with a budget never exceeds the budget. -/
def execute (unit : CodeUnit) (limit : Nat) : (depth : Nat) → Stmt → Run Flow
  | 0, _ => throw (.stepLimit limit)
  | depth + 1, stmt => runStmt unit limit (execute unit limit depth) depth stmt

/-- The budget of a call when none is chosen. -/
def standardStepLimit : Nat := 1000000

end YulAbi.Yul

namespace YulAbi.CodeUnit

open Yul

/-- Calls a routine of the unit on a machine with a budget of steps. -/
def call (unit : CodeUnit) (limit : Nat) (name : String) (args : List Word) :
    MachineStep (List Word) := fun machine =>
  match callWith unit (execute unit limit limit) name args ⟨machine, ⟨name, []⟩, limit⟩ with
  | .ok results state => .ok results state.machine
  | .error fault state => .error fault state.machine

end YulAbi.CodeUnit
