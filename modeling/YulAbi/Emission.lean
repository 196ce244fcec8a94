import YulAbi.CodeUnit
import YulAbi.OwnerNames
import YulAbi.Settings
import YulAbi.Yul.Build

/-!
# Emitting code

A run of the generator adds routines and constants to a code unit, gives names to
shapes and remembers which routine serves which request. A request that fails keeps
what it had already done.
-/

namespace YulAbi

/-- What a generated routine is for. -/
inductive Operation where
  /-- Reads a value from call data into memory. -/
  | decode
  /-- Writes a value from memory as call data. -/
  | encode
  /-- Reads a parameter list from call data. -/
  | decodeParameters
  /-- Writes a parameter list as call data. -/
  | encodeParameters
  /-- Writes an error. -/
  | encodeError
  deriving DecidableEq, Repr

/-- What the names of routines for an operation start with. -/
def Operation.stem : Operation → String
  | .decode => "abi_decode_"
  | .encode => "abi_encode_"
  | .decodeParameters => "abi_decode_params_"
  | .encodeParameters => "abi_encode_params_"
  | .encodeError => "abi_encode_error_"

/-- What a run of the generator has done so far. -/
structure Workspace where
  /-- Emitted code. -/
  unit : CodeUnit
  /-- Names of shapes. -/
  owners : OwnerNames
  /-- Requests and the names of the routines that serve them, the latest first. -/
  requests : List ((Operation × Shape) × String)

/-- A run that starts with a given unit. -/
def Workspace.start (unit : CodeUnit) : Workspace := ⟨unit, .empty, []⟩

/-- A step of a run, which may fail and keeps what it did. -/
abbrev Emission (α : Type) := ExceptT GenerationError (StateM Workspace) α

namespace Emission

/-- Runs a step. -/
def runOn {α : Type} (emission : Emission α) (workspace : Workspace) : Generated α × Workspace :=
  emission.run.run workspace

/-- Adds a routine and answers with its name. -/
def addRoutine (routine : Yul.Routine) : Emission String := do
  let workspace ← get
  let unit ← workspace.unit.addRoutine routine
  set (⟨unit, workspace.owners, workspace.requests⟩ : Workspace)
  return routine.name

/-- Adds a constant and answers with a reference to it. -/
def addConstant (name : String) (value : Word) : Emission Yul.Expr := do
  let workspace ← get
  let unit ← workspace.unit.addConstant name value
  set (⟨unit, workspace.owners, workspace.requests⟩ : Workspace)
  return .constant name

/-- The owner name of a shape. -/
def owner (shape : Shape) : Emission String := do
  let workspace ← get
  let (name, owners) := workspace.owners.owner shape
  set (⟨workspace.unit, owners, workspace.requests⟩ : Workspace)
  return name

/-- The name of the routine that serves a request. A new request gets a fresh name, which stays
with it even if generating the routine fails; nested requests see it already. -/
def routineFor (operation : Operation) (shape : Shape) (generate : String → Emission Yul.Routine) :
    Emission String := do
  match (← get).requests.find? fun entry => entry.1 == (operation, shape) with
  | some (_, name) => return name
  | none =>
    let ownerName ← owner shape
    let workspace ← get
    let name := FreshName.choose (workspace.requests.map Prod.snd) (operation.stem ++ ownerName)
    set (⟨workspace.unit, workspace.owners, ((operation, shape), name) :: workspace.requests⟩ : Workspace)
    addRoutine (← generate name)

end Emission

end YulAbi
