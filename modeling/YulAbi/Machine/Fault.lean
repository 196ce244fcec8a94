import YulAbi.GenerationError

/-!
# Faults

Why running a routine, or laying out a value, ends without a result.
-/

namespace YulAbi

/-- The number of bytes that memory may have. -/
def memoryLimit : Nat := 0x1000000

/-- How a value fails to fit its type. -/
inductive ValueFlaw where
  /-- A value type takes a word. -/
  | notAWord (kind : String)
  /-- An array of a fixed length takes that many elements. -/
  | elementCount (expected got : Nat)
  /-- A struct or tuple takes one value for each member. -/
  | memberCount (expected got : Nat)
  /-- The type holds no values of that kind. -/
  | wrongKind (kind : String)
  /-- The type has no values in memory. -/
  | notInMemory
  deriving DecidableEq, Repr

/-- The wording of a flaw. -/
def ValueFlaw.text : ValueFlaw → String
  | .notAWord kind => s!"value types take a word, got {kind}"
  | .elementCount expected got => s!"expected {expected} elements, got {got}"
  | .memberCount expected got => s!"expected {expected} members, got {got}"
  | .wrongKind kind => s!"cannot hold a {kind} value"
  | .notInMemory => "has no memory representation"

/-- Why there is no result. -/
inductive Fault where
  /-- A size that is needed does not exist. -/
  | generation (cause : GenerationError)
  /-- The routine reverted. -/
  | reverted (output : List UInt8)
  /-- No routine has that name. -/
  | unknownRoutine (name : String)
  /-- No constant has that name. -/
  | unknownConstant (name : String)
  /-- No variable of that name is in scope. -/
  | undefinedVariable (routine name : String)
  /-- Another number of values is needed. -/
  | arityMismatch (context : String) (expected got : Nat)
  /-- The budget of steps is used up. -/
  | stepLimit (limit : Nat)
  /-- Memory is accessed beyond its limit. -/
  | memoryLimit (offset : Nat)
  /-- A value does not fit its type. -/
  | shapeMismatch (typeName : String) (flaw : ValueFlaw)
  deriving DecidableEq

/-- The wording of a fault. -/
def Fault.message : Fault → String
  | .generation cause => "generation failed: " ++ cause.message
  | .reverted output => s!"execution reverted with {output.length} bytes of data"
  | .unknownRoutine name => s!"routine '{name}' is not in the unit"
  | .unknownConstant name => s!"constant '{name}' is not in the unit"
  | .undefinedVariable routine name => s!"variable '{name}' is not in scope in '{routine}'"
  | .arityMismatch context expected got => s!"'{context}' expected {expected} values, got {got}"
  | .stepLimit limit => s!"step budget of {limit} exhausted"
  | .memoryLimit offset =>
    "access at " ++ Hex.ofNat offset ++ s!" exceeds the {YulAbi.memoryLimit}-byte memory limit"
  | .shapeMismatch typeName flaw => s!"value does not match type '{typeName}': " ++ flaw.text

end YulAbi
