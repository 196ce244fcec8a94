import YulAbi.Command.Error
import YulAbi.Document.Json
import YulAbi.Text.Hex

/-!
# Outcomes

A report tells the result of a request as a document. A request without a result
has a code for the cause, mostly with a message; inside a report such an error takes
the place of the value that is missing.
-/

namespace YulAbi

/-- The code of a failed generation. -/
def GenerationError.code : GenerationError → String
  | .undefinedSize .. => "UndefinedSize"
  | .invalidType _ => "InvalidType"
  | .unknownMember .. => "UnknownMember"
  | .notAMember .. => "NotAMember"
  | .segmentMismatch .. => "SegmentMismatch"
  | .unsupportedShape .. => "UnsupportedShape"
  | .unsupportedPacking .. => "UnsupportedPacking"
  | .invalidLayout _ => "PackingInvariant"
  | .constantConflict .. => "ConstantConflict"
  | .routineConflict _ => "RoutineConflict"
  | .incompatibleCast .. => "IncompatibleCast"
  | .invalidField .. => "InvalidField"

/-- The code of a fault. -/
def Fault.code : Fault → String
  | .generation cause => cause.code
  | .reverted _ => "Revert"
  | .unknownRoutine _ => "UnknownRoutine"
  | .unknownConstant _ => "UnknownConstant"
  | .undefinedVariable .. => "UndefinedVariable"
  | .arityMismatch .. => "ArityMismatch"
  | .stepLimit _ => "StepLimit"
  | .memoryLimit _ => "MemoryLimit"
  | .shapeMismatch .. => "ShapeMismatch"

/-- The code of a refused type string. -/
def Interface.TypeStringError.code : Interface.TypeStringError → String
  | .invalidInteger _ => "InvalidInteger"
  | .invalidFixedBytes _ => "InvalidFixedBytes"
  | .invalidArraySuffix _ => "InvalidArraySuffix"
  | .missingComponents _ => "MissingComponents"
  | .unknownType _ => "UnknownType"

/-- Why a request has no result. -/
inductive Failure where
  /-- A generation failed. -/
  | generation (cause : GenerationError)
  /-- A run failed. -/
  | fault (cause : Fault)
  /-- A type string was refused. -/
  | typeString (cause : Interface.TypeStringError)
  /-- Settings were refused. -/
  | settings (cause : SettingsError)
  /-- A document does not read as what it should be. -/
  | document
  /-- A command failed. -/
  | command (cause : CommandError)
  /-- The request itself is malformed. -/
  | request (reason : String)

/-- A result or the reason why there is none. -/
abbrev Outcome (α : Type) := Except Failure α

/-- The result of a generation. -/
def Outcome.ofGenerated {α : Type} (result : Generated α) : Outcome α := result.mapError .generation

/-- The result of a run. -/
def Outcome.ofRun {α : Type} (result : Except Fault α) : Outcome α := result.mapError .fault

namespace Report

/-- The fields of an error. -/
def errorFields (code : String) (message? : Option String) : List (String × Document) :=
  ("error", .text code) :: (message?.map fun message => ("message", Document.text message)).toList

/-- The fields that tell why there is no result. -/
def failureFields : Failure → List (String × Document)
  | .generation cause => errorFields cause.code (some cause.message)
  | .fault cause =>
    errorFields cause.code (some cause.message) ++
      match cause with
      | .reverted output => [("data", .text (Hex.ofBytes output))]
      | _ => []
  | .typeString cause => errorFields cause.code (some cause.message)
  | .settings cause => errorFields "Config" cause.message?
  | .document => errorFields "Document" none
  | .command cause => [("error", .text "Cli"), ("chain", .array (cause.chain.map .text))]
  | .request reason => errorFields "BadInput" (some reason)

/-- The fields of a result or of the reason why there is none. -/
def outcomeFields : Outcome Document → List (String × Document)
  | .ok value => [("ok", value)]
  | .error failure => failureFields failure

/-- A result or the reason why there is none. -/
def outcome (result : Outcome Document) : Document := .record (outcomeFields result)

/-- A value, or the error in its place. -/
def inPlace : Outcome Document → Document
  | .ok value => value
  | .error failure => .record (failureFields failure)

/-- A number. -/
def number (value : Nat) : Document := .natural value

/-- Numbers. -/
def numbers (values : List Nat) : Document := .array (values.map number)

/-- A word. -/
def word (value : Word) : Document := .text (Hex.ofWord value)

/-- Words. -/
def words (values : List Word) : Document := .array (values.map word)

/-- Texts. -/
def texts (values : List String) : Document := .array (values.map .text)

/-- Bytes. -/
def bytes (content : List UInt8) : Document := .text (Hex.ofBytes content)

/-- A value that may be missing. -/
def optional {α : Type} (write : α → Document) : Option α → Document
  | none => .null
  | some value => write value

/-- Names with words. -/
def constants (entries : List (String × Word)) : Document :=
  .array (entries.map fun entry => .array [.text entry.1, word entry.2])

/-- A value that may not exist. -/
def query {α : Type} (write : α → Document) (result : Generated α) : Document :=
  inPlace ((Outcome.ofGenerated result).map write)

/-- A value that a run may fail to give. -/
def runQuery {α : Type} (write : α → Document) (result : Except Fault α) : Document :=
  inPlace ((Outcome.ofRun result).map write)

end Report

end YulAbi
