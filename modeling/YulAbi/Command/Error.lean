import YulAbi.Interface.TypeString
import YulAbi.Keccak
import YulAbi.Machine.Fault
import YulAbi.Settings

/-!
# Why a command fails

Each cause has a chain of messages, from what the command was doing to what went
wrong. A chain ends early where only a reader or the system could say more.
-/

namespace YulAbi

/-- Why a command fails. -/
inductive CommandError where
  /-- A file cannot be read. -/
  | unreadableFile (path : String)
  /-- A file holds no settings, or settings that are refused. -/
  | invalidSettings (path : String) (cause : SettingsError)
  /-- A file holds no contract interface. -/
  | invalidInterface (path : String)
  /-- A file holds no type definitions. -/
  | invalidTypeFile (path : String)
  /-- A type string of an item cannot be read. -/
  | unreadableItem (name : String) (cause : Interface.TypeStringError)
  /-- The type of an item is malformed. -/
  | invalidItem (name : String) (cause : GenerationError)
  /-- No item has that name. -/
  | noSuchItem (name : String)
  /-- Nothing can be generated for an item. -/
  | notGenerated (typeName : String) (cause : GenerationError)
  /-- No type has that name. -/
  | noSuchType (name path : String)
  /-- A type is malformed. -/
  | invalidType (name : String) (cause : GenerationError)
  /-- A type cannot be packed. -/
  | notPacked (name : String) (cause : GenerationError)
  /-- Code cannot be emitted. -/
  | generation (cause : GenerationError)
  /-- The item is not a function. -/
  | notAFunction (name : String)
  /-- Call data is no hexadecimal text. -/
  | malformedCalldata
  /-- Call data is for another function. -/
  | wrongSelector (signature : String)
  /-- Running a routine fails. -/
  | failedRun (routine : String) (fault : Fault)
  /-- A result cannot be read from memory. -/
  | unreadableResult (fault : Fault)

/-- The messages of a cause, the outermost first. -/
def CommandError.chain : CommandError → List String
  | .unreadableFile path => ["failed to read " ++ path]
  | .invalidSettings path cause => ("invalid config " ++ path) :: cause.message?.toList
  | .invalidInterface path => ["invalid JSON ABI " ++ path]
  | .invalidTypeFile path => ["invalid type file " ++ path]
  | .unreadableItem name cause => ["cannot read ABI item " ++ name, cause.message]
  | .invalidItem name cause => ["invalid ABI item " ++ name, cause.message]
  | .noSuchItem name => [s!"no function, error or event named '{name}' in the ABI"]
  | .notGenerated typeName cause => ["cannot generate for " ++ typeName, cause.message]
  | .noSuchType name path => [s!"no type named '{name}' in {path}"]
  | .invalidType name cause => [s!"invalid type '{name}'", cause.message]
  | .notPacked name cause => [s!"cannot pack '{name}'", cause.message]
  | .generation cause => [cause.message]
  | .notAFunction name => [s!"'{name}' is not a function"]
  | .malformedCalldata => ["call data is not valid hex"]
  | .wrongSelector signature =>
    [s!"call data does not start with the selector of {signature} (" ++
      Hex.ofBytes (Keccak.selectorBytes signature) ++ ")"]
  | .failedRun routine fault => [routine ++ " failed", fault.message]
  | .unreadableResult fault => [fault.message]

end YulAbi
