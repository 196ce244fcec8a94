import YulAbi.Codec.ParameterList

/-!
# Solidity types of decoders

A decoder is seen from Solidity as an internal function on words that returns values
in memory. A cast is a function that reinterprets a pointer to one such function as
a pointer to another one with as many words in and out.
-/

namespace YulAbi

/-- How a routine looks from Solidity. -/
structure RoutineSignature where
  /-- Name of the routine. -/
  name : String
  /-- Types of the parameters. -/
  params : List String
  /-- Types of the return values. -/
  returns : List String
  /-- Mutability. -/
  mutability : Mutability
  deriving DecidableEq, Repr

namespace RoutineSignature

/-- The type of a pointer to the routine. -/
def functionType (signature : RoutineSignature) : String :=
  let returns := if signature.returns.isEmpty then ""
    else " returns (" ++ ", ".intercalate signature.returns ++ ")"
  "function(" ++ ", ".intercalate signature.params ++ ") internal" ++
    signature.mutability.headerSuffix ++ returns

/-- Whether two routines take and return as many words. -/
def sameConvention (left right : RoutineSignature) : Bool :=
  left.params.length == right.params.length && left.returns.length == right.returns.length

end RoutineSignature

/-- A type with its data location, if it has one, as Solidity writes it. -/
def withLocation (shape : Shape) (typeName : String) : String :=
  match shape with
  | .bytes | .string | .array .. | .struct .. => typeName ++ " memory"
  | _ => typeName

namespace SolType

mutual
/-- The Solidity name of a type; tuples have none and errors and events are no types. -/
def solidityName : SolType → Generated String
  | .enumeration name _ => .ok name
  | .userDefined name _ => .ok name
  | .struct name _ => .ok name
  | .array base length => do
    let element ← base.solidityName
    return element ++ Shape.arraySuffix length
  | .tuple _ => .ok "MemoryPointer"
  | .function _ parameters returns mutability => do
    let returnNames := ", ".intercalate (← locatedNames returns)
    let parameterNames := ", ".intercalate (← locatedNames parameters)
    let returnPart := if returnNames.isEmpty then "" else " returns (" ++ returnNames ++ ")"
    return "function(" ++ parameterNames ++ ") external" ++ mutability.headerSuffix ++ returnPart
  | .error name parameters =>
    .error (.unsupportedShape (SolType.error name parameters).shape.identifier .sourceType)
  | .event name parameters topicFree indexed anonymous =>
    .error (.unsupportedShape (SolType.event name parameters topicFree indexed anonymous).shape.identifier
      .sourceType)
  | type => .ok type.shape.abiType
/-- The Solidity names of several parts with their data locations. -/
def locatedNames : List (Labelled SolType) → Generated (List String)
  | [] => .ok []
  | part :: rest => do
    let name ← part.type.solidityName
    return withLocation part.type.shape name :: (← locatedNames rest)
end

/-- The Solidity type of a value in memory, with its data location. -/
def memoryType (type : SolType) : Generated String := do
  return withLocation type.shape (← type.solidityName)

end SolType

namespace Codec

open Yul (Routine)

/-- How the decoder of a type looks from Solidity; it is generated if it is not there yet. -/
def decoderSignature (settings : Settings) (type : SolType) : Emission RoutineSignature := do
  match ← decode settings type with
  | .routine name => return ⟨name, ["uint256"], [← type.memoryType], .pure⟩
  | .inline => unsupported type.shape .decoderSignature

/-- How the decoder of a parameter list looks from Solidity; it is generated if it is not there yet. -/
def parameterDecoderSignature (settings : Settings) (type : SolType) : Emission RoutineSignature := do
  let name ← decodeParameterList settings type
  let members ← decodedParameters type
  return ⟨name, ["uint256"], ← SolType.locatedNames members, .pure⟩

/-- The function that reinterprets a pointer to one routine as a pointer to another. -/
def castRoutine (source target : RoutineSignature) : Routine :=
  ⟨"cast_" ++ Identifier.sanitize source.name ++ "_to_" ++ Identifier.sanitize target.name, .solidity,
    [⟨"inFn", source.functionType⟩], [⟨"outFn", target.functionType⟩], .pure,
    [.assignTo "outFn" (.ident "inFn")]⟩

/-- Adds the cast between two routines, which must take and return as many words. -/
def cast (source target : RoutineSignature) : Emission String :=
  if source.sameConvention target then Emission.addRoutine (castRoutine source target)
  else throw (.incompatibleCast source.functionType target.functionType)

end Codec

end YulAbi
