import YulAbi.Codec.Encoder
import YulAbi.Keccak

/-!
# Parameter lists, errors and events

A parameter list is a tuple, the parameters or returns of a function, the
parameters of an error, or those parameters of an event that are no topics. Its
values are words on the stack. An error is its selector followed by its parameters;
an event that is not anonymous has its signature hash as a constant.
-/

namespace YulAbi.Codec

open Yul (Expr Stmt Block Routine)

/-- The members of the list that is decoded for a type. -/
def decodedParameters (type : SolType) : Emission (List (Labelled SolType)) :=
  match type with
  | .tuple members => return members
  | .function _ parameters _ _ => return parameters
  | .error _ parameters => return parameters
  | .event _ _ topicFree _ _ => return topicFree
  | _ => unsupported type.shape .parameters

/-- The members of the list that is encoded for a type; for a function these are its returns. -/
def encodedParameters (type : SolType) : Emission (List (Labelled SolType)) :=
  match type with
  | .function _ _ returns _ => return returns
  | _ => decodedParameters type

/-- The decoder of the parameter list of a type. -/
def decodeParameterList (settings : Settings) (type : SolType) : Emission String := do
  let members ← decodedParameters type
  Emission.routineFor .decodeParameters (SolType.tuple members).shape
    (parameterDecoder settings members)

/-- The encoder of a parameter list with the given members. -/
def encodeMembers (settings : Settings) (members : List (Labelled SolType)) : Emission String :=
  Emission.routineFor .encodeParameters (SolType.tuple members).shape
    (parameterEncoder settings members)

/-- The encoder of the parameter list of a type. -/
def encodeParameterList (settings : Settings) (type : SolType) : Emission String := do
  encodeMembers settings (← encodedParameters type)

/-- The routine that writes a selector and then calls the encoder of the parameters. -/
def errorEncoder (count : Nat) (parameterEncoder : String) (selector : Expr) (name : String) : Routine :=
  let words := (wordNames count).map Expr.ident
  .ofBody name (wordNames count ++ ["dst"]) ["size"]
    [.mstore (.ident "dst") selector,
     .assignTo "size"
      (.add (.call parameterEncoder (words ++ [.add (.ident "dst") (.number 4)])) (.number 4))]

/-- The encoder of an error: its selector and then its parameters. -/
def encodeError (settings : Settings) (type : SolType) : Emission String :=
  match type with
  | .error name parameters => do
    let selector ← Offsets.named settings.namedConstants (Identifier.sanitize name ++ "_selector")
      (Keccak.selectorWord type.shape.abiType)
    let encoder ← encodeMembers settings parameters
    Emission.routineFor .encodeError type.shape fun name =>
      return errorEncoder parameters.length encoder selector name
  | _ => unsupported type.shape .errorEncoding

/-- The encoder of the data of an event. -/
def encodeEvent (settings : Settings) (type : SolType) : Emission String :=
  match type with
  | .event name _ topicFree _ anonymous => do
    unless anonymous do
      let _ ← Offsets.named settings.namedConstants (Identifier.sanitize name ++ "_topic0")
        (Keccak.topicWord type.shape.abiType)
    encodeMembers settings topicFree
  | _ => unsupported type.shape .eventEncoding

end YulAbi.Codec
