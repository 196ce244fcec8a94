import YulAbi.Interface
import YulAbi.Text

/-!
# Type strings

Reads the type string of a parameter. Array suffixes apply from left to right,
so the last one is the outermost. The annotation with the source type carries
the same suffixes; it turns tuples into named structs, elementary types into
enumerations or user-defined types, and never changes anything else.
-/

namespace YulAbi.Interface

/-- Why a type string is refused; each cause carries the text it concerns. -/
inductive TypeStringError where
  /-- An integer whose width is not a multiple of eight between 8 and 256. -/
  | invalidInteger (type : String)
  /-- A fixed byte string whose size is not between 1 and 32. -/
  | invalidFixedBytes (type : String)
  /-- An array suffix without opening bracket or with a length that is no positive number. -/
  | invalidArraySuffix (type : String)
  /-- A tuple without components. -/
  | missingComponents (type : String)
  /-- Any other name. -/
  | unknownType (type : String)
  deriving DecidableEq

/-- The wording of a refusal. -/
def TypeStringError.message : TypeStringError → String
  | .invalidInteger type => "invalid integer type '" ++ type ++ "'"
  | .invalidFixedBytes type => "invalid fixed bytes type '" ++ type ++ "'"
  | .invalidArraySuffix type => "malformed array suffix in '" ++ type ++ "'"
  | .missingComponents type => "tuple type '" ++ type ++ "' has no components"
  | .unknownType type => "unknown type '" ++ type ++ "'"

/-- Removes characters that must stand in front. -/
def dropFront? : List Char → List Char → Option (List Char)
  | [], rest => some rest
  | _ :: _, [] => none
  | wanted :: more, char :: rest => if wanted = char then dropFront? more rest else none

/-- Removes characters that must stand at the end. -/
def dropBack? (back chars : List Char) : Option (List Char) :=
  (dropFront? back.reverse chars.reverse).map List.reverse

/-- Splits the text of an array at its last opening bracket; the bracket stays with the suffix. -/
def splitSuffix? (chars : List Char) : Option (List Char × List Char) :=
  let suffix := chars.reverse.takeWhile (· != '[')
  if suffix.length < chars.length then
    let size := chars.length - suffix.length - 1
    some (chars.take size, chars.drop size)
  else none

/-- The part of a qualified name behind its last dot. -/
def lastSegment (chars : List Char) : String :=
  String.ofList (chars.reverse.takeWhile (· != '.')).reverse

/-- Reads an integer width behind its keyword. -/
def readWidth? (digits : List Char) : Option Nat :=
  (Numeral.read? 65535 digits).filter fun bits => 8 ≤ bits ∧ bits ≤ 256 ∧ bits % 8 = 0

/-- Reads the size of a fixed byte string behind its keyword. -/
def readSize? (digits : List Char) : Option Nat :=
  (Numeral.read? 255 digits).filter fun size => 1 ≤ size ∧ size ≤ 32

/-- Reads the text between the brackets of an array suffix: nothing, or a positive length. -/
def readLength? (digits : List Char) : Option (Option Nat) :=
  match digits with
  | [] => some none
  | _ => ((Numeral.read? 0xffffffffffffffff digits).filter (0 < ·)).map some

/-- The elementary types that a whole name stands for. -/
def namedType? (name : String) : Option Description :=
  if name = "bool" then some .bool
  else if name = "address" then some .address
  else if name = "string" then some .string
  else if name = "bytes" then some .bytes
  else if name = "uint" then some (.uint 256)
  else if name = "int" then some (.int 256)
  else if name = "function" then some (.function "" [] [] .nonpayable)
  else none

/-- The elementary types that are a keyword with a number. -/
def numberedType (name : String) : Except TypeStringError Description :=
  let chars := name.toList
  match dropFront? "uint".toList chars with
  | some digits =>
    match readWidth? digits with
    | some bits => .ok (.uint bits)
    | none => .error (.invalidInteger name)
  | none =>
    match dropFront? "int".toList chars with
    | some digits =>
      match readWidth? digits with
      | some bits => .ok (.int bits)
      | none => .error (.invalidInteger name)
    | none =>
      match dropFront? "bytes".toList chars with
      | some digits =>
        match readSize? digits with
        | some size => .ok (.fixedBytes size)
        | none => .error (.invalidFixedBytes name)
      | none => .error (.unknownType name)

/-- What a source type makes of an elementary type written as `name`. -/
def annotate (description : Description) (name : String) (internalType : Option String) :
    Description :=
  match internalType with
  | none => description
  | some internal =>
    if internal = name ∨ description.isElementary = false then description
    else
      match dropFront? "enum ".toList internal.toList with
      | some rest => .enumeration (lastSegment rest) []
      | none =>
        if (dropFront? "contract ".toList internal.toList).isSome ∨
            (dropFront? "struct ".toList internal.toList).isSome then description
        else if Text.firstBlankFreeRun? internal = some name then description
        else .userDefined (lastSegment internal.toList) description

/-- The tuple of components, a struct when the source type names one. -/
def ofComponents (members : List (Member Description)) (internalType : Option String) : Description :=
  match internalType.bind fun internal => dropFront? "struct ".toList internal.toList with
  | some rest => .struct (lastSegment rest) members
  | none => .tuple members

/-- A type string with its components already resolved: the suffixes are peeled off one by one,
at most `fuel` of them. The components matter only when the innermost name is `tuple`. -/
def parseWithin (fuel : Nat) (chars : List Char) (hasComponents : Bool)
    (members : Except TypeStringError (List (Member Description))) (internalType : Option String) :
    Except TypeStringError Description :=
  match fuel with
  | 0 => .error (.unknownType (String.ofList chars))
  | fuel + 1 =>
    let trimmed := Text.trimBlanks chars
    let name := String.ofList trimmed
    if trimmed.getLast? = some ']' then
      match splitSuffix? trimmed with
      | none => .error (.invalidArraySuffix name)
      | some (inner, suffix) =>
        match readLength? (suffix.drop 1).dropLast with
        | none => .error (.invalidArraySuffix name)
        | some length => do
          let innerInternal := internalType.bind fun internal =>
            (dropBack? suffix internal.toList).map String.ofList
          let base ← parseWithin fuel inner hasComponents members innerInternal
          return .array base length
    else
      match namedType? name with
      | some description => .ok (annotate description name internalType)
      | none =>
        if name = "tuple" then
          if hasComponents then members.map fun members => ofComponents members internalType
          else .error (.missingComponents name)
        else (numberedType name).map fun description => annotate description name internalType

mutual
/-- The description of a parameter. -/
def Parameter.describe : Parameter → Except TypeStringError Description
  | .mk _ type components internalType _ =>
    parseWithin (type.toList.length + 1) type.toList (!components.isEmpty)
      (describeMembers components) internalType
/-- The named descriptions of parameters; the first refusal wins. -/
def describeMembers : List Parameter → Except TypeStringError (List (Member Description))
  | [] => .ok []
  | parameter :: rest => do
    let type ← parameter.describe
    let members ← describeMembers rest
    return ⟨parameter.name, type⟩ :: members
end

/-- The description of a type string with components and an optional source type. -/
def parseTypeString (type : String) (components : List Parameter) (internalType : Option String) :
    Except TypeStringError Description :=
  Parameter.describe (.mk "" type components internalType false)

/-- The named descriptions of event parameters; the first refusal wins. -/
def describeEventParameters : List Parameter →
    Except TypeStringError (List (EventParameter Description))
  | [] => .ok []
  | parameter :: rest => do
    let type ← parameter.describe
    let parameters ← describeEventParameters rest
    return ⟨parameter.name, type, parameter.indexed⟩ :: parameters

/-- The description of an item, none for those without a type of their own. -/
def Item.describe? : Item → Except TypeStringError (Option Description)
  | .function name inputs outputs mutability => do
    let parameters ← describeMembers inputs
    let returns ← describeMembers outputs
    return some (.function name parameters returns mutability)
  | .error name inputs => do
    return some (.error name (← describeMembers inputs))
  | .event name inputs anonymous => do
    return some (.event name (← describeEventParameters inputs) anonymous)
  | .special .. => .ok none

end YulAbi.Interface
