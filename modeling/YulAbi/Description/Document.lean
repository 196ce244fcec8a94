import YulAbi.Description
import YulAbi.Document.Read

/-!
# Type descriptions as documents

A description without data is a bare name; any other one is a record with a
single field whose name tells the kind. The writer gives every field; the reader
lets the fields that have a default be left out.
-/

namespace YulAbi

namespace Mutability

/-- Reads the lower-case keyword with what may stand behind it. -/
def readVariant? (filler : Document.Filler) (document : Document) : Option Mutability :=
  document.readVariantOf? filler (all.map fun mutability => (mutability.keyword, mutability))

/-- Reads the lower-case keyword. -/
def ofDocument? : Document → Option Mutability := readVariant? .absent

/-- Writes the lower-case keyword. -/
def toDocument (mutability : Mutability) : Document := .text mutability.keyword

end Mutability

namespace Description

open Document

/-- The kinds without data. -/
def bareKinds : List (String × Description) :=
  [("bool", .bool), ("address", .address), ("bytes", .bytes), ("string", .string)]

mutual
/-- Reads a description nested at most `fuel` levels deep. -/
def readWithin? (filler : Filler) (fuel : Nat) (document : Document) : Option Description :=
  match fuel with
  | 0 => none
  | fuel + 1 =>
    match document.readVariant? with
    | none => none
    | some (kind, content) =>
      match bareKinds.find? fun entry => entry.1 == kind with
      | some (_, description) => if filler.admits content then some description else none
      | none => content.bind (readContent? filler fuel kind)
/-- Reads what belongs to a kind with data. -/
def readContent? (filler : Filler) (fuel : Nat) (kind : String) (content : Document) : Option Description :=
  match kind with
  | "uint" => (content.readNatural? 65535).map .uint
  | "int" => (content.readNatural? 65535).map .int
  | "fixed-bytes" => (content.readNatural? 255).map .fixedBytes
  | "enum" => do
    let [name, members] ← content.readFieldsOf? ["name", "members"] | none
    return .enumeration (← required? readText? name) (← defaulted? [] (readList? readText?) members)
  | "user-defined" => do
    let [name, underlying] ← content.readFieldsOf? ["name", "underlying"] | none
    return .userDefined (← required? readText? name) (← underlying.bind (readWithin? filler fuel))
  | "array" => do
    let [base, length] ← content.readFieldsOf? ["base", "length"] | none
    return .array (← base.bind (readWithin? filler fuel))
      (← defaulted? none (readOptional? readCount?) length)
  | "struct" => do
    let [name, members] ← content.readFieldsOf? ["name", "members"] | none
    return .struct (← required? readText? name) (← members.bind (readList? (readMember? filler fuel)))
  | "tuple" => do
    let [members] ← content.readFieldsOf? ["members"] | none
    return .tuple (← members.bind (readList? (readMember? filler fuel)))
  | "function" => do
    let [name, parameters, returns, mutability] ←
      content.readFieldsOf? ["name", "parameters", "returns", "state-mutability"] | none
    return .function (← required? readText? name)
      (← defaulted? [] (readList? (readMember? filler fuel)) parameters)
      (← defaulted? [] (readList? (readMember? filler fuel)) returns)
      (← defaulted? .nonpayable (Mutability.readVariant? filler) mutability)
  | "error" => do
    let [name, parameters] ← content.readFieldsOf? ["name", "parameters"] | none
    return .error (← required? readText? name)
      (← defaulted? [] (readList? (readMember? filler fuel)) parameters)
  | "event" => do
    let [name, parameters, anonymous] ←
      content.readFieldsOf? ["name", "parameters", "anonymous"] | none
    return .event (← required? readText? name)
      (← defaulted? [] (readList? (readEventParameter? filler fuel)) parameters)
      (← defaulted? false readBool? anonymous)
  | _ => none
/-- Reads a named part. -/
def readMember? (filler : Filler) (fuel : Nat) (document : Document) : Option (Member Description) := do
  let [name, type] ← document.readFieldsOf? ["name", "type"] | none
  return ⟨← required? readText? name, ← type.bind (readWithin? filler fuel)⟩
/-- Reads an event parameter. -/
def readEventParameter? (filler : Filler) (fuel : Nat) (document : Document) :
    Option (EventParameter Description) := do
  let [name, type, indexed] ← document.readFieldsOf? ["name", "type", "indexed"] | none
  return ⟨← required? readText? name, ← type.bind (readWithin? filler fuel),
    ← defaulted? false readBool? indexed⟩
end

/-- Reads a description of any depth. -/
def ofDocument? (document : Document) : Option Description :=
  readWithin? .absent document.depth document

/-- Writes an optional length. -/
def lengthDocument : Option Nat → Document
  | none => .null
  | some length => .natural length

mutual
/-- Writes a description with every field. -/
def toDocument : Description → Document
  | .bool => .text "bool"
  | .address => .text "address"
  | .uint bits => .record [("uint", .natural bits)]
  | .int bits => .record [("int", .natural bits)]
  | .enumeration name members =>
    .record [("enum", .record [("name", .text name), ("members", .array (members.map .text))])]
  | .fixedBytes size => .record [("fixed-bytes", .natural size)]
  | .userDefined name underlying =>
    .record [("user-defined", .record [("name", .text name), ("underlying", underlying.toDocument)])]
  | .bytes => .text "bytes"
  | .string => .text "string"
  | .array base length =>
    .record [("array", .record [("base", base.toDocument), ("length", lengthDocument length)])]
  | .struct name members =>
    .record [("struct", .record [("name", .text name), ("members", .array (memberDocuments members))])]
  | .tuple members => .record [("tuple", .record [("members", .array (memberDocuments members))])]
  | .function name parameters returns mutability =>
    .record [("function", .record
      [("name", .text name), ("parameters", .array (memberDocuments parameters)),
       ("returns", .array (memberDocuments returns)), ("state-mutability", mutability.toDocument)])]
  | .error name parameters =>
    .record [("error", .record
      [("name", .text name), ("parameters", .array (memberDocuments parameters))])]
  | .event name parameters anonymous =>
    .record [("event", .record
      [("name", .text name), ("parameters", .array (eventParameterDocuments parameters)),
       ("anonymous", .bool anonymous)])]
/-- Writes named parts. -/
def memberDocuments : List (Member Description) → List Document
  | [] => []
  | member :: rest =>
    .record [("name", .text member.name), ("type", member.type.toDocument)] :: memberDocuments rest
/-- Writes event parameters. -/
def eventParameterDocuments : List (EventParameter Description) → List Document
  | [] => []
  | parameter :: rest =>
    .record [("name", .text parameter.name), ("type", parameter.type.toDocument),
      ("indexed", .bool parameter.indexed)] :: eventParameterDocuments rest
end

end Description

/-- A named type of a type file. -/
structure Definition where
  /-- Name under which the type is looked up. -/
  name : String
  /-- The type itself. -/
  kind : Description

namespace Definition

/-- Reads one named type. Here nothing may stand behind a kind without data. -/
def ofDocument? (document : Document) : Option Definition := do
  let [name, kind] ← document.readFieldsOf? ["name", "kind"] | none
  return ⟨← Document.required? Document.readText? name,
    ← kind.bind (Description.readWithin? .nothing document.depth)⟩

/-- Reads the named types of a file. -/
def listOfDocument? (document : Document) : Option (List Definition) := document.readList? ofDocument?

end Definition

end YulAbi
