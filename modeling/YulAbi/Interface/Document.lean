import YulAbi.Description.Document
import YulAbi.Interface

/-!
# Contract interfaces as documents

Reads the items of a JSON interface and writes an item with its defaults filled
in. An item is told apart by its field `type`; a sequence may stand for an item
if its first part is that kind. No part of an interface may be without a value, ignored
or not.
-/

namespace YulAbi.Interface

open Document

/-- Reads a parameter nested at most `fuel` levels deep. -/
def readParameter? (fuel : Nat) (document : Document) : Option Parameter :=
  match fuel with
  | 0 => none
  | fuel + 1 => do
    let [name, type, components, internalType, indexed] ←
      document.readFieldsOf? ["name", "type", "components", "internalType", "indexed"] | none
    return .mk (← defaulted? "" readText? name) (← required? readText? type)
      (← defaulted? [] (readList? (readParameter? fuel)) components)
      (← defaulted? none (readOptional? readText?) internalType)
      (← defaulted? false readBool? indexed)

/-- Reads a parameter of any depth. -/
def Parameter.ofDocument? (document : Document) : Option Parameter :=
  readParameter? document.depth document

/-- Reads a list of parameters that may be left out. -/
def readParameters? : Option Document → Option (List Parameter) :=
  defaulted? [] (readList? Parameter.ofDocument?)

/-- Separates the kind of an item from its other fields. -/
def splitKind? : Document → Option (String × Document)
  | .record fields =>
    match fields.filter fun entry => entry.1 == "type" with
    | [(_, kind)] =>
      (readText? kind).map fun kind => (kind, .record (fields.filter fun entry => entry.1 != "type"))
    | _ => none
  | .list true (kind :: rest) => (readText? kind).map fun kind => (kind, .list true rest)
  | _ => none

/-- Reads a mutability, behind which a record without fields may stand. -/
def readMutability? : Option Document → Option Mutability :=
  defaulted? .nonpayable (Mutability.readVariant? .absentOrEmpty)

/-- Reads a special entry point. -/
def readSpecial? (kind : Special) (document : Document) : Option Item := do
  let [inputs, mutability] ← document.readFieldsOf? ["inputs", "stateMutability"] | none
  return .special kind (← readParameters? inputs) (← readMutability? mutability)

/-- Reads an item. -/
def Item.ofDocument? (document : Document) : Option Item := do
  let (kind, body) ← splitKind? document
  match kind with
  | "function" =>
    let [name, inputs, outputs, mutability] ←
      body.readFieldsOf? ["name", "inputs", "outputs", "stateMutability"] | none
    return .function (← required? readText? name) (← readParameters? inputs)
      (← readParameters? outputs) (← readMutability? mutability)
  | "error" =>
    let [name, inputs] ← body.readFieldsOf? ["name", "inputs"] | none
    return .error (← required? readText? name) (← readParameters? inputs)
  | "event" =>
    let [name, inputs, anonymous] ← body.readFieldsOf? ["name", "inputs", "anonymous"] | none
    return .event (← required? readText? name) (← readParameters? inputs)
      (← defaulted? false readBool? anonymous)
  | "constructor" => readSpecial? .constructor body
  | "fallback" => readSpecial? .fallback body
  | "receive" => readSpecial? .receive body
  | _ => none

/-- Reads all items of an interface. -/
def itemsOfDocument? (document : Document) : Option (List Item) :=
  if document.isReadable then document.readList? Item.ofDocument? else none

mutual
/-- Writes a parameter; components and source type stand only where there are some. -/
def Parameter.toDocument : Parameter → Document
  | .mk name type components internalType indexed =>
    .record ([("name", .text name), ("type", .text type)] ++
      (if components.isEmpty then [] else [("components", .array (parameterDocuments components))]) ++
      (match internalType with
        | none => []
        | some internal => [("internalType", .text internal)]) ++
      [("indexed", .bool indexed)])
/-- Writes parameters. -/
def parameterDocuments : List Parameter → List Document
  | [] => []
  | parameter :: rest => parameter.toDocument :: parameterDocuments rest
end

/-- Writes an item with every field. -/
def Item.toDocument : Item → Document
  | .function name inputs outputs mutability =>
    .record [("type", .text "function"), ("name", .text name),
      ("inputs", .array (parameterDocuments inputs)), ("outputs", .array (parameterDocuments outputs)),
      ("stateMutability", mutability.toDocument)]
  | .error name inputs =>
    .record [("type", .text "error"), ("name", .text name),
      ("inputs", .array (parameterDocuments inputs))]
  | .event name inputs anonymous =>
    .record [("type", .text "event"), ("name", .text name),
      ("inputs", .array (parameterDocuments inputs)), ("anonymous", .bool anonymous)]
  | .special kind inputs mutability =>
    .record [("type", .text kind.keyword), ("inputs", .array (parameterDocuments inputs)),
      ("stateMutability", mutability.toDocument)]

end YulAbi.Interface
