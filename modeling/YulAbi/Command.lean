import YulAbi.Arena.Build
import YulAbi.Codec.Signature
import YulAbi.Command.Error
import YulAbi.Description.Document
import YulAbi.Document.Block
import YulAbi.Interface.Document
import YulAbi.Packing.Accessors
import YulAbi.Text
import YulAbi.Value.Document
import YulAbi.Value.Memory
import YulAbi.Yul.Interpreter

/-!
# Commands

The four things that can be asked for: decoders or encoders for the items of a
contract interface, the packed layout of a type with its accessors, and the
arguments that call data holds, decoded by the generated routine itself. A command
works on the texts of its files and answers with the text to print.
-/

namespace YulAbi

/-- What is asked for. -/
inductive Command where
  /-- Decoders for the functions and errors of an interface, or for those of one name. -/
  | decode (abi : String) (only : Option String)
  /-- Encoders for the items of an interface, or for those of one name. -/
  | encode (abi : String) (only : Option String)
  /-- Layout and accessors of a type. -/
  | pack (types typeName : String) (source : WordSource)
  /-- Arguments of a call. -/
  | reflect (abi function calldata : String) (pretty : Bool)

namespace Command

/-- The text of a file, if there is such a file. -/
abbrev Files := String → Option String

/-- The part of a path behind its last separator. -/
def fileName (path : String) : List Char := (path.toList.reverse.takeWhile (· != '/')).reverse

/-- The characters behind the last dot of a file name, if the dot is not its first character. -/
def extension? (path : String) : Option (List Char) :=
  let name := fileName path
  let back := name.reverse.takeWhile (· != '.')
  if name == ['.', '.'] || name.length ≤ back.length + 1 then none else some back.reverse

/-- Whether a file holds JSON, by the extension in either case. -/
def isJson (path : String) : Bool :=
  (extension? path).any fun characters => characters.map Char.toLower == ['j', 's', 'o', 'n']

/-- Reads a file. -/
def readFile (files : Files) (path : String) : Except CommandError String :=
  match files path with
  | some text => .ok text
  | none => .error (.unreadableFile path)

/-- The settings of a file, or the standard ones. -/
def loadSettings (files : Files) : Option String → Except CommandError Settings
  | none => .ok .standard
  | some path => do
    let text ← readFile files path
    match if isJson path then Settings.ofJson text else Settings.ofYaml text with
    | .ok settings => return settings
    | .error cause => throw (.invalidSettings path cause)

/-- The items of an interface file. -/
def loadItems (files : Files) (path : String) : Except CommandError (List Interface.Item) := do
  let text ← readFile files path
  match (Document.ofJson? text).bind Interface.itemsOfDocument? with
  | some items => return items
  | none => throw (.invalidInterface path)

/-- The definitions in a text. -/
def definitionsOf? (json : Bool) (text : String) : Option (List Definition) :=
  (if json then Document.ofJson? text else Document.Block.read? text).bind Definition.listOfDocument?

/-- The definitions of a type file. -/
def loadDefinitions (files : Files) (path : String) : Except CommandError (List Definition) := do
  let text ← readFile files path
  match definitionsOf? (isJson path) text with
  | some definitions => return definitions
  | none => throw (.invalidTypeFile path)

/-- The type of an item, if it has one. -/
def itemType (item : Interface.Item) : Except CommandError (Option SolType) :=
  let name := item.name?.getD "<unnamed>"
  match item.describe? with
  | .error cause => .error (.unreadableItem name cause)
  | .ok none => .ok none
  | .ok (some description) =>
    match description.toSolType? with
    | .ok type => .ok (some type)
    | .error cause => .error (.invalidItem name cause)

/-- The types of all items, or of those of one name, of which there must be one. -/
def itemTypes (items : List Interface.Item) (only : Option String) :
    Except CommandError (List SolType) := do
  let chosen := match only with
    | none => items
    | some name => items.filter fun item => item.name? == some name
  let types := (← chosen.mapM itemType).filterMap id
  match only with
  | some name => if types.isEmpty then throw (.noSuchItem name) else return types
  | none => return types

/-- The decoder for an item; events have none. -/
def decoderFor? (settings : Settings) (type : SolType) : Option (Emission String) :=
  match type with
  | .function .. => some (Codec.decodeParameterList settings type)
  | .error .. => some (Codec.decodeParameterList settings type)
  | _ => none

/-- The encoder for an item. -/
def encoderFor? (settings : Settings) (type : SolType) : Option (Emission String) :=
  match type with
  | .function .. => some (Codec.encodeParameterList settings type)
  | .error .. => some (Codec.encodeError settings type)
  | .event .. => some (Codec.encodeEvent settings type)
  | _ => none

/-- Generates routines for several items. -/
def emitFor (request : SolType → Option (Emission String)) (workspace : Workspace) :
    List SolType → Except CommandError Workspace
  | [] => .ok workspace
  | type :: rest =>
    match request type with
    | none => emitFor request workspace rest
    | some emission =>
      match emission.runOn workspace with
      | (.ok _, next) => emitFor request next rest
      | (.error cause, _) => .error (.notGenerated type.shape.identifier cause)

/-- The text of all routines for the items of an interface. -/
def routinesText (files : Files) (settings : Settings) (abi : String) (only : Option String)
    (request : SolType → Option (Emission String)) (container : String) :
    Except CommandError String := do
  let types ← itemTypes (← loadItems files abi) only
  let workspace ← emitFor request (.start .empty) types
  return workspace.unit.render container settings.memorySafe

/-- The layout of a type as comments, and its accessors. -/
def packText (files : Files) (settings : Settings) (path typeName : String) (source : WordSource) :
    Except CommandError String := do
  let definitions ← loadDefinitions files path
  let definition ← match definitions.find? fun definition => definition.name == typeName with
    | some definition => pure definition
    | none => throw (.noSuchType typeName path)
  let type ← match definition.kind.toSolType? with
    | .ok type => pure type
    | .error cause => throw (.invalidType typeName cause)
  let layout ← match Packing.pack type settings.packing with
    | .ok layout => pure layout
    | .error cause => throw (.notPacked typeName cause)
  match (Packing.emitAccessors layout source settings.cost).runOn (.start .empty) with
  | (.ok _, workspace) => return layout.table ++ workspace.unit.render "accessors" settings.memorySafe
  | (.error cause, _) => throw (.generation cause)

/-- The name of a function with its parameters, for the first function among types. -/
def firstFunction? : List SolType → Option (String × List (Labelled SolType))
  | [] => none
  | .function name parameters _ _ :: _ => some (name, parameters)
  | _ :: rest => firstFunction? rest

/-- The name under which an argument is printed. -/
def argumentName (index : Nat) (label : Option String) : String :=
  match label with
  | some name => if name.isEmpty then s!"arg{index}" else name
  | none => s!"arg{index}"

/-- Puts a field into a record whose names increase; a name that is there gets the new value. -/
def putField (name : String) (value : Document) : List (String × Document) → List (String × Document)
  | [] => [(name, value)]
  | field :: rest =>
    if name = field.1 then (name, value) :: rest
    else if name < field.1 then (name, value) :: field :: rest
    else field :: putField name value rest

/-- Reads arguments from memory and puts them into a record by name. -/
def readArguments (machine : Machine) (index : Nat) (fields : List (String × Document)) :
    List (Labelled SolType × Word) → Except CommandError (List (String × Document))
  | [] => .ok fields
  | (parameter, word) :: rest =>
    match Value.readAs machine parameter.type.shape word with
    | .error fault => .error (.unreadableResult fault)
    | .ok value =>
      readArguments machine (index + 1)
        (putField (argumentName index parameter.label) value.toDocument fields) rest

/-- The arguments that call data holds for the parameters of a function, decoded by the generated
routine. -/
def decodeCall (settings : Settings) (signature : String) (parameters : List (Labelled SolType))
    (calldata : List UInt8) : Except CommandError Document := do
  if calldata.take 4 != Keccak.selectorBytes signature then throw (.wrongSelector signature)
  match (Codec.decodeParameterList settings (.tuple parameters)).runOn (.start .empty) with
  | (.error cause, _) => throw (.generation cause)
  | (.ok routine, workspace) =>
    let machine := Machine.start ⟨calldata.toArray⟩
    match workspace.unit.call Yul.standardStepLimit routine [Word.ofNat 4] machine with
    | .error fault _ => throw (.failedRun routine fault)
    | .ok words machine => return .record (← readArguments machine 0 [] (parameters.zip words))

/-- The arguments of a call as JSON. -/
def reflectText (files : Files) (settings : Settings) (abi function calldata : String)
    (pretty : Bool) : Except CommandError String := do
  let types ← itemTypes (← loadItems files abi) (some function)
  match firstFunction? types with
  | none => throw (.notAFunction function)
  | some (name, parameters) =>
    match Hex.toBytes? (Text.trim calldata) with
    | none => throw .malformedCalldata
    | some bytes =>
      let call ← decodeCall settings (name ++ SolType.parameterListText parameters) parameters bytes
      return (if pretty then call.pretty else call.compact) ++ "\n"

/-- The text that a command prints. -/
def run (files : Files) (settingsPath : Option String) (command : Command) :
    Except CommandError String := do
  let settings ← loadSettings files settingsPath
  match command with
  | .decode abi only => routinesText files settings abi only (decoderFor? settings) "abi_decoders"
  | .encode abi only => routinesText files settings abi only (encoderFor? settings) "abi_encoders"
  | .pack types typeName source => packText files settings types typeName source
  | .reflect abi function calldata pretty => reflectText files settings abi function calldata pretty

end Command

end YulAbi
