import YulAbi.Arena

/-!
# Adding nodes to an arena

Each operation checks its input, appends the nodes it needs and answers with the
index of the new one. A checked operation that fails keeps the nodes that it had
already appended. A description is built part by part in declaration order, every
part before its owner.
-/

namespace YulAbi

/-- A step that appends nodes and may fail, keeping what it appended. -/
abbrev Construction (α : Type) := ExceptT GenerationError (StateM Arena) α

namespace Arena

/-- The number of a shape, which is entered if it is new. -/
def intern (arena : Arena) (shape : Shape) : Arena × ShapeId :=
  match arena.shapes.findIdx? (· == shape) with
  | some id => (arena, id)
  | none => (⟨arena.nodes, arena.shapes.push shape⟩, arena.shapes.size)

/-- Appends a node without label and owner. -/
def push (arena : Arena) (kind : Kind) : Arena × NodeId :=
  let (interned, shape) := arena.intern (arena.shapeOfKind kind)
  (⟨interned.nodes.push ⟨kind, none, none, shape⟩, interned.shapes⟩, arena.nodes.size)

/-- Replaces the label of a node. -/
def withLabel (arena : Arena) (id : NodeId) (label : Option String) : Arena :=
  ⟨arena.nodes.modify id fun node => ⟨node.kind, label, node.parent, node.shape⟩, arena.shapes⟩

/-- Replaces the owner of a node. -/
def withParent (arena : Arena) (owner id : NodeId) : Arena :=
  ⟨arena.nodes.modify id fun node => ⟨node.kind, node.label, some owner, node.shape⟩, arena.shapes⟩

/-- Makes a node the owner of others. -/
def adopt (arena : Arena) (owner : NodeId) (children : List NodeId) : Arena :=
  children.foldl (fun arena child => arena.withParent owner child) arena

/-- Appends a node and makes it the owner of its children. -/
def pushOwner (arena : Arena) (kind : Kind) : Arena × NodeId :=
  let (pushed, id) := arena.push kind
  (pushed.adopt id kind.children, id)

/-- Appends a copy of a node and of everything below it, labels included. The copy has no owner. -/
def deepCopy (arena : Arena) (id : NodeId) : Arena × NodeId :=
  let kind := arena.kind id
  let label := arena.label id
  let (copied, children) := kind.children.foldl
    (fun (state : Arena × List NodeId) child =>
      if child < id then
        let (next, copy) := state.1.deepCopy child
        (next, state.2 ++ [copy])
      else state)
    (arena, [])
  let (owned, copy) := copied.pushOwner (kind.withChildren children)
  (owned.withLabel copy label, copy)
  termination_by id

/-- A node that may be attached: the node itself if it has no owner, a copy of it otherwise. -/
def claim (arena : Arena) (id : NodeId) : Arena × NodeId :=
  if (arena.parent id).isSome then arena.deepCopy id else (arena, id)

end Arena

namespace Construction

open Arena

/-- Runs an operation that cannot fail. -/
def perform (operation : Arena → Arena × NodeId) : Construction NodeId :=
  ExceptT.mk fun arena => (.ok (operation arena).2, (operation arena).1)

/-- Refuses the input because of a flaw. -/
def refuse {α : Type} (flaw : TypeFlaw) : Construction α := throw (.invalidType flaw)

/-- Appends a node that owns its children. -/
def addNode (kind : Kind) : Construction NodeId := perform fun arena => arena.pushOwner kind

/-- A node that may be attached. -/
def claim (id : NodeId) : Construction NodeId := perform fun arena => arena.claim id

/-- A detached copy of a node. -/
def deepCopy (id : NodeId) : Construction NodeId := perform fun arena => arena.deepCopy id

/-- Labels a node. -/
def setLabel (id : NodeId) (label : String) : Construction Unit :=
  modify fun arena => arena.withLabel id (some label)

/-- Adds a truth value. -/
def addBool : Construction NodeId := addNode .bool

/-- Adds an address. -/
def addAddress : Construction NodeId := addNode .address

/-- Adds an integer whose width is a whole number of bytes up to a word. -/
def addInteger (signed : Bool) (bits : Nat) : Construction NodeId :=
  if bits = 0 ∨ wordBits < bits ∨ bits % 8 ≠ 0 then refuse (.integerWidth bits)
  else addNode (.integer signed bits)

/-- Adds a byte string of 1 to 32 bytes. -/
def addFixedBytes (size : Nat) : Construction NodeId :=
  if 1 ≤ size ∧ size ≤ wordBytes then addNode (.fixedBytes size) else refuse (.fixedBytesSize size)

/-- Adds an enumeration. Without known members it takes the widest legal form, 256 members. -/
def addEnumeration (name : String) (memberCount : Nat) : Construction NodeId :=
  if memberCount = 0 then addNode (.enumeration name 256)
  else if memberCount ≤ 256 then addNode (.enumeration name memberCount)
  else refuse (.enumerationMembers name memberCount)

/-- Adds a byte string of any size. -/
def addBytes : Construction NodeId := addNode .bytes

/-- Adds a text of any size. -/
def addString : Construction NodeId := addNode .string

/-- Adds a user-defined type around a value type that is no function. -/
def addUserDefined (name : String) (underlying : NodeId) : Construction NodeId := do
  let shape := (← get).shape underlying
  let wrappable := match shape with
    | .function .. => false
    | _ => shape.isValueType
  if wrappable then addNode (.userDefined name (← claim underlying))
  else refuse (.wrappedType name shape.identifier)

/-- Adds an array. A fixed length is at least one, and elements are no errors or events. -/
def addArray (base : NodeId) (length : Option Nat) : Construction NodeId := do
  let shape := (← get).shape base
  if length = some 0 then refuse (.emptyArray shape.identifier)
  else if shape.isSignature then refuse (.arrayElement shape.identifier)
  else addNode (.array (← claim base) length)

/-- Claims the members of a composite in order and labels those that have a name. -/
def claimMembers (owner : String) : List (String × NodeId) → Construction (List NodeId)
  | [] => return []
  | (label, member) :: rest => do
    let shape := (← get).shape member
    if shape.isSignature then refuse (.memberType owner label shape.identifier)
    let claimed ← claim member
    unless label.isEmpty do setLabel claimed label
    return claimed :: (← claimMembers owner rest)

/-- Adds a struct. -/
def addStruct (name : String) (members : List (String × NodeId)) : Construction NodeId := do
  addNode (.struct name (← claimMembers name members))

/-- Adds a tuple. -/
def addTuple (members : List (String × NodeId)) : Construction NodeId := do
  addNode (.tuple (← claimMembers "tuple" members))

/-- Adds a function with its two tuples. -/
def addFunction (name : String) (parameters returns : List (String × NodeId))
    (mutability : Mutability) : Construction NodeId := do
  let parameterTuple ← addTuple parameters
  let returnTuple ← addTuple returns
  addNode (.function name parameterTuple returnTuple mutability)

/-- Adds an error with its tuple. -/
def addError (name : String) (parameters : List (String × NodeId)) : Construction NodeId := do
  addNode (.error name (← addTuple parameters))

/-- Copies the parameters that are no topics. -/
def copyData : List (EventParameter NodeId) → Construction (List (String × NodeId))
  | [] => return []
  | parameter :: rest => do
    if parameter.indexed then copyData rest
    else
      let copy ← deepCopy parameter.type
      return (parameter.name, copy) :: (← copyData rest)

/-- Adds an event with the tuple of all parameters and the tuple of copies of those that are no
topics. -/
def addEvent (name : String) (parameters : List (EventParameter NodeId)) (anonymous : Bool) :
    Construction NodeId := do
  let dataMembers ← copyData parameters
  let parameterTuple ← addTuple (parameters.map fun parameter => (parameter.name, parameter.type))
  let dataTuple ← addTuple dataMembers
  addNode (.event name parameterTuple dataTuple (parameters.map EventParameter.indexed) anonymous)

mutual
/-- Adds everything that a description names. -/
def build : Description → Construction NodeId
  | .bool => addBool
  | .address => addAddress
  | .uint bits => addInteger false bits
  | .int bits => addInteger true bits
  | .enumeration name members => addEnumeration name members.length
  | .fixedBytes size => addFixedBytes size
  | .userDefined name underlying => do addUserDefined name (← build underlying)
  | .bytes => addBytes
  | .string => addString
  | .array base length => do addArray (← build base) length
  | .struct name members => do addStruct name (← buildMembers members)
  | .tuple members => do addTuple (← buildMembers members)
  | .function name parameters returns mutability => do
    let parameterNodes ← buildMembers parameters
    let returnNodes ← buildMembers returns
    addFunction name parameterNodes returnNodes mutability
  | .error name parameters => do addError name (← buildMembers parameters)
  | .event name parameters anonymous => do addEvent name (← buildParameters parameters) anonymous
/-- Adds the members of a composite. -/
def buildMembers : List (Member Description) → Construction (List (String × NodeId))
  | [] => return []
  | ⟨name, type⟩ :: rest => do
    let node ← build type
    return (name, node) :: (← buildMembers rest)
/-- Adds the parameters of an event. -/
def buildParameters : List (EventParameter Description) → Construction (List (EventParameter NodeId))
  | [] => return []
  | ⟨name, type, indexed⟩ :: rest => do
    let node ← build type
    return ⟨name, node, indexed⟩ :: (← buildParameters rest)
end

/-- Runs a construction on an arena. -/
def runOn {α : Type} (construction : Construction α) (arena : Arena) : Generated α × Arena :=
  construction.run.run arena

end Construction

/-- The type tree that a description stands for, if it is well-formed. -/
def Description.toSolType? (description : Description) : Generated SolType :=
  match (Construction.build description).runOn Arena.empty with
  | (.ok root, arena) => .ok (arena.typeAt root)
  | (.error cause, _) => .error cause

end YulAbi
