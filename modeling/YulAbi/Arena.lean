import YulAbi.GenerationError
import YulAbi.Shape.Geometry
import YulAbi.SolType

/-!
# The arena of type nodes

Types are built step by step as nodes that refer to earlier nodes. Nodes are only
ever appended, and a node belongs to at most one owner: attaching a node that
already has an owner attaches a deep copy. Every node is given the number of its
shape, which is equal for equal shapes. A step that fails may leave unused nodes
behind.
-/

namespace YulAbi

/-- The index of a node. -/
abbrev NodeId := Nat

/-- The number of a shape in its arena. -/
abbrev ShapeId := Nat

/-- What a node is and which nodes it is made of. -/
inductive Kind where
  /-- Truth value. -/
  | bool
  /-- Account address. -/
  | address
  /-- Integer of a width in bits. -/
  | integer (signed : Bool) (bits : Nat)
  /-- Enumeration with a number of members. -/
  | enumeration (name : String) (memberCount : Nat)
  /-- Byte string of a fixed size. -/
  | fixedBytes (size : Nat)
  /-- User-defined value type. -/
  | userDefined (name : String) (underlying : NodeId)
  /-- Byte string of any size. -/
  | bytes
  /-- Text of any size. -/
  | string
  /-- Array; no length means that it varies. -/
  | array (base : NodeId) (length : Option Nat)
  /-- Named struct. -/
  | struct (name : String) (members : List NodeId)
  /-- Unnamed tuple. -/
  | tuple (members : List NodeId)
  /-- Function with two tuples. -/
  | function (name : String) (parameters returns : NodeId) (mutability : Mutability)
  /-- Error with a tuple. -/
  | error (name : String) (parameters : NodeId)
  /-- Event with the tuple of all parameters and the tuple of those that are data. -/
  | event (name : String) (parameters data : NodeId) (indexed : List Bool) (anonymous : Bool)

namespace Kind

/-- The word for the kind. -/
def word : Kind → String
  | .bool => "bool"
  | .address => "address"
  | .integer .. => "integer"
  | .enumeration .. => "enum"
  | .fixedBytes _ => "fixed-bytes"
  | .userDefined .. => "user-defined"
  | .bytes => "bytes"
  | .string => "string"
  | .array .. => "array"
  | .struct .. => "struct"
  | .tuple _ => "tuple"
  | .function .. => "function"
  | .error .. => "error"
  | .event .. => "event"

/-- The nodes that a node is made of, in order. -/
def children : Kind → List NodeId
  | .userDefined _ underlying => [underlying]
  | .array base _ => [base]
  | .struct _ members => members
  | .tuple members => members
  | .function _ parameters returns _ => [parameters, returns]
  | .error _ parameters => [parameters]
  | .event _ parameters data _ _ => [parameters, data]
  | _ => []

/-- The same kind made of other nodes, given in the order of `children`. -/
def withChildren (kind : Kind) (children : List NodeId) : Kind :=
  match kind, children with
  | .userDefined name _, [underlying] => .userDefined name underlying
  | .array _ length, [base] => .array base length
  | .struct name _, members => .struct name members
  | .tuple _, members => .tuple members
  | .function name _ _ mutability, [parameters, returns] => .function name parameters returns mutability
  | .error name _, [parameters] => .error name parameters
  | .event name _ _ indexed anonymous, [parameters, data] => .event name parameters data indexed anonymous
  | other, _ => other

end Kind

/-- A node of an arena. -/
structure Node where
  /-- What the node is. -/
  kind : Kind
  /-- Label given by the owner or by hand. -/
  label : Option String
  /-- The owner, if the node is attached. -/
  parent : Option NodeId
  /-- The number of the shape. -/
  shape : ShapeId

/-- All nodes and the shapes that they have. -/
structure Arena where
  /-- The nodes in the order in which they were added. -/
  nodes : Array Node
  /-- The shapes in the order in which they first appeared. -/
  shapes : Array Shape

namespace Arena

/-- An arena without nodes. -/
def empty : Arena := ⟨#[], #[]⟩

/-- The number of nodes. -/
def size (arena : Arena) : Nat := arena.nodes.size

/-- The node of an index; an index without node reads as a detached truth value. -/
def node (arena : Arena) (id : NodeId) : Node := arena.nodes[id]?.getD ⟨.bool, none, none, 0⟩

/-- What a node is. -/
def kind (arena : Arena) (id : NodeId) : Kind := (arena.node id).kind

/-- The label of a node. -/
def label (arena : Arena) (id : NodeId) : Option String := (arena.node id).label

/-- The owner of a node. -/
def parent (arena : Arena) (id : NodeId) : Option NodeId := (arena.node id).parent

/-- The number of the shape of a node. -/
def shapeId (arena : Arena) (id : NodeId) : ShapeId := (arena.node id).shape

/-- The shape that a number stands for. -/
def shapeOfId (arena : Arena) (id : ShapeId) : Shape := arena.shapes[id]?.getD .bool

/-- The shape of a node. -/
def shape (arena : Arena) (id : NodeId) : Shape := arena.shapeOfId (arena.shapeId id)

/-- The text that names the shape of a node. -/
def identifier (arena : Arena) (id : NodeId) : String := (arena.shape id).identifier

/-- Members of structs and tuples, parameters of errors and events, nothing for other nodes. -/
def members (arena : Arena) (id : NodeId) : List NodeId :=
  match arena.kind id with
  | .struct _ members => members
  | .tuple members => members
  | .error _ parameters => (arena.kind parameters).children
  | .event _ parameters _ _ _ => (arena.kind parameters).children
  | _ => []

/-- The shape of a kind whose children are in the arena. -/
def shapeOfKind (arena : Arena) : Kind → Shape
  | .bool => .bool
  | .address => .address
  | .integer signed bits => .integer signed bits
  | .enumeration name memberCount => .enumeration name memberCount
  | .fixedBytes size => .fixedBytes size
  | .userDefined name underlying => .userDefined name (arena.shape underlying)
  | .bytes => .bytes
  | .string => .string
  | .array base length => .array (arena.shape base) length
  | .struct name members => .struct name (members.map arena.shape)
  | .tuple members => .tuple (members.map arena.shape)
  | .function _ parameters returns _ =>
    .function (arena.shape parameters).members (arena.shape returns).members
  | .error name parameters => .error name (arena.shape parameters).members
  | .event name parameters _ indexed anonymous =>
    .event name (arena.shape parameters).members indexed anonymous

/-- The type tree below a node. Children come before their owner, so the index decreases. -/
def typeAt (arena : Arena) (id : NodeId) : SolType :=
  let child := fun index : NodeId => if index < id then arena.typeAt index else .bool
  let part := fun index : NodeId => (⟨arena.label index, child index⟩ : Labelled SolType)
  match arena.kind id with
  | .bool => .bool
  | .address => .address
  | .integer signed bits => .integer signed bits
  | .enumeration name memberCount => .enumeration name memberCount
  | .fixedBytes size => .fixedBytes size
  | .userDefined name underlying => .userDefined name (child underlying)
  | .bytes => .bytes
  | .string => .string
  | .array base length => .array (child base) length
  | .struct name members => .struct name (members.map part)
  | .tuple members => .tuple (members.map part)
  | .function name parameters returns mutability =>
    .function name (child parameters).members (child returns).members mutability
  | .error name parameters => .error name (child parameters).members
  | .event name parameters data indexed anonymous =>
    .event name (child parameters).members (child data).members indexed anonymous
  termination_by id

/-- The index of the member with a label. -/
def memberIndex (arena : Arena) (owner : NodeId) (name : String) : Generated Nat :=
  match (arena.members owner).findIdx? fun member => arena.label member == some name with
  | some index => .ok index
  | none => .error (.unknownMember (arena.identifier owner) name)

/-- The offset of the member with a label. -/
def memberOffsetByName (arena : Arena) (owner : NodeId) (name : String) (regime : Regime) :
    Generated Nat := do
  let index ← arena.memberIndex owner name
  (arena.shape owner).memberOffset index regime

/-- The offset of a node within its owner; for an array that of the first element. -/
def offsetInParent (arena : Arena) (child : NodeId) (regime : Regime) : Generated Nat :=
  match arena.parent child with
  | none => (arena.shape child).undefinedSize .offsetWithinParent
  | some owner =>
    let stranger : Generated Nat :=
      .error (.notAMember (arena.identifier owner) (arena.identifier child))
    let among := fun members : List NodeId =>
      match members.findIdx? (· == child) with
      | some index => (arena.shape owner).memberOffset index regime
      | none => stranger
    match arena.kind owner with
    | .struct _ members => among members
    | .tuple members => among members
    | .array .. | .userDefined .. => (arena.shape owner).memberOffset 0 regime
    | _ => stranger

/-- The text that is hashed for a function, error or event. -/
def signature (arena : Arena) (id : NodeId) : Generated String :=
  match arena.kind id with
  | .function name parameters _ _ => .ok (name ++ (arena.shape parameters).abiType)
  | .error .. => .ok (arena.shape id).abiType
  | .event .. => .ok (arena.shape id).abiType
  | _ => .error (.unsupportedShape (arena.identifier id) .signature)

/-- Adds the nodes below `id` to those already collected, owners first. -/
def collectReachable (arena : Arena) (id : NodeId) (seen : List NodeId) : List NodeId :=
  if seen.contains id then seen
  else
    (arena.kind id).children.foldl
      (fun seen child => if child < id then arena.collectReachable child seen else seen) (id :: seen)
  termination_by id

/-- The nodes below a node, itself included, by index. -/
def reachable (arena : Arena) (id : NodeId) : List NodeId :=
  (arena.collectReachable id []).mergeSort (· ≤ ·)

end Arena

end YulAbi
