import YulAbi.Description
import YulAbi.Shape

/-!
# Types with labels

A type as it is used for generation: its shape together with the labels of its
members, the names and mutability of functions, and the data part of events.
Labels only show in the names of constants and fields.
-/

namespace YulAbi

/-- A part of a composite with an optional label. -/
structure Labelled (α : Type) where
  /-- Label, if the part has one. -/
  label : Option String
  /-- Type of the part. -/
  type : α

/-- A type with the labels of its parts. -/
inductive SolType where
  /-- Truth value. -/
  | bool
  /-- Account address. -/
  | address
  /-- Integer of a width in bits. -/
  | integer (signed : Bool) (bits : Nat)
  /-- Enumeration with a number of members. -/
  | enumeration (name : String) (memberCount : Nat)
  /-- Byte string of a fixed size. -/
  | fixedBytes (size : Nat)
  /-- User-defined value type. -/
  | userDefined (name : String) (underlying : SolType)
  /-- Byte string of any size. -/
  | bytes
  /-- Text of any size. -/
  | string
  /-- Array; no length means that it varies. -/
  | array (base : SolType) (length : Option Nat)
  /-- Named struct. -/
  | struct (name : String) (members : List (Labelled SolType))
  /-- Unnamed tuple. -/
  | tuple (members : List (Labelled SolType))
  /-- Function signature. -/
  | function (name : String) (parameters returns : List (Labelled SolType)) (mutability : Mutability)
  /-- Error signature. -/
  | error (name : String) (parameters : List (Labelled SolType))
  /-- Event signature; `data` holds the parameters that are no topics. -/
  | event (name : String) (parameters data : List (Labelled SolType)) (indexed : List Bool)
    (anonymous : Bool)

namespace SolType

mutual
/-- The structure without labels, function names and mutability. -/
def shape : SolType → Shape
  | .bool => .bool
  | .address => .address
  | .integer signed bits => .integer signed bits
  | .enumeration name memberCount => .enumeration name memberCount
  | .fixedBytes size => .fixedBytes size
  | .userDefined name underlying => .userDefined name underlying.shape
  | .bytes => .bytes
  | .string => .string
  | .array base length => .array base.shape length
  | .struct name members => .struct name (shapes members)
  | .tuple members => .tuple (shapes members)
  | .function _ parameters returns _ => .function (shapes parameters) (shapes returns)
  | .error name parameters => .error name (shapes parameters)
  | .event name parameters _ indexed anonymous => .event name (shapes parameters) indexed anonymous
/-- The shapes of several parts. -/
def shapes : List (Labelled SolType) → List Shape
  | [] => []
  | part :: rest => part.type.shape :: shapes rest
end

/-- The shapes of parts, one for each. -/
theorem shapes_eq_map (parts : List (Labelled SolType)) :
    shapes parts = parts.map fun part => part.type.shape := by
  induction parts with
  | nil => rfl
  | cons part rest ih => simp [shapes, ih]

/-- Members of structs and tuples, parameters of errors and events, nothing for other types. -/
def members : SolType → List (Labelled SolType)
  | .struct _ members => members
  | .tuple members => members
  | .error _ parameters => parameters
  | .event _ parameters _ _ _ => parameters
  | _ => []

/-- Members and shapes commute. -/
theorem shape_members (type : SolType) : type.shape.members = shapes type.members := by
  cases type <;> rfl

/-- The canonical type strings of parameters between parentheses. -/
def parameterListText (parameters : List (Labelled SolType)) : String :=
  (Shape.tuple (shapes parameters)).abiType

end SolType

end YulAbi
