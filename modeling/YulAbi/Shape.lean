import YulAbi.Text

/-!
# Shapes

The shape of a type is its structure without the names of its members. Two types
have the same layout, the same routines and the same identifier when they have
the same shape. Functions are told apart by their parameters and returns only.

Three texts are derived from a shape: an identifier for messages, a fragment for
names of routines, and the canonical type string that signatures are hashed from.
-/

namespace YulAbi

/-- The structure of a type. -/
inductive Shape where
  /-- Truth value. -/
  | bool
  /-- Account address. -/
  | address
  /-- Integer of a width in bits. -/
  | integer (signed : Bool) (bits : Nat)
  /-- Enumeration with a number of members. -/
  | enumeration (name : String) (memberCount : Nat)
  /-- Byte string of a fixed size, at the high end of its word. -/
  | fixedBytes (size : Nat)
  /-- User-defined value type. -/
  | userDefined (name : String) (underlying : Shape)
  /-- Byte string of any size. -/
  | bytes
  /-- Text of any size. -/
  | string
  /-- Array; no length means that it varies. -/
  | array (base : Shape) (length : Option Nat)
  /-- Named struct. -/
  | struct (name : String) (members : List Shape)
  /-- Unnamed tuple. -/
  | tuple (members : List Shape)
  /-- Function pointer or function signature. -/
  | function (parameters returns : List Shape)
  /-- Error signature. -/
  | error (name : String) (parameters : List Shape)
  /-- Event signature; `indexed` tells for each parameter whether it is a topic. -/
  | event (name : String) (parameters : List Shape) (indexed : List Bool) (anonymous : Bool)

namespace Shape

mutual
/-- Structural comparison. -/
def same : Shape → Shape → Bool
  | .bool, .bool => true
  | .address, .address => true
  | .integer signed bits, .integer signed' bits' => signed == signed' && bits == bits'
  | .enumeration name count, .enumeration name' count' => name == name' && count == count'
  | .fixedBytes size, .fixedBytes size' => size == size'
  | .userDefined name underlying, .userDefined name' underlying' =>
    name == name' && underlying.same underlying'
  | .bytes, .bytes => true
  | .string, .string => true
  | .array base length, .array base' length' => length == length' && base.same base'
  | .struct name members, .struct name' members' => name == name' && sameAll members members'
  | .tuple members, .tuple members' => sameAll members members'
  | .function parameters returns, .function parameters' returns' =>
    sameAll parameters parameters' && sameAll returns returns'
  | .error name parameters, .error name' parameters' => name == name' && sameAll parameters parameters'
  | .event name parameters indexed anonymous, .event name' parameters' indexed' anonymous' =>
    name == name' && indexed == indexed' && anonymous == anonymous' && sameAll parameters parameters'
  | _, _ => false
/-- Structural comparison of lists of shapes. -/
def sameAll : List Shape → List Shape → Bool
  | [], [] => true
  | shape :: rest, shape' :: rest' => shape.same shape' && sameAll rest rest'
  | _, _ => false
end

mutual
/-- Shapes that compare alike are equal. -/
theorem eq_of_same {left right : Shape} (h : left.same right = true) : left = right := by
  cases left <;> cases right <;> simp_all [same]
  · exact eq_of_same h.2
  · exact eq_of_same h.2
  · exact eq_of_sameAll h.2
  · exact eq_of_sameAll h
  · exact ⟨eq_of_sameAll h.1, eq_of_sameAll h.2⟩
  · exact eq_of_sameAll h.2
  · exact eq_of_sameAll h.2
/-- Lists of shapes that compare alike are equal. -/
theorem eq_of_sameAll {left right : List Shape} (h : sameAll left right = true) : left = right := by
  cases left <;> cases right <;> simp_all [sameAll]
  exact ⟨eq_of_same h.1, eq_of_sameAll h.2⟩
end

mutual
/-- A shape compares like itself. -/
theorem same_self (shape : Shape) : shape.same shape = true := by
  cases shape <;> simp [same]
  · exact same_self _
  · exact same_self _
  · exact sameAll_self _
  · exact sameAll_self _
  · exact ⟨sameAll_self _, sameAll_self _⟩
  · exact sameAll_self _
  · exact sameAll_self _
/-- A list of shapes compares like itself. -/
theorem sameAll_self (shapes : List Shape) : sameAll shapes shapes = true := by
  cases shapes <;> simp [sameAll]
  exact ⟨same_self _, sameAll_self _⟩
end

/-- Structural comparison decides equality. -/
instance : DecidableEq Shape := fun left right =>
  decidable_of_iff (left.same right = true) ⟨eq_of_same, fun h => h ▸ same_self left⟩

/-- The keyword of an integer type. -/
def integerText (signed : Bool) (bits : Nat) : String :=
  (if signed then "int" else "uint") ++ toString bits

/-- The suffix of an array type. -/
def arraySuffix : Option Nat → String
  | none => "[]"
  | some length => s!"[{length}]"

/-- The marks of the parameters of an event: `i` for a topic, an underscore for data. -/
def topicMarks (indexed : List Bool) : String :=
  String.ofList (indexed.map fun topic => if topic then 'i' else '_')

mutual
/-- The text that names a shape in messages. -/
def identifier : Shape → String
  | .bool => "bool"
  | .address => "address"
  | .integer signed bits => integerText signed bits
  | .enumeration name memberCount => s!"enum {name}:{memberCount}"
  | .fixedBytes size => s!"bytes{size}"
  | .userDefined name underlying => s!"type {name}=" ++ underlying.identifier
  | .bytes => "bytes"
  | .string => "string"
  | .array base length => base.identifier ++ arraySuffix length
  | .struct name members => s!"struct {name}(" ++ ",".intercalate (identifiers members) ++ ")"
  | .tuple members => "(" ++ ",".intercalate (identifiers members) ++ ")"
  | .function parameters returns =>
    "function(" ++ ",".intercalate (identifiers parameters) ++ ")(" ++
      ",".intercalate (identifiers returns) ++ ")"
  | .error name parameters => s!"error {name}(" ++ ",".intercalate (identifiers parameters) ++ ")"
  | .event name parameters indexed anonymous =>
    s!"event {name}(" ++ ",".intercalate (identifiers parameters) ++ ")[" ++ topicMarks indexed ++
      "]" ++ (if anonymous then " anonymous" else "")
/-- The identifiers of several shapes. -/
def identifiers : List Shape → List String
  | [] => []
  | shape :: rest => shape.identifier :: identifiers rest
end

mutual
/-- The part of generated names that a shape gives. Different shapes may give the same fragment. -/
def fragment : Shape → String
  | .bool => "bool"
  | .address => "address"
  | .integer signed bits => integerText signed bits
  | .enumeration name _ => Identifier.sanitize name
  | .fixedBytes size => s!"bytes{size}"
  | .userDefined name _ => Identifier.sanitize name
  | .bytes => "bytes"
  | .string => "string"
  | .array base none => base.fragment ++ "_array"
  | .array base (some length) => base.fragment ++ s!"_array{length}"
  | .struct name _ => Identifier.sanitize name
  | .tuple [] => "tuple"
  | .tuple members => "tuple_" ++ "_".intercalate (fragments members)
  | .function _ _ => "function"
  | .error name _ => Identifier.sanitize name
  | .event name _ _ _ => Identifier.sanitize name
/-- The fragments of several shapes. -/
def fragments : List Shape → List String
  | [] => []
  | shape :: rest => shape.fragment :: fragments rest
end

mutual
/-- The canonical type string: enumerations are `uint8`, user-defined types their underlying type,
structs plain tuples. -/
def abiType : Shape → String
  | .bool => "bool"
  | .address => "address"
  | .integer signed bits => integerText signed bits
  | .enumeration _ _ => "uint8"
  | .fixedBytes size => s!"bytes{size}"
  | .userDefined _ underlying => underlying.abiType
  | .bytes => "bytes"
  | .string => "string"
  | .array base length => base.abiType ++ arraySuffix length
  | .struct _ members => "(" ++ ",".intercalate (abiTypes members) ++ ")"
  | .tuple members => "(" ++ ",".intercalate (abiTypes members) ++ ")"
  | .function _ _ => "function"
  | .error name parameters => name ++ "(" ++ ",".intercalate (abiTypes parameters) ++ ")"
  | .event name parameters _ _ => name ++ "(" ++ ",".intercalate (abiTypes parameters) ++ ")"
/-- The canonical type strings of several shapes. -/
def abiTypes : List Shape → List String
  | [] => []
  | shape :: rest => shape.abiType :: abiTypes rest
end

/-- Members of structs and tuples, parameters of errors and events, nothing for other shapes. -/
def members : Shape → List Shape
  | .struct _ members => members
  | .tuple members => members
  | .error _ parameters => parameters
  | .event _ parameters _ _ => parameters
  | _ => []

/-- Whether a shape is a signature that stands for no value: an error or an event. -/
def isSignature : Shape → Bool
  | .error .. | .event .. => true
  | _ => false

end Shape

end YulAbi
