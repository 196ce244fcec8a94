import YulAbi.Interface
import YulAbi.Shape

/-!
# Source types

The types of parameters as the source of a contract has them, and what the compiler writes for each into a JSON
interface: a type string, the components of tuples and an annotation with the source type. Enumerations are
written as `uint8`, user-defined types as their underlying type and structs as `tuple`, so that the names are in the
annotations only. The suffixes of arrays stand behind both texts.
-/

namespace YulAbi

namespace Interface

/-- Whether a text is an identifier: letters, digits, underscores and dollar signs, with no digit in front. -/
def isIdentifier (name : String) : Bool :=
  match name.toList with
  | [] => false
  | first :: rest =>
    !Numeral.isDigit first && (first :: rest).all fun char => Identifier.isPlain char || char == '$'

/-- The keywords of the elementary types. -/
def typeKeywords : List String :=
  ["bool", "address", "string", "bytes", "uint", "int", "function"] ++ (List.range 32).flatMap fun index =>
    [Shape.integerText false (8 * (index + 1)), Shape.integerText true (8 * (index + 1)), s!"bytes{index + 1}"]

/-- Whether a source may declare a name. -/
def isDeclarable (name : String) : Bool := isIdentifier name && !typeKeywords.contains name

/-- A name that a source may declare. -/
abbrev DeclaredName := {name : String // isDeclarable name = true}

/-- A number of bytes that fits a word. -/
abbrev ByteCount := {count : Nat // 1 ≤ count ∧ count ≤ 32}

/-- The length of a fixed array: a positive number of 64 bits. -/
abbrev ArrayLength := {length : Nat // 0 < length ∧ length ≤ 0xffffffffffffffff}

/-- An elementary type whose values fit a word. -/
inductive ValueType where
  /-- Truth value. -/
  | bool
  /-- Account address. -/
  | address
  /-- Integer of a number of bytes, with a sign or without one. -/
  | integer (signed : Bool) (bytes : ByteCount)
  /-- Byte string of a fixed size. -/
  | fixedBytes (size : ByteCount)

/-- An elementary type. -/
inductive ElementaryType where
  /-- A type whose values fit a word. -/
  | value (type : ValueType)
  /-- Byte string of any size. -/
  | bytes
  /-- Text of any size. -/
  | string

mutual
/-- A type in a source, with what an annotation may tell about it. -/
inductive SourceType where
  /-- An elementary type, which may be annotated with itself. -/
  | elementary (type : ElementaryType) (annotated : Bool)
  /-- The address of an account that takes value. -/
  | payableAddress
  /-- The address of a contract. -/
  | contract (name : DeclaredName)
  /-- An enumeration, declared in a contract or library or outside of them. -/
  | enumeration (scope : Option DeclaredName) (name : DeclaredName)
  /-- A user-defined type. -/
  | userDefined (scope : Option DeclaredName) (name : DeclaredName) (underlying : ValueType)
  /-- A struct. -/
  | struct (scope : Option DeclaredName) (name : DeclaredName) (members : SourceMembers)
  /-- An unnamed tuple, which may be annotated with itself. -/
  | tuple (annotated : Bool) (members : SourceMembers)
  /-- An array; no length means that it varies. -/
  | array (base : SourceType) (length : Option ArrayLength)
/-- The members of a struct or tuple, at least one. -/
inductive SourceMembers where
  /-- The last member. -/
  | last (name : String) (type : SourceType)
  /-- A member in front of others. -/
  | more (name : String) (type : SourceType) (rest : SourceMembers)
end

/-- The keyword of a type whose values fit a word. -/
def ValueType.text : ValueType → String
  | .bool => "bool"
  | .address => "address"
  | .integer signed bytes => Shape.integerText signed (8 * bytes.val)
  | .fixedBytes size => s!"bytes{size.val}"

/-- The description of a type whose values fit a word. -/
def ValueType.description : ValueType → Description
  | .bool => .bool
  | .address => .address
  | .integer signed bytes => if signed then .int (8 * bytes.val) else .uint (8 * bytes.val)
  | .fixedBytes size => .fixedBytes size.val

/-- The keyword of an elementary type. -/
def ElementaryType.text : ElementaryType → String
  | .value type => type.text
  | .bytes => "bytes"
  | .string => "string"

/-- The description of an elementary type. -/
def ElementaryType.description : ElementaryType → Description
  | .value type => type.description
  | .bytes => .bytes
  | .string => .string

/-- A name behind that of the contract or library that declares it. -/
def qualified (scope : Option DeclaredName) (name : DeclaredName) : String :=
  match scope with
  | none => name.val
  | some scope => scope.val ++ "." ++ name.val

namespace SourceType

/-- The suffix of an array type. -/
def suffix (length : Option ArrayLength) : String := Shape.arraySuffix (length.map Subtype.val)

/-- The type string. -/
def typeText : SourceType → String
  | .elementary type _ => type.text
  | .payableAddress | .contract _ => "address"
  | .enumeration .. => "uint8"
  | .userDefined _ _ underlying => underlying.text
  | .struct .. | .tuple .. => "tuple"
  | .array base length => base.typeText ++ suffix length

/-- The annotation with the source type. -/
def internalType : SourceType → Option String
  | .elementary type annotated => if annotated then some type.text else none
  | .payableAddress => some "address payable"
  | .contract name => some ("contract " ++ name.val)
  | .enumeration scope name => some ("enum " ++ qualified scope name)
  | .userDefined scope name _ => some (qualified scope name)
  | .struct scope name _ => some ("struct " ++ qualified scope name)
  | .tuple annotated _ => if annotated then some "tuple" else none
  | .array base length => base.internalType.map (· ++ suffix length)

end SourceType

mutual
/-- The components: the members of the innermost tuple. -/
def SourceType.components : SourceType → List Parameter
  | .struct _ _ members | .tuple _ members => members.parameters
  | .array base _ => base.components
  | _ => []
/-- The members as they are written. -/
def SourceMembers.parameters : SourceMembers → List Parameter
  | .last name type => [.mk name type.typeText type.components type.internalType false]
  | .more name type rest => .mk name type.typeText type.components type.internalType false :: rest.parameters
end

mutual
/-- What a source type is, qualifications and annotations apart. -/
def SourceType.description : SourceType → Description
  | .elementary type _ => type.description
  | .payableAddress | .contract _ => .address
  | .enumeration _ name => .enumeration name.val []
  | .userDefined _ name underlying => .userDefined name.val underlying.description
  | .struct _ name members => .struct name.val members.descriptions
  | .tuple _ members => .tuple members.descriptions
  | .array base length => .array base.description (length.map Subtype.val)
/-- What the members are. -/
def SourceMembers.descriptions : SourceMembers → List (Member Description)
  | .last name type => [⟨name, type.description⟩]
  | .more name type rest => ⟨name, type.description⟩ :: rest.descriptions
end

end Interface

namespace Description

open Interface

/-- Whether values of an elementary type fit a word. -/
def isValue : Description → Bool
  | .bool | .address | .uint _ | .int _ | .fixedBytes _ => true
  | _ => false

mutual
/-- Whether a source may have a parameter of a type: widths, sizes and lengths are in range, names may be declared,
composites have members, and those of enumerations are unknown. -/
def isExpressible : Description → Bool
  | .bool | .address | .bytes | .string => true
  | .uint bits | .int bits => 8 ≤ bits && bits ≤ 256 && bits % 8 == 0
  | .fixedBytes size => 1 ≤ size && size ≤ 32
  | .enumeration name members => isDeclarable name && members.isEmpty
  | .userDefined name underlying => isDeclarable name && underlying.isValue && underlying.isExpressible
  | .array base length => base.isExpressible && length.all fun count => 0 < count && count ≤ 0xffffffffffffffff
  | .struct name members => isDeclarable name && !members.isEmpty && areExpressible members
  | .tuple members => !members.isEmpty && areExpressible members
  | .function .. | .error .. | .event .. => false
/-- Whether a source may have members of such types. -/
def areExpressible : List (Member Description) → Bool
  | [] => true
  | ⟨_, type⟩ :: rest => type.isExpressible && areExpressible rest
end

end Description

end YulAbi
