/-!
# Type descriptions

A description is a tree that names a Solidity type, an error, an event or a
function signature. It is what documents and JSON interfaces carry; nothing is
checked yet, so widths and lengths may still be out of range.
-/

namespace YulAbi

/-- What a function may do to the chain state and to attached value. -/
inductive Mutability where
  /-- Reads and writes nothing. -/
  | pure
  /-- Reads state only. -/
  | view
  /-- May change state but takes no value. -/
  | nonpayable
  /-- May change state and take value. -/
  | payable
  deriving DecidableEq, Repr

namespace Mutability

/-- The lower-case keyword. -/
def keyword : Mutability → String
  | .pure => "pure"
  | .view => "view"
  | .nonpayable => "nonpayable"
  | .payable => "payable"

/-- All four, in order. -/
def all : List Mutability := [.pure, .view, .nonpayable, .payable]

/-- The keyword behind a space as it stands in a Solidity header, where the default is left out. -/
def headerSuffix : Mutability → String
  | .nonpayable => ""
  | mutability => " " ++ mutability.keyword

end Mutability

/-- A named part of a composite. -/
structure Member (α : Type) where
  /-- Name, possibly empty. -/
  name : String
  /-- Type of the part. -/
  type : α
  deriving DecidableEq

/-- A named parameter of an event. -/
structure EventParameter (α : Type) where
  /-- Name, possibly empty. -/
  name : String
  /-- Type of the parameter. -/
  type : α
  /-- Whether the parameter is a topic and not part of the data. -/
  indexed : Bool
  deriving DecidableEq

/-- A description of a type or signature. -/
inductive Description where
  /-- Truth value. -/
  | bool
  /-- Account address of 20 bytes. -/
  | address
  /-- Unsigned integer of a width in bits. -/
  | uint (bits : Nat)
  /-- Signed integer of a width in bits. -/
  | int (bits : Nat)
  /-- Enumeration; no members means that they are unknown. -/
  | enumeration (name : String) (members : List String)
  /-- Byte string of a fixed size. -/
  | fixedBytes (size : Nat)
  /-- User-defined value type. -/
  | userDefined (name : String) (underlying : Description)
  /-- Byte string of any size. -/
  | bytes
  /-- Text of any size. -/
  | string
  /-- Array; no length means that it varies. -/
  | array (base : Description) (length : Option Nat)
  /-- Named struct. -/
  | struct (name : String) (members : List (Member Description))
  /-- Unnamed tuple. -/
  | tuple (members : List (Member Description))
  /-- Function signature. -/
  | function (name : String) (parameters returns : List (Member Description)) (mutability : Mutability)
  /-- Error signature. -/
  | error (name : String) (parameters : List (Member Description))
  /-- Event signature. -/
  | event (name : String) (parameters : List (EventParameter Description)) (anonymous : Bool)

namespace Description

/-- Whether the type is built into the language and has no parts. -/
def isElementary : Description → Bool
  | .bool | .address | .uint _ | .int _ | .fixedBytes _ | .bytes | .string => true
  | _ => false

end Description

end YulAbi
