/-!
# Documents

The tree that the JSON and YAML readers share. Reading a typed value out of a
document either succeeds or refuses; no reason is kept. A record is read field
by field: unknown fields are ignored and a known field may stand only once. What is
ignored must be well formed but needs no value, so a part without one is kept as such.
-/

namespace YulAbi

/-- A structured document, before it is read as a value of some type. -/
inductive Document where
  /-- The absent value. -/
  | null
  /-- A truth value. -/
  | bool (value : Bool)
  /-- A number written without fraction and exponent. -/
  | integer (value : Int)
  /-- Any other number. -/
  | float (value : Float)
  /-- Quoted text. -/
  | text (value : String)
  /-- An unquoted scalar, whose meaning depends on what is read from it. -/
  | plain (value : String)
  /-- A sequence; `positional` tells whether it may stand for a record whose
  fields are given in declaration order. -/
  | list (positional : Bool) (items : List Document)
  /-- Named fields in the order in which they are written. -/
  | record (fields : List (String × Document))
  /-- A well-formed part that has no value: text with half a pair of surrogates, a number out of
  range, or a collection that is nested too deep. -/
  | unreadable

namespace Document

mutual
/-- The number of nested levels, one for a scalar. -/
def depth : Document → Nat
  | .list _ items => depthOfItems items + 1
  | .record fields => depthOfFields fields + 1
  | _ => 1
/-- The greatest depth among items, zero when there are none. -/
def depthOfItems : List Document → Nat
  | [] => 0
  | item :: rest => max item.depth (depthOfItems rest)
/-- The greatest depth among field values, zero when there are none. -/
def depthOfFields : List (String × Document) → Nat
  | [] => 0
  | (_, value) :: rest => max value.depth (depthOfFields rest)
end

mutual
/-- Whether every part has a value. -/
def isReadable : Document → Bool
  | .list _ items => areReadable items
  | .record fields => fieldsAreReadable fields
  | .unreadable => false
  | _ => true
/-- Whether every part of every item has a value. -/
def areReadable : List Document → Bool
  | [] => true
  | item :: rest => item.isReadable && areReadable rest
/-- Whether every part of every field has a value. -/
def fieldsAreReadable : List (String × Document) → Bool
  | [] => true
  | (_, value) :: rest => value.isReadable && fieldsAreReadable rest
end

/-- A sequence as JSON writes it. -/
abbrev array (items : List Document) : Document := .list true items

/-- A collection that has a value as long as levels are left. -/
def within (levels : Nat) (collection : Document) : Document :=
  if levels = 0 then .unreadable else collection

/-- The record of named fields; it has no value if one of the names has none. -/
def recordOf (fields : List (Option String × Document)) : Document :=
  match fields.mapM fun field => field.1.map fun name => (name, field.2) with
  | some named => .record named
  | none => .unreadable

/-- A number without sign. -/
abbrev natural (value : Nat) : Document := .integer (Int.ofNat value)

/-- The value of a field by its name, the first one if the name stands twice. -/
def field? (name : String) : Document → Option Document
  | .record fields => (fields.find? fun entry => entry.1 == name).map Prod.snd
  | _ => none

end Document

end YulAbi
