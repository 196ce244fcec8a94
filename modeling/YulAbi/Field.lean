import YulAbi.GenerationError
import YulAbi.Settings
import YulAbi.Shape.Geometry

/-!
# Bit fields

A field is a range of bits inside a word, counted from the most significant end. A
left-aligned field has its value in the high bits of a word, any other one in the
low bits. Reading a field brings its bits into that position and clears the rest;
writing it replaces its bits and nothing else.
-/

namespace YulAbi

/-- Where the word that holds a field comes from. -/
inductive WordSource where
  /-- A variable. -/
  | stack
  /-- Memory, whose neighbouring bytes may be read and written back. -/
  | memory
  /-- Storage. -/
  | storage
  deriving DecidableEq, Repr

/-- The keyword of a source. -/
def WordSource.keyword : WordSource → String
  | .stack => "stack"
  | .memory => "memory"
  | .storage => "storage"

/-- A range of bits inside a word. -/
structure Field where
  /-- First bit, counted from the most significant end. -/
  bitOffset : Nat
  /-- Number of bits. -/
  bitLength : Nat
  /-- Whether values are in the high bits. -/
  leftAligned : Bool
  deriving DecidableEq, Repr

namespace Field

/-- The error for a range that does not lie inside a word. -/
def invalid {α : Type} (bitOffset bitLength : Nat) : Generated α :=
  .error (.invalidField bitOffset bitLength)

/-- A range that is not empty and lies inside a word. -/
def ofRange (bitOffset bitLength : Nat) (leftAligned : Bool) : Generated Field :=
  if bitLength ≠ 0 ∧ bitOffset + bitLength ≤ wordBits then .ok ⟨bitOffset, bitLength, leftAligned⟩
  else invalid bitOffset bitLength

/-- The number of bits below the field. -/
def shift (field : Field) : Nat := wordBits - field.bitOffset - field.bitLength

/-- The bits of the field at the low end of a word. -/
def mask (field : Field) : Word := Word.lowMask field.bitLength

/-- The bits of the field in place. -/
def inPlaceMask (field : Field) : Word := field.mask <<< field.shift

/-- The number of bits that a value does not use. -/
def unused (field : Field) : Nat := wordBits - field.bitLength

/-- The value of the field in a word. -/
def extract (field : Field) (word : Word) : Word :=
  let value := word >>> field.shift &&& field.mask
  if field.leftAligned then value <<< field.unused else value

/-- The word with another value in the field. Bits of the value that do not belong to it are
dropped. -/
def insert (field : Field) (word value : Word) : Word :=
  let low := if field.leftAligned then value >>> field.unused else value
  word &&& ~~~field.inPlaceMask ||| (low &&& field.mask) <<< field.shift

/-- Whether the field begins with a byte. -/
def startsOnByte (field : Field) : Bool := field.bitOffset % 8 == 0

/-- Whether the field ends with a byte. -/
def endsOnByte (field : Field) : Bool := (field.bitOffset + field.bitLength) % 8 == 0

end Field

end YulAbi
