import YulAbi.Machine.Fault
import YulAbi.Shape.Geometry
import YulAbi.Value

/-!
# Encoding of values

The encoding of a value by the rules of the ABI, written without any routine: a word
for value types, length and padded content for bytes, and heads followed by tails
for everything else. The head of a part that is encoded dynamically is the offset
of its tail from the start of the sequence.
-/

namespace YulAbi

namespace Value

/-- The error for a value that does not fit its type. -/
def mismatch {α : Type} (shape : Shape) (flaw : ValueFlaw) : Except Fault α :=
  .error (.shapeMismatch shape.identifier flaw)

/-- The word of a value of a value type. -/
def requireWord (shape : Shape) : Value → Except Fault Word
  | .word value => .ok value
  | value => mismatch shape (.notAWord value.kind)

/-- Whether a number of elements fits the length of an array. -/
def requireElements (shape : Shape) (length : Option Nat) (elements : List Value) : Except Fault Unit :=
  match length with
  | some expected =>
    if elements.length = expected then .ok () else mismatch shape (.elementCount expected elements.length)
  | none => .ok ()

/-- Whether there is one value for each member. -/
def requireMembers (shape : Shape) (count : Nat) (members : List Value) : Except Fault Unit :=
  if members.length = count then .ok () else mismatch shape (.memberCount count members.length)

/-- The number of zeros that fill up the last word. -/
def padding (size : Nat) : Nat := (size + 31) / 32 * 32 - size

/-- The encoding of bytes. -/
def encodeBytes (content : List UInt8) : List UInt8 :=
  Word.toBytes (Word.ofNat content.length) ++ content ++ List.replicate (padding content.length) 0

/-- The length word of arrays that vary in size. -/
def lengthWord (length : Option Nat) (count : Nat) : List UInt8 :=
  match length with
  | none => Word.toBytes (Word.ofNat count)
  | some _ => []

/-- Heads and tails of encoded parts, each with a mark for dynamic encodings, when the next tail
begins at `offset`. -/
def headsAndTails (offset : Nat) : List (Bool × List UInt8) → List UInt8 × List UInt8
  | [] => ([], [])
  | (false, encoding) :: rest =>
    let (heads, tails) := headsAndTails offset rest
    (encoding ++ heads, tails)
  | (true, encoding) :: rest =>
    let (heads, tails) := headsAndTails (offset + encoding.length) rest
    (Word.toBytes (Word.ofNat offset) ++ heads, encoding ++ tails)

/-- The encoding of a sequence of encoded parts whose heads take `headSize` bytes. -/
def assemble (headSize : Nat) (parts : List (Bool × List UInt8)) : List UInt8 :=
  let (heads, tails) := headsAndTails headSize parts
  heads ++ tails

/-- A size, whose absence is a fault. -/
def requireSize (size : Generated Nat) : Except Fault Nat :=
  match size with
  | .ok value => .ok value
  | .error cause => .error (.generation cause)

/-- The size of the heads of several elements of one shape. -/
def elementHeads (base : Shape) (count : Nat) : Except Fault Nat :=
  if count = 0 then .ok 0 else do return count * (← requireSize base.headSize)

mutual
/-- The encoding of a value as a value of a shape. -/
def encodeAs : Shape → Value → Except Fault (List UInt8)
  | .bytes, .bytes content => .ok (encodeBytes content)
  | .string, .bytes content => .ok (encodeBytes content)
  | .array base length, .array elements => do
    requireElements (.array base length) length elements
    let headSize ← elementHeads base elements.length
    let parts ← elements.mapM fun element => do
      return (base.isDynamicallyEncoded, ← encodeAs base element)
    return lengthWord length elements.length ++ assemble headSize parts
  | .struct name shapes, .tuple members => do
    requireMembers (.struct name shapes) shapes.length members
    let headSize ← requireSize (Shape.headSizeSum shapes)
    return assemble headSize (← encodeEach shapes members)
  | .tuple shapes, .tuple members => do
    requireMembers (.tuple shapes) shapes.length members
    let headSize ← requireSize (Shape.headSizeSum shapes)
    return assemble headSize (← encodeEach shapes members)
  | shape, value =>
    if shape.isValueType then do return Word.toBytes (← requireWord shape value)
    else mismatch shape (.wrongKind value.kind)
/-- The encodings of several values with their marks. -/
def encodeEach : List Shape → List Value → Except Fault (List (Bool × List UInt8))
  | shape :: shapes, value :: values => do
    let encoding ← encodeAs shape value
    return (shape.isDynamicallyEncoded, encoding) :: (← encodeEach shapes values)
  | _, _ => .ok []
end

end Value

end YulAbi
