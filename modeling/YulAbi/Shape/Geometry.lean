import YulAbi.GenerationError
import YulAbi.Shape

/-!
# Sizes and offsets

How large the values of a shape are and where their parts lie: encoded as call
data (heads and tails, in bytes), in memory (one word for each part, in bytes),
and packed (in bits from the most significant end). A size that a shape does not
have is an error and never a guess; products beyond 64 bits are errors too.
-/

namespace YulAbi

/-- The layout that an offset refers to. -/
inductive Regime where
  /-- Heads and tails of call data, in bytes. -/
  | calldata
  /-- One word for each part, in bytes. -/
  | memory
  /-- Fields side by side, in bits. -/
  | packed
  deriving DecidableEq, Repr

/-- The number of bytes in a word. -/
def wordBytes : Nat := 32

/-- The number of bits in a word. -/
def wordBits : Nat := 256

/-- The bits that tell the members of an enumeration apart, at least one. -/
def enumerationBits (memberCount : Nat) : Nat := (max memberCount 2 - 1).log2 + 1

namespace Shape

/-- Whether values are a single word. -/
def isValueType : Shape → Bool
  | .bool | .address | .integer .. | .enumeration .. | .fixedBytes _ | .userDefined .. | .function .. => true
  | _ => false

/-- Whether values live in memory behind a pointer. Errors and events are neither values nor
references. -/
def isReferenceType : Shape → Bool
  | .bytes | .string | .array .. | .struct .. | .tuple _ => true
  | _ => false

/-- Whether values are raw bytes behind a length word. -/
def isBytesLike : Shape → Bool
  | .bytes | .string => true
  | _ => false

/-- Whether the significant bits are at the high end of the word. -/
def isLeftAligned : Shape → Bool
  | .fixedBytes _ => true
  | .function .. => true
  | .userDefined _ underlying => underlying.isLeftAligned
  | _ => false

/-- Whether values are sign-extended. -/
def isSigned : Shape → Bool
  | .integer signed _ => signed
  | .userDefined _ underlying => underlying.isSigned
  | _ => false

/-- Whether the number of parts varies. -/
def isDynamicallySized : Shape → Bool
  | .bytes | .string | .array _ none => true
  | _ => false

mutual
/-- Whether the encoding has a tail behind an offset. -/
def isDynamicallyEncoded : Shape → Bool
  | .bytes => true
  | .string => true
  | .array _ none => true
  | .array base (some _) => base.isDynamicallyEncoded
  | .struct _ members => anyDynamicallyEncoded members
  | .tuple members => anyDynamicallyEncoded members
  | .error _ parameters => anyDynamicallyEncoded parameters
  | .event _ parameters _ _ => anyDynamicallyEncoded parameters
  | _ => false
/-- Whether any of several shapes is encoded dynamically. -/
def anyDynamicallyEncoded : List Shape → Bool
  | [] => false
  | shape :: rest => shape.isDynamicallyEncoded || anyDynamicallyEncoded rest
end

/-- The error for a size that the shape does not have. -/
def undefinedSize {α : Type} (shape : Shape) (query : SizeQuery) : Generated α :=
  .error (.undefinedSize shape.identifier query)

/-- A product that must fit 64 bits. -/
def checkedProduct (shape : Shape) (left right : Nat) : Generated Nat :=
  if left * right < 0x10000000000000000 then .ok (left * right)
  else .error (.invalidType (.sizeOverflow shape.identifier))

mutual
/-- The size of a static encoding. -/
def encodedSize (shape : Shape) : Generated Nat :=
  if shape.isDynamicallyEncoded then shape.undefinedSize .encodedSize
  else
    match shape with
    | .array base (some length) => do checkedProduct (.array base (some length)) length (← base.encodedSize)
    | .struct _ members => encodedSizeSum members
    | .tuple members => encodedSizeSum members
    | .error _ parameters => encodedSizeSum parameters
    | .event _ parameters _ _ => encodedSizeSum parameters
    | _ => .ok wordBytes
/-- The total size of static encodings. -/
def encodedSizeSum : List Shape → Generated Nat
  | [] => .ok 0
  | shape :: rest => do
    let size ← shape.encodedSize
    let others ← encodedSizeSum rest
    return size + others
end

/-- The size of the head: one word for a dynamic encoding, the whole encoding otherwise. -/
def headSize (shape : Shape) : Generated Nat :=
  if shape.isDynamicallyEncoded then .ok wordBytes else shape.encodedSize

/-- The total size of heads. -/
def headSizeSum : List Shape → Generated Nat
  | [] => .ok 0
  | shape :: rest => do
    let size ← shape.headSize
    let others ← headSizeSum rest
    return size + others

/-- The size of the fixed part of a dynamic encoding: the length word of what varies in size, the
heads of elements or members otherwise. -/
def tailSize (shape : Shape) : Generated Nat :=
  if shape.isDynamicallyEncoded then
    match shape with
    | .bytes | .string | .array _ none => .ok wordBytes
    | .array base (some length) => do checkedProduct shape length (← base.headSize)
    | .struct _ members => headSizeSum members
    | .tuple members => headSizeSum members
    | .error _ parameters => headSizeSum parameters
    | .event _ parameters _ _ => headSizeSum parameters
    | _ => shape.undefinedSize .encodedTailSize
  else shape.undefinedSize .encodedTailSize

/-- The size of a part of a composite in memory: a value or a pointer, always one word. -/
def memoryHeadSize (_ : Shape) : Nat := wordBytes

/-- The size of the memory that a value owns directly. -/
def memorySize (shape : Shape) : Generated Nat :=
  match shape with
  | .bytes | .string | .array _ none => shape.undefinedSize .memorySize
  | .array _ (some length) => shape.checkedProduct length wordBytes
  | .struct _ members => .ok (members.length * wordBytes)
  | .tuple members => .ok (members.length * wordBytes)
  | .error _ parameters => .ok (parameters.length * wordBytes)
  | .event _ parameters _ _ => .ok (parameters.length * wordBytes)
  | _ => .ok wordBytes

mutual
/-- The memory that a value owns together with all its parts. -/
def extendedMemorySize : Shape → Generated Nat
  | .array base (some length) => do
    let own ← memorySize (.array base (some length))
    if base.isReferenceType then
      let nested ← checkedProduct (.array base (some length)) length (← base.extendedMemorySize)
      return own + nested
    else return own
  | .struct name members => do
    let own ← memorySize (.struct name members)
    let nested ← extendedMemorySizeSum members
    return own + nested
  | .tuple members => do
    let own ← memorySize (.tuple members)
    let nested ← extendedMemorySizeSum members
    return own + nested
  | .error name parameters => do
    let own ← memorySize (.error name parameters)
    let nested ← extendedMemorySizeSum parameters
    return own + nested
  | .event name parameters indexed anonymous => do
    let own ← memorySize (.event name parameters indexed anonymous)
    let nested ← extendedMemorySizeSum parameters
    return own + nested
  | shape => memorySize shape
/-- The total memory of the references among several shapes. -/
def extendedMemorySizeSum : List Shape → Generated Nat
  | [] => .ok 0
  | shape :: rest => do
    if shape.isReferenceType then
      let size ← shape.extendedMemorySize
      let others ← extendedMemorySizeSum rest
      return size + others
    else extendedMemorySizeSum rest
end

/-- The distance between the heads of two elements. -/
def callStride : Shape → Generated Nat
  | .array base _ => base.headSize
  | shape => shape.undefinedSize .callStride

/-- The distance between two elements in memory. -/
def memoryStride : Shape → Generated Nat
  | .array base _ => .ok base.memoryHeadSize
  | shape => shape.undefinedSize .memoryStride

/-- Where the next field of a width starts when the bits below `cursor` are taken: a field that
would straddle two words starts at the next word. -/
def nextFieldStart (cursor width : Nat) : Nat :=
  let used := cursor % wordBits
  if used ≠ 0 ∧ wordBits < used + width then cursor + (wordBits - used) else cursor

/-- The end of the last of fields with the given widths, from `cursor` on. -/
def packedEnd (cursor : Nat) (widths : List Nat) : Nat :=
  widths.foldl (fun cursor width => nextFieldStart cursor width + width) cursor

mutual
/-- The width in bits without padding. For composites it is the end of the packed layout. -/
def exactBits : Shape → Generated Nat
  | .bool => .ok 8
  | .address => .ok 160
  | .integer _ bits => .ok bits
  | .enumeration _ memberCount => .ok (enumerationBits memberCount)
  | .fixedBytes size => .ok (size * 8)
  | .userDefined _ underlying => underlying.exactBits
  | .function .. => .ok 192
  | .array base (some length) =>
    if base.isDynamicallyEncoded then undefinedSize (.array base (some length)) .exactBits
    else do
      let width ← base.exactBits
      return packedEnd 0 (List.replicate length width)
  | .struct name members =>
    if anyDynamicallyEncoded members then undefinedSize (.struct name members) .exactBits
    else do return packedEnd 0 (← exactBitsAll members)
  | .tuple members =>
    if anyDynamicallyEncoded members then undefinedSize (.tuple members) .exactBits
    else do return packedEnd 0 (← exactBitsAll members)
  | shape => shape.undefinedSize .exactBits
/-- The widths of several shapes. -/
def exactBitsAll : List Shape → Generated (List Nat)
  | [] => .ok []
  | shape :: rest => do
    let width ← shape.exactBits
    let widths ← exactBitsAll rest
    return width :: widths
end

/-- The widths of the elements or members of a composite of fixed size. -/
def partWidths : Shape → Generated (List Nat)
  | .array base (some length) => do return List.replicate length (← base.exactBits)
  | .struct _ members => exactBitsAll members
  | .tuple members => exactBitsAll members
  | shape => shape.undefinedSize .packedLayout

/-- The bit offset of one part of a composite of fixed size. -/
def packedOffset (shape : Shape) (index : Nat) : Generated Nat := do
  let widths ← shape.partWidths
  let before := packedEnd 0 (widths.take index)
  return nextFieldStart before (widths[index]?.getD 0)

mutual
/-- The number of reference levels, the shape itself included. -/
def nestedReferences : Shape → Nat
  | .bytes => 1
  | .string => 1
  | .array base _ => 1 + base.nestedReferences
  | .struct _ members => 1 + nestedReferencesSum members
  | .tuple members => 1 + nestedReferencesSum members
  | .error _ parameters => nestedReferencesSum parameters
  | .event _ parameters _ _ => nestedReferencesSum parameters
  | _ => 0
/-- The total number of reference levels of several shapes. -/
def nestedReferencesSum : List Shape → Nat
  | [] => 0
  | shape :: rest => shape.nestedReferences + nestedReferencesSum rest
end

mutual
/-- The number of levels that vary in size, the shape itself included. -/
def nestedDynamics : Shape → Nat
  | .bytes => 1
  | .string => 1
  | .array base none => 1 + base.nestedDynamics
  | .array base (some _) => base.nestedDynamics
  | .struct _ members => nestedDynamicsSum members
  | .tuple members => nestedDynamicsSum members
  | .error _ parameters => nestedDynamicsSum parameters
  | .event _ parameters _ _ => nestedDynamicsSum parameters
  | _ => 0
/-- The total number of varying levels of several shapes. -/
def nestedDynamicsSum : List Shape → Nat
  | [] => 0
  | shape :: rest => shape.nestedDynamics + nestedDynamicsSum rest
end

/-- The error for a part that a shape does not have. -/
def unknownPart {α : Type} (shape : Shape) (index : Nat) : Generated α :=
  .error (.unknownMember shape.identifier s!"#{index}")

/-- The offset of a member of a struct or tuple with the given members. -/
def compositeOffset (owner : Shape) (members : List Shape) (index : Nat) (regime : Regime) :
    Generated Nat :=
  if index < members.length then
    match regime with
    | .calldata => headSizeSum (members.take index)
    | .memory => .ok (index * wordBytes)
    | .packed => owner.packedOffset index
  else owner.unknownPart index

/-- The offset of an element of an array, behind the length word of one that varies in size. -/
def elementOffset (array base : Shape) (length : Option Nat) (index : Nat) (regime : Regime) :
    Generated Nat :=
  if length.any (· ≤ index) then array.unknownPart index
  else
    match regime with
    | .calldata => do array.checkedProduct index (← base.headSize)
    | .memory => array.checkedProduct index base.memoryHeadSize
    | .packed => array.packedOffset index

/-- The offset of a part relative to the first one. -/
def memberOffset (shape : Shape) (index : Nat) (regime : Regime) : Generated Nat :=
  match shape with
  | .struct _ members => shape.compositeOffset members index regime
  | .tuple members => shape.compositeOffset members index regime
  | .array base length => shape.elementOffset base length index regime
  | .userDefined .. => if index = 0 then .ok 0 else shape.undefinedSize .memberOffset
  | .error _ parameters => compositeOffset (.tuple parameters) parameters index regime
  | .event _ parameters _ _ => compositeOffset (.tuple parameters) parameters index regime
  | _ => shape.undefinedSize .memberOffset

/-- The size of the region of encoded heads of a composite of fixed length, static parts included. -/
def headRegion (shape : Shape) : Generated Nat :=
  let size := fun composite : Shape =>
    if composite.isDynamicallyEncoded then composite.tailSize else composite.encodedSize
  match shape with
  | .struct .. | .tuple _ | .array _ (some _) => size shape
  | .error _ parameters => size (.tuple parameters)
  | .event _ parameters _ _ => size (.tuple parameters)
  | _ => shape.undefinedSize .headRegion

end Shape

end YulAbi
