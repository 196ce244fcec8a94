import YulAbi.Codec.Decoder
import YulAbi.Proofs.Shape.Size
import YulAbi.Proofs.Yul.Execution

/-!
# What decoders do

The steps that the decoder of a shape takes on a machine, apart from variables, budgets
and the form of the code: `decodeAt` reads the value whose encoding is at an address
and answers with the word that stands for it. How many references a segment may bridge
is a parameter; everything else follows the shape.
-/

namespace YulAbi.Codec

/-- The address of the free memory pointer. -/
def freeSlot : Word := FixedConstant.freePointerSlot.value

/-- The greatest length that is accepted where lengths are checked. -/
def maxLength : Word := FixedConstant.maxLength.value

/-- The bytes that a length word and padded content take. -/
def paddedExtent (length : Word) : Word := (length + 63#256) &&& ~~~31#256

/-- The bytes that a length word and as many words take. -/
def wordsExtent (length : Word) : Word := (length + 1#256) * 32#256

/-- The bytes that the tail of an element takes, given its length word. -/
def tailExtent (element : Shape) : Word → Word :=
  if element.isBytesLike then paddedExtent else wordsExtent

/-- The word of an index in a sequence of words. -/
def wordSlot (head index : Word) : Word := head + index * 32#256

/-- The size of the length word in front of an array. -/
def leadSize : Option Nat → Word
  | none => 32#256
  | some _ => 0#256

/-- The number of elements of an encoded array. -/
def countAt (length : Option Nat) (source : Word) : MachineStep Word :=
  match length with
  | none => Machine.calldataload source
  | some count => pure (Word.ofNat count)

/-- Stores the number of elements in front of an array that varies in size. -/
def storeCount (length : Option Nat) (target count : Word) : MachineStep Unit :=
  match length with
  | none => Machine.mstore target count
  | some _ => pure ()

/-- Copies a piece of call data to fresh memory. -/
def decodeCopy (extent : Word → MachineStep Word) (source : Word) : MachineStep Word := do
  let target ← Machine.mload freeSlot
  let size ← extent source
  Machine.calldatacopy target source size
  Machine.mstore freeSlot (target + size)
  return target

/-- The bytes that encoded bytes take. -/
def bytesExtentAt (source : Word) : MachineStep Word := do
  return paddedExtent (← Machine.calldataload source)

/-- The bytes that an encoded array of words takes. -/
def wordsExtentAt (length : Option Nat) (source : Word) : MachineStep Word :=
  match length with
  | none => do return wordsExtent (← Machine.calldataload source)
  | some count => pure (Word.ofNat (count * wordBytes))

/-- Copies static elements in one go and stores a pointer to each of them. -/
def decodeStaticTail (length : Option Nat) (element : Word) (source : Word) : MachineStep Word := do
  let target ← Machine.mload freeSlot
  let count ← countAt length source
  storeCount length target count
  let head := target + leadSize length
  let tail := head + count * 32#256
  let size := count * element
  Machine.calldatacopy tail (source + leadSize length) size
  Machine.mstore freeSlot (tail + size)
  Machine.rounds (fun index _ => Machine.mstore (wordSlot head index) (tail + index * element))
    count.toNat 0#256 ()
  return target

/-- Checks the offset and the length of one element, and answers where the next tail begins. -/
def checkTail (extent : Word → Word) (callHead index tailOffset : Word) : MachineStep Word := do
  let offset ← Machine.calldataload (wordSlot callHead index)
  Machine.refuseIf (Word.ofBool (offset != tailOffset))
  let length ← Machine.calldataload (callHead + offset)
  Machine.refuseIf (Word.ofBool (maxLength < length))
  return tailOffset + extent length

/-- Turns the offset of one element into a pointer. -/
def linkTail (head index : Word) : MachineStep Unit := do
  let offset ← Machine.mload (wordSlot head index)
  Machine.mstore (wordSlot head index) (head + offset)

/-- Reverts for a length of an array that varies in size if it is too great. -/
def checkCount (length : Option Nat) (count : Word) : MachineStep Unit :=
  match length with
  | none => Machine.refuseIf (Word.ofBool (maxLength < count))
  | some _ => pure ()

/-- Checks that the tails of elements are laid out one behind the other, copies everything in one go
and turns the offsets into pointers. -/
def decodeDynamicTail (length : Option Nat) (extent : Word → Word) (source : Word) :
    MachineStep Word := do
  let target ← Machine.mload freeSlot
  let count ← countAt length source
  checkCount length count
  let callHead := source + leadSize length
  let tailOffset ← Machine.rounds (checkTail extent callHead) count.toNat 0#256 (count * 32#256)
  let size := tailOffset + leadSize length
  let total ← Machine.calldatasize
  Machine.refuseIf (Word.ofBool (total < source + size))
  Machine.calldatacopy target source size
  Machine.mstore freeSlot (target + size)
  Machine.rounds (fun index _ => linkTail (target + leadSize length) index) count.toNat 0#256 ()
  return target

/-- The address of an encoded part: in place, or behind the offset in its head. -/
def partAt (dynamic : Bool) (base slot : Word) : MachineStep Word :=
  if dynamic then do return base + (← Machine.calldataload slot) else pure slot

/-- Decodes elements one by one. -/
def decodeSeparate (length : Option Nat) (base : Shape) (decodeElement : Word → MachineStep Word)
    (source : Word) : MachineStep Word := do
  let target ← Machine.mload freeSlot
  let count ← countAt length source
  storeCount length target count
  let head := target + leadSize length
  let callHead := source + leadSize length
  Machine.mstore freeSlot (head + count * 32#256)
  Machine.rounds (fun index _ => do
      let element ← partAt base.isDynamicallyEncoded callHead
        (callHead + index * Word.ofNat base.headBytes)
      let word ← decodeElement element
      Machine.mstore (wordSlot head index) word)
    count.toNat 0#256 ()
  return target

/-- Copies the heads of one segment. -/
def decodeSegment (members : List Shape) (target source : Word) (segment : Segment) :
    MachineStep Unit := do
  let start := source + Word.ofNat (Shape.headBytesSum (members.take segment.start))
  let stop := target + Word.ofNat (segment.start * wordBytes)
  if segment.length = 1 then
    let word ← Machine.calldataload start
    Machine.mstore stop word
  else Machine.calldatacopy stop start (Word.ofNat segment.byteLength)

/-- Copies the heads of segments in order. -/
def decodeSegments (members : List Shape) (target source : Word) : List Segment → MachineStep Unit
  | [] => pure ()
  | segment :: rest => do
    decodeSegment members target source segment
    decodeSegments members target source rest

/-- The segments of a struct or tuple, whose absence is a fault. -/
def segmentsOf (cap : Nat) (shape : Shape) : Except Fault (List Segment) :=
  match shape.segmentation cap with
  | .ok segmentation => .ok segmentation.segments
  | .error cause => .error (.generation cause)

/-- Allocates the memory of a struct or tuple, copies its segments and decodes its references. -/
def decodeComposite (segments : Except Fault (List Segment)) (members : List Shape)
    (decodeReferences : Word → Word → MachineStep Unit) (source : Word) : MachineStep Word := do
  let runs ← Machine.check segments
  let target ← Machine.mload freeSlot
  Machine.mstore freeSlot (target + Word.ofNat (members.length * wordBytes))
  decodeSegments members target source runs
  decodeReferences source target
  return target

/-- A struct or tuple is decoded once it has been split. -/
theorem decodeComposite_ok (runs : List Segment) (members : List Shape)
    (decodeReferences : Word → Word → MachineStep Unit) (source : Word) :
    decodeComposite (.ok runs) members decodeReferences source = (do
      let target ← Machine.mload freeSlot
      Machine.mstore freeSlot (target + Word.ofNat (members.length * wordBytes))
      decodeSegments members target source runs
      decodeReferences source target
      return target) := rfl

mutual
/-- Decodes the value of a shape whose encoding is at an address. -/
def decodeAt (cap : Nat) : Shape → Word → MachineStep Word
  | .bytes, source => decodeCopy bytesExtentAt source
  | .string, source => decodeCopy bytesExtentAt source
  | .array base length, source =>
    match base.elementStrategy with
    | .valueInline => decodeCopy (wordsExtentAt length) source
    | .combinedStaticTail => decodeStaticTail length (Word.ofNat base.staticBytes) source
    | .combinedDynamicTail => decodeDynamicTail length (tailExtent base) source
    | .separateTail => decodeSeparate length base (decodeAt cap base) source
  | .struct name members, source =>
    decodeComposite (segmentsOf cap (.struct name members)) members
      (fun source target => decodeParts cap target source 0 0 members) source
  | .tuple members, source =>
    decodeComposite (segmentsOf cap (.tuple members)) members
      (fun source target => decodeParts cap target source 0 0 members) source
  | _, source => Machine.calldataload source
/-- Decodes the references among members, the first of which has an index and the offset of its
head. -/
def decodeParts (cap : Nat) (target source : Word) (index callOffset : Nat) :
    List Shape → MachineStep Unit
  | [] => pure ()
  | member :: rest => do
    if member.isReferenceType then
      let part ← partAt member.isDynamicallyEncoded source (source + Word.ofNat callOffset)
      let word ← decodeAt cap member part
      Machine.mstore (target + Word.ofNat (index * wordBytes)) word
    decodeParts cap target source (index + 1) (callOffset + member.headBytes) rest
end

/-- Values of one word are read where they are. -/
theorem decodeAt_of_isValueType {cap : Nat} {shape : Shape} (value : shape.isValueType = true) (source : Word) :
    decodeAt cap shape source = Machine.calldataload source := by
  cases shape <;> first | rfl | simp [Shape.isValueType] at value

end YulAbi.Codec
