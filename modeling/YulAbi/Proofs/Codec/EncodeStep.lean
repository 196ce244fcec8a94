import YulAbi.Codec.Encoder
import YulAbi.Proofs.Codec.DecodeStep

/-!
# What encoders do

The steps that the encoder of a shape takes on a machine, apart from variables, budgets
and the form of the code: `encodeAt` writes the encoding of the value behind a pointer to
an address and answers with its size.

Parameters are encoded like the members of a tuple, but their values are words on the stack
and not words behind a pointer: there is no block of heads in memory, and no segment. An error
is written as its selector with the parameters four bytes further on.
-/

namespace YulAbi.Codec

/-- Writes bytes: the last word is zeroed before length and content are copied. -/
def encodeBytesAt (pointer target : Word) : MachineStep Word := do
  let length ← Machine.mload pointer
  let size := paddedExtent length
  Machine.mstore (target + (size - 32#256)) 0#256
  Machine.mcopy target pointer (length + 32#256)
  return size

/-- The bytes that an array of words takes. -/
def wordsExtentIn (length : Option Nat) (pointer : Word) : MachineStep Word :=
  match length with
  | none => do return wordsExtent (← Machine.mload pointer)
  | some count => pure (Word.ofNat (count * wordBytes))

/-- Writes an array of words. -/
def encodeWordsAt (length : Option Nat) (pointer target : Word) : MachineStep Word := do
  let size ← wordsExtentIn length pointer
  Machine.mcopy target pointer size
  return size

/-- The number of elements of an array, which is written in front if it varies. -/
def encodeCount (length : Option Nat) (pointer target : Word) : MachineStep Word :=
  match length with
  | none => do
    let count ← Machine.mload pointer
    Machine.mstore target count
    return count
  | some count => pure (Word.ofNat count)

/-- Writes static elements, each by one copy. -/
def encodeStaticTail (length : Option Nat) (element : Word) (pointer target : Word) :
    MachineStep Word := do
  let count ← encodeCount length pointer target
  Machine.rounds (fun index _ => do
      let part ← Machine.mload (wordSlot (pointer + leadSize length) index)
      Machine.mcopy (target + leadSize length + index * element) part element)
    count.toNat 0#256 ()
  return count * element + leadSize length

/-- Copies the tail of one element of a size. -/
def copyTail (bytesLike : Bool) (part length size target : Word) : MachineStep Unit := do
  if bytesLike then
    Machine.mstore (target + (size - 32#256)) 0#256
    Machine.mcopy target part (length + 32#256)
  else Machine.mcopy target part size

/-- Writes the offset and the tail of one element, and answers where the next tail begins. -/
def encodeTail (bytesLike : Bool) (extent : Word → Word) (head targetHead index tailOffset : Word) :
    MachineStep Word := do
  let part ← Machine.mload (wordSlot head index)
  Machine.mstore (wordSlot targetHead index) tailOffset
  let length ← Machine.mload part
  copyTail bytesLike part length (extent length) (targetHead + tailOffset)
  return tailOffset + extent length

/-- Writes elements of one dynamic level, each by one copy. -/
def encodeDynamicTail (length : Option Nat) (bytesLike : Bool) (extent : Word → Word)
    (pointer target : Word) : MachineStep Word := do
  let count ← encodeCount length pointer target
  let tailOffset ← Machine.rounds
    (encodeTail bytesLike extent (pointer + leadSize length) (target + leadSize length))
    count.toNat 0#256 (count * 32#256)
  return tailOffset + leadSize length

/-- Writes the offset of one element and encodes it behind the others. -/
def encodeBehind (encodeElement : Word → Word → MachineStep Word)
    (head targetHead index tailOffset : Word) : MachineStep Word := do
  Machine.mstore (wordSlot targetHead index) tailOffset
  let part ← Machine.mload (wordSlot head index)
  let written ← encodeElement part (targetHead + tailOffset)
  return tailOffset + written

/-- Encodes one element in place. -/
def encodeInPlace (encodeElement : Word → Word → MachineStep Word)
    (stride head targetHead index : Word) : MachineStep Unit := do
  let part ← Machine.mload (wordSlot head index)
  let _ ← encodeElement part (targetHead + index * stride)

/-- Encodes elements one by one. -/
def encodeSeparate (length : Option Nat) (base : Shape) (encodeElement : Word → Word → MachineStep Word)
    (pointer target : Word) : MachineStep Word := do
  let count ← encodeCount length pointer target
  let head := pointer + leadSize length
  let targetHead := target + leadSize length
  if base.isDynamicallyEncoded then
    let tailOffset ← Machine.rounds (encodeBehind encodeElement head targetHead) count.toNat 0#256
      (count * 32#256)
    return tailOffset + leadSize length
  else
    let stride := Word.ofNat base.headBytes
    Machine.rounds (fun index _ => encodeInPlace encodeElement stride head targetHead index)
      count.toNat 0#256 ()
    return count * stride + leadSize length

/-- Copies the words of one segment. -/
def encodeSegment (members : List Shape) (pointer target : Word) (segment : Segment) :
    MachineStep Unit := do
  let stop := target + Word.ofNat (Shape.headBytesSum (members.take segment.start))
  let start := pointer + Word.ofNat (segment.start * wordBytes)
  if segment.length = 1 then
    let word ← Machine.mload start
    Machine.mstore stop word
  else Machine.mcopy stop start (Word.ofNat segment.byteLength)

/-- Copies the words of segments in order. -/
def encodeSegments (members : List Shape) (pointer target : Word) : List Segment → MachineStep Unit
  | [] => pure ()
  | segment :: rest => do
    encodeSegment members pointer target segment
    encodeSegments members pointer target rest

/-- Copies segments and encodes references, which begin with the size of the heads. -/
def encodeComposite (segments : Except Fault (List Segment)) (members : List Shape)
    (encodeReferences : Word → Word → Word → MachineStep Word) (pointer target : Word) :
    MachineStep Word := do
  let runs ← Machine.check segments
  encodeSegments members pointer target runs
  encodeReferences pointer target (Word.ofNat (Shape.headBytesSum members))

/-- Encodes one part whose head is at an address: in place, or behind everything written so far. -/
def encodePart (dynamic : Bool) (encodeValue : Word → Word → MachineStep Word)
    (value : MachineStep Word) (head target size : Word) : MachineStep Word :=
  if dynamic then do
    Machine.mstore head size
    let part ← value
    let written ← encodeValue part (target + size)
    return size + written
  else do
    let part ← value
    let _ ← encodeValue part head
    return size

mutual
/-- Encodes the value of a shape behind a pointer. -/
def encodeAt (cap : Nat) : Shape → Word → Word → MachineStep Word
  | .bytes, pointer, target => encodeBytesAt pointer target
  | .string, pointer, target => encodeBytesAt pointer target
  | .array base length, pointer, target =>
    match base.elementStrategy with
    | .valueInline => encodeWordsAt length pointer target
    | .combinedStaticTail => encodeStaticTail length (Word.ofNat base.staticBytes) pointer target
    | .combinedDynamicTail =>
      encodeDynamicTail length base.isBytesLike (tailExtent base) pointer target
    | .separateTail => encodeSeparate length base (encodeAt cap base) pointer target
  | .struct name members, pointer, target =>
    encodeComposite (segmentsOf cap (.struct name members)) members
      (fun pointer target size => encodeParts cap pointer target 0 0 size members) pointer target
  | .tuple members, pointer, target =>
    encodeComposite (segmentsOf cap (.tuple members)) members
      (fun pointer target size => encodeParts cap pointer target 0 0 size members) pointer target
  | _, word, target => do
    Machine.mstore target word
    return 32#256
/-- Encodes the references among members, the first of which has an index and the offset of its head,
and answers with the size of everything written. -/
def encodeParts (cap : Nat) (pointer target : Word) (index callOffset : Nat) (size : Word) :
    List Shape → MachineStep Word
  | [] => pure size
  | member :: rest => do
    let reached ← if member.isReferenceType then
        encodePart member.isDynamicallyEncoded (encodeAt cap member)
          (Machine.mload (pointer + Word.ofNat (index * wordBytes))) (target + Word.ofNat callOffset)
          target size
      else pure size
    encodeParts cap pointer target (index + 1) (callOffset + member.headBytes) reached rest
end

/-- How words are encoded. -/
theorem encodeAt_word {cap : Nat} {shape : Shape} (valueType : shape.isValueType = true) :
    encodeAt cap shape = fun word target => do
      Machine.mstore target word
      return 32#256 := by
  cases shape with
  | bytes | string | array _ _ | struct _ _ | tuple _ | error _ _ | event _ _ _ _ => cases valueType
  | _ => rfl

/-! ### Parameter lists -/

/-- Decodes parameters in order, the first of which has the offset of its head, to one word each. -/
def decodeWords (cap : Nat) (source : Word) (callOffset : Nat) : List Shape → MachineStep (List Word)
  | [] => pure []
  | parameter :: rest => do
    let part ← partAt parameter.isDynamicallyEncoded source (source + Word.ofNat callOffset)
    let word ← decodeAt cap parameter part
    let others ← decodeWords cap source (callOffset + parameter.headBytes) rest
    return word :: others

/-- Encodes parameters given as words, the first of which has the offset of its head, and answers with the size
of everything written. -/
def encodeWords (cap : Nat) (target : Word) (callOffset : Nat) (size : Word) :
    List Shape → List Word → MachineStep Word
  | parameter :: rest, word :: others => do
    let reached ← encodePart parameter.isDynamicallyEncoded (encodeAt cap parameter) (pure word)
      (target + Word.ofNat callOffset) target size
    encodeWords cap target (callOffset + parameter.headBytes) reached rest others
  | _, _ => pure size

/-- Encodes a whole list of parameters, which begins with the size of the heads. -/
def encodeList (cap : Nat) (parameters : List Shape) (words : List Word) (target : Word) : MachineStep Word :=
  encodeWords cap target 0 (Word.ofNat (Shape.headBytesSum parameters)) parameters words

/-- Writes the selector of an error and then its parameters. -/
def encodeSelected (cap : Nat) (selector : Word) (parameters : List Shape) (words : List Word) (target : Word) :
    MachineStep Word := do
  Machine.mstore target selector
  let written ← encodeList cap parameters words (target + 4#256)
  return written + 4#256

section

variable {cap : Nat} {parameters : List Shape} {source : Word} {callOffset : Nat}

/-- There is one word for each parameter. -/
theorem length_of_decodeWords {before after : Machine} {words : List Word}
    (h : (decodeWords cap source callOffset parameters).run before = .ok words after) :
    words.length = parameters.length := by
  induction parameters generalizing before words callOffset with
  | nil =>
    cases h
    rfl
  | cons parameter rest ih =>
    obtain ⟨part, _, _, decoding⟩ := Step.bind_eq_ok.mp h
    obtain ⟨word, _, _, others⟩ := Step.bind_eq_ok.mp decoding
    obtain ⟨tail, _, decoded, last⟩ := Step.bind_eq_ok.mp others
    cases last
    exact congrArg (· + 1) (ih decoded)

end

end YulAbi.Codec
