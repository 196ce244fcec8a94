import YulAbi.Machine
import YulAbi.Value.Encoding

/-!
# Values in memory

How values lie in memory, written without any routine: a value type is its word, and
anything else a pointer to memory of its own, in which every part takes one word.
Writing allocates the memory of an owner before that of its parts.
-/

namespace YulAbi.Value

/-- Stores a word at an offset. -/
def putWord (offset : Nat) (word : Word) : MachineStep Unit := Machine.write offset (Memory.ofWord word)

/-- Writes bytes and answers with a pointer to them. -/
def writeBytes (content : List UInt8) : MachineStep Word := do
  let pointer ← Machine.allocate (wordBytes + content.length + padding content.length)
  putWord pointer (Word.ofNat content.length)
  Machine.write (pointer + wordBytes) ⟨content.toArray⟩
  return Word.ofNat pointer

/-- The size of the length word of an array. -/
def lengthSize : Option Nat → Nat
  | none => wordBytes
  | some _ => 0

/-- Writes values into the words from `target` on. -/
def writeElements (writeElement : Value → MachineStep Word) (target : Nat) :
    List Value → MachineStep Unit
  | [] => return ()
  | element :: rest => do
    putWord target (← writeElement element)
    writeElements writeElement (target + wordBytes) rest

mutual
/-- Writes a value as a value of a shape and answers with the word that stands for it. -/
def writeAs : Shape → Value → MachineStep Word
  | .bytes, .bytes content => writeBytes content
  | .string, .bytes content => writeBytes content
  | .array base length, .array elements => do
    Machine.check (requireElements (.array base length) length elements)
    let pointer ← Machine.allocate (lengthSize length + wordBytes * elements.length)
    if length.isNone then putWord pointer (Word.ofNat elements.length)
    writeElements (writeAs base) (pointer + lengthSize length) elements
    return Word.ofNat pointer
  | .struct name shapes, .tuple members => do
    Machine.check (requireMembers (.struct name shapes) shapes.length members)
    let pointer ← Machine.allocate (wordBytes * shapes.length)
    writeEach pointer shapes members
    return Word.ofNat pointer
  | .tuple shapes, .tuple members => do
    Machine.check (requireMembers (.tuple shapes) shapes.length members)
    let pointer ← Machine.allocate (wordBytes * shapes.length)
    writeEach pointer shapes members
    return Word.ofNat pointer
  | shape, value =>
    if shape.isValueType then Machine.check (requireWord shape value)
    else Machine.check (mismatch shape (.wrongKind value.kind))
/-- Writes members into the words from `target` on. -/
def writeEach (target : Nat) : List Shape → List Value → MachineStep Unit
  | shape :: shapes, value :: values => do
    putWord target (← writeAs shape value)
    writeEach (target + wordBytes) shapes values
  | _, _ => return ()
end

/-- Reads the bytes behind a pointer. -/
def readBytes (machine : Machine) (word : Word) : Except Fault Value := do
  let pointer ← Machine.checkedOffset word
  let size ← Machine.checkedOffset (machine.wordAt pointer)
  return .bytes (Memory.slice machine.memory (pointer + wordBytes) size).data.toList

/-- Reads values from the words from `source` on. -/
def readElements (readElement : Word → Except Fault Value) (machine : Machine) (source : Nat) :
    (count : Nat) → Except Fault (List Value)
  | 0 => .ok []
  | count + 1 => do
    let element ← readElement (machine.wordAt source)
    return element :: (← readElements readElement machine (source + wordBytes) count)

mutual
/-- Reads the value of a shape that a word stands for. -/
def readAs (machine : Machine) : Shape → Word → Except Fault Value
  | .bytes, address => readBytes machine address
  | .string, address => readBytes machine address
  | .array base length, address => do
    let pointer ← Machine.checkedOffset address
    let count ← match length with
      | some expected =>
        if expected ≤ memoryLimit then pure expected else throw (.memoryLimit expected)
      | none => Machine.checkedOffset (machine.wordAt pointer)
    return .array (← readElements (readAs machine base) machine (pointer + lengthSize length) count)
  | .struct _ shapes, address => do
    let pointer ← Machine.checkedOffset address
    return .tuple (← readEach machine pointer shapes)
  | .tuple shapes, address => do
    let pointer ← Machine.checkedOffset address
    return .tuple (← readEach machine pointer shapes)
  | shape, address =>
    if shape.isValueType then .ok (.word address)
    else do
      let _ ← Machine.checkedOffset address
      mismatch shape .notInMemory
/-- Reads members from the words from `source` on. -/
def readEach (machine : Machine) (source : Nat) : List Shape → Except Fault (List Value)
  | [] => .ok []
  | shape :: shapes => do
    let member ← readAs machine shape (machine.wordAt source)
    return member :: (← readEach machine (source + wordBytes) shapes)
end

end YulAbi.Value
