import YulAbi.Codec.Request
import YulAbi.Value.Memory
import YulAbi.Yul.Interpreter

/-!
# Trying routines

Runs decoders and encoders on a machine and collects what they leave behind. An
encoder writes behind the free memory pointer, where other bytes stand already, so
that a byte which it forgets to write shows.
-/

namespace YulAbi

namespace Codec

/-- The word that a routine with one result returns. -/
def onlyWord (results : List Word) : Word := results.head?.getD 0#256

/-- Calls a routine with the standard budget. -/
def callRoutine (unit : CodeUnit) (name : String) (args : List Word) : MachineStep (List Word) :=
  unit.call Yul.standardStepLimit name args

/-- The value that a decoder reads from call data at an address, and the machine afterwards. -/
def tryDecoder (unit : CodeUnit) (shape : Shape) (decoder : Handling) (calldata : List UInt8)
    (address : Word) : Except Fault (Value × Machine) := do
  let start := Machine.start ⟨calldata.toArray⟩
  let (result, machine) := match decoder with
    | .inline => (.ok (start.calldataWord address), start)
    | .routine name => ((callRoutine unit name [address]).runOn start).map (Except.map onlyWord) id
  return (← Value.readAs machine shape (← result), machine)

/-- The bytes that an encoder has written. -/
structure Written where
  /-- The machine before the encoder is called. -/
  before : Machine
  /-- Where the bytes begin. -/
  start : Nat
  /-- How many there are. -/
  size : Nat
  /-- The bytes. -/
  content : List UInt8
  /-- Sizes of the copies. -/
  copies : List Nat

/-- Bytes that stand where an encoder writes. -/
def stain : ByteArray := ⟨Array.replicate 512 0xee⟩

/-- Calls an encoder that writes behind the free memory pointer. -/
def tryEncoder (unit : CodeUnit) (name : String) (args : List Word) (machine : Machine) :
    Except Fault Written := do
  let step : MachineStep (Nat × List Word) := do
    let start ← Machine.query Machine.freePointer
    Machine.write start stain
    return (start, ← callRoutine unit name (args ++ [Word.ofNat start]))
  let (result, after) := MachineStep.runOn step machine
  let (start, results) ← result
  let size := (onlyWord results).toNat
  return ⟨machine, start, size, (Memory.slice after.memory start size).data.toList,
    after.memoryCopies.reverse⟩

/-- The values that words stand for. -/
def readWords (machine : Machine) (shapes : List Shape) (words : List Word) : Except Fault (List Value) :=
  (shapes.zip words).mapM fun entry => Value.readAs machine entry.1 entry.2

/-- Writes values to memory and answers with the words that stand for them. -/
def writeValues (shapes : List Shape) (values : List Value) : MachineStep (List Word) :=
  (shapes.zip values).mapM fun entry => Value.writeAs entry.1 entry.2

end Codec

end YulAbi
