import YulAbi.Codec.Trial
import YulAbi.Report.Outcome
import YulAbi.Value.Document

/-!
# Reports on machines and runs

The state of a machine, and what decoders and encoders do with a value.
-/

namespace YulAbi.Report

/-- The number of bytes up to the last one that is not zero. -/
def usedLength (content : ByteArray) : (count : Nat) → Nat
  | 0 => 0
  | count + 1 => if Memory.byteAt content count = 0 then usedLength content count else count + 1

/-- The state of a machine; trailing zeros of memory are left out. -/
def machine (state : Machine) : Document :=
  let memory := state.memory
  .record [
    ("memory_len", number memory.size),
    ("memory", bytes (memory.extract 0 (usedLength memory memory.size)).data.toList),
    ("fmp", runQuery number state.freePointer),
    ("storage", .array (state.storage.map fun entry => words [entry.1, entry.2])),
    ("calldatacopy", numbers state.calldataCopies.reverse),
    ("mcopy", numbers state.memoryCopies.reverse)]

/-- Values. -/
def values (results : List Value) : Document := .array (results.map Value.toDocument)

/-- What a decoder makes of call data. -/
def decoding (unit : CodeUnit) (shape : Shape) (decoder : Handling) (calldata : List UInt8)
    (address : Word) : Outcome Document := do
  let (value, after) ← Outcome.ofRun (Codec.tryDecoder unit shape decoder calldata address)
  return .record [("value", value.toDocument), ("machine", machine after)]

/-- The fields about written bytes. -/
def writtenFields (written : Codec.Written) : List (String × Document) :=
  [("size", number written.size), ("bytes", bytes written.content), ("mcopy", numbers written.copies)]

/-- What an encoder makes of a value that is laid out in memory. -/
def encoding (unit : CodeUnit) (shape : Shape) (encoder : Handling) (value : Value) :
    Outcome Document := do
  let (laid, before) := MachineStep.runOn (Value.writeAs shape value) (Machine.start .empty)
  let pointer ← Outcome.ofRun laid
  let back ← Outcome.ofRun (Value.readAs before shape pointer)
  match encoder with
  | .inline => return .record [("ptr", word pointer)]
  | .routine name =>
    let written ← Outcome.ofRun (Codec.tryEncoder unit name [pointer] before)
    let layout := Memory.slice before.memory Machine.firstFree (written.start - Machine.firstFree)
    return .record ([("ptr", word pointer), ("same", .bool (decide (back = value))),
      ("memory", bytes layout.data.toList)] ++ writtenFields written)

/-- What the decoder of a parameter list makes of call data behind a selector. -/
def listDecoding (unit : CodeUnit) (name : String) (shapes : List Shape) (calldata : List UInt8) :
    Outcome Document := do
  let (called, after) :=
    MachineStep.runOn (Codec.callRoutine unit name [Word.ofNat 4]) (Machine.start ⟨calldata.toArray⟩)
  let results ← Outcome.ofRun called
  let read ← Outcome.ofRun (Codec.readWords after shapes results)
  return .record [("words", words results), ("values", values read), ("machine", machine after)]

/-- What the encoder of a parameter list makes of words that stand for values in memory. -/
def listEncoding (unit : CodeUnit) (name : String) (args : List Word) (before : Machine) :
    Outcome Document := do
  let written ← Outcome.ofRun (Codec.tryEncoder unit name args before)
  return .record (writtenFields written)

end YulAbi.Report
