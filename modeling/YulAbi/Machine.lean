import YulAbi.Machine.Fault
import YulAbi.Word

/-!
# The machine

The state that generated code acts on: memory, call data and storage, and a log of
the sizes of all copies. Memory begins with a free memory pointer to the first byte
behind the reserved words, grows in whole words and has a limit. An operation that
would pass the limit fails and leaves the state as it was.
-/

/-! ### Bytes of memory and call data

Memory and call data are read as if zeros followed their last byte. Memory grows
when something is written behind its end. -/

namespace YulAbi.Memory

/-- The byte at an index; zero behind the end. -/
def byteAt (bytes : ByteArray) (index : Nat) : UInt8 :=
  if h : index < bytes.size then bytes[index] else 0

/-- The bytes followed by a number of zeros. -/
def appendZeros (bytes : ByteArray) : Nat → ByteArray
  | 0 => bytes
  | count + 1 => appendZeros (bytes.push 0) count

/-- A number of bytes from an offset on; zeros behind the end. -/
def slice (bytes : ByteArray) (offset length : Nat) : ByteArray :=
  let present := bytes.extract offset (offset + length)
  appendZeros present (length - present.size)

/-- Zeros count as bytes. -/
theorem size_appendZeros (bytes : ByteArray) (count : Nat) :
    (appendZeros bytes count).size = bytes.size + count := by
  induction count generalizing bytes with
  | zero => rfl
  | succ count ih => rw [appendZeros, ih, ByteArray.size_push]; omega

/-- A slice has the length that was asked for, wherever it lies. -/
theorem size_slice (bytes : ByteArray) (offset length : Nat) :
    (slice bytes offset length).size = length := by
  simp only [slice, size_appendZeros, ByteArray.size_extract]
  omega

/-- The word at an offset. -/
def wordAt (bytes : ByteArray) (offset : Nat) : Word :=
  Word.ofBytes (slice bytes offset 32).data.toList

/-- The bytes of a word. -/
def ofWord (word : Word) : ByteArray := ⟨(Word.toBytes word).toArray⟩

/-- Memory that reaches at least up to an end, in whole words. -/
def grow (bytes : ByteArray) (stop : Nat) : ByteArray :=
  if bytes.size < stop then appendZeros bytes ((stop + 31) / 32 * 32 - bytes.size) else bytes

/-- Memory that has grown is no shorter, and it reaches up to the end. -/
theorem le_size_grow (bytes : ByteArray) (stop : Nat) :
    bytes.size ≤ (grow bytes stop).size ∧ stop ≤ (grow bytes stop).size := by
  unfold grow
  split
  · rw [size_appendZeros]; omega
  · omega

/-- Memory with other bytes from an offset on; it must reach up to their end. -/
def put (bytes : ByteArray) (offset : Nat) (content : ByteArray) : ByteArray :=
  content.copySlice 0 bytes offset content.size

end YulAbi.Memory

/-! ### State and operations -/

namespace YulAbi

/-- Slots that are not zero with their words, by increasing slot. -/
abbrev Storage := List (Word × Word)

namespace Storage

/-- The word of a slot, zero if it is not there. -/
def read (storage : Storage) (slot : Word) : Word :=
  ((storage.find? fun entry => entry.1 == slot).map Prod.snd).getD 0#256

/-- The storage without a slot. -/
def erase (storage : Storage) (slot : Word) : Storage := storage.filter fun entry => entry.1 != slot

/-- The storage with a word in a slot that is not there. -/
def insertNew (slot value : Word) : Storage → Storage
  | [] => [(slot, value)]
  | entry :: rest =>
    if slot < entry.1 then (slot, value) :: entry :: rest else entry :: insertNew slot value rest

/-- The storage with another word in a slot; zero leaves the slot empty. -/
def write (storage : Storage) (slot value : Word) : Storage :=
  let others := storage.erase slot
  if value = 0#256 then others else others.insertNew slot value

/-- A slot that was not there is found once it is inserted. -/
theorem find?_insertNew_self (slot value : Word) (storage : Storage)
    (absent : ∀ entry ∈ storage, entry.1 ≠ slot) :
    (insertNew slot value storage).find? (fun entry => entry.1 == slot) = some (slot, value) := by
  induction storage with
  | nil => simp [insertNew]
  | cons entry rest ih =>
    have head := absent entry (by simp)
    have tail := ih fun other member => absent other (by simp [member])
    simp only [insertNew]
    split <;> simp_all

/-- An insertion is not seen at other slots. -/
theorem find?_insertNew_of_ne {slot other : Word} (value : Word) (storage : Storage)
    (different : other ≠ slot) :
    (insertNew slot value storage).find? (fun entry => entry.1 == other) =
      storage.find? fun entry => entry.1 == other := by
  induction storage with
  | nil => simp [insertNew, Ne.symm different]
  | cons entry rest ih =>
    simp only [insertNew]
    split
    · simp [List.find?_cons, Ne.symm different]
    · simp [List.find?_cons, ih]

/-- A slot that has been erased is zero. -/
theorem read_erase_self (storage : Storage) (slot : Word) : (storage.erase slot).read slot = 0#256 := by
  have : (storage.erase slot).find? (fun entry => entry.1 == slot) = none := by
    simp [erase, List.find?_eq_none]
  simp [read, this]

/-- Erasing a slot leaves the others. -/
theorem read_erase_of_ne {slot other : Word} (storage : Storage) (different : other ≠ slot) :
    (storage.erase slot).read other = storage.read other := by
  have : (storage.erase slot).find? (fun entry => entry.1 == other) =
      storage.find? fun entry => entry.1 == other := by
    rw [erase, List.find?_filter]
    congr 1
    funext entry
    by_cases h : entry.1 = other <;> simp [h, different]
  simp [read, this]

/-- The word written to a slot is read from it. -/
theorem read_write_self (storage : Storage) (slot value : Word) :
    (storage.write slot value).read slot = value := by
  unfold write
  split
  · rename_i zero
    rw [read_erase_self, zero]
  · rw [read, find?_insertNew_self]
    · rfl
    · simp [erase]

/-- Writing a slot leaves the others. -/
theorem read_write_of_ne {slot other : Word} (storage : Storage) (value : Word)
    (different : other ≠ slot) : (storage.write slot value).read other = storage.read other := by
  unfold write
  split
  · exact read_erase_of_ne storage different
  · rw [read, find?_insertNew_of_ne _ _ different]
    exact read_erase_of_ne storage different

end Storage

/-- The state of a machine. -/
structure Machine where
  /-- Memory. -/
  memory : ByteArray
  /-- Call data. -/
  calldata : ByteArray
  /-- Storage. -/
  storage : Storage
  /-- Sizes of copies of call data, the latest first. -/
  calldataCopies : List Nat
  /-- Sizes of copies within memory, the latest first. -/
  memoryCopies : List Nat

/-- An operation on a machine that may fail. -/
abbrev MachineStep (α : Type) := EStateM Fault Machine α

/-- Runs an operation and answers with its result and the machine after it. -/
def MachineStep.runOn {α : Type} (step : MachineStep α) (machine : Machine) : Except Fault α × Machine :=
  match step.run machine with
  | .ok value after => (.ok value, after)
  | .error fault after => (.error fault, after)

namespace Machine

/-- Where memory holds the free memory pointer. -/
def freePointerSlot : Nat := 0x40

/-- The first byte that can be allocated. -/
def firstFree : Nat := 0x80

/-- A machine before anything has run. -/
def start (calldata : ByteArray) : Machine :=
  ⟨Memory.put (Memory.appendZeros ByteArray.empty firstFree) freePointerSlot
    (Memory.ofWord (Word.ofNat firstFree)), calldata, [], [], []⟩

/-- Refuses an offset or length beyond the limit of memory. -/
def checkedOffset (value : Word) : Except Fault Nat :=
  if value.toNat ≤ memoryLimit then .ok value.toNat else .error (.memoryLimit value.toNat)

/-- The word at an offset of memory. -/
def wordAt (machine : Machine) (offset : Nat) : Word := Memory.wordAt machine.memory offset

/-- The free memory pointer. -/
def freePointer (machine : Machine) : Except Fault Nat := checkedOffset (machine.wordAt freePointerSlot)

/-- A query as a step that changes nothing. -/
def query {α : Type} (ask : Machine → Except Fault α) : MachineStep α := fun machine =>
  match ask machine with
  | .ok answer => .ok answer machine
  | .error fault => .error fault machine

/-- A check as a step. -/
def check {α : Type} (result : Except Fault α) : MachineStep α := query fun _ => result

/-- Writes bytes to memory, which grows if needed. -/
def write (offset : Nat) (bytes : ByteArray) : MachineStep Unit := fun machine =>
  let stop := offset + bytes.size
  if 0x10000000000000000 ≤ stop then .error (.memoryLimit offset) machine
  else if memoryLimit < stop then .error (.memoryLimit stop) machine
  else
    .ok () ⟨Memory.put (Memory.grow machine.memory stop) offset bytes, machine.calldata,
      machine.storage, machine.calldataCopies, machine.memoryCopies⟩

/-- The word of memory at an address. -/
def mload (address : Word) : MachineStep Word := do
  let offset ← check (checkedOffset address)
  return (← get).wordAt offset

/-- Stores a word in memory. -/
def mstore (address value : Word) : MachineStep Unit := do
  let offset ← check (checkedOffset address)
  write offset (Memory.ofWord value)

/-- Stores the lowest byte of a word in memory. -/
def mstore8 (address value : Word) : MachineStep Unit := do
  let offset ← check (checkedOffset address)
  write offset ⟨#[Word.byteAt value 31]⟩

/-- Reserves memory behind the free memory pointer and answers with its first byte. -/
def allocate (size : Nat) : MachineStep Nat := do
  let pointer ← query freePointer
  let stop := pointer + size
  if 0x10000000000000000 ≤ stop then throw (.memoryLimit pointer)
  if memoryLimit < stop then throw (.memoryLimit stop)
  modify fun machine =>
    ⟨Memory.grow machine.memory stop, machine.calldata, machine.storage, machine.calldataCopies,
      machine.memoryCopies⟩
  mstore (Word.ofNat freePointerSlot) (Word.ofNat stop)
  return pointer

/-- Copies within memory; the source is read before anything is written. -/
def mcopy (target source length : Word) : MachineStep Unit := do
  let size ← check (checkedOffset length)
  if size = 0 then return ()
  let start ← check (checkedOffset source)
  let bytes := Memory.slice (← get).memory start size
  let offset ← check (checkedOffset target)
  write offset bytes
  modify fun machine =>
    ⟨machine.memory, machine.calldata, machine.storage, machine.calldataCopies,
      size :: machine.memoryCopies⟩

/-- The word of call data at an address. -/
def calldataWord (machine : Machine) (address : Word) : Word :=
  if address.toNat < machine.calldata.size then Memory.wordAt machine.calldata address.toNat else 0#256

/-- A number of bytes of call data from an address on. -/
def calldataSlice (machine : Machine) (address : Word) (size : Nat) : ByteArray :=
  if address.toNat < machine.calldata.size then Memory.slice machine.calldata address.toNat size
  else Memory.appendZeros ByteArray.empty size

/-- Copies call data to memory. -/
def calldatacopy (target source length : Word) : MachineStep Unit := do
  let size ← check (checkedOffset length)
  if size = 0 then return ()
  let bytes := (← get).calldataSlice source size
  let offset ← check (checkedOffset target)
  write offset bytes
  modify fun machine =>
    ⟨machine.memory, machine.calldata, machine.storage, size :: machine.calldataCopies,
      machine.memoryCopies⟩

/-- The word in a slot of storage. -/
def sload (machine : Machine) (slot : Word) : Word := machine.storage.read slot

/-- Stores a word in a slot of storage. -/
def sstore (slot value : Word) : MachineStep Unit :=
  modify fun machine =>
    ⟨machine.memory, machine.calldata, machine.storage.write slot value, machine.calldataCopies,
      machine.memoryCopies⟩

end Machine

end YulAbi
