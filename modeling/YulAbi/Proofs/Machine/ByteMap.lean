import Mathlib.Data.List.Induction
import YulAbi.Proofs.Value.Written

/-!
# Memory is a byte at every offset

Memory grows in whole words, up to its limit and no further, and it never shrinks. A step that
would reach past the limit fails and leaves the whole machine as it was, also where it has
looked at the machine before.

To the steps that act on it memory is a map from all offsets to bytes, zero wherever nothing has
been written. Each step writes one run of bytes into the map, which it takes from its operands, from
call data or from the map as it was, or it would pass the limit of memory and changes nothing. That
memory only reaches as far as it has to, and that it is read beyond its end, is not to be seen: what
is read from a machine after any steps is what is read from the map.
-/

namespace YulAbi

/-! ### How memory grows -/

namespace Memory

/-- The size of memory that has grown. -/
theorem size_grow (bytes : ByteArray) (stop : Nat) :
    (grow bytes stop).size = if bytes.size < stop then (stop + 31) / 32 * 32 else bytes.size := by
  unfold grow
  split
  · rw [size_appendZeros]
    omega
  · rfl

/-- What is put into memory within its size leaves the size. -/
theorem size_put {bytes content : ByteArray} {offset : Nat} (fits : offset + content.size ≤ bytes.size) :
    (put bytes offset content).size = bytes.size := by
  have size : (put bytes offset content).size =
      min offset bytes.size + min content.size content.size + (bytes.size - (offset + content.size)) := by
    simp [put, ByteArray.copySlice_eq_append]
  omega

end Memory

namespace Machine

/-- Whether memory has grown in whole words since an earlier machine, and not past the limit. -/
structure Enlarges (before after : Machine) : Prop where
  /-- Memory is no smaller. -/
  grows : before.memory.size ≤ after.memory.size
  /-- It still consists of whole words. -/
  words : 32 ∣ before.memory.size → 32 ∣ after.memory.size
  /-- It is still within the limit. -/
  within : before.memory.size ≤ memoryLimit → after.memory.size ≤ memoryLimit

section

variable {before middle after machine : Machine} {offset size : Nat} {bytes : ByteArray}
  {address target source length value : Word}

/-- Memory that stays has not grown. -/
theorem Enlarges.of_same (same : after.memory = before.memory) : before.Enlarges after :=
  ⟨(congrArg ByteArray.size same).ge, same ▸ id, same ▸ id⟩

/-- Memory grows step by step. -/
theorem Enlarges.trans (h : before.Enlarges middle) (h' : middle.Enlarges after) : before.Enlarges after :=
  ⟨h.grows.trans h'.grows, h'.words ∘ h.words, h'.within ∘ h.within⟩

/-- Memory that grows up to an end within the limit. -/
theorem Enlarges.of_grow {stop : Nat} (fits : stop ≤ memoryLimit)
    (size : after.memory.size = (Memory.grow before.memory stop).size) : before.Enlarges after := by
  rw [Memory.size_grow] at size
  rw [memoryLimit] at fits
  refine ⟨?_, fun words => ?_, fun within => ?_⟩
  · split at size <;> omega
  · split at size <;> omega
  · rw [memoryLimit] at within ⊢
    split at size <;> omega

/-! ### Steps that succeed -/

/-- A write lets memory grow up to its end. -/
theorem enlarges_of_write (h : (write offset bytes).run before = .ok () after) : before.Enlarges after := by
  obtain ⟨fits, -⟩ := puts_of_write h
  change write offset bytes before = .ok () after at h
  unfold write at h
  dsimp only at h
  split at h
  · cases h
  · split at h <;> cases h
    exact .of_grow fits (Memory.size_put (Memory.le_size_grow before.memory _).2)

/-- So does a store of a word. -/
theorem enlarges_of_mstore (h : (mstore address value).run before = .ok () after) : before.Enlarges after := by
  obtain ⟨start, reached, checked, wrote⟩ := Step.bind_eq_ok.mp h
  obtain ⟨-, rfl, rfl⟩ := le_of_run_check checked
  exact enlarges_of_write wrote

/-- So does a store of one byte. -/
theorem enlarges_of_mstore8 (h : (mstore8 address value).run before = .ok () after) : before.Enlarges after := by
  obtain ⟨start, reached, checked, wrote⟩ := Step.bind_eq_ok.mp h
  obtain ⟨-, rfl, rfl⟩ := le_of_run_check checked
  exact enlarges_of_write wrote

/-- So does a copy of call data, unless there is nothing to copy. -/
theorem enlarges_of_calldatacopy (h : (calldatacopy target source length).run before = .ok () after) :
    before.Enlarges after := by
  rcases calldatacopy_cases h with ⟨-, rfl⟩ | ⟨-, written, wrote, rfl⟩
  · exact .of_same rfl
  · exact (enlarges_of_write wrote).trans (.of_same rfl)

/-- So does a copy within memory. -/
theorem enlarges_of_mcopy (h : (mcopy target source length).run before = .ok () after) : before.Enlarges after := by
  rcases mcopy_cases h with ⟨-, rfl⟩ | ⟨-, written, wrote, rfl⟩
  · exact .of_same rfl
  · exact (enlarges_of_write wrote).trans (.of_same rfl)

/-- An allocation puts its end where the free memory pointer is and lets memory grow up to it. -/
theorem allocate_puts (room : before.free + size ≤ memoryLimit) :
    ∃ after, (allocate size).run before = .ok before.free after ∧
      before.Puts after freePointerSlot (Word.toBytes (Word.ofNat (before.free + size))) ∧ before.Enlarges after := by
  obtain ⟨after, ran, stored⟩ := allocate_stores room
  obtain ⟨-, inside, outside⟩ := puts_of_mstore stored
  have grown : before.Enlarges ⟨Memory.grow before.memory (before.free + size), before.calldata, before.storage,
    before.calldataCopies, before.memoryCopies⟩ := .of_grow room rfl
  exact ⟨after, ran, ⟨inside, outside.calldata, outside.storage, fun index apart =>
    (outside.memory index apart).trans (Memory.byteAt_grow _ _ _)⟩, grown.trans (enlarges_of_mstore stored)⟩

/-! ### Steps that fail -/

/-- An offset beyond the limit is refused. -/
theorem check_fails (machine : Machine) (beyond : memoryLimit < value.toNat) :
    (check (checkedOffset value)).run machine = .error (.memoryLimit value.toNat) machine := by
  change check (checkedOffset value) machine = _
  unfold check query checkedOffset
  rw [if_neg (by omega)]

/-- So is a word that would be read from there. -/
theorem mload_fails (machine : Machine) (beyond : memoryLimit < address.toNat) :
    (mload address).run machine = .error (.memoryLimit address.toNat) machine :=
  Step.bind_of_error (check_fails machine beyond)

/-- A write that reaches past the limit is refused. -/
theorem write_fails (machine : Machine) (beyond : memoryLimit < offset + bytes.size) :
    ∃ stop, (write offset bytes).run machine = .error (.memoryLimit stop) machine := by
  change ∃ stop, write offset bytes machine = .error (.memoryLimit stop) machine
  unfold write
  dsimp only
  split
  · exact ⟨_, rfl⟩
  · exact ⟨_, rfl⟩

/-- So are bytes that would be stored there. -/
theorem store_fails (machine : Machine) (beyond : memoryLimit < address.toNat + bytes.size) :
    ∃ stop, (check (checkedOffset address) >>= fun start => write start bytes).run machine =
      .error (.memoryLimit stop) machine := by
  by_cases near : address.toNat ≤ memoryLimit
  · rw [Step.bind_of_ok (run_check_of_le near machine)]
    exact write_fails machine beyond
  · exact ⟨_, Step.bind_of_error (check_fails machine (by omega))⟩

/-- So is a word. -/
theorem mstore_fails (machine : Machine) (beyond : memoryLimit < address.toNat + 32) :
    ∃ stop, (mstore address value).run machine = .error (.memoryLimit stop) machine := by
  have size : (Memory.ofWord value).size = 32 := Word.toBytes_length value
  exact store_fails machine (by omega)

/-- So is one byte. -/
theorem mstore8_fails (machine : Machine) (beyond : memoryLimit < address.toNat + 1) :
    ∃ stop, (mstore8 address value).run machine = .error (.memoryLimit stop) machine :=
  store_fails machine beyond

/-- So is a copy of call data. -/
theorem calldatacopy_fails (machine : Machine) (filled : length.toNat ≠ 0)
    (beyond : memoryLimit < target.toNat + length.toNat) :
    ∃ stop, (calldatacopy target source length).run machine = .error (.memoryLimit stop) machine := by
  unfold calldatacopy
  by_cases near : length.toNat ≤ memoryLimit
  · have size : (machine.calldataSlice source length.toNat).size = length.toNat := by
      rw [← ByteArray.size_data, ← Array.length_toList, toList_calldataSlice, Memory.length_bytesAt]
    have past : memoryLimit < target.toNat + (machine.calldataSlice source length.toNat).size := by omega
    obtain ⟨stop, failed⟩ := store_fails machine past
    rw [Step.bind_of_ok (run_check_of_le near machine), if_neg filled, Step.bind_of_ok (Step.run_get machine),
      ← bind_assoc]
    exact ⟨stop, Step.bind_of_error failed⟩
  · exact ⟨_, Step.bind_of_error (check_fails machine (by omega))⟩

/-- So is a copy within memory, and one that starts past the limit. -/
theorem mcopy_fails (machine : Machine) (filled : length.toNat ≠ 0)
    (beyond : memoryLimit < source.toNat ∨ memoryLimit < target.toNat + length.toNat) :
    ∃ stop, (mcopy target source length).run machine = .error (.memoryLimit stop) machine := by
  unfold mcopy
  by_cases near : length.toNat ≤ memoryLimit
  · rw [Step.bind_of_ok (run_check_of_le near machine), if_neg filled]
    by_cases start : source.toNat ≤ memoryLimit
    · have size := Memory.size_slice machine.memory source.toNat length.toNat
      have past : memoryLimit < target.toNat + (Memory.slice machine.memory source.toNat length.toNat).size := by omega
      obtain ⟨stop, failed⟩ := store_fails machine past
      rw [Step.bind_of_ok (run_check_of_le start machine), Step.bind_of_ok (Step.run_get machine), ← bind_assoc]
      exact ⟨stop, Step.bind_of_error failed⟩
    · exact ⟨_, Step.bind_of_error (check_fails machine (by omega))⟩
  · exact ⟨_, Step.bind_of_error (check_fails machine (by omega))⟩

end

end Machine

/-! ### The map of bytes -/

/-- A byte at every offset. -/
abbrev ByteMap := Nat → UInt8

namespace ByteMap

/-- A number of bytes from an offset on. -/
def window (map : ByteMap) (offset count : Nat) : List UInt8 :=
  (List.range count).map fun index => map (offset + index)

/-- The word at an offset, most significant byte first. -/
def wordAt (map : ByteMap) (offset : Nat) : Word := Word.ofBytes (map.window offset 32)

/-- The map with other bytes from an offset on. -/
def overwrite (map : ByteMap) (offset : Nat) (content : List UInt8) : ByteMap := fun index =>
  if offset ≤ index ∧ index < offset + content.length then content.getD (index - offset) 0 else map index

/-- The bytes of call data, zero behind its end. -/
def ofCalldata (calldata : ByteArray) : ByteMap := fun index => if h : index < calldata.size then calldata[index] else 0

/-- The bytes of memory at the start: zero but for the free memory pointer. -/
def start : ByteMap :=
  overwrite (fun _ => 0) Machine.freePointerSlot (Word.toBytes (Word.ofNat Machine.firstFree))

end ByteMap

/-- A step that acts on memory. -/
inductive MemoryAction where
  /-- Bytes are written at an offset. -/
  | write (offset : Nat) (bytes : ByteArray)
  /-- A word is stored. -/
  | mstore (address value : Word)
  /-- The lowest byte of a word is stored. -/
  | mstore8 (address value : Word)
  /-- Bytes are copied within memory. -/
  | mcopy (target source length : Word)
  /-- Bytes of call data are copied to memory. -/
  | calldatacopy (target source length : Word)
  /-- Memory is reserved. -/
  | allocate (size : Nat)

namespace MemoryAction

/-- The step on a machine. -/
def run : MemoryAction → MachineStep Unit
  | .write offset bytes => Machine.write offset bytes
  | .mstore address value => Machine.mstore address value
  | .mstore8 address value => Machine.mstore8 address value
  | .mcopy target source length => Machine.mcopy target source length
  | .calldatacopy target source length => Machine.calldatacopy target source length
  | .allocate size => do let _ ← Machine.allocate size

/-- The machine after a step, whether it fails or not. -/
def perform (machine : Machine) (action : MemoryAction) : Machine := (action.run.runOn machine).2

/-- The machine after several steps. -/
def performAll (calldata : ByteArray) (actions : List MemoryAction) : Machine :=
  actions.foldl perform (.start calldata)

/-- Whether a step stays within the limit of memory. A copy of nothing always does. -/
def Fits (memory : ByteMap) : MemoryAction → Prop
  | .write offset bytes => offset + bytes.size ≤ memoryLimit
  | .mstore address _ => address.toNat + 32 ≤ memoryLimit
  | .mstore8 address _ => address.toNat + 1 ≤ memoryLimit
  | .mcopy target source length =>
    length.toNat = 0 ∨ (source.toNat ≤ memoryLimit ∧ target.toNat + length.toNat ≤ memoryLimit)
  | .calldatacopy target _ length => length.toNat = 0 ∨ target.toNat + length.toNat ≤ memoryLimit
  | .allocate size => (memory.wordAt Machine.freePointerSlot).toNat + size ≤ memoryLimit

/-- Whether a step stays within the limit can be computed. -/
instance (memory : ByteMap) : (action : MemoryAction) → Decidable (action.Fits memory)
  | .write offset bytes => inferInstanceAs (Decidable (offset + bytes.size ≤ memoryLimit))
  | .mstore address _ => inferInstanceAs (Decidable (address.toNat + 32 ≤ memoryLimit))
  | .mstore8 address _ => inferInstanceAs (Decidable (address.toNat + 1 ≤ memoryLimit))
  | .mcopy target source length => inferInstanceAs (Decidable
      (length.toNat = 0 ∨ (source.toNat ≤ memoryLimit ∧ target.toNat + length.toNat ≤ memoryLimit)))
  | .calldatacopy target _ length =>
    inferInstanceAs (Decidable (length.toNat = 0 ∨ target.toNat + length.toNat ≤ memoryLimit))
  | .allocate size =>
    inferInstanceAs (Decidable ((memory.wordAt Machine.freePointerSlot).toNat + size ≤ memoryLimit))

/-- Where a step begins to write, and the bytes that it writes. -/
def written (calldata : ByteArray) (memory : ByteMap) : MemoryAction → Nat × List UInt8
  | .write offset bytes => (offset, bytes.data.toList)
  | .mstore address value => (address.toNat, Word.toBytes value)
  | .mstore8 address value => (address.toNat, [UInt8.ofNat value.toNat])
  | .mcopy target source length => (target.toNat, memory.window source.toNat length.toNat)
  | .calldatacopy target source length =>
    (target.toNat, (ByteMap.ofCalldata calldata).window source.toNat length.toNat)
  | .allocate size => (Machine.freePointerSlot,
      Word.toBytes (Word.ofNat ((memory.wordAt Machine.freePointerSlot).toNat + size)))

/-- Whether a step writes to an offset. -/
def Writes (calldata : ByteArray) (memory : ByteMap) (action : MemoryAction) (index : Nat) : Prop :=
  action.Fits memory ∧ (action.written calldata memory).1 ≤ index ∧
    index < (action.written calldata memory).1 + (action.written calldata memory).2.length

/-- The map after a step. -/
def act (calldata : ByteArray) (memory : ByteMap) (action : MemoryAction) : ByteMap :=
  if action.Fits memory then memory.overwrite (action.written calldata memory).1 (action.written calldata memory).2
  else memory

/-- The map after several steps. -/
def actAll (calldata : ByteArray) (actions : List MemoryAction) : ByteMap := actions.foldl (act calldata) .start

section

variable {calldata : ByteArray} {memory : ByteMap} {action : MemoryAction} {actions : List MemoryAction} {index : Nat}

/-- Where a step does not write, the map stays. -/
theorem act_of_not_writes (unwritten : ¬ action.Writes calldata memory index) :
    act calldata memory action index = memory index := by
  unfold act
  split
  · rename_i fits
    exact if_neg fun inside => unwritten ⟨fits, inside⟩
  · rfl

/-- One more step. -/
theorem actAll_concat (calldata : ByteArray) (actions : List MemoryAction) (action : MemoryAction) :
    actAll calldata (actions ++ [action]) = act calldata (actAll calldata actions) action :=
  List.foldl_concat ..

/-- One more step. -/
theorem performAll_concat (calldata : ByteArray) (actions : List MemoryAction) (action : MemoryAction) :
    performAll calldata (actions ++ [action]) = perform (performAll calldata actions) action :=
  List.foldl_concat ..

/-- Where nothing has been written there are zeros, apart from the free memory pointer. The induction is on the steps,
the last one first. -/
theorem actAll_eq_zero (apart : index < Machine.freePointerSlot ∨ Machine.freePointerSlot + 32 ≤ index)
    (unwritten : ∀ earlier action later, actions = earlier ++ action :: later →
      ¬ action.Writes calldata (actAll calldata earlier) index) : actAll calldata actions index = 0 := by
  induction actions using List.reverseRecOn with
  | nil =>
    refine if_neg fun inside => ?_
    rw [Word.toBytes_length] at inside
    omega
  | append_singleton actions action ih =>
    rw [actAll_concat, act_of_not_writes (unwritten actions action [] rfl)]
    exact ih fun earlier other later split =>
      unwritten earlier other (later ++ [action]) (by rw [split, List.append_assoc]; rfl)

end

end MemoryAction

namespace Machine

/-- Whether the memory of a machine with call data is a map, in whole words within the limit. -/
structure Tracks (calldata : ByteArray) (machine : Machine) (memory : ByteMap) : Prop where
  /-- Every byte is that of the map. -/
  bytes : ∀ index, Memory.byteAt machine.memory index = memory index
  /-- Call data stays. -/
  calldata : machine.calldata = calldata
  /-- Memory consists of whole words. -/
  words : 32 ∣ machine.memory.size
  /-- Memory is within the limit. -/
  within : machine.memory.size ≤ memoryLimit

section

variable {calldata : ByteArray} {machine after : Machine} {memory : ByteMap}

/-- Bytes are read alike. -/
theorem Tracks.bytesAt (h : Tracks calldata machine memory) (offset count : Nat) :
    Memory.bytesAt machine.memory offset count = memory.window offset count :=
  List.map_congr_left fun index _ => h.bytes (offset + index)

/-- So is what reads as zeros behind the end. -/
theorem Tracks.slice (h : Tracks calldata machine memory) (offset length : Nat) :
    (Memory.slice machine.memory offset length).data.toList = memory.window offset length :=
  (Memory.toList_slice _ _ _).trans (h.bytesAt offset length)

/-- So are words. -/
theorem Tracks.wordAt (h : Tracks calldata machine memory) (offset : Nat) :
    machine.wordAt offset = memory.wordAt offset := by
  rw [Machine.wordAt, Memory.wordAt_eq_ofBytes, h.bytesAt, ByteMap.wordAt]

/-- Bytes that are put on a machine overwrite those of the map. -/
theorem Puts.tracks {offset : Nat} {content : List UInt8} (puts : machine.Puts after offset content)
    (enlarges : machine.Enlarges after) (h : Tracks calldata machine memory) :
    Tracks calldata after (memory.overwrite offset content) := by
  refine ⟨fun index => ?_, puts.outside.calldata.trans h.calldata, enlarges.words h.words, enlarges.within h.within⟩
  unfold ByteMap.overwrite
  split
  · rename_i inside
    have byte := List.getElem_of_eq puts.inside (i := index - offset) (by rw [Memory.length_bytesAt]; omega)
    simp only [Memory.bytesAt, List.getElem_map, List.getElem_range, Nat.add_sub_cancel' inside.1] at byte
    rw [byte, List.getD_eq_getElem]
  · rename_i outside
    rw [puts.outside.memory index outside, h.bytes]

/-- A machine begins with the map that all begin with. -/
theorem tracks_start (calldata : ByteArray) : Tracks calldata (.start calldata) .start := by
  have length : (Word.toBytes (Word.ofNat firstFree)).length = 32 := Word.toBytes_length _
  have word : (Memory.ofWord (Word.ofNat firstFree)).size = 32 := length
  have zeros : (Memory.appendZeros ByteArray.empty firstFree).size = 128 := Memory.size_appendZeros _ _
  have room : freePointerSlot + (Memory.ofWord (Word.ofNat firstFree)).size ≤
      (Memory.appendZeros ByteArray.empty firstFree).size := by
    rw [word, zeros]
    decide
  have size : (start calldata).memory.size = 128 := (Memory.size_put room).trans zeros
  refine ⟨fun index => ?_, rfl, by rw [size]; decide, by rw [size]; decide⟩
  rw [start, Memory.byteAt_put room, Memory.byteAt_appendZeros, word, Memory.byteAt_eq_getD,
    Memory.byteAt_of_size_le (Nat.zero_le index), ByteMap.start, ByteMap.overwrite, length]
  rfl

/-- What a step that fits leaves: it writes into the map, and memory grows. -/
theorem Tracks.performs (h : Tracks calldata machine memory) {action : MemoryAction} (fits : action.Fits memory) :
    ∃ after, action.run.run machine = .ok () after ∧
      machine.Puts after (action.written calldata memory).1 (action.written calldata memory).2 ∧
      machine.Enlarges after := by
  cases action with
  | write offset bytes =>
    obtain ⟨after, ran⟩ := write_ok machine offset bytes fits
    exact ⟨after, ran, (puts_of_write ran).2, enlarges_of_write ran⟩
  | mstore address value =>
    obtain ⟨after, ran⟩ := mstore_ok machine address value fits
    exact ⟨after, ran, (puts_of_mstore ran).2, enlarges_of_mstore ran⟩
  | mstore8 address value =>
    obtain ⟨after, ran, puts⟩ := mstore8_puts machine address value fits
    have lowest : Word.byteAt value 31 = UInt8.ofNat value.toNat := by simp [Word.byteAt]
    rw [lowest] at puts
    exact ⟨after, ran, puts, enlarges_of_mstore8 ran⟩
  | mcopy target source length =>
    obtain ⟨after, ran⟩ := mcopy_ok machine fits
    have puts := puts_of_mcopy ran
    rw [h.bytesAt] at puts
    exact ⟨after, ran, puts, enlarges_of_mcopy ran⟩
  | calldatacopy target source length =>
    obtain ⟨after, ran⟩ := calldatacopy_ok machine source fits
    have puts := (puts_of_calldatacopy ran).2
    rw [h.calldata] at puts
    exact ⟨after, ran, puts, enlarges_of_calldatacopy ran⟩
  | allocate size =>
    have free : machine.free = (memory.wordAt freePointerSlot).toNat := congrArg BitVec.toNat (h.wordAt _)
    have room : machine.free + size ≤ memoryLimit := free ▸ fits
    obtain ⟨after, ran, puts, enlarges⟩ := allocate_puts room
    rw [free] at puts
    exact ⟨after, Step.bind_of_ok ran, puts, enlarges⟩

/-- A step that does not fit fails at the limit and leaves the machine. -/
theorem Tracks.refuses (h : Tracks calldata machine memory) {action : MemoryAction} (beyond : ¬ action.Fits memory) :
    ∃ stop, action.run.run machine = .error (.memoryLimit stop) machine := by
  cases action with
  | write offset bytes => exact write_fails machine (Nat.lt_of_not_le beyond)
  | mstore address value => exact mstore_fails machine (Nat.lt_of_not_le beyond)
  | mstore8 address value => exact mstore8_fails machine (Nat.lt_of_not_le beyond)
  | mcopy target source length =>
    simp only [MemoryAction.Fits, not_or, not_and_or, Nat.not_le] at beyond
    exact mcopy_fails machine beyond.1 beyond.2
  | calldatacopy target source length =>
    simp only [MemoryAction.Fits, not_or, Nat.not_le] at beyond
    exact calldatacopy_fails machine beyond.1 beyond.2
  | allocate size =>
    have free : machine.free = (memory.wordAt freePointerSlot).toNat := congrArg BitVec.toNat (h.wordAt _)
    have full : memoryLimit < machine.free + size := free ▸ Nat.lt_of_not_le beyond
    obtain ⟨stop, failed⟩ := allocate_fails full
    exact ⟨stop, Step.bind_of_error failed⟩

/-- After a step, whether it fits or not, memory is the map after the step. -/
theorem Tracks.perform (h : Tracks calldata machine memory) (action : MemoryAction) :
    Tracks calldata (action.perform machine) (action.act calldata memory) := by
  unfold MemoryAction.act
  split
  · rename_i fits
    obtain ⟨after, ran, puts, enlarges⟩ := h.performs fits
    have reached : action.perform machine = after := by rw [MemoryAction.perform, MachineStep.runOn, ran]
    rw [reached]
    exact puts.tracks enlarges h
  · rename_i beyond
    obtain ⟨stop, failed⟩ := h.refuses beyond
    have reached : action.perform machine = machine := by rw [MemoryAction.perform, MachineStep.runOn, failed]
    rw [reached]
    exact h

/-- So it is after any steps. -/
theorem tracks_performAll (calldata : ByteArray) (actions : List MemoryAction) :
    Tracks calldata (MemoryAction.performAll calldata actions) (MemoryAction.actAll calldata actions) := by
  induction actions using List.reverseRecOn with
  | nil => exact tracks_start calldata
  | append_singleton actions action ih =>
    rw [MemoryAction.performAll_concat, MemoryAction.actAll_concat]
    exact ih.perform action

end

/-- After any steps from the start, memory consists of whole words and is within the limit, and what is read of it,
wherever that lies, is what stands in the map after the same steps, which is zero apart from the free memory pointer
where no step has written. Only loading a word is refused where its address is past the limit. A further step that fits
succeeds, and memory is no smaller then; one that does not fails at the limit and leaves the machine as it was, with its
memory, storage and record of copies. -/
theorem memory_is_bounded_byte_map (calldata : ByteArray) (actions : List MemoryAction) :
    let machine := MemoryAction.performAll calldata actions
    let memory := MemoryAction.actAll calldata actions
    (32 ∣ machine.memory.size ∧ machine.memory.size ≤ memoryLimit) ∧
      (∀ offset length, (Memory.slice machine.memory offset length).data.toList = memory.window offset length) ∧
      (∀ offset, machine.wordAt offset = memory.wordAt offset) ∧
      (∀ address : Word,
        (address.toNat ≤ memoryLimit → (mload address).run machine = .ok (memory.wordAt address.toNat) machine) ∧
        (memoryLimit < address.toNat → (mload address).run machine = .error (.memoryLimit address.toNat) machine)) ∧
      (∀ index, index < freePointerSlot ∨ freePointerSlot + 32 ≤ index →
        (∀ earlier action later, actions = earlier ++ action :: later →
          ¬ action.Writes calldata (MemoryAction.actAll calldata earlier) index) → memory index = 0) ∧
      ∀ action : MemoryAction,
        (action.Fits memory → ∃ after, action.run.run machine = .ok () after ∧
          after = MemoryAction.performAll calldata (actions ++ [action]) ∧
          machine.memory.size ≤ after.memory.size) ∧
        (¬ action.Fits memory → ∃ stop, action.run.run machine = .error (.memoryLimit stop) machine) := by
  have tracks := tracks_performAll calldata actions
  refine ⟨⟨tracks.words, tracks.within⟩, tracks.slice, tracks.wordAt, fun address =>
    ⟨fun near => ?_, mload_fails _⟩, fun index => MemoryAction.actAll_eq_zero, fun action =>
    ⟨fun fits => ?_, tracks.refuses⟩⟩
  · rw [run_mload near, tracks.wordAt]
  · obtain ⟨after, ran, -, enlarges⟩ := tracks.performs fits
    refine ⟨after, ran, ?_, enlarges.grows⟩
    rw [MemoryAction.performAll_concat, MemoryAction.perform, MachineStep.runOn, ran]

/-- Three bytes that are copied one byte up, over themselves, and two of call data that has only one behind them. -/
def shifted : List MemoryAction :=
  [.write 128 ⟨#[1, 2, 3]⟩, .mcopy 129#256 128#256 3#256, .calldatacopy 132#256 0#256 2#256]

/-- The copy has what stood there before it, and the missing byte is zero. A word that would end behind the last byte
that memory may have is refused, and one that ends with it is not. -/
theorem shifted_is_byte_map :
    let machine := MemoryAction.performAll ⟨#[9]⟩ shifted
    (Memory.slice machine.memory 128 7).data.toList = [1, 1, 2, 3, 9, 0, 0] ∧
      (∃ stop, (mstore 0xffffe1#256 7#256).run machine = .error (.memoryLimit stop) machine) ∧
      ∃ after, (mstore 0xffffe0#256 7#256).run machine = .ok () after ∧ machine.memory.size ≤ after.memory.size := by
  obtain ⟨-, slices, -, -, -, further⟩ := memory_is_bounded_byte_map ⟨#[9]⟩ shifted
  refine ⟨(slices 128 7).trans (by decide +kernel), ?_, ?_⟩
  · exact (further (.mstore 0xffffe1#256 7#256)).2 (by decide +kernel)
  · obtain ⟨after, ran, -, grows⟩ := (further (.mstore 0xffffe0#256 7#256)).1 (by decide +kernel)
    exact ⟨after, ran, grows⟩

end Machine

end YulAbi
