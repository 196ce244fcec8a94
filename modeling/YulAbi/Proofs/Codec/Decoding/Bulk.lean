import YulAbi.Proofs.Codec.Decoding.Decoded
import YulAbi.Proofs.Codec.Decoding.DynamicTail
import YulAbi.Proofs.Codec.Session
import YulAbi.Proofs.Machine.Steps
import YulAbi.Proofs.Yul.Budget

/-!
# What decoders of arrays copy

Unless its elements are decoded one by one, an array is decoded by one copy of call data and none
within memory. What is copied is the encoding, without the length word where the elements are
moved behind pointers to them. Nothing is recorded only if there is nothing to copy.

The decoder of elements of one dynamic level copies its array once it has compared the end of the
array with the size of call data. The end is a word, so it may wrap, and the pointer may be any
word. The check still admits nothing beyond the end of call data but one thing: an array of no
elements whose length word would end where words wrap.
-/

namespace YulAbi.Codec

open Value (allocated encodeAs flatExtent lengthSize storedCount)

/-! ### Elements of one dynamic level -/

section

variable {settings : Settings} {unit : CodeUnit} {before after : Workspace} {base : SolType} {element : Shape}
  {length : Option Nat} {name : String} {machine final filled grown : Machine} {source word count tail : Word}

/-- The decoder records the one copy that it makes. -/
theorem TailsDecoded.logs (h : TailsDecoded machine final element length source word count tail filled grown) :
    machine.Logs final (if (tail + leadSize length).toNat = 0 then [] else [(tail + leadSize length).toNat]) := by
  refine ((Machine.logs_of_calldatacopy h.copied).quiet (Machine.logs_of_mstore h.moved)).quiet
    (Machine.logs_of_rounds (fun index _ reached later ran => ?_) h.linked)
  obtain ⟨offset, read, loaded, stored⟩ := Step.bind_eq_ok.mp ran
  obtain ⟨-, -, rfl⟩ := Machine.eq_of_mload loaded
  exact Machine.logs_of_mstore stored

/-- What is copied ends inside call data, or it is the length word of an empty array and ends where words wrap. -/
theorem TailsDecoded.bounded (short : machine.calldata.size < 2 ^ 64)
    (h : TailsDecoded machine final element length source word count tail filled grown) :
    source.toNat + (tail + leadSize length).toNat ≤ machine.calldata.size ∨
      (length = none ∧ storedCount machine.calldata length source.toNat = 0 ∧
        (tail + leadSize length).toNat = wordBytes ∧ 2 ^ 256 ≤ source.toNat + wordBytes) := by
  have within := h.within
  have below := tailOffset_le h.few (Nat.le_refl _) h.tails
  have summed := h.summed
  have few := h.few
  have lead := toNat_leadSize length
  have most := lengthSize_le length
  by_cases some : 0 < count.toNat
  · have head := toNat_callHead short (h.counted ▸ some) (by have := h.near; omega)
    have near := h.near
    have size : (tail + leadSize length).toNat = tail.toNat + lengthSize length := by rw [Word.toNat_add] <;> omega
    rw [Word.toNat_add (by omega)] at within
    exact .inl within
  · have none' : count.toNat = 0 := Nat.eq_zero_of_not_pos some
    have empty : tail.toNat = 0 := by rw [summed, none', tailOffset, Nat.mul_zero]
    have size : (tail + leadSize length).toNat = lengthSize length := by rw [Word.toNat_add] <;> omega
    by_cases wraps : source.toNat + lengthSize length < 2 ^ 256
    · rw [Word.toNat_add (by omega)] at within
      exact .inl within
    · cases length with
      | some expected =>
        rw [lengthSize] at wraps
        exact absurd source.isLt wraps
      | none => exact .inr ⟨rfl, by rw [← h.counted, none'], size, Nat.le_of_not_lt wraps⟩

/-- Whatever the call data and the pointer, what a decoder of elements of one dynamic level copies lies inside call
data, with the end counted without any wrap. The exception is an empty array whose length word ends where words wrap. -/
theorem dynamicTail_copies_inside (session : Session settings unit before)
    (answered : (decode settings (.array base length)).runOn before = (.ok (.routine name), after))
    (data : (SolType.array base length).shape.isData = true)
    (strategy : base.shape.elementStrategy = .combinedDynamicTail) (addressed : machine.calldata.size < 2 ^ 64)
    {limit : Nat} {words : List Word} (returned : (after.unit.call limit name [source]).run machine = .ok words final) :
    ∃ size, final.calldataCopies = (if size = 0 then [] else [size]) ++ machine.calldataCopies ∧
      (source.toNat + size ≤ machine.calldata.size ∨
        (length = none ∧ storedCount machine.calldata length source.toNat = 0 ∧ size = wordBytes ∧
          2 ^ 256 ≤ source.toNat + wordBytes)) := by
  obtain ⟨-, few⟩ := Shape.isData_array data
  have decodes : decodeAt settings.bridgedReferences (SolType.array base length).shape =
      decodeDynamicTail length (tailExtent base.shape) := by
    funext source
    rw [SolType.shape, decodeAt, strategy]
  have acts : after.unit.CallActs name [source] (do
      let word ← decodeDynamicTail length (tailExtent base.shape) source
      return [word]) := by
    rw [← decodes]
    exact session.decodes answered source
  obtain ⟨word, reached, decoded, same⟩ := Step.bind_eq_ok.mp (acts.of_call_ok returned)
  cases same
  obtain ⟨count, tail, filled, grown, done⟩ := tailsDecoded_of_ok few addressed decoded
  exact ⟨_, done.logs.calldata, done.bounded addressed⟩

end

/-! ### One copy -/

/-- The bytes of an encoding that are copied in one go. -/
def bulkSize (strategy : ArrayStrategy) (length : Option Nat) (encoding : List UInt8) : Nat :=
  if strategy = .combinedStaticTail then encoding.length - lengthSize length else encoding.length

section

variable {before after : Machine} {base : Shape} {length : Option Nat} {value : Value} {encoding : List UInt8}
  {source word size : Word} {extent : Word → MachineStep Word} {elements : List Value} {encodings : List (List UInt8)}

/-- The encoding of static elements has their bytes behind the length word. -/
theorem EncodedArray.length_static {calldata : ByteArray} (static : base.isDynamicallyEncoded = false)
    (array : EncodedArray calldata base length source encoding elements encodings) :
    encoding.length = lengthSize length + elements.length * base.staticBytes := by
  rw [array.total, array.each.length_sequenceBytes, Value.headBytesSum_replicate, Shape.headBytes_static static,
    Value.tailsBefore_static fun member listed => List.eq_of_mem_replicate listed ▸ static, Nat.add_zero]

/-- The encoding of dynamic elements has their offsets and their tails behind the length word. -/
theorem EncodedArray.length_dynamic {calldata : ByteArray} (flat : base.IsFlat) (dynamic : base.isDynamicallyEncoded = true)
    (array : EncodedArray calldata base length source encoding elements encodings) :
    encoding.length = lengthSize length +
      (wordBytes * elements.length + Value.allocatedEach (List.replicate elements.length base) elements) := by
  have width : base.headBytes = wordBytes := Shape.headBytes_dynamic dynamic
  rw [array.total, array.each.length_sequenceBytes, Value.headBytesSum_replicate, width, List.length_replicate,
    Value.allocatedEach_dynamic flat dynamic array.each, Nat.mul_comm]

/-- A decoder that copies records its copy. -/
theorem decodeCopy_logs (measured : (extent source).run before = .ok size before)
    (h : (decodeCopy extent source).run before = .ok word after) :
    before.Logs after (if size.toNat = 0 then [] else [size.toNat]) := by
  rw [decodeCopy, Step.bind_of_ok (Machine.run_mload_free before), Step.bind_of_ok measured] at h
  obtain ⟨_, middle, copied, moving⟩ := Step.bind_eq_ok.mp h
  obtain ⟨_, stored, moved, last⟩ := Step.bind_eq_ok.mp moving
  obtain ⟨-, rfl⟩ := Step.pure_eq_ok.mp last
  exact (Machine.logs_of_calldatacopy copied).quiet (Machine.logs_of_mstore moved)

/-- A number of elements that is stored is not recorded. -/
theorem logs_of_storeCount {target count : Word} (h : (storeCount length target count).run before = .ok () after) :
    before.Logs after [] := by
  cases length with
  | none => exact Machine.logs_of_mstore h
  | some expected =>
    cases h
    exact .refl _

/-- The decoder of static elements records the copy of all elements. -/
theorem decodeStaticTail_logs {element : Word} (few : ∀ expected ∈ length, expected < 2 ^ 64)
    (h : (decodeStaticTail length element source).run before = .ok word after) :
    ∃ count : Word, count.toNat = storedCount before.calldata length source.toNat ∧
      before.Logs after (if (count * element).toNat = 0 then [] else [(count * element).toNat]) := by
  obtain ⟨count, counted, same⟩ := run_countAt few source before
  rw [decodeStaticTail, Step.bind_of_ok (Machine.run_mload_free before), Step.bind_of_ok counted] at h
  obtain ⟨_, opened, stored, copying⟩ := Step.bind_eq_ok.mp h
  obtain ⟨_, filled, copied, moving⟩ := Step.bind_eq_ok.mp copying
  obtain ⟨_, grown, moved, looping⟩ := Step.bind_eq_ok.mp moving
  obtain ⟨_, linked, looped, last⟩ := Step.bind_eq_ok.mp looping
  obtain ⟨-, rfl⟩ := Step.pure_eq_ok.mp last
  exact ⟨count, same, (((logs_of_storeCount stored).behind (Machine.logs_of_calldatacopy copied)).quiet
    (Machine.logs_of_mstore moved)).quiet (Machine.logs_of_rounds (fun _ _ _ _ => Machine.logs_of_mstore) looped)⟩

/-- The decoder of an encoded array records one copy, of the size that its strategy says. -/
theorem decodeAt_logs {cap : Nat} (data : (Shape.array base length).isData = true)
    (bulk : base.elementStrategy ≠ .separateTail) (short : before.calldata.size < 2 ^ 64)
    (encoded : encodeAs (.array base length) value = .ok encoding)
    (holds : Memory.Holds before.calldata source.toNat encoding)
    (inside : source.toNat + encoding.length ≤ before.calldata.size)
    (few : allocated (.array base length) value < 2 ^ 256)
    (h : (decodeAt cap (.array base length) source).run before = .ok word after) :
    before.Logs after (if bulkSize base.elementStrategy length encoding = 0 then []
      else [bulkSize base.elementStrategy length encoding]) := by
  obtain ⟨part, small⟩ := Shape.isData_array data
  rw [decodeAt_array] at h
  cases strategy : base.elementStrategy with
  | valueInline =>
    rw [strategy] at h
    have words := Shape.isValueType_of_strategy strategy
    obtain ⟨size, measured, same⟩ := wordsExtentAt_measures words length source before
    have extent := Value.length_of_holds (.array length words) encoded holds (by omega)
    have logged := decodeCopy_logs measured h
    rw [same (by omega), ← extent] at logged
    exact logged
  | combinedStaticTail =>
    rw [strategy] at h
    obtain ⟨flat, static⟩ := Shape.isFlat_of_staticTail part strategy
    obtain ⟨elements, encodings, rfl, array⟩ := encodedArray encoded holds (by omega) few
    have total := array.length_static static
    obtain ⟨count, counted, logged⟩ := decodeStaticTail_logs small h
    have narrow := staticBytes_lt_of_isFlat flat part
    have size : (count * Word.ofNat base.staticBytes).toNat = encoding.length - lengthSize length := by
      rw [Word.toNat_mul] <;> rw [Word.toNat_ofNat (by omega), counted, ← array.counted]
      all_goals omega
    rw [size] at logged
    exact logged
  | combinedDynamicTail =>
    rw [strategy] at h
    obtain ⟨flat, dynamic⟩ := Shape.isFlat_of_dynamicTail part strategy
    obtain ⟨elements, encodings, rfl, array⟩ := encodedArray encoded holds (by omega) few
    obtain ⟨count, tail, filled, grown, done⟩ := tailsDecoded_of_ok small short h
    have total := array.length_dynamic flat dynamic
    have stop := (canonical_of_encoded flat dynamic short array inside).2
    have summed := done.summed
    rw [array.head, done.counted, ← array.counted, stop] at summed
    have size : (tail + leadSize length).toNat = encoding.length := by
      rw [Word.toNat_add] <;> rw [toNat_leadSize, summed]
      all_goals omega
    have logged := done.logs
    rw [size] at logged
    exact logged
  | separateTail => exact absurd strategy bulk

end

section

variable {settings : Settings} {unit : CodeUnit} {before after : Workspace} {base : SolType} {length : Option Nat}
  {strategy : ArrayStrategy} {name : String} {machine : Machine} {source : Word} {value : Value} {encoding : List UInt8}

/-- If the strategy of an array is not to decode its elements one by one, decoding an encoded array copies call data
once, unless there is nothing to copy, and copies nothing within memory. The copy is all of the encoding, but without
the length word where static elements are moved behind pointers. -/
theorem bulk_array_decodes_by_one_copy (session : Session settings unit before)
    (answered : (decode settings (.array base length)).runOn before = (.ok (.routine name), after))
    (data : (SolType.array base length).shape.isData = true)
    (classified : (SolType.array base length).shape.arrayStrategy = .ok strategy) (bulk : strategy ≠ .separateTail)
    (above : Machine.freePointerSlot + wordBytes ≤ machine.free) (addressed : machine.calldata.size < 2 ^ 64)
    (encoded : encodeAs (SolType.array base length).shape value = .ok encoding)
    (holds : Memory.Holds machine.calldata source.toNat encoding)
    (inside : source.toNat + encoding.length ≤ machine.calldata.size)
    (room : machine.free + allocated (SolType.array base length).shape value ≤ memoryLimit) :
    ∃ word final enough,
      (∀ limit, enough ≤ limit → (after.unit.call limit name [source]).run machine = .ok [word] final) ∧
      final.memoryCopies = machine.memoryCopies ∧
      final.calldataCopies = (if bulkSize strategy length encoding = 0 then [] else [bulkSize strategy length encoding]) ++
        machine.calldataCopies := by
  have limit : memoryLimit < 2 ^ 256 := by decide
  have roomy : machine.Roomy := ⟨above, Nat.le_trans (Nat.le_add_right _ _) room⟩
  obtain rfl : base.shape.elementStrategy = strategy := Except.ok.inj classified
  have acts : after.unit.CallActs name [source] (do
      let word ← decodeAt settings.bridgedReferences (SolType.array base length).shape source
      return [word]) := session.decodes answered source
  obtain ⟨word, final, decoded⟩ :=
    decodeAt_succeeds data rfl source machine value encoding roomy addressed encoded holds inside room
  have few : allocated (SolType.array base length).shape value < 2 ^ 256 := by omega
  have logged := decodeAt_logs data bulk addressed encoded holds inside few decoded
  obtain ⟨enough, ends⟩ := acts.exists_enough machine
  refine ⟨word, final, enough, fun limit long => ?_, logged.memory, logged.calldata⟩
  rw [ends limit long, Step.bind_of_ok decoded]
  rfl

/-- A pair of words. -/
def wordPairType : SolType := .array (.integer false 256) (some 2)

/-- Two pairs. -/
def pairList : Value := .array [.array [.word 1#256, .word 2#256], .array [.word 3#256, .word 4#256]]

/-- The encoding of two pairs: how many there are, and their words. -/
def pairListBytes : List UInt8 := [2#256, 1#256, 2#256, 3#256, 4#256].flatMap Word.toBytes

/-- A machine whose call data are the encoding of two pairs. -/
def pairListCall : Machine := .start ⟨pairListBytes.toArray⟩

/-- Two pairs are decoded by one copy of their four words. -/
theorem pairList_decodes_by_one_copy : ∃ name after word final enough,
    (decode .standard (.array wordPairType none)).runOn (.start .empty) = (.ok (.routine name), after) ∧
    (∀ limit, enough ≤ limit → (after.unit.call limit name [0#256]).run pairListCall = .ok [word] final) ∧
    final.memoryCopies = [] ∧ final.calldataCopies = [128] := by
  have answered : (decode .standard (.array wordPairType none)).runOn (.start .empty) =
      (.ok (.routine "abi_decode_uint256_array2_array"), ((decode .standard (.array wordPairType none)).runOn (.start .empty)).2) :=
    Prod.ext (by decide +kernel) rfl
  have session : Session .standard .empty (.start .empty) := .start
  have free : pairListCall.free = 128 := by decide +kernel
  have encoded : encodeAs (SolType.array wordPairType none).shape pairList = .ok pairListBytes := by decide +kernel
  have holds : Memory.Holds pairListCall.calldata (0#256).toNat pairListBytes := by
    unfold Memory.Holds
    decide +kernel
  have classified : (SolType.array wordPairType none).shape.arrayStrategy = .ok .combinedStaticTail := by decide +kernel
  have inside : (0#256).toNat + pairListBytes.length ≤ pairListCall.calldata.size := by decide +kernel
  have room : pairListCall.free + allocated (SolType.array wordPairType none).shape pairList ≤ memoryLimit := by
    rw [free]
    decide +kernel
  have copied : bulkSize .combinedStaticTail none pairListBytes = 128 := by decide +kernel
  obtain ⟨word, final, enough, ends, within, once⟩ := bulk_array_decodes_by_one_copy session answered (by decide +kernel)
    classified (by decide) (by rw [free]; decide) (by decide +kernel) encoded holds inside room
  rw [copied] at once
  exact ⟨_, _, word, final, enough, answered, ends, within, once⟩

end

end YulAbi.Codec
