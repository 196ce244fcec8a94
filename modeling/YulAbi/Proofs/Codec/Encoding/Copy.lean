import YulAbi.Proofs.Codec.Decoding.Copy
import YulAbi.Proofs.Codec.Encoding.Written

/-!
# Writing what is copied as it is

Words in a row are written by one copy. So are bytes, but for their padding: the last word
is zeroed first, and the copy leaves of it what lies behind the content.
-/

namespace YulAbi.Codec

open Value (Stands encodeAs encodeBytes lengthSize lengthWord padding sequenceBytes storedCount)

section

variable {before after machine : Machine} {shape base : Shape} {length : Option Nat} {value : Value}
  {content encoding : List UInt8} {pointer target size word : Word} {offset count : Nat}

/-- Zeros stand where every byte is zero. -/
theorem holds_zeros {bytes : ByteArray} (zeros : ∀ index < count, Memory.byteAt bytes (offset + index) = 0) :
    Memory.Holds bytes offset (List.replicate count 0) := by
  rw [Memory.Holds, List.length_replicate]
  refine List.ext_getElem (by rw [Memory.length_bytesAt, List.length_replicate]) fun index inside inside' => ?_
  rw [Memory.length_bytesAt] at inside
  simp only [Memory.bytesAt, List.getElem_map, List.getElem_range, List.getElem_replicate]
  exact zeros index inside

/-- Every byte of the word zero is zero. -/
theorem byteAt_of_zero_word {bytes : ByteArray} (zero : Memory.wordAt bytes offset = 0#256) :
    ∀ index < 32, Memory.byteAt bytes (offset + index) = 0 := by
  have written : Word.toBytes 0#256 = Memory.bytesAt ByteArray.empty 0 32 := by decide
  have held := Memory.holds_toBytes.mpr zero
  rw [written] at held
  intro index inside
  rw [Memory.holds_bytesAt_iff.mp held index inside]
  exact Memory.byteAt_of_size_le (Nat.zero_le _)

/-- The pointer to a flat value that is not a word is within the limit. -/
theorem le_of_readAs (flat : shape.IsFlat) (read : Value.readAs machine shape pointer = .ok value) :
    pointer.toNat ≤ memoryLimit := by
  cases flat with
  | bytes bytesLike =>
    obtain ⟨content, -, near, -⟩ := (Value.readAs_bytes bytesLike).mp read
    exact near
  | array length words =>
    obtain ⟨elements, -, near, -⟩ := Value.readAs_array.mp read
    exact near
  | composite composite words =>
    obtain ⟨values, -, near, -⟩ := (Value.readAs_composite composite).mp read
    exact near

/-- A flat value without padding is written by one copy. -/
theorem mcopy_writes (flat : shape.IsFlat) (noBytes : shape.isBytesLike = false)
    (stands : Stands machine 0 target.toNat shape pointer value) (encoded : encodeAs shape value = .ok encoding)
    (extent : size.toNat = encoding.length) (room : target.toNat + encoding.length ≤ memoryLimit) :
    ∃ after, (Machine.mcopy target pointer size).run machine = .ok () after ∧
      machine.Puts after target.toNat encoding := by
  have near := le_of_readAs flat stands.read
  have holds := Value.holds_of_readAs flat noBytes stands.read encoded
  have fits : size.toNat = 0 ∨ pointer.toNat ≤ memoryLimit ∧ target.toNat + size.toNat ≤ memoryLimit :=
    .inr ⟨near, by omega⟩
  obtain ⟨after, copying⟩ := Machine.mcopy_ok machine fits
  have puts := Machine.puts_of_mcopy copying
  rw [extent, show Memory.bytesAt machine.memory pointer.toNat encoding.length = encoding from holds] at puts
  exact ⟨after, copying, puts⟩

/-- Bytes that have been copied over a zeroed word are encoded. -/
theorem puts_encodeBytes {zeroed : Machine}
    (counted : (machine.wordAt pointer.toNat).toNat = content.length)
    (holds : Memory.Holds machine.memory (pointer.toNat + wordBytes) content)
    (below : pointer.toNat + 32 + content.length ≤ target.toNat)
    (zeros : machine.Puts zeroed (target.toNat + (content.length + 31) / 32 * 32) (Word.toBytes 0#256))
    (copied : zeroed.Puts after target.toNat (Memory.bytesAt zeroed.memory pointer.toNat (content.length + 32))) :
    machine.Puts after target.toNat (encodeBytes content) := by
  have source : ∀ index < content.length + 32,
      Memory.byteAt after.memory (target.toNat + index) = Memory.byteAt machine.memory (pointer.toNat + index) := by
    intro index inside
    rw [Memory.holds_bytesAt_iff.mp copied.inside index inside]
    exact zeros.outside.memory _ fun covered => by omega
  have outside := copied.outside
  rw [Memory.length_bytesAt] at outside
  constructor
  · rw [encodeBytes, Memory.holds_append, Memory.holds_append, Memory.holds_toBytes, Word.toBytes_length]
    refine ⟨⟨?_, ?_⟩, holds_zeros fun index inside => ?_⟩
    · rw [← counted, Word.ofNat_toNat]
      exact Memory.wordAt_congr fun index inside => source index (by omega)
    · refine holds.congr fun index inside => ?_
      have byte := source (32 + index) (by omega)
      rwa [← Nat.add_assoc, ← Nat.add_assoc] at byte
    · rw [padding] at inside
      rw [List.length_append, Word.toBytes_length, outside.memory _ fun covered => by omega]
      -- The padding lies in the word that was zeroed.
      have place : target.toNat + (32 + content.length) + index = target.toNat + (content.length + 31) / 32 * 32 +
          (32 + content.length + index - (content.length + 31) / 32 * 32) := by omega
      rw [place]
      exact byteAt_of_zero_word zeros.wordAt _ (by omega)
  · have total := Value.length_encodeBytes content
    refine (zeros.changes fun index lower upper => ?_).trans (outside.mono fun index covered => ?_)
    · rw [Word.toBytes_length] at upper
      omega
    · omega

/-- The size of the tail of a flat value is that of its encoding. -/
theorem tailExtent_encoding (flat : shape.IsFlat) (dynamic : shape.isDynamicallyEncoded = true)
    (read : Value.readAs machine shape pointer = .ok value) (encoded : encodeAs shape value = .ok encoding) :
    tailExtent shape (machine.wordAt pointer.toNat) = Word.ofNat encoding.length ∧ encoding.length < 2 ^ 64 := by
  have limit : memoryLimit < 2 ^ 32 := by decide
  have span : Value.tailSpan shape (machine.wordAt pointer.toNat).toNat = encoding.length ∧ encoding.length < 2 ^ 64 := by
    rcases flat.of_dynamic dynamic with bytesLike | ⟨base, rfl, words⟩
    · obtain ⟨content, rfl, -, counted, few, -⟩ := (Value.readAs_bytes bytesLike).mp read
      obtain ⟨other, same, rfl⟩ := (Value.encodeAs_bytes bytesLike).mp encoded
      cases same
      have total := Value.length_encodeBytes content
      rw [counted, Value.tailSpan, if_pos bytesLike]
      omega
    · obtain ⟨elements, rfl, -, counted, few, -⟩ := Value.readAs_array.mp read
      have holds := Value.holds_of_readAs flat rfl read encoded
      obtain ⟨others, encodings, same, -, -, each, rfl⟩ := Value.encodeAs_array.mp encoded
      cases same
      have isWord := Value.words_replicate words elements.length
      have total := each.length_sequenceBytes
      rw [Value.headBytesSum_words isWord, List.length_replicate, Value.tailsBefore_static fun member listed =>
        Shape.isDynamicallyEncoded_of_isValueType (isWord member listed), wordBytes] at total
      have size : (machine.wordAt pointer.toNat).toNat = elements.length := counted
      rw [size, Value.tailSpan, if_neg (by simp [Shape.isBytesLike]), List.length_append,
        Value.length_lengthWord_eq, total]
      simp only [lengthSize, wordBytes]
      omega
  have small : Value.tailSpan shape (machine.wordAt pointer.toNat).toNat < 2 ^ 256 := by omega
  refine ⟨?_, span.2⟩
  rw [← span.1, ← toNat_tailExtent small, Word.ofNat_toNat]

/-- The tail of a flat value is written. -/
theorem copyTail_writes (flat : shape.IsFlat) (dynamic : shape.isDynamicallyEncoded = true)
    (stands : Stands machine 0 target.toNat shape pointer value) (encoded : encodeAs shape value = .ok encoding)
    (room : target.toNat + encoding.length ≤ memoryLimit) :
    ∃ after, (copyTail shape.isBytesLike pointer (machine.wordAt pointer.toNat)
      (tailExtent shape (machine.wordAt pointer.toNat)) target).run machine = .ok () after ∧
      machine.Puts after target.toNat encoding := by
  have limit : memoryLimit < 2 ^ 64 := by decide
  obtain ⟨extent, small⟩ := tailExtent_encoding flat dynamic stands.read encoded
  have size : (tailExtent shape (machine.wordAt pointer.toNat)).toNat = encoding.length := by
    rw [extent, Word.toNat_ofNat (by omega)]
  cases bytesLike : shape.isBytesLike with
  | false =>
    obtain ⟨after, copying, puts⟩ := mcopy_writes flat bytesLike stands encoded size room
    refine ⟨after, ?_, puts⟩
    rw [copyTail, if_neg Bool.false_ne_true]
    exact copying
  | true =>
    obtain ⟨content, rfl, near, counted, few, holds⟩ := (Value.readAs_bytes bytesLike).mp stands.read
    obtain ⟨other, same, rfl⟩ := (Value.encodeAs_bytes bytesLike).mp encoded
    cases same
    have total := Value.length_encodeBytes content
    have below : pointer.toNat + 32 + content.length ≤ target.toNat := by
      have last := (stands.within (pointer.toNat + 31 + content.length)
        ((Value.reads_bytes bytesLike).mpr ⟨by omega, by rw [counted, wordBytes]; omega⟩)).2
      omega
    have last : (target + (tailExtent shape (machine.wordAt pointer.toNat) - 32#256)).toNat =
        target.toNat + (content.length + 31) / 32 * 32 := by
      have wide : (32#256 : Word).toNat = 32 := rfl
      have less : (tailExtent shape (machine.wordAt pointer.toNat) - 32#256).toNat = (content.length + 31) / 32 * 32 := by
        rw [BitVec.toNat_sub_of_le (by rw [BitVec.le_def]; omega)]
        omega
      rw [Word.toNat_add] <;> rw [less]
      omega
    have count : (machine.wordAt pointer.toNat + 32#256).toNat = content.length + 32 := by
      have wide : (32#256 : Word).toNat = 32 := rfl
      rw [Word.toNat_add] <;> omega
    obtain ⟨zeroed, zeroing⟩ := Machine.mstore_ok machine
      (target + (tailExtent shape (machine.wordAt pointer.toNat) - 32#256)) 0#256 (by rw [last]; omega)
    have zeros := (Machine.puts_of_mstore zeroing).2
    have fits : (machine.wordAt pointer.toNat + 32#256).toNat = 0 ∨ pointer.toNat ≤ memoryLimit ∧
        target.toNat + (machine.wordAt pointer.toNat + 32#256).toNat ≤ memoryLimit := .inr ⟨near, by omega⟩
    obtain ⟨after, copying⟩ := Machine.mcopy_ok zeroed fits
    have puts := Machine.puts_of_mcopy copying
    rw [last] at zeros
    rw [count] at puts
    refine ⟨after, ?_, puts_encodeBytes counted holds below zeros puts⟩
    rw [copyTail, if_pos rfl, Step.bind_of_ok zeroing]
    exact copying

/-- Bytes are written like the tail of an element. -/
theorem encodeBytesAt_writes (bytesLike : shape.isBytesLike = true) : Writes encodeBytesAt shape := by
  intro machine pointer target value encoding stands encoded room
  have flat : shape.IsFlat := .bytes bytesLike
  have dynamic := Value.isDynamicallyEncoded_of_isBytesLike bytesLike
  obtain ⟨after, copying, puts⟩ := copyTail_writes flat dynamic stands encoded room
  obtain ⟨extent, -⟩ := tailExtent_encoding flat dynamic stands.read encoded
  have near := le_of_readAs flat stands.read
  have same : tailExtent shape = paddedExtent := by rw [tailExtent, if_pos bytesLike]
  rw [bytesLike, same, copyTail, if_pos rfl] at copying
  obtain ⟨_, zeroed, zeroing, filling⟩ := Step.bind_eq_ok.mp copying
  refine ⟨after, ?_, puts⟩
  rw [encodeBytesAt, Step.bind_of_ok (Machine.run_mload near machine), Step.bind_of_ok zeroing,
    Step.bind_of_ok filling, ← extent, same]
  rfl

/-- Arrays of words are written. -/
theorem encodeWordsAt_writes (words : base.isValueType = true) (length : Option Nat)
    (few : ∀ expected ∈ length, expected < 2 ^ 64) : Writes (encodeWordsAt length) (.array base length) := by
  have limit : memoryLimit < 2 ^ 64 := by decide
  intro machine pointer target value encoding stands encoded room
  have flat : (Shape.array base length).IsFlat := .array length words
  have near := le_of_readAs flat stands.read
  have measured : (wordsExtentIn length pointer).run machine = .ok (Word.ofNat encoding.length) machine := by
    cases length with
    | none =>
      obtain ⟨extent, -⟩ := tailExtent_encoding flat rfl stands.read encoded
      rw [wordsExtentIn, Step.bind_of_ok (Machine.run_mload near machine), ← extent, tailExtent,
        if_neg (by simp [Shape.isBytesLike])]
      rfl
    | some expected =>
      have static : (Shape.array base (some expected)).isDynamicallyEncoded = false := by
        rw [Shape.isDynamicallyEncoded, Shape.isDynamicallyEncoded_of_isValueType words]
      rw [Value.length_encodeAs_static static encoded, Shape.staticBytes, Shape.staticBytes_word words]
      rfl
  obtain ⟨after, copying, puts⟩ := mcopy_writes flat rfl stands encoded
    (Word.toNat_ofNat (show encoding.length < 2 ^ 256 by omega)) room
  refine ⟨after, ?_, puts⟩
  rw [encodeWordsAt, Step.bind_of_ok measured, Step.bind_of_ok copying]
  rfl

/-- Words are written as they are. -/
theorem mstore_writes (valueType : shape.isValueType = true) : Writes (fun word target => do
    Machine.mstore target word
    return 32#256) shape := by
  intro machine word target value encoding stands encoded room
  obtain ⟨other, rfl, rfl⟩ := (Value.encodeAs_word valueType).mp encoded
  have same := stands.read
  rw [Value.readAs_word valueType] at same
  cases same
  rw [Word.toBytes_length] at room ⊢
  obtain ⟨after, stored⟩ := Machine.mstore_ok machine target word room
  refine ⟨after, ?_, (Machine.puts_of_mstore stored).2⟩
  rw [Step.bind_of_ok stored]
  rfl

end

end YulAbi.Codec
