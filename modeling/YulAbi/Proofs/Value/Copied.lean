import YulAbi.Proofs.Value.Allocated
import YulAbi.Proofs.Value.Encoded
import YulAbi.Proofs.Value.Stands
import YulAbi.Proofs.Word

/-!
# Copied values

A flat value is bytes or words in a row. Words are the same in memory and in an encoding, so
where they are read their encoding stands; bytes differ in padding, which is never read.

A copy of the encoding of a flat value is the value in memory. The copy needs no more than
the length word to know its size, whatever else the bytes are, and if they are an encoding
then the copy is the value that was encoded. Sizes are counted here without any wrap.
-/

namespace YulAbi

open Shape (headBytesSum)

namespace Value

section

variable {machine : Machine} {shape base : Shape} {length : Option Nat} {members : List Shape} {value : Value}
  {values : List Value} {encoding : List UInt8} {encodings : List (List UInt8)} {word : Word}

/-- The heads of words. -/
theorem headBytesSum_words (words : ∀ member ∈ members, member.isValueType = true) :
    headBytesSum members = wordBytes * members.length := by
  induction members with
  | nil => rfl
  | cons member rest ih =>
    have own := words member List.mem_cons_self
    rw [headBytesSum, ih fun other listed => words other (List.mem_cons_of_mem _ listed), Shape.headBytes_word own,
      List.length_cons, Nat.mul_succ]
    omega

/-- Words are encoded in a row. -/
theorem EncodesEach.holds_words (each : EncodesEach members values encodings)
    (words : ∀ member ∈ members, member.isValueType = true) {bytes : ByteArray} {start : Nat} :
    Memory.Holds bytes start (sequenceBytes members encodings) ↔
      ∀ position (inside : position < values.length),
        values[position] = .word (Memory.wordAt bytes (start + wordBytes * position)) := by
  have placed : ∀ position < members.length,
      headBytesSum (members.take position) = wordBytes * position := fun position inside => by
    rw [headBytesSum_words fun member listed => words member (List.mem_of_mem_take listed), List.length_take,
      Nat.min_eq_left (by omega)]
  have part : ∀ position (inside : position < members.length) (inside' : position < values.length)
      (inside'' : position < encodings.length),
      PartStands bytes members[position].isDynamicallyEncoded (start + headBytesSum (members.take position))
        (headBytesSum members + tailsBefore members encodings position)
        (start + headBytesSum members + tailsBefore members encodings position) encodings[position] ↔
        values[position] = .word (Memory.wordAt bytes (start + wordBytes * position)) := by
    intro position inside inside' inside''
    have valueType := words _ (List.getElem_mem inside)
    obtain ⟨word, same, written⟩ := (encodeAs_word valueType).mp (each.each position inside inside' inside'')
    simp only [PartStands, Shape.isDynamicallyEncoded_of_isValueType valueType, Bool.false_eq_true, if_false,
      placed position inside, written, same, Memory.holds_toBytes, Value.word.injEq]
    exact eq_comm
  rw [each.holds_iff]
  constructor
  · intro stand position inside
    have inside' : position < members.length := each.counted ▸ inside
    have inside'' : position < encodings.length := each.covered ▸ inside'
    exact (part position inside' inside inside'').mp (stand position inside' inside'')
  · intro same position inside inside'
    have inside'' : position < values.length := each.counted ▸ inside
    exact (part position inside inside'' inside').mpr (same position inside'')

/-- All elements of an array of words are words. -/
theorem words_replicate (words : base.isValueType = true) (count : Nat) :
    ∀ member ∈ List.replicate count base, member.isValueType = true :=
  fun _ listed => (List.mem_replicate.mp listed).2 ▸ words

/-- The length word of an array stands where its length does. -/
theorem holds_lengthWord {bytes : ByteArray} {count : Nat} (small : count < 2 ^ 256) {start : Nat}
    (fixed : ∀ expected ∈ length, count = expected) :
    Memory.Holds bytes start (lengthWord length count) ↔ storedCount bytes length start = count := by
  cases length with
  | none =>
    have same : Memory.wordAt bytes start = Word.ofNat count ↔ (Memory.wordAt bytes start).toNat = count := by
      constructor
      · intro same
        rw [same]
        exact Nat.mod_eq_of_lt small
      · intro same
        rw [← same]
        exact (Word.ofNat_toNat _).symm
    exact Memory.holds_toBytes.trans same
  | some expected =>
    have same := fixed expected rfl
    simp [lengthWord, Memory.holds_nil, storedCount, same]

/-- The length word of an array has the size that it has in memory. -/
theorem length_lengthWord_eq (length : Option Nat) (count : Nat) :
    (lengthWord length count).length = lengthSize length := by
  cases length with
  | none => exact Word.toBytes_length _
  | some expected => rfl

/-- Where a flat value that is not bytes is read, its encoding stands. -/
theorem holds_of_readAs (flat : shape.IsFlat) (noBytes : shape.isBytesLike = false)
    (read : readAs machine shape word = .ok value) (encoded : encodeAs shape value = .ok encoding) :
    Memory.Holds machine.memory word.toNat encoding := by
  have limit : memoryLimit < 2 ^ 256 := by decide
  cases flat with
  | bytes bytesLike =>
    rw [noBytes] at bytesLike
    cases bytesLike
  | @array base length words =>
    obtain ⟨elements, rfl, -, counted, few, read⟩ := readAs_array.mp read
    obtain ⟨others, encodings, same, fixed, -, each, rfl⟩ := encodeAs_array.mp encoded
    cases same
    refine Memory.holds_append.mpr ⟨(holds_lengthWord (by omega) fixed).mpr counted, ?_⟩
    rw [length_lengthWord_eq]
    refine (each.holds_words (words_replicate words _)).mpr fun position inside => ?_
    have isWord := read position inside
    rw [readAs_word words] at isWord
    exact (Except.ok.inj isWord).symm
  | @composite shape members composite words =>
    obtain ⟨values, rfl, -, counted, read⟩ := (readAs_composite composite).mp read
    obtain ⟨others, encodings, same, -, each, rfl⟩ := (encodeAs_composite composite).mp encoded
    cases same
    refine (each.holds_words words).mpr fun position inside => ?_
    have isWord := read position (counted ▸ inside) inside
    rw [readAs_word (words _ (List.getElem_mem _))] at isWord
    exact (Except.ok.inj isWord).symm

end

end Value

end YulAbi

namespace YulAbi.Value

/-! ### Copies -/

/-- The bytes that the tail of a flat shape takes, given its length. -/
def tailSpan (shape : Shape) (length : Nat) : Nat :=
  if shape.isBytesLike then 32 + (length + 31) / 32 * 32 else 32 * (length + 1)

/-- The bytes that a flat value takes where its encoding is at an offset. -/
def flatExtent (bytes : ByteArray) (shape : Shape) (start : Nat) : Nat :=
  if shape.isDynamicallyEncoded then tailSpan shape (Memory.wordAt bytes start).toNat else shape.staticBytes

/-- The words from an offset on, as values. -/
def wordValues (bytes : ByteArray) (start count : Nat) : List Value :=
  (List.range count).map fun position => .word (Memory.wordAt bytes (start + wordBytes * position))

/-- The flat value whose encoding, or whatever else is there, is at an offset. -/
def flatValue (bytes : ByteArray) : Shape → Nat → Value
  | .bytes, start => .bytes (Memory.bytesAt bytes (start + wordBytes) (Memory.wordAt bytes start).toNat)
  | .string, start => .bytes (Memory.bytesAt bytes (start + wordBytes) (Memory.wordAt bytes start).toNat)
  | .array _ length, start => .array (wordValues bytes (start + lengthSize length) (storedCount bytes length start))
  | .struct _ members, start => .tuple (wordValues bytes start members.length)
  | .tuple members, start => .tuple (wordValues bytes start members.length)
  | _, start => .word (Memory.wordAt bytes start)

/-- Whether a value is the only one of a reasonable size whose encoding may be at an offset. -/
def Matches (bytes : ByteArray) (shape : Shape) (start : Nat) (value : Value) : Prop :=
  ∀ other encoding, encodeAs shape other = .ok encoding → Memory.Holds bytes start encoding →
    start + encoding.length < 2 ^ 256 → allocated shape other < 2 ^ 256 → value = other

section

variable {machine : Machine} {shape base : Shape} {length : Option Nat} {members : List Shape} {value : Value}
  {encoding : List UInt8} {word : Word} {bytes : ByteArray} {start low high : Nat}

/-- A tail has room for its length word and as many bytes as it says. -/
theorem le_tailSpan (shape : Shape) (length : Nat) : 32 + length ≤ tailSpan shape length := by
  unfold tailSpan
  split <;> omega

/-- The extent of a flat value with a length word. -/
theorem flatExtent_dynamic (dynamic : shape.isDynamicallyEncoded = true) :
    flatExtent bytes shape start = tailSpan shape (Memory.wordAt bytes start).toNat := by
  rw [flatExtent, dynamic, if_pos rfl]

/-- The extent of a flat value without a length word. -/
theorem flatExtent_static (static : shape.isDynamicallyEncoded = false) :
    flatExtent bytes shape start = shape.staticBytes := by
  rw [flatExtent, static, if_neg Bool.false_ne_true]

/-- A word is encoded by its bytes. -/
theorem Matches.ofWord (valueType : shape.isValueType = true) (bytes : ByteArray) (start : Nat) :
    Matches bytes shape start (.word (Memory.wordAt bytes start)) := by
  intro other encoding encoded holds _ _
  obtain ⟨word, rfl, rfl⟩ := (encodeAs_word valueType).mp encoded
  rw [Memory.holds_toBytes.mp holds]

/-- Bytes and text are encoded dynamically. -/
theorem isDynamicallyEncoded_of_isBytesLike (bytesLike : shape.isBytesLike = true) :
    shape.isDynamicallyEncoded = true := by
  cases shape with
  | bytes => rfl
  | string => rfl
  | _ => cases bytesLike

/-- The size of a flat encoding is told by its length word. -/
theorem length_of_holds (flat : shape.IsFlat) (encoded : encodeAs shape value = .ok encoding)
    (holds : Memory.Holds bytes start encoding) (small : encoding.length < 2 ^ 256) :
    encoding.length = flatExtent bytes shape start := by
  unfold flatExtent
  cases dynamic : shape.isDynamicallyEncoded with
  | false => exact length_encodeAs_static dynamic encoded
  | true =>
    rw [if_pos rfl]
    rcases flat.of_dynamic dynamic with bytesLike | ⟨base, rfl, words⟩
    · obtain ⟨content, rfl, rfl⟩ := (encodeAs_bytes bytesLike).mp encoded
      rw [length_encodeBytes] at small ⊢
      simp only [encodeBytes, Memory.holds_append, Memory.holds_toBytes] at holds
      rw [holds.1.1, tailSpan, if_pos bytesLike, Word.ofNat, BitVec.toNat_ofNat, Nat.mod_eq_of_lt (by omega)]
    · obtain ⟨elements, encodings, rfl, -, -, each, rfl⟩ := encodeAs_array.mp encoded
      have isWord := words_replicate words elements.length
      have total : (lengthWord none elements.length ++
          sequenceBytes (List.replicate elements.length base) encodings).length = 32 * (elements.length + 1) := by
        rw [List.length_append, length_lengthWord_eq, each.length_sequenceBytes, headBytesSum_words isWord,
          List.length_replicate, tailsBefore_static fun member listed =>
            Shape.isDynamicallyEncoded_of_isValueType (isWord member listed)]
        simp only [lengthSize, wordBytes]
        omega
      rw [total] at small ⊢
      have counted := Memory.holds_toBytes.mp (Memory.holds_append.mp holds).1
      rw [counted, tailSpan, if_neg (by simp [Shape.isBytesLike]), Word.ofNat, BitVec.toNat_ofNat,
        Nat.mod_eq_of_lt (by omega)]

/-- The bytes of words in a row. -/
theorem staticBytesSum_words (words : ∀ member ∈ members, member.isValueType = true) :
    Shape.staticBytesSum members = wordBytes * members.length := by
  rw [← Shape.headBytesSum_of_static (Shape.anyDynamicallyEncoded_words words), headBytesSum_words words]

/-- A flat value takes as much memory as its encoding. -/
theorem allocated_flat (flat : shape.IsFlat) (encoded : encodeAs shape value = .ok encoding) :
    allocated shape value = encoding.length := by
  cases flat with
  | bytes bytesLike =>
    obtain ⟨content, rfl, rfl⟩ := (encodeAs_bytes bytesLike).mp encoded
    rw [allocated_bytes bytesLike, length_encodeBytes]
  | array length words =>
    obtain ⟨elements, encodings, rfl, -, -, each, rfl⟩ := encodeAs_array.mp encoded
    have isWord := words_replicate words elements.length
    rw [allocated_array, allocatedEach_words isWord, List.length_append, length_lengthWord_eq,
      each.length_sequenceBytes, headBytesSum_words isWord, List.length_replicate,
      tailsBefore_static fun member listed => Shape.isDynamicallyEncoded_of_isValueType (isWord member listed)]
    omega
  | composite composite words =>
    obtain ⟨values, encodings, rfl, -, each, rfl⟩ := (encodeAs_composite composite).mp encoded
    rw [allocated_composite composite, allocatedEach_words words, each.length_sequenceBytes,
      headBytesSum_words words, tailsBefore_static fun member listed =>
        Shape.isDynamicallyEncoded_of_isValueType (words member listed)]

/-- The extent of bytes. -/
theorem flatExtent_bytes (bytesLike : shape.isBytesLike = true) :
    flatExtent bytes shape start = 32 + ((Memory.wordAt bytes start).toNat + 31) / 32 * 32 := by
  rw [flatExtent_dynamic (isDynamicallyEncoded_of_isBytesLike bytesLike), tailSpan, if_pos bytesLike]

/-- The extent of an array of words. -/
theorem flatExtent_array (words : base.isValueType = true) :
    flatExtent bytes (.array base length) start = lengthSize length + wordBytes * storedCount bytes length start := by
  cases length with
  | none =>
    rw [flatExtent_dynamic (by rw [Shape.isDynamicallyEncoded]), tailSpan, if_neg (by simp [Shape.isBytesLike])]
    simp only [lengthSize, storedCount, wordBytes]
    omega
  | some count =>
    rw [flatExtent_static (by rw [Shape.isDynamicallyEncoded, Shape.isDynamicallyEncoded_of_isValueType words]),
      Shape.staticBytes, Shape.staticBytes_word words]
    simp only [lengthSize, storedCount, wordBytes]
    omega

/-- The extent of a struct or tuple of words. -/
theorem flatExtent_composite (composite : shape.IsComposite members)
    (words : ∀ member ∈ members, member.isValueType = true) :
    flatExtent bytes shape start = wordBytes * members.length := by
  have static : shape.isDynamicallyEncoded = Shape.anyDynamicallyEncoded members ∧
      shape.staticBytes = Shape.staticBytesSum members := by
    rcases composite with ⟨name, rfl⟩ | rfl <;> exact ⟨rfl, by rw [Shape.staticBytes]⟩
  rw [flatExtent_static (static.1.trans (Shape.anyDynamicallyEncoded_words words)), static.2,
    staticBytesSum_words words]

/-- There are as many words as asked for. -/
theorem length_wordValues (bytes : ByteArray) (start count : Nat) : (wordValues bytes start count).length = count := by
  simp [wordValues]

/-- The words are those in a row. -/
theorem getElem_wordValues {count position : Nat} (inside : position < (wordValues bytes start count).length) :
    (wordValues bytes start count)[position] = .word (Memory.wordAt bytes (start + wordBytes * position)) := by
  simp [wordValues]

/-- Memory within the limit is a flat value. -/
theorem stands_flatValue (flat : shape.IsFlat) (lower : low ≤ word.toNat)
    (higher : word.toNat + flatExtent machine.memory shape word.toNat ≤ high) (fits : high ≤ memoryLimit) :
    Stands machine low high shape word (flatValue machine.memory shape word.toNat) := by
  cases flat with
  | bytes bytesLike =>
    rw [flatExtent_bytes bytesLike] at higher
    have same : flatValue machine.memory shape word.toNat = .bytes (Memory.bytesAt machine.memory
        (word.toNat + wordBytes) (Memory.wordAt machine.memory word.toNat).toNat) := by
      cases shape with
      | bytes => rfl
      | string => rfl
      | _ => cases bytesLike
    rw [same]
    refine .ofBytes bytesLike (Memory.length_bytesAt _ _ _).symm (Memory.holds_bytesAt _ _ _) lower ?_ fits
    rw [Memory.length_bytesAt, wordBytes]
    omega
  | @array base length words =>
    rw [flatExtent_array words] at higher
    have size := length_wordValues machine.memory (word.toNat + lengthSize length)
      (storedCount machine.memory length word.toNat)
    refine .ofArray size.symm lower (by rw [size]; omega) fits fun position inside => ?_
    rw [getElem_wordValues]
    exact .ofWord words _ _ _
  | @composite shape members composite words =>
    rw [flatExtent_composite composite words] at higher
    have same : flatValue machine.memory shape word.toNat =
        .tuple (wordValues machine.memory word.toNat members.length) := by
      rcases composite with ⟨name, rfl⟩ | rfl <;> rfl
    rw [same]
    refine .ofComposite composite (length_wordValues _ _ _) lower higher fits fun position inside inside' => ?_
    rw [getElem_wordValues]
    exact .ofWord (words _ (List.getElem_mem _)) _ _ _

/-- A flat value takes as much memory as its extent. -/
theorem allocated_flatValue (flat : shape.IsFlat) (bytes : ByteArray) (start : Nat) :
    allocated shape (flatValue bytes shape start) = flatExtent bytes shape start := by
  cases flat with
  | bytes bytesLike =>
    rw [flatExtent_bytes bytesLike]
    cases shape with
    | bytes => rw [flatValue, allocated_bytes rfl, Memory.length_bytesAt]
    | string => rw [flatValue, allocated_bytes rfl, Memory.length_bytesAt]
    | _ => cases bytesLike
  | array length words =>
    rw [flatValue, allocated_array, allocatedEach_words (words_replicate words _), length_wordValues,
      flatExtent_array words, Nat.add_zero]
  | composite composite words =>
    rw [flatExtent_composite composite words]
    rcases composite with ⟨name, rfl⟩ | rfl
    · rw [flatValue, allocated_composite (.inl ⟨name, rfl⟩), allocatedEach_words words, Nat.add_zero]
    · rw [flatValue, allocated_composite (.inr rfl), allocatedEach_words words, Nat.add_zero]

/-- Equal words in a row are equal values. -/
theorem wordValues_congr {others : ByteArray} {other count : Nat}
    (same : ∀ index < wordBytes * count, Memory.byteAt others (other + index) = Memory.byteAt bytes (start + index)) :
    wordValues others other count = wordValues bytes start count := by
  refine List.map_congr_left fun position listed => ?_
  have inside := Nat.mul_le_mul_left wordBytes (show position + 1 ≤ count from List.mem_range.mp listed)
  rw [Nat.mul_succ] at inside
  refine congrArg Value.word (Memory.wordAt_congr fun index below => ?_)
  rw [Nat.add_assoc, Nat.add_assoc]
  exact same _ (by simp only [wordBytes] at inside ⊢; omega)

/-- A copy of a flat value is that value. -/
theorem flatValue_congr (flat : shape.IsFlat) {others : ByteArray} {other : Nat}
    (same : ∀ index < flatExtent bytes shape start,
      Memory.byteAt others (other + index) = Memory.byteAt bytes (start + index)) :
    flatValue others shape other = flatValue bytes shape start := by
  cases flat with
  | bytes bytesLike =>
    rw [flatExtent_bytes bytesLike] at same
    have counted : Memory.wordAt others other = Memory.wordAt bytes start :=
      Memory.wordAt_congr fun index inside => same index (by omega)
    have content : Memory.bytesAt others (other + wordBytes) (Memory.wordAt bytes start).toNat =
        Memory.bytesAt bytes (start + wordBytes) (Memory.wordAt bytes start).toNat := by
      refine Memory.bytesAt_congr fun index inside => ?_
      rw [Nat.add_assoc, Nat.add_assoc]
      exact same _ (by simp only [wordBytes]; omega)
    cases shape with
    | bytes => rw [flatValue, flatValue, counted, content]
    | string => rw [flatValue, flatValue, counted, content]
    | _ => cases bytesLike
  | @array base length words =>
    rw [flatExtent_array words] at same
    have counted : storedCount others length other = storedCount bytes length start := by
      cases length with
      | some count => rfl
      | none =>
        refine congrArg BitVec.toNat (Memory.wordAt_congr fun index inside => same index ?_)
        simp only [lengthSize, wordBytes]
        omega
    rw [flatValue, flatValue, counted]
    refine congrArg Value.array (wordValues_congr fun index inside => ?_)
    rw [Nat.add_assoc, Nat.add_assoc]
    exact same _ (by omega)
  | @composite shape members composite words =>
    rw [flatExtent_composite composite words] at same
    have words := wordValues_congr same
    rcases composite with ⟨name, rfl⟩ | rfl
    · rw [flatValue, flatValue, words]
    · rw [flatValue, flatValue, words]

/-- Words that are encoded in a row are the words there. -/
theorem EncodesEach.wordValues {values : List Value} {encodings : List (List UInt8)}
    (each : EncodesEach members values encodings) (words : ∀ member ∈ members, member.isValueType = true)
    (holds : Memory.Holds bytes start (sequenceBytes members encodings)) :
    Value.wordValues bytes start members.length = values := by
  refine List.ext_getElem ((length_wordValues _ _ _).trans each.counted.symm) fun position inside inside' => ?_
  rw [getElem_wordValues, (each.holds_words words).mp holds position inside']

/-- A flat value is the only one that may be encoded where it is. -/
theorem matches_flatValue (flat : shape.IsFlat) (bytes : ByteArray) (start : Nat) :
    Matches bytes shape start (flatValue bytes shape start) := by
  intro other encoding encoded holds small few
  cases flat with
  | bytes bytesLike =>
    obtain ⟨content, rfl, rfl⟩ := (encodeAs_bytes bytesLike).mp encoded
    rw [length_encodeBytes] at small
    simp only [encodeBytes, Memory.holds_append, Memory.holds_toBytes, Word.toBytes_length] at holds
    obtain ⟨⟨counted, stored⟩, -⟩ := holds
    have size : (Memory.wordAt bytes start).toNat = content.length := by
      rw [counted]
      exact Nat.mod_eq_of_lt (by omega)
    have same : Memory.bytesAt bytes (start + wordBytes) (Memory.wordAt bytes start).toNat = content := by
      rw [size]
      exact stored
    cases shape with
    | bytes => rw [flatValue, same]
    | string => rw [flatValue, same]
    | _ => cases bytesLike
  | @array base length words =>
    obtain ⟨elements, encodings, rfl, fixed, -, each, rfl⟩ := encodeAs_array.mp encoded
    obtain ⟨lead, stored⟩ := Memory.holds_append.mp holds
    rw [length_lengthWord_eq] at stored
    rw [allocated_array] at few
    have many : elements.length ≤ wordBytes * elements.length := Nat.le_mul_of_pos_left _ (by decide)
    have same := each.wordValues (words_replicate words _) stored
    rw [List.length_replicate] at same
    rw [flatValue, (holds_lengthWord (by omega) fixed).mp lead, same]
  | @composite shape members composite words =>
    obtain ⟨values, encodings, rfl, -, each, rfl⟩ := (encodeAs_composite composite).mp encoded
    have same := each.wordValues words holds
    rcases composite with ⟨name, rfl⟩ | rfl
    · rw [flatValue, same]
    · rw [flatValue, same]

/-- A copy of a flat value stands in memory. -/
theorem stands_copy (flat : shape.IsFlat)
    (copied : ∀ index < flatExtent bytes shape start,
      Memory.byteAt machine.memory (word.toNat + index) = Memory.byteAt bytes (start + index))
    (lower : low ≤ word.toNat) (higher : word.toNat + flatExtent bytes shape start ≤ high)
    (fits : high ≤ memoryLimit) : Stands machine low high shape word (flatValue bytes shape start) := by
  have same := flatValue_congr flat copied
  have extent := allocated_flatValue flat machine.memory word.toNat
  rw [same, allocated_flatValue flat] at extent
  rw [← same]
  exact stands_flatValue flat lower (by rw [← extent]; exact higher) fits

/-- The memory of elements is a running total. -/
theorem allocatedEach_eq {elements : List Value} (total : Nat → Nat)
    (next : ∀ position (inside : position < elements.length),
      total (position + 1) = total position + allocated base elements[position]) :
    total elements.length = total 0 + allocatedEach (List.replicate elements.length base) elements := by
  induction elements generalizing total with
  | nil => rfl
  | cons element rest ih =>
    have later := ih (fun position => total (position + 1)) fun position inside =>
      next (position + 1) (by simpa using inside)
    have first := next 0 (by simp)
    simp only [List.getElem_cons_zero, Nat.zero_add] at first later
    rw [List.length_cons, List.replicate_succ, allocatedEach, later, first]
    omega

/-- Static elements take as much memory each. -/
theorem allocatedEach_static {elements : List Value} {encodings : List (List UInt8)} (flat : base.IsFlat)
    (static : base.isDynamicallyEncoded = false)
    (each : EncodesEach (List.replicate elements.length base) elements encodings) :
    allocatedEach (List.replicate elements.length base) elements = elements.length * base.staticBytes := by
  have total := allocatedEach_eq (fun position => position * base.staticBytes) fun position inside => by
      have inside' : position < (List.replicate elements.length base).length := by simpa using inside
      have encoded := each.each position inside' inside (each.covered ▸ inside')
      rw [List.getElem_replicate] at encoded
      rw [allocated_flat flat encoded, length_encodeAs_static static encoded, Nat.succ_mul]
  simpa using total.symm

/-- Dynamic elements take as much memory as their tails have bytes. -/
theorem allocatedEach_dynamic {elements : List Value} {encodings : List (List UInt8)} (flat : base.IsFlat)
    (dynamic : base.isDynamicallyEncoded = true)
    (each : EncodesEach (List.replicate elements.length base) elements encodings) :
    allocatedEach (List.replicate elements.length base) elements =
      tailsBefore (List.replicate elements.length base) encodings elements.length := by
  have total := allocatedEach_eq (tailsBefore (List.replicate elements.length base) encodings) fun position inside => by
      have inside' : position < (List.replicate elements.length base).length := by simpa using inside
      have encoded := each.each position inside' inside (each.covered ▸ inside')
      rw [List.getElem_replicate] at encoded
      rw [tailsBefore_succ inside' (each.covered ▸ inside'), tailBytes, List.getElem_replicate, if_pos dynamic,
        allocated_flat flat encoded]
  rw [tailsBefore_zero, Nat.zero_add] at total
  exact total.symm

end

end YulAbi.Value
