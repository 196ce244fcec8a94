import YulAbi.Proofs.Machine.Steps
import YulAbi.Proofs.Shape.Size
import YulAbi.Value.Memory

/-!
# Reading values

Which bytes are read for a value, and that its value depends on these bytes only. A value
stands somewhere if it is read there and none of its bytes lies elsewhere. How values of
arrays, structs and tuples stand follows from how their parts do.
-/

namespace YulAbi.Value

/-- The number of elements of an array that begins at an offset. -/
def storedCount (bytes : ByteArray) (length : Option Nat) (start : Nat) : Nat :=
  match length with
  | some expected => expected
  | none => (Memory.wordAt bytes start).toNat

mutual
/-- Whether the byte at an index is read for the value of a shape that a word stands for. -/
def Reads (machine : Machine) : Shape → Word → Nat → Prop
  | .bytes, address, index =>
    address.toNat ≤ index ∧ index < address.toNat + wordBytes + (machine.wordAt address.toNat).toNat
  | .string, address, index =>
    address.toNat ≤ index ∧ index < address.toNat + wordBytes + (machine.wordAt address.toNat).toNat
  | .array base length, address, index =>
    let count := storedCount machine.memory length address.toNat
    let first := address.toNat + lengthSize length
    (address.toNat ≤ index ∧ index < first + wordBytes * count) ∨
      ∃ position < count, Reads machine base (machine.wordAt (first + wordBytes * position)) index
  | .struct _ shapes, address, index => ReadsEach machine address.toNat shapes index
  | .tuple shapes, address, index => ReadsEach machine address.toNat shapes index
  | _, _, _ => False
/-- Whether the byte at an index is read for members whose words begin at `source`. -/
def ReadsEach (machine : Machine) (source : Nat) : List Shape → Nat → Prop
  | [], _ => False
  | shape :: shapes, index =>
    (source ≤ index ∧ index < source + wordBytes) ∨ Reads machine shape (machine.wordAt source) index ∨
      ReadsEach machine (source + wordBytes) shapes index
end

section

variable {machine before after : Machine} {shape base : Shape} {length : Option Nat} {word : Word}

/-- An offset passes if it is within the limit. -/
theorem checkedOffset_eq_ok {value : Word} {offset : Nat} :
    Machine.checkedOffset value = .ok offset ↔ value.toNat ≤ memoryLimit ∧ offset = value.toNat := by
  unfold Machine.checkedOffset
  split
  · rename_i fits
    constructor
    · intro h
      cases h
      exact ⟨fits, rfl⟩
    · rintro ⟨-, rfl⟩
      rfl
  · rename_i beyond
    constructor
    · intro h
      cases h
    · rintro ⟨fits, -⟩
      exact absurd fits beyond

/-- The words behind the first one of a sequence. -/
theorem next_word (source position : Nat) :
    source + wordBytes + wordBytes * position = source + wordBytes * (position + 1) := by
  rw [Nat.mul_succ]
  omega

/-- Elements are read one by one. -/
theorem readElements_eq_ok {read : Word → Except Fault Value} {source count : Nat} {values : List Value} :
    readElements read machine source count = .ok values ↔ values.length = count ∧
      ∀ position (inside : position < values.length),
        read (machine.wordAt (source + wordBytes * position)) = .ok values[position] := by
  induction count generalizing source values with
  | zero =>
    rw [readElements]
    constructor
    · intro h
      cases h
      exact ⟨rfl, fun position inside => absurd inside (by simp)⟩
    · rintro ⟨empty, -⟩
      rw [List.eq_nil_of_length_eq_zero empty]
  | succ count ih =>
    rw [readElements]
    constructor
    · intro h
      obtain ⟨first, got, h⟩ := Attempt.bind_eq_ok.mp h
      obtain ⟨others, rest, h⟩ := Attempt.bind_eq_ok.mp h
      cases h
      obtain ⟨counted, each⟩ := ih.mp rest
      refine ⟨by simp [counted], fun position inside => ?_⟩
      cases position with
      | zero => simpa using got
      | succ position =>
        have value := each position (by simpa using inside)
        rw [next_word] at value
        rw [List.getElem_cons_succ, ← value]
    · rintro ⟨counted, each⟩
      cases values with
      | nil => simp at counted
      | cons first others =>
        have got := each 0 (by simp)
        have rest := ih|>.mpr
          ⟨by simpa using counted, fun position inside => by
            have value := each (position + 1) (by simpa using inside)
            rw [next_word, value, List.getElem_cons_succ]⟩
        simp only [Nat.mul_zero, Nat.add_zero, List.getElem_cons_zero] at got
        rw [got, rest]
        rfl

/-- Members are read one by one. -/
theorem readEach_eq_ok {source : Nat} {shapes : List Shape} {values : List Value} :
    readEach machine source shapes = .ok values ↔ values.length = shapes.length ∧
      ∀ position (inside : position < shapes.length) (inside' : position < values.length),
        readAs machine shapes[position] (machine.wordAt (source + wordBytes * position)) =
          .ok values[position] := by
  induction shapes generalizing source values with
  | nil =>
    rw [readEach]
    constructor
    · intro h
      cases h
      exact ⟨rfl, fun position inside => absurd inside (by simp)⟩
    · rintro ⟨empty, -⟩
      rw [List.eq_nil_of_length_eq_zero empty]
  | cons shape rest ih =>
    rw [readEach]
    constructor
    · intro h
      obtain ⟨first, got, h⟩ := Attempt.bind_eq_ok.mp h
      obtain ⟨others, read, h⟩ := Attempt.bind_eq_ok.mp h
      cases h
      obtain ⟨counted, each⟩ := ih.mp read
      refine ⟨by simp [counted], fun position inside inside' => ?_⟩
      cases position with
      | zero => simpa using got
      | succ position =>
        have value := each position (by simpa using inside) (by simpa using inside')
        rw [next_word] at value
        rw [List.getElem_cons_succ, List.getElem_cons_succ, ← value]
    · rintro ⟨counted, each⟩
      cases values with
      | nil => simp at counted
      | cons first others =>
        have got := each 0 (by simp) (by simp)
        have read := ih|>.mpr
          ⟨by simpa using counted, fun position inside inside' => by
            have value := each (position + 1) (by simpa using inside) (by simpa using inside')
            rw [List.getElem_cons_succ, List.getElem_cons_succ] at value
            rw [next_word, value]⟩
        simp only [Nat.mul_zero, Nat.add_zero, List.getElem_cons_zero] at got
        rw [got, read]
        rfl

/-- The bytes of members are those of their words and of the members themselves. -/
theorem readsEach_iff {source index : Nat} {shapes : List Shape} :
    ReadsEach machine source shapes index ↔
      (source ≤ index ∧ index < source + wordBytes * shapes.length) ∨
        ∃ position, ∃ inside : position < shapes.length,
          Reads machine shapes[position] (machine.wordAt (source + wordBytes * position)) index := by
  induction shapes generalizing source with
  | nil =>
    rw [ReadsEach]
    constructor
    · exact False.elim
    · rintro (⟨low, high⟩ | ⟨position, inside, -⟩)
      · simp at high
        omega
      · simp at inside
  | cons shape rest ih =>
    have total : wordBytes * (shape :: rest).length = wordBytes * rest.length + wordBytes := by
      rw [List.length_cons, Nat.mul_succ]
    rw [ReadsEach, ih]
    constructor
    · rintro (own | first | ⟨low, high⟩ | ⟨position, inside, reads⟩)
      · exact .inl ⟨by omega, by omega⟩
      · exact .inr ⟨0, by simp, by simpa using first⟩
      · exact .inl ⟨by omega, by omega⟩
      · rw [next_word] at reads
        exact .inr ⟨position + 1, by simpa using inside, by simpa using reads⟩
    · rintro (⟨low, high⟩ | ⟨position, inside, reads⟩)
      · by_cases own : index < source + wordBytes
        · exact .inl ⟨low, own⟩
        · exact .inr (.inr (.inl ⟨by omega, by omega⟩))
      · cases position with
        | zero => exact .inr (.inl (by simpa using reads))
        | succ position =>
          rw [← next_word] at reads
          exact .inr (.inr (.inr ⟨position, by simpa using inside, by simpa using reads⟩))

/-- Bytes are read as bytes and text. -/
theorem readAs_bytes {value : Value} (bytesLike : shape.isBytesLike = true) :
    readAs machine shape word = .ok value ↔ ∃ content : List UInt8, value = .bytes content ∧
      word.toNat ≤ memoryLimit ∧ (machine.wordAt word.toNat).toNat = content.length ∧
      content.length ≤ memoryLimit ∧ Memory.Holds machine.memory (word.toNat + wordBytes) content := by
  have unfolded : readAs machine shape word = readBytes machine word := by
    cases shape with
    | bytes => rfl
    | string => rfl
    | _ => cases bytesLike
  rw [unfolded, readBytes]
  constructor
  · intro h
    obtain ⟨pointer, passed, h⟩ := Attempt.bind_eq_ok.mp h
    obtain ⟨size, passed', h⟩ := Attempt.bind_eq_ok.mp h
    obtain ⟨fits, rfl⟩ := checkedOffset_eq_ok.mp passed
    obtain ⟨fits', rfl⟩ := checkedOffset_eq_ok.mp passed'
    cases h
    rw [Memory.toList_slice]
    exact ⟨_, rfl, fits, (Memory.length_bytesAt _ _ _).symm, by rwa [Memory.length_bytesAt],
      Memory.holds_bytesAt _ _ _⟩
  · rintro ⟨content, rfl, fits, counted, fits', holds⟩
    refine Attempt.bind_eq_ok.mpr ⟨_, checkedOffset_eq_ok.mpr ⟨fits, rfl⟩, ?_⟩
    refine Attempt.bind_eq_ok.mpr ⟨_, checkedOffset_eq_ok.mpr ⟨by omega, rfl⟩, ?_⟩
    rw [counted, Memory.toList_slice, holds]
    rfl

/-- The number of elements that are read for an array. -/
def countElements (machine : Machine) (length : Option Nat) (start : Nat) : Except Fault Nat :=
  match length with
  | some expected => if expected ≤ memoryLimit then pure expected else throw (.memoryLimit expected)
  | none => Machine.checkedOffset (machine.wordAt start)

/-- The number of elements is that in memory, within the limit. -/
theorem countElements_eq_ok {start count : Nat} : countElements machine length start = .ok count ↔
    storedCount machine.memory length start ≤ memoryLimit ∧ count = storedCount machine.memory length start := by
  cases length with
  | none => exact checkedOffset_eq_ok
  | some expected =>
    unfold countElements storedCount
    dsimp only
    split
    · rename_i fits
      constructor
      · intro h
        cases h
        exact ⟨fits, rfl⟩
      · rintro ⟨-, rfl⟩
        rfl
    · rename_i beyond
      constructor
      · intro h
        cases h
      · rintro ⟨fits, -⟩
        exact absurd fits beyond

/-- How an array is read. -/
theorem readAs_array_eq : readAs machine (.array base length) word = (do
    let pointer ← Machine.checkedOffset word
    let count ← countElements machine length pointer
    return .array (← readElements (readAs machine base) machine (pointer + lengthSize length) count)) := by
  cases length with
  | none => rfl
  | some expected =>
    rw [readAs]
    dsimp only [countElements]
    split <;> rfl

/-- Arrays are read by their elements. -/
theorem readAs_array {value : Value} :
    readAs machine (.array base length) word = .ok value ↔ ∃ elements : List Value,
      value = .array elements ∧ word.toNat ≤ memoryLimit ∧
      storedCount machine.memory length word.toNat = elements.length ∧ elements.length ≤ memoryLimit ∧
      ∀ position (inside : position < elements.length),
        readAs machine base (machine.wordAt (word.toNat + lengthSize length + wordBytes * position)) =
          .ok elements[position] := by
  rw [readAs_array_eq]
  constructor
  · intro h
    obtain ⟨pointer, passed, h⟩ := Attempt.bind_eq_ok.mp h
    obtain ⟨fits, rfl⟩ := checkedOffset_eq_ok.mp passed
    obtain ⟨count, counted, h⟩ := Attempt.bind_eq_ok.mp h
    obtain ⟨elements, read, h⟩ := Attempt.bind_eq_ok.mp h
    cases h
    obtain ⟨total, each⟩ := readElements_eq_ok.mp read
    obtain ⟨fits', same⟩ := countElements_eq_ok.mp counted
    exact ⟨elements, rfl, fits, by omega, by omega, each⟩
  · rintro ⟨elements, rfl, fits, counted, fits', each⟩
    refine Attempt.bind_eq_ok.mpr ⟨_, checkedOffset_eq_ok.mpr ⟨fits, rfl⟩, ?_⟩
    refine Attempt.bind_eq_ok.mpr ⟨_, countElements_eq_ok.mpr ⟨by omega, counted.symm⟩, ?_⟩
    exact Attempt.bind_eq_ok.mpr ⟨elements, readElements_eq_ok.mpr ⟨rfl, each⟩, rfl⟩

/-- Structs and tuples are read by their members. -/
theorem readAs_composite {members : List Shape} {value : Value} (composite : shape.IsComposite members) :
    readAs machine shape word = .ok value ↔ ∃ values : List Value,
      value = .tuple values ∧ word.toNat ≤ memoryLimit ∧ values.length = members.length ∧
      ∀ position (inside : position < members.length) (inside' : position < values.length),
        readAs machine members[position] (machine.wordAt (word.toNat + wordBytes * position)) =
          .ok values[position] := by
  have unfolded : readAs machine shape word = (do
      let pointer ← Machine.checkedOffset word
      return .tuple (← readEach machine pointer members)) := by
    rcases composite with ⟨name, rfl⟩ | rfl <;> rfl
  rw [unfolded]
  constructor
  · intro h
    obtain ⟨pointer, passed, h⟩ := Attempt.bind_eq_ok.mp h
    obtain ⟨fits, rfl⟩ := checkedOffset_eq_ok.mp passed
    obtain ⟨values, read, h⟩ := Attempt.bind_eq_ok.mp h
    cases h
    obtain ⟨counted, each⟩ := readEach_eq_ok.mp read
    exact ⟨values, rfl, fits, counted, each⟩
  · rintro ⟨values, rfl, fits, counted, each⟩
    refine Attempt.bind_eq_ok.mpr ⟨_, checkedOffset_eq_ok.mpr ⟨fits, rfl⟩, ?_⟩
    exact Attempt.bind_eq_ok.mpr ⟨values, readEach_eq_ok.mpr ⟨counted, each⟩, rfl⟩

/-- A value of one word is its word. -/
theorem readAs_word (valueType : shape.isValueType = true) : readAs machine shape word = .ok (.word word) := by
  cases shape with
  | bytes | string | array _ _ | struct _ _ | tuple _ | error _ _ | event _ _ _ _ => cases valueType
  | _ => rfl

/-- No byte is read for a value of one word. -/
theorem not_reads_word (valueType : shape.isValueType = true) (index : Nat) : ¬ Reads machine shape word index := by
  cases shape with
  | bytes | string | array _ _ | struct _ _ | tuple _ | error _ _ | event _ _ _ _ => cases valueType
  | _ => exact id

end

end YulAbi.Value
