import YulAbi.Proofs.Value.Reads

/-!
# Where values stand

A value stands between two offsets if it is read there and none of its bytes lies
elsewhere. It still stands there after changes elsewhere. How arrays, structs and tuples
stand follows from how their parts do.
-/

namespace YulAbi.Value

section

variable {machine before after : Machine} {shape base : Shape} {length : Option Nat} {word : Word}

/-- The bytes that are read for bytes and text. -/
theorem reads_bytes {index : Nat} (bytesLike : shape.isBytesLike = true) :
    Reads machine shape word index ↔ word.toNat ≤ index ∧
      index < word.toNat + wordBytes + (machine.wordAt word.toNat).toNat := by
  cases shape with
  | bytes => exact Iff.rfl
  | string => exact Iff.rfl
  | _ => cases bytesLike

/-- The bytes that are read for a struct or tuple. -/
theorem reads_composite {members : List Shape} {index : Nat} (composite : shape.IsComposite members) :
    Reads machine shape word index ↔
      (word.toNat ≤ index ∧ index < word.toNat + wordBytes * members.length) ∨
        ∃ position, ∃ inside : position < members.length,
          Reads machine members[position] (machine.wordAt (word.toNat + wordBytes * position)) index := by
  have unfolded : Reads machine shape word index ↔ ReadsEach machine word.toNat members index := by
    rcases composite with ⟨name, rfl⟩ | rfl <;> exact Iff.rfl
  rw [unfolded, readsEach_iff]

/-- Whether reading a value is the same before and after. -/
def ReadsAlike (before after : Machine) (shape : Shape) (word : Word) : Prop :=
  readAs after shape word = readAs before shape word ∧
    ∀ index, Reads after shape word index ↔ Reads before shape word index

/-- Elements that are read alike. -/
theorem readElements_congr {source count : Nat}
    (words : ∀ position < count, after.wordAt (source + wordBytes * position) =
      before.wordAt (source + wordBytes * position))
    (alike : ∀ position < count, ReadsAlike before after base (before.wordAt (source + wordBytes * position))) :
    readElements (readAs after base) after source count =
      readElements (readAs before base) before source count := by
  induction count generalizing source with
  | zero => rfl
  | succ count ih =>
    have first := words 0 (by omega)
    have same := (alike 0 (by omega)).1
    rw [Nat.mul_zero, Nat.add_zero] at first same
    have rest := @ih (source + wordBytes)
      (fun position below => by simpa only [next_word] using words (position + 1) (by omega))
      (fun position below => by simpa only [next_word] using alike (position + 1) (by omega))
    rw [readElements, readElements, first, same, rest]

/-- Bytes and text are read alike if the bytes that are read are the same. -/
theorem ReadsAlike.ofBytes (bytesLike : shape.isBytesLike = true)
    (same : ∀ index, Reads before shape word index →
      Memory.byteAt after.memory index = Memory.byteAt before.memory index) :
    ReadsAlike before after shape word := by
  simp only [reads_bytes bytesLike] at same
  have counted : after.wordAt word.toNat = before.wordAt word.toNat :=
    Memory.wordAt_congr fun index inside => same _ ⟨by omega, by simp only [wordBytes]; omega⟩
  have content : Memory.bytesAt after.memory (word.toNat + wordBytes) (before.wordAt word.toNat).toNat =
      Memory.bytesAt before.memory (word.toNat + wordBytes) (before.wordAt word.toNat).toNat :=
    Memory.bytesAt_congr fun index inside => same _ ⟨by omega, by omega⟩
  have read : ∀ machine : Machine, readAs machine shape word = readBytes machine word := by
    cases shape with
    | bytes => exact fun _ => rfl
    | string => exact fun _ => rfl
    | _ => cases bytesLike
  refine ⟨?_, fun index => by rw [reads_bytes bytesLike, reads_bytes bytesLike, counted]⟩
  rw [read, read, readBytes, readBytes]
  refine Attempt.bind_congr fun pointer passed => ?_
  obtain ⟨-, rfl⟩ := checkedOffset_eq_ok.mp passed
  rw [counted]
  refine Attempt.bind_congr fun size passed' => ?_
  obtain ⟨-, rfl⟩ := checkedOffset_eq_ok.mp passed'
  rw [Memory.toList_slice, Memory.toList_slice, content]

/-- The number of elements depends on the length word only. -/
theorem storedCount_congr {bytes others : ByteArray} {start other : Nat}
    (same : ∀ index < lengthSize length, Memory.byteAt others (other + index) = Memory.byteAt bytes (start + index)) :
    storedCount others length other = storedCount bytes length start := by
  cases length with
  | some expected => rfl
  | none => exact congrArg BitVec.toNat (Memory.wordAt_congr same)

/-- Arrays are read alike if the bytes that are read are the same and their elements are. -/
theorem ReadsAlike.ofArray (same : ∀ index, Reads before (.array base length) word index →
      Memory.byteAt after.memory index = Memory.byteAt before.memory index)
    (alike : ∀ position < storedCount before.memory length word.toNat, ReadsAlike before after base
      (before.wordAt (word.toNat + lengthSize length + wordBytes * position))) :
    ReadsAlike before after (.array base length) word := by
  have counted : storedCount after.memory length word.toNat = storedCount before.memory length word.toNat := by
    cases length with
    | some expected => rfl
    | none =>
      have own : after.wordAt word.toNat = before.wordAt word.toNat := by
        refine Memory.wordAt_congr fun index inside => same _ (.inl ⟨by omega, ?_⟩)
        simp only [lengthSize, wordBytes]
        omega
      exact congrArg BitVec.toNat own
  have words : ∀ position < storedCount before.memory length word.toNat,
      after.wordAt (word.toNat + lengthSize length + wordBytes * position) =
        before.wordAt (word.toNat + lengthSize length + wordBytes * position) := by
    intro position below
    refine Memory.wordAt_congr fun index inside => same _ (.inl ⟨by omega, ?_⟩)
    have := Nat.mul_le_mul_left wordBytes (show position + 1 ≤ _ from below)
    rw [Nat.mul_succ] at this
    simp only [wordBytes] at this ⊢
    omega
  refine ⟨?_, fun index => ?_⟩
  · rw [readAs_array_eq, readAs_array_eq]
    refine Attempt.bind_congr fun pointer passed => ?_
    obtain ⟨-, rfl⟩ := checkedOffset_eq_ok.mp passed
    have numbered : countElements after length word.toNat = countElements before length word.toNat := by
      cases length with
      | some expected => rfl
      | none =>
        have own : after.wordAt word.toNat = before.wordAt word.toNat := BitVec.eq_of_toNat_eq counted
        simp only [countElements, own]
    rw [numbered]
    refine Attempt.bind_congr fun count passed' => ?_
    obtain ⟨-, rfl⟩ := countElements_eq_ok.mp passed'
    rw [readElements_congr words alike]
  · simp only [Reads, counted]
    refine or_congr_right (exists_congr fun position => and_congr_right fun below => ?_)
    rw [words position below]
    exact (alike position below).2 index

mutual
/-- How a value is read depends on the bytes that are read for it only. -/
theorem readAs_congr (shape : Shape) (word : Word)
    (same : ∀ index, Reads before shape word index →
      Memory.byteAt after.memory index = Memory.byteAt before.memory index) :
    ReadsAlike before after shape word := by
  cases shape with
  | bytes => exact .ofBytes rfl same
  | string => exact .ofBytes rfl same
  | array base length =>
    refine .ofArray same fun position below => readAs_congr base _ fun index inside => ?_
    exact same index (.inr ⟨position, below, inside⟩)
  | struct name members =>
    obtain ⟨read, reads⟩ := readEach_congr word.toNat members same
    refine ⟨?_, reads⟩
    rw [readAs, readAs]
    refine Attempt.bind_congr fun pointer passed => ?_
    obtain ⟨-, rfl⟩ := checkedOffset_eq_ok.mp passed
    rw [read]
  | tuple members =>
    obtain ⟨read, reads⟩ := readEach_congr word.toNat members same
    refine ⟨?_, reads⟩
    rw [readAs, readAs]
    refine Attempt.bind_congr fun pointer passed => ?_
    obtain ⟨-, rfl⟩ := checkedOffset_eq_ok.mp passed
    rw [read]
  | _ => exact ⟨rfl, fun _ => Iff.rfl⟩
/-- The same for members. -/
theorem readEach_congr (source : Nat) (shapes : List Shape)
    (same : ∀ index, ReadsEach before source shapes index →
      Memory.byteAt after.memory index = Memory.byteAt before.memory index) :
    readEach after source shapes = readEach before source shapes ∧
      ∀ index, ReadsEach after source shapes index ↔ ReadsEach before source shapes index := by
  cases shapes with
  | nil => exact ⟨rfl, fun _ => Iff.rfl⟩
  | cons shape rest =>
    have first : after.wordAt source = before.wordAt source :=
      Memory.wordAt_congr fun index inside => same _ (.inl ⟨by omega, by simp only [wordBytes]; omega⟩)
    obtain ⟨read, reads⟩ := readAs_congr shape (before.wordAt source) fun index inside =>
      same index (.inr (.inl inside))
    obtain ⟨read', reads'⟩ := readEach_congr (source + wordBytes) rest fun index inside =>
      same index (.inr (.inr inside))
    refine ⟨by rw [readEach, readEach, first, read, read'], fun index => ?_⟩
    rw [ReadsEach, ReadsEach, first, reads, reads']
end

/-- Whether a word stands for a value whose bytes lie between two offsets. -/
structure Stands (machine : Machine) (low high : Nat) (shape : Shape) (word : Word) (value : Value) : Prop where
  /-- The value is read. -/
  read : readAs machine shape word = .ok value
  /-- Its bytes lie between the offsets. -/
  within : ∀ index, Reads machine shape word index → low ≤ index ∧ index < high

variable {low high : Nat} {value : Value} {members : List Shape}

/-- A value stands in every larger stretch. -/
theorem Stands.mono (h : Stands machine low high shape word value) {low' high' : Nat} (lower : low' ≤ low)
    (higher : high ≤ high') : Stands machine low' high' shape word value :=
  ⟨h.read, fun index inside => by have := h.within index inside; omega⟩

/-- A value still stands after changes elsewhere. -/
theorem Stands.changes {region : Nat → Prop} (h : Stands before low high shape word value)
    (changed : before.ChangesOnly region after) (apart : ∀ index, low ≤ index → index < high → ¬ region index) :
    Stands after low high shape word value := by
  have alike := readAs_congr shape word fun index inside =>
    changed.memory index (apart index (h.within index inside).1 (h.within index inside).2)
  exact ⟨alike.1.trans h.read, fun index inside => h.within index ((alike.2 index).mp inside)⟩

/-- A word stands for itself. -/
theorem Stands.ofWord (valueType : shape.isValueType = true) (low high : Nat) (word : Word) :
    Stands machine low high shape word (.word word) :=
  ⟨readAs_word valueType, fun index inside => absurd inside (not_reads_word valueType index)⟩

/-- Bytes and text stand behind their length. -/
theorem Stands.ofBytes {content : List UInt8} (bytesLike : shape.isBytesLike = true)
    (counted : (machine.wordAt word.toNat).toNat = content.length)
    (holds : Memory.Holds machine.memory (word.toNat + wordBytes) content) (lower : low ≤ word.toNat)
    (higher : word.toNat + wordBytes + content.length ≤ high) (fits : high ≤ memoryLimit) :
    Stands machine low high shape word (.bytes content) := by
  refine ⟨(readAs_bytes bytesLike).mpr ⟨content, rfl, by omega, counted, by omega, holds⟩, fun index inside => ?_⟩
  have := (reads_bytes bytesLike).mp inside
  omega

/-- An array stands if its elements do. -/
theorem Stands.ofArray {elements : List Value} (counted : storedCount machine.memory length word.toNat = elements.length)
    (lower : low ≤ word.toNat) (higher : word.toNat + lengthSize length + wordBytes * elements.length ≤ high)
    (fits : high ≤ memoryLimit)
    (each : ∀ position (inside : position < elements.length), Stands machine low high base
      (machine.wordAt (word.toNat + lengthSize length + wordBytes * position)) elements[position]) :
    Stands machine low high (.array base length) word (.array elements) := by
  have many : elements.length ≤ wordBytes * elements.length := Nat.le_mul_of_pos_left _ (by decide)
  refine ⟨readAs_array.mpr ⟨elements, rfl, by omega, counted, by omega, fun position inside =>
    (each position inside).read⟩, fun index inside => ?_⟩
  rcases inside with own | ⟨position, below, inside⟩
  · rw [counted] at own
    omega
  · exact (each position (counted ▸ below)).within index inside

/-- A struct or tuple stands if its members do. -/
theorem Stands.ofComposite {values : List Value} (composite : shape.IsComposite members)
    (counted : values.length = members.length) (lower : low ≤ word.toNat)
    (higher : word.toNat + wordBytes * members.length ≤ high) (fits : high ≤ memoryLimit)
    (each : ∀ position (inside : position < members.length) (inside' : position < values.length),
      Stands machine low high members[position] (machine.wordAt (word.toNat + wordBytes * position))
        values[position]) :
    Stands machine low high shape word (.tuple values) := by
  refine ⟨(readAs_composite composite).mpr ⟨values, rfl, by omega, counted, fun position inside inside' =>
    (each position inside inside').read⟩, fun index inside => ?_⟩
  rcases (reads_composite composite).mp inside with own | ⟨position, below, inside⟩
  · omega
  · exact (each position below (counted ▸ below)).within index inside

end

end YulAbi.Value
